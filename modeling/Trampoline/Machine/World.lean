import Std.Data.TreeMap
import Trampoline.Machine.Ownership

/-!
The world: shared objects, the host's state and the threads. A step of the world is one turn of one
thread, or the passing of time. Nothing here chooses among the threads that can act.
-/

namespace Trampoline

abbrev Threads (H : Host) := Std.TreeMap ThreadId (Thread H)

/-- Shared objects, the host's state and the threads that have started. A number is given only
once. -/
structure World (H : Host) where
  heap : Heap H.Data H.Fn
  state : H.State
  threads : Threads H
  /-- The number of the thread that starts next. -/
  next : ThreadId

variable {H : Host}

/-- The turn of host code that has made a move. -/
def Move.turn (heap : Heap H.Data H.Fn) : Move H.Data H.Fn H.Code H.Condition → Turn H
  | .run code => .run heap (.user code .start)
  | .ret v => .ret heap v
  | .raise payload => .raise heap payload
  | .ask r code => .call heap (.request r) (.user code)
  | .wait condition deadline code =>
      .sleep heap (.host condition deadline) (.user code .held) (.user code .timedOut)

/-- Wakes the thread if it sleeps at a gate. -/
def Thread.notified (gate : Gate) : Thread H → Thread H
  | ⟨name, .asleep (.gate g deadline) woken missed, stack⟩ =>
      if g = gate then ⟨name, .run woken, stack⟩
      else ⟨name, .asleep (.gate g deadline) woken missed, stack⟩
  | thread => thread

namespace World

/-- What threads, the host and the schedulers keep. -/
def roots (w : World H) : List Ref :=
  let refs := H.stateRefs w.state []
  let refs := w.heap.schedulers.foldl (fun refs s => s.refs refs) refs
  w.threads.foldl (fun refs _ thread => thread.refs refs) refs

def reach (w : World H) : Met := w.heap.reach w.roots

def census (w : World H) : Census := w.heap.census w.roots

/-- Whether the sending end of a channel is kept. -/
def hasSender (w : World H) (id : ChannelId) : Bool :=
  w.reach.contains (.sender id) || w.census.count (.sender id) ≠ 0

def reached (w : World H) : Option Nat → Bool
  | some time => time ≤ w.heap.clock
  | none => false

/-- Whether what a thread waits for has happened, as far as the state of objects and time tells:
`some true` wakes it, `some false` tells it that it has missed it. -/
def arrival (w : World H) : Wait H → Option Bool
  | .gate _ deadline => if w.reached deadline then some false else none
  | .channel id => if (w.heap.received? id).isSome then some true else none
  | .sender id => some (w.hasSender id)
  | .clock time => if w.reached (some time) then some true else none
  | .host condition deadline =>
      if H.holds w.heap w.state condition then some true
      else if w.reached deadline then some false else none
  | .forever => none

def allows (w : World H) : Thread H → Bool
  | ⟨_, .run _, _⟩ => true
  | ⟨_, .ret _, stack⟩ => !stack.isEmpty
  | ⟨_, .raise _, stack⟩ => !stack.isEmpty
  | ⟨_, .asleep (.sender _) _ _, _⟩ => true
  | ⟨_, .asleep wait _ _, _⟩ => (w.arrival wait).isSome

def isReady (w : World H) (t : ThreadId) : Bool :=
  match w.threads[t]? with
  | some thread => w.allows thread
  | none => false

/-- Whether the thread waits for the content of an empty channel that passes a test. -/
def awaits (w : World H) (test : ChannelId → Bool) (t : ThreadId) : Bool :=
  match w.threads[t]? with
  | some ⟨_, .asleep (.channel id) _ _, _⟩ => (w.heap.received? id).isNone && test id
  | _ => false

/-- Whether the thread waits for what a channel cannot bring any more. -/
def isDisconnected (w : World H) (t : ThreadId) : Bool := w.awaits (fun id => !w.hasSender id) t

/-- Puts a turn of thread `t` into effect. -/
def apply (state : H.State) (threads : Threads H) (next t : ThreadId) (name : Option String)
    (stack : List (Return H)) (turn : Turn H) : World H :=
  let threads := threads.insert t ⟨name, turn.control, turn.pushed ++ stack⟩
  let threads :=
    match turn.notified with
    | some gate => threads.map fun _ thread => thread.notified gate
    | none => threads
  match turn.born with
  | some thread => ⟨turn.heap, state, threads.insert next thread, next + 1⟩
  | none => ⟨turn.heap, state, threads, next⟩

/-- One step of thread `t`, which is not asleep. -/
def act (w : World H) (t : ThreadId) (thread : Thread H) : World H :=
  match w, thread with
  | ⟨heap, state, threads, next⟩, ⟨name, control, stack⟩ =>
      match control, stack with
      | .run (.user code reply), stack =>
          let (state, move) := H.advance ⟨t, name⟩ heap state code reply
          apply state threads next t name stack (move.turn heap)
      | .run task, stack =>
          apply state threads next t name stack (task.turn ⟨t, name⟩ stack heap)
      | .ret v, back :: rest => apply state threads next t name rest (back.resume heap v)
      | .raise payload, back :: rest =>
          apply state threads next t name rest (back.unwind heap payload)
      | _, _ => ⟨heap, state, threads, next⟩

/-- Wakes a sleeping thread: `arrived` tells whether what it waits for has come. -/
def rouse (w : World H) (t : ThreadId) (arrived : Bool) : World H :=
  { w with
    threads := w.threads.modify t fun thread =>
      match thread with
      | ⟨name, .asleep _ woken missed, stack⟩ =>
          ⟨name, .run (if arrived then woken else missed), stack⟩
      | thread => thread }

/-- What happens to thread `t` if it can go on. -/
def step? (w : World H) (t : ThreadId) : Option (World H) :=
  match w.threads[t]? with
  | some ⟨_, .asleep wait _ _, _⟩ =>
      match w.arrival wait with
      | some arrived => some (w.rouse t arrived)
      | none => if w.isDisconnected t then some (w.rouse t false) else none
  | some thread => if w.allows thread then some (w.act t thread) else none
  | none => none

def passTo (w : World H) (time : Nat) : World H :=
  { w with heap := { w.heap with clock := max w.heap.clock time } }

/-- Threads that have ended are forgotten, but for those that are to be looked at. -/
def forget (w : World H) (keep : ThreadId → Bool) : World H :=
  { w with threads := w.threads.filter fun t thread => keep t || !thread.ended }

/-- The steps of the world, in any order of the threads. -/
inductive Step (w : World H) : World H → Prop where
  | thread {t : ThreadId} {w' : World H} : w.step? t = some w' → Step w w'
  | time (n : Nat) : Step w (w.passTo n)
  | forget (keep : ThreadId → Bool) : Step w (w.forget keep)

/-- What the world can come to. -/
inductive Reaches (w : World H) : World H → Prop where
  | refl : Reaches w w
  | tail {v v' : World H} : Reaches w v → Step v v' → Reaches w v'

end World

end Trampoline
