import Trampoline.Machine.World

/-!
One run of the world among all possible ones. A thread goes on as long as it can; then the next one
that can goes on. When none can, receivers learn that their senders are gone; when there are none of
these either, time passes to the earliest deadline.

A thread that never blocks does not keep the others from going on: after a slice of steps it is the
next thread's turn. Threads run side by side, so time passes once all that can go on have had a
slice: little at first, so that a computation is not late for a deadline, and more and more later
on, so that a thread that never ends does not put the deadline off. Receivers learn about their
senders after a slice too, though the less often the longer nothing has come of looking for them.
-/

namespace Trampoline

variable {H : Host}

/-- The time at which a wait ends by itself. -/
def Wait.time? : Wait H → Option Nat
  | .gate _ deadline => deadline
  | .clock time => some time
  | .host _ deadline => deadline
  | _ => none

/-- What the next step of a thread costs. Host code does more in a step than the library. -/
def Thread.cost : Thread H → Nat
  | ⟨_, .run (.user _ _), _⟩ => 40
  | _ => 1

namespace World

/-- One step of thread `t`, which could go on at once. -/
def proceed (w : World H) (t : ThreadId) (thread : Thread H) : World H :=
  match thread with
  | ⟨_, .asleep wait _ _, _⟩ => w.rouse t ((w.arrival wait).getD true)
  | thread => w.act t thread

def threadAfter (w : World H) (t : ThreadId) : Option ThreadId :=
  (w.threads.getKeyGT? t).or w.threads.minKey?

/-- Among the `n` threads after `t`, in a circle, the first that passes a test. -/
def search (w : World H) (test : ThreadId → Bool) : Nat → ThreadId → Option ThreadId
  | 0, _ => none
  | n + 1, t =>
      match w.threadAfter t with
      | some next => if test next then some next else search w test n next
      | none => none

def nextReady (w : World H) (t : ThreadId) : Option ThreadId :=
  w.search w.isReady w.threads.size t

/-- The next thread that waits for what a channel cannot bring any more. The census is taken only if
some thread waits for a sender that cannot be reached. -/
def nextDisconnected (w : World H) (t : ThreadId) : Option ThreadId :=
  let roots := w.roots
  let reach := w.heap.reach roots
  let next test := w.search (w.awaits test) w.threads.size t
  match next fun id => !reach.contains (.sender id) with
  | none => none
  | some _ =>
      let census := w.heap.census roots
      next fun id => !reach.contains (.sender id) && census.count (.sender id) = 0

def nextTime (w : World H) : Option Nat :=
  w.threads.foldl
    (fun earliest _ thread =>
      match thread.control with
      | .asleep wait _ _ =>
          match earliest, wait.time? with
          | some time, some other => some (min time other)
          | none, other => other
          | time, none => time
      | _ => earliest)
    none

/-- What a slice of a run may cost. -/
def sliceCost : Nat := 25000

/-- The time that passes in a round of slices, if so much has passed in the rounds before. -/
def roundTime (passed : Nat) : Nat :=
  max (100 * Duration.microsecond) ((passed - 190 * Duration.millisecond) / 200)

/-- How far a run is in its slices. -/
structure Pace where
  /-- What is left of this slice. -/
  left : Nat
  /-- The slices after this one before receivers learn about their senders. -/
  slices : Nat
  /-- How often they have been looked for in vain. -/
  vain : Nat
  /-- The time that has passed in rounds of slices. -/
  passed : Nat

def Pace.initial : Pace := ⟨sliceCost, 0, 0, 0⟩

/-- The end of a slice of thread `t`, after which it is the turn of thread `next`: time has passed
if a new round begins, threads that have ended are forgotten unless one is `goal`, and perhaps one
receiver learns that its senders are gone. -/
def endSlice (w : World H) (goal t next : ThreadId) (pace : Pace) : World H × Pace :=
  let time := if t < next then 0 else roundTime pace.passed
  let passed := pace.passed + time
  let w := (w.passTo (w.heap.clock + time)).forget fun t => t = goal
  match pace.slices with
  | slices + 1 => (w, ⟨sliceCost, slices, pace.vain, passed⟩)
  | 0 =>
      match w.nextDisconnected t with
      | some t => (w.rouse t false, ⟨sliceCost, 0, 0, passed⟩)
      | none => (w, ⟨sliceCost, pace.vain, pace.vain + 1, passed⟩)

/-- What happens when thread `t` cannot go on, and whose turn it is then. -/
def elsewhere (w : World H) (t : ThreadId) : Option (ThreadId × World H) :=
  match w.nextReady t with
  | some next => some (next, w)
  | none =>
      match w.nextDisconnected t with
      | some next => some (next, w.rouse next false)
      | none => w.nextTime.map fun time => (t, w.passTo time)

/-- Runs the world, thread `t` first, until thread `goal` has ended or nothing can happen any
more. -/
def run (goal : ThreadId) : Nat → Pace → ThreadId → World H → World H
  | 0, _, _, w => w
  | fuel + 1, pace, t, w =>
      let thread := w.threads[t]?.getD .idle
      if t == goal && thread.ended then w
      else if w.allows thread then
        if pace.left < thread.cost then
          let next := (w.nextReady t).getD t
          let (w, pace) := w.endSlice goal t next pace
          run goal fuel pace next w
        else
          run goal fuel { pace with left := pace.left - thread.cost } t (w.proceed t thread)
      else
        match w.elsewhere t with
        | some (next, w) => run goal fuel pace next w
        | none => w

end World

end Trampoline
