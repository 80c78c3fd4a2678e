import Trampoline.Proofs.Runs

/-!
A small host program. One of its threads asks for the result of an effect, another one completes the
callback that the effect's registration has left on a desk. The registration may also complete the
callback itself, or panic after it has left it.
-/

namespace Trampoline

namespace Relay

inductive Fn where
  /-- Registers a callback: leaves it on the desk, and panics then if it is told to. -/
  | register (panics : Bool)
  | receive

/-- What the threads share. -/
structure Desk where
  slot : Option (Callback Fn)
  /-- Whether registrations complete their callbacks themselves. -/
  direct : Bool

inductive Code where
  | client (node : Node Unit Fn)
  /-- Waits for a callback on the desk and completes it. -/
  | server
  /-- Registers a callback. -/
  | leave (target : Callback Fn) (panics : Bool)
  | leaving (panics : Bool)

def receiver : Callback Fn := .user .unit .unit ⟨.receive, ∅⟩

/-- Ends, with a panic if it is told to. -/
def finish (panics : Bool) : Move Unit Fn Code Unit :=
  if panics then .raise (.text "lost") else .ret .unit

def advance (desk : Desk) : Code → Reply Unit Fn → Desk × Move Unit Fn Code Unit
  | .client node, _ => (desk, .ask (.runWith .unit .unit node receiver) (.leaving false))
  | .server, .held =>
      match desk.slot with
      | some target => (desk, .ask (.complete target (.ok .unit)) (.leaving false))
      | none => (desk, .ret .unit)
  | .server, _ => (desk, .wait () none .server)
  | .leave target panics, _ =>
      if desk.direct then (desk, .ask (.complete target (.ok .unit)) (.leaving panics))
      else ({ desk with slot := some target }, finish panics)
  | .leaving panics, _ => (desk, finish panics)

def host : Host where
  Data := Unit
  Fn := Fn
  Code := Code
  State := Desk
  Condition := Unit
  enter
    | .register panics, [.callback _ _ target] => .leave target panics
    | _, _ => .leaving false
  advance _ _ desk code reply := advance desk code reply
  holds _ desk _ := desk.slot.isSome
  codeRefs _ refs := refs
  stateRefs _ refs := refs

/-- An async node whose registration leaves the callback on the desk. -/
def node (panics : Bool) : Node Unit Fn :=
  .async (.user .unit .unit ⟨.register panics, ∅⟩) immediateId

/-- The world before the client and the server have started. -/
def start (node : Node Unit Fn) (direct : Bool) : World host where
  heap := .initial []
  state := ⟨none, direct⟩
  threads := (∅ : Threads host)
    |>.insert 0 (.starting none (.user (.client node) .start) [])
    |>.insert 1 (.starting none (.user .server .start) [])
  next := 2

theorem threads_start (node : Node Unit Fn) (direct : Bool) (t : ThreadId) :
    (start node direct).threads[t]? =
      if t = 1 then some (.starting none (.user .server .start) [])
      else if t = 0 then some (.starting none (.user (.client node) .start) [])
      else none := by
  simp only [start, Std.TreeMap.getElem?_insert, Nat.compare_eq_eq, eq_comm (b := t)]
  rfl

theorem start_starting (node : Node Unit Fn) (direct : Bool) : (start node direct).Starting where
  handoffs := rfl
  promises := rfl
  channels := rfl
  futures := rfl
  numbered t ht := by
    have hlt {k : Nat} (hk : k < 2) : t ≠ k := Nat.ne_of_gt (Nat.lt_of_lt_of_le hk ht)
    rw [threads_start, if_neg (hlt (by decide)), if_neg (hlt (by decide))]
  threads t thread ht := by
    rw [threads_start] at ht
    split at ht
    · exact ⟨none, .server, (Option.some.inj ht).symm⟩
    · split at ht
      · exact ⟨none, .client node, (Option.some.inj ht).symm⟩
      · contradiction

theorem start_initial (node : Node Unit Fn) (direct : Bool) : (start node direct).Initial :=
  (start_starting node direct).initial

end Relay

end Trampoline
