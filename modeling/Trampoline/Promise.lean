import Trampoline.Value

/-!
Write-once cells. A promise is completed at most once; those who want its value before that are
kept as subscribers, in the order in which they came. Completing takes several steps: the value is
written, then the subscribers are taken, then each of them is told. Someone who subscribes between
the first two steps finds the value and is not kept.

A fiber is the promise of a slot, and a reader of the slot gets the recorded outcome or the recorded
panic.
-/

namespace Trampoline

variable {D F : Type}

/-- Someone to be told the value of a promise. -/
inductive Subscriber (F : Type) where
  | user (f : Owned F)
  /-- The callback of an effect that joins a fiber; it succeeds with the slot. -/
  | join (value error : Ty) (target : Callback F)
  /-- A callback that is completed with the outcome in the slot of a fiber. -/
  | observe (value error : Ty) (target : Callback F)

/-- A write-once cell. -/
structure Promise (D F : Type) where
  ty : Ty
  value : Option (Value D F)
  /-- Those who are to be told the value, the latest first. -/
  subscribers : List (Subscriber F)

namespace Promise

def empty (ty : Ty) : Promise D F := ⟨ty, none, []⟩

/-- Writes the value, and tells whether it was the first one. -/
def write (p : Promise D F) (v : Value D F) : Promise D F × Bool :=
  match p.value with
  | some _ => (p, false)
  | none => ({ p with value := some v }, true)

/-- Takes the subscribers, the oldest first. -/
def take (p : Promise D F) : Promise D F × List (Subscriber F) :=
  ({ p with subscribers := [] }, p.subscribers.reverse)

/-- Keeps a subscriber while there is no value; otherwise yields the value to tell at once. -/
def subscribe (p : Promise D F) (s : Subscriber F) : Promise D F × Option (Value D F) :=
  match p.value with
  | some v => (p, some v)
  | none => ({ p with subscribers := s :: p.subscribers }, none)

@[simp] theorem write_empty (ty : Ty) (v : Value D F) :
    (empty ty).write v = (⟨ty, some v, []⟩, true) := rfl

@[simp] theorem subscribers_write (p : Promise D F) (v : Value D F) :
    (p.write v).1.subscribers = p.subscribers := by
  unfold write
  split <;> rfl

end Promise

/-- What is known of a fiber: the slot of its promise, once it is written. -/
def Promise.slot? (p : Promise D F) : Option (Slot D F) :=
  match p.value with
  | some (.slot _ _ s) => some s
  | _ => none

namespace Slot

/-- The report of the panic, if the fiber's effect panicked. -/
def panicked? : Slot D F → Option WorkFailure
  | .panicked report => some report
  | _ => none

def outcome? : Slot D F → Option (Outcome D F)
  | .ok v => some (.ok v)
  | .err v => some (.error v)
  | .panicked _ => none

@[simp] theorem panicked?_ofOutcome (o : Outcome D F) : (ofOutcome o).panicked? = none := by
  cases o <;> rfl

@[simp] theorem outcome?_ofOutcome (o : Outcome D F) : (ofOutcome o).outcome? = some o := by
  cases o <;> rfl

/-- A slot holds an outcome or the report of a panic, never both. -/
theorem outcome?_eq_none_iff (s : Slot D F) : s.outcome? = none ↔ s.panicked?.isSome := by
  cases s <;> simp [outcome?, panicked?]

end Slot

end Trampoline
