import Std.Data.TreeSet

/-!
The names of shared objects, and what keeps them. An object is dropped when nothing keeps it any
more, so data carry the set of the objects that they keep. The set of a larger piece of data is the
union of the sets of its parts; it is made once, when the piece is made, however often the piece is
used again.
-/

namespace Trampoline

abbrev SchedulerId := Nat

/-- The index of a promise in the heap. A fiber is the promise of its slot. -/
abbrev PromiseId := Nat

/-- The index of the meeting point of one reached async node. -/
abbrev HandoffId := Nat

/-- The index of a one-place channel on which the outcome of an interpretation is awaited. -/
abbrev ChannelId := Nat

abbrev FutureId := Nat

abbrev ThreadId := Nat

/-- A reference to a shared object. The two ends of a channel are kept apart. -/
inductive Ref where
  | handoff (id : HandoffId)
  | promise (id : PromiseId)
  | sender (id : ChannelId)
  | receiver (id : ChannelId)
  | future (id : FutureId)
  deriving DecidableEq, Repr

namespace Ref

/-- The place of a reference in the order of all references. -/
def rank : Ref → Nat
  | .handoff id => 5 * id
  | .promise id => 5 * id + 1
  | .sender id => 5 * id + 2
  | .receiver id => 5 * id + 3
  | .future id => 5 * id + 4

def order : Ref → Ref → Ordering := compareOn rank

theorem eq_of_rank_eq {r s : Ref} (h : r.rank = s.rank) : r = s := by
  have same {a b : Nat} (h : 5 * a = 5 * b) : a = b := by omega
  cases r <;> cases s <;> simp only [rank] at h
  case handoff.handoff => exact congrArg handoff (same h)
  case promise.promise => exact congrArg promise (same (Nat.add_right_cancel h))
  case sender.sender => exact congrArg sender (same (Nat.add_right_cancel h))
  case receiver.receiver => exact congrArg receiver (same (Nat.add_right_cancel h))
  case future.future => exact congrArg future (same (Nat.add_right_cancel h))
  all_goals omega

instance : Std.TransCmp order := inferInstanceAs (Std.TransCmp (compareOn rank))

instance : Std.LawfulEqCmp order where
  eq_of_compare h := eq_of_rank_eq (Std.LawfulEqOrd.eq_of_compare h)

end Ref

/-- A set of references. -/
abbrev Kept := Std.TreeSet Ref Ref.order

namespace Kept

/-- The references of two sets: those of the smaller one join the larger one, so that what most of
the parts of a piece of data keep is shared. -/
def union (one other : Kept) : Kept :=
  if one.size ≤ other.size then other.insertMany one.toList else one.insertMany other.toList

@[simp] theorem mem_union {x : Ref} (one other : Kept) :
    x ∈ union one other ↔ x ∈ one ∨ x ∈ other := by
  unfold union
  split <;> simp [Std.TreeSet.mem_insertMany_list, or_comm]

/-- The references of a set, in front of others. -/
def onto (kept : Kept) (refs : List Ref) : List Ref := kept.foldl (fun refs r => r :: refs) refs

end Kept

/-- A piece of the host program, together with the objects that it keeps. -/
structure Owned (α : Type) where
  val : α
  kept : Kept

end Trampoline
