/-!
Tags of the types whose values travel between the nodes of an effect. A node is untyped; a value
remembers its tag, and a continuation refuses a value of another tag than the one it was built for.
-/

namespace Trampoline

/-- The tag of a type. `base` stands for the types of the host program, told apart by a number. -/
inductive Ty where
  | base (index : Nat)
  | unit
  | text
  | instant
  | list (item : Ty)
  | pair (first second : Ty)
  | option (item : Ty)
  | result (value error : Ty)
  | slot (value error : Ty)
  | effect (value error : Ty)
  | callback (value error : Ty)
  | promise (value : Ty)
  | fiber (value error : Ty)
  | future (value error : Ty)
  | work
  | failure
  | thread
  deriving DecidableEq, Repr, Inhabited

end Trampoline
