import Trampoline.Session.Operation

/-!
Operations on data alone, and the ones that choose what is evaluated.
-/

namespace Trampoline.Session

/-- Whether dividing `a` by `b` leaves the range of integers. -/
def divisionOverflows (a b : Int64) : Bool := a == Int64.minValue && b == -1

/-- The quotient, toward zero. -/
def quotient (a b : Int64) : Action :=
  if b = 0 then .raise (.text "attempt to divide by zero")
  else if divisionOverflows a b then .raise (.text "attempt to divide with overflow")
  else .value (.int (a / b))

/-- The remainder of the quotient. -/
def remainder (a b : Int64) : Action :=
  if b = 0 then .raise (.text "attempt to calculate the remainder with a divisor of zero")
  else if divisionOverflows a b then
    .raise (.text "attempt to calculate the remainder with overflow")
  else .value (.int (a % b))

/-- The integers from `a` up to `b`, which is left out. -/
def range (a b : Int64) : Data :=
  Nat.fold (b.toInt - a.toInt).toNat
    (fun i _ later => .cons (.int (.ofInt (b.toInt - 1 - i))) later) .nil

def sum? (items : Data) : Option Int64 :=
  items.foldl
    (fun total d =>
      match total, d with
      | some n, .int m => some (n + m)
      | _, _ => none)
    (some 0)

def onInts (f : Int64 → Int64 → Action) : Operation :=
  .onValues (inOrder [.int, .int]) fun
    | [.int a, .int b] => f a b
    | _ => .bad

def onValue (f : Datum → Action) : Operation :=
  .onValues (inOrder [.value]) fun
    | [.value d] => f d
    | _ => .bad

def pureOperations : List (String × Operation) := [
  ("$", .pure (inOrder [.name]) fun
    | env, [.name x] =>
        match env.scope.get? x with
        | some d => .value d
        | none => .bad
    | _, _ => .bad),
  ("list", .onValues [.rest 0 .value] fun items => .value (.ofList (values items))),
  ("ok", onValue fun d => .value (.ok d)),
  ("err", onValue fun d => .value (.err d)),
  ("some", onValue fun d => .value (.some d)),
  ("none", .onValues [] fun _ => .value .none),
  ("+", onInts fun a b => .value (.int (a + b))),
  ("-", onInts fun a b => .value (.int (a - b))),
  ("*", onInts fun a b => .value (.int (a * b))),
  ("/", onInts quotient),
  ("%", onInts remainder),
  ("<", onInts fun a b => .value (.bool (a < b))),
  ("=", .onValues (inOrder [.value, .value]) fun
    | [.value a, .value b] => .value (.bool (a.same b))
    | _ => .bad),
  ("not", onValue fun
    | .bool b => .value (.bool !b)
    | _ => .bad),
  ("if", .pure (inOrder [.value, .branch, .branch]) fun
    | env, [.value (.bool b), .form yes, .form no] => .eval (if b then yes else no) env
    | _, _ => .bad),
  ("do", .pure [.rest 0 .form] fun env items =>
    ⟨.give (.value .unit), [.sequence env .unit (forms items)]⟩),
  ("cat", .onValues [.rest 0 .shown] fun items => .value (.str (String.join (texts items)))),
  ("len", onValue fun
    | .str s => .value (.int (.ofNat s.length))
    | .list items => .value (.int (.ofNat items.length))
    | _ => .bad),
  ("at", .onValues (inOrder [.list, .int]) fun
    | [.list items, .int i] =>
        match (position? items.length i.toInt).bind (items.toList[·]?) with
        | some d => .value d
        | none => .bad
    | _ => .bad),
  ("range", onInts fun a b => .value (.list (range a b))),
  ("sum", .onValues (inOrder [.list]) fun
    | [.list items] =>
        match sum? items with
        | some n => .value (.int n)
        | none => .bad
    | _ => .bad),
  ("is_ok", onValue fun
    | .ok _ => .value (.bool true)
    | _ => .value (.bool false)),
  ("inner", onValue fun
    | .ok d => .value d
    | .err d => .value d
    | .some d => .value d
    | .panic d => .value d
    | _ => .bad),
  ("panic", onValue fun
    | .str s => .raise (.text s)
    | .int n => .raise (.number n.toInt)
    | _ => .bad),
  ("panic_str", onValue fun
    | .str s => .raise (.text s)
    | _ => .bad),
  ("catch", .pure (inOrder [.branch]) fun
    | env, [.form body] => ⟨.eval body env, [.caught]⟩
    | _, _ => .bad),
  ("let", .pure (inOrder [.name, .value, .form]) fun
    | env, [.name x, .value d, .form body] => .evalWithin body (env.bind x d)
    | _, _ => .bad)]

end Trampoline.Session
