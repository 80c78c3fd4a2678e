/-!
Forms: the trees in which a session is written and answered. Numbers are integers of 64 bits, with a
sign or without one; any other number is kept as a form that means nothing.
-/

namespace Trampoline

/-- A tree of atoms, sequences and named fields. -/
inductive Form where
  | null
  | bool (b : Bool)
  | int (n : Int64)
  /-- An integer above those with a sign. -/
  | nat (n : UInt64)
  | str (s : String)
  | arr (items : List Form)
  | obj (fields : List (String × Form))
  /-- A number that is no 64-bit integer. -/
  | number
  deriving Inhabited

namespace Form

def field? (name : String) : Form → Option Form
  | .obj fields => (fields.find? (·.1 = name)).map (·.2)
  | _ => none

def items? : Form → Option (List Form)
  | .arr items => some items
  | _ => none

def text? : Form → Option String
  | .str s => some s
  | _ => none

def bool? : Form → Option Bool
  | .bool b => some b
  | _ => none

def size? : Form → Option Nat
  | .int n => if n < 0 then none else some n.toInt.toNat
  | .nat n => some n.toNat
  | _ => none

def fieldCount : Form → Nat
  | .obj fields => fields.length
  | _ => 0

def texts? : Form → Option (List String)
  | .arr items => items.mapM text?
  | _ => none

end Form

end Trampoline
