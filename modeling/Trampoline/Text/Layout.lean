/-!
Layouts of values for a reader who debugs: a tree of names, fields and items that can be shown on
one line or with one field or item a line, four spaces a level and a comma after each.
-/

namespace Trampoline

/-- The tree that is shown. -/
inductive Layout where
  | atom (text : String)
  /-- A name with fields; `isPartial` tells that some fields are left out. -/
  | fields (name : String) (members : List (String × Layout)) (isPartial : Bool)
  | tuple (name : String) (items : List Layout)
  | list (items : List Layout)

namespace Layout

mutual

/-- The layout on one line, after `out`. -/
def line (out : String) : Layout → String
  | .atom text => out ++ text
  | .fields name members isPartial =>
      let out := lineFields (out ++ name ++ " \x7b ") true members
      out ++ (if isPartial then (if members.isEmpty then ".." else ", ..") else "") ++ " \x7d"
  | .tuple name items => lineItems (out ++ name ++ "(") true items ++ ")"
  | .list items => lineItems (out ++ "[") true items ++ "]"

/-- Fields on one line; `isFirst` tells that no separator is needed. -/
def lineFields (out : String) (isFirst : Bool) : List (String × Layout) → String
  | [] => out
  | (name, member) :: rest =>
      let out := out ++ (if isFirst then "" else ", ") ++ name ++ ": "
      lineFields (member.line out) false rest

def lineItems (out : String) (isFirst : Bool) : List Layout → String
  | [] => out
  | item :: rest =>
      let out := out ++ (if isFirst then "" else ", ")
      lineItems (item.line out) false rest

end

/-- The blanks at the start of a line at a level. -/
def indent (level : Nat) : String := String.ofList (List.replicate (4 * level) ' ')

mutual

/-- The layout over several lines, after `out`, at a level. -/
def block (out : String) (level : Nat) : Layout → String
  | .atom text => out ++ text
  | .fields name members isPartial =>
      let out := blockFields (out ++ name ++ " \x7b\n") (level + 1) members
      let out := out ++ (if isPartial then indent (level + 1) ++ "..\n" else "")
      out ++ indent level ++ "\x7d"
  | .tuple name items =>
      blockItems (out ++ name ++ "(\n") (level + 1) items ++ indent level ++ ")"
  | .list [] => out ++ "[]"
  | .list (item :: rest) =>
      let out := item.block (out ++ "[\n" ++ indent (level + 1)) (level + 1) ++ ",\n"
      blockItems out (level + 1) rest ++ indent level ++ "]"

def blockFields (out : String) (level : Nat) : List (String × Layout) → String
  | [] => out
  | (name, member) :: rest =>
      let out := out ++ indent level ++ name ++ ": "
      blockFields (member.block out level ++ ",\n") level rest

def blockItems (out : String) (level : Nat) : List Layout → String
  | [] => out
  | item :: rest =>
      blockItems (item.block (out ++ indent level) level ++ ",\n") level rest

end

def compact (layout : Layout) : String := layout.line ""

def pretty (layout : Layout) : String := layout.block "" 0

end Layout

end Trampoline
