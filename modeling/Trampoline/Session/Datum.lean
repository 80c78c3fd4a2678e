import Trampoline.Effect.Combinators
import Trampoline.Session.Form

/-!
The data of sessions, and the functions that sessions hand to the library. A session has one type of
data for successes and failures alike, so every effect of a session has the same two tags.
-/

namespace Trampoline.Session

/-- What a function's body yields. -/
inductive Shape where
  | value
  | result
  /-- An effect: the body is an effect form, to be built. -/
  | effect
  | nothing
  deriving DecidableEq, Repr

mutual

/-- The data of a session. -/
inductive Datum where
  | unit
  | bool (b : Bool)
  | int (n : Int64)
  | str (s : String)
  | list (items : Data)
  | ok (d : Datum)
  | err (d : Datum)
  | some (d : Datum)
  | none
  /-- The payload of a panic that was caught. -/
  | panic (d : Datum)
  | fx (node : Node Datum Closure)
with
  @[computed_field] kept : Datum → Kept
  | .unit => ∅
  | .bool _ => ∅
  | .int _ => ∅
  | .str _ => ∅
  | .list items => items.kept
  | .ok d => d.kept
  | .err d => d.kept
  | .some d => d.kept
  | .none => ∅
  | .panic d => d.kept
  | .fx node => node.kept

/-- Data in a row. -/
inductive Data where
  | nil
  | cons (d : Datum) (rest : Data)
with
  @[computed_field] kept : Data → Kept
  | .nil => ∅
  | .cons d rest => rest.kept.union d.kept

/-- A function of a session. -/
inductive Closure where
  /-- Evaluates a body with its parameters bound. -/
  | code (params : List String) (body : Form) (scope : Scope) (shape : Shape)
  /-- A registration: stores its callback under the name that `key` yields, then evaluates a
  body. -/
  | register (key body : Form) (scope : Scope)
  | convert
  /-- Appends submitted work to the queue of a scheduler. -/
  | enqueue (scheduler : String)
  /-- Appends a report to the failures of a scheduler. -/
  | keepReport (scheduler : String)
  | discard
  /-- Evaluates a body and keeps its result, or its panic, under a number. -/
  | thread (number : Nat) (body : Form) (scope : Scope)
with
  @[computed_field] kept : Closure → Kept
  | .code _ _ scope _ => scope.kept
  | .register _ _ scope => scope.kept
  | .convert => ∅
  | .enqueue _ => ∅
  | .keepReport _ => ∅
  | .discard => ∅
  | .thread _ _ scope => scope.kept

/-- The variables in scope. The one that was bound last hides the others of its name. -/
inductive Scope where
  | empty
  | bind (x : String) (d : Datum) (outer : Scope)
with
  @[computed_field] kept : Scope → Kept
  | .empty => ∅
  | .bind _ d outer => outer.kept.union d.kept

end

instance : Inhabited Datum := ⟨.unit⟩

namespace Data

/-- Goes through data from the first to the last. -/
def foldl {α : Type} (f : α → Datum → α) (a : α) : Data → α
  | .nil => a
  | .cons d rest => rest.foldl f (f a d)

def toList (items : Data) : List Datum :=
  (items.foldl (fun done d => d :: done) []).reverse

def ofList (items : List Datum) : Data := items.foldr cons nil

private theorem foldl_cons_append : ∀ (items : Data) (done : List Datum),
    items.foldl (fun done d => d :: done) done =
      items.foldl (fun done d => d :: done) [] ++ done
  | .nil, _ => rfl
  | .cons d rest, done => by
      simp only [foldl]
      rw [foldl_cons_append rest (d :: done), foldl_cons_append rest [d]]
      simp

@[simp] theorem toList_nil : Data.nil.toList = [] := rfl

@[simp] theorem toList_cons (d : Datum) (rest : Data) :
    (Data.cons d rest).toList = d :: rest.toList := by
  simp only [toList, foldl]
  rw [foldl_cons_append]
  simp

@[simp] theorem toList_ofList (items : List Datum) : (ofList items).toList = items := by
  induction items with
  | nil => rfl
  | cons d rest ih => simpa [ofList] using ih

def length (items : Data) : Nat := items.foldl (fun n _ => n + 1) 0

end Data

def Datum.ofList (items : List Datum) : Datum := .list (.ofList items)

def Scope.get? (x : String) : Scope → Option Datum
  | .empty => none
  | .bind y d outer => if y = x then some d else outer.get? x

/-- A value of the library, in a session. -/
abbrev Val := Value Datum Closure

/-- The tag of all data. -/
def datumTy : Ty := .base 0

/-- An effect of a session. -/
abbrev Fx := Effect Datum Closure datumTy datumTy

def Datum.toValue (d : Datum) : Val := .data 0 ⟨d, d.kept⟩

abbrev Fn := Owned Closure

def Closure.owned (f : Closure) : Fn := ⟨f, f.kept⟩

def Datum.ofFx (x : Fx) : Datum := .fx x.node

/-- The name of a thread as sessions show it: threads on which effects sleep are not told apart. -/
def shownName (name : String) : String :=
  if name.startsWith "undertow-sleep-" then "undertow-sleep-#" else name

mutual

def Datum.ofValue : Val → Datum
  | .data _ d => d.val
  | .text s => .str (shownName s)
  | .list _ items => .list (Data.ofItems items .nil)
  | .pair first second => .list (.cons (Datum.ofValue first) (.cons (Datum.ofValue second) .nil))
  | .present _ v => .some (Datum.ofValue v)
  | .absent _ => .none
  | .ok _ _ v => .ok (Datum.ofValue v)
  | .err _ _ v => .err (Datum.ofValue v)
  | .effect _ _ node => .fx node
  | _ => .unit

/-- The data of items, in front of other data. -/
def Data.ofItems : Items Datum Closure → Data → Data
  | .empty, others => others
  | .snoc init last, others => Data.ofItems init (.cons (Datum.ofValue last) others)

end

def Datum.outcome? : Datum → Option (Outcome Datum Closure)
  | .ok d => Option.some (.ok d.toValue)
  | .err d => Option.some (.error d.toValue)
  | _ => Option.none

def Datum.ofOutcome : Outcome Datum Closure → Datum
  | .ok v => .ok (Datum.ofValue v)
  | .error v => .err (Datum.ofValue v)

def Datum.ofPayload : Payload → Datum
  | .text s => .str s
  | .number n => .int (.ofInt n)

/-- A report of work that failed: scheduler, message and the line it is shown as. -/
def Datum.ofFailure (failure : WorkFailure) : Datum :=
  .ofList [.str failure.scheduler, .str failure.message, .str failure.display]

mutual

/-- Whether two data are equal. An effect equals nothing. -/
def Datum.same : Datum → Datum → Bool
  | .unit, .unit => true
  | .bool a, .bool b => a == b
  | .int a, .int b => a == b
  | .str a, .str b => a == b
  | .list as, .list bs => as.same bs
  | .ok a, .ok b => a.same b
  | .err a, .err b => a.same b
  | .some a, .some b => a.same b
  | .none, .none => true
  | .panic a, .panic b => a.same b
  | _, _ => false

def Data.same : Data → Data → Bool
  | .nil, .nil => true
  | .cons a as, .cons b bs => a.same b && as.same bs
  | _, _ => false

end

end Trampoline.Session
