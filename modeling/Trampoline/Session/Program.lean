import Trampoline.Machine.Ownership
import Trampoline.Session.Evaluate
import Trampoline.Session.References

/-!
Sessions as a host program of the library, and how their schedulers and definitions are specified.
-/

namespace Trampoline.Session

/-- Sessions as a host program. -/
def host : Host where
  Data := Datum
  Fn := Closure
  Code := Code
  State := State
  Condition := Condition
  enter := Closure.enter
  advance := advance
  holds := fun heap state condition => condition.holds heap state
  codeRefs := Code.refs
  stateRefs := State.refs

/-- Who receives the reports of a scheduler of threads. -/
def reportHook (name : String) (isRecorded : Bool) : Hook Closure :=
  if isRecorded then .user (Closure.keepReport name).owned else .log

/-- An optional field: absent, or of the right kind. -/
def optionalField? {α : Type} (spec : Form) (name : String) (read : Form → Option α) :
    Option (Option α) :=
  match spec.field? name with
  | none => some none
  | some f => (read f).map some

/-- The scheduler that a specification describes, and what it is for. A scheduler of threads that is
given nothing but its kind reports to the log. -/
def scheduler? (name : String) (spec : Form) : Option (Kind × Option (Scheduler Closure)) :=
  match (spec.field? "kind").bind Form.text? with
  | some "immediate" => some (.immediate, none)
  | some "recording" => some (.recording, some .freshRecording)
  | some "thread" =>
      match optionalField? spec "name" Form.text?, optionalField? spec "stack" Form.size?,
        optionalField? spec "hook" Form.bool? with
      | some name?, some stack?, some hook? =>
          let hook := reportHook name (spec.fieldCount ≠ 1 && hook?.getD true)
          some (.threads, some (.ofThreads (name?.getD Scheduler.defaultName) stack? hook))
      | _, _, _ => none
  | some "tokio" =>
      match optionalField? spec "hook" Form.bool? with
      | some hook? => some (.pool, some (.pool (reportHook name (hook?.getD true))))
      | none => none
  | some "manual" =>
      let hook := .user (Closure.keepReport name).owned
      some (.manual, some (.custom (Closure.enqueue name).owned hook))
  | some "discard" => some (.discard, some (.custom Closure.discard.owned .log))
  | _ => none

/-- The desks of specified schedulers, and the schedulers themselves; the first gets the number
`next`. -/
def desks? (next : SchedulerId) :
    List (String × Form) → Option (Table Desk × List (Scheduler Closure))
  | [] => some ((∅ : Table Desk).insert "imm" ⟨immediateId, .immediate, #[], #[]⟩, [])
  | (name, spec) :: rest =>
      match scheduler? name spec with
      | some (kind, none) =>
          (desks? next rest).map fun (desks, schedulers) =>
            (desks.insert name ⟨immediateId, kind, #[], #[]⟩, schedulers)
      | some (kind, some scheduler) =>
          (desks? (next + 1) rest).map fun (desks, schedulers) =>
            (desks.insert name ⟨next, kind, #[], #[]⟩, scheduler :: schedulers)
      | none => none

/-- The named effect forms of a session. One that is not well formed has no name. -/
def definitions : List (String × Form) → Table Definition
  | [] => ∅
  | (name, spec) :: rest =>
      match (spec.field? "params").bind Form.texts?, spec.field? "body" with
      | some params, some body => (definitions rest).insert name ⟨params, body⟩
      | _, _ => definitions rest

end Trampoline.Session
