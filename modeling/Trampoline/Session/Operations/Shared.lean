import Trampoline.Session.Operation

/-!
Operations on what threads share: the log, cells, barriers and the threads themselves.
-/

namespace Trampoline.Session

/-- How long a cell is waited for. -/
def cellPatience : Nat := 5 * Duration.second

def State.cell (state : State) (name : String) : Datum :=
  match state.cells[name]? with
  | some d => .some d
  | none => .none

/-- Arrives at a barrier. The last one of its round lets the others go. -/
def State.arrive (state : State) (name : String) (size : Nat) : State × Action :=
  let place := state.barriers[name]?.getD ⟨size, 0, 0⟩
  if place.waiting + 1 < place.size then
    ({ state with
        barriers := state.barriers.insert name { place with waiting := place.waiting + 1 } },
      .wait (.barrier name place.round) none .nothing)
  else
    ({ state with barriers := state.barriers.insert name ⟨place.size, 0, place.round + 1⟩ },
      .value .unit)

/-- Starts a thread; its number is the number of threads started before it. -/
def State.start (state : State) (name : Datum) : State × Nat :=
  let number := state.started.size
  ({ state with started := state.started.push ⟨name, .running⟩ }, number)

/-- Takes a thread's result; the reply is its name and the result. -/
def State.joined (state : State) (number : Nat) : State × Datum :=
  let name := (state.started[number]?.map Started.name).getD .unit
  let (state, result) := state.takeResult number
  (state, .ofList [name, result.getD .none])

/-- Joins threads in order. -/
def joinAll (done : List Datum) : List Nat → Action
  | [] => .value (.ofList done)
  | number :: rest => .wait (.ended number) none (.joined number rest done)

def sharedOperations : List (String × Operation) := [
  ("log", ⟨inOrder [.value], fun _ _ state items =>
    match items with
    | [.value d] => ({ state with log := state.log.push d }, .value .unit)
    | _ => (state, .bad)⟩),
  ("put", ⟨inOrder [.name, .value], fun _ _ state items =>
    match items with
    | [.name n, .value d] => ({ state with cells := state.cells.insert n d }, .value .unit)
    | _ => (state, .bad)⟩),
  ("cell", .reading (inOrder [.name]) fun state items =>
    match items with
    | [.name n] => .value (state.cell n)
    | _ => .bad),
  ("inc", ⟨inOrder [.name], fun _ _ state items =>
    match items with
    | [.name n] =>
        match state.cells[n]?.getD (.int 0) with
        | .int old =>
            ({ state with cells := state.cells.insert n (.int (old + 1)) }, .value (.int old))
        | _ => (state, .bad)
    | _ => (state, .bad)⟩),
  ("cell_wait", .looking (inOrder [.name]) fun heap _ items =>
    match items with
    | [.name n] => .wait (.cell n) (some (heap.clock + cellPatience)) (.cell n)
    | _ => .bad),
  ("barrier", ⟨inOrder [.name, .int], fun _ _ state items =>
    match items with
    | [.name n, .int size] => state.arrive n size.toInt.toNat
    | _ => (state, .bad)⟩),
  ("thread", ⟨[], fun scene _ state _ =>
    (state, .value (.str (shownName (scene.here.name.getD "<unnamed>"))))⟩),
  ("spawn", ⟨inOrder [.value, .form], fun _ env state items =>
    match items with
    | [.value name, .form body] =>
        let threadName? :=
          match name with
          | .str s => some (some s)
          | .unit => some none
          | _ => none
        match threadName? with
        | none => (state, .bad)
        | some threadName =>
            let (state, number) := state.start name
            (state, .ask (.spawn threadName (Closure.thread number body env.scope).owned)
              (.spawned number))
    | _ => (state, .bad)⟩),
  ("join_threads", ⟨[], fun _ _ state _ =>
    ({ state with unjoined := [] }, joinAll [] state.unjoined.reverse)⟩),
  ("bounded", ⟨inOrder [.int, .form], fun scene env state items =>
    match items with
    | [.int ms, .form body] =>
        let (state, number) := state.start (.str "bounded")
        let deadline := scene.heap.clock + milliseconds ms
        let work := (Closure.thread number body env.scope).owned
        (state, ⟨.ask (.spawn (some "bounded") work) .nothing, [.bounding number deadline]⟩)
    | _ => (state, .bad)⟩)]

end Trampoline.Session
