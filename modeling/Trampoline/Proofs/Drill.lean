import Trampoline.Proofs.Origins

/-!
A host program whose functions follow scripts: they ask for one thing after another, and end with a
reply or a panic. Two threads start with the first two functions.
-/

namespace Trampoline

namespace Drill

inductive Line where
  | ask (q : Request Unit Nat)
  | ret (v : Value Unit Nat)
  | raise (payload : Payload)
  /-- End with what the last thing that was asked for has come to. -/
  | echo

/-- What each function does, whatever its arguments are. -/
abbrev Script := Nat → List Line

def echo : Reply Unit Nat → Move Unit Nat (Nat × Nat) Unit
  | .value v => .ret v
  | _ => .ret .unit

/-- Goes on with line `k` of function `f`. A panic is not caught. -/
def advance (script : Script) (f k : Nat) : Reply Unit Nat → Move Unit Nat (Nat × Nat) Unit
  | .raised payload => .raise payload
  | reply =>
      match (script f)[k]? with
      | some (.ask q) => .ask q (f, k + 1)
      | some (.ret v) => .ret v
      | some (.raise payload) => .raise payload
      | some .echo => echo reply
      | none => .ret .unit

def host (script : Script) : Host where
  Data := Unit
  Fn := Nat
  Code := Nat × Nat
  State := Unit
  Condition := Unit
  enter f _ := (f, 0)
  advance _ _ state code reply := (state, advance script code.1 code.2 reply)
  holds _ _ _ := false
  codeRefs _ refs := refs
  stateRefs _ refs := refs

variable (script : Script) (more : List (Scheduler Nat))

/-- The world before the two threads have started, with some more schedulers. -/
def start : World (host script) where
  heap := .initial more
  state := ()
  threads := (∅ : Threads (host script))
    |>.insert 0 (.starting none (.user (0, 0) .start) [])
    |>.insert 1 (.starting none (.user (1, 0) .start) [])
  next := 2

theorem threads_start (t : ThreadId) :
    (start script more).threads[t]? =
      if t = 1 then some (.starting none (.user (1, 0) .start) [])
      else if t = 0 then some (.starting none (.user (0, 0) .start) [])
      else none := by
  simp only [start, Std.TreeMap.getElem?_insert, Nat.compare_eq_eq, eq_comm (b := t)]
  rfl

theorem start_starting : (start script more).Starting where
  handoffs := rfl
  promises := rfl
  channels := rfl
  futures := rfl
  numbered t ht := by
    have hlt {k : Nat} (hk : k < 2) : t ≠ k := Nat.ne_of_gt (Nat.lt_of_lt_of_le hk ht)
    rw [threads_start, if_neg (hlt (by decide)), if_neg (hlt (by decide))]
  threads t thread ht := by
    rw [threads_start] at ht
    split at ht
    · obtain rfl := Option.some.inj ht
      exact ⟨none, _, rfl⟩
    · split at ht
      · obtain rfl := Option.some.inj ht
        exact ⟨none, _, rfl⟩
      · contradiction

/-- The run in which the threads take their turns in the order of a list. -/
def run (order : List ThreadId) : Run (host script) :=
  .ofList (start script more) (start_starting script more).initial (order.map .thread)

variable {script : Script} {more : List (Scheduler Nat)} {order : List ThreadId}

/-- What the tasks of all turns of a run pass, every task passes that is done. -/
theorem check_of_does {c : Nat → Task (host script) → Bool}
    (hcheck : ∀ n < order.length, (((run script more order).world n).task?
      ((run script more order).action n)).all (c n)) {n : Nat} {t : ThreadId}
    {task : Task (host script)} (h : (run script more order).Does n t task) : c n task :=
  Run.check_of_does (fun n hn => hcheck n (by simpa using hn)) h

end Drill

end Trampoline
