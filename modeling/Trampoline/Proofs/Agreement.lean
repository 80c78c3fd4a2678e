import Trampoline.Proofs.Completing
import Trampoline.Proofs.Drill

/-!
Agreement about a promise, over a run. The first call that completes it writes its value, which is
the value that everybody sees from then on; all others get their own values back. Every subscription
is served once: on the spot if the value is there, and otherwise by the call that has written it, if
that call comes to its end.
-/

namespace Trampoline

variable {H : Host}

/-- What has been entered before time `n`, the earliest first. -/
def ledger {α : Type} (entries : Nat → List α) : Nat → List α
  | 0 => []
  | n + 1 => ledger entries n ++ entries n

section Ledger

variable {α : Type} (entries : Nat → List α) {m n i : Nat} {x y : α}

theorem ledger_prefix (h : m ≤ n) : ledger entries m <+: ledger entries n := by
  induction h with
  | refl => exact List.prefix_refl _
  | step _ ih => exact ih.trans (List.prefix_append _ _)

/-- An entry keeps its place. -/
theorem getElem?_ledger (hx : entries m = [x]) (h : m < n) :
    (ledger entries n)[(ledger entries m).length]? = some x := by
  have hprefix : ledger entries m ++ [x] <+: ledger entries n := by
    rw [← hx]
    exact ledger_prefix entries h
  rw [List.prefix_iff_getElem?] at hprefix
  simpa using hprefix (ledger entries m).length (by simp)

/-- Every place in the ledger has been taken by an entry. -/
theorem exists_entry (hone : ∀ n, (entries n).length ≤ 1) (h : i < (ledger entries n).length) :
    ∃ m x, m < n ∧ entries m = [x] ∧ (ledger entries m).length = i := by
  induction n with
  | zero => exact absurd h (Nat.not_lt_zero i)
  | succ n ih =>
      by_cases hi : i < (ledger entries n).length
      · obtain ⟨m, x, hm, hx, hlength⟩ := ih hi
        exact ⟨m, x, Nat.lt_succ_of_lt hm, hx, hlength⟩
      · simp only [ledger, List.length_append] at h
        have hlength := hone n
        obtain ⟨x, hx⟩ := List.length_eq_one_iff.1 (by omega : (entries n).length = 1)
        exact ⟨n, x, Nat.lt_succ_self n, hx, by omega⟩

theorem entry_unique (hx : entries m = [x]) (hy : entries n = [y])
    (h : (ledger entries m).length = (ledger entries n).length) : m = n := by
  have hlt {m n : Nat} {x : α} (hx : entries m = [x]) (hmn : m < n) :
      (ledger entries m).length < (ledger entries n).length := by
    obtain ⟨hi, -⟩ := List.getElem?_eq_some_iff.1 (getElem?_ledger entries hx hmn)
    exact hi
  rcases Nat.lt_trichotomy m n with hmn | heq | hnm
  · have := hlt hx hmn
    omega
  · exact heq
  · have := hlt hy hnm
    omega

end Ledger

theorem Thread.IsPrompt.starting (name : Option String) (code : H.Code) (id : PromiseId) :
    (Thread.starting (H := H) name (.user code .start) []).IsPrompt id :=
  ⟨by simp [Thread.starting], by simp [Thread.starting]⟩

namespace World

variable {w : World H} {id : PromiseId} {kept : List (Subscriber H.Fn)}
  {writer : Option (ThreadId × Value H.Data H.Fn)}
  {told : List (Subscriber H.Fn × Value H.Data H.Fn)} {t : ThreadId}

theorem Starting.completion (hw : w.Starting) (id : PromiseId) :
    w.IsPrompt id ∧ w.Completion id [] none [] := by
  refine ⟨fun t thread ht => ?_, .missing (fun t => ?_) (by simp [hw.promises]) rfl⟩
  · obtain ⟨name, code, rfl⟩ := hw.threads t thread ht
    exact .starting name code id
  · unfold duties
    cases ht : w.threads[t]? with
    | none => rfl
    | some thread =>
        obtain ⟨name, code, rfl⟩ := hw.threads t thread ht
        rfl

namespace Completion

theorem promised? (h : w.Completion id kept writer told) :
    w.heap.promised? id = writer.map Prod.snd := by
  unfold Heap.promised?
  cases h with
  | missing _ hpromise => simp [hpromise]
  | empty _ hpromise => simp [hpromise]
  | written _ hpromise => simp [hpromise]
  | taken _ hpromise => simp [hpromise]
  | done _ hpromise => simp [hpromise]

/-- A promise that is there can be completed as long as nobody has written its value. -/
theorem isOpen_iff (h : w.Completion id kept writer told) :
    w.heap.isOpen id = true ↔ id < w.heap.promises.size ∧ writer = none := by
  have hlt {p : Promise H.Data H.Fn} (hp : w.heap.promises[id]? = some p) :
      id < w.heap.promises.size := (Array.getElem?_eq_some_iff.1 hp).1
  unfold Heap.isOpen
  cases h with
  | missing _ hpromise =>
      have hsize := Array.getElem?_eq_none_iff.1 hpromise
      rw [hpromise]
      simp [hsize]
  | empty _ hpromise =>
      rw [hpromise]
      simp [hlt hpromise]
  | written _ hpromise => simp [hpromise]
  | taken _ hpromise => simp [hpromise]
  | done _ hpromise => simp [hpromise]

theorem unwritten (h : w.Completion id kept none told) (hlt : id < w.heap.promises.size) :
    ∃ ty, w.heap.promises[id]? = some ⟨ty, none, kept.reverse⟩ := by
  cases h with
  | missing _ hpromise =>
      exact absurd hlt (Nat.not_lt_of_le (Array.getElem?_eq_none_iff.1 hpromise))
  | empty _ hpromise => exact ⟨_, hpromise⟩

theorem value {v : Value H.Data H.Fn} (h : w.Completion id kept (some (t, v)) told) :
    ∃ ty subscribers, w.heap.promises[id]? = some ⟨ty, some v, subscribers⟩ := by
  cases h with
  | written _ hpromise => exact ⟨_, _, hpromise⟩
  | taken _ hpromise => exact ⟨_, _, hpromise⟩
  | done _ hpromise => exact ⟨_, _, hpromise⟩

/-- A thread that still has subscribers to tell has written the value, and has told all others. -/
theorem of_duty {v : Value H.Data H.Fn} {rest : List (Subscriber H.Fn)}
    (h : w.Completion id kept writer told) (hduty : .tell v rest ∈ w.duties id t) :
    writer = some (t, v) ∧ kept.map (·, v) = told ++ rest.map (·, v) ∧
      ∃ ty, w.heap.promises[id]? = some ⟨ty, some v, []⟩ := by
  cases h with
  | missing hnobody => simp [hnobody] at hduty
  | empty hnobody => simp [hnobody] at hduty
  | written howes =>
      rw [howes] at hduty
      split at hduty
      · simp at hduty
      · contradiction
  | taken howes hpromise hall =>
      rw [howes] at hduty
      split at hduty
      · rename_i heq
        obtain ⟨rfl, rfl⟩ := by simpa using hduty
        subst heq
        exact ⟨rfl, hall, _, hpromise⟩
      · contradiction
  | done hnobody => simp [hnobody] at hduty

end Completion

end World

namespace Run

variable (r : Run H) (id : PromiseId)

/-- A call that completes the promise takes its turn. -/
def Completes (n : Nat) (t : ThreadId) (v : Value H.Data H.Fn) : Prop :=
  r.Does n t (.fill id v) ∧ id < (r.world n).heap.promises.size

/-- The first call that completes the promise. -/
def Writes (n : Nat) (t : ThreadId) (v : Value H.Data H.Fn) : Prop :=
  r.Completes id n t v ∧ ∀ m t' v', m < n → ¬r.Completes id m t' v'

def Subscribes (n : Nat) (t : ThreadId) (subscriber : Subscriber H.Fn) : Prop :=
  r.Does n t (.subscribe id subscriber) ∧ id < (r.world n).heap.promises.size

/-- The call that has written the value has no subscriber left to tell; it ends with the first panic
of a subscriber, if there was one. -/
def Ends (n : Nat) (t : ThreadId) (v : Value H.Data H.Fn) (first : Option Payload) : Prop :=
  r.Does n t (.notify id v [] first)

/-- A subscriber is called: by the call that has written the value, or by the subscriber's own. -/
inductive Tells (n : Nat) (t : ThreadId) (subscriber : Subscriber H.Fn)
    (v : Value H.Data H.Fn) : Prop where
  | kept {rest : List (Subscriber H.Fn)} {first : Option Payload} :
      r.Does n t (.notify id v (subscriber :: rest) first) → Tells n t subscriber v
  | late : r.Does n t (.subscribe id subscriber) → (r.world n).heap.promised? id = some v →
      Tells n t subscriber v

/-- Someone who waits for the promise, or looks at it after waiting, gets a value. -/
inductive Sees (n : Nat) (t : ThreadId) (v : Value H.Data H.Fn) : Prop where
  | awaited {name : Option String} {stack : List (Return H)} :
      r.Does n t (.await id) → (r.world (n + 1)).threads[t]? = some ⟨name, .ret v, stack⟩ →
        Sees n t v
  | awaitedUntil {time : Nat} {ty : Ty} {name : Option String} {stack : List (Return H)} :
      r.Does n t (.awaitUntil id time) →
        (r.world (n + 1)).threads[t]? = some ⟨name, .ret (.present ty v), stack⟩ → Sees n t v
  | peeked {ty : Ty} {name : Option String} {stack : List (Return H)} :
      r.Does n t (.peek id) →
        (r.world (n + 1)).threads[t]? = some ⟨name, .ret (.present ty v), stack⟩ → Sees n t v

/-- The subscribers that have been kept before time `n`, in the order in which they came. -/
def kept (n : Nat) : List (Subscriber H.Fn) :=
  ledger (fun k => (r.world k).keeps id (r.action k)) n

/-- The subscribers that the call that has written the value has told before time `n`. -/
def told (n : Nat) : List (Subscriber H.Fn × Value H.Data H.Fn) :=
  ledger (fun k => (r.world k).tells id (r.action k)) n

/-- The value that has been written before time `n`, with the thread that has written it. -/
def written (n : Nat) : Option (ThreadId × Value H.Data H.Fn) :=
  match n with
  | 0 => none
  | n + 1 => (written n).or ((r.world n).writes? id (r.action n))

/-- A subscription at time `n` is served at time `m`: at once if the value is there, and otherwise
when as many have been told as had been kept before. -/
inductive Serves (n : Nat) (subscriber : Subscriber H.Fn) :
    Nat → ThreadId → Value H.Data H.Fn → Prop where
  | onTheSpot {t : ThreadId} {v : Value H.Data H.Fn} :
      r.Subscribes id n t subscriber → (r.world n).heap.promised? id = some v →
        Serves n subscriber n t v
  | later {t t' : ThreadId} {m : Nat} {v : Value H.Data H.Fn} {rest : List (Subscriber H.Fn)}
      {first : Option Payload} :
      r.Subscribes id n t subscriber → (r.world n).heap.promised? id = none →
        r.Does m t' (.notify id v (subscriber :: rest) first) →
          (r.told id m).length = (r.kept id n).length → Serves n subscriber m t' v

/-- All agree about a promise. -/
structure Agrees : Prop where
  /-- The first call that completes the promise writes its value and goes on with it. -/
  accepted {n : Nat} {t : ThreadId} {v : Value H.Data H.Fn} : r.Writes id n t v → ∃ heap,
    (r.world n).Changes (r.world (n + 1)) t (.run (.fill id v)) (.run (.take id v)) heap ∧
      heap.promised? id = some v
  /-- Every other call gets its own value back and changes nothing. -/
  rejected {m n : Nat} {t t' : ThreadId} {v v' : Value H.Data H.Fn} :
    r.Completes id m t' v' → m < n → r.Completes id n t v → ∃ ty,
      (r.world n).Changes (r.world (n + 1)) t (.run (.fill id v)) (.ret (.err .unit ty v))
        (r.world n).heap
  /-- It is the first call that ends the completion: it is told that it has succeeded, or ends with
  the first panic of a subscriber. -/
  ended {n : Nat} {t : ThreadId} {v : Value H.Data H.Fn} {first : Option Payload} :
    r.Ends id n t v first → (∃ m, m < n ∧ r.Writes id m t v) ∧ ∃ heap,
      (r.world n).Changes (r.world (n + 1)) t (.run (.notify id v [] first))
        (first.elim (.ret (.ok .unit v.ty .unit)) .raise) heap
  /-- Whoever looks at the promise finds the value that the first call has written. -/
  found {n : Nat} {v : Value H.Data H.Fn} :
    (r.world n).heap.promised? id = some v ↔ ∃ m t, m < n ∧ r.Writes id m t v
  seen {n : Nat} {t : ThreadId} {v : Value H.Data H.Fn} :
    r.Sees id n t v → ∃ m t', m < n ∧ r.Writes id m t' v
  /-- A subscriber that is called is called with the value that has been written, and serves one
  subscription. -/
  told {m : Nat} {t : ThreadId} {subscriber : Subscriber H.Fn} {v : Value H.Data H.Fn} :
    r.Tells id m t subscriber v → (∃ k t', k < m ∧ r.Writes id k t' v) ∧
      ∃ n, r.Serves id n subscriber m t v ∧
        ∀ n' subscriber' t' v', r.Serves id n' subscriber' m t' v' → n' = n
  /-- A subscription is served at most once. -/
  once {n m m' : Nat} {subscriber subscriber' : Subscriber H.Fn} {t t' : ThreadId}
      {v v' : Value H.Data H.Fn} :
    r.Serves id n subscriber m t v → r.Serves id n subscriber' m' t' v' →
      m = m' ∧ subscriber = subscriber' ∧ t = t' ∧ v = v'
  /-- It is served if the call that has written the value comes to its end. -/
  served {k n : Nat} {t t' : ThreadId} {v : Value H.Data H.Fn} {first : Option Payload}
      {subscriber : Subscriber H.Fn} :
    r.Ends id k t v first → r.Subscribes id n t' subscriber → ∃ m t'',
      r.Serves id n subscriber m t'' v ∧ (m < k ∨ m = n)
  /-- Nobody is left behind. -/
  emptied {k n : Nat} {t : ThreadId} {v : Value H.Data H.Fn} {first : Option Payload} :
    r.Ends id k t v first → k ≤ n → ∃ ty,
      (r.world n).heap.promises[id]? = some ⟨ty, some v, []⟩
  /-- The thread that tells a subscriber calls it next. -/
  calls {n : Nat} {t : ThreadId} {subscriber : Subscriber H.Fn} {v : Value H.Data H.Fn} :
    r.Tells id n t subscriber v → ∃ name stack,
      (r.world (n + 1)).threads[t]? = some ⟨name, .run (.tell subscriber v), stack⟩
  /-- A subscriber is called for no other reason. -/
  only {n : Nat} {t : ThreadId} {thread : Thread H} {subscriber : Subscriber H.Fn}
      {v : Value H.Data H.Fn} :
    (r.world (n + 1)).threads[t]? = some thread → .tell subscriber v ∈ thread.held →
      (∃ (t' : ThreadId) (thread' : Thread H), (r.world n).threads[t']? = some thread' ∧
        .tell subscriber v ∈ thread'.held) ∨ ∃ id t', r.Tells id n t' subscriber v

variable {r : Run H} {id : PromiseId} {m n k : Nat} {t t' : ThreadId} {v v' : Value H.Data H.Fn}
  {subscriber subscriber' : Subscriber H.Fn} {rest : List (Subscriber H.Fn)}
  {first : Option Payload} {task : Task H}

theorem completion (hstart : (r.world 0).Starting) (id : PromiseId) (n : Nat) :
    (r.world n).IsPrompt id ∧
      (r.world n).Completion id (r.kept id n) (r.written id n) (r.told id n) := by
  induction n with
  | zero => exact hstart.completion id
  | succ n ih => exact ih.2.of_does (r.ordered n) ih.1 (r.step n)

theorem Does.keeps (h : r.Does n t task) :
    (r.world n).keeps id (r.action n) = task.keeps (r.world n).heap id := by
  simp [World.keeps, h.task?]

theorem Does.tells (h : r.Does n t task) : (r.world n).tells id (r.action n) = task.tells id := by
  simp [World.tells, h.task?]

theorem Does.writes? (h : r.Does n t task) :
    (r.world n).writes? id (r.action n) = (task.writes? (r.world n).heap id).map (t, ·) := by
  have htask := h.task?
  rw [h.1] at htask ⊢
  simp [World.writes?, htask]

theorem does_of_writes? (h : (r.world n).writes? id (r.action n) = some (t, v)) :
    r.Does n t (.fill id v) ∧ (r.world n).heap.isOpen id = true := by
  cases haction : r.action n with
  | thread t' =>
      rw [haction] at h
      simp only [World.writes?, Option.map_eq_some_iff, Option.bind_eq_some_iff] at h
      obtain ⟨v', ⟨task, htask, hwrites⟩, heq⟩ := h
      obtain ⟨rfl, rfl⟩ := Prod.mk.inj heq
      obtain ⟨t, name, stack, heq, ht⟩ := World.task?_eq_some htask
      obtain rfl := Action.thread.inj heq
      unfold Task.writes? at hwrites
      split at hwrites
      · split at hwrites
        · rename_i hid
          obtain rfl := Option.some.inj hwrites
          obtain ⟨rfl, hopen⟩ := hid
          exact ⟨⟨haction, name, stack, ht⟩, hopen⟩
        · contradiction
      · contradiction
  | _ => simp [haction, World.writes?] at h

theorem written_of_le {x : ThreadId × Value H.Data H.Fn} (h : r.written id m = some x)
    (hmn : m ≤ n) : r.written id n = some x := by
  induction hmn with
  | refl => exact h
  | step _ ih => simp [written, ih]

theorem Completes.isSome (hstart : (r.world 0).Starting) (h : r.Completes id n t v) :
    (r.written id (n + 1)).isSome := by
  cases hwritten : r.written id n with
  | some x => simp [written, hwritten]
  | none =>
      have hopen := (completion hstart id n).2.isOpen_iff.2 ⟨h.2, hwritten⟩
      simp [written, hwritten, h.1.writes?, Task.writes?, hopen]

theorem exists_writes (hstart : (r.world 0).Starting) (h : r.written id n = some (t, v)) :
    ∃ m, m < n ∧ r.Writes id m t v := by
  induction n with
  | zero => contradiction
  | succ n ih =>
      cases hwritten : r.written id n with
      | some x =>
          simp only [written, hwritten, Option.some_or] at h
          obtain ⟨m, hm, hwrites⟩ := ih (hwritten.trans h)
          exact ⟨m, Nat.lt_succ_of_lt hm, hwrites⟩
      | none =>
          simp only [written, hwritten, Option.none_or] at h
          obtain ⟨hdoes, hopen⟩ := does_of_writes? h
          obtain ⟨hlt, -⟩ := (completion hstart id n).2.isOpen_iff.1 hopen
          refine ⟨n, Nat.lt_succ_self n, ⟨hdoes, hlt⟩, fun m t' v' hm hcompletes => ?_⟩
          obtain ⟨x, hx⟩ := Option.isSome_iff_exists.1 (hcompletes.isSome hstart)
          simp [written_of_le hx hm] at hwritten

theorem Writes.written (hstart : (r.world 0).Starting) (h : r.Writes id n t v) :
    r.written id n = none ∧ r.written id (n + 1) = some (t, v) := by
  have hnone : r.written id n = none := by
    cases hwritten : r.written id n with
    | none => rfl
    | some x =>
        obtain ⟨m, hm, hwrites⟩ := exists_writes hstart hwritten
        exact absurd hwrites.1 (h.2 m _ _ hm)
  have hopen := (completion hstart id n).2.isOpen_iff.2 ⟨h.1.2, hnone⟩
  exact ⟨hnone, by simp [Run.written, hnone, h.1.1.writes?, Task.writes?, hopen]⟩

theorem promised?_eq_some (hstart : (r.world 0).Starting) :
    (r.world n).heap.promised? id = some v ↔ ∃ m t, m < n ∧ r.Writes id m t v := by
  rw [(completion hstart id n).2.promised?, Option.map_eq_some_iff]
  constructor
  · rintro ⟨⟨t, v⟩, hwritten, rfl⟩
    obtain ⟨m, hm, hwrites⟩ := exists_writes hstart hwritten
    exact ⟨m, t, hm, hwrites⟩
  · rintro ⟨m, t, hm, hwrites⟩
    exact ⟨(t, v), written_of_le (hwrites.written hstart).2 hm, rfl⟩

theorem Writes.accepted (hstart : (r.world 0).Starting) (h : r.Writes id n t v) : ∃ heap,
    (r.world n).Changes (r.world (n + 1)) t (.run (.fill id v)) (.run (.take id v)) heap ∧
      heap.promised? id = some v := by
  have hcompletion := (completion hstart id n).2
  rw [(h.written hstart).1] at hcompletion
  obtain ⟨ty, hpromise⟩ := hcompletion.unwritten h.1.2
  refine ⟨(r.world n).heap.setPromise id ⟨ty, some v, (r.kept id n).reverse⟩,
    h.1.1.changes (by simp) fun here stack => ?_, ?_⟩
  · simp only [Task.turn, hpromise]
    rfl
  · simp [Heap.promised?, Heap.setPromise, h.1.2]

theorem Completes.rejected (hstart : (r.world 0).Starting) (h : r.Completes id m t' v')
    (hmn : m < n) (h' : r.Completes id n t v) : ∃ ty,
    (r.world n).Changes (r.world (n + 1)) t (.run (.fill id v)) (.ret (.err .unit ty v))
      (r.world n).heap := by
  obtain ⟨⟨t₀, v₀⟩, hwritten⟩ := Option.isSome_iff_exists.1 (h.isSome hstart)
  have hcompletion := (completion hstart id n).2
  rw [written_of_le hwritten hmn] at hcompletion
  obtain ⟨ty, subscribers, hpromise⟩ := hcompletion.value
  refine ⟨ty, h'.1.changes (by simp) fun here stack => ?_⟩
  simp only [Task.turn, hpromise]
  rfl

theorem Does.duty {duty : Duty H.Data H.Fn} (h : r.Does n t task)
    (hduty : task.duty? id = some duty) :
    duty ∈ (r.world n).duties id t := by
  obtain ⟨-, name, stack, ht⟩ := h
  rw [World.duties_of_thread ht]
  simp [Control.held, hduty]

theorem Ends.completion (hstart : (r.world 0).Starting) (h : r.Ends id n t v first) :
    r.written id n = some (t, v) ∧ r.told id n = (r.kept id n).map (·, v) ∧
      ∃ ty, (r.world n).heap.promises[id]? = some ⟨ty, some v, []⟩ := by
  obtain ⟨hwritten, hall, hpromise⟩ :=
    (Run.completion hstart id n).2.of_duty (Does.duty h (if_pos rfl))
  exact ⟨hwritten, by simpa using hall.symm, hpromise⟩

theorem Ends.replies (h : r.Ends id n t v first) : ∃ heap,
    (r.world n).Changes (r.world (n + 1)) t (.run (.notify id v [] first))
      (first.elim (.ret (.ok .unit v.ty .unit)) .raise) heap := by
  cases first with
  | none => exact ⟨_, h.changes (by simp) fun here stack => rfl⟩
  | some payload => exact ⟨_, h.changes (by simp) fun here stack => rfl⟩

theorem Sees.promised (h : r.Sees id n t v) : (r.world n).heap.promised? id = some v := by
  cases h with
  | awaited hdoes ht =>
      cases hpromised : (r.world n).heap.promised? id with
      | none =>
          obtain ⟨name, stack, ht'⟩ := hdoes.next (by simp)
            (by simp [Task.turn, hpromised, Turn.sleep])
          simp [ht, Task.turn, hpromised, Turn.sleep] at ht'
      | some w =>
          obtain ⟨name, stack, ht'⟩ := hdoes.next (by simp)
            (by simp [Task.turn, hpromised, Turn.ret])
          simp only [ht, Task.turn, hpromised, Turn.ret] at ht'
          simp_all
  | awaitedUntil hdoes ht =>
      cases hpromised : (r.world n).heap.promised? id with
      | none =>
          obtain ⟨name, stack, ht'⟩ := hdoes.next (by simp)
            (by simp [Task.turn, hpromised, Turn.sleep])
          simp [ht, Task.turn, hpromised, Turn.sleep] at ht'
      | some w =>
          obtain ⟨name, stack, ht'⟩ := hdoes.next (by simp)
            (by simp [Task.turn, hpromised, Turn.ret])
          simp only [ht, Task.turn, hpromised, Turn.ret] at ht'
          simp_all
  | peeked hdoes ht =>
      rcases hpromise : (r.world n).heap.promises[id]? with _ | ⟨ty, value, subscribers⟩
      · obtain ⟨name, stack, ht'⟩ := hdoes.next (by simp) (by simp [Task.turn, hpromise, Turn.ret])
        simp [ht, Task.turn, hpromise, Turn.ret] at ht'
      · cases value with
        | none =>
            obtain ⟨name, stack, ht'⟩ := hdoes.next (by simp)
              (by simp [Task.turn, hpromise, Turn.ret])
            simp [ht, Task.turn, hpromise, Turn.ret] at ht'
        | some w =>
            obtain ⟨name, stack, ht'⟩ := hdoes.next (by simp)
              (by simp [Task.turn, hpromise, Turn.ret])
            simp only [ht, Task.turn, hpromise, Turn.ret] at ht'
            simp_all [Heap.promised?]

theorem Tells.calls (h : r.Tells id n t subscriber v) : ∃ name stack,
    (r.world (n + 1)).threads[t]? = some ⟨name, .run (.tell subscriber v), stack⟩ := by
  cases h with
  | kept hdoes =>
      obtain ⟨name, stack, ht⟩ := hdoes.next (by simp) fun _ _ => rfl
      exact ⟨name, _, ht⟩
  | late hdoes hpromised =>
      unfold Heap.promised? at hpromised
      split at hpromised
      · rename_i promise hpromise
        obtain ⟨ty, value, subscribers⟩ := promise
        obtain rfl : value = some v := hpromised
        obtain ⟨name, stack, ht⟩ :=
          hdoes.next (by simp) (by simp [Task.turn, hpromise, Promise.subscribe, Turn.call])
        simp only [Task.turn, hpromise] at ht
        exact ⟨name, _, ht⟩
      · contradiction

theorem length_keeps_le (n : Nat) : ((r.world n).keeps id (r.action n)).length ≤ 1 := by
  unfold World.keeps
  cases (r.world n).task? (r.action n) with
  | none => exact Nat.zero_le 1
  | some task =>
      simp only [Option.map_some, Option.getD_some]
      unfold Task.keeps
      split
      · split <;> simp
      · exact Nat.zero_le 1

theorem length_tells_le (n : Nat) : ((r.world n).tells id (r.action n)).length ≤ 1 := by
  unfold World.tells
  cases (r.world n).task? (r.action n) with
  | none => exact Nat.zero_le 1
  | some task =>
      simp only [Option.map_some, Option.getD_some]
      unfold Task.tells
      split
      · split <;> simp
      · exact Nat.zero_le 1

theorem exists_does {a : Action} (hn : r.action n = a) (h : (r.world n).task? a = some task) :
    ∃ t, r.Does n t task := by
  obtain ⟨t, name, stack, rfl, ht⟩ := World.task?_eq_some h
  exact ⟨t, hn, name, stack, ht⟩

theorem getElem?_kept (hentry : (r.world m).keeps id (r.action m) = [subscriber]) (h : m < n) :
    (r.kept id n)[(r.kept id m).length]? = some subscriber :=
  getElem?_ledger (fun k => (r.world k).keeps id (r.action k)) hentry h

theorem getElem?_told (hentry : (r.world m).tells id (r.action m) = [(subscriber, v)])
    (h : m < n) : (r.told id n)[(r.told id m).length]? = some (subscriber, v) :=
  getElem?_ledger (fun k => (r.world k).tells id (r.action k)) hentry h

theorem subscribes_of_keeps (h : (r.world n).keeps id (r.action n) = [subscriber]) :
    ∃ t, r.Subscribes id n t subscriber ∧ (r.world n).heap.promised? id = none := by
  unfold World.keeps at h
  cases htask : (r.world n).task? (r.action n) with
  | none => simp [htask] at h
  | some task =>
      obtain ⟨t, hdoes⟩ := exists_does rfl htask
      simp only [htask, Option.map_some, Option.getD_some] at h
      unfold Task.keeps at h
      split at h
      · split at h
        · rename_i heq
          obtain ⟨rfl, hopen⟩ := heq
          obtain rfl := List.singleton_inj.1 h
          unfold Heap.isOpen at hopen
          split at hopen
          · rename_i hpromise
            refine ⟨t, ⟨hdoes, (Array.getElem?_eq_some_iff.1 hpromise).1⟩, ?_⟩
            simp [Heap.promised?, hpromise]
          · contradiction
        · contradiction
      · contradiction

theorem does_of_tells (h : (r.world n).tells id (r.action n) = [(subscriber, v)]) :
    ∃ t rest first, r.Does n t (.notify id v (subscriber :: rest) first) := by
  unfold World.tells at h
  cases htask : (r.world n).task? (r.action n) with
  | none => simp [htask] at h
  | some task =>
      obtain ⟨t, hdoes⟩ := exists_does rfl htask
      simp only [htask, Option.map_some, Option.getD_some] at h
      unfold Task.tells at h
      split at h
      · split at h
        · rename_i heq
          subst heq
          obtain ⟨rfl, rfl⟩ := Prod.mk.inj (List.singleton_inj.1 h)
          exact ⟨t, _, _, hdoes⟩
        · contradiction
      · contradiction

theorem Does.tells_notify (h : r.Does n t (.notify id v (subscriber :: rest) first)) :
    (r.world n).tells id (r.action n) = [(subscriber, v)] := by
  rw [h.tells]
  exact if_pos rfl

theorem Subscribes.keeps (hstart : (r.world 0).Starting) (h : r.Subscribes id n t subscriber)
    (hnone : (r.world n).heap.promised? id = none) :
    r.written id n = none ∧ (r.world n).keeps id (r.action n) = [subscriber] := by
  have hcompletion := (completion hstart id n).2
  have hwritten : r.written id n = none := by
    rw [hcompletion.promised?] at hnone
    exact Option.map_eq_none_iff.1 hnone
  have hopen := hcompletion.isOpen_iff.2 ⟨h.2, hwritten⟩
  exact ⟨hwritten, by simp [h.1.keeps, Task.keeps, hopen]⟩

/-- What the call that has written the value tells is what has been kept, in the same order. -/
theorem Does.kept_of_notify (hstart : (r.world 0).Starting)
    (h : r.Does n t (.notify id v (subscriber :: rest) first)) :
    r.written id n = some (t, v) ∧ (r.kept id n)[(r.told id n).length]? = some subscriber := by
  obtain ⟨hwritten, hall, -⟩ := (completion hstart id n).2.of_duty (h.duty (if_pos rfl))
  refine ⟨hwritten, ?_⟩
  have hget : ((r.kept id n).map (·, v))[(r.told id n).length]? = some (subscriber, v) := by
    rw [hall, List.getElem?_append_right (Nat.le_refl _)]
    simp
  simpa using hget

theorem Does.serves (hstart : (r.world 0).Starting)
    (h : r.Does m t (.notify id v (subscriber :: rest) first)) :
    ∃ n, r.Serves id n subscriber m t v := by
  obtain ⟨-, hkept⟩ := h.kept_of_notify hstart
  obtain ⟨hlt, -⟩ := List.getElem?_eq_some_iff.1 hkept
  obtain ⟨n, subscriber', hnm, hentry, hlength⟩ := exists_entry _ length_keeps_le hlt
  have hkept' : (r.kept id m)[(r.told id m).length]? = some subscriber' := by
    rw [← hlength]
    exact getElem?_kept hentry hnm
  obtain rfl := Option.some.inj (hkept'.symm.trans hkept)
  obtain ⟨t', hsubscribes, hnone⟩ := subscribes_of_keeps hentry
  exact ⟨n, .later hsubscribes hnone h hlength.symm⟩

theorem Serves.told (hstart : (r.world 0).Starting) (h : r.Serves id n subscriber m t v)
    (h' : r.Serves id k subscriber' m t' v') : n = k := by
  cases h with
  | onTheSpot hsubscribes hpromised =>
      cases h' with
      | onTheSpot => rfl
      | later _ _ hdoes' =>
          obtain ⟨-, heq⟩ := hsubscribes.1.unique hdoes'
          contradiction
  | later hsubscribes hnone hdoes hlength =>
      cases h' with
      | onTheSpot hsubscribes' =>
          obtain ⟨-, heq⟩ := hsubscribes'.1.unique hdoes
          contradiction
      | later hsubscribes' hnone' hdoes' hlength' =>
          exact entry_unique (fun k => (r.world k).keeps id (r.action k))
            (hsubscribes.keeps hstart hnone).2 (hsubscribes'.keeps hstart hnone').2
            (hlength.symm.trans hlength')

theorem Serves.once (h : r.Serves id n subscriber m t v)
    (h' : r.Serves id n subscriber' k t' v') :
    m = k ∧ subscriber = subscriber' ∧ t = t' ∧ v = v' := by
  cases h with
  | onTheSpot hsubscribes hpromised =>
      cases h' with
      | onTheSpot hsubscribes' hpromised' =>
          obtain ⟨rfl, heq⟩ := hsubscribes.1.unique hsubscribes'.1
          obtain ⟨-, rfl⟩ := Task.subscribe.inj heq
          exact ⟨rfl, rfl, rfl, Option.some.inj (hpromised.symm.trans hpromised')⟩
      | later _ hnone' => simp [hpromised] at hnone'
  | later hsubscribes hnone hdoes hlength =>
      cases h' with
      | onTheSpot _ hpromised' => simp [hnone] at hpromised'
      | later _ _ hdoes' hlength' =>
          obtain rfl := entry_unique (fun k => (r.world k).tells id (r.action k))
            hdoes.tells_notify hdoes'.tells_notify (hlength.trans hlength'.symm)
          obtain ⟨rfl, heq⟩ := hdoes.unique hdoes'
          obtain ⟨-, rfl, hsubscribers, -⟩ := Task.notify.inj heq
          exact ⟨rfl, (List.cons.inj hsubscribers).1, rfl, rfl⟩

theorem Subscribes.served (hstart : (r.world 0).Starting) (hends : r.Ends id k t v first)
    (h : r.Subscribes id n t' subscriber) :
    ∃ m t'', r.Serves id n subscriber m t'' v ∧ (m < k ∨ m = n) := by
  obtain ⟨hwritten, htold, -⟩ := hends.completion hstart
  obtain ⟨m₀, hm₀, hwrites⟩ := exists_writes hstart hwritten
  cases hpromised : (r.world n).heap.promised? id with
  | some v' =>
      have hvalue := (completion hstart id n).2.promised?
      rw [hpromised] at hvalue
      obtain ⟨x, hx, rfl⟩ := Option.map_eq_some_iff.1 hvalue.symm
      have hsame : x = (t, v) := by
        rcases Nat.le_total n k with hnk | hkn
        · exact Option.some.inj ((written_of_le hx hnk).symm.trans hwritten)
        · exact Option.some.inj (hx.symm.trans (written_of_le hwritten hkn))
      subst hsame
      exact ⟨n, t', .onTheSpot h hpromised, .inr rfl⟩
  | none =>
      -- The subscription has been kept, and all that have been kept have been told.
      obtain ⟨hnone, hentry⟩ := h.keeps hstart hpromised
      have hnk : n < k := Nat.lt_of_not_le fun hkn => by
        simp [written_of_le hwritten hkn] at hnone
      have hget : (r.told id k)[(r.kept id n).length]? = some (subscriber, v) := by
        rw [htold, List.getElem?_map, getElem?_kept hentry hnk, Option.map_some]
      obtain ⟨hlt, -⟩ := List.getElem?_eq_some_iff.1 hget
      obtain ⟨m, ⟨subscriber', v'⟩, hmk, hentry', hlength⟩ := exists_entry _ length_tells_le hlt
      have hget' : (r.told id k)[(r.kept id n).length]? = some (subscriber', v') := by
        rw [← hlength]
        exact getElem?_told hentry' hmk
      obtain ⟨rfl, rfl⟩ := Prod.mk.inj (Option.some.inj (hget'.symm.trans hget))
      obtain ⟨t'', rest, first, hdoes⟩ := does_of_tells hentry'
      exact ⟨m, t'', .later h hpromised hdoes hlength, .inl hmk⟩

theorem Tells.serves (hstart : (r.world 0).Starting) (h : r.Tells id m t subscriber v) :
    (∃ k t', k < m ∧ r.Writes id k t' v) ∧ ∃ n, r.Serves id n subscriber m t v := by
  cases h with
  | kept hdoes =>
      obtain ⟨hwritten, -⟩ := hdoes.kept_of_notify hstart
      obtain ⟨k, hk, hwrites⟩ := exists_writes hstart hwritten
      exact ⟨⟨k, t, hk, hwrites⟩, hdoes.serves hstart⟩
  | late hdoes hpromised =>
      have hlt : id < (r.world m).heap.promises.size := by
        unfold Heap.promised? at hpromised
        split at hpromised
        · rename_i hpromise
          exact (Array.getElem?_eq_some_iff.1 hpromise).1
        · contradiction
      exact ⟨(promised?_eq_some hstart).1 hpromised, m, .onTheSpot ⟨hdoes, hlt⟩ hpromised⟩

/-- Once the value is there, nobody is kept any more. -/
theorem kept_of_written (hstart : (r.world 0).Starting) {x : ThreadId × Value H.Data H.Fn}
    (h : r.written id k = some x) (hkn : k ≤ n) : r.kept id n = r.kept id k := by
  induction hkn with
  | refl => rfl
  | @step n hkn ih =>
      have hpromised := (completion hstart id n).2.promised?
      rw [written_of_le h hkn] at hpromised
      have hnothing : (r.world n).keeps id (r.action n) = [] := by
        cases hkeeps : (r.world n).keeps id (r.action n) with
        | nil => rfl
        | cons subscriber rest =>
            have hlength : ((r.world n).keeps id (r.action n)).length ≤ 1 := length_keeps_le n
            obtain rfl : rest = [] := by simpa [hkeeps] using hlength
            obtain ⟨-, -, hnone⟩ := subscribes_of_keeps hkeeps
            simp [hnone] at hpromised
      rw [← ih]
      simp [kept, ledger, hnothing]

theorem Ends.emptied (hstart : (r.world 0).Starting) (h : r.Ends id k t v first) (hkn : k ≤ n) :
    ∃ ty, (r.world n).heap.promises[id]? = some ⟨ty, some v, []⟩ := by
  obtain ⟨hwritten, htold, -⟩ := h.completion hstart
  have hcompletion := (Run.completion hstart id n).2
  rw [written_of_le hwritten hkn] at hcompletion
  generalize hnow : r.told id n = now at hcompletion
  cases hcompletion with
  | written _ hpromise =>
      -- Nobody had been kept.
      have hnobody : r.kept id n = [] := by
        have hprefix : r.told id k <+: r.told id n := ledger_prefix _ hkn
        rw [hnow, htold, List.prefix_nil, List.map_eq_nil_iff] at hprefix
        rw [kept_of_written hstart hwritten hkn, hprefix]
      rw [hnobody] at hpromise
      exact ⟨_, hpromise⟩
  | taken _ hpromise => exact ⟨_, hpromise⟩
  | done _ hpromise => exact ⟨_, hpromise⟩

/-- A subscriber is called for no other reason. -/
theorem tells_of_held {thread : Thread H} (ht : (r.world (n + 1)).threads[t]? = some thread)
    (hmem : .tell subscriber v ∈ thread.held) :
    (∃ (t' : ThreadId) (thread' : Thread H), (r.world n).threads[t']? = some thread' ∧
        .tell subscriber v ∈ thread'.held) ∨ ∃ id t', r.Tells id n t' subscriber v := by
  rcases (r.ordered n).held_of_does (r.step n) ht hmem with
    ⟨thread', ht', hheld⟩ | ⟨t', thread', haction, ht', hhands⟩
  · exact .inl ⟨t, thread', ht', hheld⟩
  · cases hhands with
    | minor hminor => exact hminor.elim
    | @task name task _ stack hhands =>
        have hdoes : r.Does n t' task := ⟨haction, name, stack, ht'⟩
        cases hhands with
        | minor hminor => exact hminor.elim
        | request hrequest => cases hrequest
        | tell => exact .inr ⟨_, t', .kept hdoes⟩
        | subscribe hpromised => exact .inr ⟨_, t', .late hdoes hpromised⟩
    | ret hhands =>
        cases hhands with
        | minor hminor => exact hminor.elim
        | after => exact .inl ⟨t', _, ht', by simp [Thread.held, Return.held]⟩
    | raise hhands =>
        cases hhands with
        | minor hminor => exact hminor.elim

/-- Whatever the order of the threads is, all agree about every promise. -/
theorem agrees (hstart : (r.world 0).Starting) (id : PromiseId) : r.Agrees id where
  accepted h := h.accepted hstart
  rejected h hmn h' := h.rejected hstart hmn h'
  ended h := ⟨exists_writes hstart (h.completion hstart).1, h.replies⟩
  found := promised?_eq_some hstart
  seen h := (promised?_eq_some hstart).1 h.promised
  told h := by
    obtain ⟨hwritten, n, hserves⟩ := h.serves hstart
    exact ⟨hwritten, n, hserves, fun _ _ _ _ hserves' => hserves'.told hstart hserves⟩
  once h h' := h.once h'
  served hends h := h.served hstart hends
  emptied h hkn := h.emptied hstart hkn
  calls h := h.calls
  only ht hmem := tells_of_held ht hmem

end Run

namespace Drill

/-- The first thread makes a promise, subscribes and completes it; the second one subscribes and
completes it as well. The subscriber of the first thread subscribes in turn. -/
def agreeing : Script
  | 0 => [.ask (.newPromise .text), .ask (.subscribe 0 ⟨2, ∅⟩), .ask (.fill 0 (.text "first"))]
  | 1 => [.ask (.subscribe 0 ⟨3, ∅⟩), .ask (.fill 0 (.text "second"))]
  | 2 => [.ask (.subscribe 0 ⟨3, ∅⟩)]
  | _ => []

def subscriber (f : Nat) : Subscriber Nat := .user ⟨f, ∅⟩

/-- The second thread has its turns between the writing of the value and the taking of the
subscribers. -/
def contended : Run (host agreeing) :=
  run agreeing [] (List.replicate 10 0 ++ List.replicate 13 1 ++ List.replicate 20 0)

set_option maxRecDepth 4000 in
/-- Subscribers are kept before the value is written, come while it is there but the subscribers
have not been taken, and come from inside a subscriber; each of them is called once. -/
theorem contended_agrees :
    (∃ ty, (contended.world 22).Changes (contended.world 23) 1 (.run (.fill 0 (.text "second")))
        (.ret (.err .unit ty (.text "second"))) (contended.world 22).heap) ∧
      (contended.Subscribes 0 5 0 (subscriber 2) ∧ contended.Subscribes 0 12 1 (subscriber 3) ∧
        contended.Subscribes 0 30 0 (subscriber 3)) ∧
        ∀ n t subscriber, contended.Subscribes 0 n t subscriber →
          ∃ m t', contended.Serves 0 n subscriber m t' (.text "first") ∧
            ∀ m' subscriber' t'' v, contended.Serves 0 n subscriber' m' t'' v → m' = m := by
  have hagrees := Run.agrees (r := contended) (start_starting agreeing []) 0
  have hfirst : contended.Completes 0 9 0 (.text "first") := ⟨⟨rfl, _, _, rfl⟩, by decide⟩
  have hsecond : contended.Completes 0 22 1 (.text "second") := ⟨⟨rfl, _, _, rfl⟩, by decide⟩
  have hends : contended.Ends 0 42 0 (.text "first") none := ⟨rfl, _, _, rfl⟩
  refine ⟨hagrees.rejected hfirst (by decide) hsecond, ⟨⟨⟨rfl, _, _, rfl⟩, by decide⟩,
    ⟨⟨rfl, _, _, rfl⟩, by decide⟩, ⟨⟨rfl, _, _, rfl⟩, by decide⟩⟩,
    fun n t subscriber hsubscribes => ?_⟩
  obtain ⟨m, t', hserves, -⟩ := hagrees.served hends hsubscribes
  exact ⟨m, t', hserves, fun m' subscriber' t'' v hserves' => (hagrees.once hserves' hserves).1⟩

end Drill

end Trampoline
