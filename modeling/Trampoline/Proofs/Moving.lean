import Trampoline.Effect.Concurrent
import Trampoline.Proofs.Entries
import Trampoline.Proofs.Spreading

/-!
Effects that are run on a scheduler. The interpretation that comes to such an effect forks it, joins
the fork and does nothing else: the effect is interpreted once, in a fiber, and what it ends with
comes out of the fiber, a panic with its text. A stack of schedulers changes nothing about that.
-/

namespace Trampoline

variable {H : Host}

/-- Whether a deed has a function of the host called. -/
def Deed.IsUse {D F : Type} : Deed D F → Prop
  | .ask (.call _ _) => True
  | .call (.register (.user _ _ _)) => True
  | _ => False

theorem Deed.IsOfJoin.not_isUse {D F : Type} {value error : Ty} {fiber : PromiseId} {d : Deed D F}
    (h : d.IsOfJoin value error fiber) : ¬d.IsUse := by
  cases d with
  | call c =>
      cases c with
      | register register =>
          obtain rfl : register = _ := h
          exact id
      | _ => exact id
  | ask => exact h.elim
  | _ => exact id

/-- The exit of an effect as it comes out of a fiber: a panic comes out with its text. -/
def Exit.relayed {D F : Type} : Exit (Outcome D F) → Exit (Outcome D F)
  | .settled o => .settled o
  | .panicked payload => .panicked (.text payload.message)

@[simp] theorem Exit.relayed_relayed {D F : Type} (exit : Exit (Outcome D F)) :
    exit.relayed.relayed = exit.relayed := by
  cases exit <;> rfl

theorem Exit.HasTags.relayed {D F : Type} {value error : Ty} {exit : Exit (Outcome D F)}
    (h : exit.HasTags value error) : exit.relayed.HasTags value error := by
  cases exit with
  | settled o => exact h
  | panicked payload => exact fun o heq => by contradiction

/-- What is read from the slot in which an exit is recorded. -/
theorem Exit.exit_of_slot? {D F : Type} {value error : Ty} {exit : Exit (Outcome D F)}
    {slot : Slot D F} (h : exit.slot? value error = some slot) : slot.exit = exit.relayed := by
  cases exit with
  | panicked payload =>
      obtain rfl := Option.some.inj h
      rfl
  | settled o =>
      simp only [slot?] at h
      split at h
      · rename_i o' hrestore
        obtain rfl := Option.some.inj h
        obtain ⟨rfl, -⟩ := restore_eq_ok hrestore
        cases o' <;> rfl
      · contradiction

namespace Interpretation

variable {D F : Type} (value error : Ty) (fiber : PromiseId) (rest : List (Frame D F))

theorem not_isUse_flatten : ∀ d ∈ (settle (.settled (.ok (.joining value error fiber)))
    (.bind (.flatten value error) :: rest)).deeds, ¬d.IsUse := by
  intro d hd
  obtain rfl | rfl : d = .pop (.bind (.flatten value error)) ∨
      d = .call (.bind (.flatten value error) (.joining value error fiber)) := by
    simpa [deeds, settle, Frame.call?, Frame.plan, Value.joining, plan_flatten, Plan.deeds,
      Next.deeds] using hd
  · exact id
  · exact id

end Interpretation

namespace Run

variable {r : Run H} {b k n m : Nat} {p q : Place} {t : ThreadId} {value error a e : Ty}
  {s : SchedulerId} {x : Node H.Data H.Fn} {fiber : PromiseId}
  {rest frames : List (Frame H.Data H.Fn)}
  {finish : Finish H.Fn} {exit exit' : Exit (Outcome H.Data H.Fn)}
  {i j : Interpretation H.Data H.Fn}

/-- For `n` actions the interpretation that is at `p` at time `b` has been under way and has not
come to an exit above some continuations, and no function of the host has been called for it. -/
structure IsQuiet (r : Run H) (b : Nat) (p : Place) (rest : List (Frame H.Data H.Fn)) (n : Nat) :
    Prop where
  within {m : Nat} : m < n → ∃ stage, r.stage b p m = some stage ∧
    ∀ exit, stage ≠ .driving (.settle exit rest)
  calls : ∀ d ∈ r.history b p n, ¬d.IsUse

/-- The interpretation that is at `p` at time `b` comes to an exit above some continuations for the
first time, `n` actions later. -/
structure Settles (r : Run H) (b : Nat) (p : Place) (rest : List (Frame H.Data H.Fn)) (n : Nat)
    (exit : Exit (Outcome H.Data H.Fn)) : Prop extends r.IsQuiet b p rest n where
  stage : r.stage b p n = some (.driving (.settle exit rest))

theorem IsQuiet.mono (h : r.IsQuiet b p rest n) (hmn : m ≤ n) : r.IsQuiet b p rest m where
  within hk := h.within (Nat.lt_of_lt_of_le hk hmn)
  calls d hd := by
    obtain ⟨j, hj, hd⟩ := mem_history.1 hd
    exact h.calls d (mem_history.2 ⟨j, Nat.lt_of_lt_of_le hj hmn, hd⟩)

theorem IsQuiet.zero (r : Run H) (b : Nat) (p : Place) (rest : List (Frame H.Data H.Fn)) :
    r.IsQuiet b p rest 0 :=
  ⟨fun h => absurd h (Nat.not_lt_zero _), fun d hd => by simp [history] at hd⟩

theorem IsQuiet.add (h : r.IsQuiet b p rest n) (hq : r.place b p n = some q)
    (h' : r.IsQuiet (b + n) q rest m) : r.IsQuiet b p rest (n + m) where
  within {k} hk := by
    rcases Nat.lt_or_ge k n with hkn | hnk
    · exact h.within hkn
    · obtain ⟨d, rfl⟩ := Nat.exists_eq_add_of_le hnk
      rw [r.stage_add hq]
      exact h'.within (by omega)
  calls d hd := by
    rw [r.history_add hq] at hd
    exact (List.mem_append.1 hd).elim (h.calls d) (h'.calls d)

theorem Settles.add (h : r.IsQuiet b p rest n) (hq : r.place b p n = some q)
    (h' : r.Settles (b + n) q rest m exit) : r.Settles b p rest (n + m) exit where
  toIsQuiet := h.add hq h'.toIsQuiet
  stage := (r.stage_add hq m).trans h'.stage

theorem Settles.unique {n' : Nat} (h : r.Settles b p rest n exit)
    (h' : r.Settles b p rest n' exit') :
    n = n' ∧ exit = exit' := by
  have hlate {n n' : Nat} {exit exit' : Exit (Outcome H.Data H.Fn)} (h : r.Settles b p rest n exit)
      (h' : r.Settles b p rest n' exit') : ¬n < n' := by
    intro hlt
    obtain ⟨stage, hstage, hne⟩ := h'.within hlt
    exact hne exit (Option.some.inj (hstage.symm.trans h.stage))
  obtain rfl := Nat.le_antisymm (Nat.le_of_not_lt (hlate h' h)) (Nat.le_of_not_lt (hlate h h'))
  have hsame := Stage.driving.inj (Option.some.inj (h.stage.symm.trans h'.stage))
  exact ⟨rfl, by simpa [Interpretation.settle] using hsame⟩

theorem IsQuiet.not_settles (h : r.IsQuiet b p rest n) (hm : m < n) :
    ¬r.Settles b p rest m exit := by
  intro hsettles
  obtain ⟨stage, hstage, hne⟩ := h.within hm
  exact hne exit (Option.some.inj (hstage.symm.trans hsettles.stage))

/-- Until it comes to an exit an interpretation does what its stages say. -/
theorem isQuiet_of_stages {y : Pending H.Data H.Fn} (hp : (r.world b).pendingAt p = some y)
    (h : ∀ k, k < n → (∃ i, r.stage b p k = some (.driving i) ∧ (∀ exit, i ≠ .settle exit rest) ∧
      ∀ d ∈ i.deeds, ¬d.IsUse) ∨ ∃ frames, r.stage b p k = some (.asking .succeed frames)) :
    r.IsQuiet b p rest n where
  within {k} hk := by
    rcases h k hk with ⟨i, hstage, hne, -⟩ | ⟨frames, hstage⟩
    · exact ⟨_, hstage, fun exit heq => hne exit (Stage.driving.inj heq)⟩
    · exact ⟨_, hstage, by simp⟩
  calls d hd := by
    obtain ⟨k, hk, hd⟩ := mem_history.1 hd
    rcases h k hk with ⟨i, hstage, -, hdeeds⟩ | ⟨frames, hstage⟩
    · have hgoes : Stage.Goes (.driving i) (r.deeds b p k) (r.stage b p (k + 1)) :=
        (r.course hp).goes k _ hstage
      generalize r.deeds b p k = deeds, r.stage b p (k + 1) = o at hgoes hd
      cases hgoes with
      | rest => simp at hd
      | registered hnode => contradiction
      | step hstep => cases hstep <;> exact hdeeds d hd
    · have hgoes : Stage.Goes (.asking .succeed frames) (r.deeds b p k) (r.stage b p (k + 1)) :=
        (r.course hp).goes k _ hstage
      generalize r.deeds b p k = deeds, r.stage b p (k + 1) = o at hgoes hd
      cases hgoes with
      | rest => simp at hd
      | registered hnode => contradiction
      | step hstep =>
          cases hstep with
          | @reply _ _ reply =>
              obtain rfl : d = .reply reply := by
                cases reply <;> simpa [Post.deeds, Post.answer, Next.deeds] using hd
              exact id

/-- An interpretation that goes on by itself calls no function of the host if it has none called. -/
theorem Fair.exists_quiet (hfair : r.Fair) (rest : List (Frame H.Data H.Fn))
    (hp : (r.world b).pendingAt p = some (.driving i, finish)) (hstep : i.step = .next j)
    (hi : ∀ exit, i ≠ .settle exit rest) (hdeeds : ∀ d ∈ i.deeds, ¬d.IsUse) :
    ∃ n q, r.place b p n = some q ∧ (r.world (b + n)).pendingAt q = some (.driving j, finish) ∧
      r.submitted b p n = [] ∧ r.IsQuiet b p rest n := by
  obtain ⟨n, q, hq, hat, hsubmitted, hstages⟩ := hfair.exists_goes hp hstep
  exact ⟨n, q, hq, hat, hsubmitted,
    isQuiet_of_stages hp fun k hk => .inl ⟨i, hstages k hk, hi, hdeeds⟩⟩

/-- An interpretation that waits for its fork calls no function of the host. -/
theorem AwaitsReply.isQuiet {y : Pending H.Data H.Fn} {frame : Frame H.Data H.Fn}
    (hp : (r.world b).pendingAt p = some y)
    (h : r.AwaitsReply b p (.forking a e s x) (frame :: rest) n) : r.IsQuiet b p rest (n + 1) := by
  refine isQuiet_of_stages hp fun k hk => ?_
  refine (h k (Nat.le_of_lt_succ hk)).imp (fun hstage => ⟨_, hstage, ?_, ?_⟩)
    fun hstage => ⟨_, hstage⟩
  · exact fun exit heq => by simp [Interpretation.settle] at heq
  · intro d hd
    obtain rfl | rfl : d = .call (.thunk (.fork a e x s)) ∨ d = .ask (.fork a e x s) := by
      simpa [Node.forking, Interpretation.deeds, Thunk.plan, Plan.deeds] using hd
    · exact id
    · exact id

theorem submitted_prefix (r : Run H) (b : Nat) (p : Place) (hnm : n ≤ m) :
    r.submitted b p n <+: r.submitted b p m := by
  induction hnm with
  | refl => exact List.prefix_rfl
  | step _ ih => exact ih.trans (List.prefix_append _ _)

/-- What comes of an interpretation that is at `p` at time `b`, above some continuations, and is to
go on with what a fiber records. -/
structure Relays (r : Run H) (b : Nat) (p : Place) (rest : List (Frame H.Data H.Fn))
    (works : List (SchedulerId × Work H.Data H.Fn)) (fiber : PromiseId) : Prop where
  /-- It submits this work, -/
  submits : ∃ n, r.IsQuiet b p rest n ∧ r.submitted b p n = works
  /-- and nothing else comes of it until it goes on with what has been recorded. -/
  course (n : Nat) : (r.IsQuiet b p rest (n + 1) ∧ r.submitted b p (n + 1) <+: works) ∨
    ∃ m slot, m ≤ n ∧ r.Settles b p rest m slot.exit ∧ r.submitted b p m = works ∧
      (r.world (b + m)).heap.slot? fiber = some slot
  /-- It does so once something is recorded. -/
  comes {m : Nat} {slot : Slot H.Data H.Fn} : (r.world m).heap.slot? fiber = some slot →
    ∃ n exit, r.Settles b p rest n exit

theorem Relays.add {works works' : List (SchedulerId × Work H.Data H.Fn)}
    (hquiet : r.IsQuiet b p rest n) (hq : r.place b p n = some q)
    (hsubmitted : r.submitted b p n = works) (h : r.Relays (b + n) q rest works' fiber) :
    r.Relays b p rest (works ++ works') fiber where
  submits := by
    obtain ⟨m, hquiet', hsubmitted'⟩ := h.submits
    exact ⟨n + m, hquiet.add hq hquiet', by rw [submitted_add hq, hsubmitted, hsubmitted']⟩
  course k := by
    rcases Nat.lt_or_ge k n with hkn | hnk
    · refine .inl ⟨hquiet.mono hkn, ?_⟩
      exact (hsubmitted ▸ submitted_prefix r b p hkn).trans (List.prefix_append _ _)
    · obtain ⟨d, rfl⟩ := Nat.exists_eq_add_of_le hnk
      rcases h.course d with ⟨hquiet', hprefix⟩ | ⟨m, slot, hm, hsettles, hworks, hslot⟩
      · refine .inl ⟨hquiet.add hq hquiet', ?_⟩
        rw [Nat.add_assoc, submitted_add hq, hsubmitted]
        exact List.prefix_append_right_inj _ |>.2 hprefix
      · refine .inr ⟨n + m, slot, by omega, .add hquiet hq hsettles, ?_, ?_⟩
        · rw [submitted_add hq, hsubmitted, hworks]
        · rwa [← Nat.add_assoc]
  comes hslot := by
    obtain ⟨m, exit, hsettles⟩ := h.comes hslot
    exact ⟨n + m, exit, .add hquiet hq hsettles⟩

/-- An interpretation that goes on when something is recorded goes on with this. -/
theorem Relays.settled {works : List (SchedulerId × Work H.Data H.Fn)}
    (h : r.Relays b p rest works fiber) (hsettles : r.Settles b p rest n exit) :
    r.submitted b p n = works ∧
      ∃ slot, (r.world (b + n)).heap.slot? fiber = some slot ∧ exit = slot.exit := by
  rcases h.course n with ⟨hquiet, -⟩ | ⟨m, slot, -, hsettles', hworks, hslot⟩
  · exact absurd hsettles (hquiet.not_settles (Nat.lt_succ_self n))
  · obtain ⟨rfl, rfl⟩ := hsettles.unique hsettles'
    exact ⟨hworks, slot, hslot, rfl⟩

/-- It is as it was as long as nothing is recorded. -/
theorem Relays.isQuiet {works : List (SchedulerId × Work H.Data H.Fn)}
    (h : r.Relays b p rest works fiber)
    (hnone : ∀ m slot, (r.world m).heap.slot? fiber ≠ some slot) (n : Nat) :
    r.IsQuiet b p rest n := by
  rcases h.course n with ⟨hquiet, -⟩ | ⟨m, slot, -, -, -, hslot⟩
  · exact hquiet.mono (Nat.le_succ n)
  · exact absurd hslot (hnone _ slot)

/-- An interpretation that joins a fiber does nothing else until it reads the fiber's slot. -/
theorem JoinsOnce.isQuiet
    (hp : (r.world b).pendingAt p =
      some (.driving ⟨.node (.join value error fiber), rest⟩, finish))
    (h : r.JoinsOnce b p value error fiber rest)
    (hnone : ∀ m slot, m < n → ¬r.Reads b p value error fiber rest m slot) :
    r.IsQuiet b p rest n ∧ r.submitted b p n = [] := by
  refine ⟨⟨fun {m} hm => ?_, fun d hd => (h.deeds hnone d hd).not_isUse⟩, h.submitted hnone hp⟩
  obtain ⟨stage, j, hstage, hjoins, -⟩ := h.isJoining hnone hm
  refine ⟨stage, hstage, fun exit heq => ?_⟩
  subst heq
  cases hjoins

theorem JoinsOnce.relays
    (hp : (r.world b).pendingAt p =
      some (.driving ⟨.node (.join value error fiber), rest⟩, finish))
    (h : r.JoinsOnce b p value error fiber rest)
    (hcomes : ∀ {m slot}, (r.world m).heap.slot? fiber = some slot →
      ∃ n slot', r.Reads b p value error fiber rest n slot') : r.Relays b p rest [] fiber := by
  -- The first time at which the slot is read.
  have hfirst {n : Nat} {slot : Slot H.Data H.Fn}
      (hreads : r.Reads b p value error fiber rest n slot) :
      ∃ m slot, m ≤ n ∧ r.Settles b p rest m slot.exit ∧ r.submitted b p m = [] ∧
        (r.world (b + m)).heap.slot? fiber = some slot := by
    classical
    have hex : ∃ m slot, r.Reads b p value error fiber rest m slot := ⟨n, slot, hreads⟩
    obtain ⟨slot', hreads'⟩ := Nat.find_spec hex
    obtain ⟨hquiet, hsubmitted⟩ := h.isQuiet hp (n := Nat.find hex) fun m slot hm hreads =>
      Nat.find_min hex hm ⟨slot, hreads⟩
    exact ⟨Nat.find hex, slot', Nat.find_min' hex ⟨slot, hreads⟩, ⟨hquiet, hreads'.stage⟩,
      hsubmitted, hreads'.slot⟩
  refine ⟨⟨0, .zero r b p rest, rfl⟩, fun n => ?_, fun hslot => ?_⟩
  · by_cases hread : ∃ m slot, m ≤ n ∧ r.Reads b p value error fiber rest m slot
    · obtain ⟨m, slot, hm, hreads⟩ := hread
      obtain ⟨m', slot', hm', hsettles⟩ := hfirst hreads
      exact .inr ⟨m', slot', Nat.le_trans hm' hm, hsettles⟩
    · obtain ⟨hquiet, hsubmitted⟩ := h.isQuiet hp (n := n + 1) fun m slot hm hreads =>
        hread ⟨m, slot, Nat.le_of_lt_succ hm, hreads⟩
      exact .inl ⟨hquiet, hsubmitted ▸ List.prefix_rfl⟩
  · obtain ⟨n, slot, hreads⟩ := hcomes hslot
    obtain ⟨m, slot', -, hsettles, -⟩ := hfirst hreads
    exact ⟨m, _, hsettles⟩

/-- A scheduler comes back, with a reply, from the submission of every effect that is forked on it,
unless it never does because the effect is run in the submission and does not end. -/
def ReleasesSubmitters (r : Run H) (s : SchedulerId) : Prop :=
  ∀ n t value error x fiber stack,
    r.Turns n t (.run (.submit s (launched value error x s fiber))) stack →
      (∃ m, r.Returns n m t stack) ∨ (∀ m, n < m → r.IsAbove m t stack) ∧
        ∀ m t' exit, ¬r.Does m t' (.conclude exit (.fiber value error fiber s))

theorem SubmissionsReturn.releasesSubmitters (h : r.SubmissionsReturn s) : r.ReleasesSubmitters s :=
  fun n t value error x fiber stack hsubmits => .inl (h n t value error x fiber stack hsubmits)

/-- The host has nothing to do with the fibers in which an effect that is moved to a scheduler is
run, and subscribes to none of them. -/
def KeepsFibers (r : Run H) (value error : Ty) (x : Node H.Data H.Fn) (s : SchedulerId) : Prop :=
  ∀ k t rest last applied finish below fiber,
    r.ForksAt k t (.answering .succeed (.bind (.flatten value error) :: rest) last applied finish ::
      below) value error x s fiber → r.IsUntouched value error x s fiber ∧ r.SubscribesOnce fiber

/-- The panic that ends at time `c` the effect of a fiber, which is at `p` at time `b`, is reported
to the scheduler at time `m`. -/
structure Reported (r : Run H) (b : Nat) (p : Place) (value error : Ty) (fiber : PromiseId)
    (s : SchedulerId) (message : String) (c m : Nat) : Prop where
  /-- The next thing that the thread does is to report, and when it has come back from that it marks
  the fiber and goes back with a reply. -/
  reports : ∃ payload f t stack, payload.message = message ∧
    r.ReportsFirst value error fiber s payload c m f t stack ∧
      ∀ d, r.Returns f d t (.after (.give .unit) :: stack) →
        ∃ i name, d < i ∧ (r.world i).threads[t]? = some ⟨name, .ret .unit, stack⟩
  /-- Nothing else is reported for the effect, -/
  once {i m' : Nat} {t : ThreadId} {s' : SchedulerId} {failure : WorkFailure} :
    r.Moves b p i → r.ReportsFor (b + i) m' t s' failure →
      m' = m ∧ s' = s ∧ failure = ⟨"fiber", message⟩
  /-- and nobody finds anything in the fiber before. -/
  found {i : Nat} {slot : Slot H.Data H.Fn} : (r.world i).heap.slot? fiber = some slot → m < i

/-- What comes of an interpretation of an effect that is moved to a scheduler, which is at `p` at
time `b` above some continuations: the effect is interpreted from action `n` on at `q`, and the exit
comes out of the fiber. -/
structure Carries (r : Run H) (b : Nat) (p : Place) (rest : List (Frame H.Data H.Fn))
    (value error : Ty) (x : Node H.Data H.Fn) (s : SchedulerId) (fiber : PromiseId) (n : Nat)
    (q : Place) : Prop where
  begins : r.BeginsAt n q x (.fiber value error fiber s)
  once {n' : Nat} {q' : Place} {node : Node H.Data H.Fn} {value' error' : Ty} {s' : SchedulerId} :
    r.BeginsAt n' q' node (.fiber value' error' fiber s') → n' = n ∧ q' = q ∧ node = x
  relays : r.Relays b p rest [(s, launched value error x s fiber)] fiber
  recorded {m : Nat} {slot : Slot H.Data H.Fn} : (r.world m).heap.slot? fiber = some slot →
    ∃ j exit, n + 1 + j < m ∧ r.EndsAt (n + 1) q j exit ∧ exit.slot? value error = some slot
  records {j : Nat} {exit : Exit (Outcome H.Data H.Fn)} : r.EndsAt (n + 1) q j exit →
    exit.HasTags value error → ((∃ payload, exit = .panicked payload) → r.ReportsReturn s) →
      ∃ m slot, (r.world m).heap.slot? fiber = some slot
  reported {j : Nat} {payload : Payload} : r.EndsAt (n + 1) q j (.panicked payload) →
    r.ReportsReturn s →
      ∃ m, r.Reported (n + 1) q value error fiber s payload.message (n + 1 + j) m

/-- An interpretation that has forked an effect to run it on a scheduler goes on with what the fiber
records. -/
theorem Submitting.relays {c : Nat} {last applied : Kept} {below : List (Return H)} (hfair : r.Fair)
    (hstart : (r.world 0).Starting)
    (himmediate : (r.world 0).heap.schedulers[immediateId]? = some .immediate)
    (hp : (r.world b).pendingAt p = some (.driving
      ⟨.node (.forking value error s x), .bind (.flatten value error) :: rest⟩, finish))
    (h : r.Submitting b p (.bind (.flatten value error) :: rest) finish value error x s m c t
      fiber last
      applied below)
    (hreleases : (∃ d, r.Returns (b + c) d t (.after (.give (.joining value error fiber)) ::
        .answering .succeed (.bind (.flatten value error) :: rest) last applied finish :: below)) ∨
      (∀ d, b + c < d → r.IsAbove d t (.after (.give (.joining value error fiber)) ::
        .answering .succeed (.bind (.flatten value error) :: rest) last applied finish :: below)) ∧
          ∀ d t' exit, ¬r.Does d t' (.conclude exit (.fiber value error fiber s)))
    (huntouched : r.IsUntouched value error x s fiber) (hsubscribes : r.SubscribesOnce fiber) :
    r.Relays b p rest [(s, launched value error x s fiber)] fiber := by
  have hlaunch := h.forks.launches
  rcases hreleases with ⟨d, hreturns⟩ | ⟨habove, hnever⟩
  · obtain ⟨e, q, hce, hawaits, hsubmitted, hq, hat⟩ := h.replies hfair hp hreturns
    obtain ⟨d', q', hq', hat', hsubmitted', hquiet⟩ := hfair.exists_quiet rest hat
      (step_flatten value error (.join value error fiber) rest) (by simp [Interpretation.settle])
        (Interpretation.not_isUse_flatten value error fiber rest)
    have hfiber : fiber < (r.world (b + (e + 1) + d')).heap.promises.size := by
      have hsize := promises_size_le (r := r)
        (show b + m + 1 ≤ b + (e + 1) + d' by have := h.lt; omega)
      rw [hlaunch.size_succ] at hsize
      exact hsize
    have hjoins := huntouched.joinsOnce hstart hlaunch himmediate hfair hat'
    have hrelays := hjoins.relays hat' fun hslot => by
      obtain ⟨_, _, hpromised⟩ := Heap.slot?_eq_some.1 hslot
      refine hfair.exists_reads hstart himmediate huntouched.nodes (fun n v hv => ?_) hat' hfiber
        (hfair.tellsFrom hstart hsubscribes hpromised _)
      obtain ⟨_, _, _, slot, -, -, -, rfl⟩ := huntouched.recorded hstart hlaunch hv
      exact ⟨slot, rfl⟩
    exact Relays.add (hawaits.isQuiet hp) hq hsubmitted (Relays.add hquiet hq' hsubmitted' hrelays)
  · -- The submission does not come back.
    have hwaits (n : Nat) : r.AwaitsReply b p (.forking value error s x)
        (.bind (.flatten value error) :: rest) n :=
      h.awaits hp (fun j hj _ => (habove j hj).of_cons) (Nat.lt_succ_self n)
    refine ⟨⟨c + 1, (hwaits c).isQuiet hp, h.submitted⟩, fun n => .inl ⟨(hwaits n).isQuiet hp, ?_⟩,
      fun hslot => ?_⟩
    · rw [(h.startsOnce hp).submitted (hwaits (n + 1))]
      split
      · exact List.nil_prefix
      · exact List.prefix_rfl
    · obtain ⟨_, _, hpromised⟩ := Heap.slot?_eq_some.1 hslot
      obtain ⟨_, _, exit, _, -, hdoes, -⟩ := huntouched.recorded hstart hlaunch hpromised
      exact absurd hdoes (hnever _ _ exit)

/-- A panic that ends the effect is reported. -/
theorem BeginsAt.exists_reported (hstart : (r.world 0).Starting)
    (hlaunch : r.Launches k value error x s fiber)
    (honce : r.PerformsOnce (launched value error x s fiber))
    (h : r.BeginsAt n q x (.fiber value error fiber s))
    (huntouched : r.IsUntouched value error x s fiber) (hfair : r.Fair)
    (hreports : r.ReportsReturn s) {j : Nat} {payload : Payload}
    (hends : r.EndsAt (n + 1) q j (.panicked payload)) :
    ∃ m, r.Reported (n + 1) q value error fiber s payload.message (n + 1 + j) m := by
  have hsealed := huntouched.toIsSealed
  obtain ⟨t, haction, name, stack, ht⟩ := exists_does_of_finish h.pendingAt hends
  obtain ⟨m, f, hfirst⟩ := hfair.exists_reportsFirst hreports ⟨haction, name, ht⟩
  refine ⟨m, ⟨payload, f, t, stack, rfl, hfirst, fun d hreturns => hreturns.gives hfair⟩,
    fun hmoves hreport => ?_, fun hslot => ?_⟩
  · obtain ⟨heq, -, hscheduler, hfailure⟩ :=
      hfirst.once hstart hlaunch hsealed honce h.pendingAt hmoves hreport
    exact ⟨heq, hscheduler, hfailure⟩
  · obtain ⟨j', exit, -, hends', hexit⟩ :=
      h.exists_endsAt_of_slot hstart hlaunch honce huntouched hslot
    obtain ⟨-, rfl⟩ := hends.unique h.pendingAt hends'
    obtain rfl := Option.some.inj hexit
    obtain ⟨_, _, hpromised⟩ := Heap.slot?_eq_some.1 hslot
    exact Nat.lt_trans hfirst.lt
      (hfirst.of_promised hstart hlaunch hsealed honce hpromised trivial).1

/-- An effect that is moved to a scheduler which runs its work once is interpreted once, and comes
out of its fiber. -/
theorem Fair.exists_carries (hfair : r.Fair) (hstart : (r.world 0).Starting)
    (himmediate : (r.world 0).heap.schedulers[immediateId]? = some .immediate)
    (honce : r.RunsOnce s) (hreleases : r.ReleasesSubmitters s)
    (hkeeps : r.KeepsFibers value error x s)
    (hp : (r.world b).pendingAt p = some (.driving
      ⟨.node (.flatMap (.forking value error s x) (.flatten value error)), rest⟩, finish)) :
    ∃ fiber n q, r.Carries b p rest value error x s fiber n q := by
  -- It comes to the node that forks the effect.
  obtain ⟨d, q, hq, hat, hsubmitted, hquiet⟩ := hfair.exists_quiet rest hp rfl
    (by simp [Interpretation.settle]) (by simp [Interpretation.deeds, Deed.IsUse])
  obtain ⟨m, c, t, fiber, last, applied, below, hforks⟩ := hfair.exists_submitting hat
  have hlaunch := hforks.forks.launches
  obtain ⟨huntouched, hsubscribes⟩ := hkeeps _ _ _ _ _ _ _ _ hforks.forks
  obtain ⟨⟨n, t', hperforms⟩, honce⟩ := honce _ _ _ _ _ _ hforks.submits.does
  obtain ⟨l, hbegins⟩ := hperforms.begins
  have hrelays :=
    hforks.relays hfair hstart himmediate hat (hreleases _ _ _ _ _ _ _ hforks.submits) huntouched
      hsubscribes
  refine ⟨fiber, n, _, hbegins, fun h' => ?_, hrelays.add hquiet hq hsubmitted,
    hbegins.exists_endsAt_of_slot hstart hlaunch honce huntouched, fun hends htags hreports => ?_,
    fun hends hreports => hbegins.exists_reported hstart hlaunch honce huntouched hfair hreports
      hends⟩
  · obtain ⟨⟨-, rfl, -⟩, -⟩ := begins_eq_launched hstart hlaunch huntouched.toIsSealed h'
    obtain ⟨rfl, rfl⟩ := begins_once hstart hlaunch huntouched.toIsSealed honce h' hbegins
    exact ⟨rfl, rfl, rfl⟩
  · obtain ⟨slot, -, i, hi⟩ :=
      hbegins.exists_slot hstart hlaunch honce huntouched hfair hends htags hreports
    exact ⟨i, slot, hi⟩

/-- What comes out of the fiber is what the effect ends with. -/
theorem Carries.settled {n' : Nat} (h : r.Carries b p rest value error x s fiber n q)
    (hsettles : r.Settles b p rest n' exit') :
    ∃ j exit, n + 1 + j < b + n' ∧ r.EndsAt (n + 1) q j exit ∧ exit' = exit.relayed := by
  obtain ⟨-, slot, hslot, rfl⟩ := h.relays.settled hsettles
  obtain ⟨j, exit, hlt, hends, hexit⟩ := h.recorded hslot
  exact ⟨j, exit, hlt, hends, Exit.exit_of_slot? hexit⟩

theorem Carries.comes {j : Nat} (h : r.Carries b p rest value error x s fiber n q)
    (hends : r.EndsAt (n + 1) q j exit) (htags : exit.HasTags value error)
    (hreports : (∃ payload, exit = .panicked payload) → r.ReportsReturn s) :
    ∃ n', r.Settles b p rest n' exit.relayed := by
  obtain ⟨m, slot, hslot⟩ := h.records hends htags hreports
  obtain ⟨n', exit', hsettles⟩ := h.relays.comes hslot
  obtain ⟨j', exit'', -, hends', rfl⟩ := h.settled hsettles
  obtain ⟨-, rfl⟩ := hends.unique h.begins.pendingAt hends'
  exact ⟨n', hsettles⟩

/-- The exit that an interpretation of a whole effect comes to is the one it ends with. -/
theorem Settles.exists_endsAt {y : Pending H.Data H.Fn} (hfair : r.Fair)
    (hp : (r.world b).pendingAt p = some y) (h : r.Settles b p [] n exit) :
    ∃ j, n ≤ j ∧ r.EndsAt b p j exit :=
  hfair.exists_endsAt hp h.stage (show (Interpretation.settle exit []).step = .finish exit by
    cases exit <;> rfl)

theorem EndsAt.exists_settles {works : List (SchedulerId × Work H.Data H.Fn)}
    {y : Pending H.Data H.Fn}
    (hp : (r.world b).pendingAt p = some y) (hfair : r.Fair) (hrelays : r.Relays b p [] works fiber)
    (h : r.EndsAt b p n exit) : ∃ m, r.Settles b p [] m exit := by
  obtain ⟨-, hover, -⟩ := h.stage hp
  rcases hrelays.course (n + 1) with ⟨hquiet, -⟩ | ⟨m, slot, -, hsettles, -⟩
  · obtain ⟨stage, hstage, -⟩ := hquiet.within (Nat.lt_succ_self (n + 1))
    rw [hover] at hstage
    contradiction
  · obtain ⟨j, -, hends⟩ := hsettles.exists_endsAt hfair hp
    obtain ⟨-, rfl⟩ := h.unique hp hends
    exact ⟨m, hsettles⟩

end Run

namespace Effect

variable {D F : Type} {a e : Ty}

/-- Runs `x` on the last scheduler of a list, that on the one before it, and so on. -/
def evalOns (x : Effect D F a e) : List SchedulerId → Effect D F a e
  | [] => x
  | s :: ss => (x.evalOns ss).evalOn s

end Effect

namespace Run

variable {r : Run H} {b b' n m : Nat} {p p' q : Place} {a e : Ty} {s : SchedulerId}
  {ss : List SchedulerId} {x : Effect H.Data H.Fn a e} {fiber : PromiseId}
  {rest : List (Frame H.Data H.Fn)} {finish : Finish H.Fn} {exit exit' : Exit (Outcome H.Data H.Fn)}

/-- An effect that is moved to some schedulers and interpreted at `p` from time `b` on, above some
continuations, comes to be interpreted at `p'` from time `b'` on. -/
inductive Nests (r : Run H) (x : Effect H.Data H.Fn a e) :
    List SchedulerId → Nat → Place → List (Frame H.Data H.Fn) → Nat → Place → Prop where
  | here {b : Nat} {p : Place} {rest : List (Frame H.Data H.Fn)} : Nests r x [] b p rest b p
  | within {s : SchedulerId} {ss : List SchedulerId} {b b' n : Nat} {p p' q : Place}
      {rest : List (Frame H.Data H.Fn)} {fiber : PromiseId} :
      r.Carries b p rest a e (x.evalOns ss).node s fiber n q → Nests r x ss (n + 1) q [] b' p' →
        Nests r x (s :: ss) b p rest b' p'

/-- Schedulers and a host that do their part for an effect to be moved to some schedulers. -/
structure IsMoved (r : Run H) (x : Effect H.Data H.Fn a e) (ss : List SchedulerId) : Prop where
  runsOnce {s : SchedulerId} : s ∈ ss → r.RunsOnce s
  releases {s : SchedulerId} : s ∈ ss → r.ReleasesSubmitters s
  keeps {s : SchedulerId} {inner : List SchedulerId} : s :: inner <:+ ss →
    r.KeepsFibers a e (x.evalOns inner).node s

theorem IsMoved.tail (h : r.IsMoved x (s :: ss)) : r.IsMoved x ss where
  runsOnce hs := h.runsOnce (List.mem_cons_of_mem _ hs)
  releases hs := h.releases (List.mem_cons_of_mem _ hs)
  keeps hinner := h.keeps (hinner.trans (List.suffix_cons _ _))

/-- An effect that is moved to some schedulers comes to be interpreted. -/
theorem IsMoved.exists_nests (h : r.IsMoved x ss) (hfair : r.Fair) (hstart : (r.world 0).Starting)
    (himmediate : (r.world 0).heap.schedulers[immediateId]? = some .immediate)
    (hp : (r.world b).pendingAt p = some (.driving ⟨.node (x.evalOns ss).node, rest⟩, finish)) :
    ∃ b' p', r.Nests x ss b p rest b' p' := by
  induction ss generalizing b p rest finish with
  | nil => exact ⟨b, p, .here⟩
  | cons s ss ih =>
      obtain ⟨fiber, n, q, hcarries⟩ := hfair.exists_carries hstart himmediate
        (h.runsOnce (List.mem_cons_self ..)) (h.releases (List.mem_cons_self ..))
        (h.keeps (List.suffix_refl _)) hp
      obtain ⟨b', p', hnests⟩ := ih h.tail hcarries.begins.pendingAt
      exact ⟨b', p', .within hcarries hnests⟩

/-- An effect that is moved ends only as it does where it is interpreted, up to the text of a panic.
-/
theorem Nests.exists_endsAt (hfair : r.Fair) (h : r.Nests x ss b p [] b' p')
    {y : Pending H.Data H.Fn}
    (hp : (r.world b).pendingAt p = some y) (hends : r.EndsAt b p n exit') :
    ∃ j exit, r.EndsAt b' p' j exit ∧ exit'.relayed = exit.relayed := by
  generalize hrest : ([] : List (Frame H.Data H.Fn)) = rest at h
  induction h generalizing y n exit' with
  | here => exact ⟨n, exit', hends, rfl⟩
  | within hcarries _ ih =>
      subst hrest
      obtain ⟨m, hsettles⟩ := hends.exists_settles hp hfair hcarries.relays
      obtain ⟨j, exit'', -, hends', rfl⟩ := hcarries.settled hsettles
      obtain ⟨j', exit, hends'', heq⟩ := ih hcarries.begins.pendingAt hends' rfl
      exact ⟨j', exit, hends'', by rw [Exit.relayed_relayed, heq]⟩

/-- It ends if it does where it is interpreted. -/
theorem Nests.ends (hfair : r.Fair) (h : r.Nests x ss b p [] b' p') {y : Pending H.Data H.Fn}
    (hp : (r.world b).pendingAt p = some y) (hends : r.EndsAt b' p' n exit)
    (htags : exit.HasTags a e)
    (hreports : (∃ payload, exit = .panicked payload) → ∀ s ∈ ss, r.ReportsReturn s) :
    ∃ j exit', r.EndsAt b p j exit' ∧ exit'.HasTags a e ∧
      ((∃ payload, exit' = .panicked payload) → ∃ payload, exit = .panicked payload) := by
  generalize hrest : ([] : List (Frame H.Data H.Fn)) = rest at h
  induction h generalizing y with
  | here => exact ⟨n, exit, hends, htags, id⟩
  | within hcarries _ ih =>
      subst hrest
      obtain ⟨j, exit', hends', htags', hpanics⟩ := ih hcarries.begins.pendingAt hends
        (fun hpanic s hs => hreports hpanic s (List.mem_cons_of_mem _ hs)) rfl
      obtain ⟨m, hsettles⟩ := hcarries.comes hends' htags' fun hpanic =>
        hreports (hpanics hpanic) _ (List.mem_cons_self ..)
      obtain ⟨j', -, hends''⟩ := hsettles.exists_endsAt hfair hp
      refine ⟨j', _, hends'', htags'.relayed, fun ⟨payload, hpanic⟩ => hpanics ?_⟩
      cases exit' with
      | panicked payload => exact ⟨payload, rfl⟩
      | settled o => contradiction

theorem Nests.pendingAt (h : r.Nests x ss b p [] b' p')
    (hp : (r.world b).pendingAt p = some (.driving (.start (x.evalOns ss).node), finish)) :
    ∃ finish', (r.world b').pendingAt p' = some (.driving (.start x.node), finish') := by
  generalize hrest : ([] : List (Frame H.Data H.Fn)) = rest at h
  induction h generalizing finish with
  | here => exact ⟨finish, hp⟩
  | within hcarries _ ih => exact ih hcarries.begins.pendingAt rfl

variable {U σ : Type} {S : Setting H.Data H.Fn U σ} {s₀ : σ}

/-- To move an effect to schedulers that run their work once, one after the other, only moves the
work. In any context it is interpreted once, does there what it does anywhere in the setting, and
the moved effect settles with the same outcome, or with a panic of the same text, and does not
settle if the effect does not end. Each scheduler gets one unit of work for that. -/
theorem IsMoved.settles_as_interpreted (h : r.IsMoved x (s :: ss)) (hfair : r.Fair)
    (hstart : (r.world 0).Starting)
    (himmediate : (r.world 0).heap.schedulers[immediateId]? = some .immediate) (hx : S.Types s₀ x)
    (hp : (r.world b).pendingAt p =
      some (.driving ⟨.node (x.evalOns (s :: ss)).node, rest⟩, finish)) :
    ∃ b' p', r.Nests x (s :: ss) b p rest b' p' ∧ (r.Suits S s₀ b' p' →
      Sight.Agree (r.shown S s₀ b' p') (fun m => S.seen m s₀ (.start x.node)) ∧
        (∀ n exit', r.Settles b p rest n exit' →
          ∃ exit, S.Ends s₀ (.start x.node) exit ∧ exit' = exit.relayed) ∧
        (∀ exit, S.Ends s₀ (.start x.node) exit →
          ((∃ payload, exit = .panicked payload) → ∀ s' ∈ s :: ss, r.ReportsReturn s') →
            ∃ n, r.Settles b p rest n exit.relayed) ∧
        ((∀ exit, ¬S.Ends s₀ (.start x.node) exit) → ∀ n, r.IsQuiet b p rest n)) := by
  obtain ⟨b', p', hnests⟩ := h.exists_nests hfair hstart himmediate hp
  refine ⟨b', p', hnests, fun hsuits => ?_⟩
  cases hnests with
  | @within _ _ _ _ n _ _ q _ fiber hcarries hnests =>
      have hbegun := hcarries.begins.pendingAt
      obtain ⟨finish', hp'⟩ := hnests.pendingAt hbegun
      -- Whatever the fork ends with, the effect has ended with.
      have hends {j : Nat} {exit' : Exit (Outcome H.Data H.Fn)} (hj : r.EndsAt (n + 1) q j exit') :
          ∃ exit, S.Ends s₀ (.start x.node) exit ∧ exit'.relayed = exit.relayed := by
        obtain ⟨j', exit, hends, heq⟩ := hnests.exists_endsAt hfair hbegun hj
        exact ⟨exit, hsuits.ends hp' hends, heq⟩
      have hsettled (n' : Nat) (exit' : Exit (Outcome H.Data H.Fn))
          (hsettles : r.Settles b p rest n' exit') :
          ∃ exit, S.Ends s₀ (.start x.node) exit ∧ exit' = exit.relayed := by
        obtain ⟨j, exit'', -, hj, rfl⟩ := hcarries.settled hsettles
        exact hends hj
      refine ⟨hsuits.agree hp', hsettled, fun exit hexit hreports => ?_, fun hnever => ?_⟩
      · obtain ⟨j, hj⟩ := hsuits.exists_endsAt hp' hexit
        obtain ⟨j', exit', hj', htags, hpanics⟩ := hnests.ends hfair hbegun hj (hexit.hasTags hx)
          fun hpanic s' hs' => hreports hpanic s' (List.mem_cons_of_mem _ hs')
        obtain ⟨n', hsettles⟩ := hcarries.comes hj' htags fun hpanic =>
          hreports (hpanics hpanic) _ (List.mem_cons_self ..)
        obtain ⟨exit'', hexit'', heq⟩ := hsettled n' _ hsettles
        obtain rfl := hexit.unique hexit''
        exact ⟨n', heq ▸ hsettles⟩
      · refine hcarries.relays.isQuiet fun m slot hslot => ?_
        obtain ⟨j, exit', -, hj, -⟩ := hcarries.recorded hslot
        obtain ⟨exit, hexit, -⟩ := hends hj
        exact hnever exit hexit

end Run

namespace Drill

/-- The first thread blocks for the effect, which is run on a pool within another one. -/
def moving : Script
  | 0 => [.ask (.runBlocking .unit .unit (consultation.evalOns [2, 3]).node)]
  | 3 => [.raise (.text "bug")]
  | _ => []

def moved : Run (host moving) :=
  run moving [.pool .log, .pool .log] (List.replicate 22 0 ++ [1] ++ List.replicate 20 2 ++
    List.replicate 40 3 ++ List.replicate 4 0 ++ List.replicate 12 3)

/-- When effects are handed in and performed, and when their fibers are subscribed to. -/
def movesOnce (n : Nat) : Task (host moving) → Bool
  | .submit s (.interpret _ _) => n == if s = 2 then 5 else 27
  | .perform (.interpret _ (.fiber _ _ _ s)) => n == if s = 2 then 23 else 43
  | .subscribe fiber _ => n == if fiber = 0 then 15 else 37
  | _ => true

theorem movesOnce_of_does {n : Nat} {t : ThreadId} {task : Task (host moving)}
    (h : moved.Does n t task) : movesOnce n task :=
  check_of_does (by decide) h

set_option maxRecDepth 4000 in
theorem moved_fair : moved.Fair := Run.fair_ofList (by decide)

theorem moved_subscribesOnce (fiber : PromiseId) : moved.SubscribesOnce fiber := by
  intro n m t t' _ _ hn hm
  have hn' := movesOnce_of_does hn.1
  have hm' := movesOnce_of_does hm.1
  simp only [movesOnce, beq_iff_eq] at hn' hm'
  exact hn'.trans hm'.symm

set_option maxRecDepth 4000 in
theorem moved_runsOnce {s : SchedulerId} (hs : s ∈ [2, 3]) : moved.RunsOnce s := by
  have hsubmits {n : Nat} {t : ThreadId} {node : Node Unit Nat} {finish : Finish Nat}
      (hdoes : moved.Does n t (.submit s (.interpret node finish))) :
        n = if s = 2 then 5 else 27 := by
    simpa [movesOnce] using movesOnce_of_does hdoes
  have hperforms {n : Nat} {t : ThreadId} {node : Node Unit Nat} {value error : Ty}
      {fiber : PromiseId}
      (hdoes : moved.Does n t (.perform (.interpret node (.fiber value error fiber s)))) :
      n = if s = 2 then 23 else 43 := by
    simpa [movesOnce] using movesOnce_of_does hdoes
  have h5 : moved.Does 5 0 (.submit 2 (.interpret _ (.fiber .unit .unit 0 2))) := ⟨rfl, _, _, rfl⟩
  have h23 : moved.Does 23 2 (.perform (.interpret _ (.fiber .unit .unit 0 2))) := ⟨rfl, _, _, rfl⟩
  have h27 : moved.Does 27 2 (.submit 3 (.interpret _ (.fiber .unit .unit 1 3))) := ⟨rfl, _, _, rfl⟩
  have h43 : moved.Does 43 3 (.perform (.interpret _ (.fiber .unit .unit 1 3))) := ⟨rfl, _, _, rfl⟩
  obtain rfl | rfl : s = 2 ∨ s = 3 := by simpa using hs
  · exact Run.runsOnce_of_submits h5 h23 hsubmits hperforms
  · exact Run.runsOnce_of_submits h27 h43 hsubmits hperforms

theorem moved_pool {s : SchedulerId} (hs : s ∈ [2, 3]) :
    (moved.world 0).heap.schedulers[s]? = some (.pool .log) := by
  obtain rfl | rfl : s = 2 ∨ s = 3 := by simpa using hs
  · rfl
  · rfl

theorem moved_reportsReturn : ∀ s ∈ [2, 3], moved.ReportsReturn s := fun _ hs =>
  Run.reportsReturn_of_hook (moved_pool hs) (by simp [Scheduler.hook?])

theorem moved_isMoved : moved.IsMoved consultation [2, 3] where
  runsOnce := moved_runsOnce
  releases hs := (Run.submissionsReturn_pool (moved_pool hs)).releasesSubmitters
  keeps _ _ _ _ _ _ _ _ _ _ :=
    ⟨isUntouched_of_isPlain (by decide) .., moved_subscribesOnce _⟩

theorem pendingAt_moved : (moved.world 2).pendingAt (.thread 0 2) =
    some (.driving (.start (consultation.evalOns [2, 3]).node), .channel .unit .unit 0) := by rfl

set_option maxRecDepth 4000 in
theorem pendingAt_innermost : (moved.world 44).pendingAt (.thread 3 1) =
    some (.driving (.start consultation.node), .fiber .unit .unit 1 3) := by rfl

set_option maxRecDepth 4000 in
theorem history_innermost : moved.history 44 (.thread 3 1) 13 = consultation.deeds := by rfl

set_option maxRecDepth 4000 in
theorem suits_innermost : moved.Suits consultingSetting () 44 (.thread 3 1) := by
  have hcheck : ∀ n < 13, goesOn moved 44 (.thread 3 1) [5, 10] n := by decide
  refine suits_of_check pendingAt_innermost moved_fair (n := 13) rfl ?_ ?_ hcheck
    (by decide)
  · rw [history_innermost]
    exact ⟨trivial, trivial, trivial, ⟨_, rfl⟩, trivial, trivial, trivial, ⟨_, rfl⟩, trivial,
      trivial⟩
  · rw [history_innermost]
    rfl

set_option maxRecDepth 4000 in
/-- The effect comes to be interpreted on the thread of the inner pool. -/
theorem moved_nests {b b' : Nat} {p p' : Place} {rest : List (Frame Unit Nat)}
    (h : moved.Nests consultation [2, 3] b p rest b' p') : b' = 44 ∧ p' = .thread 3 1 := by
  have hperforms : moved.Turns 43 3 (.run (.perform (.interpret consultation.node
      (.fiber .unit .unit 1 3)))) [.guarded 3] := ⟨rfl, _, rfl⟩
  obtain _ | ⟨-, hnests⟩ := h
  obtain _ | ⟨hcarries, hnests⟩ := hnests
  cases hnests
  obtain ⟨t, hdoes⟩ := hcarries.begins.performs
  have hn := movesOnce_of_does hdoes
  simp only [movesOnce, beq_iff_eq] at hn
  subst hn
  obtain ⟨rfl, -⟩ := hcarries.begins.unique hperforms.begins
  exact ⟨rfl, rfl⟩

set_option maxRecDepth 4000 in
/-- The moved effect panics with the text of the effect's panic. -/
theorem moved_settles : ∃ n,
    moved.Settles 2 (.thread 0 2) [] n (.panicked (.text "bug")) := by
  obtain ⟨b', p', hnests, hmoves⟩ := moved_isMoved.settles_as_interpreted (S := consultingSetting)
    moved_fair (start_starting moving _) rfl types_consultation pendingAt_moved
  obtain ⟨rfl, rfl⟩ := moved_nests hnests
  obtain ⟨-, -, hsettles, -⟩ := hmoves suits_innermost
  exact hsettles _ ends_consultation fun _ => moved_reportsReturn

/-- The effect is moved to a pool, and the report of its panic panics, too. -/
def untold : Run (host (breaking (.runBlocking .unit .unit (consultation.evalOns [2]).node))) :=
  run _ [brittle] (1 :: (List.replicate 22 0 ++ List.replicate 26 2 ++ List.replicate 2 0))

/-- When the effect is handed in and performed, and when its fiber is subscribed to. -/
def movesInTurn (n : Nat) :
    Task (host (breaking (.runBlocking .unit .unit (consultation.evalOns [2]).node))) → Bool
  | .submit _ (.interpret _ _) => n == 6
  | .perform (.interpret _ (.fiber _ _ fiber _)) => n == 23 && fiber == 0
  | .subscribe _ _ => n == 16
  | _ => true

set_option maxRecDepth 4000 in
theorem untold_fair : untold.Fair := Run.fair_ofList (by decide)

theorem movesInTurn_of_does {n : Nat} {t : ThreadId} {task : Task (host _)}
    (h : untold.Does n t task) : movesInTurn n task :=
  check_of_does (by decide) h

set_option maxRecDepth 4000 in
theorem untold_runsOnce : untold.RunsOnce 2 := by
  have hsubmits : untold.Does 6 0 (.submit 2 (.interpret _ (.fiber .unit .unit 0 2))) :=
    ⟨rfl, _, _, rfl⟩
  have hperforms : untold.Does 23 2 (.perform (.interpret _ (.fiber .unit .unit 0 2))) :=
    ⟨rfl, _, _, rfl⟩
  refine Run.runsOnce_of_submits hsubmits hperforms (fun hdoes => ?_) fun hdoes => ?_
  · simpa [movesInTurn] using movesInTurn_of_does hdoes
  · simpa [movesInTurn] using movesInTurn_of_does hdoes

theorem untold_isMoved : untold.IsMoved consultation [2] where
  runsOnce hs := List.mem_singleton.1 hs ▸ untold_runsOnce
  releases hs := by
    obtain rfl := List.mem_singleton.1 hs
    exact (Run.submissionsReturn_pool (show (untold.world 0).heap.schedulers[2]? = some brittle
      from rfl)).releasesSubmitters
  keeps _ _ _ _ _ _ _ _ _ _ := by
    refine ⟨isUntouched_of_isPlain (by decide) .., ?_⟩
    intro n m t t' _ _ hn hm
    have hn := movesInTurn_of_does hn.1
    have hm := movesInTurn_of_does hm.1
    simp only [movesInTurn, beq_iff_eq] at hn hm
    exact hn.trans hm.symm

theorem pendingAt_untold : (untold.world 3).pendingAt (.thread 0 2) =
    some (.driving (.start (consultation.evalOns [2]).node), .channel .unit .unit 0) := by rfl

set_option maxRecDepth 4000 in
theorem history_untold : untold.history 24 (.thread 2 1) 13 = consultation.deeds := by rfl

set_option maxRecDepth 4000 in
theorem suits_untold : untold.Suits consultingSetting () 24 (.thread 2 1) := by
  have hcheck : ∀ n < 13, goesOn untold 24 (.thread 2 1) [5, 10] n := by decide
  have hp : (untold.world 24).pendingAt (.thread 2 1) =
    some (.driving (.start consultation.node), .fiber .unit .unit 0 2) := rfl
  refine suits_of_check hp untold_fair (n := 13) rfl ?_ ?_ hcheck (by decide)
  · rw [history_untold]
    exact ⟨trivial, trivial, trivial, ⟨_, rfl⟩, trivial, trivial, trivial, ⟨_, rfl⟩, trivial,
      trivial⟩
  · rw [history_untold]
    rfl

set_option maxRecDepth 4000 in
/-- The effect ends with its panic where it is interpreted, but the moved effect never settles. -/
theorem untold_not_settled :
    untold.Fair ∧ untold.IsMoved consultation [2] ∧
      (untold.world 3).pendingAt (.thread 0 2) =
        some (.driving (.start (consultation.evalOns [2]).node), .channel .unit .unit 0) ∧
      untold.Nests consultation [2] 3 (.thread 0 2) [] 24 (.thread 2 1) ∧
      untold.Suits consultingSetting () 24 (.thread 2 1) ∧
      consultingSetting.Ends () (.start consultation.node) (.panicked (.text "bug")) ∧
        ∀ n exit, ¬untold.Settles 3 (.thread 0 2) [] n exit := by
  have hstart := start_starting
    (breaking (.runBlocking .unit .unit (consultation.evalOns [2]).node))
    [brittle]
  have hperforms : untold.Turns 23 2 (.run (.perform (.interpret consultation.node
      (.fiber .unit .unit 0 2)))) [.guarded 2] := ⟨rfl, _, rfl⟩
  obtain ⟨b', p', hnests⟩ := untold_isMoved.exists_nests untold_fair hstart rfl pendingAt_untold
  obtain _ | ⟨hcarries, hhere⟩ := hnests
  cases hhere
  obtain ⟨t, hdoes⟩ := hcarries.begins.performs
  have hturn := movesInTurn_of_does hdoes
  simp only [movesInTurn, Bool.and_eq_true, beq_iff_eq] at hturn
  obtain ⟨rfl, rfl⟩ := hturn
  obtain ⟨rfl, -⟩ := hcarries.begins.unique hperforms.begins
  have hnone (n : Nat) : (untold.world n).heap.slot? 0 = none := slot?_eq_none (by decide) n
  refine ⟨untold_fair, untold_isMoved, pendingAt_untold, .within hcarries .here, suits_untold,
    ends_consultation, fun n exit hsettles => ?_⟩
  obtain ⟨-, slot, hslot, -⟩ := hcarries.relays.settled hsettles
  rw [hnone] at hslot
  contradiction

end Drill

end Trampoline
