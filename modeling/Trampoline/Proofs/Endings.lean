import Trampoline.Proofs.Blocking
import Trampoline.Proofs.Laws

/-!
How interpretations end. A setting decides whether an interpretation ends there and with which exit,
and an interpretation that suits the setting in a run ends with this exit, once, or never.
-/

namespace Trampoline

variable {D F U σ : Type} {a e : Ty}

/-- The outcome with which an interpretation settles has these tags. -/
def Exit.HasTags (value error : Ty) (exit : Exit (Outcome D F)) : Prop :=
  ∀ o, exit = .settled o → Outcome.HasTags value error o

theorem Exit.restore_of_hasTags {value error : Ty} {o : Outcome D F}
    (h : Outcome.HasTags value error o) : (Exit.settled o).restore value error = .ok o := by
  cases o with
  | ok v => exact if_pos h
  | error v => exact if_pos h

theorem Interpretation.of_step_finish {i : Interpretation D F} {exit : Exit (Outcome D F)}
    (h : i.step = .finish exit) :
    (∃ o, exit = .settled o ∧ i = settle exit []) ∨
      ∃ payload frames, exit = .panicked payload ∧ i = settle exit frames := by
  have hfollow (frames : List (Frame D F)) (plan : Plan D F) :
    follow frames plan ≠ .finish exit := by
    cases plan <;> simp [follow]
  obtain ⟨focus, frames⟩ := i
  cases focus with
  | node node =>
      cases node with
      | thunk t => exact absurd h (hfollow frames t.plan)
      | _ => contradiction
  | exit exit' =>
      cases exit' with
      | panicked payload =>
          obtain rfl := Progress.finish.inj h
          exact .inr ⟨payload, frames, rfl, rfl⟩
      | settled o =>
          cases frames with
          | nil =>
              obtain rfl := Progress.finish.inj h
              exact .inl ⟨o, rfl, rfl⟩
          | cons frame frames => exact absurd h (hfollow frames (frame.plan o))

namespace Setting

variable {S : Setting D F U σ} {s : σ} {i : Interpretation D F} {exit exit' : Exit (Outcome D F)}

/-- In the setting the interpretation ends with an exit. -/
def Ends (S : Setting D F U σ) (s : σ) (i : Interpretation D F) (exit : Exit (Outcome D F)) :
    Prop :=
  ∃ us s' j, S.Leads s i us s' j ∧ j.step = .finish exit

theorem Ends.unique (h : S.Ends s i exit) (h' : S.Ends s i exit') : exit = exit' := by
  obtain ⟨us, s', j, hleads, hstep⟩ := h
  obtain ⟨vs, s'', j', hleads', hstep'⟩ := h'
  obtain ⟨-, -, rfl⟩ := hleads.unique hleads' (.finished hstep) (.finished hstep')
  exact Progress.finish.inj (hstep.symm.trans hstep')

theorem ends_settled_iff {x : Node D F} {o : Outcome D F} :
    S.Ends s (.start x) (.settled o) ↔ ∃ us s', S.Settles s x us o s' := by
  constructor
  · rintro ⟨us, s', j, hleads, hstep⟩
    rcases Interpretation.of_step_finish hstep with ⟨o', -, rfl⟩ | ⟨payload, frames, heq, -⟩
    · exact ⟨us, s', settles_iff.2 hleads⟩
    · contradiction
  · rintro ⟨us, s', hsettles⟩
    exact ⟨us, s', _, settles_iff.1 hsettles, rfl⟩

/-- An effect ends with values of its own types. -/
theorem Ends.hasTags {x : Effect D F a e} (h : S.Ends s (.start x.node) exit) (hx : S.Types s x) :
    exit.HasTags a e := by
  rintro o rfl
  obtain ⟨us, s', hsettles⟩ := ends_settled_iff.1 h
  exact hx us o s' hsettles

/-- What ends in the setting is seen to end. -/
theorem ends_of_mem_seen {n : Nat} (h : .ends exit ∈ S.seen n s i) : S.Ends s i exit := by
  induction n generalizing s i with
  | zero => simp [seen] at h
  | succ n ih =>
      rcases S.moves_or_over s i with ⟨us, s', j, hmoves⟩ | hover
      · rw [hmoves.seen] at h
        obtain ⟨vs, s'', k, hleads, hstep⟩ := ih (by simpa using h)
        exact ⟨us ++ vs, s'', k, .step hmoves hleads, hstep⟩
      · cases hover with
        | unanswered hstep hreply => simp [seen, hstep, hreply] at h
        | stopped hstep hexit => simp [seen, hstep, hexit] at h
        | finished hstep =>
            obtain rfl := by simpa [seen, hstep] using h
            exact ⟨[], s, i, .refl, hstep⟩

theorem Ends.exists_seen (h : S.Ends s i exit) : ∃ n, .ends exit ∈ S.seen n s i := by
  obtain ⟨us, s', j, hleads, hstep⟩ := h
  obtain ⟨n, hn⟩ := hleads.exists_seen
  refine ⟨n + 1, ?_⟩
  rw [hn]
  simp [seen, hstep]

/-- Interpretations of which the same is seen after some calls come to the same end. -/
theorem ends_iff_of_agree {us : List U} {s' : σ} {j : Interpretation D F}
    (h : Sight.Agree (fun n => S.seen n s i) fun n => us.map .call ++ S.seen n s' j) :
    S.Ends s i exit ↔ S.Ends s' j exit := by
  constructor
  · intro hends
    obtain ⟨n, hn⟩ := hends.exists_seen
    obtain ⟨m, hm⟩ := h.1 n
    exact ends_of_mem_seen (n := m) (by simpa using hm.subset hn)
  · intro hends
    obtain ⟨n, hn⟩ := hends.exists_seen
    obtain ⟨m, hm⟩ := h.2 n
    exact ends_of_mem_seen (hm.subset (List.mem_append_right _ hn))

end Setting

namespace Run

variable {H : Host} {S : Setting H.Data H.Fn U σ} {r : Run H} {s : σ} {b n m : Nat} {p : Place}
  {i : Interpretation H.Data H.Fn} {exit exit' : Exit (Outcome H.Data H.Fn)} {finish : Finish H.Fn}
  {x : Pending H.Data H.Fn}

/-- The interpretation that is at `p` at time `b` ends with an exit in the action `n` actions
later. -/
def EndsAt (r : Run H) (b : Nat) (p : Place) (n : Nat) (exit : Exit (Outcome H.Data H.Fn)) : Prop :=
  .finish exit ∈ r.deeds b p n

/-- When an interpretation ends it does nothing else, and is over then. -/
theorem EndsAt.stage (hp : (r.world b).pendingAt p = some x) (h : r.EndsAt b p n exit) :
    r.stage b p n = some (.concluding exit) ∧ r.stage b p (n + 1) = none ∧
      r.deeds b p n = [.finish exit] := by
  have hmem : exit ∈ Deed.finishes (r.deeds b p n) := List.mem_filterMap.2 ⟨_, h, rfl⟩
  cases hs : r.stage b p n with
  | none =>
      rw [show r.deeds b p n = [] from ((r.course hp).ended n hs).2] at hmem
      simp at hmem
  | some stage =>
      have hgoes : stage.Goes (r.deeds b p n) (r.stage b p (n + 1)) := (r.course hp).goes n stage hs
      generalize r.deeds b p n = deeds at hmem hgoes ⊢
      generalize r.stage b p (n + 1) = o at hgoes
      cases hgoes with
      | rest => simp at hmem
      | registered => simp [Deed.finishes, Deed.finish?] at hmem
      | step hstep =>
          cases o with
          | some stage' => simp [hstep.finishes] at hmem
          | none =>
              cases hstep with
              | lost => simp at hmem
              | conclude =>
                  obtain rfl := by simpa [Deed.finishes, Deed.finish?] using hmem
                  exact ⟨rfl, rfl, rfl⟩

/-- An interpretation that is over has ended before, if it ends. -/
theorem EndsAt.lt_of_over (hp : (r.world b).pendingAt p = some x) (h : r.EndsAt b p n exit)
    (hover : r.stage b p m = none) : n < m := by
  obtain ⟨hstage, -⟩ := h.stage hp
  refine Nat.lt_of_not_le fun hmn => ?_
  rw [r.stage_eq_none_of_le hp hover hmn] at hstage
  contradiction

theorem EndsAt.unique (hp : (r.world b).pendingAt p = some x) (h : r.EndsAt b p n exit)
    (h' : r.EndsAt b p m exit') : n = m ∧ exit = exit' := by
  obtain ⟨hstage, hover, -⟩ := h.stage hp
  obtain ⟨hstage', hover', -⟩ := h'.stage hp
  obtain rfl : n = m := Nat.le_antisymm (Nat.le_of_lt_succ (h.lt_of_over hp hover'))
    (Nat.le_of_lt_succ (h'.lt_of_over hp hover))
  exact ⟨rfl, Stage.concluding.inj (Option.some.inj (hstage.symm.trans hstage'))⟩

/-- An interpretation that has come to its end ends, if threads take their turns. -/
theorem Fair.exists_endsAt (hfair : r.Fair) (hp : (r.world b).pendingAt p = some x)
    (hs : r.stage b p n = some (.driving i)) (hstep : i.step = .finish exit) :
    ∃ m, n ≤ m ∧ r.EndsAt b p m exit := by
  have hgoes : r.GoesOn b p n (.driving i) := trivial
  obtain ⟨j, hj, -, hstep'⟩ := r.exists_step hp hfair hgoes hs
  have hstage : r.stage b p (j + 1) = some (.concluding exit) := by
    generalize r.stage b p (j + 1) = o at hstep'
    generalize r.deeds b p j = deeds at hstep'
    cases hstep' with
    | finish hfinish =>
        obtain rfl := Progress.finish.inj (hfinish.symm.trans hstep)
        rfl
    | next hnext =>
        rw [hstep] at hnext
        contradiction
    | ask hask =>
        rw [hstep] at hask
        contradiction
    | suspend hsuspend =>
        rw [hstep] at hsuspend
        contradiction
  have hgoes' : r.GoesOn b p (j + 1) (.concluding exit) := trivial
  obtain ⟨m, hm, -, hstep''⟩ := r.exists_step hp hfair hgoes' hstage
  refine ⟨m, by omega, ?_⟩
  unfold EndsAt
  generalize r.stage b p (m + 1) = o at hstep''
  generalize r.deeds b p m = deeds at hstep'' ⊢
  cases hstep'' with
  | conclude => exact List.mem_singleton_self _

namespace Suits

variable (h : r.Suits S s b p) (hp : (r.world b).pendingAt p = some (.driving i, finish))

include h hp

/-- An interpretation ends in a run only as it does in the setting. -/
theorem ends (hends : r.EndsAt b p n exit) : S.Ends s i exit := by
  obtain ⟨-, -, hdeeds⟩ := hends.stage hp
  have hpermits := h.permits (n + 1)
  rw [history, hdeeds, Setting.permitsAll_append] at hpermits
  obtain ⟨-, hfinish, -⟩ := hpermits
  obtain ⟨k, hk⟩ := (h.agree hp).1 (n + 1)
  refine Setting.ends_of_mem_seen (hk.subset ?_)
  rw [shown, history, hdeeds, Setting.shown_append, List.mem_append]
  -- The setting lets an interpretation end only where nothing is waited for.
  generalize S.afterAll ⟨s, .nothing⟩ (r.history b p n) = point at hfinish
  obtain ⟨s', waiting⟩ := point
  cases waiting with
  | nothing => exact .inr (List.mem_singleton_self _)
  | _ => exact hfinish.elim

/-- What ends in the setting ends in the run. -/
theorem exists_endsAt (hends : S.Ends s i exit) : ∃ n, r.EndsAt b p n exit := by
  obtain ⟨us, s', j, hleads, hstep⟩ := hends
  obtain ⟨n, hstage, -⟩ := h.exists_stage hp hleads
  obtain ⟨m, -, hm⟩ := h.fair.exists_endsAt hp hstage hstep
  exact ⟨m, hm⟩

end Suits

/-- An interpretation that ends with values of its own types, and that no submission lets go of. -/
structure IsProper (r : Run H) (b : Nat) (p : Place) (value error : Ty) : Prop where
  tags {n : Nat} {exit : Exit (Outcome H.Data H.Fn)} :
    r.EndsAt b p n exit → exit.HasTags value error
  submits : ∀ n t l id frames, r.place b p n = some (.thread t l) →
    r.stage b p n = some (.submitting id frames) → ¬(r.world (b + n)).Panics t l

theorem Suits.isProper {value error : Ty} {y : Effect H.Data H.Fn value error}
    (h : r.Suits S s b p) (hp : (r.world b).pendingAt p = some (.driving (.start y.node), finish))
    (hy : S.Types s y) : r.IsProper b p value error where
  tags hends := (h.ends hp hends).hasTags hy
  submits := h.submits

end Run

end Trampoline
