import Trampoline.Proofs.Combining
import Trampoline.Proofs.Retrying
import Trampoline.Proofs.Sleeping

/-!
Retries without end. An effect that is retried until it succeeds is interpreted again after every
failure, with an announcement and a sleep in between, and ends as the first interpretation does that
does not fail. Nothing is known beforehand about how the sleeps end; that they end, and with a
success, is a fact about the threads of a run.
-/

namespace Trampoline

variable {D F U σ : Type} {a e : Ty}

open Interpretation

/-- What is pending below an interpretation of an effect that is retried until it succeeds. -/
def Frame.persisting (x : Effect D F a e) (d : Nat) : List (Frame D F) :=
  [.reify ⟨a, e⟩, .bind (.recover a e (.after d x.node))]

namespace Setting

section

variable (S : Setting D F U σ)

/-- A retry is announced, and then a sleep ends with a success. -/
def Pauses (d : Nat) (s : σ) (us : List U) (s' : σ) : Prop :=
  ∃ vs s₁, S.Announces (.retrying (Duration.text d)) s vs s₁ ∧
    S.exit s₁ (.sleep d) sleeperId = some (.settled (.ok .unit), s') ∧
      us = vs ++ S.registers s₁ (.sleep d) sleeperId

/-- An effect fails every time. -/
def KeepsFailing (pauses : σ → List U → σ → Prop) (s : σ) (x : Node D F) : Prop :=
  ∀ n, ∃ us s', S.Fails pauses x s n us s'

end

variable {S : Setting D F U σ} {s s₁ s' s'' : σ} {us vs : List U} {n m d : Nat} {v : Value D F}
  {x : Effect D F a e} {i : Interpretation D F} {pauses : σ → List U → σ → Prop}
  {frames : List (Frame D F)}

theorem Announces.unique {event : Event} (h : S.Announces event s us s')
    (h' : S.Announces event s vs s'') : us = vs ∧ s' = s'' := by
  obtain ⟨rfl, v, hreply⟩ := h
  obtain ⟨rfl, w, hreply'⟩ := h'
  exact ⟨rfl, (Prod.mk.inj (Option.some.inj (hreply.symm.trans hreply'))).2⟩

theorem Pauses.unique (h : S.Pauses d s us s') (h' : S.Pauses d s vs s'') : us = vs ∧ s' = s'' := by
  obtain ⟨_, s₁, hannounces, hexit, rfl⟩ := h
  obtain ⟨_, s₂, hannounces', hexit', rfl⟩ := h'
  obtain ⟨rfl, rfl⟩ := hannounces.unique hannounces'
  exact ⟨rfl, (Prod.mk.inj (Option.some.inj (hexit.symm.trans hexit'))).2⟩

namespace Fails

theorem append {y : Node D F} (h : S.Fails pauses y s n us s₁) (h' : S.Fails pauses y s₁ m vs s') :
    S.Fails pauses y s (n + m) (us ++ vs) s' := by
  induction h with
  | nil => rwa [Nat.zero_add]
  | cons hsettles hpauses _ ih =>
      rw [Nat.succ_add, List.append_assoc, List.append_assoc]
      exact .cons hsettles hpauses (ih h')

theorem succ {y : Node D F} {ws : List U} (h : S.Fails pauses y s n us s₁)
    (hsettles : S.Settles s₁ y vs (.error v) s') (hpauses : pauses s' ws s'') :
    ∃ us' s₂, S.Fails pauses y s (n + 1) us' s₂ :=
  ⟨_, _, h.append (.cons hsettles hpauses .nil)⟩

end Fails

/-- What fails every time does so after the first failure. -/
theorem KeepsFailing.exists_next {y : Node D F}
    (hunique : ∀ s us s' vs s'', pauses s us s' → pauses s vs s'' → s' = s'')
    (h : S.KeepsFailing pauses s y) :
    ∃ us v s₁ vs s₂, S.Settles s y us (.error v) s₁ ∧ pauses s₁ vs s₂ ∧
      S.KeepsFailing pauses s₂ y := by
  obtain ⟨_, s', hone⟩ := h 1
  cases hone with
  | @cons _ s₁ s₂ _ _ us vs ws v hsettles hpauses _ =>
      refine ⟨us, v, s₁, vs, s₂, hsettles, hpauses, fun n => ?_⟩
      obtain ⟨_, s'', hmore⟩ := h (n + 1)
      cases hmore with
      | cons hsettles' hpauses' hrest =>
          obtain ⟨-, -, rfl⟩ := hsettles.unique hsettles'
          obtain rfl := hunique _ _ _ _ _ hpauses hpauses'
          exact ⟨_, s'', hrest⟩

/-- There is a time when the effect does not fail, or it fails every time, if every failure is
followed by a pause. -/
theorem prevails_or_keepsFailing {y : Node D F}
    (hnext : ∀ n us s₁, S.Fails pauses y s n us s₁ → ¬S.Prevails s₁ y →
      ∃ vs s', S.Fails pauses y s (n + 1) vs s') :
    (∃ n us s', S.Fails pauses y s n us s' ∧ S.Prevails s' y) ∨ S.KeepsFailing pauses s y := by
  refine Classical.or_iff_not_imp_left.2 fun hnever n => ?_
  induction n with
  | zero => exact ⟨[], s, .nil⟩
  | succ n ih =>
      obtain ⟨us, s₁, hfails⟩ := ih
      exact hnext n us s₁ hfails fun hprevails => hnever ⟨n, us, s₁, hfails, hprevails⟩

section Persisting

/-- After an error the retry is announced, and then comes the sleep. -/
theorem leads_sleep (hv : v.ty = e)
    (h : S.Announces (.retrying (Duration.text d)) s us s') (x : Effect D F a e)
    (frames : List (Frame D F)) :
    S.Leads s (settle (.settled (.error v)) (Frame.persisting x d ++ frames)) us s'
      ⟨.node (.async (.sleep d) sleeperId),
        .bind (.next .unit (x.retryUntilSuccess d).node) :: frames⟩ := by
  have hagain := (leads_again (Bind.retries_after a e d x.node) hv h frames).trans
    (leads_source s' _ _ frames)
  rwa [List.append_nil] at hagain

/-- After the sleep the effect is retried. -/
theorem leads_slept (h : S.exit s (.sleep d) sleeperId = some (.settled (.ok .unit), s'))
    (y : Node D F) (frames : List (Frame D F)) :
    S.Leads s ⟨.node (.async (.sleep d) sleeperId), .bind (.next .unit y) :: frames⟩
      (S.registers s (.sleep d) sleeperId) s' ⟨.node y, frames⟩ := by
  have hmoves : S.Moves s ⟨.node (.async (.sleep d) sleeperId), .bind (.next .unit y) :: frames⟩
      (S.registers s (.sleep d) sleeperId) s'
      (settle (.settled (.ok .unit)) (.bind (.next .unit y) :: frames)) := .suspend rfl h
  have hslept := (Leads.of_moves hmoves).trans
    (leads_proceeds (S := S) (Bind.proceeds_next .unit y) rfl s' frames)
  rwa [List.append_nil] at hslept

theorem Pauses.leads (h : S.Pauses d s us s') (hv : v.ty = e) (x : Effect D F a e)
    (frames : List (Frame D F)) :
    S.Leads s (settle (.settled (.error v)) (Frame.persisting x d ++ frames)) us s'
      ⟨.node (x.retryUntilSuccess d).node, frames⟩ := by
  obtain ⟨vs, s₁, hannounces, hexit, rfl⟩ := h
  exact (leads_sleep hv hannounces x frames).trans (leads_slept hexit _ frames)

/-- With so many failures the effect comes to its next interpretation. -/
theorem Fails.leads_persisting (hx : ∀ s, S.Types s x)
    (h : S.Fails (S.Pauses d) x.node s n us s') (frames : List (Frame D F)) :
    S.Leads s ⟨.node (x.retryUntilSuccess d).node, frames⟩ us s'
      ⟨.node x.node, Frame.persisting x d ++ frames⟩ := by
  have hopening (s : σ) := leads_recovery (S := S) s x (.recover a e (.after d x.node)) frames
  induction h with
  | nil => exact hopening _
  | cons hsettles hpauses _ ih =>
      exact (hopening _).trans ((hsettles _).trans
        ((hpauses.leads (hx _ _ _ _ hsettles) x frames).trans ih))

/-- What always comes again after a step does not end. -/
theorem not_ends_of_recurring {P : σ → Interpretation D F → Prop}
    (hP : ∀ s i, P s i → ∃ us s₁ j vs s₂ k, S.Moves s i us s₁ j ∧ S.Leads s₁ j vs s₂ k ∧ P s₂ k)
    (h : P s i) (exit : Exit (Outcome D F)) : ¬S.Ends s i exit := by
  rintro ⟨us, s', j, hleads, hstep⟩
  -- On the way to an end one would always be on the way to `P`.
  have hmoves (s : σ) (i : Interpretation D F) (h : ∃ vs s₂ k, S.Leads s i vs s₂ k ∧ P s₂ k) :
      ∃ us s₁ j, S.Moves s i us s₁ j ∧ ∃ vs s₂ k, S.Leads s₁ j vs s₂ k ∧ P s₂ k := by
    obtain ⟨vs, s₂, k, hleads, hk⟩ := h
    cases hleads with
    | refl =>
        obtain ⟨us, s₁, j, vs, s₂, k, hmoves, hrest⟩ := hP s i hk
        exact ⟨us, s₁, j, hmoves, vs, s₂, k, hrest⟩
    | step hmoves hrest => exact ⟨_, _, _, hmoves, _, s₂, k, hrest, hk⟩
  have hstart : ∃ vs s₂ k, S.Leads s i vs s₂ k ∧ P s₂ k := ⟨[], s, i, .refl, h⟩
  clear h
  induction hleads with
  | refl =>
      obtain ⟨_, _, _, hmoves', -⟩ := hmoves _ _ hstart
      exact hmoves'.not_over (.finished hstep)
  | step hmoves₁ _ ih =>
      obtain ⟨_, _, _, hmoves', hrest⟩ := hmoves _ _ hstart
      obtain ⟨-, rfl, rfl⟩ := hmoves₁.unique hmoves'
      exact ih hstep hrest

/-- An effect that fails every time is retried without end. -/
theorem KeepsFailing.not_ends (hx : ∀ s, S.Types s x)
    (h : S.KeepsFailing (S.Pauses d) s x.node) (frames : List (Frame D F))
    (exit : Exit (Outcome D F)) :
    ¬S.Ends s ⟨.node (x.retryUntilSuccess d).node, frames⟩ exit := by
  refine not_ends_of_recurring (P := fun s i => S.KeepsFailing (S.Pauses d) s x.node ∧
    i = ⟨.node (x.retryUntilSuccess d).node, frames⟩) ?_ ⟨h, rfl⟩ exit
  rintro s _ ⟨hs, rfl⟩
  obtain ⟨us, v, s₁, vs, s₂, hsettles, hpauses, hagain⟩ :=
    hs.exists_next fun _ _ _ _ _ h h' => (h.unique h').2
  have hrest := ((leads_attempted s x.node ⟨a, e⟩ _).trans (hsettles _)).trans
    (hpauses.leads (hx _ _ _ _ hsettles) x frames)
  exact ⟨[], s, _, _, s₂, _, .next rfl, hrest, hagain, rfl⟩

end Persisting

section

variable {H : Host} {S : Setting H.Data H.Fn U σ} {s s' : σ} {us : List U} {n d : Nat}
  {x : Effect H.Data H.Fn a e}

theorem Fails.becomes_persisting (hx : ∀ s, S.Types s x)
    (h : S.Fails (S.Pauses d) x.node s n us s') (hprevails : S.Prevails s' x.node) :
    S.Becomes s (x.retryUntilSuccess d).node us s' x.node := by
  refine .of_above (fun frames => h.leads_persisting hx frames) fun vs o s'' hsettles frames => ?_
  cases o with
  | ok v => exact leads_kept (Bind.retries_after a e d x.node) (hx _ _ _ _ hsettles) s'' frames
  | error v => exact absurd hsettles (hprevails _ _ _)

end

end Setting

namespace Run

variable {H : Host} {S : Setting H.Data H.Fn U σ} {r : Run H} {s s' : σ} {us : List U} {b n d : Nat}
  {p : Place} {x : Effect H.Data H.Fn a e} {i : Interpretation H.Data H.Fn}
  {frames : List (Frame H.Data H.Fn)} {finish : Finish H.Fn}

/-- In a run that lets effects sleep, the exit that a setting has for a sleep is a success. -/
theorem LetsSleep.exists_exit_of_leads (h : r.LetsSleep d) (hsuits : r.Suits S s b p)
    (hp : (r.world b).pendingAt p = some (.driving i, finish))
    (hleads : S.Leads s i us s' ⟨.node (.async (.sleep d) sleeperId), frames⟩) :
    ∃ s'', S.exit s' (.sleep d) sleeperId = some (.settled (.ok .unit), s'') := by
  obtain ⟨n, hstage, hafter, -⟩ := (hsuits.course hp).exists_comes hleads
  obtain ⟨m, regs, hhistory⟩ := h.exists_exit hp hstage rfl fun m id frames hs =>
    stage_ne_none_of_submitting hp hs fun t l hq => hsuits.submits m t l id frames hq hs
  rw [r.course_history hp] at hafter
  have hpermits := hsuits.permits m
  rw [hhistory, Setting.permitsAll_append, hafter] at hpermits
  obtain ⟨-, -, hrest⟩ := hpermits
  rw [Setting.permitsAll_append] at hrest
  obtain ⟨waiting, hwaits, hregistered, -⟩ :=
    Setting.of_registrations (S := S) (s := s') (.inl rfl) hrest.1
  have hexit := hrest.2
  change S.PermitsAll (S.afterAll ⟨s', .registration (.sleep d) sleeperId⟩ _) _ at hexit
  rw [hregistered] at hexit
  rcases hwaits with rfl | rfl
  · exact hexit.1.elim
  · exact hexit.1

/-- How an effect that is retried until it succeeds fares in a run. -/
structure Persists (r : Run H) (S : Setting H.Data H.Fn U σ) (s : σ) (b : Nat) (p : Place)
    (x : Effect H.Data H.Fn a e) (d : Nat) : Prop where
  /-- With so many failures the effect comes to its next interpretation. -/
  tries {n : Nat} {us : List U} {s' : σ} : S.Fails (S.Pauses d) x.node s n us s' →
    ∃ m, r.stage b p m = some (.driving ⟨.node x.node, Frame.persisting x d⟩) ∧
      r.shown S s b p m = us.map .call
  /-- It ends as the first interpretation does that does not fail, or never. -/
  ends :
    (∃ n us s', S.Fails (S.Pauses d) x.node s n us s' ∧ S.Prevails s' x.node ∧
        ∀ exit, (∃ m, r.EndsAt b p m exit) ↔ S.Ends s' (.start x.node) exit) ∨
      S.KeepsFailing (S.Pauses d) s x.node ∧ ∀ m exit, ¬r.EndsAt b p m exit
  prevails {m : Nat} {v : Value H.Data H.Fn} : ¬r.EndsAt b p m (.settled (.error v))
  /-- Every sleep ends with a success when its time has come. -/
  sleeps {k : Nat} {t : ThreadId} {id : HandoffId} : r.ComesTo k t (.sleep d) sleeperId id →
    ∃ m t', r.Accepts m t' id (.settled (.ok .unit)) ∧
      (r.world k).heap.clock + d ≤ (r.world m).heap.clock

section Persists

variable (hx : ∀ s, S.Types s x)
  (hannounces : ∀ s, ∃ us s', S.Announces (.retrying (Duration.text d)) s us s')
  (hsleeps : r.LetsSleep d) (hsuits : r.Suits S s b p)
  (hp : (r.world b).pendingAt p = some (.driving (.start (x.retryUntilSuccess d).node), finish))

include hx hannounces hsleeps hsuits hp

/-- In a run every failure is followed by a pause. -/
theorem Suits.exists_failure (hfails : S.Fails (S.Pauses d) x.node s n us s')
    (hnot : ¬S.Prevails s' x.node) :
    ∃ vs s'', S.Fails (S.Pauses d) x.node s (n + 1) vs s'' := by
  simp only [Setting.Prevails, Classical.not_forall, Classical.not_not] at hnot
  obtain ⟨ws, v, s₁, hsettles⟩ := hnot
  obtain ⟨vs, s₂, hannounce⟩ := hannounces s₁
  have hleads := (hfails.leads_persisting hx []).trans ((hsettles _).trans
    (Setting.leads_sleep (hx _ _ _ _ hsettles) hannounce x []))
  obtain ⟨s₃, hexit⟩ := hsleeps.exists_exit_of_leads hsuits hp hleads
  exact hfails.succ hsettles ⟨vs, s₂, hannounce, hexit, rfl⟩

theorem Suits.prevails_or_endless :
    (∃ n us s', S.Fails (S.Pauses d) x.node s n us s' ∧ S.Prevails s' x.node ∧
        ∀ exit, (∃ m, r.EndsAt b p m exit) ↔ S.Ends s' (.start x.node) exit) ∨
      S.KeepsFailing (S.Pauses d) s x.node ∧ ∀ m exit, ¬r.EndsAt b p m exit := by
  rcases Setting.prevails_or_keepsFailing fun _ _ _ hfails =>
    exists_failure hx hannounces hsleeps hsuits hp hfails with
    ⟨n, us, s', hfails, hprevails⟩ | hkeeps
  · refine .inl ⟨n, us, s', hfails, hprevails, fun exit => ?_⟩
    have hbecomes := hfails.becomes_persisting hx hprevails
    refine Iff.trans ?_ (Setting.ends_iff_of_agree (hbecomes.equates.seen []))
    exact ⟨fun ⟨m, hends⟩ => hsuits.ends hp hends, hsuits.exists_endsAt hp⟩
  · exact .inr ⟨hkeeps, fun m exit hends => hkeeps.not_ends hx [] exit (hsuits.ends hp hends)⟩

theorem Suits.persists : r.Persists S s b p x d where
  tries hfails := by
    have hleads := hfails.leads_persisting hx []
    rw [List.append_nil] at hleads
    exact hsuits.exists_stage hp hleads
  ends := prevails_or_endless hx hannounces hsleeps hsuits hp
  prevails {m v} hends := by
    rcases prevails_or_endless hx hannounces hsleeps hsuits hp with
      ⟨_, _, s', -, hprevails, hiff⟩ | ⟨-, hnever⟩
    · obtain ⟨_, _, hsettles⟩ := Setting.ends_settled_iff.1 ((hiff _).1 ⟨m, hends⟩)
      exact hprevails _ _ _ hsettles
    · exact hnever _ _ hends
  sleeps hcomes := hsleeps.exists_accepts hcomes

end Persists

end Run

namespace Effect

variable {H : Host} {S : Setting H.Data H.Fn U σ}

/-- An effect that is retried until it succeeds is interpreted until it does not fail for the first
time, with an announcement and a sleep after each failure and none elsewhere; it ends as the last
interpretation does, and does not end if all interpretations fail. In a run that lets effects sleep,
one or the other is the case, whatever the effect does, and so the retried effect never fails. -/
theorem retries_until_success (x : Effect H.Data H.Fn a e) (d : Nat) (hx : ∀ s, S.Types s x)
    (hannounces : ∀ s, ∃ us s', S.Announces (.retrying (Duration.text d)) s us s') (s : σ) :
    (∀ n us s', S.Fails (S.Pauses d) x.node s n us s' → S.Prevails s' x.node →
        S.Becomes s (x.retryUntilSuccess d).node us s' x.node) ∧
      (S.KeepsFailing (S.Pauses d) s x.node →
        ∀ frames exit, ¬S.Ends s ⟨.node (x.retryUntilSuccess d).node, frames⟩ exit) ∧
      ∀ (r : Run H) b p finish, r.LetsSleep d →
        (r.world b).pendingAt p = some (.driving (.start (x.retryUntilSuccess d).node), finish) →
          r.Suits S s b p → r.Persists S s b p x d :=
  ⟨fun _ _ _ hfails hprevails => hfails.becomes_persisting hx hprevails,
    fun hkeeps => hkeeps.not_ends hx,
    fun _ _ _ _ hsleeps hp hsuits => hsuits.persists hx hannounces hsleeps hp⟩

end Effect

namespace Drill

/-- An effect that waits at an async node whose registration is function 2. -/
def awaited : Effect Unit Nat .unit .instant := .asyncOn immediateId ⟨2, ∅⟩

/-- The effect, retried until it succeeds. -/
def pursued : Effect Unit Nat .unit .instant := awaited.retryUntilSuccess 5

/-- An effect that fails every time. -/
def doomed : Effect Unit Nat .unit .instant := .fail (.instant 0)

/-- The first thread has the effect interpreted, and the second one completes the nodes to which it
comes: the first of them with an error, and the one after the sleep with a success. -/
def pursuing : Script
  | 0 => [.ask (.runWith .unit .instant pursued.node (.user .unit .instant ⟨3, ∅⟩))]
  | 1 => [.ask (.complete (.node 0) (.error (.instant 0))), .ask (.complete (.node 2) (.ok .unit))]
  | _ => []

/-- The second thread goes on with the effect up to the sleep, and the third one, which sleeps, from
there to the last node. -/
def pursuit : Run (host pursuing) :=
  .ofList (start pursuing []) (start_starting pursuing []).initial
    ((List.replicate 20 (.thread 0) ++ List.replicate 17 (.thread 1) ++
      List.replicate 2 (.thread 2)) ++ .time 5 ::
        (List.replicate 21 (.thread 2) ++ List.replicate 19 (.thread 1)))

/-- The number of nodes that have got their exits is counted, and the exits of the first `m` of them
are errors. An announcement takes a call of function 0, and a sleep one of function 1. -/
def pursuingSetting (m : Nat) : Setting Unit Nat Nat Nat where
  reply n _ := some (.ok .unit, n)
  calls _ _ := [0]
  exit n register _ :=
    match register with
    | .sleep _ => some (.settled (.ok .unit), n)
    | _ => some (.settled (resultOf m n), n + 1)
  registers _ register _ :=
    match register with
    | .sleep _ => [1]
    | _ => [2]

theorem settles_awaited (m n : Nat) :
    (pursuingSetting m).Settles n awaited.node [2] (resultOf m n) (n + 1) := by
  intro frames
  have hmoves : (pursuingSetting m).Moves n ⟨.node awaited.node, frames⟩
      ((pursuingSetting m).registers n (.user .unit .instant ⟨2, ∅⟩) immediateId) (n + 1)
      (settle (.settled (resultOf m n)) frames) := .suspend rfl rfl
  exact .of_moves hmoves

theorem announces_pursuing (m : Nat) (event : Event) (n : Nat) :
    (pursuingSetting m).Announces event n [0] n := ⟨rfl, _, rfl⟩

theorem pauses_pursuing (m d n : Nat) : (pursuingSetting m).Pauses d n [0, 1] n :=
  ⟨[0], n, announces_pursuing m _ n, rfl, rfl⟩

theorem settles_doomed (m n : Nat) :
    (pursuingSetting m).Settles n doomed.node [] (.error (.instant 0)) n :=
  Setting.leads_fail n _

theorem types_doomed (m n : Nat) : (pursuingSetting m).Types n doomed := by
  intro us o s' hsettles
  obtain ⟨-, rfl, -⟩ := hsettles.unique (settles_doomed m n)
  rfl

theorem keepsFailing_doomed (m d n : Nat) :
    (pursuingSetting m).KeepsFailing ((pursuingSetting m).Pauses d) n doomed.node := by
  intro k
  induction k with
  | zero => exact ⟨_, _, .nil⟩
  | succ k ih =>
      obtain ⟨_, _, hfails⟩ := ih
      exact hfails.succ (settles_doomed m _) (pauses_pursuing m d _)

theorem pursuit_fair : pursuit.Fair := Run.fair_ofList (by decide +kernel)

theorem pendingAt_pursued : (pursuit.world 2).pendingAt (.thread 0 2) =
    some (.driving (.start pursued.node),
      .callback .unit .instant (.user .unit .instant ⟨(3 : Nat), ∅⟩)) :=
  rfl

/-- Whether a task comes to the second node if it comes to one at which it sleeps, and does not name
the second node if it is a request. -/
def leavesAlone : Nat → Task (host pursuing) → Bool
  | n, .drive i _ _ =>
      match i.step with
      | .suspend (.sleep _) _ _ => (pursuit.world n).heap.handoffs.size = 1
      | _ => true
  | _, .request q =>
      (q.refs []).all fun
        | .handoff id => id ≠ 1
        | _ => true
  | _, _ => true

theorem leavesAlone_of_does {n : Nat} {t : ThreadId} {task : Task (host pursuing)}
    (hdoes : pursuit.Does n t task) : leavesAlone n task :=
  Run.check_of_does (by decide +kernel) hdoes

theorem pursuit_letsSleep : pursuit.LetsSleep 5 where
  starting := start_starting _ _
  fair := pursuit_fair
  passesTime := Run.passesTime_ofList (by decide +kernel)
  sleeper := rfl
  hides {n t id} hcomes n' t' q hdoes href := by
    obtain ⟨i, last, finish, frames, hdrives, hstep, rfl⟩ := hcomes
    have hsecond : (pursuit.world n).heap.handoffs.size = 1 := by
      simpa [leavesAlone, hstep] using leavesAlone_of_does hdrives
    rw [hsecond] at href
    have hnone := List.all_eq_true.1 (leavesAlone_of_does hdoes) _ href
    contradiction

/-- What an interpretation of the effect does before it waits for its exit. -/
def pursued.opening : List (Deed Unit Nat) :=
  [.push (.bind (.recover .unit .instant (.after 5 awaited.node))),
    .push (.reify ⟨.unit, .instant⟩),
    .submit (.user .unit .instant ⟨2, ∅⟩) immediateId,
    .call (.register (.user .unit .instant ⟨2, ∅⟩))]

/-- What is done with its outcome. -/
def pursued.settled (o : Outcome Unit Nat) : List (Deed Unit Nat) :=
  [.exit (.settled o), .pop (.reify ⟨.unit, .instant⟩), .call (.reify ⟨.unit, .instant⟩ o),
    .pop (.bind (.recover .unit .instant (.after 5 awaited.node))),
    .call (.bind (.recover .unit .instant (.after 5 awaited.node)) (.ofOutcome .unit .instant o))]

/-- What is done between two interpretations of it. -/
def pursued.pause : List (Deed Unit Nat) :=
  [.ask (.emit (.retrying (Duration.text 5))), .reply (.ok .unit),
    .push (.bind (.next .unit pursued.node)), .submit (.sleep 5) sleeperId,
    .call (.register (.sleep 5)), .exit (.settled (.ok .unit)),
    .pop (.bind (.next .unit pursued.node)), .call (.bind (.next .unit pursued.node) .unit)]

-- The name of the thread that sleeps is made of bytes, which are listed by well-founded recursion.
unseal ByteArray.toList.loop in
set_option maxRecDepth 4000 in
theorem history_pursued : pursuit.history 2 (.thread 0 2) 68 =
    pursued.opening ++ pursued.settled (.error (.instant 0)) ++ pursued.pause ++
      pursued.opening ++ pursued.settled (.ok .unit) ++ [.finish (.settled (.ok .unit))] := by rfl

theorem suits_pursued : pursuit.Suits (pursuingSetting 1) 0 2 (.thread 0 2) := by
  have hcheck : ∀ n < 68, goesOn pursuit 2 (.thread 0 2) [12, 26, 30, 55] n := by decide +kernel
  have hnode : ∀ n < 68, ((pursuit.stage 2 (.thread 0 2) n).bind Stage.node?).all (· < 3) := by
    decide +kernel
  have hexits : ∀ id < 3, (pursuit.world 80).At id Phase.HasExit := by decide +kernel
  refine .of_over pendingAt_pursued pursuit_fair (n := 68) (by decide +kernel) ?_ ?_
    (fun n hn stage hs => ?_) fun n hn t l id frames hq hs =>
      not_panics_of_check (hcheck n hn) hq hs
  · rw [history_pursued]
    exact ⟨trivial, trivial, trivial, rfl, ⟨_, rfl⟩, trivial, trivial, trivial, trivial, trivial,
      ⟨_, rfl⟩, trivial, trivial, rfl, ⟨_, rfl⟩, trivial, trivial, trivial, trivial, trivial, rfl,
      ⟨_, rfl⟩, trivial, trivial, trivial, trivial, trivial, trivial⟩
  · rw [history_pursued]
    rfl
  · refine goesOn_of_check (hcheck n hn) hs fun id frames heq => ?_
    subst heq
    have hid := hnode n hn
    rw [hs] at hid
    obtain ⟨m, t, exit, -, haccepts⟩ :=
      Run.exists_accepts_of_hasExit (hexits id (of_decide_eq_true hid))
    exact ⟨m, t, exit, haccepts⟩

set_option maxRecDepth 2000 in
/-- After a failure and a sleep the effect is interpreted again, on the thread that has slept; it
succeeds when it has failed three times; and one that fails every time is retried without end. -/
theorem pursued_retries_until_success :
    (∃ n, pursuit.stage 2 (.thread 0 2) n =
        some (.driving ⟨.node awaited.node, Frame.persisting awaited 5⟩) ∧
      pursuit.shown (pursuingSetting 1) 0 2 (.thread 0 2) n = [.call 2, .call 0, .call 1]) ∧
      (∃ n t, pursuit.Accepts n t 1 (.settled (.ok .unit)) ∧ 5 ≤ (pursuit.world n).heap.clock) ∧
        (∀ n v, ¬pursuit.EndsAt 2 (.thread 0 2) n (.settled (.error v))) ∧
          (pursuingSetting 3).Settles 0 pursued.node [2, 0, 1, 2, 0, 1, 2, 0, 1, 2] (.ok .unit) 4 ∧
            ∀ exit,
              ¬(pursuingSetting 0).Ends 0 (.start (doomed.retryUntilSuccess 5).node) exit := by
  have hretries (m : Nat) := Effect.retries_until_success (H := host pursuing) awaited 5
    (types_of_settles (settles_awaited m)) (fun n => ⟨_, _, announces_pursuing m _ n⟩) 0
  have hdoomed := Effect.retries_until_success (H := host pursuing) doomed 5 (types_doomed 0)
    (fun n => ⟨_, _, announces_pursuing 0 _ n⟩) 0
  have hfails {m k : Nat} (hk : 0 + k ≤ m) :=
    fails_of_settles (settles_awaited m) (pauses_pursuing m 5) hk
  have hpersists := (hretries 1).2.2 pursuit 2 (.thread 0 2) _ pursuit_letsSleep pendingAt_pursued
    suits_pursued
  have hsleeps : pursuit.ComesTo 30 1 (.sleep 5) sleeperId 1 :=
    ⟨_, _, _, _, ⟨rfl, _, _, rfl⟩, rfl, rfl⟩
  obtain ⟨n, t, haccepts, htime⟩ := hpersists.sleeps hsleeps
  refine ⟨hpersists.tries (hfails (k := 1) (by decide)), ⟨n, t, haccepts, ?_⟩,
    fun n v => hpersists.prevails, ?_, hdoomed.2.1 (keepsFailing_doomed 0 5 0) []⟩
  · exact Nat.le_trans (by decide +kernel) htime
  · have hprevails := prevails_of_settles (settles_awaited 3) (Nat.le_refl 3)
    exact ((hretries 3).1 3 _ _ (hfails (by decide)) hprevails).settles (settles_awaited 3 3)

end Drill

end Trampoline
