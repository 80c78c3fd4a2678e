import Trampoline.Interpretation

/-!
What an interpretation shows in a setting. A setting says what functions reply and which exits async
nodes get, if any, and which calls of the user this takes. What is shown are these calls in their
order, the async node at which the interpretation stops, and its exit. Two interpretations are alike
if they show the same.

What is pending below an effect is not looked at before the effect has settled. So an effect settles
above every stack or looks the same above every stack.
-/

namespace Trampoline

variable {D F U σ : Type}

/-- What an interpretation finds around it. What it gets depends on a state, which changes with what
is done. A reply or an exit need not come. -/
structure Setting (D F U σ : Type) where
  /-- The reply to a question, and the state that is left. -/
  reply : σ → Ask D F → Option (Except Payload (Value D F) × σ)
  /-- The calls that a question takes. -/
  calls : σ → Ask D F → List U
  /-- The exit of an async node, and the state that is left. -/
  exit : σ → Register F → SchedulerId → Option (Exit (Outcome D F) × σ)
  /-- The calls that the registration of an async node takes. -/
  registers : σ → Register F → SchedulerId → List U

/-- What is seen of an interpretation. -/
inductive Sight (D F U : Type) where
  | call (u : U)
  /-- It stops at an async node that gets no exit. -/
  | waits (r : Register F) (scheduler : SchedulerId)
  | ends (exit : Exit (Outcome D F))

/-- All that is seen on one side at some time is seen on the other side at some time. -/
def Sight.Agree (f g : Nat → List (Sight D F U)) : Prop :=
  (∀ n, ∃ m, f n <+: g m) ∧ ∀ n, ∃ m, g n <+: f m

namespace Sight.Agree

variable {f g h : Nat → List (Sight D F U)}

theorem refl (f : Nat → List (Sight D F U)) : Agree f f :=
  ⟨fun n => ⟨n, List.prefix_refl _⟩, fun n => ⟨n, List.prefix_refl _⟩⟩

theorem symm (hfg : Agree f g) : Agree g f := ⟨hfg.2, hfg.1⟩

theorem trans (hfg : Agree f g) (hgh : Agree g h) : Agree f h := by
  refine ⟨fun n => ?_, fun n => ?_⟩
  · obtain ⟨m, hm⟩ := hfg.1 n
    obtain ⟨l, hl⟩ := hgh.1 m
    exact ⟨l, hm.trans hl⟩
  · obtain ⟨m, hm⟩ := hgh.2 n
    obtain ⟨l, hl⟩ := hfg.2 m
    exact ⟨l, hm.trans hl⟩

theorem append (first : List (Sight D F U)) (hfg : Agree f g) :
    Agree (fun n => first ++ f n) fun n => first ++ g n := by
  refine ⟨fun n => ?_, fun n => ?_⟩
  · obtain ⟨m, hm⟩ := hfg.1 n
    exact ⟨m, (List.prefix_append_right_inj _).2 hm⟩
  · obtain ⟨m, hm⟩ := hfg.2 n
    exact ⟨m, (List.prefix_append_right_inj _).2 hm⟩

end Sight.Agree

namespace Interpretation

/-- The interpretation above more pending continuations. -/
def onto (i : Interpretation D F) (below : List (Frame D F)) : Interpretation D F :=
  ⟨i.focus, i.frames ++ below⟩

@[simp] theorem onto_node (node : Node D F) (frames below : List (Frame D F)) :
    (⟨.node node, frames⟩ : Interpretation D F).onto below = ⟨.node node, frames ++ below⟩ := rfl

@[simp] theorem onto_settle (exit : Exit (Outcome D F)) (frames below : List (Frame D F)) :
    (settle exit frames).onto below = settle exit (frames ++ below) := rfl

@[simp] theorem onto_continueWith (next : Next D F) (frames below : List (Frame D F)) :
    (continueWith frames next).onto below = continueWith (frames ++ below) next := by
  cases next <;> rfl

@[simp] theorem onto_reply (post : Post D F) (frames below : List (Frame D F))
    (r : Except Payload (Value D F)) :
    (reply post frames r).onto below = reply post (frames ++ below) r := by
  cases r with
  | error payload => rfl
  | ok v =>
      simp only [reply]
      cases post.answer v with
      | error payload => rfl
      | ok next => exact onto_continueWith next frames below

end Interpretation

/-- The same progress above more pending continuations. -/
def Progress.onto (below : List (Frame D F)) : Progress D F → Progress D F
  | .next i => .next (i.onto below)
  | .ask question post frames => .ask question post (frames ++ below)
  | .suspend register scheduler frames => .suspend register scheduler (frames ++ below)
  | .finish exit => .finish exit

namespace Interpretation

theorem follow_onto (plan : Plan D F) (frames below : List (Frame D F)) :
    follow (frames ++ below) plan = (follow frames plan).onto below := by
  cases plan with
  | answer next => exact congrArg Progress.next (onto_continueWith next frames below).symm
  | raise payload => rfl
  | ask question post => rfl

/-- More pending continuations make no difference to a step before the interpretation settles. -/
theorem step_onto {i : Interpretation D F} (h : ∀ o, i ≠ settle (.settled o) [])
    (below : List (Frame D F)) : (i.onto below).step = i.step.onto below := by
  obtain ⟨focus, frames⟩ := i
  cases focus with
  | node node =>
      cases node with
      | thunk t => exact follow_onto t.plan frames below
      | async r scheduler => rfl
      | flatMap source bind => rfl
      | attempt source reify => rfl
  | exit exit =>
      cases exit with
      | panicked payload => rfl
      | settled outcome =>
          cases frames with
          | nil => exact absurd rfl (h outcome)
          | cons frame frames => exact follow_onto (frame.plan outcome) frames below

end Interpretation

namespace Setting

open Interpretation

variable (S : Setting D F U σ)

/-- What is seen of an interpretation in a number of steps. -/
def seen : Nat → σ → Interpretation D F → List (Sight D F U)
  | 0, _, _ => []
  | n + 1, s, i =>
      match i.step with
      | .next j => seen n s j
      | .ask question post frames =>
          (S.calls s question).map .call ++
            match S.reply s question with
            | some (r, s') => seen n s' (.reply post frames r)
            | none => []
      | .suspend r scheduler frames =>
          match S.exit s r scheduler with
          | some (exit, s') =>
              (S.registers s r scheduler).map .call ++ seen n s' (.settle exit frames)
          | none => .waits r scheduler :: (S.registers s r scheduler).map .call
      | .finish exit => [.ends exit]

/-- An interpretation goes on as another one, in another state, after these calls. -/
inductive Moves : σ → Interpretation D F → List U → σ → Interpretation D F → Prop
  | next {s : σ} {i j : Interpretation D F} : i.step = .next j → Moves s i [] s j
  | ask {s s' : σ} {i : Interpretation D F} {question : Ask D F} {post : Post D F}
      {frames : List (Frame D F)} {r : Except Payload (Value D F)} :
      i.step = .ask question post frames → S.reply s question = some (r, s') →
        Moves s i (S.calls s question) s' (.reply post frames r)
  | suspend {s s' : σ} {i : Interpretation D F} {r : Register F} {scheduler : SchedulerId}
      {frames : List (Frame D F)} {exit : Exit (Outcome D F)} :
      i.step = .suspend r scheduler frames → S.exit s r scheduler = some (exit, s') →
        Moves s i (S.registers s r scheduler) s' (.settle exit frames)

/-- An interpretation does not go on. -/
inductive Over : σ → Interpretation D F → Prop
  | unanswered {s : σ} {i : Interpretation D F} {question : Ask D F} {post : Post D F}
      {frames : List (Frame D F)} :
      i.step = .ask question post frames → S.reply s question = none → Over s i
  | stopped {s : σ} {i : Interpretation D F} {r : Register F} {scheduler : SchedulerId}
      {frames : List (Frame D F)} :
      i.step = .suspend r scheduler frames → S.exit s r scheduler = none → Over s i
  | finished {s : σ} {i : Interpretation D F} {exit : Exit (Outcome D F)} :
      i.step = .finish exit → Over s i

/-- After these calls an interpretation has come to another one, in another state. -/
inductive Leads : σ → Interpretation D F → List U → σ → Interpretation D F → Prop
  | refl {s : σ} {i : Interpretation D F} : Leads s i [] s i
  | step {s s₁ s' : σ} {i j k : Interpretation D F} {us vs : List U} :
      S.Moves s i us s₁ j → Leads s₁ j vs s' k → Leads s i (us ++ vs) s' k

/-- The same is seen of two interpretations. -/
def Alike (s : σ) (i : Interpretation D F) (s' : σ) (j : Interpretation D F) : Prop :=
  Sight.Agree (fun n => S.seen n s i) fun n => S.seen n s' j

/-- An effect makes these calls and settles, above whatever stack. -/
def Settles (s : σ) (x : Node D F) (us : List U) (o : Outcome D F) (s' : σ) : Prop :=
  ∀ frames, S.Leads s ⟨.node x, frames⟩ us s' (settle (.settled o) frames)

/-- An effect makes these calls and panics, above whatever stack. -/
def Panics (s : σ) (x : Node D F) (us : List U) (payload : Payload) : Prop :=
  ∀ frames, ∃ s' above,
    S.Leads s ⟨.node x, frames⟩ us s' (settle (.panicked payload) (above ++ frames))

/-- An effect makes these calls and stops at an async node, above whatever stack. -/
def Stops (s : σ) (x : Node D F) (us : List U) (r : Register F) (scheduler : SchedulerId) : Prop :=
  ∀ frames, ∃ s' above, S.exit s' r scheduler = none ∧
    S.Leads s ⟨.node x, frames⟩ us s' ⟨.node (.async r scheduler), above ++ frames⟩

variable {S} {s s₁ s₂ s' : σ} {i j k : Interpretation D F} {us vs : List U}
  {frames : List (Frame D F)}

theorem moves_or_over (S : Setting D F U σ) (s : σ) (i : Interpretation D F) :
    (∃ us s' j, S.Moves s i us s' j) ∨ S.Over s i := by
  cases h : i.step with
  | next j => exact .inl ⟨_, _, _, .next h⟩
  | ask question post frames =>
      cases hreply : S.reply s question with
      | none => exact .inr (.unanswered h hreply)
      | some reply => exact .inl ⟨_, _, _, .ask h hreply⟩
  | suspend r scheduler frames =>
      cases hexit : S.exit s r scheduler with
      | none => exact .inr (.stopped h hexit)
      | some exit => exact .inl ⟨_, _, _, .suspend h hexit⟩
  | finish exit => exact .inr (.finished h)

namespace Moves

theorem seen (h : S.Moves s i us s' j) (n : Nat) :
    S.seen (n + 1) s i = us.map .call ++ S.seen n s' j := by
  cases h with
  | next hstep =>
      simp only [Setting.seen, hstep]
      rfl
  | ask hstep hreply => simp only [Setting.seen, hstep, hreply]
  | suspend hstep hexit => simp only [Setting.seen, hstep, hexit]

theorem not_over (h : S.Moves s i us s' j) : ¬S.Over s i := by
  intro hover
  cases h with
  | next hstep => cases hover <;> simp_all
  | ask hstep hreply => cases hover <;> simp_all
  | suspend hstep hexit => cases hover <;> simp_all

theorem unique (h : S.Moves s i us s₁ j) (h' : S.Moves s i vs s₂ k) :
    us = vs ∧ s₁ = s₂ ∧ j = k := by
  cases h with
  | next hstep => cases h' <;> simp_all
  | ask hstep hreply => cases h' <;> simp_all
  | suspend hstep hexit => cases h' <;> simp_all

theorem onto (h : S.Moves s i us s' j) (below : List (Frame D F)) :
    S.Moves s (i.onto below) us s' (j.onto below) := by
  have honto : (i.onto below).step = i.step.onto below := by
    refine step_onto (fun o heq => h.not_over ?_) below
    exact .finished (heq ▸ step_settled_nil o)
  cases h with
  | next hstep =>
      rw [hstep] at honto
      exact .next honto
  | ask hstep hreply =>
      rw [hstep] at honto
      rw [onto_reply]
      exact .ask honto hreply
  | suspend hstep hexit =>
      rw [hstep] at honto
      exact .suspend honto hexit

end Moves

namespace Over

theorem seen (h : S.Over s i) (n m : Nat) : S.seen (n + 1) s i = S.seen (m + 1) s i := by
  cases h with
  | unanswered hstep hreply => simp only [Setting.seen, hstep, hreply]
  | stopped hstep hexit => simp only [Setting.seen, hstep, hexit]
  | finished hstep => simp only [Setting.seen, hstep]

/-- Above more continuations an interpretation that has not settled does not go on either, and looks
the same. -/
theorem onto (h : S.Over s i) (hi : ∀ o, i ≠ settle (.settled o) []) (below : List (Frame D F)) :
    S.Over s (i.onto below) ∧ ∀ n, S.seen n s (i.onto below) = S.seen n s i := by
  have honto := step_onto hi below
  cases h with
  | unanswered hstep hreply =>
      rw [hstep] at honto
      refine ⟨.unanswered honto hreply, fun n => ?_⟩
      cases n with
      | zero => rfl
      | succ n => simp only [Setting.seen, hstep, honto, Progress.onto, hreply]
  | stopped hstep hexit =>
      rw [hstep] at honto
      refine ⟨.stopped honto hexit, fun n => ?_⟩
      cases n with
      | zero => rfl
      | succ n => simp only [Setting.seen, hstep, honto, Progress.onto, hexit]
  | finished hstep =>
      rw [hstep] at honto
      refine ⟨.finished honto, fun n => ?_⟩
      cases n with
      | zero => rfl
      | succ n => simp only [Setting.seen, hstep, honto, Progress.onto]

end Over

theorem seen_prefix {n m : Nat} (hnm : n ≤ m) (s : σ) (i : Interpretation D F) :
    S.seen n s i <+: S.seen m s i := by
  induction n generalizing m s i with
  | zero => exact List.nil_prefix
  | succ n ih =>
      obtain ⟨m, rfl⟩ : ∃ m', m = m' + 1 := ⟨m - 1, by omega⟩
      rcases S.moves_or_over s i with ⟨us, s', j, hmoves⟩ | hover
      · rw [hmoves.seen, hmoves.seen]
        exact (List.prefix_append_right_inj _).2 (ih (Nat.le_of_succ_le_succ hnm) s' j)
      · exact hover.seen n m ▸ List.prefix_refl _

namespace Leads

theorem trans (h : S.Leads s i us s₁ j) (h' : S.Leads s₁ j vs s' k) :
    S.Leads s i (us ++ vs) s' k := by
  induction h with
  | refl => exact h'
  | step hmoves _ ih =>
      rw [List.append_assoc]
      exact .step hmoves (ih h')

theorem of_moves (h : S.Moves s i us s' j) : S.Leads s i us s' j := by
  have hone := Leads.step h .refl
  rwa [List.append_nil] at hone

theorem of_next (h : i.step = .next j) (h' : S.Leads s j us s' k) : S.Leads s i us s' k :=
  .step (.next h) h'

/-- What is seen later on is seen after the calls. -/
theorem exists_seen (h : S.Leads s i us s' j) :
    ∃ k, ∀ n, S.seen (k + n) s i = us.map .call ++ S.seen n s' j := by
  induction h with
  | refl => exact ⟨0, fun n => by rw [Nat.zero_add]; rfl⟩
  | step hmoves _ ih =>
      obtain ⟨k, hk⟩ := ih
      refine ⟨k + 1, fun n => ?_⟩
      rw [Nat.succ_add, hmoves.seen, hk, List.map_append, List.append_assoc]

/-- An interpretation above more continuations comes to the same above them. -/
theorem onto (h : S.Leads s i us s' j) (below : List (Frame D F)) :
    S.Leads s (i.onto below) us s' (j.onto below) := by
  induction h with
  | refl => exact .refl
  | step hmoves _ ih => exact .step (hmoves.onto below) ih

/-- What an interpretation comes to above more continuations, it comes to before it has settled or
afterwards. -/
theorem of_onto {below : List (Frame D F)} (h : S.Leads s (i.onto below) us s' k) :
    (∃ j, k = j.onto below ∧ S.Leads s i us s' j) ∨
      ∃ vs ws s₁ o, us = vs ++ ws ∧ S.Leads s i vs s₁ (settle (.settled o) []) ∧
        S.Leads s₁ (settle (.settled o) below) ws s' k := by
  generalize hi : i.onto below = above at h
  induction h generalizing i with
  | refl => exact .inl ⟨i, hi.symm, .refl⟩
  | @step s s₁ s' above j k us vs hmoves hrest ih =>
      subst hi
      by_cases hsettled : ∃ o, i = settle (.settled o) []
      · obtain ⟨o, rfl⟩ := hsettled
        exact .inr ⟨[], us ++ vs, s, o, rfl, .refl, .step hmoves hrest⟩
      · rcases S.moves_or_over s i with ⟨us', s₂, j', hmoves'⟩ | hover
        · obtain ⟨rfl, rfl, rfl⟩ := (hmoves'.onto below).unique hmoves
          rcases ih rfl with ⟨j, rfl, hj⟩ | ⟨vs, ws, s₂, o, rfl, hfirst, hthen⟩
          · exact .inl ⟨j, rfl, .step hmoves' hj⟩
          · exact .inr ⟨us' ++ vs, ws, s₂, o, (List.append_assoc ..).symm, .step hmoves' hfirst,
              hthen⟩
        · exact absurd (hover.onto (fun o heq => hsettled ⟨o, heq⟩) below).1 hmoves.not_over

/-- An interpretation that comes to another one and to an end comes to the end from there. -/
theorem rest (h : S.Leads s i us s₁ j) (h' : S.Leads s i vs s₂ k) (hover : S.Over s₂ k) :
    ∃ ws, vs = us ++ ws ∧ S.Leads s₁ j ws s₂ k := by
  induction h generalizing vs with
  | refl => exact ⟨vs, rfl, h'⟩
  | @step s s₁ s' i j k' us us' hmoves _ ih =>
      cases h' with
      | refl => exact absurd hover hmoves.not_over
      | step hmoves' hrest =>
          obtain ⟨rfl, rfl, rfl⟩ := hmoves.unique hmoves'
          obtain ⟨ws, rfl, hws⟩ := ih hrest
          exact ⟨ws, (List.append_assoc us us' ws).symm, hws⟩

/-- An interpretation comes to one end. -/
theorem unique (h : S.Leads s i us s₁ j) (h' : S.Leads s i vs s₂ k) (hover : S.Over s₁ j)
    (hover' : S.Over s₂ k) : us = vs ∧ s₁ = s₂ ∧ j = k := by
  obtain ⟨ws, rfl, hrest⟩ := h.rest h' hover'
  cases hrest with
  | refl => exact ⟨(List.append_nil us).symm, rfl, rfl⟩
  | step hmoves => exact absurd hover hmoves.not_over

end Leads

/-- An interpretation that never settles looks the same above more continuations. -/
theorem seen_onto (h : ∀ us s' o, ¬S.Leads s i us s' (settle (.settled o) []))
    (below : List (Frame D F)) (n : Nat) : S.seen n s (i.onto below) = S.seen n s i := by
  induction n generalizing s i with
  | zero => rfl
  | succ n ih =>
      rcases S.moves_or_over s i with ⟨us, s', j, hmoves⟩ | hover
      · rw [hmoves.seen, (hmoves.onto below).seen]
        rw [ih fun vs s'' o hleads => h (us ++ vs) s'' o (.step hmoves hleads)]
      · exact (hover.onto (fun o heq => h [] s o (heq ▸ .refl)) below).2 (n + 1)

theorem settles_iff {x : Node D F} {o : Outcome D F} :
    S.Settles s x us o s' ↔ S.Leads s (start x) us s' (settle (.settled o) []) :=
  ⟨fun h => h [], fun h frames => h.onto frames⟩

theorem panics_iff {x : Node D F} {payload : Payload} :
    S.Panics s x us payload ↔
      ∃ s' above, S.Leads s (start x) us s' (settle (.panicked payload) above) := by
  refine ⟨fun h => ?_, fun ⟨s', above, h⟩ frames => ⟨s', above, h.onto frames⟩⟩
  obtain ⟨s', above, hleads⟩ := h []
  exact ⟨s', above ++ [], hleads⟩

theorem stops_iff {x : Node D F} {r : Register F} {scheduler : SchedulerId} :
    S.Stops s x us r scheduler ↔ ∃ s' above, S.exit s' r scheduler = none ∧
      S.Leads s (start x) us s' ⟨.node (.async r scheduler), above⟩ := by
  refine ⟨fun h => ?_, fun ⟨s', above, hexit, h⟩ frames => ⟨s', above, hexit, h.onto frames⟩⟩
  obtain ⟨s', above, hexit, hleads⟩ := h []
  exact ⟨s', above ++ [], hexit, hleads⟩

/-- An effect settles, or looks the same above every stack. -/
theorem settles_or_seen (S : Setting D F U σ) (s : σ) (x : Node D F) :
    (∃ us o s', S.Settles s x us o s') ∨
      ∀ n frames, S.seen n s ⟨.node x, frames⟩ = S.seen n s (start x) := by
  by_cases h : ∃ us o s', S.Settles s x us o s'
  · exact .inl h
  · refine .inr fun n frames => ?_
    have hnever (us : List U) (s' : σ) (o : Outcome D F) :
        ¬S.Leads s (start x) us s' (settle (.settled o) []) := fun hleads =>
      h ⟨us, o, s', settles_iff.2 hleads⟩
    exact seen_onto hnever frames n

theorem Settles.unique {x : Node D F} {o o' : Outcome D F} (h : S.Settles s x us o s₁)
    (h' : S.Settles s x vs o' s₂) : us = vs ∧ o = o' ∧ s₁ = s₂ := by
  obtain ⟨hus, hs, heq⟩ := (h []).unique (h' []) (.finished rfl) (.finished rfl)
  cases heq
  exact ⟨hus, rfl, hs⟩

/-- What is seen of an interpretation are the calls on the way to another one, and what is seen of
that one. -/
theorem Leads.agree (h : S.Leads s i us s' j) :
    Sight.Agree (fun n => S.seen n s i) fun n => us.map .call ++ S.seen n s' j := by
  obtain ⟨k, hk⟩ := h.exists_seen
  refine ⟨fun n => ⟨n, ?_⟩, fun n => ⟨k + n, [], ?_⟩⟩
  · have hle := seen_prefix (S := S) (Nat.le_add_left n k) s i
    rwa [hk] at hle
  · simp [hk]

namespace Alike

theorem refl (s : σ) (i : Interpretation D F) : S.Alike s i s i := Sight.Agree.refl _

theorem of_seen (h : ∀ n, S.seen n s i = S.seen n s' j) : S.Alike s i s' j := by
  rw [Alike, funext h]
  exact .refl _

/-- Interpretations that come to alike ones with the same calls are alike. -/
theorem of_leads {i' j' : Interpretation D F} (hi : S.Leads s i us s₁ i')
    (hj : S.Leads s' j us s₂ j') (h : S.Alike s₁ i' s₂ j') : S.Alike s i s' j :=
  (hi.agree.trans (h.append _)).trans hj.agree.symm

/-- Two stacks below an effect make no difference if they make none once it has settled. -/
theorem of_settled {x : Node D F} {frames frames' : List (Frame D F)}
    (h : ∀ us o s', S.Settles s x us o s' →
      S.Alike s' (settle (.settled o) frames) s' (settle (.settled o) frames')) :
    S.Alike s ⟨.node x, frames⟩ s ⟨.node x, frames'⟩ := by
  rcases S.settles_or_seen s x with ⟨us, o, s', hsettles⟩ | hsame
  · exact .of_leads (hsettles frames) (hsettles frames') (h us o s' hsettles)
  · exact .of_seen fun n => (hsame n frames).trans (hsame n frames').symm

end Alike

/-- All that is seen of an interpretation that gets no reply are the calls that its question
takes. -/
theorem agree_of_unanswered {question : Ask D F} {post : Post D F}
    (h : i.step = .ask question post frames) (hreply : S.reply s question = none) :
    Sight.Agree (fun n => S.seen n s i) fun _ => (S.calls s question).map .call := by
  refine ⟨fun n => ⟨0, ?_⟩, fun _ => ⟨1, ?_⟩⟩
  · cases n with
    | zero => exact List.nil_prefix
    | succ n => simp only [seen, h, hreply, List.append_nil, List.prefix_refl]
  · simp only [seen, h, hreply, List.append_nil, List.prefix_refl]

end Setting

end Trampoline
