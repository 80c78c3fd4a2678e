import Mathlib.Algebra.Group.Nat.Defs
import Trampoline.Effect.Retry
import Trampoline.Proofs.Recovering

/-!
Retries. A retry is a recovery by the effect itself, so a retried effect is interpreted again and
again, with an announcement in between, and each interpretation starts from the state that the ones
before have left. What has been tried is in the state, and what is still to be tried is in the
pending continuations.
-/

namespace Trampoline

variable {D F U σ : Type} {a e : Ty}

open Interpretation

/-- A continuation that keeps a success, and announces an error and goes on with a node. -/
structure Bind.Retries (k : Bind D F) (value error : Ty) (event : Event) (again : Node D F) :
    Prop where
  keeps (v : Value D F) : k.plan (.ok value error v) = .settled (.ok v)
  goesOn (v : Value D F) : k.plan (.err value error v) = .ask (.emit event) (.fixed (.run again))

theorem Bind.retries_once (value error : Ty) (again : Node D F) :
    (Bind.recover value error (.once again)).Retries value error .retryingOnce again where
  keeps v := by simp [plan, Value.expect, Value.ty]
  goesOn v := by simp [plan, Value.expect, Value.ty, Recovery.plan]

theorem Bind.retries_after (value error : Ty) (d : Nat) (again : Node D F) :
    (Bind.recover value error (.after d again)).Retries value error (.retrying (Duration.text d))
      (.afterSleep d (.retryAfter value error d again)) where
  keeps v := by simp [plan, Value.expect, Value.ty]
  goesOn v := by simp [plan, Value.expect, Value.ty, Recovery.plan]

namespace Setting

section

variable (S : Setting D F U σ)

/-- An event is announced. -/
def Announces (event : Event) (s : σ) (us : List U) (s' : σ) : Prop :=
  us = S.calls s (.emit event) ∧ ∃ v, S.reply s (.emit event) = some (.ok v, s')

/-- Whether an effect does not fail. -/
def Prevails (s : σ) (x : Node D F) : Prop :=
  ∀ us v s', ¬S.Settles s x us (.error v) s'

/-- An effect fails a number of times, one after another, with a pause after each. -/
inductive Fails (pauses : σ → List U → σ → Prop) (x : Node D F) :
    σ → Nat → List U → σ → Prop where
  | nil {s : σ} : Fails pauses x s 0 [] s
  | cons {s s₁ s₂ s' : σ} {n : Nat} {us vs ws : List U} {v : Value D F} :
      S.Settles s x us (.error v) s₁ → pauses s₁ vs s₂ → Fails pauses x s₂ n ws s' →
        Fails pauses x s (n + 1) (us ++ (vs ++ ws)) s'

end

variable {S : Setting D F U σ} {s s₁ s' : σ} {us vs : List U} {n m : Nat} {v : Value D F}
  {x y again : Node D F} {k : Bind D F} {event : Event} {pauses : σ → List U → σ → Prop}
  {above frames : List (Frame D F)}

theorem leads_kept (hk : k.Retries a e event again) (hv : v.ty = a) (s : σ)
    (frames : List (Frame D F)) :
    S.Leads s (settle (.settled (.ok v)) (.reify ⟨a, e⟩ :: .bind k :: frames)) [] s
      (settle (.settled (.ok v)) frames) := by
  have htags : Outcome.HasTags a e (.ok v : Outcome D F) := hv
  have hplan : (Frame.bind k).plan (.ok (.ok a e v)) = .settled (.ok v) := hk.keeps v
  exact (leads_reify htags _).trans (leads_answer hplan frames)

/-- After an error the announcement comes, and then the node. -/
theorem leads_again (hk : k.Retries a e event again) (hv : v.ty = e)
    (hevent : S.Announces event s us s') (frames : List (Frame D F)) :
    S.Leads s (settle (.settled (.error v)) (.reify ⟨a, e⟩ :: .bind k :: frames)) us s'
      ⟨.node again, frames⟩ := by
  obtain ⟨rfl, w, hreply⟩ := hevent
  have htags : Outcome.HasTags a e (.error v : Outcome D F) := hv
  have hplan : (Frame.bind k).plan (.ok (.err a e v)) =
      .ask (.emit event) (.fixed (.run again)) := hk.goesOn v
  exact (leads_reify htags _).trans (leads_ask hplan hreply frames)

namespace Fails

/-- The failures that come first, and those that come then. -/
theorem split (h : S.Fails pauses x s (n + m) us s') :
    ∃ vs ws s₁, us = vs ++ ws ∧ S.Fails pauses x s n vs s₁ ∧ S.Fails pauses x s₁ m ws s' := by
  induction n generalizing s us with
  | zero =>
      rw [Nat.zero_add] at h
      exact ⟨[], us, s, rfl, .nil, h⟩
  | succ n ih =>
      rw [Nat.succ_add] at h
      cases h with
      | cons hsettles hpauses hrest =>
          obtain ⟨vs, ws, s₁, rfl, hfirst, hthen⟩ := ih hrest
          exact ⟨_, ws, s₁, by simp, .cons hsettles hpauses hfirst, hthen⟩

/-- There are so many failures, or there is a time when the effect does not fail. -/
theorem exists_or_prevails (hpauses : ∀ s, ∃ us s', pauses s us s') (x : Node D F) (s : σ)
    (n : Nat) :
    ∃ m us s', m ≤ n ∧ S.Fails pauses x s m us s' ∧ (S.Prevails s' x ∨ m = n) := by
  induction n generalizing s with
  | zero => exact ⟨0, [], s, Nat.le_refl 0, .nil, .inr rfl⟩
  | succ n ih =>
      by_cases h : S.Prevails s x
      · exact ⟨0, [], s, Nat.zero_le _, .nil, .inl h⟩
      · simp only [Prevails, Classical.not_forall, Classical.not_not] at h
        obtain ⟨us, v, s₁, hsettles⟩ := h
        obtain ⟨vs, s₂, hpause⟩ := hpauses s₁
        obtain ⟨m, ws, s', hm, hfails, hlast⟩ := ih s₂
        exact ⟨m + 1, _, s', Nat.succ_le_succ hm, .cons hsettles hpause hfails,
          hlast.imp_right (congrArg (· + 1))⟩

end Fails

section

variable {H : Host} {S : Setting H.Data H.Fn U σ} {s s' : σ} {us : List U}
  {x y : Node H.Data H.Fn} {above : List (Frame H.Data H.Fn)}

/-- From a state on an effect does, after these calls, what another one does from another state on,
and comes to the same end. -/
structure Becomes (S : Setting H.Data H.Fn U σ) (s : σ) (x : Node H.Data H.Fn) (us : List U)
    (s' : σ) (y : Node H.Data H.Fn) : Prop where
  equates : S.Equates s x us s' y
  settles {vs : List U} {o : Outcome H.Data H.Fn} {s'' : σ} :
    S.Settles s' y vs o s'' → S.Settles s x (us ++ vs) o s''
  panics {vs : List U} {payload : Payload} :
    S.Panics s' y vs payload → S.Panics s x (us ++ vs) payload
  stops {vs : List U} {reg : Register H.Fn} {scheduler : SchedulerId} :
    S.Stops s' y vs reg scheduler → S.Stops s x (us ++ vs) reg scheduler

/-- An effect comes to another one above continuations that leave the outcome as it is. -/
theorem Becomes.of_above
    (h : ∀ frames, S.Leads s ⟨.node x, frames⟩ us s' ⟨.node y, above ++ frames⟩)
    (hpasses : ∀ vs o s'', S.Settles s' y vs o s'' → ∀ frames,
      S.Leads s'' (settle (.settled o) (above ++ frames)) [] s'' (settle (.settled o) frames)) :
    S.Becomes s x us s' y where
  equates := .of_seen fun frames => (h frames).agree.trans (Sight.Agree.append _
    (Alike.of_settled fun vs o s'' hy => .of_leads (hpasses vs o s'' hy frames) .refl (.refl _ _)))
  settles hy frames := by
    have hleads := (hy (above ++ frames)).trans (hpasses _ _ _ hy frames)
    rw [List.append_nil] at hleads
    exact (h frames).trans hleads
  panics hy frames := by
    obtain ⟨s'', higher, hleads⟩ := hy (above ++ frames)
    rw [← List.append_assoc] at hleads
    exact ⟨s'', _, (h frames).trans hleads⟩
  stops hy frames := by
    obtain ⟨s'', higher, hexit, hleads⟩ := hy (above ++ frames)
    rw [← List.append_assoc] at hleads
    exact ⟨s'', _, hexit, (h frames).trans hleads⟩

end

end Setting

section Once

/-- An effect that is run once more if it fails, a number of times over. -/
def Effect.retries (x : Effect D F a e) : Nat → Effect D F a e
  | 0 => x
  | k + 1 => (x.retries k).retryOnce

/-- What is pending below an interpretation of an effect that is retried `k` times over when it has
failed `m` times: the retries that are left. -/
def Frame.left (x : Effect D F a e) : Nat → Nat → List (Frame D F)
  | 0, _ => []
  | k + 1, m =>
      if m < 2 ^ k then
        Frame.left x k m ++ [.reify ⟨a, e⟩, .bind (.recover a e (.once (x.retries k).node))]
      else Frame.left x k (m - 2 ^ k)

/-- No retries are left for the last interpretation. -/
theorem Frame.left_last (x : Effect D F a e) (k : Nat) : Frame.left x k (2 ^ k - 1) = [] := by
  induction k with
  | zero => rfl
  | succ k ih =>
      have hlast : 2 ^ (k + 1) - 1 - 2 ^ k = 2 ^ k - 1 := by omega
      rw [Frame.left, if_neg (by omega), hlast, ih]

namespace Setting

variable {S : Setting D F U σ} {s s' : σ} {us : List U} {m k : Nat} {x : Effect D F a e}

/-- The retries that are left keep a success. -/
theorem leads_left {v : Value D F} (hv : v.ty = a) (x : Effect D F a e) (k m : Nat) (s : σ)
    (frames : List (Frame D F)) :
    S.Leads s (settle (.settled (.ok v)) (Frame.left x k m ++ frames)) [] s
      (settle (.settled (.ok v)) frames) := by
  induction k generalizing m frames with
  | zero => exact .refl
  | succ k ih =>
      rw [Frame.left]
      split
      · rw [List.append_assoc]
        exact (ih m _).trans (leads_kept (Bind.retries_once a e _) hv s frames)
      · exact ih (m - 2 ^ k) frames

/-- With so many failures an effect that is retried comes to its next interpretation. -/
theorem Fails.leads_retries (hx : ∀ s, S.Types s x)
    (h : S.Fails (S.Announces .retryingOnce) x.node s m us s') (hm : m < 2 ^ k)
    (frames : List (Frame D F)) :
    S.Leads s ⟨.node (x.retries k).node, frames⟩ us s'
      ⟨.node x.node, Frame.left x k m ++ frames⟩ := by
  induction k generalizing m s us s' frames with
  | zero =>
      obtain rfl : m = 0 := by simpa using hm
      cases h
      exact .refl
  | succ k ih =>
      have hopening := leads_recovery (S := S) s (x.retries k)
        (.recover a e (.once (x.retries k).node)) frames
      rw [Frame.left]
      split
      · case isTrue hfirst =>
          rw [List.append_assoc]
          exact hopening.trans (ih h hfirst _)
      · case isFalse hlater =>
          -- The first `2 ^ k` of the failures are those of the effect that is run once more.
          have hsplit : m = (2 ^ k - 1) + (1 + (m - 2 ^ k)) := by
            have := Nat.two_pow_pos k
            omega
          rw [hsplit] at h
          obtain ⟨us₁, _, s₁, rfl, hfirst, hrest⟩ := h.split
          rw [Nat.add_comm] at hrest
          cases hrest with
          | @cons _ s₂ s₃ _ _ us₂ vs ws v hsettles hannounces hthen =>
              have hlast := ih hfirst (Nat.sub_lt (Nat.two_pow_pos k) Nat.one_pos)
                (.reify ⟨a, e⟩ :: .bind (.recover a e (.once (x.retries k).node)) :: frames)
              rw [Frame.left_last, List.nil_append] at hlast
              have hagain := leads_again (Bind.retries_once a e (x.retries k).node)
                (hx _ _ _ _ hsettles) hannounces frames
              have hnext := ih hthen (by rw [Nat.pow_succ] at hm; omega) frames
              exact hopening.trans (hlast.trans ((hsettles _).trans (hagain.trans hnext)))

section

variable {H : Host} {S : Setting H.Data H.Fn U σ} {s s' : σ} {us : List U} {k m : Nat}
  {x : Effect H.Data H.Fn a e}

theorem Fails.becomes_retries (hx : ∀ s, S.Types s x)
    (h : S.Fails (S.Announces .retryingOnce) x.node s m us s') (hm : m < 2 ^ k)
    (hlast : S.Prevails s' x.node ∨ m + 1 = 2 ^ k) :
    S.Becomes s (x.retries k).node us s' x.node := by
  refine .of_above (fun frames => h.leads_retries hx hm frames) fun vs o s'' hsettles frames => ?_
  rcases hlast with hprevails | hlast
  · cases o with
    | ok v => exact leads_left (hx _ _ _ _ hsettles) x k m s'' frames
    | error v => exact absurd hsettles (hprevails _ _ _)
  · obtain rfl : m = 2 ^ k - 1 := by omega
    rw [Frame.left_last]
    exact .refl

end

end Setting

end Once

namespace Effect

variable {H : Host} {S : Setting H.Data H.Fn U σ}

/-- An effect that is retried once, `k` times over, is interpreted until it does not fail for the
first time, and not more than `2 ^ k` times. The last interpretation decides how it ends, and its
error is the error of the last one of `2 ^ k` failures. -/
theorem retries_in_turn (x : Effect H.Data H.Fn a e) (hx : ∀ s, S.Types s x)
    (hannounces : ∀ s, ∃ us s', S.Announces .retryingOnce s us s') (k : Nat) (s : σ) :
    (∃ m us s', m < 2 ^ k ∧ S.Fails (S.Announces .retryingOnce) x.node s m us s' ∧
        (S.Prevails s' x.node ∨ m + 1 = 2 ^ k)) ∧
      ∀ m us s', m < 2 ^ k → S.Fails (S.Announces .retryingOnce) x.node s m us s' →
        (S.Prevails s' x.node ∨ m + 1 = 2 ^ k) → S.Becomes s (x.retries k).node us s' x.node := by
  refine ⟨?_, fun m us s' hm hfails hlast => hfails.becomes_retries hx hm hlast⟩
  obtain ⟨m, us, s', hm, hfails, hlast⟩ :=
    Setting.Fails.exists_or_prevails hannounces x.node s (2 ^ k - 1)
  have hpos := Nat.two_pow_pos k
  exact ⟨m, us, s', by omega, hfails, hlast.imp_right fun heq => by omega⟩

end Effect

namespace Drill

/-- An effect that settles with the result of a function. -/
def flaky : Effect Unit Nat .unit .instant := .ofFn ⟨1, ∅⟩

/-- The result that the function has after `n` calls if it succeeds from `m` of them on. -/
def resultOf (m n : Nat) : Outcome Unit Nat := if n < m then .error (.instant n) else .ok .unit

/-- The function counts its calls. An announcement takes a call of function 0. -/
def flakySetting (m : Nat) : Setting Unit Nat Nat Nat where
  reply n question :=
    match question with
    | .call _ _ => some (.ok (.ofOutcome .unit .instant (resultOf m n)), n + 1)
    | _ => some (.ok .unit, n)
  calls _ question :=
    match question with
    | .call f _ => [f.val]
    | _ => [0]
  exit _ _ _ := none
  registers _ _ _ := []

theorem settles_flaky (m n : Nat) :
    (flakySetting m).Settles n flaky.node [1] (resultOf m n) (n + 1) := by
  intro frames
  have hreply : Interpretation.reply .outcome frames (.ok (.ofOutcome .unit .instant
      (resultOf m n))) = settle (.settled (resultOf m n)) frames := by
    simp [Interpretation.reply, Post.answer, continueWith]
  have hmoves : (flakySetting m).Moves n ⟨.node flaky.node, frames⟩
      ((flakySetting m).calls n (.call ⟨1, ∅⟩ [])) (n + 1) _ := .ask rfl rfl
  rw [hreply] at hmoves
  exact .of_moves hmoves

section Failures

variable {S : Setting Unit Nat Nat Nat} {m : Nat} {us vs : List Nat}

theorem types_of_settles {x : Effect Unit Nat .unit .instant}
    (hx : ∀ n, S.Settles n x.node us (resultOf m n) (n + 1)) (n : Nat) : S.Types n x := by
  intro us' o s' hsettles
  obtain ⟨-, rfl, -⟩ := hsettles.unique (hx n)
  unfold resultOf
  split <;> rfl

theorem fails_of_settles {x : Node Unit Nat} {pauses : Nat → List Nat → Nat → Prop}
    (hx : ∀ n, S.Settles n x us (resultOf m n) (n + 1)) (hpauses : ∀ n, pauses n vs n) {n k : Nat}
    (h : n + k ≤ m) :
    S.Fails pauses x n k (List.replicate k (us ++ vs)).flatten (n + k) := by
  induction k generalizing n with
  | zero => exact .nil
  | succ k ih =>
      have hfails := hx n
      rw [resultOf, if_pos (by omega)] at hfails
      have hrest := ih (n := n + 1) (by omega)
      rw [show n + 1 + k = n + (k + 1) by omega] at hrest
      rw [List.replicate_succ, List.flatten_cons, List.append_assoc]
      exact .cons hfails (hpauses _) hrest

theorem prevails_of_settles {x : Node Unit Nat}
    (hx : ∀ n, S.Settles n x us (resultOf m n) (n + 1)) {n : Nat} (h : m ≤ n) :
    S.Prevails n x := by
  intro us' v s' hfails
  obtain ⟨-, heq, -⟩ := hfails.unique (hx n)
  rw [resultOf, if_neg (Nat.not_lt_of_le h)] at heq
  contradiction

end Failures

theorem announces_flaky (m : Nat) (event : Event) (n : Nat) :
    (flakySetting m).Announces event n [0] n := ⟨rfl, _, rfl⟩

/-- Retried twice over, an effect that succeeds after two failures is interpreted three times, and
one that fails is interpreted four times and its last error is kept. -/
theorem flaky_retries_in_turn :
    (flakySetting 2).Settles 0 (flaky.retries 2).node [1, 0, 1, 0, 1] (.ok .unit) 3 ∧
      (flakySetting 4).Settles 0 (flaky.retries 2).node [1, 0, 1, 0, 1, 0, 1]
        (.error (.instant 3)) 4 := by
  have hretries (m : Nat) := (Effect.retries_in_turn (H := host sequencing) flaky
    (types_of_settles (settles_flaky m)) (fun n => ⟨_, _, announces_flaky m _ n⟩) 2 0).2
  have hfails {m k : Nat} (hk : 0 + k ≤ m) :=
    fails_of_settles (settles_flaky m) (announces_flaky m .retryingOnce) hk
  have hprevails := prevails_of_settles (settles_flaky 2) (Nat.le_refl 2)
  exact ⟨(hretries 2 2 _ _ (by decide) (hfails (by decide)) (.inl hprevails)).settles
      (settles_flaky 2 2),
    (hretries 4 3 _ _ (by decide) (hfails (by decide)) (.inr rfl)).settles (settles_flaky 4 3)⟩

end Drill

end Trampoline
