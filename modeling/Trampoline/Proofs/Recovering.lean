import Trampoline.Proofs.Laws

/-!
Laws of observing and recovering from failures. An attempt goes on wherever its effect settles, and
does what its effect does otherwise. The combinators that recover from a failure are an attempt and
a continuation that keeps a success; they are compared by what the continuations make of an error.
-/

namespace Trampoline

variable {D F U σ : Type} {a b c d e : Ty}

/-- A continuation that keeps a success and hands an error to a function. -/
structure Bind.Catches (k : Bind D F) (value error : Ty) (f : Owned F) (post : Post D F) :
    Prop where
  keeps (v : Value D F) : k.plan (.ok value error v) = .settled (.ok v)
  hands (v : Value D F) : k.plan (.err value error v) = .ask (.call f [v]) post

theorem Bind.catches_recover (value error : Ty) (f : Owned F) :
    (Bind.recover value error (.user f) : Bind D F).Catches value error f .run where
  keeps v := by simp [plan, Value.expect, Value.ty]
  hands v := by simp [plan, Value.expect, Value.ty, Recovery.plan]

theorem Bind.catches_handle (value error : Ty) (f : Owned F) :
    (Bind.handle value error f : Bind D F).Catches value error f .succeed where
  keeps v := by simp [plan, Value.expect, Value.ty]
  hands v := by simp [plan, Value.expect, Value.ty]

theorem Bind.catches_mapError (value error : Ty) (f : Owned F) :
    (Bind.mapError value error f : Bind D F).Catches value error f .fail where
  keeps v := by simp [plan, Value.expect, Value.ty]
  hands v := by simp [plan, Value.expect, Value.ty]

theorem Frame.plan_reify {o : Outcome D F} (h : Outcome.HasTags a e o) :
    (Frame.reify ⟨a, e⟩).plan o = .settled (.ok (.ofOutcome a e o)) := by
  cases o with
  | ok v =>
      have hv : v.ty = a := h
      simp [plan, Reify.plan, hv, Value.ofOutcome]
  | error v =>
      have hv : v.ty = e := h
      simp [plan, Reify.plan, hv, Value.ofOutcome]

theorem Frame.plan_reify_mismatch {o : Outcome D F} (h : ¬Outcome.HasTags a e o) :
    (Frame.reify ⟨a, e⟩).plan o = .raise mismatch := by
  cases o with
  | ok v => exact if_neg h
  | error v => exact if_neg h

namespace Setting

open Interpretation

variable {S : Setting D F U σ} {s s' : σ} {frames above above' : List (Frame D F)}

theorem leads_reify {o : Outcome D F} (h : Outcome.HasTags a e o) (frames : List (Frame D F)) :
    S.Leads s (settle (.settled o) (.reify ⟨a, e⟩ :: frames)) [] s
      (settle (.settled (.ok (.ofOutcome a e o))) frames) :=
  leads_answer (Frame.plan_reify h) frames

section Catch

variable {k k' : Bind D F} {f f' : Owned F} {post post' : Post D F} {v : Value D F}

theorem leads_keeps (hk : k.Catches a e f post) (v : Value D F) (frames : List (Frame D F)) :
    S.Leads s (settle (.settled (.ok (.ok a e v))) (.bind k :: frames)) [] s
      (settle (.settled (.ok v)) frames) := by
  have hplan : (Frame.bind k).plan (.ok (.ok a e v)) = .answer (.done (.ok v)) := hk.keeps v
  exact leads_answer hplan frames

theorem step_hands (hk : k.Catches a e f post) (v : Value D F) (frames : List (Frame D F)) :
    (settle (.settled (.ok (.err a e v))) (.bind k :: frames)).step =
      .ask (.call f [v]) post frames := by
  rw [step_settled_cons, Frame.plan, hk.hands]
  rfl

theorem leads_hands (hk : k.Catches a e f post) {r : Except Payload (Value D F)}
    (hreply : S.reply s (.call f [v]) = some (r, s')) (frames : List (Frame D F)) :
    S.Leads s (settle (.settled (.ok (.err a e v))) (.bind k :: frames)) (S.calls s (.call f [v]))
      s' (.reply post frames r) :=
  .of_moves (.ask (step_hands hk v frames) hreply)

/-- Two recoveries of an effect are alike if they are so once it has succeeded, and once it has
failed. -/
theorem Alike.of_caught (hk : k.Catches a e f post) (hk' : k'.Catches a e f' post') {x : Node D F}
    (hok : ∀ s v, v.ty = a →
      S.Alike s (settle (.settled (.ok v)) above) s (settle (.settled (.ok v)) above'))
    (herr : ∀ s v, v.ty = e →
      S.Alike s (settle (.settled (.ok (.err a e v))) (.bind k :: above)) s
        (settle (.settled (.ok (.err a e v))) (.bind k' :: above'))) :
    S.Alike s ⟨.node x, .reify ⟨a, e⟩ :: .bind k :: above⟩ s
      ⟨.node x, .reify ⟨a, e⟩ :: .bind k' :: above'⟩ := by
  refine .of_settled fun us o s' _ => ?_
  by_cases htags : Outcome.HasTags a e o
  · refine .of_leads (leads_reify htags _) (leads_reify htags _) ?_
    cases o with
    | ok v => exact .of_leads (leads_keeps hk v _) (leads_keeps hk' v _) (hok s' v htags)
    | error v => exact herr s' v htags
  · exact .of_leads (leads_raise (Frame.plan_reify_mismatch htags) _)
      (leads_raise (Frame.plan_reify_mismatch htags) _) (.of_panicked _ _ _ _ _)

/-- Recoveries whose functions do the same with an error are alike if what is made of the replies
is so. -/
theorem Alike.of_handed (hk : k.Catches a e f post) (hk' : k'.Catches a e f' post')
    {change : Except Payload (Value D F) → Except Payload (Value D F)}
    (hcalls : S.calls s (.call f' [v]) = S.calls s (.call f [v]))
    (hreply : S.reply s (.call f' [v]) =
      (S.reply s (.call f [v])).map fun (r, s') => (change r, s'))
    (h : ∀ r s', S.reply s (.call f [v]) = some (r, s') →
      S.Alike s' (.reply post above r) s' (.reply post' above' (change r))) :
    S.Alike s (settle (.settled (.ok (.err a e v))) (.bind k :: above)) s
      (settle (.settled (.ok (.err a e v))) (.bind k' :: above')) := by
  cases hf : S.reply s (.call f [v]) with
  | none =>
      rw [hf] at hreply
      have hleft := agree_of_unanswered (step_hands hk v above) hf
      have hright := agree_of_unanswered (step_hands hk' v above') hreply
      rw [hcalls] at hright
      exact hleft.trans hright.symm
  | some reply =>
      obtain ⟨r, s'⟩ := reply
      rw [hf] at hreply
      have hleft := leads_hands hk hf above
      have hright := leads_hands hk' hreply above'
      rw [hcalls] at hright
      exact .of_leads hleft hright (h r s' hf)

end Catch

/-- Given a value of the first type, `l` does what `h` does, and then what `k` does with the reply,
which is of the second type. -/
def Chains (S : Setting D F U σ) (l h k : Owned F) (e d : Ty) : Prop :=
  ∀ s v, v.ty = e →
    match S.reply s (.call h [v]) with
    | some (.ok w, s') => w.ty = d ∧
        S.calls s (.call l [v]) = S.calls s (.call h [v]) ++ S.calls s' (.call k [w]) ∧
          S.reply s (.call l [v]) = S.reply s' (.call k [w])
    | reply => S.calls s (.call l [v]) = S.calls s (.call h [v]) ∧
        S.reply s (.call l [v]) = reply

section Recovery

variable {f g h k l u : Owned F} {v : Value D F}

/-- A node of a recovery runs the effect above the reifier and the continuation. -/
theorem leads_recovery (s : σ) (x : Effect D F a e) (bind : Bind D F) (frames : List (Frame D F)) :
    S.Leads s ⟨.node (.flatMap (.attempt x.node ⟨a, e⟩) bind), frames⟩ [] s
      ⟨.node x.node, .reify ⟨a, e⟩ :: .bind bind :: frames⟩ :=
  (leads_source s _ _ frames).trans (leads_attempted s _ _ _)

theorem fail_handleErrorWith {y : Effect D F a e} (hv : v.ty = e)
    (hf : S.reply s (.call f [v]) = some (.ok y.toValue, s')) (frames : List (Frame D F)) :
    S.Leads s ⟨.node ((Effect.fail v : Effect D F a e).handleErrorWith f).node, frames⟩
      (S.calls s (.call f [v])) s' ⟨.node y.node, frames⟩ := by
  have htags : Outcome.HasTags a e (.error v : Outcome D F) := hv
  exact (leads_recovery s _ _ frames).trans ((leads_fail s v _).trans ((leads_reify htags _).trans
    (leads_hands (Bind.catches_recover a e f) hf frames)))

theorem succeed_handleErrorWith (hv : v.ty = a) (f : Owned F) (frames : List (Frame D F)) :
    S.Alike s ⟨.node ((Effect.succeed v : Effect D F a e).handleErrorWith f).node, frames⟩ s
      ⟨.node (Effect.succeed v : Effect D F a e).node, frames⟩ := by
  have htags : Outcome.HasTags a e (.ok v : Outcome D F) := hv
  have hleads := (leads_recovery s (Effect.succeed v : Effect D F a e) (.recover a e (.user f))
    frames).trans ((leads_succeed s v _).trans ((leads_reify htags _).trans
      (leads_keeps (S := S) (Bind.catches_recover a e f) v frames)))
  exact .of_leads hleads (leads_succeed s v frames) (.refl _ _)

theorem handleErrorWith_fail (hu : S.Makes u e fun v => (Effect.fail v : Effect D F a e))
    {x : Effect D F a e} (hx : S.Types s x) (frames : List (Frame D F)) :
    S.Alike s ⟨.node (x.handleErrorWith u).node, frames⟩ s ⟨.node x.node, frames⟩ := by
  refine .of_source (x := x.node) (leads_recovery s x _ frames) .refl fun us o s' hsettles => ?_
  have htags := hx _ _ _ hsettles
  refine .of_leads (leads_reify htags _) .refl ?_
  cases o with
  | ok v => exact .of_leads (leads_keeps (Bind.catches_recover a e u) v frames) .refl (.refl _ _)
  | error v =>
      obtain ⟨hcalls, hreply⟩ := hu s' v htags
      have hleads := (leads_hands (Bind.catches_recover a e u) hreply frames).trans
        (leads_fail s' v frames)
      rw [hcalls] at hleads
      exact .of_leads hleads .refl (.refl _ _)

theorem handleErrorWith_assoc (hf : S.Builds f e a e)
    (hh : S.Wraps h f e fun y : Effect D F a e => y.handleErrorWith g) (x : Effect D F a e)
    (frames : List (Frame D F)) :
    S.Alike s ⟨.node ((x.handleErrorWith f).handleErrorWith g).node, frames⟩ s
      ⟨.node (x.handleErrorWith h).node, frames⟩ := by
  have hcatches := Bind.catches_recover (D := D) a e f
  have hcatches' := Bind.catches_recover (D := D) a e h
  refine .of_leads ((leads_recovery s (x.handleErrorWith f) _ frames).trans
    (leads_recovery s x _ _)) (leads_recovery s x _ frames)
      (.of_caught hcatches hcatches' (fun s v hv => ?_) fun s v hv => ?_)
  · have htags : Outcome.HasTags a e (.ok v : Outcome D F) := hv
    exact .of_leads ((leads_reify htags _).trans
      (leads_keeps (Bind.catches_recover a e g) v frames)) .refl (.refl _ _)
  · obtain ⟨y, s₁, hreply⟩ := hf s v hv
    obtain ⟨hcalls, hwraps⟩ := hh s v hv
    have hright := (leads_hands hcatches' (hwraps y s₁ hreply) frames).trans
      (leads_recovery s₁ y (.recover a e (.user g)) frames)
    rw [hcalls, List.append_nil] at hright
    exact .of_leads (leads_hands hcatches hreply _) hright (.refl _ _)

/-- A recovery with a value or another error is the recovery with the effect that settles so. -/
theorem Alike.of_lifted {bind : Bind D F} {post : Post D F} {make : Value D F → Effect D F b d}
    (hcatches : bind.Catches a e h post) (hk : S.Lifts k h e make)
    (hmake : ∀ s w frames,
      S.Alike s (.reply post frames (.ok w)) s ⟨.node (make w).node, frames⟩)
    (x : Effect D F a e) (frames : List (Frame D F)) :
    S.Alike s ⟨.node (.flatMap (.attempt x.node ⟨a, e⟩) bind), frames⟩ s
      ⟨.node (x.handleErrorWith k).node, frames⟩ := by
  have hcatches' := Bind.catches_recover (D := D) a e k
  refine .of_leads (leads_recovery s x _ frames) (leads_recovery s x _ frames)
    (.of_caught hcatches hcatches' (fun s v _ => .refl _ _) fun s v hv => ?_)
  obtain ⟨hcalls, hreply⟩ := hk s v hv
  refine .of_handed hcatches hcatches' hcalls hreply fun r s' _ => ?_
  cases r with
  | error payload => exact .of_panicked _ _ _ _ _
  | ok w => exact hmake s' w frames

theorem handleError_eq (hk : S.Lifts k h e fun w => (Effect.succeed w : Effect D F a e))
    (x : Effect D F a e) (frames : List (Frame D F)) :
    S.Alike s ⟨.node (x.handleError h).node, frames⟩ s
      ⟨.node (x.handleErrorWith k).node, frames⟩ :=
  .of_lifted (Bind.catches_handle a e h) hk
    (fun s w frames => .of_leads .refl (leads_succeed s w frames) (.refl _ _)) x frames

theorem mapError_eq (hk : S.Lifts k h e fun w => (Effect.fail w : Effect D F a d))
    (x : Effect D F a e) (frames : List (Frame D F)) :
    S.Alike s ⟨.node (x.mapError h : Effect D F a d).node, frames⟩ s
      ⟨.node (x.handleErrorWith k).node, frames⟩ :=
  .of_lifted (Bind.catches_mapError a e h) hk
    (fun s w frames => .of_leads .refl (leads_fail s w frames) (.refl _ _)) x frames

/-- A change of the error, and another one of the new error, is the change of both in turn. -/
theorem Alike.of_chained (hl : S.Chains l h k e d) (hv : v.ty = e) (frames : List (Frame D F)) :
    S.Alike s (settle (.settled (.ok (.err a e v)))
        (.bind (.mapError a e h) :: .reify ⟨a, d⟩ :: .bind (.mapError a d k) :: frames)) s
      (settle (.settled (.ok (.err a e v))) (.bind (.mapError a e l) :: frames)) := by
  have hcatches := Bind.catches_mapError (D := D) a e h
  have hcatches' := Bind.catches_mapError (D := D) a e l
  have hthen := Bind.catches_mapError (D := D) a d k
  have hchain := hl s v hv
  cases hh : S.reply s (.call h [v]) with
  | none =>
      rw [hh] at hchain
      have hleft := agree_of_unanswered (step_hands hcatches v
        (.reify ⟨a, d⟩ :: .bind (.mapError a d k) :: frames)) hh
      have hright := agree_of_unanswered (step_hands hcatches' v frames) hchain.2
      rw [hchain.1] at hright
      exact hleft.trans hright.symm
  | some reply =>
      obtain ⟨r, s'⟩ := reply
      rw [hh] at hchain
      cases r with
      | error payload =>
          have hright := leads_hands hcatches' hchain.2 frames
          rw [hchain.1] at hright
          exact .of_leads (leads_hands hcatches hh _) hright (.of_panicked _ _ _ _ _)
      | ok w =>
          obtain ⟨hw, hcalls, hreply⟩ := hchain
          have htags : Outcome.HasTags a d (.error w : Outcome D F) := hw
          have hleft := (leads_hands hcatches hh
            (.reify ⟨a, d⟩ :: .bind (.mapError a d k) :: frames)).trans (leads_reify htags _)
          rw [List.append_nil] at hleft
          cases hk : S.reply s' (.call k [w]) with
          | none =>
              have hlast := (agree_of_unanswered (step_hands hthen w frames) hk).append
                ((S.calls s (.call h [v])).map .call)
              have hright := agree_of_unanswered (step_hands hcatches' v frames)
                (hreply.trans hk)
              rw [hcalls, List.map_append] at hright
              exact (hleft.agree.trans hlast).trans hright.symm
          | some reply =>
              obtain ⟨r, s''⟩ := reply
              have hright := leads_hands hcatches' (hreply.trans hk) frames
              rw [hcalls] at hright
              exact .of_leads (hleft.trans (leads_hands hthen hk frames)) hright (.refl _ _)

theorem mapError_mapError (hl : S.Chains l h k e d) (x : Effect D F a e)
    (frames : List (Frame D F)) :
    S.Alike s ⟨.node ((x.mapError h : Effect D F a d).mapError k : Effect D F a c).node, frames⟩ s
      ⟨.node (x.mapError l : Effect D F a c).node, frames⟩ := by
  have hcatches := Bind.catches_mapError (D := D) a e h
  have hcatches' := Bind.catches_mapError (D := D) a e l
  refine .of_leads ((leads_recovery s (x.mapError h : Effect D F a d) _ frames).trans
    (leads_recovery s x _ _)) (leads_recovery s x _ frames)
      (.of_caught hcatches hcatches' (fun s v hv => ?_) fun s v hv => ?_)
  · have htags : Outcome.HasTags a d (.ok v : Outcome D F) := hv
    exact .of_leads ((leads_reify htags _).trans
      (leads_keeps (Bind.catches_mapError a d k) v frames)) .refl (.refl _ _)
  · exact .of_chained hl hv frames

end Recovery

section Attempt

variable {us : List U} {j : Interpretation D F} {o : Outcome D F}

/-- What an attempt ends with: it settles when its effect settles, or it is where its effect is. -/
theorem attempt_cases {x : Effect D F a e} (hx : S.Types s x)
    (h : S.Leads s (start x.attempt.node) us s' j) (hover : S.Over s' j) :
    (∃ o, S.Settles s x.node us o s' ∧ j = settle (.settled (.ok (.ofOutcome a e o))) []) ∨
      ∃ i, j = i.onto [.reify ⟨a, e⟩] ∧ S.Leads s (start x.node) us s' i := by
  obtain ⟨us, rfl, hrest⟩ := (leads_attempted s x.node ⟨a, e⟩ []).rest h hover
  have hrest : S.Leads s ((start x.node).onto [.reify ⟨a, e⟩]) us s' j := hrest
  rcases hrest.of_onto with ⟨i, rfl, hi⟩ | ⟨us, vs, s₁, o, rfl, hfirst, hthen⟩
  · exact .inr ⟨i, rfl, hi⟩
  · have hsettles := settles_iff.2 hfirst
    obtain ⟨rfl, rfl, rfl⟩ := (leads_reify (hx _ _ _ hsettles) []).unique hthen
      (.finished rfl) hover
    refine .inl ⟨o, ?_, rfl⟩
    rw [List.append_nil]
    exact hsettles

/-- What is seen of an attempt before its effect settles. -/
theorem leads_attempt {x : Effect D F a e} {i : Interpretation D F}
    (h : S.Leads s (start x.node) us s' i) :
    S.Leads s (start x.attempt.node) us s' (i.onto [.reify ⟨a, e⟩]) :=
  (leads_attempted s x.node ⟨a, e⟩ []).trans (h.onto _)

theorem attempt_settles_iff {x : Effect D F a e} (hx : S.Types s x) :
    S.Settles s x.attempt.node us o s' ↔
      ∃ o', o = .ok (.ofOutcome a e o') ∧ S.Settles s x.node us o' s' := by
  rw [settles_iff]
  constructor
  · intro h
    rcases attempt_cases hx h (.finished rfl) with ⟨o', hsettles, heq⟩ | ⟨i, heq, -⟩
    · cases heq
      exact ⟨o', rfl, hsettles⟩
    · simp [settle, onto] at heq
  · rintro ⟨o', rfl, hsettles⟩
    have hleads := (leads_attempt (settles_iff.1 hsettles)).trans
      (leads_reify (hx _ _ _ hsettles) [])
    rwa [List.append_nil] at hleads

theorem attempt_panics_iff {x : Effect D F a e} (hx : S.Types s x) {payload : Payload} :
    S.Panics s x.attempt.node us payload ↔ S.Panics s x.node us payload := by
  rw [panics_iff, panics_iff]
  constructor
  · rintro ⟨s', above, h⟩
    rcases attempt_cases hx h (.finished rfl) with ⟨o, -, heq⟩ | ⟨⟨focus, frames⟩, heq, hi⟩
    · cases heq
    · cases heq
      exact ⟨s', frames, hi⟩
  · rintro ⟨s', above, h⟩
    exact ⟨s', _, leads_attempt h⟩

theorem attempt_stops_iff {x : Effect D F a e} (hx : S.Types s x) {r : Register F}
    {scheduler : SchedulerId} :
    S.Stops s x.attempt.node us r scheduler ↔ S.Stops s x.node us r scheduler := by
  rw [stops_iff, stops_iff]
  constructor
  · rintro ⟨s', above, hexit, h⟩
    rcases attempt_cases hx h (.stopped rfl hexit) with ⟨o, -, heq⟩ | ⟨⟨focus, frames⟩, heq, hi⟩
    · cases heq
    · cases heq
      exact ⟨s', frames, hexit, hi⟩
  · rintro ⟨s', above, hexit, h⟩
    exact ⟨s', _, hexit, leads_attempt h⟩

/-- An attempt of an effect that does not settle does what the effect does. -/
theorem attempt_of_unsettled {x : Effect D F a e} (hx : ¬∃ us o s', S.Settles s x.node us o s')
    (frames : List (Frame D F)) :
    S.Alike s ⟨.node x.attempt.node, frames⟩ s ⟨.node x.node, frames⟩ :=
  .of_source (x := x.node) (leads_attempted s _ _ frames) .refl fun us o s' hsettles =>
    absurd ⟨us, o, s', hsettles⟩ hx

theorem attempt_flatMap_ofResult {u : Owned F}
    (hu : S.Makes u (.result a e) fun v =>
      (Effect.ofResult (v.outcome?.getD (.error v)) : Effect D F a e))
    {x : Effect D F a e} (hx : S.Types s x) (frames : List (Frame D F)) :
    S.Alike s ⟨.node (x.attempt.flatMap u : Effect D F a e).node, frames⟩ s
      ⟨.node x.node, frames⟩ := by
  refine .of_source (x := x.node) ((leads_source s _ _ frames).trans (leads_attempted s _ _ _))
    .refl fun us o s' hsettles => ?_
  refine .of_leads (leads_reify (hx _ _ _ hsettles) _) .refl ?_
  have hv := Value.ty_ofOutcome a e o
  obtain ⟨hcalls, hreply⟩ := hu s' _ hv
  have hleads := leads_ask (plan_flatMap u hv) hreply frames
  rw [hcalls] at hleads
  cases o with
  | ok v => exact .of_leads (hleads.trans (leads_succeed s' v frames)) .refl (.refl _ _)
  | error v => exact .of_leads (hleads.trans (leads_fail s' v frames)) .refl (.refl _ _)

end Attempt

end Setting

/-- The type of the value of nested attempts. -/
def Ty.attempts (value error : Ty) : Nat → Ty
  | 0 => value
  | k + 1 => .result (attempts value error k) error

/-- An attempt of an attempt, and so on. -/
def Effect.attempts (x : Effect D F a e) : (k : Nat) → Effect D F (Ty.attempts a e k) e
  | 0 => x
  | k + 1 => (x.attempts k).attempt

/-- An outcome as the value of an attempt, in the successes of further attempts. -/
def Value.attempted (value error : Ty) (o : Outcome D F) : Nat → Value D F
  | 0 => .ofOutcome value error o
  | k + 1 => .ok (Ty.attempts value error (k + 1)) error (attempted value error o k)

namespace Setting

variable {S : Setting D F U σ} {s s' : σ} {us : List U} {o : Outcome D F}

theorem types_attempt {x : Effect D F a e} (hx : S.Types s x) : S.Types s x.attempt := by
  intro us o s' hsettles
  obtain ⟨o', rfl, -⟩ := (attempt_settles_iff hx).1 hsettles
  exact Value.ty_ofOutcome a e o'

theorem types_attempts {x : Effect D F a e} (hx : S.Types s x) (k : Nat) :
    S.Types s (x.attempts k) := by
  induction k with
  | zero => exact hx
  | succ k ih => exact types_attempt ih

/-- The first attempt makes a result of the outcome, and each further one a success of that. -/
theorem attempts_settles_iff {x : Effect D F a e} (hx : S.Types s x) (k : Nat) :
    S.Settles s (x.attempts (k + 1)).node us o s' ↔
      ∃ o', o = .ok (.attempted a e o' k) ∧ S.Settles s x.node us o' s' := by
  induction k generalizing o with
  | zero => exact attempt_settles_iff hx
  | succ k ih =>
      refine (attempt_settles_iff (types_attempts hx (k + 1))).trans ⟨?_, ?_⟩
      · rintro ⟨o', rfl, hsettles⟩
        obtain ⟨o'', rfl, hx⟩ := ih.1 hsettles
        exact ⟨o'', rfl, hx⟩
      · rintro ⟨o', rfl, hsettles⟩
        exact ⟨_, rfl, ih.2 ⟨o', rfl, hsettles⟩⟩

end Setting

section Runs

variable {H : Host} {S : Setting H.Data H.Fn U σ}

/-- What an attempt of an effect comes to, from a state on. -/
structure Setting.Attempted (S : Setting H.Data H.Fn U σ) (s : σ)
    (x : Effect H.Data H.Fn a e) : Prop where
  /-- It settles after the calls after which the effect settles, and succeeds with the result. -/
  settles_iff {us : List U} {o : Outcome H.Data H.Fn} {s' : σ} :
    S.Settles s x.attempt.node us o s' ↔
      ∃ o', o = .ok (.ofOutcome a e o') ∧ S.Settles s x.node us o' s'
  panics_iff {us : List U} {payload : Payload} :
    S.Panics s x.attempt.node us payload ↔ S.Panics s x.node us payload
  stops_iff {us : List U} {reg : Register H.Fn} {scheduler : SchedulerId} :
    S.Stops s x.attempt.node us reg scheduler ↔ S.Stops s x.node us reg scheduler
  /-- In a run it goes on with the result. -/
  goesOn {us : List U} {o : Outcome H.Data H.Fn} {s' : σ} {r : Run H} {b : Nat} {p : Place}
      {frames : List (Frame H.Data H.Fn)} {finish : Finish H.Fn} :
    S.Settles s x.node us o s' →
      (r.world b).pendingAt p = some (.driving ⟨.node x.attempt.node, frames⟩, finish) →
        r.Suits S s b p → ∃ n, r.shown S s b p n = us.map .call ∧ r.stage b p n =
          some (.driving (.settle (.settled (.ok (.ofOutcome a e o))) frames))
  /-- It does what the effect does if the effect does not settle. -/
  otherwise : (¬∃ us o s', S.Settles s x.node us o s') → S.Equates s x.attempt.node [] s x.node

theorem Setting.Attempted.of_types {s : σ} {x : Effect H.Data H.Fn a e} (hx : S.Types s x) :
    S.Attempted s x where
  settles_iff := attempt_settles_iff hx
  panics_iff := attempt_panics_iff hx
  stops_iff := attempt_stops_iff hx
  goesOn hsettles hp hsuits := by
    obtain ⟨n, hstage, hshown⟩ :=
      hsuits.exists_stage hp ((attempt_settles_iff hx).2 ⟨_, rfl, hsettles⟩ _)
    exact ⟨n, hshown, hstage⟩
  otherwise hnever := .of_alike (attempt_of_unsettled hnever)

namespace Effect

/-- An attempt always succeeds when its effect settles, and loses nothing. The function `u` builds
the effect that settles with the result that it is given. -/
theorem attempt_lossless (x : Effect H.Data H.Fn a e) (hx : ∀ s, S.Types s x) {u : Owned H.Fn}
    (hu : S.Makes u (.result a e) fun v =>
      (ofResult (v.outcome?.getD (.error v)) : Effect H.Data H.Fn a e)) :
    (∀ s k, S.Attempted s (x.attempts k)) ∧
      (∀ s, S.Equates s (x.attempt.flatMap u : Effect H.Data H.Fn a e).node [] s x.node) ∧
        ∀ s k us o s', S.Settles s (x.attempts (k + 1)).node us o s' ↔
          ∃ o', o = .ok (.attempted a e o' k) ∧ S.Settles s x.node us o' s' :=
  ⟨fun s k => .of_types (Setting.types_attempts (hx s) k),
    fun s => .of_alike (Setting.attempt_flatMap_ofResult hu (hx s)),
    fun s k _ _ _ => Setting.attempts_settles_iff (hx s) k⟩

end Effect

namespace Drill

/-- An effect that waits at an async node and then fails. -/
def failing : Effect Unit Nat .unit .unit := pause.flatMap ⟨4, ∅⟩

/-- Function 8 builds the effect that settles with a result, and 9 the one that fails. Function 10
goes on from the effect of function 3 with a recovery. The functions 11 to 13 do what function 6
does. -/
def recovering : Nat → List (Value Unit Nat) → Value Unit Nat
  | 8, [v] =>
      (Effect.ofResult (v.outcome?.getD (.error v)) : Effect Unit Nat .unit .unit).toValue
  | 10, _ => (errand.handleErrorWith ⟨4, ∅⟩).toValue
  | 11, _ => (Effect.succeed .unit : Effect Unit Nat .unit .unit).toValue
  | 9, _ | 12, _ => (Effect.fail .unit : Effect Unit Nat .unit .unit).toValue
  | f, _ => sequel f

def recoveringCalls : Nat → List Nat
  | 8 | 9 => []
  | 10 => [3]
  | 11 | 12 => [6]
  | 13 => [6, 6]
  | f => sequelCalls f

/-- The setting in which an effect is attempted and recovered from. -/
def recoverySetting : Setting Unit Nat Nat Unit := setting recoveringCalls recovering

theorem settles_failing : recoverySetting.Settles () failing.node [2, 4] (.error .unit) () := by
  intro frames
  have hreply : recoverySetting.reply () (.call ⟨4, ∅⟩ [.unit]) =
      some (.ok (Effect.fail .unit : Effect Unit Nat .unit .unit).toValue, ()) := rfl
  have hcall := Setting.leads_ask (Setting.plan_flatMap (a := .unit) ⟨4, ∅⟩ rfl) hreply frames
  exact (Setting.leads_source () pause.node _ frames).trans
    ((settles_pause _ _ () _).trans (hcall.trans (Setting.leads_fail () .unit frames)))

theorem types_failing (s : Unit) : recoverySetting.Types s failing := by
  intro us o s' hsettles
  obtain ⟨-, rfl, -⟩ := hsettles.unique settles_failing
  rfl

/-- The second attempt of an effect that fails after it has waited succeeds with a success, and the
first one with the error. -/
theorem failing_attempt_lossless :
    recoverySetting.Settles () (failing.attempts 2).node [2, 4]
        (.ok (.ok (.result .unit .unit) .unit (.err .unit .unit .unit))) () ∧
      (∀ us v s', ¬recoverySetting.Settles () failing.attempt.node us (.error v) s') ∧
      Setting.Equates (H := host sequencing) recoverySetting ()
        (failing.attempt.flatMap ⟨8, ∅⟩ : Effect Unit Nat .unit .unit).node [] () failing.node := by
  have hmakes : recoverySetting.Makes ⟨8, ∅⟩ (.result .unit .unit) fun v =>
      (Effect.ofResult (v.outcome?.getD (.error v)) : Effect Unit Nat .unit .unit) :=
    fun s v _ => ⟨rfl, rfl⟩
  obtain ⟨hattempted, hresult, hsettles⟩ := Effect.attempt_lossless (H := host sequencing)
    (S := recoverySetting) failing types_failing hmakes
  refine ⟨(hsettles () 1 _ _ _).2 ⟨_, rfl, settles_failing⟩, fun us v s' hfails => ?_, hresult ()⟩
  obtain ⟨o, heq, -⟩ := (hattempted () 0).settles_iff.1 hfails
  contradiction

end Drill

namespace Effect

variable {f g h k l m u : Owned H.Fn}

/-- The laws of recovery. The function `u` builds the effect that fails with its argument, `h` the
effect that `f` builds with `g` as its recovery, `k'` and `m'` the effects that succeed or fail with
the replies of `k` and `m`, and `n` does what `m` does and then what `l` does. -/
theorem recovery_laws (x : Effect H.Data H.Fn a e) (hx : ∀ s, S.Types s x)
    {k' m' n : Owned H.Fn}
    (hu : S.Makes u e fun v => (fail v : Effect H.Data H.Fn a e)) (hf : S.Builds f e a e)
    (hh : S.Wraps h f e fun y : Effect H.Data H.Fn a e => y.handleErrorWith g)
    (hk : S.Lifts k' k e fun w => (succeed w : Effect H.Data H.Fn a e))
    (hm : S.Lifts m' m e fun w => (fail w : Effect H.Data H.Fn a d))
    (hn : S.Chains n m l e d) :
    (∀ s v, v.ty = e → ∃ (y : Effect H.Data H.Fn a e) (s' : σ),
      S.reply s (.call f [v]) = some (.ok y.toValue, s') ∧
        S.Equates s ((fail v : Effect H.Data H.Fn a e).handleErrorWith f).node
          (S.calls s (.call f [v])) s' y.node) ∧
      (∀ s v, v.ty = a → S.Equates s ((succeed v : Effect H.Data H.Fn a e).handleErrorWith f).node
        [] s (succeed v : Effect H.Data H.Fn a e).node) ∧
      (∀ s, S.Equates s (x.handleErrorWith u).node [] s x.node) ∧
      (∀ s, S.Equates s ((x.handleErrorWith f).handleErrorWith g).node [] s
        (x.handleErrorWith h).node) ∧
      (∀ s, S.Equates s (x.handleError k).node [] s (x.handleErrorWith k').node) ∧
      (∀ s, S.Equates s (x.mapError m : Effect H.Data H.Fn a d).node [] s
        (x.handleErrorWith m').node) ∧
      ∀ s, S.Equates s ((x.mapError m : Effect H.Data H.Fn a d).mapError l :
        Effect H.Data H.Fn a c).node [] s (x.mapError n : Effect H.Data H.Fn a c).node := by
  refine ⟨fun s v hv => ?_, fun s v hv => ?_, fun s => ?_, fun s => ?_, fun s => ?_, fun s => ?_,
    fun s => ?_⟩
  · obtain ⟨y, s', hreply⟩ := hf s v hv
    exact ⟨y, s', hreply, .of_leads (Setting.fail_handleErrorWith hv hreply)⟩
  · exact .of_alike (Setting.succeed_handleErrorWith hv f)
  · exact .of_alike (Setting.handleErrorWith_fail hu (hx s))
  · exact .of_alike (Setting.handleErrorWith_assoc hf hh x)
  · exact .of_alike (Setting.handleError_eq hk x)
  · exact .of_alike (Setting.mapError_eq hm x)
  · exact .of_alike (Setting.mapError_mapError hn x)

end Effect

end Runs

namespace Drill

/-- The effect fails after it has waited, so each recovery is made. -/
theorem failing_recovery_laws :
    (∃ y : Effect Unit Nat .unit .unit, Setting.Equates (H := host sequencing) recoverySetting ()
        ((Effect.fail .unit : Effect Unit Nat .unit .unit).handleErrorWith ⟨3, ∅⟩).node [3] ()
          y.node) ∧
      Setting.Equates (H := host sequencing) recoverySetting ()
        (failing.handleErrorWith ⟨9, ∅⟩).node [] () failing.node ∧
      Setting.Equates (H := host sequencing) recoverySetting ()
        ((failing.handleErrorWith ⟨3, ∅⟩).handleErrorWith ⟨4, ∅⟩).node [] ()
          (failing.handleErrorWith ⟨10, ∅⟩).node ∧
      Setting.Equates (H := host sequencing) recoverySetting ()
        (failing.handleError ⟨6, ∅⟩).node [] () (failing.handleErrorWith ⟨11, ∅⟩).node ∧
      Setting.Equates (H := host sequencing) recoverySetting ()
        ((failing.mapError ⟨6, ∅⟩ : Effect Unit Nat .unit .unit).mapError ⟨6, ∅⟩ :
          Effect Unit Nat .unit .unit).node [] ()
            (failing.mapError ⟨13, ∅⟩ : Effect Unit Nat .unit .unit).node := by
  have hmakes : recoverySetting.Makes ⟨9, ∅⟩ .unit
      fun v => (Effect.fail v : Effect Unit Nat .unit .unit) := fun s v hv => by
    rw [eq_unit hv]
    exact ⟨rfl, rfl⟩
  have hbuilds : recoverySetting.Builds ⟨3, ∅⟩ .unit .unit .unit :=
    fun s v _ => ⟨errand, (), rfl⟩
  have hwraps : recoverySetting.Wraps ⟨10, ∅⟩ ⟨3, ∅⟩ .unit
      fun y : Effect Unit Nat .unit .unit => y.handleErrorWith ⟨4, ∅⟩ :=
    fun s v _ => ⟨rfl, fun ⟨node⟩ s' hy => by cases hy; rfl⟩
  have hsucceeds : recoverySetting.Lifts ⟨11, ∅⟩ ⟨6, ∅⟩ .unit
      fun w => (Effect.succeed w : Effect Unit Nat .unit .unit) := fun s v _ => ⟨rfl, rfl⟩
  have hfails : recoverySetting.Lifts ⟨12, ∅⟩ ⟨6, ∅⟩ .unit
      fun w => (Effect.fail w : Effect Unit Nat .unit .unit) := fun s v _ => ⟨rfl, rfl⟩
  have hchains : recoverySetting.Chains ⟨13, ∅⟩ ⟨6, ∅⟩ ⟨6, ∅⟩ .unit .unit :=
    fun s v _ => ⟨rfl, rfl, rfl⟩
  obtain ⟨hfail, -, hkeep, hassoc, hhandle, -, hmap⟩ := Effect.recovery_laws
    (H := host sequencing) (S := recoverySetting) (c := .unit) failing types_failing hmakes hbuilds
    hwraps hsucceeds hfails hchains
  obtain ⟨y, s', -, hy⟩ := hfail () .unit rfl
  exact ⟨⟨y, hy⟩, hkeep (), hassoc (), hhandle (), hmap ()⟩

end Drill

end Trampoline
