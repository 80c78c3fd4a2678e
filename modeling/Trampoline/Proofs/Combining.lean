import Trampoline.Proofs.Sequencing

/-!
Two effects whose values are combined. The second is run when the first has succeeded, and then what
the first one left is in a continuation of the interpretation that has got it. That continuation
does with the second value what a continuation would do that the first value had been handed to.
-/

namespace Trampoline

variable {D F U σ : Type} {a b c e : Ty}

open Interpretation

/-- A continuation that, given a value of its type, runs the node `y` above these further ones. -/
structure Bind.Proceeds (k : Bind D F) (value : Ty) (y : Node D F)
    (above : Value D F → List (Frame D F)) : Prop where
  runs {v : Value D F} : v.ty = value →
    ∃ next, k.plan v = .answer next ∧ ∀ rest, continueWith rest next = ⟨.node y, above v ++ rest⟩
  refuses {v : Value D F} : v.ty ≠ value → k.plan v = .raise mismatch

namespace Bind

/-- The continuation below the second effect of a combination. -/
def combining (second : Ty) (how : Combine F) (v : Value D F) : List (Frame D F) :=
  [.resume (.combine second v how)]

theorem proceeds_andThen (a b : Ty) (y : Node D F) (how : Combine F) :
    (Bind.andThen a b y how).Proceeds a y (combining b how) where
  runs hv := ⟨_, by rw [plan, Value.expect_of_ty hv], fun _ => rfl⟩
  refuses hv := if_neg hv

theorem proceeds_next (a : Ty) (y : Node D F) :
    (Bind.next a y : Bind D F).Proceeds a y fun _ => [] where
  runs hv := ⟨_, by rw [plan, Value.expect_of_ty hv], fun _ => rfl⟩
  refuses hv := if_neg hv

variable {k : Bind D F} {y : Node D F} {above : Value D F → List (Frame D F)} {v : Value D F}

theorem Proceeds.step_runs (hk : k.Proceeds a y above) (hv : v.ty = a) (rest : List (Frame D F)) :
    (settle (.settled (.ok v)) (.bind k :: rest)).step = .next ⟨.node y, above v ++ rest⟩ := by
  obtain ⟨next, hplan, hnext⟩ := hk.runs hv
  rw [step_settled_cons, Frame.plan, hplan, follow, hnext]

theorem Proceeds.plan_refuses (hk : k.Proceeds a y above) (hv : v.ty ≠ a) :
    (Frame.bind k).plan (.ok v) = .raise mismatch :=
  hk.refuses hv

theorem Proceeds.step_refuses (hk : k.Proceeds a y above) (hv : v.ty ≠ a)
    (rest : List (Frame D F)) :
    (settle (.settled (.ok v)) (.bind k :: rest)).step =
      .next (settle (.panicked mismatch) rest) := by
  rw [step_settled_cons, hk.plan_refuses hv]
  rfl

end Bind

theorem Frame.plan_combine {v w : Value D F} (hw : w.ty = b) (how : Combine F) :
    (Frame.resume (.combine b v how)).plan (.ok w) = how.plan v w := by
  rw [Frame.plan, Resume.plan, Value.expect_of_ty hw]

theorem Frame.plan_combine_mismatch {v w : Value D F} (hw : w.ty ≠ b) (how : Combine F) :
    (Frame.resume (.combine b v how)).plan (.ok w) = .raise mismatch :=
  if_neg hw

namespace Setting

section Laws

variable {S : Setting D F U σ} {s s' : σ} {us : List U} {frame frame' : Frame D F}
  {f g : Owned F} {v w : Value D F}

/-- Given a value of the first type, `g` does nothing but to build the effect `y`, mapped by a
function that does with a value of the second type what `f` does with both. -/
def Curries (S : Setting D F U σ) (g f : Owned F) (a c : Ty) (y : Effect D F b e) : Prop :=
  ∀ s v, v.ty = a → S.calls s (.call g [v]) = [] ∧
    ∃ h : Owned F, S.reply s (.call g [v]) = some (.ok (y.map h : Effect D F c e).toValue, s) ∧
      ∀ s' w, w.ty = b → S.calls s' (.call h [w]) = S.calls s' (.call f [v, w]) ∧
        S.reply s' (.call h [w]) = S.reply s' (.call f [v, w])

/-- Given values of two types, `f` does nothing but to reply with what is made of them. -/
def Picks (S : Setting D F U σ) (f : Owned F) (a b : Ty)
    (pick : Value D F → Value D F → Value D F) : Prop :=
  ∀ s v w, v.ty = a → w.ty = b → S.calls s (.call f [v, w]) = [] ∧
    S.reply s (.call f [v, w]) = some (.ok (pick v w), s)

/-- Continuations that ask questions with the same replies are alike. -/
theorem Alike.of_asked {o : Outcome D F} {question question' : Ask D F} {post : Post D F}
    (h : frame.plan o = .ask question post) (h' : frame'.plan o = .ask question' post)
    (hcalls : S.calls s question' = S.calls s question)
    (hreply : S.reply s question' = S.reply s question) (rest : List (Frame D F)) :
    S.Alike s (settle (.settled o) (frame :: rest)) s (settle (.settled o) (frame' :: rest)) := by
  cases hq : S.reply s question with
  | some reply =>
      obtain ⟨r, s'⟩ := reply
      have hleft := leads_ask h hq rest
      have hright := leads_ask h' (hreply.trans hq) rest
      rw [hcalls] at hright
      exact .of_leads hleft hright (.refl _ _)
  | none =>
      have hstep : (settle (.settled o) (frame :: rest)).step = .ask question post rest := by
        rw [step_settled_cons, h]
        rfl
      have hstep' : (settle (.settled o) (frame' :: rest)).step = .ask question' post rest := by
        rw [step_settled_cons, h']
        rfl
      have hright := agree_of_unanswered hstep' (hreply.trans hq)
      rw [hcalls] at hright
      exact (agree_of_unanswered hstep hq).trans hright.symm

/-- A failure passes continuations that are no reifiers. -/
theorem Alike.of_failed {v : Value D F} (h : frame.plan (.error v) = .settled (.error v))
    (h' : frame'.plan (.error v) = .settled (.error v)) (s : σ) (rest : List (Frame D F)) :
    S.Alike s (settle (.settled (.error v)) (frame :: rest)) s
      (settle (.settled (.error v)) (frame' :: rest)) :=
  .of_leads (leads_answer h rest) (leads_answer h' rest) (.refl _ _)

/-- Continuations that panic are alike. -/
theorem Alike.of_raised {o : Outcome D F} {payload : Payload} (h : frame.plan o = .raise payload)
    (h' : frame'.plan o = .raise payload) (s : σ) (rest : List (Frame D F)) :
    S.Alike s (settle (.settled o) (frame :: rest)) s (settle (.settled o) (frame' :: rest)) :=
  .of_leads (leads_raise h rest) (leads_raise h' rest) (.refl _ _)

theorem leads_proceeds {k : Bind D F} {y : Node D F} {above : Value D F → List (Frame D F)}
    (hk : k.Proceeds a y above) (hv : v.ty = a) (s : σ) (rest : List (Frame D F)) :
    S.Leads s (settle (.settled (.ok v)) (.bind k :: rest)) [] s ⟨.node y, above v ++ rest⟩ :=
  .of_next (hk.step_runs hv rest) .refl

/-- Combinations of the same effects are alike if what their continuations do with the two values
is. -/
theorem Alike.of_proceeds {k k' : Bind D F} {y : Node D F}
    {above above' : Value D F → List (Frame D F)} (hk : k.Proceeds a y above)
    (hk' : k'.Proceeds a y above') (x : Node D F) (rest : List (Frame D F))
    (h : ∀ v, v.ty = a → ∀ s us o s', S.Settles s y us o s' →
      S.Alike s' (settle (.settled o) (above v ++ rest)) s'
        (settle (.settled o) (above' v ++ rest))) :
    S.Alike s ⟨.node (.flatMap x k), rest⟩ s ⟨.node (.flatMap x k'), rest⟩ := by
  refine .of_source (leads_source s x k rest) (leads_source s x k' rest) fun us o s₁ _ => ?_
  cases o with
  | error v => exact .of_failed rfl rfl s₁ rest
  | ok v =>
      by_cases hv : v.ty = a
      · exact .of_leads (leads_proceeds hk hv s₁ rest) (leads_proceeds hk' hv s₁ rest)
          (.of_settled (h v hv s₁))
      · exact .of_raised (hk.plan_refuses hv) (hk'.plan_refuses hv) s₁ rest

theorem map2_flatMap {y : Effect D F b e} (hg : S.Curries g f a c y) (x : Effect D F a e)
    (rest : List (Frame D F)) :
    S.Alike s ⟨.node (x.map2 y f : Effect D F c e).node, rest⟩ s
      ⟨.node (x.flatMap g : Effect D F c e).node, rest⟩ := by
  refine .of_source (leads_source s x.node _ rest) (leads_source s x.node _ rest)
    fun us o s₁ _ => ?_
  have hk := Bind.proceeds_andThen a b y.node (.user f)
  cases o with
  | error v => exact .of_failed rfl rfl s₁ rest
  | ok v =>
      by_cases hv : v.ty = a
      · obtain ⟨hcalls, h, hreply, hh⟩ := hg s₁ v hv
        have hright := (leads_ask (plan_flatMap g hv) hreply rest).trans
          (leads_source s₁ y.node (.map b h) rest)
        rw [hcalls] at hright
        refine .of_leads (leads_proceeds hk hv s₁ rest) hright (.of_settled fun us' o s₂ _ => ?_)
        cases o with
        | error w => exact .of_failed rfl rfl s₂ rest
        | ok w =>
            by_cases hw : w.ty = b
            · obtain ⟨hcalls', hreply'⟩ := hh s₂ w hw
              have hmap : (Frame.bind (.map b h)).plan (.ok w) = .ask (.call h [w]) .succeed := by
                rw [Frame.plan, Bind.plan, Value.expect_of_ty hw]
              exact .of_asked (Frame.plan_combine hw (.user f)) hmap hcalls' hreply' rest
            · have hmap : (Frame.bind (.map b h)).plan (.ok w) = .raise mismatch := if_neg hw
              exact .of_raised (Frame.plan_combine_mismatch hw _) hmap s₂ rest
      · exact .of_raised (hk.plan_refuses hv) (plan_flatMap_mismatch g hv) s₁ rest

/-- A combination does at once what a function replies that only picks. -/
theorem combine_map2 {pick : Value D F → Value D F → Value D F} {how : Combine F}
    (hf : S.Picks f a b pick) (hhow : ∀ v w, how.plan v w = .settled (.ok (pick v w)))
    (x : Effect D F a e) (y : Effect D F b e) (rest : List (Frame D F)) :
    S.Alike s ⟨.node (x.combine y how : Effect D F c e).node, rest⟩ s
      ⟨.node (x.map2 y f : Effect D F c e).node, rest⟩ := by
  refine .of_proceeds (Bind.proceeds_andThen a b y.node how)
    (Bind.proceeds_andThen a b y.node (.user f)) x.node rest fun v hv s us o s' _ => ?_
  cases o with
  | error w => exact .of_failed rfl rfl s' rest
  | ok w =>
      by_cases hw : w.ty = b
      · obtain ⟨hcalls, hreply⟩ := hf s' v w hv hw
        have hleft := leads_answer (S := S) (s := s')
          ((Frame.plan_combine hw how).trans (hhow v w)) rest
        have hright := leads_ask (Frame.plan_combine hw (.user f)) hreply rest
        rw [hcalls] at hright
        exact .of_leads hleft hright (.refl _ _)
      · exact .of_raised (Frame.plan_combine_mismatch hw _) (Frame.plan_combine_mismatch hw _) s'
          rest

/-- Running the second effect in place of the continuation is combining by the second value. -/
theorem productR_map2 (hf : S.Picks f a b fun _ w => w) (x : Effect D F a e) {y : Effect D F b e}
    (hy : ∀ s, S.Types s y) (rest : List (Frame D F)) :
    S.Alike s ⟨.node (x.productR y).node, rest⟩ s
      ⟨.node (x.map2 y f : Effect D F b e).node, rest⟩ := by
  refine .of_proceeds (Bind.proceeds_next a y.node)
    (Bind.proceeds_andThen a b y.node (.user f)) x.node rest fun v hv s us o s' hsettles => ?_
  cases o with
  | error w =>
      have hright : S.Leads s' (settle (.settled (.error w))
          (.resume (.combine b v (.user f)) :: rest)) [] s' (settle (.settled (.error w)) rest) :=
        .of_next rfl .refl
      exact .of_leads .refl hright (.refl _ _)
  | ok w =>
      have hw : w.ty = b := hy s us _ s' hsettles
      obtain ⟨hcalls, hreply⟩ := hf s' v w hv hw
      have hright := leads_ask (Frame.plan_combine hw (.user f)) hreply rest
      rw [hcalls] at hright
      exact .of_leads .refl hright (.refl _ _)

end Laws

section

variable {H : Host} {S : Setting H.Data H.Fn U σ} {s s₁ : σ} {us : List U}
  {x y : Node H.Data H.Fn} {v : Value H.Data H.Fn}

/-- What a combination of two effects does from a state on. -/
inductive Combines (S : Setting H.Data H.Fn U σ) (s : σ) (x y z : Node H.Data H.Fn)
    (how : Combine H.Fn) : Prop where
  /-- It does what the first one does if that does not succeed, and nothing more. -/
  | first : S.Balks s x → S.Equates s z [] s x → Combines S s x y z how
  /-- It does what the second one does after the first if the first succeeds and the second does
  not, and nothing more. -/
  | second {us : List U} {v : Value H.Data H.Fn} {s' : σ} :
      S.Settles s x us (.ok v) s' → S.Balks s' y → S.Equates s z us s' y → Combines S s x y z how
  /-- If both succeed, their values are combined next. -/
  | both {us us' : List U} {v w : Value H.Data H.Fn} {s₁ s₂ : σ} :
      S.Settles s x us (.ok v) s₁ → S.Settles s₁ y us' (.ok w) s₂ →
        (∀ rest, ∃ i, S.Leads s ⟨.node z, rest⟩ (us ++ us') s₂ i ∧
          i.step = follow rest (how.plan v w)) → Combines S s x y z how

/-- An effect that does not succeed looks the same above continuations that failures pass. -/
theorem Balks.alike_above {rest : List (Frame H.Data H.Fn)} (h : S.Balks s x)
    (above : List (Frame H.Data H.Fn))
    (hpass : ∀ s v, S.Leads s (settle (.settled (.error v)) (above ++ rest)) [] s
      (settle (.settled (.error v)) rest)) :
    S.Alike s ⟨.node x, above ++ rest⟩ s ⟨.node x, rest⟩ := by
  refine .of_settled fun us o s' hsettles => ?_
  cases o with
  | ok v => exact absurd hsettles (h us v s')
  | error v => exact .of_leads (hpass s' v) .refl (.refl _ _)

theorem leads_second {k : Bind H.Data H.Fn} {above : Value H.Data H.Fn → List (Frame H.Data H.Fn)}
    (hk : k.Proceeds a y above) (hx : S.Settles s x us (.ok v) s₁) (hv : v.ty = a)
    (rest : List (Frame H.Data H.Fn)) :
    S.Leads s ⟨.node (.flatMap x k), rest⟩ us s₁ ⟨.node y, above v ++ rest⟩ := by
  have hleads := (leads_source s x k rest).trans ((hx _).trans (leads_proceeds hk hv s₁ rest))
  rwa [List.nil_append, List.append_nil] at hleads

theorem combines {x : Effect H.Data H.Fn a e} {y : Effect H.Data H.Fn b e}
    (hx : ∀ s, S.Types s x) (hy : ∀ s, S.Types s y) (how : Combine H.Fn) (s : σ) :
    S.Combines s x.node y.node (x.combine y how : Effect H.Data H.Fn c e).node how := by
  have hk := Bind.proceeds_andThen a b y.node how
  by_cases hfirst : S.Balks s x.node
  · refine .first hfirst (.of_alike fun rest => ?_)
    exact .of_leads (leads_source s x.node _ rest) .refl
      (hfirst.alike_above [_] fun s v => .of_next rfl .refl)
  · simp only [Balks, Classical.not_forall, Classical.not_not] at hfirst
    obtain ⟨us, v, s₁, hv⟩ := hfirst
    have hsecond := leads_second hk hv (hx _ _ _ _ hv)
    by_cases hbalks : S.Balks s₁ y.node
    · refine .second hv hbalks (.of_seen fun rest => ?_)
      exact (hsecond rest).agree.trans (Sight.Agree.append _
        (hbalks.alike_above _ fun s v => .of_next rfl .refl))
    · simp only [Balks, Classical.not_forall, Classical.not_not] at hbalks
      obtain ⟨us', w, s₂, hw⟩ := hbalks
      refine .both hv hw fun rest => ⟨_, (hsecond rest).trans (hw _), ?_⟩
      exact congrArg (follow rest) (Frame.plan_combine (hy _ _ _ _ hw) how)

/-- An effect that runs the second one in place of the continuation does what that one does after
the success of the first, and otherwise what the first one does. -/
theorem productR_cases {x : Effect H.Data H.Fn a e} (hx : ∀ s, S.Types s x)
    (y : Effect H.Data H.Fn b e) (s : σ) :
    (S.Balks s x.node ∧ S.Equates s (x.productR y).node [] s x.node) ∨
      ∃ us v s₁, S.Settles s x.node us (.ok v) s₁ ∧
        S.Equates s (x.productR y).node us s₁ y.node := by
  by_cases hfirst : S.Balks s x.node
  · refine .inl ⟨hfirst, .of_alike fun rest => ?_⟩
    exact .of_leads (leads_source s x.node _ rest) .refl
      (hfirst.alike_above [_] fun s v => .of_next rfl .refl)
  · simp only [Balks, Classical.not_forall, Classical.not_not] at hfirst
    obtain ⟨us, v, s₁, hv⟩ := hfirst
    exact .inr ⟨us, v, s₁, hv,
      .of_leads (leads_second (Bind.proceeds_next a y.node) hv (hx _ _ _ _ hv))⟩

end

end Setting

namespace Run

variable {H : Host}

section

variable (r : Run H) (b : Nat) (p : Place) (a : Ty) (x y : Node H.Data H.Fn)
  (k : Bind H.Data H.Fn) (above : Value H.Data H.Fn → List (Frame H.Data H.Fn))
  (rest : List (Frame H.Data H.Fn))

/-- The interpretation that is at `p` at time `b` has done nothing but to run the first effect, from
`n` actions later on, and after `m` actions the effect has settled. -/
structure HasRun (n m : Nat) (o : Outcome H.Data H.Fn) : Prop where
  opening : r.IsStill b p (.driving ⟨.node (.flatMap x k), rest⟩) 0 n
  evaluates : r.Evaluates b p x (.bind k :: rest) n m o

/-- After `n` actions it is the turn of the second effect: the first one has succeeded with a value
of its type. -/
structure IsSecond (v : Value H.Data H.Fn) (n : Nat) : Prop where
  ty_eq : v.ty = a
  succeeded : ∃ l m, r.HasRun b p x k rest l m (.ok v) ∧ m < n ∧
    r.IsStill b p (.driving (.settle (.settled (.ok v)) (.bind k :: rest))) m n

/-- What an interpretation that combines two effects is at after `n` actions. -/
inductive Combining (n : Nat) : Prop where
  /-- It has run none of them. -/
  | opening : r.IsStill b p (.driving ⟨.node (.flatMap x k), rest⟩) 0 (n + 1) → Combining n
  /-- It runs the first one. -/
  | first {m : Nat} :
      r.IsStill b p (.driving ⟨.node (.flatMap x k), rest⟩) 0 m → m ≤ n →
        r.IsRunning b p x (.bind k :: rest) m (n + 1) → Combining n
  /-- The first one has settled. -/
  | settled {l m : Nat} {o : Outcome H.Data H.Fn} :
      r.HasRun b p x k rest l m o → m ≤ n →
        r.IsStill b p (.driving (.settle (.settled o) (.bind k :: rest))) m (n + 1) → Combining n
  /-- It runs the second one, and what the first one left is in the continuations below. -/
  | second {m : Nat} {v : Value H.Data H.Fn} :
      r.IsSecond b p a x k rest v m → m ≤ n → r.IsRunning b p y (above v ++ rest) m (n + 1) →
        Combining n

/-- How an interpretation that combines two effects has come to an end of running them after `n`
actions. -/
inductive Combined (n : Nat) : Prop where
  /-- The second one has settled above what the first one left. -/
  | second {m : Nat} {v : Value H.Data H.Fn} {o : Outcome H.Data H.Fn} :
      r.IsSecond b p a x k rest v m → r.Evaluates b p y (above v ++ rest) m n o → Combined n
  /-- The first one has failed, and it goes on with the failure. -/
  | failed {l m : Nat} {v : Value H.Data H.Fn} :
      r.HasRun b p x k rest l m (.error v) → m < n →
        r.IsStill b p (.driving (.settle (.settled (.error v)) (.bind k :: rest))) m n →
          r.stage b p n = some (.driving (.settle (.settled (.error v)) rest)) → Combined n
  /-- The first one has succeeded with a value of another type, and this is a panic. -/
  | mismatched {l m : Nat} {v : Value H.Data H.Fn} :
      r.HasRun b p x k rest l m (.ok v) → v.ty ≠ a → m < n →
        r.IsStill b p (.driving (.settle (.settled (.ok v)) (.bind k :: rest))) m n →
          r.stage b p n = some (.driving (.settle (.panicked mismatch) rest)) → Combined n
  /-- The first one has panicked, and it is over. -/
  | panickedFirst {m : Nat} {payload : Payload} :
      r.IsStill b p (.driving ⟨.node (.flatMap x k), rest⟩) 0 m → m < n →
        r.IsRunning b p x (.bind k :: rest) m n →
          r.stage b p n = some (.concluding (.panicked payload)) → Combined n
  /-- The second one has panicked, and it is over. -/
  | panickedSecond {m : Nat} {v : Value H.Data H.Fn} {payload : Payload} :
      r.IsSecond b p a x k rest v m → m < n → r.IsRunning b p y (above v ++ rest) m n →
        r.stage b p n = some (.concluding (.panicked payload)) → Combined n

end

section

variable {r : Run H} {b n : Nat} {p : Place} {x y : Node H.Data H.Fn} {k : Bind H.Data H.Fn}
  {above : Value H.Data H.Fn → List (Frame H.Data H.Fn)} {frames rest : List (Frame H.Data H.Fn)}
  {now : Stage H.Data H.Fn} {finish : Finish H.Fn} {z : Pending H.Data H.Fn}

theorem IsRunning.one (h : r.stage b p n = some (.driving ⟨.node x, frames⟩)) :
    r.IsRunning b p x frames n (n + 1) := by
  refine ⟨h, fun {k} hk hlt => ?_⟩
  obtain rfl : k = n := by omega
  exact ⟨_, h, Stage.isWithin_node x _⟩

/-- What an interpretation that combines two effects does next. -/
theorem Combining.next (hp : (r.world b).pendingAt p = some z) (hk : k.Proceeds a y above)
    (h : r.Combining b p a x y k above rest n) (hs : r.stage b p (n + 1) = some now) :
    r.Combining b p a x y k above rest (n + 1) ∨ r.Combined b p a x y k above rest (n + 1) := by
  cases h with
  | opening hstill =>
      have hstage := hstill n (Nat.zero_le n) (Nat.lt_succ_self n)
      rcases driving_or_driving hp hstage rfl hs with hstays | hnext
      · exact .inl (.opening (hstill.snoc hstays))
      · exact .inl (.first hstill (Nat.le_refl _) (.one hnext))
  | @first m hstill hm hrunning =>
      rcases hrunning.next hp hm hs with hstays | ⟨o, hevaluates⟩ | ⟨payload, rfl⟩
      · exact .inl (.first hstill (Nat.le_succ_of_le hm) hstays)
      · exact .inl (.settled ⟨hstill, hevaluates⟩ (Nat.le_refl _) (.one hevaluates.settles))
      · exact .inr (.panickedFirst hstill (Nat.lt_succ_of_le hm) hrunning hs)
  | @settled l m o hrun hm hstill =>
      have hstage := hstill n hm (Nat.lt_succ_self n)
      have hstays (hsame : r.stage b p (n + 1) =
          some (.driving (.settle (.settled o) (.bind k :: rest)))) :
          r.Combining b p a x y k above rest (n + 1) :=
        .settled hrun (Nat.le_succ_of_le hm) (hstill.snoc hsame)
      cases o with
      | error v =>
          rcases driving_or_driving hp hstage rfl hs with hsame | hnext
          · exact .inl (hstays hsame)
          · exact .inr (.failed hrun (Nat.lt_succ_of_le hm) hstill hnext)
      | ok v =>
          by_cases hv : v.ty = a
          · rcases driving_or_driving hp hstage (hk.step_runs hv rest) hs with hsame | hnext
            · exact .inl (hstays hsame)
            · exact .inl (.second ⟨hv, l, m, hrun, Nat.lt_succ_of_le hm, hstill⟩ (Nat.le_refl _)
                (.one hnext))
          · rcases driving_or_driving hp hstage (hk.step_refuses hv rest) hs with hsame | hnext
            · exact .inl (hstays hsame)
            · exact .inr (.mismatched hrun hv (Nat.lt_succ_of_le hm) hstill hnext)
  | @second m v hsecond hm hrunning =>
      rcases hrunning.next hp hm hs with hstays | ⟨o, hevaluates⟩ | ⟨payload, rfl⟩
      · exact .inl (.second hsecond (Nat.le_succ_of_le hm) hstays)
      · exact .inr (.second hsecond hevaluates)
      · exact .inr (.panickedSecond hsecond (Nat.lt_succ_of_le hm) hrunning hs)

/-- As long as it is under way, an interpretation that combines two effects runs the second one
after the success of the first one, or has come to an end of that. -/
theorem combining_or_combined
    (hp : (r.world b).pendingAt p = some (.driving ⟨.node (.flatMap x k), rest⟩, finish))
    (hk : k.Proceeds a y above) (hs : r.stage b p n = some now) :
    r.Combining b p a x y k above rest n ∨
      ∃ m, m ≤ n ∧ r.Combined b p a x y k above rest m := by
  induction n generalizing now with
  | zero => exact .inl (.opening (.one ((r.stage_eq_some hp).2 ⟨p, rfl, hp⟩)))
  | succ n ih =>
      cases hbefore : r.stage b p n with
      | none =>
          rw [r.stage_eq_none_of_le hp hbefore (Nat.le_succ n)] at hs
          contradiction
      | some before =>
          rcases ih hbefore with hcombining | ⟨m, hm, hcombined⟩
          · rcases hcombining.next hp hk hs with hnext | hnext
            · exact .inl hnext
            · exact .inr ⟨n + 1, Nat.le_refl _, hnext⟩
          · exact .inr ⟨m, Nat.le_succ_of_le hm, hcombined⟩

end

end Run

namespace Effect

variable {H : Host}

/-- Two effects whose values are combined are run one after the other, in whatever run and whatever
else goes on there, and the value that is combined with the second one is that of the same
interpretation. In a setting a function gets the two values if both effects succeed, and otherwise
the first that does not succeed is the last thing that is run. The function `g` builds the second
effect, mapped by a function that does what `f` does with both values. -/
theorem combine_in_turn (x : Effect H.Data H.Fn a e) (y : Effect H.Data H.Fn b e) :
    (∀ (r : Run H) t p rest finish how,
      (r.world t).pendingAt p =
        some (.driving ⟨.node (x.combine y how : Effect H.Data H.Fn c e).node, rest⟩, finish) →
          ∀ n stage, r.stage t p n = some stage →
            r.Combining t p a x.node y.node (.andThen a b y.node how)
              (Bind.combining b how) rest n ∨
              ∃ m, m ≤ n ∧ r.Combined t p a x.node y.node (.andThen a b y.node how)
                (Bind.combining b how) rest m) ∧
      (∀ (r : Run H) t p rest finish,
        (r.world t).pendingAt p = some (.driving ⟨.node (x.productR y).node, rest⟩, finish) →
          ∀ n stage, r.stage t p n = some stage →
            r.Combining t p a x.node y.node (.next a y.node) (fun _ => []) rest n ∨
              ∃ m, m ≤ n ∧
                r.Combined t p a x.node y.node (.next a y.node) (fun _ => []) rest m) ∧
      ∀ S : Setting H.Data H.Fn U σ, (∀ s, S.Types s x) → (∀ s, S.Types s y) →
        (∀ s how, S.Combines s x.node y.node (x.combine y how : Effect H.Data H.Fn c e).node how) ∧
          (∀ s, (S.Balks s x.node ∧ S.Equates s (x.productR y).node [] s x.node) ∨
            ∃ us v s₁, S.Settles s x.node us (.ok v) s₁ ∧
              S.Equates s (x.productR y).node us s₁ y.node) ∧
          (∀ f g, S.Curries g f a c y → ∀ s,
            S.Equates s (x.map2 y f : Effect H.Data H.Fn c e).node [] s
              (x.flatMap g : Effect H.Data H.Fn c e).node) ∧
          (∀ f, S.Picks f a b (fun _ w => w) → ∀ s, S.Equates s (x.productR y).node [] s
            (x.map2 y f : Effect H.Data H.Fn b e).node) ∧
          (∀ f, S.Picks f a b (fun v _ => v) → ∀ s, S.Equates s (x.productL y).node [] s
            (x.map2 y f : Effect H.Data H.Fn a e).node) ∧
          ∀ f, S.Picks f a b .pair → ∀ s, S.Equates s (x.tuple2 y).node [] s
            (x.map2 y f : Effect H.Data H.Fn (.pair a b) e).node := by
  refine ⟨fun r t p rest finish how hp n stage hs =>
      Run.combining_or_combined hp (Bind.proceeds_andThen a b y.node how) hs,
    fun r t p rest finish hp n stage hs =>
      Run.combining_or_combined hp (Bind.proceeds_next a y.node) hs,
    fun S hx hy => ⟨fun s how => Setting.combines hx hy how s, Setting.productR_cases hx y,
      fun f g hg s => ?_, fun f hf s => ?_, fun f hf s => ?_, fun f hf s => ?_⟩⟩
  · exact .of_alike (Setting.map2_flatMap hg x)
  · exact .of_alike (Setting.productR_map2 hf x hy)
  · exact .of_alike (Setting.combine_map2 hf (fun _ _ => rfl) x y)
  · exact .of_alike (Setting.combine_map2 hf (fun _ _ => rfl) x y)

end Effect

namespace Drill

def joiner : Owned Nat := ⟨3, ∅⟩

/-- Waits for two lists, one after the other, and calls a function with them. -/
def twofold : Effect Unit Nat .unit .unit := entry.map2 entry joiner

/-- The continuation of `twofold` when the first list has come. -/
def halfway (v : Value Unit Nat) : List (Frame Unit Nat) :=
  Bind.combining (.list .unit) (.user joiner) v

/-- Two futures of one effect are polled. Both wait for their second list when the first one gets
it. -/
def doubling : Script
  | 0 => [.ask (.runAsync .unit .unit twofold.node), .ask (.runAsync .unit .unit twofold.node),
      .ask (.poll .unit .unit 0), .ask (.poll .unit .unit 1),
      .ask (.complete (.node 1) (.ok single)), .ask (.complete (.node 0) (.ok blank)),
      .ask (.complete (.node 3) (.ok single)), .ask (.complete (.node 2) (.ok blank))]
  | _ => []

def doubled : Run (host doubling) := run doubling [] (List.replicate 120 0)

/-- Function 5 builds the effect that calls function 6 with the second list, and 6 does then what 3
does with both. The functions 7 to 9 pick of two lists. -/
def picking : Nat → List (Value Unit Nat) → Value Unit Nat
  | 5, _ => (entry.map ⟨6, ∅⟩ : Effect Unit Nat .unit .unit).toValue
  | 7, [_, w] => w
  | 8, [v, _] => v
  | 9, [v, w] => .pair v w
  | _, _ => .unit

def pickingCalls : Nat → List Nat
  | 2 => [2]
  | 3 | 6 => [3]
  | _ => []

/-- Every node gets the empty list. -/
def pickingSetting : Setting Unit Nat Nat Unit :=
  { setting pickingCalls picking with exit := fun _ _ _ => some (.settled (.ok blank), ()) }

theorem types_entry (s : Unit) : pickingSetting.Types s entry := by
  have hentry : pickingSetting.Settles s entry.node
      (pickingSetting.registers s (.user (.list .unit) .unit ⟨2, ∅⟩) immediateId) (.ok blank) () :=
    fun _ => .of_moves (.suspend rfl rfl)
  intro us o s' hsettles
  obtain ⟨-, rfl, -⟩ := hsettles.unique hentry
  rfl

set_option maxRecDepth 4000 in
theorem pendingAt_one : (doubled.world 8).pendingAt (.thread 0 2) =
    some (.driving ⟨.node twofold.node, []⟩, .channel .unit .unit 0) := by rfl

set_option maxRecDepth 4000 in
theorem pendingAt_other : (doubled.world 28).pendingAt (.thread 0 2) =
    some (.driving ⟨.node twofold.node, []⟩, .channel .unit .unit 1) := by rfl

/-- Whether it runs the two lists of `twofold` in turn. -/
def TakesTurns (b n : Nat) : Prop :=
  doubled.Combining b (.thread 0 2) (.list .unit) entry.node entry.node
      (.andThen (.list .unit) (.list .unit) entry.node (.user joiner)) halfway [] n ∨
    ∃ m, m ≤ n ∧ doubled.Combined b (.thread 0 2) (.list .unit) entry.node entry.node
      (.andThen (.list .unit) (.list .unit) entry.node (.user joiner)) halfway [] m

set_option maxRecDepth 10000 in
/-- Both interpretations are parked at their second node at the same time, each above its own first
list, and each calls the function with its own lists. -/
theorem doubled_in_turn :
    ((∀ n stage, doubled.stage 8 (.thread 0 2) n = some stage → TakesTurns 8 n) ∧
        doubled.stage 8 (.thread 0 2) 78 = some (.parked 3 (halfway blank)) ∧
        doubled.deeds 8 (.thread 0 2) 85 = [.pop (.resume (.combine (.list .unit) blank
          (.user joiner))), .call (.resume (.combine (.list .unit) blank (.user joiner)) single),
            .ask (.call joiner [blank, single])]) ∧
      ((∀ n stage, doubled.stage 28 (.thread 0 2) n = some stage → TakesTurns 28 n) ∧
        doubled.stage 28 (.thread 0 2) 58 = some (.parked 2 (halfway single)) ∧
        doubled.deeds 28 (.thread 0 2) 81 = [.pop (.resume (.combine (.list .unit) single
          (.user joiner))), .call (.resume (.combine (.list .unit) single (.user joiner)) blank),
            .ask (.call joiner [single, blank])]) ∧
      Setting.Combines (H := host doubling) pickingSetting () entry.node entry.node twofold.node
        (.user joiner) ∧
      Setting.Equates (H := host doubling) pickingSetting () twofold.node [] ()
        (entry.flatMap ⟨5, ∅⟩ : Effect Unit Nat .unit .unit).node ∧
      Setting.Equates (H := host doubling) pickingSetting () (entry.productR entry).node [] ()
        (entry.map2 entry ⟨7, ∅⟩ : Effect Unit Nat (.list .unit) .unit).node ∧
      Setting.Equates (H := host doubling) pickingSetting () (entry.productL entry).node [] ()
        (entry.map2 entry ⟨8, ∅⟩ : Effect Unit Nat (.list .unit) .unit).node ∧
      Setting.Equates (H := host doubling) pickingSetting () (entry.tuple2 entry).node [] ()
        (entry.map2 entry ⟨9, ∅⟩ :
          Effect Unit Nat (.pair (.list .unit) (.list .unit)) .unit).node := by
  obtain ⟨hruns, -, hsettings⟩ := Effect.combine_in_turn (H := host doubling) (U := Nat)
    (σ := Unit) (c := .unit) entry entry
  obtain ⟨hcombines, -, hcurries, hsecond, hfirst, hboth⟩ :=
    hsettings pickingSetting types_entry types_entry
  have hcurried : pickingSetting.Curries ⟨5, ∅⟩ joiner (.list .unit) .unit entry :=
    fun _ _ _ => ⟨rfl, ⟨6, ∅⟩, rfl, fun _ _ _ => ⟨rfl, rfl⟩⟩
  have hpicks {f : Owned Nat} {pick : Value Unit Nat → Value Unit Nat → Value Unit Nat}
      (h : ∀ v w, picking f.val [v, w] = pick v w) (hcalls : pickingCalls f.val = []) :
      pickingSetting.Picks f (.list .unit) (.list .unit) pick := fun s v w _ _ =>
    ⟨hcalls, h v w ▸ rfl⟩
  exact ⟨⟨hruns doubled _ _ _ _ (.user joiner) pendingAt_one, rfl, rfl⟩,
    ⟨hruns doubled _ _ _ _ (.user joiner) pendingAt_other, rfl, rfl⟩, hcombines () _,
    hcurries _ _ hcurried (), hsecond _ (hpicks (fun _ _ => rfl) rfl) (),
    hfirst _ (hpicks (fun _ _ => rfl) rfl) (), hboth _ (hpicks (fun _ _ => rfl) rfl) ()⟩

end Drill

end Trampoline
