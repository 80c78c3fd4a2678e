import Trampoline.Proofs.Endings
import Trampoline.Proofs.Gathering
import Trampoline.Proofs.Matching

/-!
Effects in sequence. The next effect is run when those before it have succeeded, and the first that
does not succeed is the last one to be run. The values that have come so far are in the
continuations of the interpretation that has got them, so several interpretations of one effect have
nothing to do with each other.
-/

namespace Trampoline

variable {D F U σ : Type} {item : Ty} {s s' : σ} {x : Node D F} {nodes todo : List (Node D F)}
  {vs : List (Value D F)} {frames rest : List (Frame D F)}

open Interpretation
open Trampoline.Frame (collects adding)

namespace Setting

variable {S : Setting D F U σ} {us : List U}

section Typed

variable {T : Signature D F} {L : Trampoline.Types} {v r a e : Ty} {s s' : σ} {us : List U}
  {i j : Interpretation D F}

/-- The replies and the exits in a setting are of the types that are asked for. -/
structure KeepsTo (S : Setting D F U σ) (T : Signature D F) (L : Trampoline.Types) : Prop where
  reply {s s' : σ} {question : Ask D F} {ty : Ty} {answer : Except Payload (Value D F)} :
    question.HasType T L ty → S.reply s question = some (answer, s') →
      (∀ w, answer = .ok w → w.HasType T L ty) ∧
        ∀ payload, answer = .error payload → T.panics payload
  exit {s s' : σ} {register : Register F} {scheduler : SchedulerId} {a e : Ty}
      {exit : Exit (Outcome D F)} :
    register.HasTypes T L a e → S.exit s register scheduler = some (exit, s') →
      exit.HasTypes T L a e

theorem KeepsTo.hasTypes_of_moves (h : S.KeepsTo T L) (hi : i.HasTypes T L v r)
    (hmoves : S.Moves s i us s' j) : j.HasTypes T L v r := by
  have hstep := hi.step
  cases hmoves with
  | next heq =>
      rw [heq] at hstep
      cases hstep with
      | next hj => exact hj
  | ask heq hreply =>
      rw [heq] at hstep
      cases hstep with
      | ask hquestion hpost hframes =>
          obtain ⟨hanswer, hpanics⟩ := h.reply hquestion hreply
          exact hpost.replied hframes hanswer hpanics
  | suspend heq hexit =>
      rw [heq] at hstep
      cases hstep with
      | suspend hregister hframes => exact .exit (h.exit hregister hexit) hframes

theorem KeepsTo.hasTypes_of_leads (h : S.KeepsTo T L) (hi : i.HasTypes T L v r)
    (hleads : S.Leads s i us s' j) : j.HasTypes T L v r := by
  induction hleads with
  | refl => exact hi
  | step hmoves _ ih => exact ih (h.hasTypes_of_moves hi hmoves)

/-- In a setting that keeps to types an effect settles with what is of its types. -/
theorem KeepsTo.hasTags (h : S.KeepsTo T L) {x : Node D F} (hx : x.HasTypes T L a e)
    {o : Outcome D F} (hsettles : S.Settles s x us o s') : Outcome.HasTags a e o := by
  have hi : (Interpretation.start x).HasTypes T L a e := .node hx .nil
  cases h.hasTypes_of_leads hi (hsettles []) with
  | exit hexit hframes =>
      cases hframes with
      | nil => exact hexit.hasTags o rfl

end Typed

/-- Effects succeed one after another, each from the state on that the one before has left. -/
inductive Collects (S : Setting D F U σ) (item : Ty) :
    σ → List (Node D F) → List U → List (Value D F) → σ → Prop where
  | nil {s : σ} : Collects S item s [] [] [] s
  | cons {s s₁ s' : σ} {x : Node D F} {nodes : List (Node D F)} {us us' : List U} {v : Value D F}
      {vs : List (Value D F)} :
      S.Settles s x us (.ok v) s₁ → v.ty = item → Collects S item s₁ nodes us' vs s' →
        Collects S item s (x :: nodes) (us ++ us') (v :: vs) s'

/-- Whether an effect does not succeed. -/
def Balks (S : Setting D F U σ) (s : σ) (x : Node D F) : Prop :=
  ∀ us v s', ¬S.Settles s x us (.ok v) s'

/-- Whether the values with which some effects succeed are of a type. -/
def Fits (S : Setting D F U σ) (item : Ty) (nodes : List (Node D F)) : Prop :=
  ∀ x ∈ nodes, ∀ s us v s', S.Settles s x us (.ok v) s' → v.ty = item

theorem KeepsTo.fits {T : Signature D F} {L : Trampoline.Types} {e : Ty} {nodes : List (Node D F)}
    (h : S.KeepsTo T L) (hnodes : ∀ x ∈ nodes, x.HasTypes T L item e) : S.Fits item nodes :=
  fun x hx _ _ _ _ hsettles => h.hasTags (hnodes x hx) hsettles

/-- A function that appends two lists and does nothing else. -/
def Appends (S : Setting D F U σ) (f : Owned F) (item : Ty) : Prop :=
  ∀ s us vs, S.calls s (.call f [.list item (.ofList us), .list item (.ofList vs)]) = [] ∧
    S.reply s (.call f [.list item (.ofList us), .list item (.ofList vs)]) =
      some (.ok (.list item (.ofList (us ++ vs))), s)

theorem leads_collectAll (s : σ) (item : Ty) (x : Node D F) (nodes : List (Node D F))
    (frames : List (Frame D F)) :
    S.Leads s ⟨.node (.collectAll item x nodes), frames⟩ [] s
      ⟨.node x, collects item nodes ++ frames⟩ := by
  induction nodes generalizing x with
  | nil => exact .refl
  | cons y nodes ih => exact (ih (.flatMap x (.collect item y))).trans (leads_source s x _ _)

theorem leads_sequence (s : σ) (item : Ty) (nodes : List (Node D F)) (frames : List (Frame D F)) :
    S.Leads s ⟨.node (.sequence item nodes), frames⟩ [] s
      (settle (.settled (.ok (.list item (.ofList [])))) (collects item nodes ++ frames)) :=
  (leads_collectAll s item _ nodes frames).trans (leads_succeed s _ _)

theorem leads_collected (s : σ) (item : Ty) (vs : List (Value D F)) (x : Node D F)
    (todo : List (Node D F)) (rest : List (Frame D F)) :
    S.Leads s
      (settle (.settled (.ok (.list item (.ofList vs)))) (collects item (x :: todo) ++ rest))
      [] s ⟨.node x, adding item vs todo rest⟩ :=
  .of_next (step_collected item vs x todo rest) .refl

theorem leads_adding {v : Value D F} (hv : v.ty = item) (s : σ) (vs : List (Value D F))
    (todo : List (Node D F)) (rest : List (Frame D F)) :
    S.Leads s (settle (.settled (.ok v)) (adding item vs todo rest)) [] s
      (settle (.settled (.ok (.list item (.ofList (vs ++ [v]))))) (collects item todo ++ rest)) :=
  .of_next (step_adding hv vs todo rest) .refl

/-- A failure passes the continuations that collect values. -/
theorem leads_failed (s : σ) (item : Ty) (v : Value D F) (todo : List (Node D F))
    (rest : List (Frame D F)) :
    S.Leads s (settle (.settled (.error v)) (collects item todo ++ rest)) [] s
      (settle (.settled (.error v)) rest) := by
  induction todo with
  | nil => exact .refl
  | cons y todo ih => exact .of_next rfl ih

theorem leads_failed_adding (s : σ) (item : Ty) (vs : List (Value D F)) (v : Value D F)
    (todo : List (Node D F)) (rest : List (Frame D F)) :
    S.Leads s (settle (.settled (.error v)) (adding item vs todo rest)) [] s
      (settle (.settled (.error v)) rest) :=
  .of_next rfl (leads_failed s item v todo rest)

theorem leads_mismatched {v : Value D F} (hv : v.ty ≠ item) (s : σ) (vs : List (Value D F))
    (todo : List (Node D F)) (rest : List (Frame D F)) :
    S.Leads s (settle (.settled (.ok v)) (adding item vs todo rest)) [] s
      (settle (.panicked mismatch) (collects item todo ++ rest)) := by
  have hplan : (Frame.resume (.append item (.ofList vs))).plan (.ok v) = .raise mismatch :=
    if_neg hv
  exact leads_raise hplan _

namespace Collects

theorem length_eq (h : S.Collects item s nodes us vs s') : vs.length = nodes.length := by
  induction h with
  | nil => rfl
  | cons _ _ _ ih => exact congrArg (· + 1) ih

/-- Effects that succeed add their values to those which have come before. -/
theorem leads (h : S.Collects item s nodes us vs s') (before : List (Value D F))
    (todo : List (Node D F)) (rest : List (Frame D F)) :
    S.Leads s
      (settle (.settled (.ok (.list item (.ofList before))))
        (collects item (nodes ++ todo) ++ rest))
      us s'
      (settle (.settled (.ok (.list item (.ofList (before ++ vs)))))
        (collects item todo ++ rest)) := by
  induction h generalizing before with
  | nil =>
      rw [List.append_nil]
      exact .refl
  | @cons s s₁ s' x nodes us us' v vs hsettles hv _ ih =>
      have hrest := ih (before ++ [v])
      rw [List.append_assoc, List.singleton_append] at hrest
      have hfirst := (leads_collected s item before x (nodes ++ todo) rest).trans
        ((hsettles _).trans (leads_adding hv s₁ before (nodes ++ todo) rest))
      rw [List.append_nil, List.nil_append] at hfirst
      exact hfirst.trans hrest

theorem settles (h : S.Collects item s nodes us vs s') :
    S.Settles s (.sequence item nodes) us (.ok (.list item (.ofList vs))) s' := by
  intro frames
  have hleads := h.leads [] [] frames
  rw [List.append_nil] at hleads
  exact (leads_sequence s item nodes frames).trans hleads

/-- When the effects in front have succeeded, the next one is run. -/
theorem leads_next (h : S.Collects item s nodes us vs s') (x : Node D F) (todo : List (Node D F))
    (frames : List (Frame D F)) :
    S.Leads s ⟨.node (.sequence item (nodes ++ x :: todo)), frames⟩ us s'
      ⟨.node x, adding item vs todo frames⟩ := by
  have hleads := (leads_sequence s item (nodes ++ x :: todo) frames).trans
    ((h.leads [] (x :: todo) frames).trans (leads_collected s' item _ x todo frames))
  rw [List.append_nil] at hleads
  exact hleads

end Collects

/-- Effects succeed one after another, or there is a first one that does not. -/
theorem collects_or_balks (s : σ) (hfits : S.Fits item nodes) :
    (∃ us vs s', S.Collects item s nodes us vs s') ∨
      ∃ front x back us vs s', nodes = front ++ x :: back ∧ S.Collects item s front us vs s' ∧
        S.Balks s' x := by
  induction nodes generalizing s with
  | nil => exact .inl ⟨_, _, _, .nil⟩
  | cons x nodes ih =>
      by_cases hx : S.Balks s x
      · exact .inr ⟨[], x, nodes, _, _, s, rfl, .nil, hx⟩
      · simp only [Balks, Classical.not_forall, Classical.not_not] at hx
        obtain ⟨us, v, s₁, hsettles⟩ := hx
        have hv := hfits x List.mem_cons_self s us v s₁ hsettles
        rcases ih s₁ fun y hy => hfits y (List.mem_cons_of_mem x hy) with
          ⟨us', vs, s', hrest⟩ | ⟨front, y, back, us', vs, s', rfl, hfront, hy⟩
        · exact .inl ⟨_, _, _, .cons hsettles hv hrest⟩
        · exact .inr ⟨x :: front, y, back, _, _, s', rfl, .cons hsettles hv hfront, hy⟩

/-- An effect that does not succeed is above the further ones as it is without them. -/
theorem Balks.alike (h : S.Balks s x) (item : Ty) (vs : List (Value D F)) (todo : List (Node D F))
    (rest : List (Frame D F)) :
    S.Alike s ⟨.node x, adding item vs todo rest⟩ s ⟨.node x, rest⟩ := by
  apply Alike.of_settled
  intro us o s' hsettles
  cases o with
  | ok v => exact absurd hsettles (h us v s')
  | error v => exact .of_leads (leads_failed_adding s' item vs v todo rest) .refl (.refl _ _)

/-- If effects in sequence succeed, then with the list of their values. -/
theorem eq_list_of_settles {v : Value D F} (hfits : S.Fits item nodes)
    (h : S.Settles s (.sequence item nodes) us (.ok v) s') : ∃ vs, v = .list item (.ofList vs) := by
  rcases collects_or_balks s hfits with
    ⟨us', vs, s₁, hcollects⟩ | ⟨front, x, back, us', vs, s₁, rfl, hfront, hx⟩
  · obtain ⟨-, heq, -⟩ := h.unique hcollects.settles
    cases heq
    exact ⟨vs, rfl⟩
  · obtain ⟨ws, -, hrest⟩ := (hfront.leads_next x back []).rest (h []) (.finished rfl)
    have hrest : S.Leads s₁ ((start x).onto (adding item vs back [])) ws s' _ := hrest
    rcases hrest.of_onto with ⟨⟨focus, above⟩, heq, -⟩ | ⟨_, _, s₂, o, -, hfirst, hthen⟩
    · simp [settle, onto, adding] at heq
    · cases o with
      | ok w => exact absurd (settles_iff.2 hfirst) (hx _ w s₂)
      | error w =>
          have hfailed := leads_failed_adding (S := S) s₂ item vs w back []
          obtain ⟨-, -, heq⟩ := hfailed.unique hthen (.finished rfl) (.finished rfl)
          cases heq

section Append

variable {f : Owned F}

/-- Whether values are appended to a list one by one, or to an empty one that is appended in the
end, is not seen. -/
theorem Alike.of_appended (hf : S.Appends f item) (first : List (Value D F)) (s : σ)
    (vs : List (Value D F)) (nodes : List (Node D F)) (rest : List (Frame D F)) :
    S.Alike s
      (settle (.settled (.ok (.list item (.ofList (first ++ vs))))) (collects item nodes ++ rest)) s
      (settle (.settled (.ok (.list item (.ofList vs)))) (collects item nodes ++
        .resume (.combine (.list item) (.list item (.ofList first)) (.user f)) :: rest)) := by
  induction nodes generalizing s vs with
  | nil =>
      obtain ⟨hcalls, hreply⟩ := hf s first vs
      have hplan :
          (Frame.resume (.combine (.list item) (.list item (.ofList first)) (.user f))).plan
          (.ok (.list item (.ofList vs))) =
            .ask (.call f [.list item (.ofList first), .list item (.ofList vs)]) .succeed := by
        rw [Frame.plan, Resume.plan]
        exact Value.expect_of_ty rfl
      have hleads := leads_ask hplan hreply rest
      rw [hcalls] at hleads
      exact .of_leads .refl hleads (.refl _ _)
  | cons y nodes ih =>
      refine .of_leads (leads_collected s item _ y nodes rest)
        (leads_collected s item vs y nodes _) (.of_settled fun us o s' _ => ?_)
      cases o with
      | error v =>
          have hlast : S.Leads s' (settle (.settled (.error v))
              (.resume (.combine (.list item) (.list item (.ofList first)) (.user f)) :: rest)) []
                s' (settle (.settled (.error v)) rest) := .of_next rfl .refl
          exact .of_leads (leads_failed_adding s' item _ v nodes rest)
            ((leads_failed_adding s' item vs v nodes _).trans hlast) (.refl _ _)
      | ok v =>
          by_cases hv : v.ty = item
          · have hrest := ih s' (vs ++ [v])
            rw [← List.append_assoc] at hrest
            exact .of_leads (leads_adding hv s' _ nodes rest) (leads_adding hv s' vs nodes _) hrest
          · exact .of_leads (leads_mismatched hv s' _ nodes rest)
              (leads_mismatched hv s' vs nodes _) (.of_panicked _ _ _ _ _)

theorem sequence_append_alike (hf : S.Appends f item) (hfits : S.Fits item nodes) (s : σ)
    (more : List (Node D F)) (frames : List (Frame D F)) :
    S.Alike s ⟨.node (.sequence item (nodes ++ more)), frames⟩ s
      ⟨.node (.flatMap (.sequence item nodes)
        (.andThen (.list item) (.list item) (.sequence item more) (.user f))), frames⟩ := by
  have hleft : S.Leads s ⟨.node (.sequence item (nodes ++ more)), frames⟩ [] s
      ⟨.node (.sequence item nodes), collects item more ++ frames⟩ := by
    rw [Node.sequence, Node.collectAll, List.foldl_append]
    exact leads_collectAll s item (.sequence item nodes) more frames
  refine .of_source hleft (leads_source s _ _ frames) fun us o s' hsettles => ?_
  cases o with
  | error v => exact .of_leads (leads_failed s' item v more frames) (.of_next rfl .refl) (.refl _ _)
  | ok v =>
      obtain ⟨vs, rfl⟩ := eq_list_of_settles hfits hsettles
      have hplan : (Frame.bind (.andThen (.list item) (.list item) (.sequence item more)
          (.user f))).plan (.ok (.list item (.ofList vs))) =
            .answer (.andThen (.sequence item more)
              (.combine (.list item) (.list item (.ofList vs)) (.user f))) := by
        rw [Frame.plan, Bind.plan]
        exact Value.expect_of_ty rfl
      have hright := (leads_answer (S := S) (s := s') hplan frames).trans
        (leads_sequence s' item more _)
      have halike := Alike.of_appended hf vs s' [] more frames
      rw [List.append_nil] at halike
      exact .of_leads .refl hright halike

end Append

section

variable {H : Host} {S : Setting H.Data H.Fn U σ}

/-- What an effect that runs effects in sequence does from a state on. -/
inductive Sequences (S : Setting H.Data H.Fn U σ) (item : Ty) (s : σ)
    (nodes : List (Node H.Data H.Fn)) : Prop where
  /-- It succeeds with the list of their values if they all succeed, one after another. -/
  | values {us : List U} {vs : List (Value H.Data H.Fn)} {s' : σ} :
      S.Collects item s nodes us vs s' → vs.length = nodes.length →
        S.Settles s (.sequence item nodes) us (.ok (.list item (.ofList vs))) s' →
          Sequences S item s nodes
  /-- Otherwise it does what the first effect does that does not succeed, and nothing more. -/
  | first {front back : List (Node H.Data H.Fn)} {x : Node H.Data H.Fn} {us : List U}
      {vs : List (Value H.Data H.Fn)} {s' : σ} :
      nodes = front ++ x :: back → S.Collects item s front us vs s' → S.Balks s' x →
        S.Equates s (.sequence item nodes) us s' x → Sequences S item s nodes

theorem sequences {nodes : List (Node H.Data H.Fn)} (hfits : S.Fits item nodes) (s : σ) :
    S.Sequences item s nodes := by
  rcases collects_or_balks s hfits with
    ⟨us, vs, s', hcollects⟩ | ⟨front, x, back, us, vs, s', rfl, hfront, hx⟩
  · exact .values hcollects hcollects.length_eq hcollects.settles
  · refine .first rfl hfront hx (.of_seen fun frames => ?_)
    exact (hfront.leads_next x back frames).agree.trans
      (Sight.Agree.append _ (hx.alike item vs back frames))

end

end Setting

namespace Progress

variable {progress : Progress D F} {i : Interpretation D F} {below : List (Frame D F)}

@[simp] theorem onto_eq_next :
    progress.onto below = .next i ↔ ∃ j, progress = .next j ∧ j.onto below = i := by
  cases progress <;> simp [onto]

@[simp] theorem onto_eq_ask {question : Ask D F} {post : Post D F} :
    progress.onto below = .ask question post frames ↔
      ∃ above, progress = .ask question post above ∧ above ++ below = frames := by
  cases progress <;> simp [onto, and_assoc]

@[simp] theorem onto_eq_suspend {register : Register F} {scheduler : SchedulerId} :
    progress.onto below = .suspend register scheduler frames ↔
      ∃ above, progress = .suspend register scheduler above ∧ above ++ below = frames := by
  cases progress <;> simp [onto, and_assoc]

@[simp] theorem onto_eq_finish {exit : Exit (Outcome D F)} :
    progress.onto below = .finish exit ↔ progress = .finish exit := by
  cases progress <;> simp [onto]

end Progress

namespace Stage

/-- Whether an interpretation is above some continuations and has not settled there. -/
def IsWithin (frames : List (Frame D F)) (stage : Stage D F) : Prop :=
  (∃ above, stage.frames? = some (above ++ frames)) ∧
    ∀ o, stage ≠ .driving (.settle (.settled o) frames)

theorem isWithin_node (x : Node D F) (frames : List (Frame D F)) :
    (driving ⟨.node x, frames⟩).IsWithin frames :=
  ⟨⟨[], rfl⟩, fun o => by simp [settle]⟩

/-- How an interpretation goes on that is above some continuations: it stays there, settles or
panics. -/
def StaysOrEnds (frames : List (Frame D F)) (stage : Stage D F) : Prop :=
  stage.IsWithin frames ∨ (∃ o, stage = .driving (.settle (.settled o) frames)) ∨
    ∃ payload, stage = .concluding (.panicked payload)

theorem staysOrEnds_driving (i : Interpretation D F) (frames : List (Frame D F)) :
    (driving (i.onto frames)).StaysOrEnds frames := by
  by_cases h : ∃ o, driving (i.onto frames) = .driving (.settle (.settled o) frames)
  · exact .inr (.inl h)
  · exact .inl ⟨⟨i.frames, rfl⟩, fun o ho => h ⟨o, ho⟩⟩

theorem staysOrEnds_of_frames? {stage : Stage D F} {above : List (Frame D F)}
    (h : stage.frames? = some (above ++ frames)) (hdriving : ∀ i, stage ≠ .driving i) :
    stage.StaysOrEnds frames :=
  .inl ⟨⟨above, h⟩, fun _ => hdriving _⟩

/-- Until an interpretation has settled, a step makes no difference to the continuations below. -/
theorem IsWithin.exists_onto {i : Interpretation D F} (h : (driving i).IsWithin frames) :
    ∃ j : Interpretation D F, (∀ o, j ≠ settle (.settled o) []) ∧
      i.step = j.step.onto frames := by
  obtain ⟨⟨above, habove⟩, hsettled⟩ := h
  obtain ⟨focus, frames'⟩ := i
  obtain rfl : frames' = above ++ frames := Option.some.inj habove
  have hj : ∀ o, (⟨focus, above⟩ : Interpretation D F) ≠ settle (.settled o) [] := by
    intro o ho
    cases ho
    exact hsettled o rfl
  exact ⟨⟨focus, above⟩, hj, step_onto hj frames⟩

/-- What is above some continuations stays there until it settles, unless it panics. -/
theorem IsWithin.goes {stage stage' : Stage D F} {deeds : List (Deed D F)}
    (h : stage.IsWithin frames) (hgoes : stage.Goes deeds (some stage')) :
    stage'.StaysOrEnds frames := by
  obtain ⟨above, habove⟩ := h.1
  cases hgoes with
  | rest => exact .inl h
  | registered _ => exact .inl h
  | step hstep =>
      cases hstep with
      | next hnext =>
          obtain ⟨j, -, hj⟩ := h.exists_onto
          obtain ⟨j', -, rfl⟩ := Progress.onto_eq_next.1 (hj.symm.trans hnext)
          exact staysOrEnds_driving j' frames
      | ask hask =>
          obtain ⟨j, -, hj⟩ := h.exists_onto
          obtain ⟨above', -, rfl⟩ := Progress.onto_eq_ask.1 (hj.symm.trans hask)
          exact staysOrEnds_of_frames? rfl (by simp)
      | suspend hsuspend =>
          obtain ⟨j, -, hj⟩ := h.exists_onto
          obtain ⟨above', -, rfl⟩ := Progress.onto_eq_suspend.1 (hj.symm.trans hsuspend)
          exact staysOrEnds_of_frames? rfl (by simp)
      | finish hfinish =>
          obtain ⟨j, hsettled, hj⟩ := h.exists_onto
          rcases of_step_finish (Progress.onto_eq_finish.1 (hj.symm.trans hfinish)) with
            ⟨o, rfl, heq⟩ | ⟨payload, _, rfl, -⟩
          · exact absurd heq (hsettled o)
          · exact .inr (.inr ⟨payload, rfl⟩)
      | @reply post _ reply =>
          obtain rfl := Option.some.inj habove
          rw [← onto_reply]
          exact staysOrEnds_driving (.reply post above reply) frames
      | @inline _ _ exit =>
          obtain rfl := Option.some.inj habove
          rw [← onto_settle]
          exact staysOrEnds_driving (settle exit above) frames
      | @resume _ exit =>
          obtain rfl := Option.some.inj habove
          rw [← onto_settle]
          exact staysOrEnds_driving (settle exit above) frames
      | submitted => exact staysOrEnds_of_frames? habove (by simp)
      | park => exact staysOrEnds_of_frames? habove (by simp)
      | deliver => exact staysOrEnds_of_frames? habove (by simp)

/-- An interpretation that goes on by itself is as it was, or has taken its step. -/
theorem Goes.of_next {i j : Interpretation D F} {deeds : List (Deed D F)} {stage : Stage D F}
    (h : (driving i).Goes deeds (some stage)) (hstep : i.step = .next j) :
    stage = .driving i ∨ stage = .driving j := by
  cases h with
  | rest => exact .inl rfl
  | registered hnode => contradiction
  | step h =>
      cases h with
      | next hnext =>
          rw [hstep] at hnext
          cases hnext
          exact .inr rfl
      | _ => simp_all

/-- The values of some effects have come, and the further ones are to be run. -/
abbrev collected (item : Ty) (vs : List (Value D F)) (todo : List (Node D F))
    (rest : List (Frame D F)) : Stage D F :=
  .driving (.settle (.settled (.ok (.list item (.ofList vs)))) (collects item todo ++ rest))

/-- The value of an effect is about to be added to those of the effects before it. -/
abbrev adding (item : Ty) (vs : List (Value D F)) (v : Value D F) (todo : List (Node D F))
    (rest : List (Frame D F)) : Stage D F :=
  .driving (.settle (.settled (.ok v)) (Frame.adding item vs todo rest))

end Stage

/-- A failure passes each of the continuations that collect values. -/
theorem step_failing {frame : Frame D F} {above : List (Frame D F)} {v : Value D F}
    (h : frame :: above <:+ adding item vs todo []) (rest : List (Frame D F)) :
    (settle (.settled (.error v)) (frame :: above ++ rest)).step =
      .next (settle (.settled (.error v)) (above ++ rest)) := by
  have hmem : frame ∈ adding item vs todo [] := h.subset List.mem_cons_self
  cases frame with
  | bind _ => rfl
  | resume _ => rfl
  | reify _ => simp [adding, collects] at hmem

namespace Run

variable {H : Host}

section

variable (r : Run H) (b : Nat) (p : Place)

/-- From `n` actions later on, up to `m`, nothing happens to the interpretation that is at `p` at
time `b`. -/
def IsStill (now : Stage H.Data H.Fn) (n m : Nat) : Prop :=
  ∀ k, n ≤ k → k < m → r.stage b p k = some now

/-- The interpretation that is at `p` at time `b` comes to an effect above some continuations after
`n` actions, and has not settled there before `m`. -/
structure IsRunning (x : Node H.Data H.Fn) (frames : List (Frame H.Data H.Fn)) (n m : Nat) :
    Prop where
  begins : r.stage b p n = some (.driving ⟨.node x, frames⟩)
  within {k : Nat} : n ≤ k → k < m → ∃ stage, r.stage b p k = some stage ∧ stage.IsWithin frames

/-- It settles there for the first time after `m` actions. -/
structure Evaluates (x : Node H.Data H.Fn) (frames : List (Frame H.Data H.Fn)) (n m : Nat)
    (o : Outcome H.Data H.Fn) : Prop extends r.IsRunning b p x frames n m where
  le : n ≤ m
  settles : r.stage b p m = some (.driving (.settle (.settled o) frames))

variable (item : Ty) (rest : List (Frame H.Data H.Fn)) (nodes : List (Node H.Data H.Fn))

/-- After `n` actions an interpretation that runs effects in sequence has run none of them. -/
def IsOpening (n : Nat) : Prop :=
  ∃ front back, nodes = front ++ back ∧
    r.stage b p n = some (.driving ⟨.node (.sequence item front), collects item back ++ rest⟩)

/-- After `n` actions such an interpretation has run some effects one after another, each with
success, and nothing else; the further ones are to be run. -/
inductive HasCollected :
    List (Node H.Data H.Fn × Value H.Data H.Fn) → List (Node H.Data H.Fn) → Nat → Prop where
  | nil {n : Nat} :
      (∀ k, k < n → r.IsOpening b p item rest nodes k) →
        r.stage b p n = some (.collected item [] nodes rest) → HasCollected [] nodes n
  | snoc {done : List (Node H.Data H.Fn × Value H.Data H.Fn)} {x : Node H.Data H.Fn}
      {v : Value H.Data H.Fn} {todo : List (Node H.Data H.Fn)} {k n m l : Nat} :
      HasCollected done (x :: todo) k → k < n →
        r.IsStill b p (.collected item (done.map Prod.snd) (x :: todo) rest) k n →
          r.Evaluates b p x (adding item (done.map Prod.snd) todo rest) n m (.ok v) → m < l →
            r.IsStill b p (.adding item (done.map Prod.snd) v todo rest) m l →
              r.stage b p l = some (.collected item ((done ++ [(x, v)]).map Prod.snd) todo rest) →
                HasCollected (done ++ [(x, v)]) todo l

/-- After `n` actions it is the turn of the effect `x`: those before it have been run. -/
def IsTurn (done : List (Node H.Data H.Fn × Value H.Data H.Fn)) (x : Node H.Data H.Fn)
    (todo : List (Node H.Data H.Fn)) (n : Nat) : Prop :=
  ∃ k, r.HasCollected b p item rest nodes done (x :: todo) k ∧ k < n ∧
    r.IsStill b p (.collected item (done.map Prod.snd) (x :: todo) rest) k n

/-- The failure of an effect passes the further ones. -/
def IsFailing (vs : List (Value H.Data H.Fn)) (todo : List (Node H.Data H.Fn))
    (v : Value H.Data H.Fn) (n : Nat) : Prop :=
  ∃ frame above, frame :: above <:+ adding item vs todo [] ∧
    r.stage b p n = some (.driving (.settle (.settled (.error v)) (frame :: above ++ rest)))

/-- What an interpretation that runs effects in sequence is at after `n` actions. -/
inductive Sequencing (n : Nat) : Prop where
  /-- It has run none of the effects. -/
  | opening : (∀ k, k ≤ n → r.IsOpening b p item rest nodes k) → Sequencing n
  /-- It is about to run the next effect. -/
  | collected {done : List (Node H.Data H.Fn × Value H.Data H.Fn)} {x : Node H.Data H.Fn}
      {todo : List (Node H.Data H.Fn)} :
      r.IsTurn b p item rest nodes done x todo (n + 1) → Sequencing n
  /-- It runs the next effect. -/
  | running {done : List (Node H.Data H.Fn × Value H.Data H.Fn)} {x : Node H.Data H.Fn}
      {todo : List (Node H.Data H.Fn)} {m : Nat} :
      r.IsTurn b p item rest nodes done x todo m → m ≤ n →
        r.IsRunning b p x (adding item (done.map Prod.snd) todo rest) m (n + 1) → Sequencing n
  /-- This effect has succeeded. -/
  | succeeded {done : List (Node H.Data H.Fn × Value H.Data H.Fn)} {x : Node H.Data H.Fn}
      {v : Value H.Data H.Fn} {todo : List (Node H.Data H.Fn)} {m l : Nat} :
      r.IsTurn b p item rest nodes done x todo m →
        r.Evaluates b p x (adding item (done.map Prod.snd) todo rest) m l (.ok v) → l ≤ n →
          r.IsStill b p (.adding item (done.map Prod.snd) v todo rest) l (n + 1) → Sequencing n
  /-- This effect has failed. -/
  | failed {done : List (Node H.Data H.Fn × Value H.Data H.Fn)} {x : Node H.Data H.Fn}
      {v : Value H.Data H.Fn} {todo : List (Node H.Data H.Fn)} {m l : Nat} :
      r.IsTurn b p item rest nodes done x todo m →
        r.Evaluates b p x (adding item (done.map Prod.snd) todo rest) m l (.error v) → l ≤ n →
          (∀ k, l ≤ k → k ≤ n → r.IsFailing b p item rest (done.map Prod.snd) todo v k) →
            Sequencing n

/-- How an interpretation that runs effects in sequence comes to an end of it after `n` actions. -/
inductive Sequenced (n : Nat) : Prop where
  /-- All effects have succeeded, and it goes on with the list of their values. -/
  | values {done : List (Node H.Data H.Fn × Value H.Data H.Fn)} :
      r.HasCollected b p item rest nodes done [] n → done.map Prod.fst = nodes →
        r.stage b p n = some (.driving
            (.settle (.settled (.ok (.list item (.ofList (done.map Prod.snd))))) rest)) →
          Sequenced n
  /-- An effect has failed, and it goes on with the failure. -/
  | failed {done : List (Node H.Data H.Fn × Value H.Data H.Fn)} {x : Node H.Data H.Fn}
      {v : Value H.Data H.Fn} {todo : List (Node H.Data H.Fn)} {m l : Nat} :
      r.IsTurn b p item rest nodes done x todo m →
        r.Evaluates b p x (adding item (done.map Prod.snd) todo rest) m l (.error v) → l < n →
          (∀ k, l ≤ k → k < n → r.IsFailing b p item rest (done.map Prod.snd) todo v k) →
            r.stage b p n = some (.driving (.settle (.settled (.error v)) rest)) → Sequenced n
  /-- An effect has panicked, and it is over. -/
  | panicked {done : List (Node H.Data H.Fn × Value H.Data H.Fn)} {x : Node H.Data H.Fn}
      {todo : List (Node H.Data H.Fn)} {m : Nat} {payload : Payload} :
      r.IsTurn b p item rest nodes done x todo m → m < n →
        r.IsRunning b p x (adding item (done.map Prod.snd) todo rest) m n →
          r.stage b p n = some (.concluding (.panicked payload)) → Sequenced n

/-- Only values of a type are added to the list. -/
def AddsOnly : Prop :=
  ∀ n vs v todo, r.stage b p n = some (.adding item vs v todo rest) → v.ty = item

end

section

variable {r : Run H} {b n m l : Nat} {p : Place} {x : Node H.Data H.Fn}
  {nodes todo : List (Node H.Data H.Fn)} {frames rest : List (Frame H.Data H.Fn)}
  {now : Stage H.Data H.Fn} {finish : Finish H.Fn} {y : Pending H.Data H.Fn}
  {done : List (Node H.Data H.Fn × Value H.Data H.Fn)}

/-- Where the host program keeps to types, an effect of a sequence succeeds with a value of its
type. -/
theorem IsTyped.addsOnly (h : r.IsTyped)
    (hp : (r.world b).pendingAt p = some y) : r.AddsOnly b p item rest := by
  obtain ⟨T, -, htypes⟩ := h.types
  intro n vs v todo hs
  obtain ⟨L, _, _, _, _, hv, hframe⟩ := hasTypes_of_settled htypes hp hs
  cases hframe with
  | resume hresume =>
      cases hresume with
      | append _ => exact hv.hasTags

theorem IsStill.snoc (h : r.IsStill b p now n m) (hs : r.stage b p m = some now) :
    r.IsStill b p now n (m + 1) := by
  intro k hnk hk
  rcases Nat.lt_succ_iff_lt_or_eq.1 hk with hlt | rfl
  · exact h k hnk hlt
  · exact hs

theorem IsStill.one (hs : r.stage b p n = some now) : r.IsStill b p now n (n + 1) :=
  IsStill.snoc (fun _ hnk hk => absurd hk (Nat.not_lt.2 hnk)) hs

theorem HasCollected.stage (h : r.HasCollected b p item rest nodes done todo n) :
    r.stage b p n = some (.collected item (done.map Prod.snd) todo rest) := by
  cases h with
  | nil _ hstage => exact hstage
  | snoc _ _ _ _ _ _ hstage => exact hstage

theorem HasCollected.split (h : r.HasCollected b p item rest nodes done todo n) :
    nodes = done.map Prod.fst ++ todo := by
  induction h with
  | nil _ _ => rfl
  | snoc _ _ _ _ _ _ _ ih => simpa using ih

/-- Values have come, and if there is no further effect these are all. -/
theorem HasCollected.sequencing_or_sequenced
    (h : r.HasCollected b p item rest nodes done todo n) :
    r.Sequencing b p item rest nodes n ∨ r.Sequenced b p item rest nodes n := by
  cases todo with
  | nil =>
      have hsplit := h.split
      rw [List.append_nil] at hsplit
      exact .inr (.values h hsplit.symm h.stage)
  | cons x todo => exact .inl (.collected ⟨n, h, Nat.lt_succ_self n, .one h.stage⟩)

/-- An effect has settled. -/
theorem Evaluates.sequencing {o : Outcome H.Data H.Fn}
    (h : r.Evaluates b p x (adding item (done.map Prod.snd) todo rest) m n o)
    (hturn : r.IsTurn b p item rest nodes done x todo m) :
    r.Sequencing b p item rest nodes n := by
  cases o with
  | ok v => exact .succeeded hturn h (Nat.le_refl n) (.one h.settles)
  | error v =>
      refine .failed hturn h (Nat.le_refl n) fun k hnk hk => ?_
      obtain rfl := Nat.le_antisymm hk hnk
      refine ⟨_, _, List.suffix_refl _, ?_⟩
      rw [h.settles]
      simp [adding]

variable (hp : (r.world b).pendingAt p = some y)

include hp

theorem goes_of_stage (h : r.stage b p n = some now) :
    now.Goes (r.deeds b p n) (r.stage b p (n + 1)) :=
  (r.course hp).goes n now h

/-- An interpretation that runs an effect goes on doing so, or the effect settles or panics. -/
theorem IsRunning.next (h : r.IsRunning b p x frames m (n + 1)) (hm : m ≤ n)
    (hs : r.stage b p (n + 1) = some now) :
    r.IsRunning b p x frames m (n + 2) ∨ (∃ o, r.Evaluates b p x frames m (n + 1) o) ∨
      ∃ payload, now = .concluding (.panicked payload) := by
  obtain ⟨before, hbefore, hwithin⟩ := h.within hm (Nat.lt_succ_self n)
  have hgoes := goes_of_stage hp hbefore
  rw [hs] at hgoes
  rcases hwithin.goes hgoes with hstays | ⟨o, rfl⟩ | hpanics
  · refine .inl ⟨h.begins, fun {k} hmk hk => ?_⟩
    rcases Nat.lt_succ_iff_lt_or_eq.1 hk with hlt | rfl
    · exact h.within hmk hlt
    · exact ⟨now, hs, hstays⟩
  · exact .inr (.inl ⟨o, ⟨h.begins, h.within⟩, Nat.le_succ_of_le hm, hs⟩)
  · exact .inr (.inr hpanics)

theorem driving_or_driving {i j : Interpretation H.Data H.Fn}
    (hbefore : r.stage b p n = some (.driving i)) (hstep : i.step = .next j)
    (hs : r.stage b p (n + 1) = some now) :
    r.stage b p (n + 1) = some (.driving i) ∨ r.stage b p (n + 1) = some (.driving j) := by
  have hgoes := goes_of_stage hp hbefore
  rw [hs] at hgoes ⊢
  rcases hgoes.of_next hstep with rfl | rfl
  · exact .inl rfl
  · exact .inr rfl

/-- As long as no effect has been run, there is one less to come to. -/
theorem opening_next (hopening : ∀ k, k ≤ n → r.IsOpening b p item rest nodes k)
    (hs : r.stage b p (n + 1) = some now) :
    r.Sequencing b p item rest nodes (n + 1) ∨ r.Sequenced b p item rest nodes (n + 1) := by
  have hstays (hnext : r.IsOpening b p item rest nodes (n + 1)) :
      r.Sequencing b p item rest nodes (n + 1) := by
    refine .opening fun k hk => ?_
    rcases Nat.le_succ_iff.1 hk with hle | rfl
    · exact hopening k hle
    · exact hnext
  obtain ⟨front, back, hsplit, hstage⟩ := hopening n (Nat.le_refl n)
  rcases List.eq_nil_or_concat front with rfl | ⟨front, x, rfl⟩
  · obtain rfl : nodes = back := hsplit
    rcases driving_or_driving hp hstage rfl hs with hstill | hnext
    · exact .inl (hstays ⟨[], nodes, rfl, hstill⟩)
    · exact HasCollected.sequencing_or_sequenced
        (.nil (fun k hk => hopening k (Nat.le_of_lt_succ hk)) hnext)
  · rw [List.concat_eq_append] at hsplit hstage
    have hstep : (⟨.node (.sequence item (front ++ [x])), collects item back ++ rest⟩ :
        Interpretation H.Data H.Fn).step =
          .next ⟨.node (.sequence item front), collects item (x :: back) ++ rest⟩ := by
      rw [Node.sequence, Node.collectAll_append_singleton]
      rfl
    rcases driving_or_driving hp hstage hstep hs with hstill | hnext
    · exact .inl (hstays ⟨_, back, hsplit, hstill⟩)
    · exact .inl (hstays ⟨front, x :: back, by simpa using hsplit, hnext⟩)

/-- A failure passes the further effects one by one. -/
theorem failed_next {v : Value H.Data H.Fn} (hturn : r.IsTurn b p item rest nodes done x todo m)
    (hevaluates : r.Evaluates b p x (adding item (done.map Prod.snd) todo rest) m l (.error v))
    (hl : l ≤ n) (hfailing : ∀ k, l ≤ k → k ≤ n →
      r.IsFailing b p item rest (done.map Prod.snd) todo v k)
    (hs : r.stage b p (n + 1) = some now) :
    r.Sequencing b p item rest nodes (n + 1) ∨ r.Sequenced b p item rest nodes (n + 1) := by
  obtain ⟨frame, above, hsuffix, hstage⟩ := hfailing n hl (Nat.le_refl n)
  have hstays (hnext : r.IsFailing b p item rest (done.map Prod.snd) todo v (n + 1)) :
      r.Sequencing b p item rest nodes (n + 1) := by
    refine .failed hturn hevaluates (Nat.le_succ_of_le hl) fun k hlk hk => ?_
    rcases Nat.le_succ_iff.1 hk with hle | rfl
    · exact hfailing k hlk hle
    · exact hnext
  rcases driving_or_driving hp hstage (step_failing hsuffix rest) hs with hstill | hnext
  · exact .inl (hstays ⟨frame, above, hsuffix, hstill⟩)
  · cases above with
    | nil =>
        exact .inr (.failed hturn hevaluates (Nat.lt_succ_of_le hl)
          (fun k hlk hk => hfailing k hlk (Nat.le_of_lt_succ hk)) hnext)
    | cons next above =>
        exact .inl (hstays ⟨next, above, (List.suffix_cons frame _).trans hsuffix, hnext⟩)

/-- What an interpretation that runs effects in sequence does next. -/
theorem Sequencing.next (hadds : r.AddsOnly b p item rest)
    (h : r.Sequencing b p item rest nodes n) (hs : r.stage b p (n + 1) = some now) :
    r.Sequencing b p item rest nodes (n + 1) ∨ r.Sequenced b p item rest nodes (n + 1) := by
  cases h with
  | opening hopening => exact opening_next hp hopening hs
  | @collected done x todo hturn =>
      obtain ⟨k, hcollected, hk, hstill⟩ := hturn
      have hstage := hstill n (Nat.le_of_lt_succ hk) (Nat.lt_succ_self n)
      rcases driving_or_driving hp hstage (step_collected item _ x todo rest) hs with
        hstays | hnext
      · exact .inl (.collected ⟨k, hcollected, Nat.lt_succ_of_lt hk, hstill.snoc hstays⟩)
      · refine .inl (.running ⟨k, hcollected, hk, hstill⟩ (Nat.le_refl _)
          ⟨hnext, fun {k} hk hlt => ?_⟩)
        obtain rfl : k = n + 1 := by omega
        exact ⟨_, hnext, Stage.isWithin_node x _⟩
  | @running done x todo m hturn hm hrunning =>
      rcases hrunning.next hp hm hs with hstays | ⟨o, hevaluates⟩ | ⟨payload, rfl⟩
      · exact .inl (.running hturn (Nat.le_succ_of_le hm) hstays)
      · exact .inl (hevaluates.sequencing hturn)
      · exact .inr (.panicked hturn (Nat.lt_succ_of_le hm) hrunning hs)
  | @succeeded done x v todo m l hturn hevaluates hl hstill =>
      have hstage := hstill n hl (Nat.lt_succ_self n)
      have hv := hadds n _ v todo hstage
      rcases driving_or_driving hp hstage (step_adding hv _ todo rest) hs with hstays | hnext
      · exact .inl (.succeeded hturn hevaluates (Nat.le_succ_of_le hl) (hstill.snoc hstays))
      · obtain ⟨k, hcollected, hk, hbefore⟩ := hturn
        have hdone : (done ++ [(x, v)]).map Prod.snd = done.map Prod.snd ++ [v] := by simp
        rw [← hdone] at hnext
        exact (HasCollected.snoc hcollected hk hbefore hevaluates (Nat.lt_succ_of_le hl) hstill
          hnext).sequencing_or_sequenced
  | failed hturn hevaluates hl hfailing => exact failed_next hp hturn hevaluates hl hfailing hs

omit hp in
/-- As long as it is under way, an interpretation that runs effects in sequence runs one after
another, or has come to an end of that. -/
theorem sequencing_or_sequenced
    (hp : (r.world b).pendingAt p = some (.driving ⟨.node (.sequence item nodes), rest⟩, finish))
    (hadds : r.AddsOnly b p item rest) (hs : r.stage b p n = some now) :
    r.Sequencing b p item rest nodes n ∨ ∃ m, m ≤ n ∧ r.Sequenced b p item rest nodes m := by
  induction n generalizing now with
  | zero =>
      refine .inl (.opening fun k hk => ?_)
      obtain rfl := Nat.le_zero.1 hk
      exact ⟨nodes, [], (List.append_nil nodes).symm, (r.stage_eq_some hp).2 ⟨p, rfl, hp⟩⟩
  | succ n ih =>
      cases hbefore : r.stage b p n with
      | none =>
          rw [r.stage_eq_none_of_le hp hbefore (Nat.le_succ n)] at hs
          contradiction
      | some before =>
          rcases ih hbefore with hsequencing | ⟨m, hm, hsequenced⟩
          · rcases hsequencing.next hp hadds hs with hnext | hnext
            · exact .inl hnext
            · exact .inr ⟨n + 1, Nat.le_refl _, hnext⟩
          · exact .inr ⟨m, Nat.le_succ_of_le hm, hsequenced⟩

end

end Run

namespace Effect

variable {H : Host} {a e : Ty}

/-- Effects in sequence are run one after another, in whatever run and whatever else goes on there,
and their values are those of the same interpretation. In a setting they do what this amounts to, so
it makes no difference where a sequence is split in two. -/
theorem sequence_in_order (xs : List (Effect H.Data H.Fn a e)) :
    (∀ (r : Run H) b p rest finish,
      (r.world b).pendingAt p = some (.driving ⟨.node (sequence xs).node, rest⟩, finish) →
        r.IsTyped ∨ r.AddsOnly b p a rest → ∀ n stage, r.stage b p n = some stage →
          r.Sequencing b p a rest (xs.map Effect.node) n ∨
            ∃ m, m ≤ n ∧ r.Sequenced b p a rest (xs.map Effect.node) m) ∧
      (∀ S : Setting H.Data H.Fn U σ, (∃ T L, S.KeepsTo T L ∧ ∀ x ∈ xs, x.node.HasTypes T L a e) ∨
          S.Fits a (xs.map Effect.node) →
        (∀ s, S.Sequences a s (xs.map Effect.node)) ∧
          ∀ f, S.Appends f a → ∀ s (ys : List (Effect H.Data H.Fn a e)),
            S.Equates s (sequence (xs ++ ys)).node [] s
              ((sequence xs).map2 (sequence ys) f : Effect H.Data H.Fn (.list a) e).node) ∧
        ∀ (α : Type) (items : List α) (f : α → Effect H.Data H.Fn a e), items.map f = xs →
          traverse items f = sequence xs := by
  refine ⟨fun r b p rest finish hp htyped n stage hs => ?_, fun S htyped => ?_, ?_⟩
  · have hadds : r.AddsOnly b p a rest := by
      rcases htyped with htyped | hadds
      · exact htyped.addsOnly hp
      · exact hadds
    exact Run.sequencing_or_sequenced hp hadds hs
  · have hfits : S.Fits a (xs.map Effect.node) := by
      rcases htyped with ⟨T, L, hkeeps, hnodes⟩ | hfits
      · exact hkeeps.fits (List.forall_mem_map.2 hnodes)
      · exact hfits
    refine ⟨fun s => Setting.sequences hfits s, fun f hf s ys => .of_alike fun frames => ?_⟩
    have halike := Setting.sequence_append_alike hf hfits s (ys.map Effect.node) frames
    rw [← List.map_append] at halike
    exact halike
  · rintro α items f rfl
    rfl

end Effect

namespace Drill

/-- An effect that waits for a list. -/
def entry : Effect Unit Nat (.list .unit) .unit := .asyncOn immediateId ⟨2, ∅⟩

def entries : Effect Unit Nat (.list (.list .unit)) .unit := .sequence [entry, entry]

def blank : Value Unit Nat := .list .unit (.ofList [])

def single : Value Unit Nat := .list .unit (.ofList [.unit])

/-- Two futures of one effect are polled, and their nodes are completed in turn, with different
values. -/
def overlapping : Script
  | 0 => [.ask (.runAsync (.list (.list .unit)) .unit entries.node),
      .ask (.runAsync (.list (.list .unit)) .unit entries.node),
      .ask (.poll (.list (.list .unit)) .unit 0), .ask (.poll (.list (.list .unit)) .unit 1),
      .ask (.complete (.node 1) (.ok single)), .ask (.complete (.node 0) (.ok blank)),
      .ask (.complete (.node 2) (.ok single)), .ask (.complete (.node 3) (.ok blank))]
  | _ => []

def overlapped : Run (host overlapping) := run overlapping [] (List.replicate 120 0)

def appended (items : Items Unit Nat) : Items Unit Nat → Items Unit Nat
  | .empty => items
  | .snoc init v => (appended items init).snoc v

def appender : Owned Nat := ⟨9, ∅⟩

/-- Function 9 appends lists. Every node gets the empty list. -/
def entrySetting : Setting Unit Nat Nat Unit where
  reply _ question :=
    match question with
    | .call ⟨9, _⟩ [.list item us, .list _ vs] => some (.ok (.list item (appended us vs)), ())
    | _ => none
  calls _ _ := []
  exit _ _ _ := some (.settled (.ok blank), ())
  registers _ _ _ := [2]

theorem appended_ofList (us vs : List (Value Unit Nat)) :
    appended (.ofList us) (.ofList vs) = .ofList (us ++ vs) := by
  have hfold (items : Items Unit Nat) :
      appended (.ofList us) (vs.foldl .snoc items) =
        vs.foldl .snoc (appended (.ofList us) items) := by
    induction vs generalizing items with
    | nil => rfl
    | cons v vs ih => exact ih (items.snoc v)
  exact (hfold .empty).trans (List.foldl_append ..).symm

theorem entrySetting_appends : entrySetting.Appends appender (.list .unit) := by
  intro s us vs
  refine ⟨rfl, ?_⟩
  rw [← appended_ofList]
  rfl

theorem settles_entry (s : Unit) : entrySetting.Settles s entry.node [2] (.ok blank) () := by
  intro frames
  exact .of_moves (.suspend rfl rfl)

theorem entrySetting_fits : entrySetting.Fits (.list .unit) [entry.node, entry.node] := by
  intro x hx s us v s' hsettles
  obtain rfl : x = entry.node := by simpa using hx
  obtain ⟨-, heq, -⟩ := hsettles.unique (settles_entry s)
  cases heq
  rfl

set_option maxRecDepth 4000 in
theorem pendingAt_first : (overlapped.world 8).pendingAt (.thread 0 2) =
    some (.driving ⟨.node entries.node, []⟩, .channel (.list (.list .unit)) .unit 0) := by rfl

set_option maxRecDepth 4000 in
theorem pendingAt_second : (overlapped.world 31).pendingAt (.thread 0 2) =
    some (.driving ⟨.node entries.node, []⟩, .channel (.list (.list .unit)) .unit 1) := by rfl

/-- Whether a stage adds nothing but lists. -/
def addsLists : Stage Unit Nat → Bool
  | .driving ⟨.exit (.settled (.ok v)), .resume (.append _ _) :: _⟩ => v.ty = .list .unit
  | _ => true

theorem addsOnly_of_check {script : Script} {r : Run (host script)} {b : Nat} {p : Place}
    {x : Pending Unit Nat} (last : Nat) (hp : (r.world b).pendingAt p = some x)
    (hcheck : ∀ n < last, (r.stage b p n).all addsLists) (hover : r.stage b p last = none)
    (rest : List (Frame Unit Nat)) : r.AddsOnly b p (.list .unit) rest := by
  intro n vs v todo hs
  by_cases hn : n < last
  · have hadds := hcheck n hn
    rw [hs] at hadds
    exact of_decide_eq_true hadds
  · rw [r.stage_eq_none_of_le hp hover (Nat.le_of_not_lt hn)] at hs
    contradiction

set_option maxRecDepth 10000 in
/-- The two interpretations have different values. -/
theorem overlapped_in_order :
    ((∀ n stage, overlapped.stage 8 (.thread 0 2) n = some stage →
        overlapped.Sequencing 8 (.thread 0 2) (.list .unit) [] [entry.node, entry.node] n ∨
          ∃ m, m ≤ n ∧
            overlapped.Sequenced 8 (.thread 0 2) (.list .unit) [] [entry.node, entry.node] m) ∧
        overlapped.stage 8 (.thread 0 2) 106 =
          some (.collected (.list .unit) [blank, blank] [] [])) ∧
      ((∀ n stage, overlapped.stage 31 (.thread 0 2) n = some stage →
        overlapped.Sequencing 31 (.thread 0 2) (.list .unit) [] [entry.node, entry.node] n ∨
          ∃ m, m ≤ n ∧
            overlapped.Sequenced 31 (.thread 0 2) (.list .unit) [] [entry.node, entry.node] m) ∧
        overlapped.stage 31 (.thread 0 2) 71 =
          some (.collected (.list .unit) [single, single] [] [])) ∧
      Setting.Sequences (H := host overlapping) entrySetting (.list .unit) ()
        [entry.node, entry.node] ∧
      Setting.Equates (H := host overlapping) entrySetting ()
        (Effect.sequence [entry, entry, entry]).node [] ()
        (entries.map2 (Effect.sequence [entry]) appender :
          Effect Unit Nat (.list (.list .unit)) .unit).node := by
  obtain ⟨hruns, hsettings, -⟩ :=
    Effect.sequence_in_order (H := host overlapping) (U := Nat) (σ := Unit) [entry, entry]
  obtain ⟨hsequences, happend⟩ := hsettings entrySetting (.inr entrySetting_fits)
  have hfirst := addsOnly_of_check 108 pendingAt_first (by decide) rfl []
  have hsecond := addsOnly_of_check 73 pendingAt_second (by decide) rfl []
  exact ⟨⟨hruns overlapped _ _ _ _ pendingAt_first (.inr hfirst), rfl⟩,
    ⟨hruns overlapped _ _ _ _ pendingAt_second (.inr hsecond), rfl⟩, hsequences (),
      happend appender entrySetting_appends () [entry]⟩

end Drill

end Trampoline
