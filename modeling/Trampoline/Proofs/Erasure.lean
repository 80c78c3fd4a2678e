import Mathlib.Data.List.Forall2
import Trampoline.Machine.Turn
import Trampoline.Proofs.Typing

/-!
Types that are erased in an interpretation. A stack of pending continuations leads from the types of
what is in focus to the types of the whole, and every step keeps it so. So a continuation is handed
values of the type that it takes only, and what it makes of them has the types that the continuation
below it takes.
-/

namespace Trampoline

variable {D F : Type} (T : Signature D F) (L : Types)

inductive Outcome.HasTypes : Outcome D F → Ty → Ty → Prop where
  | ok {a e : Ty} {v : Value D F} : v.HasType T L a → HasTypes (.ok v) a e
  | error {a e : Ty} {v : Value D F} : v.HasType T L e → HasTypes (.error v) a e

inductive Exit.HasTypes : Exit (Outcome D F) → Ty → Ty → Prop where
  | settled {a e : Ty} {o : Outcome D F} : Outcome.HasTypes T L o a e → HasTypes (.settled o) a e
  | panicked {a e : Ty} {payload : Payload} :
      T.panics payload → HasTypes (.panicked payload) a e

/-- A one-shot continuation that takes a value of the first type and settles with one of the second
type, or with an error of the third type. -/
inductive Resume.HasTypes : Resume D F → Ty → Ty → Ty → Prop where
  | combine {a b c e : Ty} {first : Value D F} {how : Combine F} :
      first.HasType T L a → how.HasTypes T L a b c → HasTypes (.combine b first how) b c e
  | append {a e : Ty} {items : Items D F} :
      items.HaveType T L a → HasTypes (.append a items) a (.list a) e
  | close {a e : Ty} {span : String} : HasTypes (.close a e span) (.result a e) a e

/-- A continuation that takes outcomes of the first two types and settles at the last two. -/
inductive Frame.HasTypes : Frame D F → Ty → Ty → Ty → Ty → Prop where
  | bind {a b e : Ty} {b' : Bind D F} : b'.HasTypes T L a b e → HasTypes (.bind b') a e b e
  | resume {a b e : Ty} {r : Resume D F} : r.HasTypes T L a b e → HasTypes (.resume r) a e b e
  | reify {a e d : Ty} : HasTypes (.reify ⟨a, e⟩) a e (.result a e) d

/-- A stack that leads from the first two types to the last two. -/
inductive Frame.HaveTypes : List (Frame D F) → Ty → Ty → Ty → Ty → Prop where
  | nil {a e : Ty} : HaveTypes [] a e a e
  | cons {a e b d v r : Ty} {frame : Frame D F} {frames : List (Frame D F)} :
      frame.HasTypes T L a e b d → HaveTypes frames b d v r → HaveTypes (frame :: frames) a e v r

inductive Next.HasTypes : Next D F → Ty → Ty → Prop where
  | run {a e : Ty} {node : Node D F} : node.HasTypes T L a e → HasTypes (.run node) a e
  | andThen {a b e : Ty} {node : Node D F} {resume : Resume D F} :
      node.HasTypes T L a e → resume.HasTypes T L a b e → HasTypes (.andThen node resume) b e
  | done {a e : Ty} {o : Outcome D F} : Outcome.HasTypes T L o a e → HasTypes (.done o) a e

/-- A question to which the reply is of a type. -/
inductive Ask.HasType : Ask D F → Ty → Prop where
  | call {tys : List Ty} {reply : Ty} {f : Owned F} {args : List (Value D F)} :
      T.function L f.val tys reply → List.Forall₂ (Value.HasType T L) args tys →
        HasType (.call f args) reply
  | fork {a e : Ty} {source : Node D F} {s : SchedulerId} :
      source.HasTypes T L a e → HasType (.fork a e source s) (.effect a e)
  | print {line : String} : HasType (.print line) .unit
  | threadName : HasType .threadName .text
  | emit {event : Event} : HasType (.emit event) .unit
  | clock {event : Event} : HasType (.clock event) .instant

/-- A way to make an answer of a reply of the first type. -/
inductive Post.HasTypes : Post D F → Ty → Ty → Ty → Prop where
  | succeed {a e : Ty} : HasTypes .succeed a a e
  | fail {a e : Ty} : HasTypes .fail e a e
  | outcome {a e : Ty} : HasTypes .outcome (.result a e) a e
  | run {a e : Ty} : HasTypes .run (.effect a e) a e
  | fixed {reply a e : Ty} {next : Next D F} :
      next.HasTypes T L a e → HasTypes (.fixed next) reply a e

/-- A plan that does not panic. -/
inductive Plan.HasTypes : Plan D F → Ty → Ty → Prop where
  | answer {a e : Ty} {next : Next D F} : next.HasTypes T L a e → HasTypes (.answer next) a e
  | ask {reply a e : Ty} {question : Ask D F} {post : Post D F} :
      question.HasType T L reply → post.HasTypes T L reply a e → HasTypes (.ask question post) a e

/-- What is in focus is of the types that the stack takes. -/
inductive Interpretation.HasTypes : Interpretation D F → Ty → Ty → Prop where
  | node {a e v r : Ty} {node : Node D F} {frames : List (Frame D F)} :
      node.HasTypes T L a e → Frame.HaveTypes T L frames a e v r → HasTypes ⟨.node node, frames⟩ v r
  | exit {a e v r : Ty} {exit : Exit (Outcome D F)} {frames : List (Frame D F)} :
      exit.HasTypes T L a e → Frame.HaveTypes T L frames a e v r → HasTypes ⟨.exit exit, frames⟩ v r

inductive Progress.HasTypes : Progress D F → Ty → Ty → Prop where
  | next {v r : Ty} {i : Interpretation D F} : i.HasTypes T L v r → HasTypes (.next i) v r
  | ask {reply a e v r : Ty} {question : Ask D F} {post : Post D F} {frames : List (Frame D F)} :
      question.HasType T L reply → post.HasTypes T L reply a e →
        Frame.HaveTypes T L frames a e v r → HasTypes (.ask question post frames) v r
  | suspend {a e v r : Ty} {register : Register F} {s : SchedulerId} {frames : List (Frame D F)} :
      register.HasTypes T L a e → Frame.HaveTypes T L frames a e v r →
        HasTypes (.suspend register s frames) v r
  | finish {v r : Ty} {exit : Exit (Outcome D F)} : exit.HasTypes T L v r →
      HasTypes (.finish exit) v r

variable {T L} {a b c e d v r reply : Ty}

section Extends

variable {L' : Types} (hle : L.Extends L')
include hle

theorem Outcome.HasTypes.extends {o : Outcome D F} (h : Outcome.HasTypes T L o a e) :
    Outcome.HasTypes T L' o a e := by
  cases h with
  | ok hv => exact .ok (hv.extends hle)
  | error hv => exact .error (hv.extends hle)

theorem Exit.HasTypes.extends {exit : Exit (Outcome D F)} (h : exit.HasTypes T L a e) :
    exit.HasTypes T L' a e := by
  cases h with
  | settled ho => exact .settled (ho.extends hle)
  | panicked hpanics => exact .panicked hpanics

theorem Resume.HasTypes.extends {resume : Resume D F} (h : resume.HasTypes T L a b e) :
    resume.HasTypes T L' a b e := by
  cases h with
  | combine hfirst hhow => exact .combine (hfirst.extends hle) (hhow.extends hle)
  | append hitems => exact .append (hitems.extends hle)
  | close => exact .close

theorem Frame.HasTypes.extends {frame : Frame D F} (h : frame.HasTypes T L a e b d) :
    frame.HasTypes T L' a e b d := by
  cases h with
  | bind hbind => exact .bind (hbind.extends hle)
  | resume hresume => exact .resume (hresume.extends hle)
  | reify => exact .reify

theorem Frame.HaveTypes.extends {frames : List (Frame D F)}
    (h : Frame.HaveTypes T L frames a e v r) : Frame.HaveTypes T L' frames a e v r := by
  induction h with
  | nil => exact .nil
  | cons hframe _ ih => exact .cons (hframe.extends hle) ih

theorem Next.HasTypes.extends {next : Next D F} (h : next.HasTypes T L a e) :
    next.HasTypes T L' a e := by
  cases h with
  | run hnode => exact .run (hnode.extends hle)
  | andThen hnode hresume => exact .andThen (hnode.extends hle) (hresume.extends hle)
  | done ho => exact .done (ho.extends hle)

theorem Value.forall₂_extends {vs : List (Value D F)} {tys : List Ty}
    (h : List.Forall₂ (Value.HasType T L) vs tys) : List.Forall₂ (Value.HasType T L') vs tys :=
  h.imp fun _ _ hv => hv.extends hle

theorem Ask.HasType.extends {question : Ask D F} (h : question.HasType T L reply) :
    question.HasType T L' reply := by
  cases h with
  | call hf hargs => exact .call (T.function_extends hle hf) (Value.forall₂_extends hle hargs)
  | fork hsource => exact .fork (hsource.extends hle)
  | print => exact .print
  | threadName => exact .threadName
  | emit => exact .emit
  | clock => exact .clock

theorem Post.HasTypes.extends {post : Post D F} (h : post.HasTypes T L reply a e) :
    post.HasTypes T L' reply a e := by
  cases h with
  | succeed => exact .succeed
  | fail => exact .fail
  | outcome => exact .outcome
  | run => exact .run
  | fixed hnext => exact .fixed (hnext.extends hle)

theorem Interpretation.HasTypes.extends {i : Interpretation D F} (h : i.HasTypes T L v r) :
    i.HasTypes T L' v r := by
  cases h with
  | node hnode hframes => exact .node (hnode.extends hle) (hframes.extends hle)
  | exit hexit hframes => exact .exit (hexit.extends hle) (hframes.extends hle)

end Extends

theorem Value.HasType.ty_eq {w : Value D F} {a : Ty} : w.HasType T L a → w.ty = a
  | .pair hfirst hsecond => by rw [Value.ty, hfirst.ty_eq, hsecond.ty_eq]
  | .data _ => rfl
  | .unit => rfl
  | .text => rfl
  | .instant => rfl
  | .list _ => rfl
  | .absent => rfl
  | .present _ => rfl
  | .ok _ => rfl
  | .err _ => rfl
  | .slot _ => rfl
  | .effect _ => rfl
  | .callback _ => rfl
  | .promise _ => rfl
  | .fiber _ => rfl
  | .future _ => rfl
  | .work _ => rfl
  | .failure => rfl
  | .thread => rfl

theorem Value.HasType.expect {w : Value D F} (h : w.HasType T L a) (plan : Value D F → Plan D F) :
    w.expect a plan = plan w := Value.expect_of_ty h.ty_eq

/-- A value of a result type is a result. -/
theorem Value.HasType.outcome? {w : Value D F} (h : w.HasType T L (.result a e)) :
    ∃ o, w.outcome? = some o ∧ Outcome.HasTypes T L o a e := by
  cases h with
  | ok hv => exact ⟨_, rfl, .ok hv⟩
  | err hv => exact ⟨_, rfl, .error hv⟩

theorem Value.HasType.ofOutcome {o : Outcome D F} (h : Outcome.HasTypes T L o a e) :
    (Value.ofOutcome a e o).HasType T L (.result a e) := by
  cases h with
  | ok hv => exact .ok hv
  | error hv => exact .err hv

theorem Slot.HasTypes.ofOutcome {o : Outcome D F} (h : Outcome.HasTypes T L o a e) :
    (Slot.ofOutcome o).HasTypes T L a e := by
  cases h with
  | ok hv => exact .ok hv
  | error hv => exact .err hv

/-- A slot has an outcome of its types, or the report of a panic. -/
theorem Slot.HasTypes.read {s : Slot D F} (h : s.HasTypes T L a e) :
    (∃ o, s.read = .ok o ∧ Outcome.HasTypes T L o a e) ∨
      ∃ report, s = .panicked report ∧ T.panics (.text report.message) := by
  cases h with
  | ok hv => exact .inl ⟨_, rfl, .ok hv⟩
  | err hv => exact .inl ⟨_, rfl, .error hv⟩
  | panicked hreport => exact .inr ⟨_, rfl, hreport⟩

section Plans

theorem Plan.HasTypes.settled {o : Outcome D F} (h : Outcome.HasTypes T L o a e) :
    (Plan.settled o).HasTypes T L a e := .answer (.done h)

theorem Thunk.HasTypes.plan {t : Thunk D F} (h : t.HasTypes T L a e) :
    t.plan.HasTypes T L a e := by
  cases h with
  | succeed hv => exact .settled (.ok hv)
  | fail hv => exact .settled (.error hv)
  | result hf => exact .ask (.call hf .nil) .outcome
  | delay hf => exact .ask (.call hf .nil) .succeed
  | fork hsource => exact .ask (.fork hsource) .succeed
  | opened => exact .ask .clock .succeed
  | print => exact .ask .print .succeed
  | threadName => exact .ask .threadName .succeed

theorem Node.HasTypes.retryAfter {node : Node D F} (h : node.HasTypes T L a e) (nanoseconds : Nat) :
    (Node.retryAfter a e nanoseconds node).HasTypes T L a d :=
  .flatMap (.attempt h) (.recover (.after h))

theorem Node.HasTypes.afterSleep {node : Node D F} (h : node.HasTypes T L a e)
    (nanoseconds : Nat) : (node.afterSleep nanoseconds).HasTypes T L a e :=
  .flatMap (.async .sleep) (.next h)

theorem Node.HasTypes.collectAll {nodes : List (Node D F)}
    (h : ∀ node ∈ nodes, node.HasTypes T L a e) {collected : Node D F}
    (hcollected : collected.HasTypes T L (.list a) e) :
    (Node.collectAll a collected nodes).HasTypes T L (.list a) e := by
  induction nodes generalizing collected with
  | nil => exact hcollected
  | cons node nodes ih =>
      refine ih (fun node' hmem => h node' (List.mem_cons_of_mem _ hmem)) ?_
      exact .flatMap hcollected (.collect (h node List.mem_cons_self))

theorem Node.HasTypes.sequence {nodes : List (Node D F)}
    (h : ∀ node ∈ nodes, node.HasTypes T L a e) :
    (Node.sequence a nodes).HasTypes T L (.list a) e :=
  .collectAll h (.thunk (.succeed (.list .empty)))

theorem Node.HasTypes.join {fiber : PromiseId} (h : L.promises[fiber]? = some (.slot a e)) :
    (Node.join a e fiber : Node D F).HasTypes T L a e :=
  .flatMap (.async (.join h)) .unslot

/-- Items that are effects of a type have nodes of its types. -/
theorem Items.HaveType.nodesOnto? : {items : Items D F} → {nodes : List (Node D F)} →
    items.HaveType T L (.effect a e) → (∀ node ∈ nodes, node.HasTypes T L a e) →
      ∃ nodes', items.nodesOnto? nodes = some nodes' ∧ ∀ node ∈ nodes', node.HasTypes T L a e
  | .empty, nodes, _, hnodes => ⟨nodes, rfl, hnodes⟩
  | .snoc init (.effect _ _ node), nodes, .snoc hinit (.effect hnode), hnodes => by
      refine hinit.nodesOnto? fun node' hmem => ?_
      rcases List.mem_cons.1 hmem with rfl | hmem
      · exact hnode
      · exact hnodes node' hmem

theorem Recovery.HasTypes.plan {r : Recovery D F} {w : Value D F} (h : r.HasTypes T L a e d)
    (hw : w.HasType T L e) : (r.plan a e w).HasTypes T L a d := by
  cases h with
  | user hf => exact .ask (.call hf (.cons hw .nil)) .run
  | once hagain => exact .ask .emit (.fixed (.run hagain))
  | after hagain => exact .ask .emit (.fixed (.run ((hagain.retryAfter _).afterSleep _)))

theorem Combine.HasTypes.plan {how : Combine F} {first second : Value D F}
    (h : how.HasTypes T L a b c) (hfirst : first.HasType T L a) (hsecond : second.HasType T L b) :
    (how.plan first second).HasTypes T L c e := by
  cases h with
  | user hf => exact .ask (.call hf (.cons hfirst (.cons hsecond .nil))) .succeed
  | pair => exact .settled (.ok (.pair hfirst hsecond))
  | first => exact .settled (.ok hfirst)
  | joins hinner =>
      cases hfirst with
      | effect hleft =>
          cases hsecond with
          | effect hright =>
              exact .settled (.ok (.effect (.flatMap hleft (.andThen hright hinner))))

/-- A continuation that takes the slot of a fiber goes on with the panic of which there is a report.
-/
def Frame.Rethrows (frame : Frame D F) (o : Outcome D F) (report : WorkFailure) : Prop :=
  ∃ a e, frame = .bind (.unslot a e) ∧ o = .ok (.slot a e (.panicked report))

theorem Bind.HasTypes.plan {bind : Bind D F} {w : Value D F} (h : bind.HasTypes T L a b e)
    (hw : w.HasType T L a) :
    (bind.plan w).HasTypes T L b e ∨
      ∃ report, Frame.Rethrows (.bind bind) (.ok w) report ∧
        bind.plan w = .raise (.text report.message) ∧ T.panics (.text report.message) := by
  cases h with
  | map hf =>
      rw [Bind.plan, hw.expect]
      exact .inl (.ask (.call hf (.cons hw .nil)) .succeed)
  | flatMap hf =>
      rw [Bind.plan, hw.expect]
      exact .inl (.ask (.call hf (.cons hw .nil)) .run)
  | replace hv =>
      rw [Bind.plan, hw.expect]
      exact .inl (.settled (.ok hv))
  | tap hf =>
      rw [Bind.plan, hw.expect]
      exact .inl (.ask (.call hf (.cons hw .nil)) (.fixed (.done (.ok hw))))
  | recover hr =>
      rw [Bind.plan, hw.expect]
      cases hw with
      | ok hv => exact .inl (.settled (.ok hv))
      | err hv => exact .inl (hr.plan hv)
  | handle hf =>
      rw [Bind.plan, hw.expect]
      cases hw with
      | ok hv => exact .inl (.settled (.ok hv))
      | err hv => exact .inl (.ask (.call hf (.cons hv .nil)) .succeed)
  | mapError hf =>
      rw [Bind.plan, hw.expect]
      cases hw with
      | ok hv => exact .inl (.settled (.ok hv))
      | err hv => exact .inl (.ask (.call hf (.cons hv .nil)) .fail)
  | andThen hthat hhow =>
      rw [Bind.plan, hw.expect]
      exact .inl (.answer (.andThen hthat (.combine hw hhow)))
  | next hthat =>
      rw [Bind.plan, hw.expect]
      exact .inl (.answer (.run hthat))
  | flatten =>
      rw [Bind.plan, hw.expect]
      cases hw with
      | effect hnode => exact .inl (.answer (.run hnode))
  | sequence =>
      rw [Bind.plan, hw.expect]
      cases hw with
      | list hitems =>
          obtain ⟨nodes, hsome, hnodes⟩ := hitems.nodesOnto? fun _ => List.not_mem_nil.elim
          simp only [hsome]
          exact .inl (.answer (.run (.sequence hnodes)))
  | collect hthat =>
      rw [Bind.plan, hw.expect]
      cases hw with
      | list hitems => exact .inl (.answer (.andThen hthat (.append hitems)))
  | timed hsource =>
      rw [Bind.plan, hw.expect]
      exact .inl (.answer (.andThen hsource .close))
  | unslot =>
      rw [Bind.plan, hw.expect]
      cases hw with
      | slot hs =>
          rcases hs.read with ⟨o, hread, ho⟩ | ⟨report, rfl, hreport⟩
          · simp only [hread]
            exact .inl (.settled ho)
          · exact .inr ⟨report, ⟨_, _, rfl, rfl⟩, rfl, hreport⟩

theorem Resume.HasTypes.plan {resume : Resume D F} {w : Value D F} (h : resume.HasTypes T L a b e)
    (hw : w.HasType T L a) : (resume.plan w).HasTypes T L b e := by
  cases h with
  | combine hfirst hhow =>
      rw [Resume.plan, hw.expect]
      exact hhow.plan hfirst hw
  | append hitems =>
      rw [Resume.plan, hw.expect]
      exact .settled (.ok (.list (.snoc hitems hw)))
  | close =>
      rw [Resume.plan, hw.expect]
      obtain ⟨o, hsome, ho⟩ := hw.outcome?
      simp only [hsome]
      exact .ask .emit (.fixed (.done ho))

/-- A continuation that is handed an outcome of the types that it takes settles at the types that it
gives, or goes on with the panic of a forked effect. -/
theorem Frame.HasTypes.plan {frame : Frame D F} {o : Outcome D F}
    (h : frame.HasTypes T L a e b d) (ho : Outcome.HasTypes T L o a e) :
    (frame.plan o).HasTypes T L b d ∨
      ∃ report, frame.Rethrows o report ∧ frame.plan o = .raise (.text report.message) ∧
        T.panics (.text report.message) := by
  cases h with
  | bind hbind =>
      cases ho with
      | ok hv => exact hbind.plan hv
      | error hv => exact .inl (.settled (.error hv))
  | resume hresume =>
      cases ho with
      | ok hv => exact .inl (hresume.plan hv)
      | error hv => exact .inl (.settled (.error hv))
  | reify =>
      cases ho with
      | ok hv =>
          rw [Frame.plan, Reify.plan, hv.expect]
          exact .inl (.settled (.ok (.ok hv)))
      | error hv =>
          rw [Frame.plan, Reify.plan, hv.expect]
          exact .inl (.settled (.ok (.err hv)))

end Plans

/-- A reply of the type that is asked for is an answer. -/
theorem Post.HasTypes.answer {post : Post D F} {w : Value D F} (h : post.HasTypes T L reply a e)
    (hw : w.HasType T L reply) : ∃ next, post.answer w = .ok next ∧ next.HasTypes T L a e := by
  cases h with
  | succeed => exact ⟨_, rfl, .done (.ok hw)⟩
  | fail => exact ⟨_, rfl, .done (.error hw)⟩
  | outcome =>
      obtain ⟨o, hsome, ho⟩ := hw.outcome?
      exact ⟨.done o, by simp only [Post.answer, hsome], .done ho⟩
  | run =>
      cases hw with
      | effect hnode => exact ⟨_, rfl, .run hnode⟩
  | fixed hnext => exact ⟨_, rfl, hnext⟩

section Steps

variable {frames : List (Frame D F)} (hframes : Frame.HaveTypes T L frames a e v r)
include hframes

theorem Next.HasTypes.continueWith {next : Next D F} (h : next.HasTypes T L a e) :
    (Interpretation.continueWith frames next).HasTypes T L v r := by
  cases h with
  | run hnode => exact .node hnode hframes
  | andThen hnode hresume => exact .node hnode (.cons (.resume hresume) hframes)
  | done ho => exact .exit (.settled ho) hframes

theorem Plan.HasTypes.follow {plan : Plan D F} (h : plan.HasTypes T L a e) :
    (Interpretation.follow frames plan).HasTypes T L v r := by
  cases h with
  | answer hnext => exact .next (hnext.continueWith hframes)
  | ask hquestion hpost => exact .ask hquestion hpost hframes

/-- An interpretation that has got a reply of the type that it asked for, or a panic, keeps to its
types. -/
theorem Post.HasTypes.replied {post : Post D F} {answer : Except Payload (Value D F)}
    (h : post.HasTypes T L reply a e) (hanswer : ∀ w, answer = .ok w → w.HasType T L reply)
    (hpanics : ∀ payload, answer = .error payload → T.panics payload) :
    (Interpretation.reply post frames answer).HasTypes T L v r := by
  cases answer with
  | ok w =>
      obtain ⟨next, heq, hnext⟩ := h.answer (hanswer w rfl)
      simp only [Interpretation.reply, heq]
      exact hnext.continueWith hframes
  | error payload => exact .exit (.panicked (hpanics payload rfl)) hframes

end Steps

/-- A step of an interpretation keeps to its types. -/
theorem Interpretation.HasTypes.step {i : Interpretation D F} (h : i.HasTypes T L v r) :
    i.step.HasTypes T L v r := by
  cases h with
  | node hnode hframes =>
      cases hnode with
      | thunk ht => exact ht.plan.follow hframes
      | async hregister => exact .suspend hregister hframes
      | flatMap hsource hbind => exact .next (.node hsource (.cons (.bind hbind) hframes))
      | attempt hsource => exact .next (.node hsource (.cons .reify hframes))
  | exit hexit hframes =>
      cases hexit with
      | panicked hpanics => exact .finish (.panicked hpanics)
      | settled ho =>
          cases hframes with
          | nil => exact .finish (.settled ho)
          | @cons _ _ _ _ _ _ frame frames hframe hframes =>
              rw [Interpretation.step]
              rcases hframe.plan ho with hplan | ⟨report, -, hraise, hpanics⟩
              · exact hplan.follow hframes
              · rw [hraise]
                exact .next (.exit (.panicked hpanics) hframes)

/-- An outcome of the types of a place restores to a result. -/
theorem Outcome.HasTypes.restore {o : Outcome D F} (h : Outcome.HasTypes T L o a e) :
    (Exit.settled o).restore a e = .ok o := by
  cases h with
  | ok hv => simp [Exit.restore, hv.ty_eq]
  | error hv => simp [Exit.restore, hv.ty_eq]

end Trampoline
