import Trampoline.Proofs.Provenance

/-!
Which objects a piece of data names. The references in a piece of data are those that it names, in
front of others; and an interpretation, whatever it comes to, names nothing but what it has named
before or what the reply to its question names.
-/

namespace Trampoline

variable {D F : Type} {x : Ref}

theorem Kept.mem_singleton {y : Ref} : x ∈ ({y} : Kept) ↔ x = y := by
  rw [Std.TreeSet.singleton_eq_insert, Std.TreeSet.mem_insert, Std.LawfulEqCmp.compare_eq_iff_eq]
  simp [eq_comm]

/-- Some continuation of a stack keeps the object. -/
def Frame.SomeKeeps (frames : List (Frame D F)) (x : Ref) : Prop := ∃ frame ∈ frames, x ∈ frame.kept

@[simp] theorem Frame.someKeeps_nil : ¬Frame.SomeKeeps ([] : List (Frame D F)) x := by
  simp [SomeKeeps]

@[simp] theorem Frame.someKeeps_cons {frame : Frame D F} {frames : List (Frame D F)} :
    SomeKeeps (frame :: frames) x ↔ x ∈ frame.kept ∨ SomeKeeps frames x := by
  simp [SomeKeeps]

@[simp] def Outcome.Names : Outcome D F → Ref → Prop
  | .ok v, x => x ∈ v.kept
  | .error v, x => x ∈ v.kept

@[simp] def Exit.Names : Exit (Outcome D F) → Ref → Prop
  | .settled outcome, x => Outcome.Names outcome x
  | .panicked _, _ => False

@[simp] def Next.Names : Next D F → Ref → Prop
  | .run node, x => x ∈ node.kept
  | .andThen node resume, x => x ∈ node.kept ∨ x ∈ resume.kept
  | .done outcome, x => Outcome.Names outcome x

@[simp] def Post.Names : Post D F → Ref → Prop
  | .fixed next, x => next.Names x
  | _, _ => False

@[simp] def Ask.Names : Ask D F → Ref → Prop
  | .call f args, x => x ∈ f.kept ∨ ∃ v ∈ args, x ∈ v.kept
  | .fork _ _ source _, x => x ∈ source.kept
  | _, _ => False

@[simp] def Plan.Names : Plan D F → Ref → Prop
  | .answer next, x => next.Names x
  | .raise _, _ => False
  | .ask question post, x => question.Names x ∨ post.Names x

@[simp] def Subscriber.Names : Subscriber F → Ref → Prop
  | .user f, x => x ∈ f.kept
  | .join _ _ target, x => x ∈ target.kept
  | .observe _ _ target, x => x ∈ target.kept

@[simp] def Reply.Names : Reply D F → Ref → Prop
  | .value v, x => x ∈ v.kept
  | _, _ => False

def Request.Names (q : Request D F) (x : Ref) : Prop := x ∈ q.refs []

@[simp] def Hook.Names : Hook F → Ref → Prop
  | .log, _ => False
  | .user f, x => x ∈ f.kept

@[simp] def Scheduler.Names : Scheduler F → Ref → Prop
  | .threads _ _ _ hook, x => hook.Names x
  | .pool hook, x => hook.Names x
  | .custom submit hook, x => x ∈ submit.kept ∨ hook.Names x
  | _, _ => False

/-- What an interpretation names besides what it has hold of. -/
def Interpretation.Names (last : Kept) (i : Interpretation D F) (x : Ref) : Prop :=
  Frame.SomeKeeps i.frames x ∨ x ∈ i.latest last ∨ ∃ exit, i.focus = .exit exit ∧ exit.Names x

-- The references in a piece of data are those that it names.
section References

variable {refs : List Ref}

@[simp] theorem Frame.mem_refsAll {frames : List (Frame D F)} :
    x ∈ Frame.refsAll frames refs ↔ SomeKeeps frames x ∨ x ∈ refs := by
  rw [refsAll]
  induction frames generalizing refs with
  | nil => simp
  | cons frame frames ih => simp [ih, or_left_comm, or_assoc]

@[simp] theorem Value.mem_refsAll {values : List (Value D F)} :
    x ∈ Value.refsAll values refs ↔ (∃ v ∈ values, x ∈ v.kept) ∨ x ∈ refs := by
  rw [refsAll]
  induction values generalizing refs with
  | nil => simp
  | cons v values ih => simp [ih, or_left_comm, or_assoc]

@[simp] theorem Outcome.mem_refs {outcome : Outcome D F} :
    x ∈ Outcome.refs outcome refs ↔ Outcome.Names outcome x ∨ x ∈ refs := by
  cases outcome <;> simp [Outcome.refs]

@[simp] theorem Exit.mem_refs {exit : Exit (Outcome D F)} :
    x ∈ exit.refs refs ↔ exit.Names x ∨ x ∈ refs := by
  cases exit <;> simp [Exit.refs]

@[simp] theorem Next.mem_refs {next : Next D F} :
    x ∈ next.refs refs ↔ next.Names x ∨ x ∈ refs := by
  cases next <;> simp [Next.refs, or_assoc]

@[simp] theorem Post.mem_refs {post : Post D F} :
    x ∈ post.refs refs ↔ post.Names x ∨ x ∈ refs := by
  cases post <;> simp [Post.refs]

@[simp] theorem Ask.mem_refs {question : Ask D F} :
    x ∈ question.refs refs ↔ question.Names x ∨ x ∈ refs := by
  cases question <;> simp [Ask.refs, or_assoc]

@[simp] theorem Subscriber.mem_refs {subscriber : Subscriber F} :
    x ∈ subscriber.refs refs ↔ subscriber.Names x ∨ x ∈ refs := by
  cases subscriber <;> simp [Subscriber.refs]

@[simp] theorem Subscriber.mem_refsAll {subscribers : List (Subscriber F)} :
    x ∈ Subscriber.refsAll subscribers refs ↔
      (∃ subscriber ∈ subscribers, subscriber.Names x) ∨ x ∈ refs := by
  rw [refsAll]
  induction subscribers generalizing refs with
  | nil => simp
  | cons subscriber subscribers ih => simp [ih, or_left_comm, or_assoc]

@[simp] theorem Reply.mem_refs {reply : Reply D F} :
    x ∈ reply.refs refs ↔ reply.Names x ∨ x ∈ refs := by
  cases reply <;> simp [Reply.refs]

@[simp] theorem Scheduler.mem_refs {s : Scheduler F} :
    x ∈ s.refs refs ↔ s.Names x ∨ x ∈ refs := by
  cases s with
  | threads name stackSize spawned hook => cases hook <;> simp [Scheduler.refs]
  | pool hook => cases hook <;> simp [Scheduler.refs]
  | custom submit hook => cases hook <;> simp [Scheduler.refs, or_assoc]
  | _ => simp [Scheduler.refs]

theorem Request.mem_refs {q : Request D F} : x ∈ q.refs refs ↔ q.Names x ∨ x ∈ refs := by
  cases q <;> simp [Request.refs, Names, or_assoc]

@[simp] theorem Interpretation.mem_refs {last : Kept} {i : Interpretation D F} :
    x ∈ i.refs last refs ↔ i.Names last x ∨ x ∈ refs := by
  obtain ⟨focus, frames⟩ := i
  cases focus with
  | node node => simp [Interpretation.refs, Names, or_assoc]
  | exit exit => simp [Interpretation.refs, Names, or_assoc, or_left_comm]

end References

-- What a function of a node comes to names what the node and the value name.
section Plans

attribute [local simp] Value.kept

theorem Outcome.names_of_outcome? {v : Value D F} {o : Outcome D F} (h : v.outcome? = some o)
    (hx : Outcome.Names o x) : x ∈ v.kept := by
  unfold Value.outcome? at h
  split at h
  · obtain rfl := Option.some.inj h
    exact hx
  · obtain rfl := Option.some.inj h
    exact hx
  · contradiction

@[simp] theorem Value.mem_kept_ofOutcome {value error : Ty} {o : Outcome D F} :
    x ∈ (Value.ofOutcome value error o).kept ↔ Outcome.Names o x := by
  cases o <;> simp [Value.ofOutcome]

@[simp] theorem Slot.mem_kept_ofOutcome {o : Outcome D F} :
    x ∈ (Slot.ofOutcome o).kept ↔ Outcome.Names o x := by
  cases o <;> simp [Slot.ofOutcome, Slot.kept]

theorem Slot.names_of_read {s : Slot D F} {o : Outcome D F} (h : s.read = .ok o)
    (hx : Outcome.Names o x) : x ∈ s.kept := by
  cases s with
  | ok v =>
      obtain rfl := Except.ok.inj h
      exact hx
  | err v =>
      obtain rfl := Except.ok.inj h
      exact hx
  | panicked report => contradiction

@[simp] theorem Node.mem_kept_collectAll {item : Ty} {collected : Node D F}
    {nodes : List (Node D F)} :
    x ∈ (Node.collectAll item collected nodes).kept ↔
      x ∈ collected.kept ∨ ∃ node ∈ nodes, x ∈ node.kept := by
  rw [Node.collectAll]
  induction nodes generalizing collected with
  | nil => simp
  | cons node nodes ih => simp [ih, Node.kept, Bind.kept, or_assoc]

theorem Items.kept_of_nodesOnto? {items : Items D F} {nodes nodes' : List (Node D F)}
    (h : items.nodesOnto? nodes = some nodes') (hx : ∃ node ∈ nodes', x ∈ node.kept) :
    x ∈ items.kept ∨ ∃ node ∈ nodes, x ∈ node.kept := by
  fun_induction Items.nodesOnto? nodes items with
  | case1 nodes =>
      obtain rfl := Option.some.inj h
      exact .inr hx
  | case2 nodes init value error node ih =>
      simpa [Items.kept, or_assoc] using ih h
  | case3 => contradiction

theorem Plan.names_expect {ty : Ty} {v : Value D F} {plan : Value D F → Plan D F}
    (h : (v.expect ty plan).Names x) : (plan v).Names x := by
  rw [Value.expect] at h
  split at h
  · exact h
  · exact h.elim

theorem Thunk.names_of_plan {t : Thunk D F} (h : t.plan.Names x) : x ∈ t.kept := by
  cases t <;> simp [Thunk.plan, Plan.settled, Thunk.kept] at h ⊢ <;> exact h

theorem Recovery.names_of_plan {value error : Ty} {e : Value D F} {r : Recovery D F}
    (h : (r.plan value error e).Names x) : x ∈ r.kept ∨ x ∈ e.kept := by
  cases r with
  | user f => simpa [Recovery.plan, Recovery.kept] using h
  | once again => exact .inl (by simpa [Recovery.plan, Recovery.kept] using h)
  | after nanoseconds again =>
      exact .inl (by simpa [Recovery.plan, Recovery.kept, Node.afterSleep, Node.retryAfter,
        Node.kept, Bind.kept, Register.kept] using h)

theorem Combine.names_of_plan {first second : Value D F} {how : Combine F}
    (h : (how.plan first second).Names x) : x ∈ how.kept ∨ x ∈ first.kept ∨ x ∈ second.kept := by
  cases how with
  | user f => simpa [Combine.plan, Combine.kept] using h
  | pair => exact .inr (by simpa [Combine.plan, Plan.settled] using h)
  | first => exact .inr (.inl h)
  | joins a b result error inner =>
      simp only [Combine.plan] at h
      split at h
      · simp only [Plan.settled, Plan.Names, Next.Names, Outcome.Names, Value.kept, Node.kept,
          Bind.kept, Kept.mem_union] at h
        simp only [Combine.kept, Value.kept]
        grind
      · exact h.elim

theorem Bind.names_of_plan {b : Bind D F} {v : Value D F} (h : (b.plan v).Names x) :
    x ∈ b.kept ∨ x ∈ v.kept := by
  cases b
  all_goals
    rw [Bind.plan] at h
    replace h := Plan.names_expect h
  case recover value error r =>
    split at h
    · exact .inr h
    · simpa [Bind.kept] using r.names_of_plan h
    · exact h.elim
  case handle value error f =>
    split at h
    · exact .inr h
    · simpa [Bind.kept] using h
    · exact h.elim
  case mapError value error f =>
    split at h
    · exact .inr h
    · simpa [Bind.kept] using h
    · exact h.elim
  case flatten value error =>
    split at h
    · exact .inr h
    · exact h.elim
  case sequence value error =>
    split at h
    · split at h
      next item items nodes hnodes =>
        have hsome : ∃ node ∈ nodes, x ∈ node.kept := by
          simpa [Node.sequence, Node.kept, Thunk.kept, Items.kept] using h
        exact .inr (by simpa using Items.kept_of_nodesOnto? hnodes hsome)
      next => exact h.elim
    · exact h.elim
  case collect item that =>
    split at h
    · simpa [Bind.kept, Resume.kept] using h
    · exact h.elim
  case unslot value error =>
    split at h
    · split at h
      next o hread => exact .inr (Slot.names_of_read hread h)
      next => exact h.elim
    · exact h.elim
  case andThen value second that combine =>
    simp only [Plan.Names, Next.Names, Resume.kept, Kept.mem_union] at h
    simp only [Bind.kept, Kept.mem_union]
    grind
  case map value f => simpa [Bind.kept] using h
  case flatMap value f => simpa [Bind.kept] using h
  case tap value f => simpa [Bind.kept, or_assoc] using h
  case replace value w => exact .inl h
  case next value that => exact .inl h
  case timed value error span source => exact .inl (by simpa [Bind.kept, Resume.kept] using h)

theorem Resume.names_of_plan {r : Resume D F} {v : Value D F} (h : (r.plan v).Names x) :
    x ∈ r.kept ∨ x ∈ v.kept := by
  cases r
  all_goals
    rw [Resume.plan] at h
    replace h := Plan.names_expect h
  case combine second first how =>
    have h := how.names_of_plan h
    simp only [Resume.kept, Kept.mem_union]
    grind
  case append item items =>
    simpa [Plan.settled, Items.kept, Resume.kept] using h
  case close value error span =>
    split at h
    next o hv => exact .inr (Outcome.names_of_outcome? hv (by simpa using h))
    next => exact h.elim

theorem Reify.names_of_plan {r : Reify} {o : Outcome D F} (h : (r.plan o).Names x) :
    Outcome.Names o x := by
  cases o
  all_goals
    rw [Reify.plan] at h
    simpa [Plan.settled] using Plan.names_expect h

theorem Frame.names_of_plan {frame : Frame D F} {o : Outcome D F} (h : (frame.plan o).Names x) :
    x ∈ frame.kept ∨ Outcome.Names o x := by
  cases frame with
  | bind b =>
      cases o with
      | ok v => exact b.names_of_plan h
      | error v => exact .inr h
  | resume r =>
      cases o with
      | ok v => exact r.names_of_plan h
      | error v => exact .inr h
  | reify r => exact .inr (Reify.names_of_plan h)

end Plans

theorem Post.names_of_answer {post : Post D F} {v : Value D F} {next : Next D F}
    (h : post.answer v = .ok next) (hx : next.Names x) : post.Names x ∨ x ∈ v.kept := by
  unfold answer at h
  split at h
  · obtain rfl := Except.ok.inj h
    exact .inr hx
  · obtain rfl := Except.ok.inj h
    exact .inr hx
  · split at h
    next o hv =>
      obtain rfl := Except.ok.inj h
      exact .inr (Outcome.names_of_outcome? hv hx)
    next => contradiction
  · obtain rfl := Except.ok.inj h
    exact .inr hx
  · contradiction
  · obtain rfl := Except.ok.inj h
    exact .inl hx

/-- What a step of an interpretation comes to names, when it has hold of `latest`. -/
def Progress.Names (latest : Kept) : Progress D F → Ref → Prop
  | .next j, x => j.Names latest x
  | .ask question post frames, x => question.Names x ∨ post.Names x ∨ Frame.SomeKeeps frames x
  | .suspend register _ frames, x => x ∈ register.kept ∨ Frame.SomeKeeps frames x
  | .finish exit, x => exit.Names x

namespace Interpretation

variable {last : Kept} {i : Interpretation D F} {frames : List (Frame D F)}

theorem names_of_continueWith {next : Next D F}
    (h : (continueWith frames next).Names last x) :
    next.Names x ∨ Frame.SomeKeeps frames x ∨ x ∈ last := by
  cases next <;> simp [continueWith, settle, Names, latest, Frame.kept] at h ⊢ <;> grind

theorem names_of_follow {plan : Plan D F} (h : (follow frames plan).Names last x) :
    plan.Names x ∨ Frame.SomeKeeps frames x ∨ x ∈ last := by
  cases plan with
  | answer next => exact names_of_continueWith h
  | raise payload => exact .inr (by simpa [follow, Progress.Names, settle, Names, latest] using h)
  | ask question post =>
      rw [← or_assoc]
      exact .inl (by simpa [follow, Progress.Names, or_assoc] using h)

theorem names_of_reply {post : Post D F} {reply : Except Payload (Value D F)}
    (h : (Interpretation.reply post frames reply).Names last x) :
    post.Names x ∨ Frame.SomeKeeps frames x ∨ x ∈ last ∨ ∃ v, reply = .ok v ∧ x ∈ v.kept := by
  cases reply with
  | ok v =>
      rw [Interpretation.reply] at h
      split at h
      next next hanswer =>
        rcases names_of_continueWith h with hnext | hframes | hlast
        · rcases Post.names_of_answer hanswer hnext with hpost | hv
          · exact .inl hpost
          · exact .inr (.inr (.inr ⟨v, rfl, hv⟩))
        · exact .inr (.inl hframes)
        · exact .inr (.inr (.inl hlast))
      next => simp [settle, Names, latest] at h; grind
  | error payload => simp [Interpretation.reply, settle, Names, latest] at h; grind

/-- A step names nothing but what the interpretation has named. -/
theorem names_of_step (h : i.step.Names (i.latest last) x) : i.Names last x := by
  obtain ⟨focus, frames⟩ := i
  cases focus with
  | node node =>
      cases node with
      | thunk t =>
          rcases names_of_follow h with hplan | hframes | hlast
          · exact .inr (.inl (Thunk.names_of_plan hplan))
          · exact .inl hframes
          · exact .inr (.inl hlast)
      | async register scheduler =>
          rcases h with hregister | hframes
          · exact .inr (.inl hregister)
          · exact .inl hframes
      | flatMap source bind =>
          simp [step, Progress.Names, Names, latest, Frame.kept, Node.kept] at h ⊢
          grind
      | attempt source reify =>
          simp [step, Progress.Names, Names, latest, Frame.kept, Node.kept] at h ⊢
          grind
  | exit exit =>
      cases exit with
      | panicked payload => exact h.elim
      | settled outcome =>
          cases frames with
          | nil => exact .inr (.inr ⟨_, rfl, h⟩)
          | cons frame frames =>
              rcases names_of_follow h with hplan | hframes | hlast
              · rcases Frame.names_of_plan hplan with hframe | houtcome
                · exact .inl (Frame.someKeeps_cons.2 (.inl hframe))
                · exact .inr (.inr ⟨_, rfl, houtcome⟩)
              · exact .inl (Frame.someKeeps_cons.2 (.inr hframes))
              · exact .inr (.inl hlast)

theorem names_of_applied (h : x ∈ i.applied) : i.Names last x := by
  obtain ⟨focus, frames⟩ := i
  cases focus with
  | node node => simp [applied] at h
  | exit exit =>
      cases frames with
      | nil => simp [applied] at h
      | cons frame frames => exact .inl (Frame.someKeeps_cons.2 (.inl h))

end Interpretation

end Trampoline
