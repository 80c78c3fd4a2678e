import Trampoline.Proofs.Deeds

/-!
The recursive reading of an effect, and its agreement with the stack machine. The reading runs the
source of a node, gives its exit to the continuation and runs what the continuation answers; it
knows neither stacks nor frames. Its surroundings are arbitrary: a state, the replies to questions
and the exits of async nodes.
-/

namespace Trampoline

variable {D F σ : Type}

/-- What functions and async nodes find around them. -/
structure Surroundings (D F σ : Type) where
  /-- In a state, a question gets a reply and leaves another state. -/
  Reply : σ → Ask D F → Except Payload (Value D F) → σ → Prop
  /-- In a state, an async node gets an exit and leaves another state. -/
  Complete : σ → Register F → SchedulerId → Exit (Outcome D F) → σ → Prop

namespace Surroundings

/-- What applying a function comes to: an answer or a panic. -/
inductive Applies (S : Surroundings D F σ) :
    σ → Plan D F → Except Payload (Next D F) → σ → Prop
  | answer {s : σ} {next : Next D F} : Applies S s (.answer next) (.ok next) s
  | raise {s : σ} {payload : Payload} : Applies S s (.raise payload) (.error payload) s
  | reply {s s' : σ} {question : Ask D F} {post : Post D F} {v : Value D F} :
      S.Reply s question (.ok v) s' → Applies S s (.ask question post) (post.answer v) s'
  | panic {s s' : σ} {question : Ask D F} {post : Post D F} {payload : Payload} :
      S.Reply s question (.error payload) s' →
        Applies S s (.ask question post) (.error payload) s'

mutual

/-- A node, run from a state, makes these calls and comes to this exit in another state. -/
inductive Reads (S : Surroundings D F σ) :
    σ → Node D F → List (Call D F) → Exit (Outcome D F) → σ → Prop
  | thunk {s s₁ s' : σ} {t : Thunk D F} {answer : Except Payload (Next D F)}
      {calls : List (Call D F)} {exit : Exit (Outcome D F)} :
      S.Applies s t.plan answer s₁ → Answers S s₁ answer calls exit s' →
        Reads S s (.thunk t) (.thunk t :: calls) exit s'
  | async {s s' : σ} {r : Register F} {scheduler : SchedulerId} {exit : Exit (Outcome D F)} :
      S.Complete s r scheduler exit s' → Reads S s (.async r scheduler) [.register r] exit s'
  | flatMap {s s₁ s' : σ} {source : Node D F} {bind : Bind D F} {first rest : List (Call D F)}
      {mid exit : Exit (Outcome D F)} :
      Reads S s source first mid s₁ → Passes S s₁ mid (.bind bind) rest exit s' →
        Reads S s (.flatMap source bind) (first ++ rest) exit s'
  | attempt {s s₁ s' : σ} {source : Node D F} {reify : Reify} {first rest : List (Call D F)}
      {mid exit : Exit (Outcome D F)} :
      Reads S s source first mid s₁ → Passes S s₁ mid (.reify reify) rest exit s' →
        Reads S s (.attempt source reify) (first ++ rest) exit s'

/-- The exit of a source, given to the continuation after it. A panic passes every continuation, a
failure passes those that want a value. -/
inductive Passes (S : Surroundings D F σ) :
    σ → Exit (Outcome D F) → Frame D F → List (Call D F) → Exit (Outcome D F) → σ → Prop
  | panicked {s : σ} {payload : Payload} {frame : Frame D F} :
      Passes S s (.panicked payload) frame [] (.panicked payload) s
  | bindFailed {s : σ} {e : Value D F} {bind : Bind D F} :
      Passes S s (.settled (.error e)) (.bind bind) [] (.settled (.error e)) s
  | resumeFailed {s : σ} {e : Value D F} {resume : Resume D F} :
      Passes S s (.settled (.error e)) (.resume resume) [] (.settled (.error e)) s
  | bind {s s₁ s' : σ} {v : Value D F} {bind : Bind D F}
      {answer : Except Payload (Next D F)} {calls : List (Call D F)}
      {exit : Exit (Outcome D F)} :
      S.Applies s (bind.plan v) answer s₁ → Answers S s₁ answer calls exit s' →
        Passes S s (.settled (.ok v)) (.bind bind) (.bind bind v :: calls) exit s'
  | resume {s s₁ s' : σ} {v : Value D F} {resume : Resume D F}
      {answer : Except Payload (Next D F)} {calls : List (Call D F)}
      {exit : Exit (Outcome D F)} :
      S.Applies s (resume.plan v) answer s₁ → Answers S s₁ answer calls exit s' →
        Passes S s (.settled (.ok v)) (.resume resume) (.resume resume v :: calls) exit s'
  | reify {s s₁ s' : σ} {outcome : Outcome D F} {reify : Reify}
      {answer : Except Payload (Next D F)} {calls : List (Call D F)}
      {exit : Exit (Outcome D F)} :
      S.Applies s (reify.plan outcome) answer s₁ → Answers S s₁ answer calls exit s' →
        Passes S s (.settled outcome) (.reify reify) (.reify reify outcome :: calls) exit s'

/-- What a function answered, run to its exit. -/
inductive Answers (S : Surroundings D F σ) :
    σ → Except Payload (Next D F) → List (Call D F) → Exit (Outcome D F) → σ → Prop
  | panicked {s : σ} {payload : Payload} :
      Answers S s (.error payload) [] (.panicked payload) s
  | done {s : σ} {outcome : Outcome D F} :
      Answers S s (.ok (.done outcome)) [] (.settled outcome) s
  | run {s s' : σ} {node : Node D F} {calls : List (Call D F)} {exit : Exit (Outcome D F)} :
      Reads S s node calls exit s' → Answers S s (.ok (.run node)) calls exit s'
  | andThen {s s₁ s' : σ} {node : Node D F} {resume : Resume D F}
      {first rest : List (Call D F)} {mid exit : Exit (Outcome D F)} :
      Reads S s node first mid s₁ → Passes S s₁ mid (.resume resume) rest exit s' →
        Answers S s (.ok (.andThen node resume)) (first ++ rest) exit s'

end

/-- The stack machine, started in a state from an interpretation, does these deeds and comes to
another state and interpretation. -/
inductive Drives (S : Surroundings D F σ) :
    σ → Interpretation D F → List (Deed D F) → σ → Interpretation D F → Prop
  | refl {s : σ} {i : Interpretation D F} : Drives S s i [] s i
  | next {s s' : σ} {i j k : Interpretation D F} {deeds : List (Deed D F)} :
      i.step = .next j → Drives S s j deeds s' k → Drives S s i (i.deeds ++ deeds) s' k
  | ask {s s₁ s' : σ} {i k : Interpretation D F} {question : Ask D F} {post : Post D F}
      {frames : List (Frame D F)} {r : Except Payload (Value D F)} {deeds : List (Deed D F)} :
      i.step = .ask question post frames → S.Reply s question r s₁ →
        Drives S s₁ (.reply post frames r) deeds s' k →
          Drives S s i (i.deeds ++ (post.deeds r ++ deeds)) s' k
  | suspend {s s₁ s' : σ} {i k : Interpretation D F} {r : Register F} {scheduler : SchedulerId}
      {frames : List (Frame D F)} {exit : Exit (Outcome D F)} {deeds : List (Deed D F)} :
      i.step = .suspend r scheduler frames → S.Complete s r scheduler exit s₁ →
        Drives S s₁ (.settle exit frames) deeds s' k →
          Drives S s i (i.deeds ++ (.call (.register r) :: .exit exit :: deeds)) s' k

end Surroundings

namespace Interpretation

def answered (frames : List (Frame D F)) : Except Payload (Next D F) → Interpretation D F
  | .ok next => continueWith frames next
  | .error payload => settle (.panicked payload) frames

theorem reply_ok (post : Post D F) (frames : List (Frame D F)) (v : Value D F) :
    reply post frames (.ok v) = answered frames (post.answer v) := by
  simp only [reply]
  cases post.answer v <;> rfl

/-- An interpretation that goes on with an exit above a stack. A panic passes the whole stack, so
what is still on the stack then makes no difference. -/
inductive Settles : Exit (Outcome D F) → List (Frame D F) → Interpretation D F → Prop
  | refl {exit : Exit (Outcome D F)} {frames : List (Frame D F)} :
      Settles exit frames (settle exit frames)
  | panicked {payload : Payload} {frames above : List (Frame D F)} :
      Settles (.panicked payload) frames (settle (.panicked payload) (above ++ frames))

theorem Settles.step {exit : Exit (Outcome D F)} {frames : List (Frame D F)}
    {i : Interpretation D F} (h : i.Settles exit frames) : i.step = (settle exit frames).step := by
  cases h with
  | refl => rfl
  | panicked => rfl

theorem Settles.of_panicked_cons {payload : Payload} {frame : Frame D F}
    {frames : List (Frame D F)} {i : Interpretation D F}
    (h : i.Settles (.panicked payload) (frame :: frames)) :
    i.Settles (.panicked payload) frames := by
  cases h with
  | refl =>
      change Settles (.panicked payload) frames (settle (.panicked payload) ([frame] ++ frames))
      exact .panicked
  | panicked =>
      rename_i above
      have hstack : above ++ frame :: frames = above ++ [frame] ++ frames := by simp
      rw [hstack]
      exact .panicked

theorem Settles.eq_of_settled {outcome : Outcome D F} {frames : List (Frame D F)}
    {i : Interpretation D F} (h : i.Settles (.settled outcome) frames) :
    i = settle (.settled outcome) frames := by
  cases h
  rfl

end Interpretation

namespace Surroundings

open Interpretation

variable {S : Surroundings D F σ}

theorem Drives.trans {s s₁ s' : σ} {i j k : Interpretation D F} {first rest : List (Deed D F)}
    (h : S.Drives s i first s₁ j) (h' : S.Drives s₁ j rest s' k) :
    S.Drives s i (first ++ rest) s' k := by
  induction h with
  | refl => exact h'
  | next hstep _ ih =>
      rw [List.append_assoc]
      exact .next hstep (ih h')
  | ask hstep hreply _ ih =>
      simp only [List.append_assoc]
      exact .ask hstep hreply (ih h')
  | suspend hstep hexit _ ih =>
      simp only [List.append_assoc, List.cons_append]
      exact .suspend hstep hexit (ih h')

/-- Started from an interpretation, the stack machine makes these calls and then goes on with this
exit above this stack. -/
def Comes (S : Surroundings D F σ) (s : σ) (i : Interpretation D F) (calls : List (Call D F))
    (exit : Exit (Outcome D F)) (frames : List (Frame D F)) (s' : σ) : Prop :=
  ∃ deeds j, S.Drives s i deeds s' j ∧ j.Settles exit frames ∧ Deed.calls deeds = calls ∧
    Deed.finishes deeds = []

/-- Where a step follows the plan of a function, the machine comes to where it goes on with the
function's answer. -/
theorem Drives.of_applies {s s₁ : σ} {plan : Plan D F} {answer : Except Payload (Next D F)}
    (h : S.Applies s plan answer s₁) {i : Interpretation D F} {frames : List (Frame D F)}
    {before : List (Deed D F)} (hstep : i.step = follow frames plan)
    (hdeeds : i.deeds = before ++ plan.deeds) :
    ∃ after, S.Drives s i (before ++ after) s₁ (answered frames answer) ∧
      Deed.calls after = [] ∧ Deed.finishes after = [] := by
  cases h with
  | @answer next =>
      refine ⟨next.deeds, ?_, Deed.calls_next next, Deed.finishes_next next⟩
      have hmove := Drives.next hstep (Drives.refl (S := S) (s := s))
      rwa [List.append_nil, hdeeds] at hmove
  | raise =>
      refine ⟨[], ?_, rfl, rfl⟩
      have hmove := Drives.next hstep (Drives.refl (S := S) (s := s))
      rwa [List.append_nil, hdeeds] at hmove
  | @reply _ question post v hreply =>
      refine ⟨.ask question :: post.deeds (.ok v), ?_, Deed.calls_post post (.ok v),
        Deed.finishes_post post (.ok v)⟩
      have hmove := Drives.ask hstep hreply (Drives.refl (S := S))
      rw [List.append_nil, hdeeds, List.append_assoc] at hmove
      rwa [reply_ok] at hmove
  | @panic _ question post payload hreply =>
      refine ⟨.ask question :: post.deeds (.error payload), ?_,
        Deed.calls_post post (.error payload), Deed.finishes_post post (.error payload)⟩
      have hmove := Drives.ask hstep hreply (Drives.refl (S := S))
      rwa [List.append_nil, hdeeds, List.append_assoc] at hmove

theorem Comes.of_applies {s s₁ s' : σ} {plan : Plan D F} {answer : Except Payload (Next D F)}
    {i : Interpretation D F} {frames : List (Frame D F)} {calls : List (Call D F)}
    {exit : Exit (Outcome D F)} (before : List (Deed D F))
    (h : S.Applies s plan answer s₁) (hstep : i.step = follow frames plan)
    (hdeeds : i.deeds = before ++ plan.deeds) (hbefore : Deed.finishes before = [])
    (hrest : S.Comes s₁ (answered frames answer) calls exit frames s') :
    S.Comes s i (Deed.calls before ++ calls) exit frames s' := by
  obtain ⟨after, hdrive, hcalls, hfinishes⟩ := Drives.of_applies h hstep hdeeds
  obtain ⟨deeds, j, hdrive', hsettles, rfl, hdeeds'⟩ := hrest
  refine ⟨(before ++ after) ++ deeds, j, hdrive.trans hdrive', hsettles, ?_, ?_⟩
  · simp [hcalls]
  · simp [hbefore, hfinishes, hdeeds']

/-- The source of a node is run above its continuation, and its exit is given to it. -/
theorem Comes.of_source {s s₁ s' : σ} {i : Interpretation D F} {source : Node D F}
    {frame : Frame D F} {frames : List (Frame D F)} {first rest : List (Call D F)}
    {mid exit : Exit (Outcome D F)}
    (hsource : S.Comes s ⟨.node source, frame :: frames⟩ first mid (frame :: frames) s₁)
    (hrest : ∀ j : Interpretation D F, j.Settles mid (frame :: frames) →
      S.Comes s₁ j rest exit frames s')
    (hstep : i = ⟨.node source, frame :: frames⟩ ∨
      i.step = .next ⟨.node source, frame :: frames⟩ ∧ i.deeds = [.push frame]) :
    S.Comes s i (first ++ rest) exit frames s' := by
  obtain ⟨deeds, j, hdrive, hsettles, rfl, hfinishes⟩ := hsource
  obtain ⟨deeds', k, hdrive', hsettles', rfl, hfinishes'⟩ := hrest j hsettles
  have hboth := hdrive.trans hdrive'
  rcases hstep with rfl | ⟨hstep, hpush⟩
  · exact ⟨deeds ++ deeds', k, hboth, hsettles', by simp, by simp [hfinishes, hfinishes']⟩
  · refine ⟨i.deeds ++ (deeds ++ deeds'), k, .next hstep hboth, hsettles', ?_, ?_⟩
    · rw [hpush, Deed.calls_append, Deed.calls_append]
      rfl
    · rw [hpush, Deed.finishes_append, Deed.finishes_append, hfinishes, hfinishes']
      rfl

mutual

theorem Reads.comes {s s' : σ} {node : Node D F} {calls : List (Call D F)}
    {exit : Exit (Outcome D F)} (h : S.Reads s node calls exit s') (frames : List (Frame D F)) :
    S.Comes s ⟨.node node, frames⟩ calls exit frames s' := by
  match h with
  | .thunk happlies hanswers =>
      exact Comes.of_applies [.call (.thunk _)] happlies rfl rfl rfl
        (hanswers.comes frames)
  | .async hcomplete =>
      exact ⟨_, _, .suspend rfl hcomplete .refl, .refl, rfl, rfl⟩
  | .flatMap hsource hpasses =>
      exact Comes.of_source (hsource.comes _) (fun _ hj => hpasses.comes frames hj)
        (.inr ⟨rfl, rfl⟩)
  | .attempt hsource hpasses =>
      exact Comes.of_source (hsource.comes _) (fun _ hj => hpasses.comes frames hj)
        (.inr ⟨rfl, rfl⟩)

theorem Passes.comes {s s' : σ} {mid exit : Exit (Outcome D F)} {frame : Frame D F}
    {calls : List (Call D F)} (h : S.Passes s mid frame calls exit s')
    (frames : List (Frame D F)) {i : Interpretation D F} (hi : i.Settles mid (frame :: frames)) :
    S.Comes s i calls exit frames s' := by
  match h with
  -- The machine leaves the continuation where it is, and it makes no difference any more.
  | .panicked => exact ⟨[], i, .refl, hi.of_panicked_cons, rfl, rfl⟩
  | .bindFailed =>
      obtain rfl := hi.eq_of_settled
      exact ⟨_, _, .next rfl .refl, .refl, rfl, rfl⟩
  | .resumeFailed =>
      obtain rfl := hi.eq_of_settled
      exact ⟨_, _, .next rfl .refl, .refl, rfl, rfl⟩
  | .bind happlies hanswers =>
      obtain rfl := hi.eq_of_settled
      exact Comes.of_applies [.pop (.bind _), .call (.bind _ _)] happlies rfl rfl rfl
        (hanswers.comes frames)
  | .resume happlies hanswers =>
      obtain rfl := hi.eq_of_settled
      exact Comes.of_applies [.pop (.resume _), .call (.resume _ _)] happlies rfl rfl
        rfl (hanswers.comes frames)
  | .reify happlies hanswers =>
      obtain rfl := hi.eq_of_settled
      exact Comes.of_applies [.pop (.reify _), .call (.reify _ _)] happlies rfl rfl
        rfl (hanswers.comes frames)

theorem Answers.comes {s s' : σ} {answer : Except Payload (Next D F)} {calls : List (Call D F)}
    {exit : Exit (Outcome D F)} (h : S.Answers s answer calls exit s')
    (frames : List (Frame D F)) : S.Comes s (answered frames answer) calls exit frames s' := by
  match h with
  | .panicked => exact ⟨[], _, .refl, .refl, rfl, rfl⟩
  | .done => exact ⟨[], _, .refl, .refl, rfl, rfl⟩
  | .run hnode => exact hnode.comes frames
  | .andThen hnode hpasses =>
      exact Comes.of_source (hnode.comes _) (fun _ hj => hpasses.comes frames hj) (.inl rfl)

end

end Surroundings

end Trampoline
