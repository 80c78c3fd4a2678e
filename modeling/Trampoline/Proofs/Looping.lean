import Trampoline.Proofs.Persisting
import Trampoline.Proofs.Sequencing

/-!
Loops. The continuation of an effect may answer with an effect that has a continuation in turn, and
that is run in its place, and so on for any number of rounds. A continuation is popped before it is
applied, so what is pending when a round starts is what was pending when the loop was entered. An
effect that is retried until it succeeds loops in this way: its rounds are the tries and the sleeps
between them, in turn.
-/

namespace Trampoline

open Interpretation

theorem Node.ne_flatMap {D F : Type} (source : Node D F) (k : Bind D F) :
    source ≠ .flatMap source k := by
  intro h
  have hsize := congrArg sizeOf h
  simp only [Node.flatMap.sizeOf_spec] at hsize
  omega

theorem Node.ne_attempt {D F : Type} (source : Node D F) (reify : Reify) :
    source ≠ .attempt source reify := by
  intro h
  have hsize := congrArg sizeOf h
  simp only [Node.attempt.sizeOf_spec] at hsize
  omega

/-- What becomes of an interpretation that has asked something: it waits on, or goes on with the
reply. -/
theorem Stage.Goes.of_asking {D F : Type} {post : Post D F} {frames : List (Frame D F)}
    {deeds : List (Deed D F)} {stage : Stage D F}
    (h : (Stage.asking post frames).Goes deeds (some stage)) :
    stage = .asking post frames ∨
      ∃ w, deeds = post.deeds w ∧ stage = .driving (.reply post frames w) := by
  cases h with
  | rest => exact .inl rfl
  | registered hnode => contradiction
  | step hstep =>
      cases hstep with
      | reply => exact .inr ⟨_, rfl, rfl⟩

/-- What becomes of an interpretation whose step is a question. -/
theorem Stage.Goes.of_ask {D F : Type} {i : Interpretation D F} {question : Ask D F}
    {post : Post D F} {frames : List (Frame D F)} {deeds : List (Deed D F)} {stage : Stage D F}
    (h : (Stage.driving i).Goes deeds (some stage)) (hstep : i.step = .ask question post frames) :
    stage = .driving i ∨ stage = .asking post frames := by
  cases h with
  | rest => exact .inl rfl
  | registered hnode => contradiction
  | step h => cases h <;> simp_all

/-- The stages of an interpretation at an async node, with the continuations that are pending there,
until it has settled. -/
inductive Stage.IsAtNode {D F : Type} (register : Register F) (scheduler : SchedulerId)
    (frames : List (Frame D F)) : Stage D F → Prop where
  | comes :
      IsAtNode register scheduler frames (.driving ⟨.node (.async register scheduler), frames⟩)
  | waits {stage : Stage D F} {id : HandoffId} :
      stage.node? = some id → stage.frames? = some frames → IsAtNode register scheduler frames stage
  | resumes {exit : Exit (Outcome D F)} :
      IsAtNode register scheduler frames (.resuming exit frames)
  | panics {payload : Payload} :
      IsAtNode register scheduler frames (.driving (.settle (.panicked payload) frames))

namespace Stage.IsAtNode

variable {D F : Type} {register : Register F} {scheduler : SchedulerId} {frames : List (Frame D F)}
  {stage stage' : Stage D F} {deeds : List (Deed D F)}

theorem frames?_eq (h : stage.IsAtNode register scheduler frames) :
    stage.frames? = some frames := by
  cases h with
  | waits _ hframes => exact hframes
  | _ => rfl

/-- The exit of a node settles it, or it is a panic. -/
theorem of_exit (exit : Exit (Outcome D F)) (frames : List (Frame D F)) :
    (driving (settle exit frames)).IsAtNode register scheduler frames ∨
      ∃ o, driving (settle exit frames) = .driving (.settle (.settled o) frames) := by
  cases exit with
  | panicked payload => exact .inl .panics
  | settled o => exact .inr ⟨o, rfl⟩

/-- Nothing is pushed at a node, and nothing is popped. -/
theorem goes (h : stage.IsAtNode register scheduler frames)
    (hgoes : stage.Goes deeds (some stage')) :
    stage'.IsAtNode register scheduler frames ∨
      (∃ o, stage' = .driving (.settle (.settled o) frames)) ∨
        ∃ payload, stage' = .concluding (.panicked payload) := by
  cases hgoes with
  | rest => exact .inl h
  | registered _ => exact .inl h
  | step hstep =>
      cases h with
      | comes =>
          cases hstep with
          | suspend hsuspend =>
              obtain ⟨-, -, rfl⟩ := Progress.suspend.inj hsuspend
              exact .inl (.waits rfl rfl)
          | _ => contradiction
      | resumes =>
          cases hstep with
          | resume => exact (of_exit _ frames).imp_right .inl
      | @panics payload =>
          cases hstep with
          | finish hfinish =>
              obtain rfl := Progress.finish.inj hfinish
              exact .inr (.inr ⟨payload, rfl⟩)
          | _ => contradiction
      | waits hnode hframes =>
          cases hstep with
          | submitted => exact .inl (.waits rfl hframes)
          | park => exact .inl (.waits rfl hframes)
          | inline =>
              obtain rfl := Option.some.inj hframes
              exact (of_exit _ _).imp_right .inl
          | deliver =>
              obtain rfl := Option.some.inj hframes
              exact .inl .resumes
          | _ => contradiction

end Stage.IsAtNode

/-- Whether at least so many continuations are pending, and more at an outcome. -/
def Stage.isAboveHeight {D F : Type} (height : Nat) : Stage D F → Bool
  | .driving ⟨.exit (.settled _), frames⟩ => height < frames.length
  | stage => stage.frames?.any fun frames => height ≤ frames.length

namespace Run

variable {H : Host}

section

variable (r : Run H) (b : Nat) (p : Place)

/-- The interpretation that is at `p` at time `b` has come to `i` after `l` actions, and goes on
with the node `source` after `n` actions. -/
structure Descends (i : Interpretation H.Data H.Fn) (source : Node H.Data H.Fn)
    (frames : List (Frame H.Data H.Fn)) (l n : Nat) : Prop where
  lt : l < n
  still : r.IsStill b p (.driving i) l n
  stage : r.stage b p n = some (.driving ⟨.node source, frames⟩)

/-- After `m` actions the continuation `k` is applied to a value, and after `n` actions it has
answered with an effect that is to be run in its place. -/
inductive AnswersWith (k : Bind H.Data H.Fn) (v : Value H.Data H.Fn) (y : Node H.Data H.Fn)
    (m : Nat) : Nat → Prop where
  | directly {now : Stage H.Data H.Fn} {n : Nat} :
      k.plan v = .answer (.run y) → m ≤ n → r.IsStill b p now m (n + 1) →
        AnswersWith k v y m (n + 1)
  /-- It has asked something first. -/
  | asked {question : Ask H.Data H.Fn} {post : Post H.Data H.Fn} {w : Value H.Data H.Fn}
      {now : Stage H.Data H.Fn} {frames : List (Frame H.Data H.Fn)} {l n : Nat} :
      k.plan v = .ask question post → m < l → r.IsStill b p now m l →
        l ≤ n → r.IsStill b p (.asking post frames) l (n + 1) →
          r.deeds b p n = [.reply (.ok w)] → post.answer w = .ok (.run y) →
            AnswersWith k v y m (n + 1)

/-- After `n` actions an interpretation has been through a number of rounds of a loop, and it is the
turn of the effect that the last of them has answered with. In each round the source of the effect
comes to a value, and the continuation is applied to it. -/
inductive HasLooped : Nat → Nat → Interpretation H.Data H.Fn → Prop where
  | enters {i : Interpretation H.Data H.Fn} : r.stage b p 0 = some (.driving i) → HasLooped 0 0 i
  | again {c l n m l' : Nat} {i i' : Interpretation H.Data H.Fn} {source y : Node H.Data H.Fn}
      {k : Bind H.Data H.Fn} {frames : List (Frame H.Data H.Fn)} {v : Value H.Data H.Fn} :
      HasLooped c l i → i.focus = .node (.flatMap source k) →
        r.Descends b p i source frames l n → r.Evaluates b p source frames n m (.ok v) →
          r.AnswersWith b p k v y m l' → r.stage b p l' = some (.driving i') → i'.focus = .node y →
            HasLooped (c + 1) l' i'

/-- Round number `c` of the loop starts after `n` actions: the source of its effect is to be run
next, and these continuations are pending. -/
def StartsRound (c : Nat) (source : Node H.Data H.Fn) (k : Bind H.Data H.Fn)
    (frames : List (Frame H.Data H.Fn)) (n : Nat) : Prop :=
  ∃ l i, r.HasLooped b p c l i ∧ i.focus = .node (.flatMap source k) ∧
    r.Descends b p i source frames l n

/-- Where an interpretation is after `n` actions that is in a loop above some continuations. -/
inductive Looping (base : List (Frame H.Data H.Fn)) (n : Nat) : Prop where
  /-- It is about to start a round. -/
  | opening {c l : Nat} {source : Node H.Data H.Fn} {k : Bind H.Data H.Fn} :
      r.HasLooped b p c l ⟨.node (.flatMap source k), base⟩ → l ≤ n →
        r.IsStill b p (.driving ⟨.node (.flatMap source k), base⟩) l (n + 1) → Looping base n
  /-- It runs the source of a round. -/
  | running {c m : Nat} {source : Node H.Data H.Fn} {k : Bind H.Data H.Fn} :
      r.StartsRound b p c source k (.bind k :: base) m → m ≤ n →
        r.IsRunning b p source (.bind k :: base) m (n + 1) → Looping base n
  /-- The source has come to a value. -/
  | applying {c m l : Nat} {source : Node H.Data H.Fn} {k : Bind H.Data H.Fn}
      {v : Value H.Data H.Fn} :
      r.StartsRound b p c source k (.bind k :: base) m →
        r.Evaluates b p source (.bind k :: base) m l (.ok v) → l ≤ n →
          r.IsStill b p (.driving (.settle (.settled (.ok v)) (.bind k :: base))) l (n + 1) →
            Looping base n
  /-- The continuation has asked something. -/
  | asking {c m l j : Nat} {source : Node H.Data H.Fn} {k : Bind H.Data H.Fn}
      {v : Value H.Data H.Fn} {question : Ask H.Data H.Fn} {post : Post H.Data H.Fn} :
      r.StartsRound b p c source k (.bind k :: base) m →
        r.Evaluates b p source (.bind k :: base) m l (.ok v) → k.plan v = .ask question post →
          l < j → r.IsStill b p (.driving (.settle (.settled (.ok v)) (.bind k :: base))) l j →
            j ≤ n → r.IsStill b p (.asking post base) j (n + 1) → Looping base n

/-- How an interpretation comes out of a loop after `n` actions. -/
inductive LeavesLoop (base : List (Frame H.Data H.Fn)) (n : Nat) : Prop where
  /-- The source of a round fails. -/
  | fails {c m : Nat} {source : Node H.Data H.Fn} {k : Bind H.Data H.Fn} {v : Value H.Data H.Fn} :
      r.StartsRound b p c source k (.bind k :: base) m →
        r.Evaluates b p source (.bind k :: base) m n (.error v) → LeavesLoop base n
  /-- The source of a round panics. -/
  | panics {c m : Nat} {source : Node H.Data H.Fn} {k : Bind H.Data H.Fn} {payload : Payload} :
      r.StartsRound b p c source k (.bind k :: base) m → m < n →
        r.IsRunning b p source (.bind k :: base) m n →
          r.stage b p n = some (.concluding (.panicked payload)) → LeavesLoop base n
  /-- The continuation comes to something else than an effect with a continuation. -/
  | answers {c m l : Nat} {source : Node H.Data H.Fn} {k : Bind H.Data H.Fn}
      {v : Value H.Data H.Fn} {i : Interpretation H.Data H.Fn} :
      r.StartsRound b p c source k (.bind k :: base) m →
        r.Evaluates b p source (.bind k :: base) m l (.ok v) → l < n →
          r.stage b p n = some (.driving i) →
            (∀ source' k', i.focus = .node (.flatMap source' k') →
              ¬r.AnswersWith b p k v (.flatMap source' k') l n) → LeavesLoop base n

end

variable {r : Run H} {b c l n m : Nat} {p : Place} {x source y : Node H.Data H.Fn}
  {k : Bind H.Data H.Fn} {frames base : List (Frame H.Data H.Fn)} {v : Value H.Data H.Fn}
  {i : Interpretation H.Data H.Fn} {now now' : Stage H.Data H.Fn} {z : Pending H.Data H.Fn}
  {finish : Finish H.Fn}

theorem HasLooped.stage (h : r.HasLooped b p c l i) : r.stage b p l = some (.driving i) := by
  cases h with
  | enters hstage => exact hstage
  | again _ _ _ _ _ hstage _ => exact hstage

section

variable (hp : (r.world b).pendingAt p = some z)

include hp

/-- An interpretation that goes on with another node does so by its step. -/
theorem Descends.frames_eq {rest : List (Frame H.Data H.Fn)}
    (h : r.Descends b p i source frames l n)
    (hstep : i.step = .next ⟨.node source, rest⟩) (hi : i.focus ≠ .node source) :
    frames = rest := by
  obtain ⟨n, rfl⟩ : ∃ n', n = n' + 1 := ⟨n - 1, by have := h.lt; omega⟩
  have hbefore := h.still n (Nat.le_of_lt_succ h.lt) (Nat.lt_succ_self n)
  rcases driving_or_driving hp hbefore hstep h.stage with hstays | hnext
  · obtain rfl : _ = i := by simpa using h.stage.symm.trans hstays
    exact absurd rfl hi
  · simpa using h.stage.symm.trans hnext

/-- An interpretation that descends from a node with a continuation to its source leaves the
continuation behind, above what has been pending before. -/
theorem Descends.of_flatMap {rest : List (Frame H.Data H.Fn)}
    (h : r.Descends b p ⟨.node (.flatMap source k), rest⟩ source frames l n) :
    frames = .bind k :: rest :=
  h.frames_eq hp rfl fun heq => source.ne_flatMap k (Focus.node.inj heq).symm

theorem Descends.of_attempt {rest : List (Frame H.Data H.Fn)} {reify : Reify}
    (h : r.Descends b p ⟨.node (.attempt x reify), rest⟩ x frames l n) :
    frames = .reify reify :: rest :=
  h.frames_eq hp rfl fun heq => x.ne_attempt reify (Focus.node.inj heq).symm

/-- A continuation has been popped when an effect is run in its place. -/
theorem AnswersWith.frames_eq (h : r.AnswersWith b p k v y m l)
    (hm : r.stage b p m = some (.driving (.settle (.settled (.ok v)) (.bind k :: base))))
    (hl : r.stage b p l = some (.driving i)) (hi : i.focus = .node y) : i = ⟨.node y, base⟩ := by
  cases h with
  | @directly now n hplan hmn hstill =>
      obtain rfl : now = _ := Option.some.inj ((hstill m (Nat.le_refl m) (by omega)).symm.trans hm)
      have hstep : (settle (.settled (.ok v)) (.bind k :: base)).step = .next ⟨.node y, base⟩ := by
        rw [step_settled_cons, Frame.plan, hplan]
        rfl
      rcases driving_or_driving hp (hstill n hmn (Nat.lt_succ_self n)) hstep hl with
        hstays | hnext
      · rw [hl] at hstays
        obtain rfl : i = _ := by simpa using hstays
        contradiction
      · rw [hl] at hnext
        simpa using hnext
  | @asked question post w now frames j n hplan hmj hbefore hjn hstill hdeeds hanswer =>
      obtain rfl : now = _ := Option.some.inj ((hbefore m (Nat.le_refl m) hmj).symm.trans hm)
      have hstep : (settle (.settled (.ok v)) (.bind k :: base)).step =
          .ask question post base := by
        rw [step_settled_cons, Frame.plan, hplan]
        rfl
      obtain ⟨j, rfl⟩ : ∃ j', j = j' + 1 := ⟨j - 1, by omega⟩
      have hfirst := goes_of_stage hp (hbefore j (Nat.le_of_lt_succ hmj) (Nat.lt_succ_self j))
      rw [hstill (j + 1) (Nat.le_refl _) (by omega)] at hfirst
      obtain rfl : frames = base := by
        rcases hfirst.of_ask hstep with heq | heq
        · contradiction
        · simpa using heq
      have hlast := goes_of_stage hp (hstill n hjn (Nat.lt_succ_self n))
      rw [hl, hdeeds] at hlast
      rcases hlast.of_asking with heq | ⟨w', hreply, heq⟩
      · contradiction
      · obtain rfl : w' = .ok w := by
          simp only [Post.deeds, List.cons.injEq, Deed.reply.injEq] at hreply
          exact hreply.1.symm
        simpa [Interpretation.reply, hanswer, continueWith] using heq

theorem goes_to (hs : r.stage b p n = some now) (hs' : r.stage b p (n + 1) = some now') :
    now.Goes (r.deeds b p n) (some now') :=
  hs' ▸ goes_of_stage hp hs

end

section

variable (hp : (r.world b).pendingAt p = some (.driving ⟨.node x, base⟩, finish))

include hp

/-- When it is the turn of an effect of the loop, what was pending when the loop was entered is
pending again. -/
theorem HasLooped.frames_eq (h : r.HasLooped b p c l i) : i.frames = base := by
  induction h with
  | @enters i hstage =>
      have hzero : r.stage b p 0 = some (.driving ⟨.node x, base⟩) :=
        (r.stage_eq_some hp).2 ⟨p, rfl, hp⟩
      obtain rfl : i = _ := by simpa using hstage.symm.trans hzero
      rfl
  | @again c l n m l' i i' source y k frames v _ hfocus hdescends hevaluates hanswers hl hi ih =>
      obtain ⟨focus, rest⟩ := i
      obtain rfl : focus = _ := hfocus
      obtain rfl : rest = base := ih
      obtain rfl := hdescends.of_flatMap hp
      rw [hanswers.frames_eq hp hevaluates.settles hl hi]

/-- The source of a round starts with the continuation of the round above what was pending when the
loop was entered. -/
theorem StartsRound.frames_eq (h : r.StartsRound b p c source k frames n) :
    frames = .bind k :: base := by
  obtain ⟨l, ⟨focus, rest⟩, hlooped, hfocus, hdescends⟩ := h
  obtain rfl : focus = _ := hfocus
  obtain rfl : rest = base := hlooped.frames_eq hp
  exact hdescends.of_flatMap hp

end

section

variable (hp : (r.world b).pendingAt p = some z)

include hp

/-- An effect with which a continuation has answered is the next one of the loop, or the loop is
left. -/
theorem StartsRound.looping_or_leaves (h : r.StartsRound b p c source k (.bind k :: base) m)
    (hevaluates : r.Evaluates b p source (.bind k :: base) m l (.ok v)) (hl : l < n)
    (hs : r.stage b p n = some (.driving i)) :
    r.Looping b p base n ∨ r.LeavesLoop b p base n := by
  by_cases hnext : ∃ source' k', i.focus = .node (.flatMap source' k') ∧
      r.AnswersWith b p k v (.flatMap source' k') l n
  · obtain ⟨source', k', hi, hanswers⟩ := hnext
    obtain ⟨l₀, i₀, hlooped, hfocus, hdescends⟩ := h
    have hagain := hlooped.again hfocus hdescends hevaluates hanswers hs hi
    obtain rfl := hanswers.frames_eq hp hevaluates.settles hs hi
    exact .inl (.opening hagain (Nat.le_refl n) (.one hs))
  · exact .inr (.answers h hevaluates hl hs fun source' k' hi hanswers =>
      hnext ⟨source', k', hi, hanswers⟩)

/-- What an interpretation in a loop does next. -/
theorem Looping.next (h : r.Looping b p base n) (hs : r.stage b p (n + 1) = some now) :
    r.Looping b p base (n + 1) ∨ r.LeavesLoop b p base (n + 1) := by
  cases h with
  | @opening c l source k hlooped hl hstill =>
      rcases driving_or_driving hp (hstill n hl (Nat.lt_succ_self n)) rfl hs with hstays | hnext
      · exact .inl (.opening hlooped (Nat.le_succ_of_le hl) (hstill.snoc hstays))
      · exact .inl (.running ⟨l, _, hlooped, rfl, ⟨Nat.lt_succ_of_le hl, hstill, hnext⟩⟩
          (Nat.le_refl _) (.one hnext))
  | @running c m source k hstarts hm hrunning =>
      rcases hrunning.next hp hm hs with hstays | ⟨o, hevaluates⟩ | ⟨payload, rfl⟩
      · exact .inl (.running hstarts (Nat.le_succ_of_le hm) hstays)
      · cases o with
        | ok v =>
            exact .inl (.applying hstarts hevaluates (Nat.le_refl _) (.one hevaluates.settles))
        | error v => exact .inr (.fails hstarts hevaluates)
      · exact .inr (.panics hstarts (Nat.lt_succ_of_le hm) hrunning hs)
  | @applying c m l source k v hstarts hevaluates hl hstill =>
      have hstage := hstill n hl (Nat.lt_succ_self n)
      cases hplan : k.plan v with
      | answer next =>
          rcases driving_or_driving hp hstage (by rw [step_settled_cons, Frame.plan, hplan]; rfl) hs
            with hstays | hnext
          · exact .inl (.applying hstarts hevaluates (Nat.le_succ_of_le hl) (hstill.snoc hstays))
          · exact hstarts.looping_or_leaves hp hevaluates (Nat.lt_succ_of_le hl) hnext
      | raise payload =>
          rcases driving_or_driving hp hstage (by rw [step_settled_cons, Frame.plan, hplan]; rfl) hs
            with hstays | hnext
          · exact .inl (.applying hstarts hevaluates (Nat.le_succ_of_le hl) (hstill.snoc hstays))
          · exact hstarts.looping_or_leaves hp hevaluates (Nat.lt_succ_of_le hl) hnext
      | ask question post =>
          have hstep : (settle (.settled (.ok v)) (.bind k :: base)).step =
              .ask question post base := by
            rw [step_settled_cons, Frame.plan, hplan]
            rfl
          rcases (goes_to hp hstage hs).of_ask hstep with rfl | rfl
          · exact .inl (.applying hstarts hevaluates (Nat.le_succ_of_le hl) (hstill.snoc hs))
          · exact .inl (.asking hstarts hevaluates hplan (Nat.lt_succ_of_le hl) hstill
              (Nat.le_refl _) (.one hs))
  | @asking c m l j source k v question post hstarts hevaluates hplan hlj hbefore hjn hstill =>
      rcases (goes_to hp (hstill n hjn (Nat.lt_succ_self n)) hs).of_asking with rfl | ⟨w, -, rfl⟩
      · exact .inl (.asking hstarts hevaluates hplan hlj hbefore (Nat.le_succ_of_le hjn)
          (hstill.snoc hs))
      · exact hstarts.looping_or_leaves hp hevaluates (by omega) hs

end

/-- As long as it is under way, an interpretation that has entered a loop is in it or has left
it. -/
theorem looping_or_leaves
    (hp : (r.world b).pendingAt p = some (.driving ⟨.node (.flatMap source k), base⟩, finish))
    (hs : r.stage b p n = some now) :
    r.Looping b p base n ∨ ∃ m, m ≤ n ∧ r.LeavesLoop b p base m := by
  induction n generalizing now with
  | zero =>
      have hzero : r.stage b p 0 = some (.driving ⟨.node (.flatMap source k), base⟩) :=
        (r.stage_eq_some hp).2 ⟨p, rfl, hp⟩
      exact .inl (.opening (.enters hzero) (Nat.le_refl 0) (.one hzero))
  | succ n ih =>
      cases hbefore : r.stage b p n with
      | none =>
          rw [r.stage_eq_none_of_le hp hbefore (Nat.le_succ n)] at hs
          contradiction
      | some before =>
          rcases ih hbefore with hlooping | ⟨m, hm, hleaves⟩
          · rcases hlooping.next hp hs with hnext | hnext
            · exact .inl hnext
            · exact .inr ⟨n + 1, Nat.le_refl _, hnext⟩
          · exact .inr ⟨m, Nat.le_succ_of_le hm, hleaves⟩

/-- As long as an interpretation is at an async node the same is pending. -/
theorem IsRunning.isAtNode {register : Register H.Fn} {scheduler : SchedulerId}
    (hp : (r.world b).pendingAt p = some z)
    (h : r.IsRunning b p (.async register scheduler) frames n (m + 1)) (hnm : n ≤ m)
    (hs : r.stage b p m = some now) : now.IsAtNode register scheduler frames := by
  induction hnm generalizing now with
  | refl =>
      obtain rfl : now = _ := Option.some.inj (hs.symm.trans h.begins)
      exact .comes
  | @step m hnm ih =>
      obtain ⟨before, hbefore, -⟩ := h.within hnm (by omega)
      obtain ⟨stage, hstage, ⟨above, habove⟩, hsettled⟩ :=
        h.within (Nat.le_succ_of_le hnm) (Nat.lt_succ_self _)
      obtain rfl : stage = now := Option.some.inj (hstage.symm.trans hs)
      have hat := ih ⟨h.begins, fun hk hlt => h.within hk (Nat.lt_succ_of_lt hlt)⟩ hbefore
      rcases hat.goes (goes_to hp hbefore hs) with hstays | ⟨o, rfl⟩ | ⟨payload, rfl⟩
      · exact hstays
      · exact absurd rfl (hsettled o)
      · contradiction

/-- An effect is run as long as its continuations are pending. -/
theorem IsRunning.of_check (hp : (r.world b).pendingAt p = some z)
    (hs : r.stage b p n = some (.driving ⟨.node x, frames⟩))
    (hcheck : ∀ l < m, n ≤ l → (r.stage b p l).any (Stage.isAboveHeight frames.length)) :
    r.IsRunning b p x frames n m where
  begins := hs
  within {l} hnl hl := by
    induction hnl with
    | refl => exact ⟨_, hs, Stage.isWithin_node x frames⟩
    | @step l hnl ih =>
        obtain ⟨before, hbefore, hwithin⟩ := ih (Nat.lt_of_succ_lt hl)
        have habove := hcheck _ hl (Nat.le_succ_of_le hnl)
        cases hstage : r.stage b p (l + 1) with
        | none => simp [hstage] at habove
        | some stage =>
            rw [hstage, Option.any_some] at habove
            rcases hwithin.goes (goes_to hp hbefore hstage) with hstays | ⟨o, rfl⟩ | ⟨payload, rfl⟩
            · exact ⟨stage, rfl, hstays⟩
            · simp [settle, Stage.isAboveHeight] at habove
            · simp [Stage.isAboveHeight, Stage.frames?] at habove

section Retry

variable {a e : Ty}

/-- The effect of a round of an effect that is retried until it succeeds: the rounds are the tries
and the sleeps between them, in turn. -/
def retryRound (a e : Ty) (d : Nat) (x : Node H.Data H.Fn) (c : Nat) : Node H.Data H.Fn :=
  if c % 2 = 0 then .retryAfter a e d x else .afterSleep d (.retryAfter a e d x)

theorem AnswersWith.plan_eq {l : Nat} (h : r.AnswersWith b p k v y m l) :
    k.plan v = .answer (.run y) ∨
      ∃ question post w, k.plan v = .ask question post ∧ post.answer w = .ok (.run y) := by
  cases h with
  | directly hplan _ _ => exact .inl hplan
  | asked hplan _ _ _ _ _ hanswer => exact .inr ⟨_, _, _, hplan, hanswer⟩

/-- After a failure there is a sleep. -/
theorem AnswersWith.of_recover {l d : Nat}
    (h : r.AnswersWith b p (.recover a e (.after d x)) v y m l) :
    y = .afterSleep d (.retryAfter a e d x) := by
  have hplan := h.plan_eq
  simp only [Bind.plan, Value.expect] at hplan
  split at hplan
  · split at hplan
    · simp [Plan.settled] at hplan
    · rcases hplan with hanswer | ⟨_, _, w, hask, hanswer⟩
      · contradiction
      · cases hask
        simpa [Post.answer, eq_comm] using hanswer
    · simp at hplan
  · simp at hplan

/-- After a sleep there is another try. -/
theorem AnswersWith.of_next {l : Nat} (h : r.AnswersWith b p (.next .unit x) v y m l) : y = x := by
  have hplan := h.plan_eq
  simp only [Bind.plan, Value.expect] at hplan
  split at hplan
  · simpa [eq_comm] using hplan
  · simp at hplan

theorem HasLooped.focus_eq {d : Nat}
    (hp : (r.world b).pendingAt p = some (.driving ⟨.node (.retryAfter a e d x), base⟩, finish))
    (h : r.HasLooped b p c l i) : i.focus = .node (retryRound a e d x c) := by
  induction h with
  | @enters i hstage =>
      have hzero : r.stage b p 0 = some (.driving ⟨.node (.retryAfter a e d x), base⟩) :=
        (r.stage_eq_some hp).2 ⟨p, rfl, hp⟩
      obtain rfl : i = _ := by simpa using hstage.symm.trans hzero
      rfl
  | @again c l n m l' i i' source y k frames v _ hfocus _ _ hanswers _ hi ih =>
      rw [hi]
      rw [ih] at hfocus
      rcases Nat.mod_two_eq_zero_or_one c with heven | hodd
      · have hround : retryRound a e d x c = .retryAfter a e d x := by simp [retryRound, heven]
        rw [hround] at hfocus
        cases hfocus
        rw [hanswers.of_recover, retryRound, if_neg (by omega)]
      · have hround : retryRound a e d x c = .afterSleep d (.retryAfter a e d x) := by
          simp [retryRound, hodd]
        rw [hround] at hfocus
        cases hfocus
        rw [hanswers.of_next, retryRound, if_pos (by omega)]

/-- Try number `c` of an effect that is retried until it succeeds starts after `n` actions, with
these continuations pending. -/
def Tries (r : Run H) (b : Nat) (p : Place) (x : Effect H.Data H.Fn a e) (c : Nat)
    (frames : List (Frame H.Data H.Fn)) (n : Nat) : Prop :=
  ∃ k below m, r.StartsRound b p (2 * c) (.attempt x.node ⟨a, e⟩) k below m ∧
    r.Descends b p ⟨.node (.attempt x.node ⟨a, e⟩), below⟩ x.node frames m n

/-- What is pending at the rounds of an effect that is retried until it succeeds, above what was
pending when it was entered. -/
structure RetriesInPlace (r : Run H) (b : Nat) (p : Place) (base : List (Frame H.Data H.Fn))
    (x : Effect H.Data H.Fn a e) (d : Nat) : Prop where
  /-- Each round is a try or a sleep. -/
  rounds {c n : Nat} {source : Node H.Data H.Fn} {k : Bind H.Data H.Fn}
      {frames : List (Frame H.Data H.Fn)} : r.StartsRound b p c source k frames n →
    (∃ j, c = 2 * j ∧ source = .attempt x.node ⟨a, e⟩) ∨
      ∃ j, c = 2 * j + 1 ∧ source = .async (.sleep d) sleeperId
  /-- Two continuations are pending when the effect is interpreted. -/
  tries {c n : Nat} {frames : List (Frame H.Data H.Fn)} : r.Tries b p x c frames n →
    frames = .reify ⟨a, e⟩ :: .bind (.recover a e (.after d x.node)) :: base
  /-- One is pending at each sleep, from its start until it is over. -/
  sleeps {c n m : Nat} {k : Bind H.Data H.Fn} {frames : List (Frame H.Data H.Fn)}
      {stage : Stage H.Data H.Fn} :
    r.StartsRound b p (2 * c + 1) (.async (.sleep d) sleeperId) k frames n → n ≤ m →
      r.IsRunning b p (.async (.sleep d) sleeperId) frames n (m + 1) →
        r.stage b p m = some stage →
          stage.IsAtNode (.sleep d) sleeperId
            (.bind (.next .unit (x.retryUntilSuccess d).node) :: base)

theorem retriesInPlace {x : Effect H.Data H.Fn a e} {d : Nat}
    (hp : (r.world b).pendingAt p =
      some (.driving ⟨.node (x.retryUntilSuccess d).node, base⟩, finish)) :
    r.RetriesInPlace b p base x d where
  rounds {c n source k frames} h := by
    obtain ⟨l, i, hlooped, hfocus, -⟩ := h
    rw [hlooped.focus_eq hp, retryRound] at hfocus
    split at hfocus
    · case isTrue heven =>
        cases hfocus
        exact .inl ⟨c / 2, by omega, rfl⟩
    · case isFalse hodd =>
        cases hfocus
        exact .inr ⟨c / 2, by omega, rfl⟩
  tries {c n frames} h := by
    obtain ⟨k, below, m, hstarts, hdescends⟩ := h
    obtain ⟨l, i, hlooped, hfocus, -⟩ := id hstarts
    rw [hlooped.focus_eq hp, retryRound, if_pos (by omega)] at hfocus
    cases hfocus
    obtain rfl := hstarts.frames_eq hp
    exact hdescends.of_attempt hp
  sleeps {c n m k frames stage} hstarts hnm hrunning hs := by
    obtain ⟨l, i, hlooped, hfocus, -⟩ := id hstarts
    rw [hlooped.focus_eq hp, retryRound, if_neg (by omega)] at hfocus
    cases hfocus
    obtain rfl := hstarts.frames_eq hp
    exact hrunning.isAtNode hp hnm hs

end Retry

end Run

namespace Effect

variable {H : Host} {a e : Ty}

/-- Whenever the source of a round of a loop starts, in whatever round and whatever run, just one
continuation is pending above those that were pending when the loop was entered, and an
interpretation that has entered a loop goes through such rounds until it leaves it. In an effect
that is retried until it succeeds two continuations are pending when the effect is tried, and one at
each sleep, after whatever number of failures. -/
theorem loops_in_constant_stack (r : Run H) (b : Nat) (p : Place) (source : Node H.Data H.Fn)
    (k : Bind H.Data H.Fn) (base : List (Frame H.Data H.Fn)) (finish : Finish H.Fn)
    (hp : (r.world b).pendingAt p =
      some (.driving ⟨.node (.flatMap source k), base⟩, finish)) :
    (∀ c source' k' frames n, r.StartsRound b p c source' k' frames n →
        frames = .bind k' :: base) ∧
      (∀ n stage, r.stage b p n = some stage →
        r.Looping b p base n ∨ ∃ m, m ≤ n ∧ r.LeavesLoop b p base m) ∧
        ∀ (x : Effect H.Data H.Fn a e) d, .flatMap source k = (x.retryUntilSuccess d).node →
          r.RetriesInPlace b p base x d := by
  refine ⟨fun c source' k' frames n hstarts => hstarts.frames_eq hp,
    fun n stage hs => Run.looping_or_leaves hp hs, fun x d hx => ?_⟩
  rw [hx] at hp
  exact Run.retriesInPlace hp

end Effect

namespace Drill

/-- What is pending when the effect is tried. -/
def pursued.recovery : Bind Unit Nat := .recover .unit .instant (.after 5 awaited.node)

/-- What is pending when the effect sleeps. -/
def pursued.again : Bind Unit Nat := .next .unit pursued.node

def pursued.attempt : Node Unit Nat := .attempt awaited.node ⟨.unit, .instant⟩

def pursued.failure : Value Unit Nat := .err .unit .instant (.instant 0)

-- The name of the thread that sleeps is made of bytes, which are listed by well-founded recursion.
unseal ByteArray.toList.loop in
set_option maxRecDepth 4000 in
/-- The first round is a try that fails. -/
theorem pursuit_fails : pursuit.HasLooped 2 (.thread 0 2) 1 27
    ⟨.node (.afterSleep 5 pursued.node), []⟩ := by
  have hstarts : pursuit.Descends 2 (.thread 0 2) ⟨.node pursued.node, []⟩ pursued.attempt
      [.bind pursued.recovery] 0 1 :=
    ⟨Nat.one_pos, .one rfl, rfl⟩
  have hruns : pursuit.IsRunning 2 (.thread 0 2) pursued.attempt [.bind pursued.recovery] 1 24 :=
    .of_check pendingAt_pursued rfl (by decide +kernel)
  have hevaluates : pursuit.Evaluates 2 (.thread 0 2) pursued.attempt [.bind pursued.recovery] 1 24
      (.ok pursued.failure) := ⟨hruns, by decide, rfl⟩
  have hasks : pursuit.IsStill 2 (.thread 0 2)
      (.asking (.fixed (.run (.afterSleep 5 pursued.node))) []) 25 27 :=
    (Run.IsStill.one rfl).snoc rfl
  have hanswers : pursuit.AnswersWith 2 (.thread 0 2) pursued.recovery pursued.failure
      (.afterSleep 5 pursued.node) 24 27 :=
    .asked rfl (by decide) (.one rfl) (by decide) hasks rfl rfl
  exact .again (.enters rfl) rfl hstarts hevaluates hanswers rfl rfl

unseal ByteArray.toList.loop in
set_option maxRecDepth 4000 in
/-- The second round is a sleep. -/
theorem pursuit_sleeps :
    pursuit.StartsRound 2 (.thread 0 2) 1 (.async (.sleep 5) sleeperId) pursued.again
      [.bind pursued.again] 28 ∧
      pursuit.IsRunning 2 (.thread 0 2) (.async (.sleep 5) sleeperId) [.bind pursued.again] 28 42 :=
  ⟨⟨27, _, pursuit_fails, rfl, by decide, .one rfl, rfl⟩,
    .of_check pendingAt_pursued rfl (by decide +kernel)⟩

unseal ByteArray.toList.loop in
set_option maxRecDepth 4000 in
/-- The third round is a try again. -/
theorem pursuit_tries : pursuit.Tries 2 (.thread 0 2) awaited 1
    [.reify ⟨.unit, .instant⟩, .bind pursued.recovery] 45 := by
  obtain ⟨⟨l, i, hlooped, hfocus, hdescends⟩, hruns⟩ := pursuit_sleeps
  have hevaluates : pursuit.Evaluates 2 (.thread 0 2) (.async (.sleep 5) sleeperId)
      [.bind pursued.again] 28 42 (.ok .unit) := ⟨hruns, by decide, rfl⟩
  have hanswers : pursuit.AnswersWith 2 (.thread 0 2) pursued.again .unit pursued.node 42 43 :=
    .directly rfl (by decide) (.one rfl)
  have hagain : pursuit.HasLooped 2 (.thread 0 2) 2 43 ⟨.node pursued.node, []⟩ :=
    hlooped.again hfocus hdescends hevaluates hanswers rfl rfl
  exact ⟨pursued.recovery, [.bind pursued.recovery], 44,
    ⟨43, _, hagain, rfl, by decide, .one rfl, rfl⟩, by decide, .one rfl, rfl⟩

unseal ByteArray.toList.loop in
/-- The effect is tried again with what was pending when it was tried first, and in between it is
parked with one continuation. -/
theorem pursued_in_constant_stack :
    ((∀ frames n, pursuit.Tries 2 (.thread 0 2) awaited 1 frames n →
        frames = [.reify ⟨.unit, .instant⟩, .bind pursued.recovery]) ∧
        ∃ frames, pursuit.Tries 2 (.thread 0 2) awaited 1 frames 45) ∧
      ((∀ n id frames, 28 ≤ n → n < 42 →
          pursuit.stage 2 (.thread 0 2) n = some (.parked id frames) →
            frames = [.bind pursued.again]) ∧
        ∃ id frames, pursuit.stage 2 (.thread 0 2) 32 = some (.parked id frames)) ∧
        (∀ c source k frames n, pursuit.StartsRound 2 (.thread 0 2) c source k frames n →
          frames = [.bind k]) ∧
          ∀ n stage, pursuit.stage 2 (.thread 0 2) n = some stage →
            pursuit.Looping 2 (.thread 0 2) [] n ∨
              ∃ m, m ≤ n ∧ pursuit.LeavesLoop 2 (.thread 0 2) [] m := by
  obtain ⟨hrounds, hstages, hretries⟩ :=
    Effect.loops_in_constant_stack pursuit 2 (.thread 0 2) _ _ [] _ pendingAt_pursued
  have hretries := hretries awaited 5 rfl
  obtain ⟨hstarts, hruns⟩ := pursuit_sleeps
  refine ⟨⟨fun frames n => hretries.tries, _, pursuit_tries⟩,
    ⟨fun n id frames hn hlt hs => ?_, 1, _, rfl⟩, hrounds, hstages⟩
  have hrunning := hretries.sleeps (c := 0) hstarts hn
    ⟨hruns.begins, fun hnk hk => hruns.within hnk (by omega)⟩ hs
  exact Option.some.inj hrunning.frames?_eq

end Drill

end Trampoline
