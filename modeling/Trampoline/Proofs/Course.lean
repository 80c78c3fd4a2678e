import Trampoline.Proofs.Deeds

/-!
The course of an interpretation: the stages it goes through, with what it does at each of them,
whoever the threads are that take it further. Between two stages nothing may happen for long. The
continuations are popped in the reverse order of being pushed, the finisher is called at most once,
and it is called once if the course does not get stuck and reaches finitely many nodes.
-/

namespace Trampoline

variable {D F : Type}

/-- How far an interpretation has come. -/
inductive Stage (D F : Type) where
  | driving (i : Interpretation D F)
  | asking (post : Post D F) (frames : List (Frame D F))
  /-- It waits until the registration of an async node has been submitted. -/
  | submitting (id : HandoffId) (frames : List (Frame D F))
  /-- The registration has been submitted, and a thread is about to leave the node. -/
  | leaving (id : HandoffId) (frames : List (Frame D F))
  /-- It waits at the node for an exit. -/
  | parked (id : HandoffId) (frames : List (Frame D F))
  /-- A thread has taken it from the node together with an exit. -/
  | resuming (exit : Exit (Outcome D F)) (frames : List (Frame D F))
  | concluding (exit : Exit (Outcome D F))

/-- The async node whose registration a stage waits to have been submitted. -/
def Stage.parks? : Stage D F → Option HandoffId
  | .submitting id _ => some id
  | .leaving id _ => some id
  | _ => none

/-- The async node for whose exit a stage waits. -/
def Stage.node? : Stage D F → Option HandoffId
  | .parked id _ => some id
  | stage => stage.parks?

/-- Whether a stage is not that of a parked interpretation. -/
def Stage.isUnparked : Stage D F → Bool
  | .parked _ _ => false
  | _ => true

/-- Whether a thread goes on with the interpretation as soon as it takes its turn. -/
def Stage.IsActive : Stage D F → Prop
  | .driving _ => True
  | .leaving _ _ => True
  | .resuming _ _ => True
  | .concluding _ => True
  | _ => False

/-- How an interpretation goes on, together with what it does. -/
inductive Stage.Step : Stage D F → List (Deed D F) → Option (Stage D F) → Prop
  | next {i j : Interpretation D F} :
      i.step = .next j → Step (.driving i) i.deeds (some (.driving j))
  | ask {i : Interpretation D F} {question : Ask D F} {post : Post D F}
      {frames : List (Frame D F)} :
      i.step = .ask question post frames → Step (.driving i) i.deeds (some (.asking post frames))
  | reply {post : Post D F} {frames : List (Frame D F)} {r : Except Payload (Value D F)} :
      Step (.asking post frames) (post.deeds r) (some (.driving (.reply post frames r)))
  | suspend {i : Interpretation D F} {r : Register F} {scheduler : SchedulerId}
      {frames : List (Frame D F)} {id : HandoffId} :
      i.step = .suspend r scheduler frames →
        Step (.driving i) i.deeds (some (.submitting id frames))
  | submitted {id : HandoffId} {frames : List (Frame D F)} :
      Step (.submitting id frames) [] (some (.leaving id frames))
  /-- The panic of a submission lets go of the interpretation that waits for its end. -/
  | lost {id : HandoffId} {frames : List (Frame D F)} : Step (.submitting id frames) [] none
  | inline {id : HandoffId} {frames : List (Frame D F)} {exit : Exit (Outcome D F)} :
      Step (.leaving id frames) [.exit exit] (some (.driving (.settle exit frames)))
  | park {id : HandoffId} {frames : List (Frame D F)} :
      Step (.leaving id frames) [] (some (.parked id frames))
  | deliver {id : HandoffId} {frames : List (Frame D F)} {exit : Exit (Outcome D F)} :
      Step (.parked id frames) [.exit exit] (some (.resuming exit frames))
  | resume {frames : List (Frame D F)} {exit : Exit (Outcome D F)} :
      Step (.resuming exit frames) [] (some (.driving (.settle exit frames)))
  | finish {i : Interpretation D F} {exit : Exit (Outcome D F)} :
      i.step = .finish exit → Step (.driving i) i.deeds (some (.concluding exit))
  | conclude {exit : Exit (Outcome D F)} : Step (.concluding exit) [.finish exit] none

/-- What happens to an interpretation at a stage: nothing, a call of the registration of the node
that it has reached, or a step. -/
inductive Stage.Goes : Stage D F → List (Deed D F) → Option (Stage D F) → Prop
  | rest {s : Stage D F} : Goes s [] (some s)
  | registered {s : Stage D F} {r : Register F} {id : HandoffId} :
      s.node? = some id → Goes s [.call (.register r)] (some s)
  | step {s : Stage D F} {deeds : List (Deed D F)} {o : Option (Stage D F)} :
      s.Step deeds o → Goes s deeds o

/-- The course of an interpretation: its stage at each time, while it is under way, and what it does
until the next time. -/
structure Course (D F : Type) where
  stage : Nat → Option (Stage D F)
  deeds : Nat → List (Deed D F)
  goes : ∀ n s, stage n = some s → s.Goes (deeds n) (stage (n + 1))
  ended : ∀ n, stage n = none → stage (n + 1) = none ∧ deeds n = []

def Course.history (c : Course D F) : Nat → List (Deed D F)
  | 0 => []
  | n + 1 => c.history n ++ c.deeds n

theorem Stacks.append {a b c : List (Frame D F)} {first rest : List (Deed D F)}
    (h : Stacks a first b) (h' : Stacks b rest c) : Stacks a (first ++ rest) c := by
  induction h with
  | nil => exact h'
  | push _ ih => exact .push (ih h')
  | pop _ ih => exact .pop (ih h')
  | flat hflat _ ih => exact .flat hflat (ih h')

theorem Next.stacks (next : Next D F) (frames : List (Frame D F)) :
    Stacks frames next.deeds (Interpretation.continueWith frames next).frames := by
  cases next with
  | run node => exact .nil
  | andThen node resume => exact .push .nil
  | done outcome => exact .nil

def Progress.frames? : Progress D F → Option (List (Frame D F))
  | .next i => some i.frames
  | .ask _ _ frames => some frames
  | .suspend _ _ frames => some frames
  | .finish _ => none

theorem Plan.stacks (plan : Plan D F) {frames out : List (Frame D F)}
    (h : (Interpretation.follow frames plan).frames? = some out) :
    Stacks frames plan.deeds out := by
  cases plan with
  | answer next =>
      obtain rfl := Option.some.inj h
      exact next.stacks frames
  | raise payload =>
      obtain rfl := Option.some.inj h
      exact .nil
  | ask question post =>
      obtain rfl := Option.some.inj h
      exact .flat trivial .nil

theorem Post.stacks (post : Post D F) (frames : List (Frame D F))
    (r : Except Payload (Value D F)) :
    Stacks frames (post.deeds r) (Interpretation.reply post frames r).frames := by
  refine .flat trivial ?_
  cases r with
  | error payload => exact .nil
  | ok v =>
      simp only [Interpretation.reply]
      cases post.answer v with
      | error payload => exact .nil
      | ok next => exact next.stacks frames

theorem Interpretation.stacks (i : Interpretation D F) {out : List (Frame D F)}
    (h : i.step.frames? = some out) : Stacks i.frames i.deeds out := by
  obtain ⟨focus, frames⟩ := i
  cases focus with
  | node node =>
      cases node with
      | thunk t => exact .flat trivial (t.plan.stacks h)
      | async r scheduler =>
          obtain rfl := Option.some.inj h
          exact .flat trivial .nil
      | flatMap source bind =>
          obtain rfl := Option.some.inj h
          exact .push .nil
      | attempt source reify =>
          obtain rfl := Option.some.inj h
          exact .push .nil
  | exit exit =>
      cases exit with
      | panicked payload => contradiction
      | settled outcome =>
          cases frames with
          | nil => contradiction
          | cons frame frames =>
              refine .pop ?_
              have hplan := (frame.plan outcome).stacks h
              cases frame.call? outcome with
              | none => exact hplan
              | some c => exact .flat trivial hplan

theorem Interpretation.deeds_of_finish {i : Interpretation D F} {exit : Exit (Outcome D F)}
    (h : i.step = .finish exit) : i.deeds = [] := by
  obtain ⟨focus, frames⟩ := i
  cases focus with
  | node node =>
      cases node with
      | thunk t =>
          simp only [step] at h
          cases hplan : t.plan <;> simp [hplan, follow] at h
      | _ => contradiction
  | exit exit =>
      cases exit with
      | panicked payload => rfl
      | settled outcome =>
          cases frames with
          | nil => rfl
          | cons frame frames =>
              simp only [step] at h
              cases hplan : frame.plan outcome <;> simp [hplan, follow] at h

theorem Interpretation.deeds_of_suspend {i : Interpretation D F} {r : Register F}
    {scheduler : SchedulerId} {frames : List (Frame D F)}
    (h : i.step = .suspend r scheduler frames) : i.deeds = [.submit r scheduler] := by
  obtain ⟨focus, stack⟩ := i
  cases focus with
  | node node =>
      cases node with
      | async r' scheduler' =>
          obtain ⟨rfl, rfl, -⟩ := Progress.suspend.inj h
          rfl
      | thunk t =>
          simp only [step] at h
          cases hplan : t.plan <;> simp [hplan, follow] at h
      | _ => contradiction
  | exit exit =>
      cases exit with
      | panicked payload => contradiction
      | settled outcome =>
          cases stack with
          | nil => contradiction
          | cons frame stack =>
              simp only [step] at h
              cases hplan : frame.plan outcome <;> simp [hplan, follow] at h

@[simp] theorem Interpretation.finishes (i : Interpretation D F) : Deed.finishes i.deeds = [] := by
  obtain ⟨focus, frames⟩ := i
  cases focus with
  | node node =>
      cases node with
      | thunk t => exact Deed.finishes_plan t.plan
      | _ => rfl
  | exit exit =>
      cases exit with
      | panicked payload => rfl
      | settled outcome =>
          cases frames with
          | nil => rfl
          | cons frame frames =>
              have hplan := Deed.finishes_plan (frame.plan outcome)
              cases frame with
              | reify r => exact hplan
              | _ => cases outcome <;> exact hplan

namespace Stage

def frames? : Stage D F → Option (List (Frame D F))
  | .driving i => some i.frames
  | .asking _ frames => some frames
  | .submitting _ frames => some frames
  | .leaving _ frames => some frames
  | .parked _ frames => some frames
  | .resuming _ frames => some frames
  | .concluding _ => none

/-- A step pops and pushes on the stack that is pending, and leaves another one. -/
theorem Step.stacks {s : Stage D F} {deeds : List (Deed D F)} {o : Option (Stage D F)}
    (h : s.Step deeds o) {frames : List (Frame D F)}
    (hs : ∀ f, s.frames? = some f → f = frames) :
    ∃ out, Stacks frames deeds out ∧ ∀ s', o = some s' → ∀ f, s'.frames? = some f → f = out := by
  cases h with
  | @next i j hstep =>
      obtain rfl := hs _ rfl
      refine ⟨_, i.stacks (by rw [hstep]; rfl), ?_⟩
      rintro _ ⟨⟩ _ ⟨⟩
      rfl
  | @ask i question post frames' hstep =>
      obtain rfl := hs _ rfl
      refine ⟨_, i.stacks (by rw [hstep]; rfl), ?_⟩
      rintro _ ⟨⟩ _ ⟨⟩
      rfl
  | @reply post frames' r =>
      obtain rfl := hs _ rfl
      refine ⟨_, post.stacks frames' r, ?_⟩
      rintro _ ⟨⟩ _ ⟨⟩
      rfl
  | @suspend i r scheduler frames' id hstep =>
      obtain rfl := hs _ rfl
      refine ⟨_, i.stacks (by rw [hstep]; rfl), ?_⟩
      rintro _ ⟨⟩ _ ⟨⟩
      rfl
  | @finish i exit hstep =>
      rw [i.deeds_of_finish hstep]
      refine ⟨_, .nil, ?_⟩
      rintro _ ⟨⟩ _ ⟨⟩
  | lost => exact ⟨_, .nil, by simp⟩
  | conclude => exact ⟨_, .flat trivial .nil, by simp⟩
  | inline =>
      obtain rfl := hs _ rfl
      refine ⟨_, .flat trivial .nil, ?_⟩
      rintro _ ⟨⟩ _ ⟨⟩
      rfl
  | deliver =>
      obtain rfl := hs _ rfl
      refine ⟨_, .flat trivial .nil, ?_⟩
      rintro _ ⟨⟩ _ ⟨⟩
      rfl
  | _ =>
      obtain rfl := hs _ rfl
      refine ⟨_, .nil, ?_⟩
      rintro _ ⟨⟩ _ ⟨⟩
      rfl

theorem Step.finishes {s s' : Stage D F} {deeds : List (Deed D F)}
    (h : s.Step deeds (some s')) : Deed.finishes deeds = [] := by
  cases h with
  | next hstep => exact Interpretation.finishes _
  | ask hstep => exact Interpretation.finishes _
  | reply => exact Deed.finishes_post _ _
  | suspend hstep => exact Interpretation.finishes _
  | finish hstep => exact Interpretation.finishes _
  | _ => rfl

theorem Goes.finishes {s s' : Stage D F} {deeds : List (Deed D F)}
    (h : s.Goes deeds (some s')) : Deed.finishes deeds = [] := by
  cases h with
  | rest => rfl
  | registered hnode => rfl
  | step hstep => exact hstep.finishes

theorem Goes.stacks {s : Stage D F} {deeds : List (Deed D F)} {o : Option (Stage D F)}
    (h : s.Goes deeds o) {frames : List (Frame D F)}
    (hs : ∀ f, s.frames? = some f → f = frames) :
    ∃ out, Stacks frames deeds out ∧ ∀ s', o = some s' → ∀ f, s'.frames? = some f → f = out := by
  cases h with
  | rest =>
      refine ⟨frames, .nil, ?_⟩
      rintro _ ⟨⟩
      exact hs
  | registered hnode =>
      refine ⟨frames, .flat trivial .nil, ?_⟩
      rintro _ ⟨⟩
      exact hs
  | step hstep => exact hstep.stacks hs

/-- A node is about to be looked at. -/
def AtNode : Stage D F → Prop
  | .driving ⟨.node _, _⟩ => True
  | _ => False

/-- How much is left to do before a node is looked at again or the interpretation is over. -/
def left : Stage D F → Nat
  -- Taking a continuation makes up for the question that its function may ask.
  | .driving i => 4 * i.frames.length + 2
  | .asking _ frames => 4 * frames.length + 3
  | .submitting _ frames => 4 * frames.length + 6
  | .leaving _ frames => 4 * frames.length + 5
  | .parked _ frames => 4 * frames.length + 4
  | .resuming _ frames => 4 * frames.length + 3
  | .concluding _ => 0

end Stage

/-- Going on with an answer that runs no node leaves the stack as it is. -/
theorem Next.atNode_or (next : Next D F) (frames : List (Frame D F)) :
    (Stage.driving (Interpretation.continueWith frames next)).AtNode ∨
      (Interpretation.continueWith frames next).frames = frames := by
  cases next with
  | run node => exact .inl trivial
  | andThen node resume => exact .inl trivial
  | done outcome => exact .inr rfl

theorem Post.atNode_or (post : Post D F) (frames : List (Frame D F))
    (r : Except Payload (Value D F)) :
    (Stage.driving (Interpretation.reply post frames r)).AtNode ∨
      (Interpretation.reply post frames r).frames = frames := by
  cases r with
  | error payload => exact .inr rfl
  | ok v =>
      simp only [Interpretation.reply]
      cases post.answer v with
      | error payload => exact .inr rfl
      | ok next => exact next.atNode_or frames

namespace Stage

/-- Away from the nodes, an interpretation is over or takes its innermost continuation. -/
theorem finish_or_follow {i : Interpretation D F} (hi : ¬(driving i).AtNode) :
    (∃ exit, i.step = .finish exit) ∨ ∃ frame frames plan, i.frames = frame :: frames ∧
      i.step = Interpretation.follow frames plan := by
  obtain ⟨focus, frames⟩ := i
  cases focus with
  | node node => exact absurd trivial hi
  | exit exit =>
      cases exit with
      | panicked payload => exact .inl ⟨_, rfl⟩
      | settled outcome =>
          cases frames with
          | nil => exact .inl ⟨_, rfl⟩
          | cons frame frames => exact .inr ⟨frame, frames, frame.plan outcome, rfl, rfl⟩

/-- From node to node, every step leaves less to do. -/
theorem Step.left_lt {s s' : Stage D F} {deeds : List (Deed D F)} (h : s.Step deeds (some s'))
    (hs : ¬s.AtNode) (hs' : ¬s'.AtNode) : s'.left < s.left := by
  cases h with
  | @next i j hstep =>
      rcases finish_or_follow hs with ⟨exit, hfinish⟩ | ⟨frame, frames, plan, hframes, hplan⟩
      · rw [hfinish] at hstep
        contradiction
      · rw [hplan] at hstep
        simp only [left, hframes, List.length_cons]
        cases plan with
        | answer next =>
            obtain rfl := Progress.next.inj hstep
            rcases next.atNode_or frames with hnode | heq
            · exact absurd hnode hs'
            · rw [heq]
              omega
        | raise payload =>
            obtain rfl := Progress.next.inj hstep
            simp only [Interpretation.settle]
            omega
        | ask question post => contradiction
  | @ask i question post frames' hstep =>
      rcases finish_or_follow hs with ⟨exit, hfinish⟩ | ⟨frame, frames, plan, hframes, hplan⟩
      · rw [hfinish] at hstep
        contradiction
      · rw [hplan] at hstep
        cases plan with
        | ask question post =>
            obtain ⟨-, -, rfl⟩ := Progress.ask.inj hstep
            simp only [left, hframes, List.length_cons]
            omega
        | _ => contradiction
  | @reply post frames r =>
      rcases post.atNode_or frames r with hnode | heq
      · exact absurd hnode hs'
      · simp only [left, heq]
        omega
  | @suspend i r scheduler frames' id hstep =>
      rcases finish_or_follow hs with ⟨exit, hfinish⟩ | ⟨frame, frames, plan, hframes, hplan⟩
      · rw [hfinish] at hstep
        contradiction
      · rw [hplan] at hstep
        cases plan <;> contradiction
  | finish hstep =>
      simp only [left]
      omega
  | _ =>
      simp only [left, Interpretation.settle]
      omega

end Stage

namespace Course

variable {c : Course D F}

/-- The stack that is pending at the start becomes, by pushing and popping, the one that is pending
later on. -/
theorem exists_stacks {frames : List (Frame D F)}
    (hstart : ∀ s, c.stage 0 = some s → ∀ f, s.frames? = some f → f = frames) (n : Nat) :
    ∃ out, Stacks frames (c.history n) out ∧
      ∀ s, c.stage n = some s → ∀ f, s.frames? = some f → f = out := by
  induction n with
  | zero => exact ⟨frames, .nil, hstart⟩
  | succ n ih =>
      obtain ⟨mid, hmid, hstage⟩ := ih
      cases hn : c.stage n with
      | none =>
          obtain ⟨hover, hdeeds⟩ := c.ended n hn
          refine ⟨mid, ?_, by simp [hover]⟩
          rw [history, hdeeds, List.append_nil]
          exact hmid
      | some s =>
          obtain ⟨out, hout, hnext⟩ := (c.goes n s hn).stacks (hstage s hn)
          exact ⟨out, hmid.append hout, hnext⟩

theorem finishes_of_stage {n : Nat} {s : Stage D F} (h : c.stage n = some s) :
    Deed.finishes (c.history n) = [] := by
  induction n generalizing s with
  | zero => rfl
  | succ n ih =>
      cases hn : c.stage n with
      | none =>
          rw [(c.ended n hn).1] at h
          contradiction
      | some s₀ =>
          have hgoes := c.goes n s₀ hn
          rw [h] at hgoes
          rw [history, Deed.finishes_append, ih hn, hgoes.finishes]
          rfl

theorem finishes_le_one (n : Nat) : (Deed.finishes (c.history n)).length ≤ 1 := by
  induction n with
  | zero => exact Nat.zero_le 1
  | succ n ih =>
      cases hn : c.stage n with
      | none =>
          rw [history, (c.ended n hn).2, List.append_nil]
          exact ih
      | some s =>
          rw [history, Deed.finishes_append, finishes_of_stage hn, List.nil_append]
          have hgoes := c.goes n s hn
          cases hnext : c.stage (n + 1) with
          | some s' =>
              rw [hnext] at hgoes
              rw [hgoes.finishes]
              exact Nat.zero_le 1
          | none =>
              rw [hnext] at hgoes
              generalize c.deeds n = deeds at hgoes
              cases hgoes with
              | step hstep =>
                  cases hstep with
                  | lost => exact Nat.zero_le 1
                  | conclude => exact Nat.le_refl 1

theorem history_mono {n m : Nat} (hnm : n ≤ m) : c.history n <+: c.history m := by
  induction hnm with
  | refl => exact List.prefix_refl _
  | step _ ih => exact ih.trans (List.prefix_append _ _)

theorem finishes_eq_of_le {n m : Nat} {x : Exit (Outcome D F)}
    (hn : Deed.finishes (c.history n) = [x]) (hnm : n ≤ m) :
    Deed.finishes (c.history m) = [x] := by
  obtain ⟨rest, hrest⟩ := history_mono (c := c) hnm
  have hlength := finishes_le_one (c := c) m
  rw [← hrest, Deed.finishes_append, hn, List.length_append, List.length_singleton] at hlength
  have hnil : Deed.finishes rest = [] := List.eq_nil_of_length_eq_zero (by omega)
  rw [← hrest, Deed.finishes_append, hn, hnil, List.append_nil]

/-- A course on which the interpretation never gets stuck. -/
structure Live (c : Course D F) : Prop where
  moves : ∀ n s, c.stage n = some s →
    ∃ m, n ≤ m ∧ c.stage m = some s ∧ s.Step (c.deeds m) (c.stage (m + 1))
  kept : ∀ n id frames, c.stage n = some (.submitting id frames) → c.stage (n + 1) ≠ none

def Visits (c : Course D F) (n : Nat) : Prop :=
  ∃ s, c.stage n = some s ∧ s.AtNode ∧ s.Step (c.deeds n) (c.stage (n + 1))

theorem Live.finish_of_over (hc : c.Live) {n : Nat} {s : Stage D F} (hs : c.stage n = some s)
    (hover : c.stage (n + 1) = none) : ∃ x, Deed.finishes (c.history (n + 1)) = [x] := by
  have hgoes := c.goes n s hs
  rw [hover] at hgoes
  rw [history, Deed.finishes_append, finishes_of_stage hs, List.nil_append]
  generalize c.deeds n = deeds at hgoes
  cases hgoes with
  | step hstep =>
      cases hstep with
      | lost => exact absurd hover (hc.kept n _ _ hs)
      | @conclude exit => exact ⟨exit, rfl⟩

theorem exists_last {s : Stage D F} (hs : c.stage 0 = some s) {n : Nat} (hn : c.stage n = none) :
    ∃ m s', c.stage m = some s' ∧ c.stage (m + 1) = none := by
  induction n with
  | zero =>
      rw [hs] at hn
      contradiction
  | succ n ih =>
      cases hstage : c.stage n with
      | none => exact ih hstage
      | some s' => exact ⟨n, s', hstage, hn⟩

theorem Live.finish_of_left (hc : c.Live) {last : Nat} (hlast : ∀ n, last ≤ n → ¬c.Visits n)
    (left : Nat) {n : Nat} {s : Stage D F} (hn : last ≤ n) (hs : c.stage n = some s)
    (hleft : s.left = left) : ∃ m x, Deed.finishes (c.history m) = [x] := by
  have hnode {n : Nat} {s : Stage D F} (hn : last ≤ n) (hs : c.stage n = some s) :
      ¬s.AtNode := by
    intro hnode
    obtain ⟨m, hnm, hm, hstep⟩ := hc.moves n s hs
    exact hlast m (Nat.le_trans hn hnm) ⟨s, hm, hnode, hstep⟩
  induction left using Nat.strongRecOn generalizing n s with
  | ind left ih =>
      obtain ⟨m, hnm, hm, hstep⟩ := hc.moves n s hs
      have hlm : last ≤ m := Nat.le_trans hn hnm
      cases hnext : c.stage (m + 1) with
      | some s' =>
          rw [hnext] at hstep
          have hlt := hstep.left_lt (hnode hn hs) (hnode (Nat.le_succ_of_le hlm) hnext)
          exact ih s'.left (hleft ▸ hlt) (Nat.le_succ_of_le hlm) hnext rfl
      | none => exact ⟨m + 1, hc.finish_of_over hm hnext⟩

/-- The finisher is called if the interpretation does not get stuck and reaches finitely many
nodes. -/
theorem Live.finish (hc : c.Live) {s : Stage D F} (hs : c.stage 0 = some s) {last : Nat}
    (hlast : ∀ n, last ≤ n → ¬c.Visits n) : ∃ n x, Deed.finishes (c.history n) = [x] := by
  cases hn : c.stage last with
  | some s' => exact hc.finish_of_left hlast _ (Nat.le_refl last) hn rfl
  | none =>
      obtain ⟨m, s', hm, hover⟩ := exists_last hs hn
      exact ⟨m + 1, hc.finish_of_over hm hover⟩

end Course

end Trampoline
