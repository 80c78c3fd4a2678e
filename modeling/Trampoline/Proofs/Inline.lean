import Trampoline.Proofs.Finishing

/-!
The course of an interpretation does not depend on how its async nodes are submitted and completed.
A script fixes what the functions find around them: their replies, the states they leave and the
exits of the async nodes in the order in which they are reached. A course that follows a script, and
in which every node that gets an exit has had its registration called once, does what the
interpretation does when every callback fires on the spot.
-/

namespace Trampoline

variable {D F σ : Type}

/-- What the functions of an interpretation find around them. It depends on what they have done so
far, and on nothing else. -/
structure Script (D F σ : Type) where
  /-- The reply to a question in a state, and the state that is left. -/
  reply : σ → Ask D F → Except Payload (Value D F) × σ
  /-- The state in which a registration has done all it does to the state. -/
  register : σ → Register F → σ
  /-- The exits of the async nodes, in the order in which they are reached. -/
  exits : Nat → Exit (Outcome D F)

/-- What an interpretation waits for. -/
inductive Awaited (D F : Type) where
  | nothing
  | reply (question : Ask D F)
  | exit (registration : Register F)

/-- How far a script has been played. -/
structure Moment (D F σ : Type) where
  state : σ
  /-- The number of async nodes that have got their exits. -/
  count : Nat
  awaited : Awaited D F

/-- Whether a deed involves nothing around the interpretation. -/
def Deed.IsQuiet : Deed D F → Prop
  | .push _ => True
  | .pop _ => True
  | .call (.register _) => False
  | .call _ => True
  | .finish _ => True
  | _ => False

def Deed.registrations (regs : List (Register F)) : List (Deed D F) :=
  regs.map fun r => .call (.register r)

namespace Script

/-- A deed that follows a script. Registrations may be called, whichever and how often, while the
exit of a node is awaited; when it comes, the node's registration has done what it does to the
state. -/
inductive Allows (S : Script D F σ) : Moment D F σ → Deed D F → Moment D F σ → Prop
  | quiet {s : σ} {k : Nat} {deed : Deed D F} :
      deed.IsQuiet → Allows S ⟨s, k, .nothing⟩ deed ⟨s, k, .nothing⟩
  | ask {s : σ} {k : Nat} {question : Ask D F} :
      Allows S ⟨s, k, .nothing⟩ (.ask question) ⟨s, k, .reply question⟩
  | reply {s : σ} {k : Nat} {question : Ask D F} :
      Allows S ⟨s, k, .reply question⟩ (.reply (S.reply s question).1)
        ⟨(S.reply s question).2, k, .nothing⟩
  | submit {s : σ} {k : Nat} {r : Register F} {scheduler : SchedulerId} :
      Allows S ⟨s, k, .nothing⟩ (.submit r scheduler) ⟨s, k, .exit r⟩
  | register {s : σ} {k : Nat} {r r' : Register F} :
      Allows S ⟨s, k, .exit r⟩ (.call (.register r')) ⟨s, k, .exit r⟩
  | exit {s : σ} {k : Nat} {r : Register F} :
      Allows S ⟨s, k, .exit r⟩ (.exit (S.exits k)) ⟨S.register s r, k + 1, .nothing⟩

/-- Deeds that follow a script, from one moment to another. -/
inductive Follows (S : Script D F σ) : Moment D F σ → List (Deed D F) → Moment D F σ → Prop
  | nil {m : Moment D F σ} : Follows S m [] m
  | cons {m m₁ m' : Moment D F σ} {deed : Deed D F} {deeds : List (Deed D F)} :
      S.Allows m deed m₁ → Follows S m₁ deeds m' → Follows S m (deed :: deeds) m'

variable {S : Script D F σ}

theorem Allows.unique {m m₁ m₂ : Moment D F σ} {deed : Deed D F} (h : S.Allows m deed m₁)
    (h' : S.Allows m deed m₂) : m₁ = m₂ := by
  cases h with
  | quiet hquiet =>
      cases h' with
      | quiet => rfl
      | _ => exact hquiet.elim
  | ask =>
      cases h' with
      | quiet hquiet => exact hquiet.elim
      | ask => rfl
  | submit =>
      cases h' with
      | quiet hquiet => exact hquiet.elim
      | submit => rfl
  | reply =>
      generalize hr : (S.reply _ _).1 = r at h'
      cases h'
      rfl
  | register =>
      cases h'
      rfl
  | exit =>
      generalize hx : S.exits _ = x at h'
      cases h'
      rfl

theorem Follows.append_iff {m m' : Moment D F σ} {first rest : List (Deed D F)} :
    S.Follows m (first ++ rest) m' ↔ ∃ m₁, S.Follows m first m₁ ∧ S.Follows m₁ rest m' := by
  constructor
  · intro h
    induction first generalizing m with
    | nil => exact ⟨m, .nil, h⟩
    | cons deed deeds ih =>
        cases h with
        | cons hallows hrest =>
            obtain ⟨m₁, hfirst, hlast⟩ := ih hrest
            exact ⟨m₁, .cons hallows hfirst, hlast⟩
  · rintro ⟨m₁, hfirst, hrest⟩
    induction hfirst with
    | nil => exact hrest
    | cons hallows _ ih => exact .cons hallows (ih hrest)

theorem Follows.unique {m m₁ m₂ : Moment D F σ} {deeds : List (Deed D F)}
    (h : S.Follows m deeds m₁) (h' : S.Follows m deeds m₂) : m₁ = m₂ := by
  induction h with
  | nil =>
      cases h'
      rfl
  | cons hallows _ ih =>
      cases h' with
      | cons hallows' hrest =>
          obtain rfl := hallows.unique hallows'
          exact ih hrest

theorem Follows.of_quiet {s : σ} {k : Nat} {deeds : List (Deed D F)}
    (h : ∀ deed ∈ deeds, deed.IsQuiet) :
    S.Follows ⟨s, k, .nothing⟩ deeds ⟨s, k, .nothing⟩ := by
  induction deeds with
  | nil => exact .nil
  | cons deed deeds ih =>
      exact .cons (.quiet (h deed (by simp))) (ih fun d hd => h d (List.mem_cons_of_mem _ hd))

/-- The exit of a node is the next one of the script. -/
theorem Follows.registrations {s : σ} {k : Nat} {r : Register F}
    {regs : List (Register F)} {exit : Exit (Outcome D F)} {m : Moment D F σ}
    (h : S.Follows ⟨s, k, .exit r⟩ (Deed.registrations regs ++ [.exit exit]) m) :
    exit = S.exits k ∧ m = ⟨S.register s r, k + 1, .nothing⟩ := by
  induction regs with
  | nil =>
      cases h with
      | cons hallows hnil =>
          cases hallows with
          | exit =>
              cases hnil
              exact ⟨rfl, rfl⟩
  | cons r' regs ih =>
      cases h with
      | cons hallows hrest =>
          cases hallows with
          | register => exact ih hrest

end Script

theorem Next.isQuiet {next : Next D F} {deed : Deed D F} (h : deed ∈ next.deeds) :
    deed.IsQuiet := by
  cases next with
  | andThen node resume =>
      obtain rfl := List.mem_singleton.1 h
      trivial
  | _ => simp [Next.deeds] at h

namespace Interpretation

/-- The step of an interpretation: it reaches an async node, ends, goes on to the source of a node,
or follows a plan. -/
theorem step_cases (i : Interpretation D F) :
    (∃ r scheduler frames, i.step = .suspend r scheduler frames ∧ i.deeds = [.submit r scheduler]) ∨
      (∃ exit, i.step = .finish exit ∧ i.deeds = []) ∨
      (∃ j frame, i.step = .next j ∧ i.deeds = [.push frame]) ∨
      ∃ before frames plan, i.step = follow frames plan ∧ i.deeds = before ++ plan.deeds ∧
        ∀ deed ∈ before, deed.IsQuiet := by
  obtain ⟨focus, frames⟩ := i
  cases focus with
  | node node =>
      cases node with
      | thunk t =>
          exact .inr (.inr (.inr
            ⟨[.call (.thunk t)], frames, t.plan, rfl, rfl, by simp [Deed.IsQuiet]⟩))
      | async r scheduler => exact .inl ⟨r, scheduler, frames, rfl, rfl⟩
      | flatMap source bind => exact .inr (.inr (.inl ⟨_, _, rfl, rfl⟩))
      | attempt source reify => exact .inr (.inr (.inl ⟨_, _, rfl, rfl⟩))
  | exit exit =>
      cases exit with
      | panicked payload => exact .inr (.inl ⟨_, rfl, rfl⟩)
      | settled outcome =>
          cases frames with
          | nil => exact .inr (.inl ⟨_, rfl, rfl⟩)
          | cons frame frames =>
              refine .inr (.inr (.inr ⟨.pop frame :: (frame.call? outcome).toList.map .call, frames,
                frame.plan outcome, rfl, by simp [deeds], ?_⟩))
              cases frame with
              | reify reify => simp [Frame.call?, Deed.IsQuiet]
              | _ => cases outcome <;> simp [Frame.call?, Deed.IsQuiet]

variable {S : Script D F σ} {s : σ} {k : Nat} {i : Interpretation D F}

theorem isQuiet_of_next {j : Interpretation D F} (h : i.step = .next j) {deed : Deed D F}
    (hdeed : deed ∈ i.deeds) : deed.IsQuiet := by
  rcases i.step_cases with
    ⟨r, scheduler, frames, hstep, -⟩ | ⟨exit, hstep, -⟩ | ⟨j', frame, -, hdeeds⟩ |
      ⟨before, frames, plan, hstep, hdeeds, hbefore⟩
  · rw [hstep] at h
    contradiction
  · rw [hstep] at h
    contradiction
  · rw [hdeeds] at hdeed
    obtain rfl := List.mem_singleton.1 hdeed
    trivial
  · rw [hstep] at h
    rw [hdeeds] at hdeed
    cases plan with
    | answer next =>
        rcases List.mem_append.1 hdeed with hmem | hmem
        · exact hbefore deed hmem
        · exact Next.isQuiet hmem
    | raise payload =>
        rw [Plan.deeds, List.append_nil] at hdeed
        exact hbefore deed hdeed
    | ask question post => contradiction

theorem deeds_of_ask {question : Ask D F} {post : Post D F} {frames : List (Frame D F)}
    (h : i.step = .ask question post frames) :
    ∃ before, i.deeds = before ++ [.ask question] ∧ ∀ deed ∈ before, deed.IsQuiet := by
  rcases i.step_cases with
    ⟨r, scheduler, frames, hstep, -⟩ | ⟨exit, hstep, -⟩ | ⟨j', frame, hstep, -⟩ |
      ⟨before, frames, plan, hstep, hdeeds, hbefore⟩
  · rw [hstep] at h
    contradiction
  · rw [hstep] at h
    contradiction
  · rw [hstep] at h
    contradiction
  · rw [hstep] at h
    cases plan with
    | ask question' post' =>
        obtain ⟨rfl, -, -⟩ := Progress.ask.inj h
        exact ⟨before, hdeeds, hbefore⟩
    | _ => contradiction

theorem follows_of_next {j : Interpretation D F} (h : i.step = .next j) :
    S.Follows ⟨s, k, .nothing⟩ i.deeds ⟨s, k, .nothing⟩ :=
  .of_quiet fun _ hdeed => isQuiet_of_next h hdeed

theorem follows_of_ask {question : Ask D F} {post : Post D F} {frames : List (Frame D F)}
    (h : i.step = .ask question post frames) :
    S.Follows ⟨s, k, .nothing⟩ i.deeds ⟨s, k, .reply question⟩ := by
  obtain ⟨before, hdeeds, hbefore⟩ := deeds_of_ask h
  rw [hdeeds]
  exact Script.Follows.append_iff.2 ⟨_, .of_quiet hbefore, .cons .ask .nil⟩

end Interpretation

theorem Post.exists_deeds (post : Post D F) (r : Except Payload (Value D F)) :
    ∃ after, post.deeds r = .reply r :: after ∧ ∀ deed ∈ after, deed.IsQuiet := by
  refine ⟨_, rfl, fun deed hdeed => ?_⟩
  cases r with
  | error payload => simp at hdeed
  | ok v =>
      simp only at hdeed
      split at hdeed
      · exact Next.isQuiet hdeed
      · simp at hdeed

theorem Post.follows {S : Script D F σ} {s : σ} {k : Nat} {question : Ask D F} (post : Post D F) :
    S.Follows ⟨s, k, .reply question⟩ (post.deeds (S.reply s question).1)
      ⟨(S.reply s question).2, k, .nothing⟩ := by
  obtain ⟨after, hdeeds, hafter⟩ := post.exists_deeds (S.reply s question).1
  rw [hdeeds]
  exact .cons .reply (.of_quiet hafter)

/-- An interpretation under a script. -/
structure Scene (D F σ : Type) where
  state : σ
  count : Nat
  focus : Interpretation D F

namespace Script

/-- The next scene when every callback fires on the spot, unless the interpretation ends. -/
def next? (S : Script D F σ) : Scene D F σ → Option (Scene D F σ)
  | ⟨s, k, i⟩ =>
      match i.step with
      | .next j => some ⟨s, k, j⟩
      | .ask question post frames =>
          let (r, s) := S.reply s question
          some ⟨s, k, .reply post frames r⟩
      | .suspend r _ frames => some ⟨S.register s r, k + 1, .settle (S.exits k) frames⟩
      | .finish _ => none

/-- What is done on the way to the next scene. -/
def deeds (S : Script D F σ) : Scene D F σ → List (Deed D F)
  | ⟨s, k, i⟩ =>
      match i.step with
      | .next _ => i.deeds
      | .ask question post _ => i.deeds ++ post.deeds (S.reply s question).1
      | .suspend r _ _ => i.deeds ++ [.call (.register r), .exit (S.exits k)]
      | .finish exit => [.finish exit]

/-- What is done in a number of scenes when every callback fires on the spot. -/
def inline (S : Script D F σ) : Nat → Scene D F σ → List (Deed D F)
  | 0, _ => []
  | n + 1, scene =>
      S.deeds scene ++
        match S.next? scene with
        | some scene' => inline S n scene'
        | none => []

end Script

namespace Course

variable {c : Course D F}

/-- What is left of a course from a time on. -/
def drop (c : Course D F) (n : Nat) : Course D F where
  stage m := c.stage (n + m)
  deeds m := c.deeds (n + m)
  goes m := c.goes (n + m)
  ended m := c.ended (n + m)

theorem history_add (n m : Nat) : c.history (n + m) = c.history n ++ (c.drop n).history m := by
  induction m with
  | zero => exact (List.append_nil _).symm
  | succ m ih =>
      rw [← Nat.add_assoc, history, ih, history, List.append_assoc]
      rfl

theorem Live.drop (hc : c.Live) (n : Nat) : (c.drop n).Live where
  moves m s hs := by
    obtain ⟨k, hk, hstage, hstep⟩ := hc.moves (n + m) s hs
    obtain ⟨d, rfl⟩ := Nat.exists_eq_add_of_le hk
    rw [Nat.add_assoc] at hstage hstep
    exact ⟨m + d, Nat.le_add_right m d, hstage, hstep⟩
  kept m id frames := hc.kept (n + m) id frames

theorem history_of_over {n m : Nat} (hn : c.stage n = none) (hnm : n ≤ m) :
    c.history m = c.history n := by
  have hover (k : Nat) : c.stage (n + k) = none := by
    induction k with
    | zero => exact hn
    | succ k ih => exact (c.ended _ ih).1
  induction hnm with
  | refl => rfl
  | @step m hm ih =>
      obtain ⟨k, rfl⟩ := Nat.exists_eq_add_of_le hm
      rw [history, (c.ended _ (hover k)).2, List.append_nil, ih]

theorem history_prefix_of_over {n : Nat} (hn : c.stage n = none) (m : Nat) :
    c.history m <+: c.history n := by
  rcases Nat.le_total m n with hmn | hnm
  · exact history_mono hmn
  · exact ⟨[], by rw [List.append_nil, history_of_over hn hnm]⟩

/-- Before the next step of an interpretation nothing is done but that the registration of its node
is called. -/
theorem exists_step {n : Nat} {s : Stage D F} (hs : c.stage n = some s)
    (hmoves : ∃ m, n ≤ m ∧ c.stage m = some s ∧ s.Step (c.deeds m) (c.stage (m + 1))) :
    ∃ m regs, n ≤ m ∧ c.history m = c.history n ++ Deed.registrations regs ∧
      (s.node? = none → regs = []) ∧ c.stage m = some s ∧ s.Step (c.deeds m) (c.stage (m + 1)) := by
  obtain ⟨m, hm, hstage, hstep⟩ := hmoves
  obtain ⟨d, rfl⟩ := Nat.exists_eq_add_of_le hm
  clear hm
  -- The induction is on how long it takes until the step.
  induction d generalizing n with
  | zero => exact ⟨n, [], Nat.le_refl n, (List.append_nil _).symm, fun _ => rfl, hs, hstep⟩
  | succ d ih =>
      have hgoes := c.goes n s hs
      generalize hnext : c.stage (n + 1) = o at hgoes
      generalize hdeeds : c.deeds n = deeds at hgoes
      have hshift : n + (d + 1) = n + 1 + d := by omega
      rw [hshift] at hstage hstep
      cases hgoes with
      | rest =>
          obtain ⟨m, regs, hm, hhistory, hrest⟩ := ih hnext hstage hstep
          refine ⟨m, regs, Nat.le_of_succ_le hm, ?_, hrest⟩
          rw [hhistory, history, hdeeds, List.append_nil]
      | @registered r id hnode =>
          obtain ⟨m, regs, hm, hhistory, -, hrest⟩ := ih hnext hstage hstep
          refine ⟨m, r :: regs, Nat.le_of_succ_le hm, ?_, fun hnone => ?_, hrest⟩
          · rw [hhistory, history, hdeeds, List.append_assoc]
            rfl
          · rw [hnone] at hnode
            contradiction
      | step hstep' =>
          refine ⟨n, [], Nat.le_refl n, (List.append_nil _).symm, fun _ => rfl, hs, ?_⟩
          rw [hnext, hdeeds]
          exact hstep'

theorem Live.exists_step (hc : c.Live) {n : Nat} {s : Stage D F} (hs : c.stage n = some s) :
    ∃ m regs, n ≤ m ∧ c.history m = c.history n ++ Deed.registrations regs ∧
      (s.node? = none → regs = []) ∧ c.stage m = some s ∧ s.Step (c.deeds m) (c.stage (m + 1)) :=
  Course.exists_step hs (hc.moves n s hs)

theorem Live.of_resuming (hc : c.Live) {n : Nat} {exit : Exit (Outcome D F)}
    {frames : List (Frame D F)} (hs : c.stage n = some (.resuming exit frames)) :
    ∃ m, n < m ∧ c.stage m = some (.driving (.settle exit frames)) ∧
      c.history m = c.history n := by
  obtain ⟨m, regs, hm, hhistory, hregs, -, hstep⟩ := hc.exists_step hs
  obtain rfl := hregs rfl
  generalize hnext : c.stage (m + 1) = o at hstep
  generalize hdeeds : c.deeds m = deeds at hstep
  cases hstep with
  | resume =>
      refine ⟨m + 1, Nat.lt_succ_of_le hm, hnext, ?_⟩
      rw [history, hdeeds, hhistory]
      simp [Deed.registrations]

/-- From time `n` on, nothing is done but that registrations are called, until an exit comes and the
stack goes on with it. -/
def GoesOn (c : Course D F) (n : Nat) (frames : List (Frame D F)) : Prop :=
  ∃ m regs exit, n < m ∧ c.stage m = some (.driving (.settle exit frames)) ∧
    c.history m = c.history n ++ (Deed.registrations regs ++ [.exit exit])

/-- A course takes a step from a stage, at time `n` or later. -/
def MovesFrom (c : Course D F) (n : Nat) (s : Stage D F) : Prop :=
  ∃ m, n ≤ m ∧ c.stage m = some s ∧ s.Step (c.deeds m) (c.stage (m + 1))

/-- From time `n` on, nothing is done but that registrations are called, until the exit of node `id`
comes at time `m`. -/
structure GetsExit (c : Course D F) (n : Nat) (id : HandoffId) (frames : List (Frame D F)) (m : Nat)
    (exit : Exit (Outcome D F)) : Prop where
  le : n ≤ m
  waits : ∃ s, c.stage m = some s ∧ s.node? = some id
  deeds : c.deeds m = [.exit exit]
  history : ∃ regs, c.history m = c.history n ++ Deed.registrations regs
  goesOn : c.stage (m + 1) = some (.resuming exit frames) ∨
    c.stage (m + 1) = some (.driving (.settle exit frames))

section Node

variable {n m k : Nat} {id : HandoffId} {frames : List (Frame D F)} {exit : Exit (Outcome D F)}
  {regs : List (Register F)}

theorem GetsExit.of_le (h : c.GetsExit k id frames m exit) (hnk : n ≤ k)
    (hhistory : c.history k = c.history n ++ Deed.registrations regs) :
    c.GetsExit n id frames m exit where
  le := Nat.le_trans hnk h.le
  waits := h.waits
  deeds := h.deeds
  history := by
    obtain ⟨regs', hrest⟩ := h.history
    refine ⟨regs ++ regs', ?_⟩
    rw [hrest, hhistory]
    simp [Deed.registrations]
  goesOn := h.goesOn

theorem exists_getsExit_of_parked (hs : c.stage n = some (.parked id frames))
    (hmoves : c.MovesFrom n (.parked id frames)) : ∃ m exit, c.GetsExit n id frames m exit := by
  obtain ⟨m, regs, hm, hhistory, -, hs', hstep⟩ := exists_step hs hmoves
  generalize hnext : c.stage (m + 1) = o at hstep
  generalize hdeeds : c.deeds m = deeds at hstep
  cases hstep with
  | @deliver _ _ exit =>
      exact ⟨m, exit, hm, ⟨_, hs', rfl⟩, hdeeds, ⟨regs, hhistory⟩, .inl hnext⟩

theorem exists_getsExit_of_leaving (hs : c.stage n = some (.leaving id frames))
    (hmoves : c.MovesFrom n (.leaving id frames))
    (hparked : ∀ m, c.stage m = some (.parked id frames) → c.MovesFrom m (.parked id frames)) :
    ∃ m exit, c.GetsExit n id frames m exit := by
  obtain ⟨m, regs, hm, hhistory, -, hs', hstep⟩ := exists_step hs hmoves
  generalize hnext : c.stage (m + 1) = o at hstep
  generalize hdeeds : c.deeds m = deeds at hstep
  cases hstep with
  | @inline _ _ exit =>
      exact ⟨m, exit, hm, ⟨_, hs', rfl⟩, hdeeds, ⟨regs, hhistory⟩, .inr hnext⟩
  | park =>
      have hsame : c.history (m + 1) = c.history n ++ Deed.registrations regs := by
        rw [history, hdeeds, List.append_nil, hhistory]
      obtain ⟨m', exit, hexit⟩ := exists_getsExit_of_parked hnext (hparked _ hnext)
      exact ⟨m', exit, hexit.of_le (Nat.le_succ_of_le hm) hsame⟩

/-- An interpretation that waits for the end of a submission gets the exit of its node, if it does
not get stuck there. -/
theorem exists_getsExit (hs : c.stage n = some (.submitting id frames))
    (hmoves : c.MovesFrom n (.submitting id frames))
    (hkept : ∀ m, c.stage m = some (.submitting id frames) → c.stage (m + 1) ≠ none)
    (hleaving : ∀ m, c.stage m = some (.leaving id frames) → c.MovesFrom m (.leaving id frames))
    (hparked : ∀ m, c.stage m = some (.parked id frames) → c.MovesFrom m (.parked id frames)) :
    ∃ m exit, c.GetsExit n id frames m exit := by
  obtain ⟨m, regs, hm, hhistory, -, hs', hstep⟩ := exists_step hs hmoves
  have hnone := hkept m hs'
  generalize hnext : c.stage (m + 1) = o at hstep hnone
  generalize hdeeds : c.deeds m = deeds at hstep
  cases hstep with
  | lost => exact absurd rfl hnone
  | submitted =>
      have hsame : c.history (m + 1) = c.history n ++ Deed.registrations regs := by
        rw [history, hdeeds, List.append_nil, hhistory]
      obtain ⟨m', exit, hexit⟩ := exists_getsExit_of_leaving hnext (hleaving _ hnext) hparked
      exact ⟨m', exit, hexit.of_le (Nat.le_succ_of_le hm) hsame⟩

theorem GetsExit.history_succ (h : c.GetsExit n id frames m exit) :
    ∃ regs, c.history (m + 1) = c.history n ++ (Deed.registrations regs ++ [.exit exit]) := by
  obtain ⟨regs, hhistory⟩ := h.history
  exact ⟨regs, by rw [Course.history, hhistory, h.deeds, List.append_assoc]⟩

theorem Live.of_submitting (hc : c.Live) (hs : c.stage n = some (.submitting id frames)) :
    c.GoesOn n frames := by
  obtain ⟨m, exit, hexit⟩ := exists_getsExit hs (hc.moves n _ hs) (fun m => hc.kept m id frames)
    (fun m => hc.moves m _) fun m => hc.moves m _
  obtain ⟨regs, hhistory⟩ := hexit.history_succ
  have hm := hexit.le
  rcases hexit.goesOn with hresuming | hdriving
  · obtain ⟨m', hm', hstage, hsame⟩ := hc.of_resuming hresuming
    exact ⟨m', regs, exit, by omega, hstage, hsame.trans hhistory⟩
  · exact ⟨m + 1, regs, exit, by omega, hdriving, hhistory⟩

end Node

/-- Every node that gets an exit has had its registration called once, and no other. -/
structure RegistersOnce (c : Course D F) : Prop where
  registrations_eq {n m : Nat} {i : Interpretation D F} {r : Register F}
      {scheduler : SchedulerId} {frames frames' : List (Frame D F)} {id : HandoffId}
      {regs : List (Register F)} {exit : Exit (Outcome D F)} :
    c.stage n = some (.driving i) → i.step = .suspend r scheduler frames →
      c.stage (n + 1) = some (.submitting id frames') →
        c.history m = c.history (n + 1) ++ (Deed.registrations regs ++ [.exit exit]) → regs = [r]

theorem RegistersOnce.drop (h : c.RegistersOnce) (n : Nat) : (c.drop n).RegistersOnce where
  registrations_eq {n' m _ _ _ _ _ _ regs exit} hs hstep hs' hhistory := by
    have hwhole : c.history (n + m) =
        c.history (n + n' + 1) ++ (Deed.registrations regs ++ [.exit exit]) := by
      rw [history_add, hhistory, ← List.append_assoc, ← history_add]
      rfl
    exact h.registrations_eq hs hstep hs' hwhole

/-- A course from a scene that follows a script. -/
structure Plays (c : Course D F) (S : Script D F σ) (scene : Scene D F σ) : Prop where
  live : c.Live
  registers : c.RegistersOnce
  starts : c.stage 0 = some (.driving scene.focus)
  follows : ∀ n, ∃ m, S.Follows ⟨scene.state, scene.count, .nothing⟩ (c.history n) m

variable {S : Script D F σ} {scene scene' : Scene D F σ}

theorem Plays.drop (h : c.Plays S scene) {n : Nat}
    (hn : c.stage n = some (.driving scene'.focus))
    (hhistory : S.Follows ⟨scene.state, scene.count, .nothing⟩ (c.history n)
      ⟨scene'.state, scene'.count, .nothing⟩) : (c.drop n).Plays S scene' where
  live := h.live.drop n
  registers := h.registers.drop n
  starts := hn
  follows m := by
    obtain ⟨m', hm'⟩ := h.follows (n + m)
    rw [history_add] at hm'
    obtain ⟨m₁, hfirst, hrest⟩ := Script.Follows.append_iff.1 hm'
    -- A script has one moment at which the first part can end.
    obtain rfl := hfirst.unique hhistory
    exact ⟨m', hrest⟩

/-- At some time the course has done what is done in a scene when every callback fires on the spot,
and it goes on with the next scene, if there is one. -/
def Advances (c : Course D F) (S : Script D F σ) (scene : Scene D F σ) : Prop :=
  ∃ n, 0 < n ∧ c.history n = S.deeds scene ∧
    (S.next? scene = none ∧ c.stage n = none ∨
      ∃ scene', S.next? scene = some scene' ∧ (c.drop n).Plays S scene')

section Advance

variable {s : σ} {k n : Nat} {i : Interpretation D F}

theorem Plays.advances_of_next (h : c.Plays S ⟨s, k, i⟩) {j : Interpretation D F}
    (hj : i.step = .next j) (hstage : c.stage (n + 1) = some (.driving j))
    (hhistory : c.history (n + 1) = i.deeds) : c.Advances S ⟨s, k, i⟩ := by
  have hscene : S.next? ⟨s, k, i⟩ = some ⟨s, k, j⟩ := by simp only [Script.next?, hj]
  refine ⟨n + 1, Nat.succ_pos n, ?_, .inr ⟨_, hscene, h.drop hstage ?_⟩⟩
  · simp only [hhistory, Script.deeds, hj]
  · rw [hhistory]
    exact Interpretation.follows_of_next hj

theorem Plays.advances_of_ask (h : c.Plays S ⟨s, k, i⟩) {question : Ask D F} {post : Post D F}
    {frames : List (Frame D F)} (hask : i.step = .ask question post frames)
    (hstage : c.stage n = some (.asking post frames)) (hhistory : c.history n = i.deeds) :
    c.Advances S ⟨s, k, i⟩ := by
  obtain ⟨m, regs, -, hsame, hregs, -, hstep⟩ := h.live.exists_step hstage
  obtain rfl := hregs rfl
  generalize hnext : c.stage (m + 1) = o at hstep
  have hdone : c.history (m + 1) = i.deeds ++ c.deeds m := by
    rw [history, hsame, hhistory]
    simp [Deed.registrations]
  generalize c.deeds m = deeds at hstep hdone
  cases hstep with
  | @reply _ _ r =>
      have hr : r = (S.reply s question).1 := by
        obtain ⟨m₂, hfollows⟩ := h.follows (m + 1)
        rw [hdone] at hfollows
        obtain ⟨m₁, hfirst, hrest⟩ := Script.Follows.append_iff.1 hfollows
        obtain rfl := hfirst.unique (Interpretation.follows_of_ask hask)
        cases hrest with
        | cons hallows =>
            cases hallows
            rfl
      subst hr
      have hscene : S.next? ⟨s, k, i⟩ = some ⟨(S.reply s question).2, k,
          .reply post frames (S.reply s question).1⟩ := by simp only [Script.next?, hask]
      refine ⟨m + 1, Nat.succ_pos m, ?_, .inr ⟨_, hscene, h.drop hnext ?_⟩⟩
      · simp only [hdone, Script.deeds, hask]
      · rw [hdone]
        exact Script.Follows.append_iff.2 ⟨_, Interpretation.follows_of_ask hask, post.follows⟩

/-- The exit of an async node is the one that the script has, whichever way it comes. -/
theorem Plays.advances_of_suspend (h : c.Plays S ⟨s, k, i⟩) {r : Register F}
    {scheduler : SchedulerId} {frames : List (Frame D F)} {id : HandoffId}
    (hdriving : c.stage n = some (.driving i)) (hsuspend : i.step = .suspend r scheduler frames)
    (hstage : c.stage (n + 1) = some (.submitting id frames))
    (hhistory : c.history (n + 1) = i.deeds) : c.Advances S ⟨s, k, i⟩ := by
  obtain ⟨m, regs, exit, hm, hnext, hdone⟩ := h.live.of_submitting hstage
  obtain rfl := h.registers.registrations_eq hdriving hsuspend hstage hdone
  have hsubmit : S.Follows ⟨s, k, .nothing⟩ i.deeds ⟨s, k, .exit r⟩ := by
    rw [Interpretation.deeds_of_suspend hsuspend]
    exact .cons .submit .nil
  obtain ⟨m₂, hfollows⟩ := h.follows m
  -- Inline or parked, the exit follows the registration, and the script has one for that moment.
  rw [hdone, hhistory] at hfollows
  obtain ⟨m₁, hfirst, hrest⟩ := Script.Follows.append_iff.1 hfollows
  obtain rfl := hfirst.unique hsubmit
  obtain ⟨rfl, rfl⟩ := hrest.registrations
  have hscene : S.next? ⟨s, k, i⟩ =
      some ⟨S.register s r, k + 1, .settle (S.exits k) frames⟩ := by
    simp only [Script.next?, hsuspend]
  refine ⟨m, Nat.zero_lt_of_lt hm, ?_, .inr ⟨_, hscene, h.drop hnext ?_⟩⟩
  · simp only [hdone, hhistory, Script.deeds, hsuspend]
    rfl
  · rw [hdone, hhistory]
    exact hfollows

theorem Plays.advances_of_finish (h : c.Plays S ⟨s, k, i⟩) {exit : Exit (Outcome D F)}
    (hfinish : i.step = .finish exit) (hstage : c.stage n = some (.concluding exit))
    (hhistory : c.history n = i.deeds) : c.Advances S ⟨s, k, i⟩ := by
  obtain ⟨m, regs, -, hsame, hregs, -, hstep⟩ := h.live.exists_step hstage
  obtain rfl := hregs rfl
  generalize hnext : c.stage (m + 1) = o at hstep
  have hdone : c.history (m + 1) = c.deeds m := by
    rw [history, hsame, hhistory, Interpretation.deeds_of_finish hfinish]
    rfl
  generalize c.deeds m = deeds at hstep hdone
  cases hstep with
  | conclude =>
      have hscene : S.next? ⟨s, k, i⟩ = none := by simp only [Script.next?, hfinish]
      refine ⟨m + 1, Nat.succ_pos m, ?_, .inl ⟨hscene, hnext⟩⟩
      simp only [hdone, Script.deeds, hfinish]

end Advance

theorem Plays.advances (h : c.Plays S scene) : c.Advances S scene := by
  obtain ⟨s, k, i⟩ := scene
  obtain ⟨m, regs, -, hsame, hregs, hdriving, hstep⟩ := h.live.exists_step h.starts
  obtain rfl := hregs rfl
  have hdone : c.history (m + 1) = c.deeds m := by
    rw [history, hsame]
    rfl
  generalize hnext : c.stage (m + 1) = o at hstep
  generalize c.deeds m = deeds at hstep hdone
  cases hstep with
  | next hj => exact h.advances_of_next hj hnext hdone
  | ask hask => exact h.advances_of_ask hask hnext hdone
  | suspend hsuspend => exact h.advances_of_suspend hdriving hsuspend hnext hdone
  | finish hfinish => exact h.advances_of_finish hfinish hnext hdone

/-- A course that follows a script does what is done when every callback fires on the spot. -/
theorem Plays.inline (h : c.Plays S scene) (n : Nat) :
    ∃ m, c.history m = S.inline n scene ∧ (n ≤ m ∨ c.stage m = none) := by
  -- Every scene takes time, so `n` of them end at time `n` at the earliest.
  induction n generalizing c scene with
  | zero => exact ⟨0, rfl, .inl (Nat.le_refl 0)⟩
  | succ n ih =>
      obtain ⟨m, hm, hhistory, ⟨hend, hover⟩ | ⟨scene', hnext, hplays⟩⟩ := h.advances
      · refine ⟨m, ?_, .inr hover⟩
        rw [Script.inline, hend, hhistory, List.append_nil]
      · obtain ⟨m', hhistory', hlate⟩ := ih hplays
        refine ⟨m + m', ?_, ?_⟩
        · rw [history_add, hhistory', Script.inline, hnext, hhistory]
        · rcases hlate with hle | hover
          · exact .inl (by omega)
          · exact .inr hover

/-- At every time what has been done is a part of that. -/
theorem Plays.prefix_inline (h : c.Plays S scene) (n : Nat) :
    ∃ m, c.history n <+: S.inline m scene := by
  obtain ⟨m, hhistory, hlate⟩ := h.inline n
  refine ⟨n, ?_⟩
  rw [← hhistory]
  rcases hlate with hle | hover
  · exact history_mono hle
  · exact history_prefix_of_over hover n

/-- Once the finisher has been called, all has been done that is done when every callback fires on
the spot. -/
theorem Plays.inline_prefix_of_finish (h : c.Plays S scene) {n : Nat}
    {x : Exit (Outcome D F)} (hx : Deed.finishes (c.history n) = [x]) (m : Nat) :
    S.inline m scene <+: c.history n := by
  have hover : c.stage n = none := by
    cases hn : c.stage n with
    | none => rfl
    | some s =>
        rw [finishes_of_stage hn] at hx
        contradiction
  obtain ⟨k, hk, -⟩ := h.inline m
  rw [← hk]
  exact history_prefix_of_over hover k

/-- Two courses that follow one script have done the same when one of them is over. -/
theorem Plays.history_eq {c' : Course D F} (h : c.Plays S scene) (h' : c'.Plays S scene)
    {n : Nat} {x : Exit (Outcome D F)} (hx : Deed.finishes (c.history n) = [x]) :
    ∃ m, c'.history m = c.history n := by
  obtain ⟨k, hk⟩ := h.prefix_inline n
  obtain ⟨m, hm, -⟩ := h'.inline k
  refine ⟨m, ?_⟩
  rw [hm]
  exact (h.inline_prefix_of_finish hx k).eq_of_length_le hk.length_le

end Course

theorem Deed.calls_prefix {a b : List (Deed D F)} (h : a <+: b) :
    Deed.calls a <+: Deed.calls b :=
  h.filterMap _

end Trampoline
