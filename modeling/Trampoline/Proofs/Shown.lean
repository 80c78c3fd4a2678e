import Trampoline.Proofs.Inline
import Trampoline.Proofs.Settings

/-!
What the interpretations of a run show in a setting. A run suits a setting if functions reply and
async nodes get their exits as the setting has it, on whatever threads and whenever this happens.
What is then shown is what is seen of the interpretation in the setting.
-/

namespace Trampoline

variable {D F U σ : Type}

/-- What an interpretation waits for. -/
inductive Waiting (D F : Type) where
  | nothing
  | reply (question : Ask D F)
  | registration (r : Register F) (scheduler : SchedulerId)
  | exit (r : Register F) (scheduler : SchedulerId)

/-- How far an interpretation has come in a setting. -/
structure Point (D F σ : Type) where
  state : σ
  waiting : Waiting D F

namespace Setting

section

variable (S : Setting D F U σ)

/-- Whether a deed is one that the setting has. -/
def Permits : Point D F σ → Deed D F → Prop
  | ⟨_, .nothing⟩, .ask _ => True
  | ⟨_, .nothing⟩, .submit _ _ => True
  | ⟨_, .nothing⟩, deed => deed.IsQuiet
  | ⟨s, .reply question⟩, .reply r => ∃ s', S.reply s question = some (r, s')
  | ⟨_, .registration r _⟩, .call (.register r') => r' = r
  | ⟨s, .exit r scheduler⟩, .exit x => ∃ s', S.exit s r scheduler = some (x, s')
  | _, _ => False

/-- What a deed leaves. -/
def after : Point D F σ → Deed D F → Point D F σ
  | ⟨s, .nothing⟩, .ask question => ⟨s, .reply question⟩
  | ⟨s, .nothing⟩, .submit r scheduler => ⟨s, .registration r scheduler⟩
  | ⟨s, .reply question⟩, .reply _ => ⟨((S.reply s question).map Prod.snd).getD s, .nothing⟩
  | ⟨s, .registration r scheduler⟩, .call (.register _) => ⟨s, .exit r scheduler⟩
  | ⟨s, .exit r scheduler⟩, .exit _ => ⟨((S.exit s r scheduler).map Prod.snd).getD s, .nothing⟩
  | point, _ => point

/-- What is seen of a deed. -/
def sights : Point D F σ → Deed D F → List (Sight D F U)
  | ⟨s, .nothing⟩, .ask question => (S.calls s question).map .call
  | ⟨s, .nothing⟩, .submit r scheduler =>
      if (S.exit s r scheduler).isNone then [.waits r scheduler] else []
  | ⟨s, .registration r scheduler⟩, .call (.register _) =>
      (S.registers s r scheduler).map .call
  | ⟨_, .nothing⟩, .finish exit => [.ends exit]
  | _, _ => []

def PermitsAll : Point D F σ → List (Deed D F) → Prop
  | _, [] => True
  | point, deed :: deeds => S.Permits point deed ∧ PermitsAll (S.after point deed) deeds

def afterAll (point : Point D F σ) (deeds : List (Deed D F)) : Point D F σ :=
  deeds.foldl S.after point

/-- What is seen of deeds. -/
def shown : Point D F σ → List (Deed D F) → List (Sight D F U)
  | _, [] => []
  | point, deed :: deeds => S.sights point deed ++ shown (S.after point deed) deeds

/-- Whether what is waited for comes. -/
def Serves : Point D F σ → Prop
  | ⟨_, .nothing⟩ => True
  | ⟨s, .reply question⟩ => (S.reply s question).isSome
  | ⟨s, .registration r scheduler⟩ => (S.exit s r scheduler).isSome
  | ⟨s, .exit r scheduler⟩ => (S.exit s r scheduler).isSome

end

variable {S : Setting D F U σ} {s s' : σ} {point : Point D F σ}

theorem permitsAll_append {first rest : List (Deed D F)} :
    S.PermitsAll point (first ++ rest) ↔
      S.PermitsAll point first ∧ S.PermitsAll (S.afterAll point first) rest := by
  induction first generalizing point with
  | nil => simp [PermitsAll, afterAll]
  | cons deed deeds ih =>
      simp only [List.cons_append, PermitsAll, ih, and_assoc]
      rfl

theorem afterAll_append (point : Point D F σ) (first rest : List (Deed D F)) :
    S.afterAll point (first ++ rest) = S.afterAll (S.afterAll point first) rest :=
  List.foldl_append

theorem shown_append (point : Point D F σ) (first rest : List (Deed D F)) :
    S.shown point (first ++ rest) =
      S.shown point first ++ S.shown (S.afterAll point first) rest := by
  induction first generalizing point with
  | nil => rfl
  | cons deed deeds ih =>
      rw [List.cons_append, shown, ih, shown, List.append_assoc]
      rfl

theorem shown_prefix (point : Point D F σ) {first deeds : List (Deed D F)} (h : first <+: deeds) :
    S.shown point first <+: S.shown point deeds := by
  obtain ⟨rest, rfl⟩ := h
  exact ⟨_, (shown_append point first rest).symm⟩

/-- Quiet deeds leave the point, and nothing is seen of them but the exit of the interpretation. -/
theorem of_isQuiet {deeds : List (Deed D F)} (h : ∀ deed ∈ deeds, deed.IsQuiet) :
    S.PermitsAll ⟨s, .nothing⟩ deeds ∧ S.afterAll ⟨s, .nothing⟩ deeds = ⟨s, .nothing⟩ ∧
      S.shown ⟨s, .nothing⟩ deeds = (Deed.finishes deeds).map .ends := by
  induction deeds with
  | nil => exact ⟨trivial, rfl, rfl⟩
  | cons deed deeds ih =>
      have hdeed : deed.IsQuiet := h deed List.mem_cons_self
      have hone : S.Permits ⟨s, .nothing⟩ deed ∧ S.after ⟨s, .nothing⟩ deed = ⟨s, .nothing⟩ ∧
          S.sights ⟨s, .nothing⟩ deed = deed.finish?.toList.map .ends := by
        cases deed with
        | ask | reply | submit | exit => exact hdeed.elim
        | _ => exact ⟨hdeed, rfl, rfl⟩
      obtain ⟨hpermits, hafter, hshown⟩ := ih fun d hd => h d (List.mem_cons_of_mem _ hd)
      refine ⟨⟨hone.1, ?_⟩, ?_, ?_⟩
      · rwa [hone.2.1]
      · rw [afterAll, List.foldl_cons, hone.2.1]
        exact hafter
      · rw [shown, hone.2.1, hone.2.2, hshown]
        cases hfinish : deed.finish? <;> simp [Deed.finishes, hfinish]

theorem eq_nil_of_unanswered {question : Ask D F} {deeds : List (Deed D F)}
    (hreply : S.reply s question = none) (h : S.PermitsAll ⟨s, .reply question⟩ deeds) :
    deeds = [] := by
  cases deeds with
  | nil => rfl
  | cons deed deeds =>
      cases deed with
      | reply r =>
          obtain ⟨s', hsome⟩ := h.1
          rw [hreply] at hsome
          contradiction
      | _ => exact h.1.elim

section Node

variable {r : Register F} {scheduler : SchedulerId} {waiting : Waiting D F}

/-- Whether an interpretation waits at an async node. -/
def Waits (r : Register F) (scheduler : SchedulerId) (waiting : Waiting D F) : Prop :=
  waiting = .registration r scheduler ∨ waiting = .exit r scheduler

/-- What is still to be seen before the exit of a node comes. -/
def owed (S : Setting D F U σ) : Point D F σ → List (Sight D F U)
  | ⟨s, .registration r scheduler⟩ => (S.registers s r scheduler).map .call
  | _ => []

theorem of_registrations {regs : List (Register F)} (hwaits : Waits r scheduler waiting)
    (h : S.PermitsAll ⟨s, waiting⟩ (Deed.registrations regs)) :
    ∃ waiting', Waits r scheduler waiting' ∧
      S.afterAll ⟨s, waiting⟩ (Deed.registrations regs) = ⟨s, waiting'⟩ ∧
        S.owed ⟨s, waiting⟩ =
          S.shown ⟨s, waiting⟩ (Deed.registrations regs) ++ S.owed ⟨s, waiting'⟩ := by
  cases regs with
  | nil => exact ⟨waiting, hwaits, rfl, rfl⟩
  | cons r' regs =>
      rcases hwaits with rfl | rfl
      · -- The registration of a node is called once.
        obtain ⟨rfl, hrest⟩ := h
        cases regs with
        | nil =>
            refine ⟨.exit r' scheduler, .inr rfl, rfl, ?_⟩
            simp [owed, Deed.registrations, shown, sights]
        | cons r'' regs => exact hrest.1.elim
      · exact h.1.elim

theorem of_exit {exit exit' : Exit (Outcome D F)} (hwaits : Waits r scheduler waiting)
    (hexit : S.exit s r scheduler = some (exit, s'))
    (h : S.PermitsAll ⟨s, waiting⟩ [.exit exit']) :
    exit' = exit ∧ S.afterAll ⟨s, waiting⟩ [.exit exit'] = ⟨s', .nothing⟩ ∧
      S.shown ⟨s, waiting⟩ [.exit exit'] = S.owed ⟨s, waiting⟩ := by
  rcases hwaits with rfl | rfl
  · exact h.1.elim
  · obtain ⟨⟨s'', hsome⟩, -⟩ := h
    obtain ⟨rfl, rfl⟩ := Prod.mk.inj (Option.some.inj (hexit.symm.trans hsome))
    exact ⟨rfl, by simp [afterAll, after, hexit], rfl⟩

/-- At a node that gets no exit, nothing is done but that its registration is called once. -/
theorem of_stopped {deeds : List (Deed D F)} (hexit : S.exit s r scheduler = none)
    (h : S.PermitsAll ⟨s, .registration r scheduler⟩ deeds) :
    deeds = [] ∨ S.shown ⟨s, .registration r scheduler⟩ deeds =
      (S.registers s r scheduler).map .call := by
  cases deeds with
  | nil => exact .inl rfl
  | cons deed deeds =>
      refine .inr ?_
      cases deed with
      | call c =>
          cases c with
          | register r' =>
              cases deeds with
              | nil => simp [shown, sights]
              | cons deed deeds =>
                  cases deed with
                  | exit x =>
                      obtain ⟨s', hsome⟩ := h.2.1
                      rw [hexit] at hsome
                      contradiction
                  | _ => exact h.2.1.elim
          | _ => exact h.1.elim
      | _ => exact h.1.elim

end Node

end Setting

namespace Course

open Setting

/-- A course that starts at a point of a setting with a stage and suits the setting: it does what
the setting has, and what it waits for comes if the setting has it. -/
structure Suits (c : Course D F) (S : Setting D F U σ) (point : Point D F σ)
    (stage : Stage D F) : Prop where
  starts : c.stage 0 = some stage
  permits : ∀ n, S.PermitsAll point (c.history n)
  moves : ∀ n stage, c.stage n = some stage → S.Serves (S.afterAll point (c.history n)) →
    ∃ m, n ≤ m ∧ c.stage m = some stage ∧ stage.Step (c.deeds m) (c.stage (m + 1))
  /-- The registration of a node is called if this takes calls. -/
  registers : ∀ n s r scheduler, S.afterAll point (c.history n) = ⟨s, .registration r scheduler⟩ →
    S.registers s r scheduler ≠ [] →
      ∃ m, n ≤ m ∧ S.afterAll point (c.history m) ≠ ⟨s, .registration r scheduler⟩
  kept : ∀ n id frames, c.stage n = some (.submitting id frames) → c.stage (n + 1) ≠ none

/-- At time `n` the course has come to a stage at a point, and this has been seen. -/
structure Comes (c : Course D F) (S : Setting D F U σ) (point : Point D F σ) (n : Nat)
    (seen : List (Sight D F U)) (point' : Point D F σ) (stage : Stage D F) : Prop where
  stage : c.stage n = some stage
  after : S.afterAll point (c.history n) = point'
  shown : S.shown point (c.history n) = seen

variable {c : Course D F} {S : Setting D F U σ} {s s' : σ} {i j : Interpretation D F}
  {point point₁ point' : Point D F σ} {stage stage₁ stage' : Stage D F}
  {seen seen' : List (Sight D F U)} {n m : Nat}

theorem Comes.trans (h : c.Comes S point n seen point₁ stage₁)
    (h' : (c.drop n).Comes S point₁ m seen' point' stage') :
    c.Comes S point (n + m) (seen ++ seen') point' stage' where
  stage := h'.stage
  after := by rw [history_add, afterAll_append, h.after, h'.after]
  shown := by rw [history_add, shown_append, h.after, h.shown, h'.shown]

namespace Suits

theorem drop (h : c.Suits S point stage) (hn : c.Comes S point n seen point' stage') :
    (c.drop n).Suits S point' stage' where
  starts := hn.stage
  permits m := by
    have hpermits := h.permits (n + m)
    rw [history_add, permitsAll_append, hn.after] at hpermits
    exact hpermits.2
  moves m stage hm hserves := by
    rw [← hn.after, ← afterAll_append, ← history_add] at hserves
    obtain ⟨k, hk, hstage, hstep⟩ := h.moves (n + m) stage hm hserves
    obtain ⟨d, rfl⟩ := Nat.exists_eq_add_of_le hk
    rw [Nat.add_assoc] at hstage hstep
    exact ⟨m + d, Nat.le_add_right m d, hstage, hstep⟩
  registers m s r scheduler hwaits hcalls := by
    rw [← hn.after, ← afterAll_append, ← history_add] at hwaits
    obtain ⟨k, hk, hregistered⟩ := h.registers (n + m) s r scheduler hwaits hcalls
    obtain ⟨d, rfl⟩ := Nat.exists_eq_add_of_le hk
    refine ⟨m + d, Nat.le_add_right m d, ?_⟩
    rwa [← hn.after, ← afterAll_append, ← history_add, ← Nat.add_assoc]
  kept m id frames := h.kept (n + m) id frames

/-- The first step of a course comes if the setting serves it, and before it nothing is done but
that the registration of its node is called. -/
theorem exists_step (h : c.Suits S point stage) (hserves : S.Serves point) :
    ∃ m regs, c.history (m + 1) = Deed.registrations regs ++ c.deeds m ∧
      (stage.node? = none → regs = []) ∧ stage.Step (c.deeds m) (c.stage (m + 1)) ∧
        c.stage m = some stage := by
  obtain ⟨m, regs, -, hhistory, hregs, hstage, hstep⟩ :=
    Course.exists_step h.starts (h.moves 0 stage h.starts hserves)
  refine ⟨m, regs, ?_, hregs, hstep, hstage⟩
  rw [history, hhistory]
  rfl

variable {r : Register F} {scheduler : SchedulerId} {waiting : Waiting D F} {id : HandoffId}
  {frames : List (Frame D F)} {exit : Exit (Outcome D F)}

theorem of_resuming (h : c.Suits S ⟨s, .nothing⟩ (.resuming exit frames)) :
    ∃ n, c.Comes S ⟨s, .nothing⟩ n [] ⟨s, .nothing⟩ (.driving (.settle exit frames)) := by
  obtain ⟨m, regs, hhistory, hregs, hstep, -⟩ := h.exists_step trivial
  obtain rfl := hregs rfl
  generalize hnext : c.stage (m + 1) = o at hstep
  generalize c.deeds m = deeds at hstep hhistory
  cases hstep with
  | resume =>
      refine ⟨m + 1, hnext, ?_, ?_⟩
      · rw [hhistory]
        rfl
      · rw [hhistory]
        rfl

theorem serves_of_waits (hwaits : Waits r scheduler waiting)
    (hexit : S.exit s r scheduler = some (exit, s')) : S.Serves ⟨s, waiting⟩ := by
  rcases hwaits with rfl | rfl
  · simp [Serves, hexit]
  · simp [Serves, hexit]

/-- What is done until a node has got its exit. -/
theorem of_registrations_exit {regs : List (Register F)} {exit' : Exit (Outcome D F)}
    (h : c.Suits S ⟨s, waiting⟩ stage) (hwaits : Waits r scheduler waiting)
    (hexit : S.exit s r scheduler = some (exit, s'))
    (hhistory : c.history n = Deed.registrations regs ++ [.exit exit'])
    (hstage : c.stage n = some stage') :
    exit' = exit ∧
      c.Comes S ⟨s, waiting⟩ n (S.owed ⟨s, waiting⟩) ⟨s', .nothing⟩ stage' := by
  have hpermits := h.permits n
  rw [hhistory, permitsAll_append] at hpermits
  obtain ⟨waiting', hwaits', hafter, howed⟩ := of_registrations hwaits hpermits.1
  rw [hafter] at hpermits
  obtain ⟨rfl, hafter', hshown⟩ := of_exit hwaits' hexit hpermits.2
  refine ⟨rfl, hstage, ?_, ?_⟩
  · rw [hhistory, afterAll_append, hafter, hafter']
  · rw [hhistory, shown_append, hafter, hshown, howed]

/-- What is done until an interpretation has left its node. -/
theorem of_registrations_only {regs : List (Register F)} (h : c.Suits S ⟨s, waiting⟩ stage)
    (hwaits : Waits r scheduler waiting) (hhistory : c.history n = Deed.registrations regs)
    (hstage : c.stage n = some stage') :
    ∃ waiting' seen, Waits r scheduler waiting' ∧
      S.owed ⟨s, waiting⟩ = seen ++ S.owed ⟨s, waiting'⟩ ∧
        c.Comes S ⟨s, waiting⟩ n seen ⟨s, waiting'⟩ stage' := by
  have hpermits := h.permits n
  rw [hhistory] at hpermits
  obtain ⟨waiting', hwaits', hafter, howed⟩ := of_registrations hwaits hpermits
  refine ⟨waiting', _, hwaits', howed, hstage, ?_, ?_⟩
  · rw [hhistory, hafter]
  · rw [hhistory]

theorem of_parked (h : c.Suits S ⟨s, waiting⟩ (.parked id frames))
    (hwaits : Waits r scheduler waiting) (hexit : S.exit s r scheduler = some (exit, s')) :
    ∃ n, c.Comes S ⟨s, waiting⟩ n (S.owed ⟨s, waiting⟩) ⟨s', .nothing⟩
      (.driving (.settle exit frames)) := by
  obtain ⟨m, regs, hhistory, -, hstep, -⟩ := h.exists_step (serves_of_waits hwaits hexit)
  generalize hnext : c.stage (m + 1) = o at hstep
  generalize c.deeds m = deeds at hstep hhistory
  cases hstep with
  | deliver =>
      obtain ⟨rfl, hcomes⟩ := h.of_registrations_exit hwaits hexit hhistory hnext
      obtain ⟨k, hk⟩ := (h.drop hcomes).of_resuming
      have hboth := hcomes.trans hk
      rw [List.append_nil] at hboth
      exact ⟨_, hboth⟩

theorem of_leaving (h : c.Suits S ⟨s, waiting⟩ (.leaving id frames))
    (hwaits : Waits r scheduler waiting) (hexit : S.exit s r scheduler = some (exit, s')) :
    ∃ n, c.Comes S ⟨s, waiting⟩ n (S.owed ⟨s, waiting⟩) ⟨s', .nothing⟩
      (.driving (.settle exit frames)) := by
  obtain ⟨m, regs, hhistory, -, hstep, -⟩ := h.exists_step (serves_of_waits hwaits hexit)
  generalize hnext : c.stage (m + 1) = o at hstep
  generalize c.deeds m = deeds at hstep hhistory
  cases hstep with
  | inline =>
      obtain ⟨rfl, hcomes⟩ := h.of_registrations_exit hwaits hexit hhistory hnext
      exact ⟨m + 1, hcomes⟩
  | park =>
      rw [List.append_nil] at hhistory
      obtain ⟨waiting', seen, hwaits', howed, hcomes⟩ :=
        h.of_registrations_only hwaits hhistory hnext
      obtain ⟨k, hk⟩ := (h.drop hcomes).of_parked hwaits' hexit
      rw [howed]
      exact ⟨_, hcomes.trans hk⟩

theorem of_submitting (h : c.Suits S ⟨s, waiting⟩ (.submitting id frames))
    (hwaits : Waits r scheduler waiting) (hexit : S.exit s r scheduler = some (exit, s')) :
    ∃ n, c.Comes S ⟨s, waiting⟩ n (S.owed ⟨s, waiting⟩) ⟨s', .nothing⟩
      (.driving (.settle exit frames)) := by
  obtain ⟨m, regs, hhistory, -, hstep, hstage⟩ := h.exists_step (serves_of_waits hwaits hexit)
  have hkept := h.kept m id frames hstage
  generalize hnext : c.stage (m + 1) = o at hstep hkept
  generalize c.deeds m = deeds at hstep hhistory
  cases hstep with
  | lost => exact absurd rfl hkept
  | submitted =>
      rw [List.append_nil] at hhistory
      obtain ⟨waiting', seen, hwaits', howed, hcomes⟩ :=
        h.of_registrations_only hwaits hhistory hnext
      obtain ⟨k, hk⟩ := (h.drop hcomes).of_leaving hwaits' hexit
      rw [howed]
      exact ⟨_, hcomes.trans hk⟩

end Suits

/-- A course does what its interpretation does in one step, or all that it does without one. -/
def Follows (c : Course D F) (S : Setting D F U σ) (s : σ) (i : Interpretation D F) : Prop :=
  ∃ n, 0 < n ∧
    ((∃ us s' j, S.Moves s i us s' j ∧
        c.Comes S ⟨s, .nothing⟩ n (us.map .call) ⟨s', .nothing⟩ (.driving j)) ∨
      S.Over s i ∧ ∀ m, n ≤ m → S.shown ⟨s, .nothing⟩ (c.history m) = S.seen 1 s i)

theorem follows_of_next (hstep : i.step = .next j) (hstage : c.stage n = some (.driving j))
    (hn : 0 < n) (hhistory : c.history n = i.deeds) : c.Follows S s i := by
  obtain ⟨-, hafter, hshown⟩ := of_isQuiet (S := S) (s := s)
    fun deed hdeed => Interpretation.isQuiet_of_next hstep hdeed
  rw [Interpretation.finishes] at hshown
  refine ⟨n, hn, .inl ⟨[], s, j, .next hstep, hstage, ?_, ?_⟩⟩
  · rw [hhistory, hafter]
  · rw [hhistory, hshown]
    rfl

namespace Suits

/-- Nothing is done after a question that gets no reply. -/
theorem follows_of_unanswered {question : Ask D F} {post : Post D F} {frames : List (Frame D F)}
    (h : c.Suits S ⟨s, .nothing⟩ (.driving i)) (hstep : i.step = .ask question post frames)
    (hreply : S.reply s question = none) (hn : 0 < n)
    (hcomes : c.Comes S ⟨s, .nothing⟩ n ((S.calls s question).map .call) ⟨s, .reply question⟩
      stage) : c.Follows S s i := by
  refine ⟨n, hn, .inr ⟨.unanswered hstep hreply, fun m hm => ?_⟩⟩
  obtain ⟨d, rfl⟩ := Nat.exists_eq_add_of_le hm
  have hnil := eq_nil_of_unanswered hreply ((h.drop hcomes).permits d)
  rw [history_add, hnil, List.append_nil, hcomes.shown]
  simp only [Setting.seen, hstep, hreply, List.append_nil]

theorem of_asking {question : Ask D F} {post : Post D F} {frames : List (Frame D F)}
    {r : Except Payload (Value D F)} (h : c.Suits S ⟨s, .reply question⟩ (.asking post frames))
    (hreply : S.reply s question = some (r, s')) :
    ∃ n, c.Comes S ⟨s, .reply question⟩ n [] ⟨s', .nothing⟩ (.driving (.reply post frames r)) := by
  obtain ⟨m, regs, hhistory, hregs, hstep, -⟩ := h.exists_step (by simp [Serves, hreply])
  obtain rfl := hregs rfl
  have hpermits := h.permits (m + 1)
  generalize hnext : c.stage (m + 1) = o at hstep
  generalize c.deeds m = deeds at hstep hhistory
  cases hstep with
  | @reply _ _ r' =>
      obtain ⟨after, hdeeds, hquiet⟩ := post.exists_deeds r'
      have hfinishes := Deed.finishes_post post r'
      rw [hdeeds] at hhistory hfinishes
      rw [hhistory] at hpermits
      obtain ⟨⟨s'', hsome⟩, -⟩ := hpermits
      obtain ⟨rfl, rfl⟩ := Prod.mk.inj (Option.some.inj (hreply.symm.trans hsome))
      obtain ⟨-, hafter, hshown⟩ := of_isQuiet (S := S) (s := s') hquiet
      have hpoint : S.after ⟨s, .reply question⟩ (.reply r) = ⟨s', .nothing⟩ := by
        simp [Setting.after, hreply]
      refine ⟨m + 1, hnext, ?_, ?_⟩
      · rw [hhistory]
        change S.afterAll (S.after _ _) after = _
        rw [hpoint, hafter]
      · rw [hhistory]
        change S.sights _ _ ++ S.shown (S.after _ _) after = _
        rw [hpoint, hshown]
        have hnil : Deed.finishes after = [] := hfinishes
        rw [hnil]
        rfl

theorem follows_of_ask {question : Ask D F} {post : Post D F} {frames : List (Frame D F)}
    (h : c.Suits S ⟨s, .nothing⟩ (.driving i)) (hstep : i.step = .ask question post frames)
    (hstage : c.stage n = some (.asking post frames)) (hn : 0 < n)
    (hhistory : c.history n = i.deeds) : c.Follows S s i := by
  obtain ⟨before, hdeeds, hquiet⟩ := Interpretation.deeds_of_ask hstep
  obtain ⟨-, hafter, hshown⟩ := of_isQuiet (S := S) (s := s) hquiet
  have hfinishes : Deed.finishes before = [] := by
    have hall := Interpretation.finishes i
    rw [hdeeds, Deed.finishes_append] at hall
    exact (List.append_eq_nil_iff.1 hall).1
  have hcomes : c.Comes S ⟨s, .nothing⟩ n ((S.calls s question).map .call) ⟨s, .reply question⟩
      (.asking post frames) := by
    refine ⟨hstage, ?_, ?_⟩
    · rw [hhistory, hdeeds, afterAll_append, hafter]
      rfl
    · rw [hhistory, hdeeds, shown_append, hafter, hshown, hfinishes]
      simp [Setting.shown, sights]
  cases hreply : S.reply s question with
  | none => exact h.follows_of_unanswered hstep hreply hn hcomes
  | some reply =>
      obtain ⟨r, s'⟩ := reply
      obtain ⟨m, hm⟩ := (h.drop hcomes).of_asking hreply
      have hboth := hcomes.trans hm
      rw [List.append_nil] at hboth
      exact ⟨n + m, Nat.add_pos_left hn m, .inl ⟨_, s', _, .ask hstep hreply, hboth⟩⟩

/-- Nothing is done after a node that gets no exit but that its registration is called, if this
takes calls. -/
theorem follows_of_stopped {r : Register F} {scheduler : SchedulerId} {frames : List (Frame D F)}
    (h : c.Suits S ⟨s, .nothing⟩ (.driving i)) (hstep : i.step = .suspend r scheduler frames)
    (hexit : S.exit s r scheduler = none) (hn : 0 < n)
    (hcomes : c.Comes S ⟨s, .nothing⟩ n [.waits r scheduler] ⟨s, .registration r scheduler⟩
      stage) : c.Follows S s i := by
  have hlater (d : Nat) : c.history (n + d) = c.history n ∨
      S.shown ⟨s, .nothing⟩ (c.history (n + d)) =
        .waits r scheduler :: (S.registers s r scheduler).map .call := by
    rw [history_add, shown_append, hcomes.after, hcomes.shown]
    rcases of_stopped hexit ((h.drop hcomes).permits d) with hnil | hregistered
    · exact .inl (by rw [hnil, List.append_nil])
    · exact .inr (by rw [hregistered]; rfl)
  have hseen : S.seen 1 s i = .waits r scheduler :: (S.registers s r scheduler).map .call := by
    simp only [Setting.seen, hstep, hexit]
  by_cases hcalls : S.registers s r scheduler = []
  · refine ⟨n, hn, .inr ⟨.stopped hstep hexit, fun m hm => ?_⟩⟩
    obtain ⟨d, rfl⟩ := Nat.exists_eq_add_of_le hm
    rcases hlater d with hsame | hregistered
    · rw [hsame, hcomes.shown, hseen, hcalls]
      rfl
    · rw [hregistered, hseen]
  · obtain ⟨k, hk, hregistered⟩ := h.registers n s r scheduler hcomes.after hcalls
    refine ⟨k, Nat.lt_of_lt_of_le hn hk, .inr ⟨.stopped hstep hexit, fun m hm => ?_⟩⟩
    obtain ⟨d, rfl⟩ := Nat.exists_eq_add_of_le hk
    obtain ⟨d', rfl⟩ := Nat.exists_eq_add_of_le hm
    rw [hseen, Nat.add_assoc]
    refine (hlater (d + d')).resolve_left fun hsame => hregistered ?_
    -- The registration has been called by then, so the history is longer.
    have hle : c.history (n + d) <+: c.history n :=
      hsame ▸ history_mono (Nat.add_le_add_left (Nat.le_add_right d d') n)
    have heq : c.history (n + d) = c.history n :=
      hle.eq_of_length_le (history_mono (Nat.le_add_right n d)).length_le
    rw [heq, hcomes.after]

theorem follows_of_suspend {r : Register F} {scheduler : SchedulerId} {frames : List (Frame D F)}
    {id : HandoffId} (h : c.Suits S ⟨s, .nothing⟩ (.driving i))
    (hstep : i.step = .suspend r scheduler frames)
    (hstage : c.stage n = some (.submitting id frames)) (hn : 0 < n)
    (hhistory : c.history n = i.deeds) : c.Follows S s i := by
  rw [Interpretation.deeds_of_suspend hstep] at hhistory
  cases hexit : S.exit s r scheduler with
  | none =>
      refine h.follows_of_stopped hstep hexit hn ⟨hstage, ?_, ?_⟩
      · rw [hhistory]
        rfl
      · simp [hhistory, Setting.shown, sights, hexit]
  | some exit =>
      obtain ⟨exit, s'⟩ := exit
      have hcomes : c.Comes S ⟨s, .nothing⟩ n [] ⟨s, .registration r scheduler⟩
          (.submitting id frames) := by
        refine ⟨hstage, ?_, ?_⟩
        · rw [hhistory]
          rfl
        · simp [hhistory, Setting.shown, sights, hexit]
      obtain ⟨m, hm⟩ := (h.drop hcomes).of_submitting (.inl rfl) hexit
      exact ⟨n + m, Nat.add_pos_left hn m, .inl ⟨_, s', _, .suspend hstep hexit, hcomes.trans hm⟩⟩

theorem follows_of_finish {exit : Exit (Outcome D F)} (h : c.Suits S ⟨s, .nothing⟩ (.driving i))
    (hstep : i.step = .finish exit) (hstage : c.stage n = some (.concluding exit))
    (hhistory : c.history n = i.deeds) : c.Follows S s i := by
  rw [Interpretation.deeds_of_finish hstep] at hhistory
  have hcomes : c.Comes S ⟨s, .nothing⟩ n [] ⟨s, .nothing⟩ (.concluding exit) := by
    refine ⟨hstage, ?_, ?_⟩
    · rw [hhistory]
      rfl
    · rw [hhistory]
      rfl
  obtain ⟨m, regs, hlast, hregs, hconclude, -⟩ := (h.drop hcomes).exists_step trivial
  obtain rfl := hregs rfl
  generalize hnext : (c.drop n).stage (m + 1) = o at hconclude
  generalize (c.drop n).deeds m = deeds at hconclude hlast
  cases hconclude with
  | conclude =>
      refine ⟨n + (m + 1), by omega, .inr ⟨.finished hstep, fun k hk => ?_⟩⟩
      have hover : c.stage (n + (m + 1)) = none := hnext
      rw [history_of_over hover hk, history_add, hhistory, hlast]
      simp only [Setting.seen, hstep]
      rfl

/-- A course that suits a setting does what its interpretation does there. -/
theorem follows (h : c.Suits S ⟨s, .nothing⟩ (.driving i)) : c.Follows S s i := by
  obtain ⟨m, regs, hhistory, hregs, hstep, -⟩ := h.exists_step trivial
  obtain rfl := hregs rfl
  rw [Deed.registrations, List.map_nil, List.nil_append] at hhistory
  generalize hnext : c.stage (m + 1) = o at hstep
  generalize c.deeds m = deeds at hstep hhistory
  cases hstep with
  | next hj => exact follows_of_next hj hnext m.succ_pos hhistory
  | ask hask => exact h.follows_of_ask hask hnext m.succ_pos hhistory
  | suspend hsuspend => exact h.follows_of_suspend hsuspend hnext m.succ_pos hhistory
  | finish hfinish => exact h.follows_of_finish hfinish hnext hhistory

/-- What is seen of the interpretation in a number of steps, is seen of the course at some time. -/
theorem exists_shown (h : c.Suits S ⟨s, .nothing⟩ (.driving i)) (k : Nat) :
    ∃ n, S.shown ⟨s, .nothing⟩ (c.history n) = S.seen k s i ∧
      (k ≤ n ∨ ∀ m, n ≤ m → S.shown ⟨s, .nothing⟩ (c.history m) = S.seen k s i) := by
  -- Every step takes time, so `k` of them end at time `k` at the earliest.
  induction k generalizing c s i with
  | zero => exact ⟨0, rfl, .inl (Nat.le_refl 0)⟩
  | succ k ih =>
      obtain ⟨n, hn, ⟨us, s', j, hmoves, hcomes⟩ | ⟨hover, hshown⟩⟩ := h.follows
      · obtain ⟨m, hm, hlate⟩ := ih (h.drop hcomes)
        have hadd (l : Nat) : S.shown ⟨s, .nothing⟩ (c.history (n + l)) =
            us.map .call ++ S.shown ⟨s', .nothing⟩ ((c.drop n).history l) := by
          rw [history_add, shown_append, hcomes.after, hcomes.shown]
        refine ⟨n + m, ?_, ?_⟩
        · rw [hadd, hm, hmoves.seen]
        · rcases hlate with hle | hsame
          · exact .inl (by omega)
          · refine .inr fun l hl => ?_
            obtain ⟨d, rfl⟩ := Nat.exists_eq_add_of_le hl
            rw [Nat.add_assoc, hadd, hsame (m + d) (Nat.le_add_right m d), hmoves.seen]
      · rw [hover.seen k 0]
        exact ⟨n, hshown n (Nat.le_refl n), .inr hshown⟩

/-- What is seen of a course is what is seen of its interpretation. -/
theorem shown_prefix (h : c.Suits S ⟨s, .nothing⟩ (.driving i)) (n : Nat) :
    ∃ k, S.shown ⟨s, .nothing⟩ (c.history n) <+: S.seen k s i := by
  obtain ⟨m, hm, hlate⟩ := h.exists_shown n
  refine ⟨n, ?_⟩
  rw [← hm]
  rcases hlate with hle | hsame
  · exact Setting.shown_prefix _ (history_mono hle)
  · rcases Nat.le_total n m with hle | hle
    · exact Setting.shown_prefix _ (history_mono hle)
    · exact ((hsame n hle).trans hm.symm) ▸ List.prefix_refl _

/-- A course comes to everything to which its interpretation comes. -/
theorem exists_comes {us : List U} (h : c.Suits S ⟨s, .nothing⟩ (.driving i))
    (hleads : S.Leads s i us s' j) :
    ∃ n, c.Comes S ⟨s, .nothing⟩ n (us.map .call) ⟨s', .nothing⟩ (.driving j) := by
  induction hleads generalizing c with
  | refl => exact ⟨0, h.starts, rfl, rfl⟩
  | @step s s₁ s' i j k us vs hmoves _ ih =>
      obtain ⟨n, -, ⟨us', s₂, j', hmoves', hcomes⟩ | ⟨hover, -⟩⟩ := h.follows
      · obtain ⟨rfl, rfl, rfl⟩ := hmoves.unique hmoves'
        obtain ⟨m, hm⟩ := ih (h.drop hcomes)
        rw [List.map_append]
        exact ⟨n + m, hcomes.trans hm⟩
      · exact absurd hover hmoves.not_over

end Suits

end Course

namespace Run

variable {H : Host} {S : Setting H.Data H.Fn U σ}

/-- The interpretation at `p` at time `b` suits a setting, from a state on: it does what the setting
has, and what it waits for comes if the setting has it. -/
structure Suits (r : Run H) (S : Setting H.Data H.Fn U σ) (s : σ) (b : Nat) (p : Place) : Prop where
  fair : r.Fair
  permits : ∀ n, S.PermitsAll ⟨s, .nothing⟩ (r.history b p n)
  comes : ∀ n stage, r.stage b p n = some stage →
    S.Serves (S.afterAll ⟨s, .nothing⟩ (r.history b p n)) → r.GoesOn b p n stage
  /-- The registration of a node is called if this takes calls. -/
  registers : ∀ n s' reg scheduler,
    S.afterAll ⟨s, .nothing⟩ (r.history b p n) = ⟨s', .registration reg scheduler⟩ →
      S.registers s' reg scheduler ≠ [] → ∃ m, n ≤ m ∧
        S.afterAll ⟨s, .nothing⟩ (r.history b p m) ≠ ⟨s', .registration reg scheduler⟩
  /-- No submission of a registration panics. -/
  submits : ∀ n t l id frames, r.place b p n = some (.thread t l) →
    r.stage b p n = some (.submitting id frames) → ¬(r.world (b + n)).Panics t l

/-- What is seen in a setting of the interpretation that is at `p` at time `b`, until `n` actions
later. -/
def shown (r : Run H) (S : Setting H.Data H.Fn U σ) (s : σ) (b : Nat) (p : Place) (n : Nat) :
    List (Sight H.Data H.Fn U) :=
  S.shown ⟨s, .nothing⟩ (r.history b p n)

theorem Suits.course {r : Run H} {s : σ} {b : Nat} {p : Place}
    {i : Interpretation H.Data H.Fn} {finish : Finish H.Fn} (h : r.Suits S s b p)
    (hp : (r.world b).pendingAt p = some (.driving i, finish)) :
    (r.course hp).Suits S ⟨s, .nothing⟩ (.driving i) where
  starts := (r.stage_eq_some hp).2 ⟨p, rfl, hp⟩
  permits n := by
    rw [r.course_history hp]
    exact h.permits n
  moves n stage hs hserves := by
    rw [r.course_history hp] at hserves
    exact r.exists_step hp h.fair (h.comes n stage hs hserves) hs
  registers n s' reg scheduler hwaits hcalls := by
    rw [r.course_history hp] at hwaits
    obtain ⟨m, hm, hregistered⟩ := h.registers n s' reg scheduler hwaits hcalls
    refine ⟨m, hm, ?_⟩
    rwa [r.course_history hp]
  kept n id frames hs := stage_ne_none_of_submitting hp hs fun t l hq =>
    h.submits n t l id frames hq hs

section

variable {r : Run H} {s s' : σ} {b : Nat} {p : Place} {i j : Interpretation H.Data H.Fn}
  {us : List U} {finish : Finish H.Fn}

/-- An interpretation that ends suits a setting if all that it does is what the setting has, and its
functions come back and its nodes get their exits. -/
theorem Suits.of_over {n : Nat} {x : Pending H.Data H.Fn}
    (hp : (r.world b).pendingAt p = some x) (hfair : r.Fair) (hover : r.stage b p n = none)
    (hpermits : S.PermitsAll ⟨s, .nothing⟩ (r.history b p n))
    (hafter : (S.afterAll ⟨s, .nothing⟩ (r.history b p n)).waiting = .nothing)
    (hcomes : ∀ m < n, ∀ stage, r.stage b p m = some stage → r.GoesOn b p m stage)
    (hsubmits : ∀ m < n, ∀ t l id frames, r.place b p m = some (.thread t l) →
      r.stage b p m = some (.submitting id frames) → ¬(r.world (b + m)).Panics t l) :
    r.Suits S s b p := by
  have hlt {m : Nat} {stage : Stage H.Data H.Fn} (hs : r.stage b p m = some stage) : m < n := by
    refine Nat.lt_of_not_le fun hle => ?_
    rw [r.stage_eq_none_of_le hp hover hle] at hs
    contradiction
  refine ⟨hfair, fun m => ?_, fun m stage hs _ => hcomes m (hlt hs) stage hs,
    fun m s'' reg scheduler _ _ => ⟨max m n, Nat.le_max_left m n, ?_⟩,
    fun m t l id frames hq hs => hsubmits m (hlt hs) t l id frames hq hs⟩
  · have hprefix := Course.history_prefix_of_over (c := r.course hp) hover m
    rw [r.course_history hp, r.course_history hp] at hprefix
    obtain ⟨rest, hrest⟩ := hprefix
    rw [← hrest, Setting.permitsAll_append] at hpermits
    exact hpermits.1
  · have hsame := Course.history_of_over (c := r.course hp) hover (Nat.le_max_right m n)
    rw [r.course_history hp, r.course_history hp] at hsame
    intro hwaits
    rw [hsame] at hwaits
    rw [hwaits] at hafter
    contradiction

/-- What is seen of an interpretation in a run is what is seen of it in the setting. -/
theorem Suits.agree (h : r.Suits S s b p)
    (hp : (r.world b).pendingAt p = some (.driving i, finish)) :
    Sight.Agree (r.shown S s b p) fun n => S.seen n s i := by
  have hcourse := h.course hp
  refine ⟨fun n => ?_, fun n => ?_⟩
  · obtain ⟨m, hm⟩ := hcourse.shown_prefix n
    rw [r.course_history hp] at hm
    exact ⟨m, hm⟩
  · obtain ⟨m, hm, -⟩ := hcourse.exists_shown n
    rw [r.course_history hp] at hm
    exact ⟨m, [], (List.append_nil _).trans hm.symm⟩

/-- In a run an interpretation comes to everything to which it comes in the setting. -/
theorem Suits.exists_stage (h : r.Suits S s b p)
    (hp : (r.world b).pendingAt p = some (.driving i, finish)) (hleads : S.Leads s i us s' j) :
    ∃ n, r.stage b p n = some (.driving j) ∧ r.shown S s b p n = us.map .call := by
  obtain ⟨n, hstage, -, hshown⟩ := (h.course hp).exists_comes hleads
  rw [r.course_history hp] at hshown
  exact ⟨n, hstage, hshown⟩

end

end Run

namespace Setting

variable {H : Host} {S : Setting H.Data H.Fn U σ} {s s' : σ} {us : List U}
  {x y : Node H.Data H.Fn}

/-- Above whatever stack, `x` does from state `s` on what `y` does from state `s'` on after these
calls, in the setting as in all runs that suit it. -/
structure Equates (S : Setting H.Data H.Fn U σ) (s : σ) (x : Node H.Data H.Fn) (us : List U)
    (s' : σ) (y : Node H.Data H.Fn) : Prop where
  seen (frames : List (Frame H.Data H.Fn)) :
    Sight.Agree (fun n => S.seen n s ⟨.node x, frames⟩)
      fun n => us.map .call ++ S.seen n s' ⟨.node y, frames⟩
  shown {frames : List (Frame H.Data H.Fn)} {r r' : Run H} {b b' : Nat} {p p' : Place}
      {finish finish' : Finish H.Fn} :
    (r.world b).pendingAt p = some (.driving ⟨.node x, frames⟩, finish) →
      (r'.world b').pendingAt p' = some (.driving ⟨.node y, frames⟩, finish') →
        r.Suits S s b p → r'.Suits S s' b' p' →
          Sight.Agree (r.shown S s b p) fun n => us.map .call ++ r'.shown S s' b' p' n

theorem Equates.of_seen
    (h : ∀ frames, Sight.Agree (fun n => S.seen n s ⟨.node x, frames⟩)
      fun n => us.map .call ++ S.seen n s' ⟨.node y, frames⟩) : S.Equates s x us s' y where
  seen := h
  shown hp hp' hsuits hsuits' :=
    ((hsuits.agree hp).trans (h _)).trans ((hsuits'.agree hp').symm.append _)

theorem Equates.of_leads
    (h : ∀ frames, S.Leads s ⟨.node x, frames⟩ us s' ⟨.node y, frames⟩) : S.Equates s x us s' y :=
  .of_seen fun frames => (h frames).agree

theorem Equates.of_alike
    (h : ∀ frames, S.Alike s ⟨.node x, frames⟩ s' ⟨.node y, frames⟩) : S.Equates s x [] s' y :=
  .of_seen h

end Setting

end Trampoline
