import Trampoline.Proofs.Progress

/-!
What an async node and a whole interpretation can rely on, whatever the order of the threads is. A
node is settled once, and what waits for it goes on at one place. An interpretation takes its
continuations in the reverse order of adding them and calls its finisher at most once, and once if
nothing that it waits for stays away.
-/

namespace Trampoline

variable {H : Host}

namespace Run

variable (r : Run H)

/-- An async node is settled once. -/
structure SettlesOnce (id : HandoffId) : Prop where
  /-- Of all offers to the node at most one is accepted. -/
  accepted {n m : Nat} {t t' : ThreadId} {exit exit' : Exit (Outcome H.Data H.Fn)} :
    r.Accepts n t id exit → r.Accepts m t' id exit' → n = m ∧ t = t' ∧ exit = exit'
  /-- A rejected offer changes nothing, and its exit is given back. -/
  rejected {n : Nat} {t : ThreadId} {exit : Exit (Outcome H.Data H.Fn)} {origin : Origin} :
    r.Rejects n t id exit origin → ∃ control heap,
      (r.world n).Changes (r.world (n + 1)) t (.run (.deliver id exit origin)) control heap ∧
        Origin.GivesBack (r.world n).heap origin exit control heap
  /-- The stack and the finisher are handed over at most once. -/
  handedOver {n m : Nat} {frames frames' : List (Frame H.Data H.Fn)} {finish finish' : Finish H.Fn}
      {exit exit' : Exit (Outcome H.Data H.Fn)} {p p' : Place} :
    r.HandsOver n id frames finish exit p → r.HandsOver m id frames' finish' exit' p' →
      n = m ∧ frames = frames' ∧ finish = finish' ∧ exit = exit' ∧ p = p'
  /-- They are those that were suspended, and go on with the exit that was accepted. -/
  goesOn {n : Nat} {frames : List (Frame H.Data H.Fn)} {finish : Finish H.Fn}
      {exit : Exit (Outcome H.Data H.Fn)} {p : Place} :
    r.HandsOver n id frames finish exit p →
      (∃ k, k < n ∧ r.Suspends k id frames finish) ∧ (∃ m t, m ≤ n ∧ r.Accepts m t id exit) ∧
        ∃ stage, (r.world (n + 1)).pendingAt p = some (stage, finish) ∧
          (stage = .driving (.settle exit frames) ∨ stage = .resuming exit frames)
  /-- They are handed over as soon as the submitter has left and an exit has been accepted. -/
  comes {k n m : Nat} {frames : List (Frame H.Data H.Fn)} {finish : Finish H.Fn} {t : ThreadId}
      {exit : Exit (Outcome H.Data H.Fn)} :
    r.Suspends k id frames finish → r.Leaves n id → r.Accepts m t id exit →
      ∃ p, r.HandsOver (max n m) id frames finish exit p

/-- The interpretation at `p` at time `b` finishes once. -/
structure FinishesOnce (b : Nat) (p : Place) : Prop where
  /-- Every continuation that is taken is the one added last among those not taken yet. -/
  lastFirst (n : Nat) : ∃ out, Stacks [] (r.history b p n) out
  /-- The finisher is called at most once. -/
  atMostOnce (n : Nat) : (Deed.finishes (r.history b p n)).length ≤ 1
  /-- It is called once if functions come back and all of finitely many async nodes get an exit. -/
  once : r.Fair → r.FunctionsReturn b p → r.Completed b p → r.ReachesFinitelyMany b p →
    ∃ n x, ∀ m, n ≤ m → Deed.finishes (r.history b p m) = [x]

variable {r}

theorem SettlesOnce.of_run (r : Run H) (id : HandoffId) : r.SettlesOnce id where
  accepted h h' := h.unique h'
  rejected h := h.givesBack
  handedOver h h' := h.unique h'
  goesOn h := ⟨h.exists_suspends.1, h.exists_suspends.2, h.spec.2.2⟩
  comes hsuspends hleaves haccepts := exists_handsOver hsuspends hleaves haccepts

theorem FinishesOnce.of_start {b : Nat} {p : Place} {node : Node H.Data H.Fn}
    {finish : Finish H.Fn}
    (hp : (r.world b).pendingAt p = some (.driving (.start node), finish)) :
    r.FinishesOnce b p := by
  have hstart : (r.course hp).stage 0 = some (.driving (.start node)) :=
    (r.stage_eq_some hp).2 ⟨p, rfl, hp⟩
  refine ⟨fun n => ?_, fun n => ?_, fun hfair hreturn hcompleted hnodes => ?_⟩
  · have hempty (s : Stage H.Data H.Fn) (hs : (r.course hp).stage 0 = some s)
        (f : List (Frame H.Data H.Fn)) (hf : s.frames? = some f) : f = [] := by
      obtain rfl := Option.some.inj (hstart.symm.trans hs)
      exact (Option.some.inj hf).symm
    obtain ⟨out, hout, -⟩ := Course.exists_stacks hempty n
    rw [← r.course_history hp]
    exact ⟨out, hout⟩
  · rw [← r.course_history hp]
    exact Course.finishes_le_one n
  · obtain ⟨last, hlast⟩ := hnodes
    have hvisits (n : Nat) (hn : last ≤ n) : ¬(r.course hp).Visits n := by
      rintro ⟨s, hs, hnode, hstep⟩
      exact hlast n s hn hs hnode hstep
    obtain ⟨n, x, hx⟩ := (live hp hfair hreturn hcompleted).finish hstart hvisits
    refine ⟨n, x, fun m hm => ?_⟩
    rw [← r.course_history hp]
    exact Course.finishes_eq_of_le hx hm

/-- Whatever the order of the threads is, every async node is settled once, and every
interpretation finishes once. -/
theorem settlesOnce_and_finishesOnce (r : Run H) :
    (∀ id, r.SettlesOnce id) ∧ ∀ b p node finish,
      (r.world b).pendingAt p = some (.driving (.start node), finish) → r.FinishesOnce b p :=
  ⟨SettlesOnce.of_run r, fun _ _ _ _ hp => .of_start hp⟩

end Run

namespace Relay

set_option maxRecDepth 2000 in
/-- The server's exit is the only one that the parked effect gets, and the receiver is called
once. -/
theorem answered_finishesOnce :
    (∀ n t exit, (answered false).Accepts n t 0 exit → n = 19 ∧ t = 1) ∧
      ∃ n x, ∀ m, n ≤ m → Deed.finishes ((answered false).history 2 (.thread 0 2) m) = [x] := by
  obtain ⟨hsettles, hfinishes⟩ := Run.settlesOnce_and_finishesOnce (answered false)
  have hserver : (answered false).Accepts 19 1 0 (.settled (.ok .unit)) :=
    ⟨.completion, _, ⟨rfl, _, _, rfl⟩, rfl, trivial⟩
  refine ⟨fun n t exit haccepts => ?_, ?_⟩
  · obtain ⟨hn, ht, -⟩ := (hsettles 0).accepted haccepts hserver
    exact ⟨hn, ht⟩
  · refine (hfinishes 2 _ _ _ (pendingAt_answered false)).once (answered_fair false)
      (answered_functionsReturn false) (answered_completed false) ⟨58, ?_⟩
    intro n s hn hstage
    exact absurd (lt_of_stage_answered hstage) (Nat.not_lt_of_le hn)

end Relay

end Trampoline
