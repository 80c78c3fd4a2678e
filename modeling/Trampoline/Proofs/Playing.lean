import Trampoline.Proofs.Registering

/-!
Interpretations that follow a script make the same calls and come to the same exit, on whichever
threads their registrations are called and their callbacks fire. They follow it if nobody else
touches the state that their functions use, and if every registration has done what it does to that
state by the time its node gets the exit. A registration that goes on with the state after it has
fired its callback does this before the continuations when the callback fires on the spot, and
possibly after them when the stack has been parked.
-/

namespace Trampoline

variable {σ : Type}

namespace Run

variable {H : Host} {r : Run H}

/-- The interpretation at `p` at time `b` follows a script: the functions come back with what the
script has, and so do all async nodes that it reaches. -/
structure Plays (r : Run H) (S : Script H.Data H.Fn σ) (s : σ) (b : Nat) (p : Place) : Prop where
  fair : r.Fair
  starting : (r.world 0).Starting
  nodes : r.KeepsToNodes
  returns : r.FunctionsReturn b p
  completed : r.Completed b p
  follows : ∀ n, ∃ m, S.Follows ⟨s, 0, .nothing⟩ (r.history b p n) m

theorem Plays.course {S : Script H.Data H.Fn σ} {s : σ} {b : Nat} {p : Place}
    {node : Node H.Data H.Fn} {finish : Finish H.Fn} (h : r.Plays S s b p)
    (hp : (r.world b).pendingAt p = some (.driving (.start node), finish)) :
    (r.course hp).Plays S ⟨s, 0, .start node⟩ where
  live := live hp h.fair h.returns h.completed
  registers.registrations_eq hs hstep hs' hhistory := by
    simp only [course_history] at hhistory
    exact h.nodes.registrations_eq hp h.starting hs hstep hs' hhistory
  starts := (r.stage_eq_some hp).2 ⟨p, rfl, hp⟩
  follows n := by
    rw [r.course_history hp]
    exact h.follows n

/-- An interpretation that follows a script does what is done when every callback fires on the
spot, and makes the same calls as every other one of the same node that follows the script, and
comes to the same exit: on whichever threads the registrations run, and the callbacks fire, and
whenever they do so. -/
theorem Plays.same_calls_and_exit {S : Script H.Data H.Fn σ} {s : σ} {node : Node H.Data H.Fn}
    {b : Nat} {p : Place} {finish : Finish H.Fn} (h : r.Plays S s b p)
    (hp : (r.world b).pendingAt p = some (.driving (.start node), finish)) :
    (∀ n, ∃ m, r.history b p n <+: S.inline m ⟨s, 0, .start node⟩) ∧
      (∀ m, ∃ n, r.history b p n = S.inline m ⟨s, 0, .start node⟩) ∧
      ∀ (r' : Run H) (b' : Nat) (p' : Place) (finish' : Finish H.Fn),
        (r'.world b').pendingAt p' = some (.driving (.start node), finish') →
          r'.Plays S s b' p' →
            (∀ n, ∃ m, Deed.calls (r.history b p n) <+: Deed.calls (r'.history b' p' m)) ∧
              ∀ n x, Deed.finishes (r.history b p n) = [x] →
                ∃ m, Deed.finishes (r'.history b' p' m) = [x] ∧
                  Deed.calls (r'.history b' p' m) = Deed.calls (r.history b p n) := by
  have hplays := h.course hp
  refine ⟨fun n => ?_, fun m => ?_, fun r' b' p' finish' hp' h' => ⟨fun n => ?_, fun n x hx => ?_⟩⟩
  · rw [← r.course_history hp]
    exact hplays.prefix_inline n
  · obtain ⟨n, hn, -⟩ := hplays.inline m
    rw [r.course_history hp] at hn
    exact ⟨n, hn⟩
  · obtain ⟨k, hk⟩ := hplays.prefix_inline n
    obtain ⟨m, hm, -⟩ := (h'.course hp').inline k
    rw [r.course_history hp] at hk
    rw [r'.course_history hp'] at hm
    exact ⟨m, Deed.calls_prefix (hm ▸ hk)⟩
  · rw [← r.course_history hp] at hx
    obtain ⟨m, hm⟩ := hplays.history_eq (h'.course hp') hx
    rw [r'.course_history hp', r.course_history hp] at hm
    rw [r.course_history hp] at hx
    exact ⟨m, by rw [hm, hx], by rw [hm]⟩

end Run

namespace Relay

def script : Script Unit Fn Unit where
  reply _ _ := (.ok .unit, ())
  register _ _ := ()
  exits _ := .settled (.ok .unit)

set_option maxRecDepth 2000 in
theorem answered_keepsToNodes (direct : Bool) : (answered direct).KeepsToNodes := by
  have hregisters : (answered direct).Does 5 0
      (.register (.user .unit .unit ⟨.register false, ∅⟩) (.node 0)) := by
    cases direct <;> exact ⟨rfl, _, _, rfl⟩
  exact .of_check (fun h => Run.check_of_does (c := Run.keepsToNode 0 4)
    (by cases direct <;> decide) h) hregisters

theorem answered_plays (direct : Bool) :
    (answered direct).Plays script () 2 (.thread 0 2) where
  fair := answered_fair direct
  starting := start_starting (node false) direct
  nodes := answered_keepsToNodes direct
  returns := answered_functionsReturn direct
  completed := answered_completed direct
  follows n := by
    have hall : (answered direct).history 2 (.thread 0 2) 58 =
        [.submit (.user .unit .unit ⟨.register false, ∅⟩) immediateId,
          .call (.register (.user .unit .unit ⟨.register false, ∅⟩)),
          .exit (.settled (.ok .unit)), .finish (.settled (.ok .unit))] := by
      cases direct <;> rfl
    have hfollows : script.Follows ⟨(), 0, .nothing⟩
        ((answered direct).history 2 (.thread 0 2) 58) ⟨(), 1, .nothing⟩ := by
      rw [hall]
      exact .cons .submit (.cons .register (.cons .exit (.cons (.quiet trivial) .nil)))
    have hprefix : (answered direct).history 2 (.thread 0 2) n <+:
        (answered direct).history 2 (.thread 0 2) 58 := by
      have hcourse := (answered direct).course_history (pendingAt_answered direct)
      have hover : ((answered direct).course (pendingAt_answered direct)).stage 58 = none := by
        cases direct <;> rfl
      rw [← hcourse, ← hcourse]
      exact Course.history_prefix_of_over hover n
    obtain ⟨rest, hrest⟩ := hprefix
    rw [← hrest] at hfollows
    obtain ⟨m, hm, -⟩ := Script.Follows.append_iff.1 hfollows
    exact ⟨m, hm⟩

/-- The interpretation that the server resumes makes the same calls as the one whose callback fires
on the spot. -/
theorem answered_same_calls :
    (answered false).stage 2 (.thread 0 2) 12 = some (.parked 0 []) ∧
      (∀ n id frames, (answered true).stage 2 (.thread 0 2) n ≠ some (.parked id frames)) ∧
        ∃ m, Deed.finishes ((answered true).history 2 (.thread 0 2) m) =
            [.settled (.ok .unit)] ∧
          Deed.calls ((answered true).history 2 (.thread 0 2) m) =
            Deed.calls ((answered false).history 2 (.thread 0 2) 58) := by
  refine ⟨rfl, fun n id frames hstage => ?_, ?_⟩
  · have hnever : ∀ n < 58, ((answered true).stage 2 (.thread 0 2) n).all Stage.isUnparked := by
      decide
    have hn := hnever n (lt_of_stage_answered hstage)
    simp [hstage, Stage.isUnparked] at hn
  · obtain ⟨-, -, hsame⟩ :=
      Run.Plays.same_calls_and_exit (answered_plays false) (pendingAt_answered false)
    obtain ⟨-, hexit⟩ := hsame (answered true) 2 (.thread 0 2) _ (pendingAt_answered true)
      (answered_plays true)
    exact hexit 58 (.settled (.ok .unit)) rfl

end Relay

namespace Drill

/-- An effect that waits for a callback and then completes promise 0, and tells whether it has been
the first to do so. -/
def lingering : Node Unit Nat :=
  ((Effect.asyncOn 2 ⟨2, ∅⟩ : Effect Unit Nat .unit .unit).map ⟨3, ∅⟩ :
    Effect Unit Nat (.result .unit .unit) .unit).node

/-- One thread makes the promise and blocks for the effect. The registration completes the callback
and then the promise. -/
def lingers : Script
  | 0 => [.ask (.newPromise .unit), .ask (.runBlocking (.result .unit .unit) .unit lingering)]
  | 2 => [.ask (.complete (.node 0) (.ok .unit)), .ask (.fill 0 .unit)]
  | 3 => [.ask (.fill 0 .unit), .echo]
  | _ => []

/-- The registration is called by a scheduler that runs work on the spot, or on a thread of its own
when the stack has been parked. -/
def lingered (parks : Bool) : Run (host lingers) :=
  if parks then
    run lingers [.pool .log]
      (List.replicate 12 0 ++ 1 :: List.replicate 35 2 ++ List.replicate 4 0)
  else run lingers [.freshRecording] (List.replicate 48 0 ++ [1])

theorem pendingAt_lingered (parks : Bool) :
    ((lingered parks).world 5).pendingAt (.thread 0 2) =
      some (.driving (.start lingering), .channel (.result .unit .unit) .unit 0) := by
  cases parks <;> rfl

set_option maxRecDepth 4000 in
theorem lingered_keepsToNodes (parks : Bool) : (lingered parks).KeepsToNodes := by
  cases parks with
  | false =>
      exact .of_check (fun h => check_of_does (c := Run.keepsToNode 0 8) (by decide) h)
        (show (lingered false).Does 9 0 (.register _ (.node 0)) from ⟨rfl, _, _, rfl⟩)
  | true =>
      exact .of_check (fun h => check_of_does (c := Run.keepsToNode 0 13) (by decide) h)
        (show (lingered true).Does 14 2 (.register _ (.node 0)) from ⟨rfl, _, _, rfl⟩)

set_option maxRecDepth 4000 in
theorem lingered_completed (parks : Bool) : (lingered parks).Completed 5 (.thread 0 2) := by
  intro n s id hstage hnode
  have hover : (lingered parks).stage 5 (.thread 0 2) 38 = none := by
    cases parks <;> decide
  have hlt : n < 38 := by
    refine Nat.lt_of_not_le fun hle => ?_
    rw [Run.stage_eq_none_of_le _ (pendingAt_lingered parks) hover hle] at hstage
    contradiction
  have hfirst : ∀ n < 38, (((lingered parks).stage 5 (.thread 0 2) n).bind Stage.node?).all
      (· = 0) := by cases parks <;> decide
  have hn := hfirst n hlt
  simp only [hstage, Option.bind_some, hnode, Option.all_some, decide_eq_true_eq] at hn
  subst hn
  cases parks with
  | false => exact ⟨14, 0, .settled (.ok .unit), .completion, _, ⟨rfl, _, _, rfl⟩, rfl, trivial⟩
  | true => exact ⟨19, 2, .settled (.ok .unit), .completion, _, ⟨rfl, _, _, rfl⟩, rfl, trivial⟩

set_option maxRecDepth 4000 in
/-- The effect comes to different ends, although its node gets the same exit and nobody else touches
the promise: when the callback fires on the spot the registration is the first to complete it, and
when the stack has been parked the continuation is. -/
theorem lingered_disagrees :
    (∀ parks, (lingered parks).Fair ∧ (lingered parks).KeepsToNodes ∧
      (lingered parks).Completed 5 (.thread 0 2) ∧
      ((lingered parks).world 5).pendingAt (.thread 0 2) =
        some (.driving (.start lingering), .channel (.result .unit .unit) .unit 0) ∧
      .exit (.settled (.ok .unit)) ∈ (lingered parks).history 5 (.thread 0 2) 38) ∧
    Deed.finishes ((lingered false).history 5 (.thread 0 2) 38) =
      [.settled (.ok (.err .unit .unit .unit))] ∧
    Deed.finishes ((lingered true).history 5 (.thread 0 2) 38) =
      [.settled (.ok (.ok .unit .unit .unit))] := by
  refine ⟨fun parks => ⟨?_, lingered_keepsToNodes parks, lingered_completed parks,
    pendingAt_lingered parks, ?_⟩, rfl, rfl⟩
  · cases parks <;> exact Run.fair_ofList (by decide)
  · cases parks with
    | false => exact List.mem_of_getElem? (show _[3]? = _ from rfl)
    | true => exact List.mem_of_getElem? (show _[3]? = _ from rfl)

end Drill

end Trampoline
