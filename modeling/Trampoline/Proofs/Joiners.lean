import Trampoline.Proofs.Memoising
import Trampoline.Proofs.Spreading

/-!
Interpretations that join fibers in an order and go on with what the slots of the fibers decide.
What such an interpretation does with the value of a fiber differs from one to the other; that it
comes to the exit which the slots decide, in every order in which the fibers end, does not.
-/

namespace Trampoline

variable {H : Host}

open Interpretation (settle)

/-- A way to the exit that the slots of some fibers decide, which joins the fibers in their order.
-/
structure Joiner (D F : Type) (value error : Ty) (fibers : List PromiseId) where
  /-- How far it is, given the slots and the nodes that have come to fibers. The number bounds the
  steps that are left. -/
  Under : (PromiseId → Option (Slot D F)) → (HandoffId → PromiseId → Prop) → Nat → Stage D F → Prop
  /-- What it goes on with when the exit is decided. -/
  Lands : Exit (Outcome D F) → Interpretation D F → Prop
  /-- The continuations of the join of a fiber, by what has come of the fibers before it and by
  those after it. -/
  frames : List (PromiseId × Value D F) → List PromiseId → List (Frame D F)
  /-- A bound on the steps from the end of the join of a fiber, by the fibers after it. -/
  bound : List PromiseId → Nat
  mono {slot slot' : PromiseId → Option (Slot D F)} {came came' : HandoffId → PromiseId → Prop}
    {k : Nat} {stage : Stage D F} :
    (∀ fiber s, slot fiber = some s → slot' fiber = some s) →
      (∀ id fiber, came id fiber → came' id fiber) →
        Under slot came k stage → Under slot' came' k stage
  ne_asking {slot : PromiseId → Option (Slot D F)} {came : HandoffId → PromiseId → Prop} {k : Nat}
    {stage : Stage D F} :
    Under slot came k stage → ∀ post frames, stage ≠ .asking post frames
  /-- It goes on by itself unless it joins a fiber. -/
  next_or_joins {slot : PromiseId → Option (Slot D F)} {came : HandoffId → PromiseId → Prop}
    {k : Nat} {stage : Stage D F} :
    Under slot came k stage →
      (∃ i j, stage = .driving i ∧ i.step = .next j ∧
          ((∃ k', k' < k ∧ Under slot came k' (.driving j)) ∨
            ∃ exit, Decides value (fibers.map slot) exit ∧ Lands exit j)) ∨
        ∃ done fiber todo k', k = bound todo + k' ∧ Joined slot fibers done (fiber :: todo) ∧
          Joining value error slot came fiber (frames done todo) k' stage
  joining {slot : PromiseId → Option (Slot D F)} {came : HandoffId → PromiseId → Prop}
    {done : List (PromiseId × Value D F)} {fiber : PromiseId} {todo : List PromiseId} {k : Nat}
    {stage : Stage D F} :
    Joined slot fibers done (fiber :: todo) →
      Joining value error slot came fiber (frames done todo) k stage →
        Under slot came (bound todo + k) stage
  /-- What has been read from a slot leads to the next fiber, or to the exit. -/
  reading {slot : PromiseId → Option (Slot D F)} {came : HandoffId → PromiseId → Prop}
    {done : List (PromiseId × Value D F)} {fiber : PromiseId} {todo : List PromiseId}
    {s : Slot D F} :
    Joined slot fibers done (fiber :: todo) → slot fiber = some s →
      (∀ v, s = .ok v → v.ty = value) →
      (∃ k, k < bound todo ∧ Under slot came k (.driving (settle s.exit (frames done todo)))) ∨
        ∃ exit, Decides value (fibers.map slot) exit ∧ Lands exit (settle s.exit (frames done todo))

namespace Run

variable {r : Run H} {b n m : Nat} {p q : Place} {value error : Ty} {s : SchedulerId}
  {fibers : List PromiseId} {J : Joiner H.Data H.Fn value error fibers} {finish : Finish H.Fn}
  {exit exit' : Exit (Outcome H.Data H.Fn)}

/-- The interpretation that is at `p` at time `b` is still on its way to the exit, `n` actions
later; it has submitted nothing. -/
def IsUnder (r : Run H) (b : Nat) (p : Place) (J : Joiner H.Data H.Fn value error fibers)
    (n : Nat) : Prop :=
  ∃ stage k, r.stage b p n = some stage ∧
    J.Under (r.world (b + n)).heap.slot? (r.CameTo value error b (b + n)) k stage ∧
      r.submitted b p n = []

/-- The interpretation that is at `p` at time `b` goes on as it does with the exit that the slots of
the fibers decide, `n` actions later; it has submitted nothing. -/
structure Lands (r : Run H) (b : Nat) (p : Place) (J : Joiner H.Data H.Fn value error fibers)
    (n : Nat) (exit : Exit (Outcome H.Data H.Fn)) : Prop where
  decides : Decides value (fibers.map (r.world (b + n)).heap.slot?) exit
  stage : ∃ i, r.stage b p n = some (.driving i) ∧ J.Lands exit i
  submitted : r.submitted b p n = []

/-- What comes of an interpretation that is at `p` at time `b` and joins fibers. -/
structure JoinsAll (r : Run H) (b : Nat) (p : Place) (J : Joiner H.Data H.Fn value error fibers) :
    Prop where
  /-- It is on its way until it goes on with what the slots decide. -/
  course (n : Nat) : r.IsUnder b p J n ∨ ∃ m exit, m ≤ n ∧ r.Lands b p J m exit
  /-- At whatever time something is decided, it is the same. -/
  unique {n m : Nat} {exit exit' : Exit (Outcome H.Data H.Fn)} :
    Decides value (fibers.map (r.world n).heap.slot?) exit →
      Decides value (fibers.map (r.world m).heap.slot?) exit' → exit = exit'
  /-- It waits while the first fiber that has not succeeded has no slot. -/
  waits {n : Nat} {vs : List (Value H.Data H.Fn)} {later : List (Option (Slot H.Data H.Fn))} :
    fibers.map (r.world (b + n)).heap.slot? = vs.map (fun v => some (.ok v)) ++ none :: later →
      r.IsUnder b p J n
  /-- It comes to its exit once it is decided, if nobody else subscribes to the fibers. -/
  comes {m : Nat} {exit : Exit (Outcome H.Data H.Fn)} :
    (∀ fiber ∈ fibers, r.SubscribesOnce fiber) →
      Decides value (fibers.map (r.world m).heap.slot?) exit → ∃ n, r.Lands b p J n exit

section Join

variable (hstart : (r.world 0).Starting)
  (himmediate : (r.world 0).heap.schedulers[immediateId]? = some .immediate)
  (hhides : ∀ fiber ∈ fibers, ∀ n t id, r.ComesTo n t (.join value error fiber) immediateId id →
    r.Hides (.handoff id))
  (hslots : ∀ fiber ∈ fibers, ∀ n v, (r.world n).heap.promised? fiber = some v →
    ∃ slot, v = .slot value error slot ∧ ∀ w, slot = .ok w → w.ty = value)

include hstart

/-- What the slots decide at one time they decide at all times. -/
theorem decides_of_le (h : Decides value (fibers.map (r.world n).heap.slot?) exit) (hnm : n ≤ m) :
    Decides value (fibers.map (r.world m).heap.slot?) exit :=
  h.mono fun _ _ hslot => slot?_of_le hstart hslot hnm

theorem decides_unique (h : Decides value (fibers.map (r.world n).heap.slot?) exit)
    (h' : Decides value (fibers.map (r.world m).heap.slot?) exit') : exit = exit' :=
  (decides_of_le hstart h (Nat.le_max_left n m)).unique
    (decides_of_le hstart h' (Nat.le_max_right n m))

include himmediate hhides hslots

/-- An interpretation that joins fibers approaches what their slots decide. -/
theorem joiner_approaches {first : Stage H.Data H.Fn}
    (hp : (r.world b).pendingAt p = some (first, finish)) :
    r.Approaches b p finish (fun n => ∃ exit, r.Lands b p J n exit)
      fun n k stage => J.Under (r.world (b + n)).heap.slot?
        (r.CameTo value error b (b + n)) k stage ∧
        r.submitted b p n = [] := by
  intro n k q stage hq hat ⟨h, hsubmitted⟩
  have hslot (fiber : PromiseId) (slot : Slot H.Data H.Fn)
      (hs : (r.world (b + n)).heap.slot? fiber = some slot) :
      (r.world (b + (n + 1))).heap.slot? fiber = some slot :=
    slot?_of_le hstart hs (Nat.le_succ _)
  have hcame (id : HandoffId) (fiber : PromiseId) (h : r.CameTo value error b (b + n) id fiber) :
      r.CameTo value error b (b + (n + 1)) id fiber := h.succ
  have hsubmitted' : r.submitted b p (n + 1) = [] := by
    rw [submitted_succ hq, World.submits?_of_ne_asking hat (J.ne_asking h), hsubmitted]
    rfl
  have hplace {q' : Place} (hnext : (r.world (b + n)).next? (r.action (b + n)) q = some q') :
      r.place b p (n + 1) = some q' := by simp [place, hq, hnext]
  have hlands {q' : Place} {i : Interpretation H.Data H.Fn}
      (hnext : (r.world (b + n)).next? (r.action (b + n)) q = some q')
      (hat' : (r.world (b + (n + 1))).pendingAt q' = some (.driving i, finish))
      (h : ∃ exit, Decides value (fibers.map (r.world (b + (n + 1))).heap.slot?) exit ∧
        J.Lands exit i) : ∃ exit, r.Lands b p J (n + 1) exit := by
    obtain ⟨exit, hdecides, hi⟩ := h
    exact ⟨exit, hdecides, ⟨i, (r.stage_eq_some hp).2 ⟨q', hplace hnext, hat'⟩, hi⟩, hsubmitted'⟩
  rcases J.next_or_joins h with
    ⟨i, j, rfl, hstep, hthen⟩ | ⟨done, fiber, todo, k', rfl, hjoined, hjoins⟩
  · obtain ⟨q', hnext, hat' | ⟨rfl, hat', hother⟩⟩ := next_of_step hat hstep
    · rcases hthen with ⟨k', hk, h'⟩ | ⟨exit, hdecides, hi⟩
      · exact .inr ⟨q', _, k', hplace hnext, hat', ⟨J.mono hslot hcame h', hsubmitted'⟩, .inl hk⟩
      · exact .inl (hlands hnext hat' ⟨exit, hdecides.mono hslot, hi⟩)
    · exact .inr ⟨q', _, k, hplace hnext, hat', ⟨J.mono hslot hcame h, hsubmitted'⟩,
        .inr ⟨rfl, rfl, rfl, hother⟩⟩
  · have hslots' (m : Nat) (v : Value H.Data H.Fn)
        (h : (r.world m).heap.promised? fiber = some v) : ∃ slot, v = .slot value error slot := by
      obtain ⟨slot, hslot, -⟩ := hslots fiber hjoined.mem m v h
      exact ⟨slot, hslot⟩
    obtain ⟨-, q', stage', hnext, hat', hthen⟩ := joins_next hstart himmediate
      (hhides fiber hjoined.mem) hslots' (Nat.le_add_right b n) hat hjoins
    rcases hthen with ⟨j', hjoins', hmeasure⟩ | ⟨slot, hs, rfl⟩
    · refine .inr ⟨q', stage', _, hplace hnext, hat',
        ⟨J.joining (hjoined.mono hslot) hjoins', hsubmitted'⟩, ?_⟩
      rcases hmeasure with hlt | ⟨rfl, hsame⟩
      · exact .inl (Nat.add_lt_add_left hlt _)
      · exact .inr ⟨rfl, hsame⟩
    · have htypes (w : Value H.Data H.Fn) (hw : slot = .ok w) : w.ty = value := by
        obtain ⟨_, _, hpromised⟩ := Heap.slot?_eq_some.1 hs
        obtain ⟨slot', heq, hty⟩ := hslots fiber hjoined.mem _ _ hpromised
        obtain ⟨-, -, rfl⟩ := Value.slot.inj heq
        exact hty w hw
      have hreading := @J.reading _ (r.CameTo value error b (b + (n + 1))) _ _ _ _
        (hjoined.mono hslot) hs htypes
      rcases hreading with ⟨k'', hk, h'⟩ | hreached
      · exact .inr ⟨q', _, k'', hplace hnext, hat', ⟨h', hsubmitted'⟩, .inl (by omega)⟩
      · exact .inl (hlands hnext hat' hreached)

variable {first : Stage H.Data H.Fn} {k : Nat}
  (hp : (r.world b).pendingAt p = some (first, finish))
  (hfirst : J.Under (r.world b).heap.slot? (r.CameTo value error b b) k first)

include hp hfirst

theorem joiner_course (n : Nat) : r.IsUnder b p J n ∨ ∃ m exit, m ≤ n ∧ r.Lands b p J m exit := by
  rcases (joiner_approaches (J := J) hstart himmediate hhides hslots hp).course hp ⟨hfirst, rfl⟩ n
    with ⟨q, stage, k, hq, hat, h⟩ | ⟨m, hm, exit, hlands⟩
  · exact .inl ⟨stage, k, (r.stage_eq_some hp).2 ⟨q, hq, hat⟩, h⟩
  · exact .inr ⟨m, exit, hm, hlands⟩

/-- It comes to its exit if threads take their turns and nobody else subscribes to the fibers. -/
theorem Fair.exists_lands (hfair : r.Fair)
    (hfibers : ∀ fiber ∈ fibers, fiber < (r.world b).heap.promises.size)
    (honce : ∀ fiber ∈ fibers, r.SubscribesOnce fiber)
    (hdecides : Decides value (fibers.map (r.world m).heap.slot?) exit) :
    ∃ n, r.Lands b p J n exit := by
  have hgoes (n k : Nat) (q : Place) (stage : Stage H.Data H.Fn) (hq : r.place b p n = some q)
      (hat : (r.world (b + n)).pendingAt q = some (stage, finish))
      (h : J.Under (r.world (b + n)).heap.slot? (r.CameTo value error b (b + n)) k stage ∧
        r.submitted b p n = []) : r.GoesOn b p n stage := by
    rcases J.next_or_joins h.1 with
      ⟨i, -, rfl, -⟩ | ⟨done, fiber, todo, k', -, hjoined, hjoins⟩
    · trivial
    -- Those before the fiber have succeeded, so nothing would be decided if it had no slot.
    · have hjoined' := hjoined.mono fun _ _ hs =>
        slot?_of_le hstart hs (Nat.le_max_left (b + n) m)
      have hslot : (r.world (max (b + n) m)).heap.slot? fiber ≠ none := fun hnone =>
        not_decides_of_none (by rw [hjoined'.map_slot, List.map_cons, hnone])
          (decides_of_le hstart hdecides (Nat.le_max_right (b + n) m))
      obtain ⟨slot, hslot⟩ := Option.ne_none_iff_exists'.1 hslot
      obtain ⟨_, _, hpromised⟩ := Heap.slot?_eq_some.1 hslot
      exact hfair.goesOn_of_joins himmediate (hfibers fiber hjoined.mem)
        (hfair.tellsFrom hstart (honce fiber hjoined.mem) hpromised b) hq hat hjoins
  obtain ⟨n, exit', hlands⟩ := (joiner_approaches (J := J) hstart himmediate hhides hslots
    hp).exists_goal (n := 0) hfair hgoes rfl hp ⟨hfirst, rfl⟩
  exact ⟨n, decides_unique hstart hlands.decides hdecides ▸ hlands⟩

end Join

/-- An interpretation that has forked effects and goes on to join the forks, in their order, comes
to what their slots decide. -/
theorem Spreads.joinsAll {forks : List (Forked H.Data H.Fn)} {i : Interpretation H.Data H.Fn}
    {J : Joiner H.Data H.Fn value error (forks.map Prod.snd)} (hstart : (r.world 0).Starting)
    (himmediate : (r.world 0).heap.schedulers[immediateId]? = some .immediate) (hfair : r.Fair)
    (h : r.Spreads value error s b p finish n forks i)
    (huntouched : ∀ f ∈ forks, r.IsUntouched value error f.1 s f.2)
    (hq : r.place b p n = some q) {k : Nat} (hfirst : ∀ slot came,
      J.Under slot came k (.driving i)) :
    r.JoinsAll (b + n) q J := by
  obtain ⟨q', hq', hat⟩ := h.there
  obtain rfl := Option.some.inj (hq'.symm.trans hq)
  have hfork (fiber : PromiseId) (hfiber : fiber ∈ forks.map Prod.snd) :
      ∃ f ∈ forks, f.2 = fiber := List.mem_map.1 hfiber
  have hhides (fiber : PromiseId) (hfiber : fiber ∈ forks.map Prod.snd) (n : Nat) (t : ThreadId)
      (id : HandoffId) (hcomes : r.ComesTo n t (.join value error fiber) immediateId id) :
      r.Hides (.handoff id) := by
    obtain ⟨f, hf, rfl⟩ := hfork fiber hfiber
    exact (huntouched f hf).nodes n t id hcomes
  have hslots (fiber : PromiseId) (hfiber : fiber ∈ forks.map Prod.snd) (n : Nat)
      (v : Value H.Data H.Fn) (hv : (r.world n).heap.promised? fiber = some v) :
      ∃ slot, v = .slot value error slot ∧ ∀ w, slot = .ok w → w.ty = value := by
    obtain ⟨f, hf, rfl⟩ := hfork fiber hfiber
    obtain ⟨_, _, _, -, -, -, hlaunch, -⟩ := h.forked f hf
    obtain ⟨_, _, _, slot, -, -, hslot, heq⟩ := (huntouched f hf).recorded hstart hlaunch hv
    exact ⟨slot, heq, fun w hw => Exit.ty_of_slot? (hw ▸ hslot)⟩
  have hcourse := joiner_course (J := J) hstart himmediate hhides hslots hat (hfirst _ _)
  refine ⟨hcourse, decides_unique hstart, fun {m} {vs} {later} hpending => ?_,
    fun honce hdecides => ?_⟩
  · refine (hcourse m).resolve_right fun ⟨k, exit, hk, hlands⟩ => ?_
    exact not_decides_of_none hpending
      (decides_of_le hstart hlands.decides (Nat.add_le_add_left hk _))
  · refine hfair.exists_lands hstart himmediate hhides hslots hat (hfirst _ _)
      (fun fiber hfiber => ?_) honce hdecides
    obtain ⟨f, hf, rfl⟩ := hfork fiber hfiber
    exact (h.forked f hf).lt_size

/-- Two fibers, of one run each, get the same slot, or neither of them gets one. -/
def EndsAlike (r r' : Run H) (fiber fiber' : PromiseId) : Prop :=
  ∀ slot, (∃ n, (r.world n).heap.slot? fiber = some slot) ↔
    ∃ n, (r'.world n).heap.slot? fiber' = some slot

theorem EndsAlike.symm {r' : Run H} {fiber fiber' : PromiseId} (h : r.EndsAlike r' fiber fiber') :
    r'.EndsAlike r fiber' fiber :=
  fun slot => (h slot).symm

section Alike

variable {r' : Run H} {pairs : List (PromiseId × PromiseId)} (hstart' : (r'.world 0).Starting)

include hstart'

theorem exists_gather_of_alike (halike : ∀ f ∈ pairs, r.EndsAlike r' f.1 f.2)
    (vs : List (Value H.Data H.Fn))
    (h : gather value vs ((pairs.map Prod.fst).map (r.world n).heap.slot?) = some exit) :
    ∃ m, gather value vs ((pairs.map Prod.snd).map (r'.world m).heap.slot?) = some exit := by
  induction pairs generalizing vs with
  | nil => exact ⟨0, h⟩
  | cons f pairs ih =>
      rw [List.map_cons, List.map_cons] at h
      cases hslot : (r.world n).heap.slot? f.1 with
      | none => simp [hslot, gather] at h
      | some slot =>
          obtain ⟨m, hm⟩ := (halike f List.mem_cons_self slot).1 ⟨n, hslot⟩
          rw [hslot] at h
          cases slot with
          | err v => exact ⟨m, by simpa [hm, gather] using h⟩
          | panicked report => exact ⟨m, by simpa [hm, gather] using h⟩
          | ok v =>
              obtain ⟨m', hm'⟩ := ih (fun f' hf => halike f' (List.mem_cons_of_mem f hf)) _ h
              refine ⟨max m m', ?_⟩
              rw [List.map_cons, List.map_cons, slot?_of_le hstart' hm (Nat.le_max_left m m')]
              exact gather_mono
                (fun _ _ hs => slot?_of_le hstart' hs (Nat.le_max_right m m')) _ _ hm'

/-- What the slots of fibers decide, the slots of fibers decide that end alike. -/
theorem exists_decides_of_alike (halike : ∀ f ∈ pairs, r.EndsAlike r' f.1 f.2)
    (h : Decides value ((pairs.map Prod.fst).map (r.world n).heap.slot?) exit) :
    ∃ m, Decides value ((pairs.map Prod.snd).map (r'.world m).heap.slot?) exit := by
  obtain ⟨m, hm⟩ := exists_gather_of_alike hstart' halike [] (gather_eq_some_iff.2 h)
  exact ⟨m, gather_eq_some_iff.1 hm⟩

end Alike

end Run

end Trampoline
