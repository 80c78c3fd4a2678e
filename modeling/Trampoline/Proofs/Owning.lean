import Trampoline.Proofs.Callers
import Trampoline.Proofs.Counting
import Trampoline.Proofs.Passing

/-!
What is named over time. If the host gets hold of nothing except through what it has been given,
then whatever is named is an object there is, and no sender; so the sender of a channel is kept only
by the interpretation that ends into the channel, and what is dropped is never named again.
-/

namespace Trampoline

variable {H : Host}

theorem Thread.names_of_heard {thread : Thread H} {notified : Option Gate} {x : Ref}
    (h : (thread.heard notified).Names x) : thread.Names x := by
  cases notified with
  | none => exact h
  | some gate =>
      simp only [heard] at h
      unfold Thread.notified at h
      split at h
      · split at h
        · exact h.imp_left .inl
        · exact h
      · exact h

namespace World

/-- What the host, the schedulers and the threads name. -/
def Names (w : World H) (x : Ref) : Prop :=
  x ∈ H.stateRefs w.state [] ∨ (∃ s ∈ w.heap.schedulers, s.Names x) ∨
    ∃ (t : ThreadId) (thread : Thread H), w.threads[t]? = some thread ∧ thread.Names x

/-- If the action is a turn of host code, what the host names then it has named before, has been
given, or has got hold of from there. -/
structure IsHonest (w : World H) (a : Action) : Prop where
  enters {t : ThreadId} {name : Option String} {f : Owned H.Fn} {args : List (Value H.Data H.Fn)}
      {stack : List (Return H)} {x : Ref} : a = .thread t →
    w.threads[t]? = some ⟨name, .run (.call f args), stack⟩ →
      x ∈ H.codeRefs (H.enter f.val args) [] → x ∈ f.kept ∨ ∃ v ∈ args, x ∈ v.kept
  advances {t : ThreadId} {name : Option String} {code : H.Code} {reply : Reply H.Data H.Fn}
      {stack : List (Return H)} {state : H.State} {move : Move H.Data H.Fn H.Code H.Condition}
      {x : Ref} : a = .thread t →
    w.threads[t]? = some ⟨name, .run (.user code reply), stack⟩ →
      H.advance ⟨t, name⟩ w.heap w.state code reply = (state, move) →
        x ∈ H.stateRefs state [] ∨ move.Names x → w.heap.Known
          (fun y => y ∈ H.stateRefs w.state [] ∨ y ∈ H.codeRefs code [] ∨ reply.Names y) x

variable {w w' : World H} {a : Action} {t : ThreadId} {thread : Thread H} {x : Ref}

theorem names_of_thread (ht : w.threads[t]? = some thread) (hx : thread.Names x) : w.Names x :=
  .inr (.inr ⟨t, thread, ht, hx⟩)

theorem names_of_back {back : Return H} (ht : w.threads[t]? = some thread)
    (hback : back ∈ thread.stack) (hx : back.Names x) : w.Names x :=
  names_of_thread ht (.inr ⟨back, hback, hx⟩)

/-- A turn keeps to what is named, if the host does. -/
theorem IsHonest.turn_keeps {state : H.State} {rest : List (Return H)} {turn : Turn H}
    (h : w.IsHonest (.thread t)) (ht : w.threads[t]? = some thread)
    (hturn : thread.turn? t w.heap w.state = some (state, rest, turn)) :
    turn.Keeps w.heap w.Names ∧ (∀ back ∈ rest, back ∈ thread.stack) ∧
      ∀ x ∈ H.stateRefs state [], w.heap.Yields turn.heap w.Names x := by
  have hstate (heap' : Heap H.Data H.Fn) (x : Ref) (hx : x ∈ H.stateRefs w.state []) :
      w.heap.Yields heap' w.Names x := .here (.inl hx)
  cases thread.turning hturn with
  | @move name code reply stack _ move =>
      obtain ⟨rfl, hmove⟩ := Prod.mk.inj (Option.some.inj hturn)
      have hturn' := (Prod.mk.inj hmove).2
      have hknown {x : Ref}
          (hx : x ∈ H.stateRefs (H.advance ⟨t, name⟩ w.heap w.state code reply).1 [] ∨
          (H.advance ⟨t, name⟩ w.heap w.state code reply).2.Names x) :
          w.heap.Known w.Names x := by
        refine (h.advances rfl ht rfl hx).mono fun y hy => .here ?_
        exact hy.imp_right fun hy => .inr ⟨t, _, ht, .inl hy⟩
      rw [← hturn']
      refine ⟨⟨?_, fun {x} hx => .inl (hknown (.inr (Move.names_of_turn hx)))⟩, fun _ hb => hb,
        fun x hx => .inl (hknown (.inl hx))⟩
      cases (H.advance ⟨t, name⟩ w.heap w.state code reply).2 <;> exact .refl _ _
  | @task name task stack huser =>
      refine ⟨Task.turn_keeps huser (fun x hx => names_of_thread ht (.inl hx))
        (fun s hs x hx => .inr (.inl ⟨s, hs, hx⟩)) fun f args x htask hx => ?_, fun _ hb => hb,
        hstate _⟩
      subst htask
      exact names_of_thread ht (.inl (h.enters rfl ht hx))
  | @ret name v back rest =>
      exact ⟨Return.resume_keeps (fun x hx => names_of_thread ht (.inl hx))
        fun x hx => names_of_back ht List.mem_cons_self hx,
        fun _ hb => List.mem_cons_of_mem _ hb, hstate _⟩
  | @raise name payload back rest =>
      exact ⟨Return.unwind_keeps payload fun x hx => names_of_back ht List.mem_cons_self hx,
        fun _ hb => List.mem_cons_of_mem _ hb, hstate _⟩

/-- What is named after an action was named before, or could be got hold of from there, or is new;
and nothing else has been put into objects. -/
structure Conserves (w w' : World H) : Prop where
  passes : w.heap.Passes w.Names w'.heap
  names {x : Ref} : w'.Names x → w.heap.Yields w'.heap w.Names x

theorem Ordered.conserves_act (hw : w.Ordered) (h : w.IsHonest (.thread t))
    (ht : w.threads[t]? = some thread) (hallows : w.allows thread)
    (hawake : ∀ wait woken missed, thread.control ≠ .asleep wait woken missed) :
    w.Conserves (w.act t thread) := by
  obtain ⟨state, rest, turn, hturn⟩ := exists_turn_of_allows hallows hawake
  obtain ⟨hkeeps, hrest, hstate⟩ := h.turn_keeps ht hturn
  rw [(act_of_turn hturn).1]
  refine ⟨heap_apply ▸ hkeeps.passes, fun {x} hx => ?_⟩
  rw [heap_apply]
  rcases hx with hx | ⟨s, hs, hx⟩ | ⟨t', thread', ht', hx⟩
  · rw [state_apply] at hx
    exact hstate x hx
  · obtain ⟨s', hs', hx'⟩ := hkeeps.passes.schedulers (heap_apply ▸ hs) hx
    exact .here (.inr (.inl ⟨s', hs', hx'⟩))
  · rw [hw.threads_apply ht] at ht'
    split at ht'
    · obtain rfl := Option.some.inj ht'
      rcases Thread.names_of_heard hx with hx | ⟨back, hback, hx⟩
      · exact hkeeps.names (.inl hx)
      · rcases List.mem_append.1 hback with hpushed | hback
        · exact hkeeps.names (.inr (.inl ⟨back, hpushed, hx⟩))
        · exact .here (names_of_back ht (hrest back hback) hx)
    · split at ht'
      · exact hkeeps.names (.inr (.inr ⟨thread', ht', hx⟩))
      · obtain ⟨before, hbefore, rfl⟩ := Option.map_eq_some_iff.1 ht'
        exact .here (names_of_thread hbefore (Thread.names_of_heard hx))

theorem Ordered.conserves (hw : w.Ordered) (h : w.IsHonest a) (hdoes : w.does a = some w') :
    w.Conserves w' := by
  cases a with
  | time n =>
      obtain rfl := Option.some.inj hdoes
      exact ⟨⟨id, .inl, fun hs hx => ⟨_, hs, hx⟩⟩, fun hx => .here hx⟩
  | forget keep =>
      obtain rfl := Option.some.inj hdoes
      refine ⟨.refl _ _, fun hx => .here (hx.imp_right (.imp_right ?_))⟩
      rintro ⟨t, thread, ht, hx⟩
      exact ⟨t, thread, thread_of_forget ht, hx⟩
  | thread t =>
      rcases step_cases hdoes with
        ⟨name, wait, woken, missed, stack, arrived, ht, rfl⟩ | ⟨thread, ht, hawake, hallows, rfl⟩
      · refine ⟨.refl _ _, fun hx => .here (hx.imp_right (.imp_right ?_))⟩
        rintro ⟨t', thread', ht', hx⟩
        rw [threads_rouse arrived ht] at ht'
        split at ht'
        · obtain rfl := Option.some.inj ht'
          refine ⟨t, _, ht, hx.imp_left fun hx => ?_⟩
          cases arrived with
          | true => exact .inl hx
          | false => exact .inr hx
        · exact ⟨t', thread', ht', hx⟩
      · exact hw.conserves_act h ht hallows hawake

/-- The references from outside are those that are named, and the senders of the channels into which
interpretations on threads end. -/
theorem Ordered.mem_roots (hfront : H.ListsInFront) (hw : w.Ordered) :
    x ∈ w.roots ↔ w.Names x ∨ ∃ t level, Pending.Sends (w.pendingAt (.thread t level)) x := by
  have hschedulers : x ∈ w.heap.schedulers.foldl (fun refs s => s.refs refs)
      (H.stateRefs w.state []) ↔
        (∃ s ∈ w.heap.schedulers, s.Names x) ∨ x ∈ H.stateRefs w.state [] := by
    rw [← Array.foldl_toList]
    simpa using Ref.mem_foldl w.heap.schedulers.toList
      (fun s _ _ => Scheduler.mem_refs (s := s) (x := x)) (H.stateRefs w.state [])
  have hthreads (refs : List Ref) :
      x ∈ w.threads.foldl (fun refs _ thread => thread.refs refs) refs ↔
        (∃ (t : ThreadId) (thread : Thread H), w.threads[t]? = some thread ∧
          (thread.Names x ∨ ∃ level, Pending.Sends (thread.pendingAt level) x)) ∨ x ∈ refs := by
    have hentry (entry : ThreadId × Thread H) :
        entry ∈ w.threads.toList ↔ w.threads[entry.1]? = some entry.2 :=
      Std.TreeMap.mem_toList_iff_getElem?_eq_some
    rw [Std.TreeMap.foldl_eq_foldl_toList, Ref.mem_foldl w.threads.toList fun entry hmem _ => by
      rw [Thread.mem_refs hfront (hw.threads entry.1 entry.2 ((hentry entry).1 hmem)), or_assoc]]
    simp [hentry]
  rw [roots, hthreads, hschedulers]
  have hsends : (∃ t level, Pending.Sends (w.pendingAt (.thread t level)) x) ↔
      ∃ (t : ThreadId) (thread : Thread H), w.threads[t]? = some thread ∧
        ∃ level, Pending.Sends (thread.pendingAt level) x := by
    refine exists_congr fun t => ?_
    rcases ht : w.threads[t]? with _ | thread <;> simp [pendingAt, ht]
  rw [hsends, Names]
  simp only [and_or_left, exists_or]
  grind

end World

namespace Pending

theorem sends_iff {F : Type} {finish : Finish F} {x : Ref} :
    finish.Sends x ↔ ∃ value error id, finish = .channel value error id ∧ x = .sender id := by
  cases finish <;> simp

end Pending

namespace Run

variable {r : Run H} {n m : Nat} {x y : Ref} {id : ChannelId} {q : Place}

/-- There is nothing to get hold of at the start, and the host never gets hold of anything except
through what it has been given. -/
structure IsHonest (r : Run H) : Prop where
  front : H.ListsInFront
  start : (r.world 0).roots = []
  honest (n : Nat) : (r.world n).IsHonest (r.action n)

theorem sends_iff_endsInto :
    Pending.Sends ((r.world n).pendingAt q) x ↔ ∃ id, x = .sender id ∧ r.EndsInto n q id := by
  constructor
  · rintro ⟨stage, finish, hat, hsends⟩
    obtain ⟨value, error, id, rfl, rfl⟩ := Pending.sends_iff.1 hsends
    exact ⟨id, rfl, stage, value, error, hat⟩
  · rintro ⟨id, rfl, stage, value, error, hat⟩
    exact ⟨stage, _, hat, rfl⟩

theorem mem_kept : x ∈ (r.world n).heap.kept y ↔ (r.world n).heap.Names y x ∨
    ∃ h id, y = .handoff h ∧ x = .sender id ∧ r.EndsInto n (.handoff h) id := by
  have hsends (h : HandoffId) : Pending.Sends ((r.world n).heap.pendingAt h) x ↔
      ∃ id, x = .sender id ∧ r.EndsInto n (.handoff h) id := sends_iff_endsInto (q := .handoff h)
  rw [Heap.mem_kept]
  simp only [hsends, exists_and_left]

namespace IsHonest

variable (hhonest : r.IsHonest)
include hhonest

theorem conserves (n : Nat) : (r.world n).Conserves (r.world (n + 1)) :=
  (r.ordered n).conserves (hhonest.honest n) (r.step n)

theorem mem_roots : x ∈ (r.world n).roots ↔ (r.world n).Names x ∨
    ∃ t level id, x = .sender id ∧ r.EndsInto n (.thread t level) id := by
  simp only [(r.ordered n).mem_roots hhonest.front, sends_iff_endsInto]

/-- What can be got hold of from what is named is held. -/
theorem held_of_known (h : (r.world n).heap.Known (r.world n).Names x) :
    (r.world n).heap.Held (r.world n).roots x := by
  induction h with
  | here hx => exact .root (hhonest.mem_roots.2 (.inl hx))
  | shown _ hnames ih => exact .kept ih (mem_kept.2 (.inl hnames))

section Starting

variable (hstart : (r.world 0).Starting)
include hstart

/-- Whatever is named is an object there is, and no sender. -/
theorem has_of_names (h : (r.world n).Names x ∨ ∃ y, (r.world n).heap.Names y x) :
    (r.world n).heap.Has x ∧ ∀ id, x ≠ .sender id := by
  induction n generalizing x with
  | zero =>
      rcases h with h | ⟨y, h⟩
      · have hmem := hhonest.mem_roots.2 (.inl h)
        rw [hhonest.start] at hmem
        exact absurd hmem List.not_mem_nil
      · cases y <;> simp [hstart.handoffs, hstart.promises, hstart.channels, hstart.futures] at h
  | succ n ih =>
      have hconserves := hhonest.conserves n
      have hyields (h : (r.world n).heap.Yields (r.world (n + 1)).heap (r.world n).Names x) :
          (r.world (n + 1)).heap.Has x ∧ ∀ id, x ≠ .sender id := by
        rcases h with hknown | ⟨-, hhas, hsender⟩
        · cases hknown with
          | here hx => exact (ih (.inl hx)).imp_left hconserves.passes.has
          | shown _ hnames => exact (ih (.inr ⟨_, hnames⟩)).imp_left hconserves.passes.has
        · exact ⟨hhas, hsender⟩
      rcases h with h | ⟨y, h⟩
      · exact hyields (hconserves.names h)
      · rcases hconserves.passes.names h with h | h
        · exact (ih (.inr ⟨y, h⟩)).imp_left hconserves.passes.has
        · exact hyields h

/-- No unit of work that ends into a channel is ever handed in by the host. -/
theorem isPrivate (id : ChannelId) : r.IsPrivate id := by
  rintro n t q work ⟨-, name, stack, ht⟩ hwork hinto
  have hnames : (r.world n).Names (.sender id) := by
    refine World.names_of_thread ht (.inl ?_)
    cases work with
    | interpret node finish =>
        obtain ⟨value, error, rfl⟩ : ∃ value error, finish = .channel value error id := by
          cases finish <;> simp_all [Work.IsInto, Finish.channel?]
        cases q <;> simp_all [Request.work?, Request.Names, Request.refs, Work.kept, Finish.kept]
    | _ => exact hinto.elim
  exact (hhonest.has_of_names hstart (.inl hnames)).2 id rfl

/-- All references are to objects there are. -/
theorem isClosed (n : Nat) : (r.world n).heap.IsClosed (r.world n).roots where
  roots {x} hx := by
    rcases hhonest.mem_roots.1 hx with hx | ⟨t, level, id, rfl, hinto⟩
    · exact (hhonest.has_of_names hstart (.inl hx)).1
    · exact hinto.lt hstart (hhonest.isPrivate hstart id)
  kept {x y} hx := by
    rcases mem_kept.1 hx with hx | ⟨h, id, rfl, rfl, hinto⟩
    · exact (hhonest.has_of_names hstart (.inr ⟨y, hx⟩)).1
    · exact hinto.lt hstart (hhonest.isPrivate hstart id)

/-- A sender is dropped unless an interpretation ends into its channel that is on a thread, or is
parked at an async node that is not dropped. -/
theorem dropped_sender_iff : (r.world n).heap.Dropped (r.world n).roots (.sender id) ↔
    ∀ q, r.EndsInto n q id →
      ∃ h, q = .handoff h ∧ (r.world n).heap.Dropped (r.world n).roots (.handoff h) := by
  constructor
  · rintro ⟨hroots, hkept⟩ q hinto
    cases q with
    | thread t level =>
        exact absurd (hhonest.mem_roots.2 (.inr ⟨t, level, id, rfl, hinto⟩)) hroots
    | handoff h => exact ⟨h, rfl, hkept _ (mem_kept.2 (.inr ⟨h, id, rfl, rfl, hinto⟩))⟩
  · intro hall
    refine .intro (fun hx => ?_) fun y hx => ?_
    · rcases hhonest.mem_roots.1 hx with hx | ⟨t, level, id', heq, hinto⟩
      · exact (hhonest.has_of_names hstart (.inl hx)).2 id rfl
      · obtain rfl := Ref.sender.inj heq
        obtain ⟨h, hq, -⟩ := hall _ hinto
        cases hq
    · rcases mem_kept.1 hx with hx | ⟨h, id', rfl, heq, hinto⟩
      · exact absurd rfl ((hhonest.has_of_names hstart (.inr ⟨y, hx⟩)).2 id)
      · obtain rfl := Ref.sender.inj heq
        obtain ⟨h', hq, hdropped⟩ := hall _ hinto
        obtain rfl := Place.handoff.inj hq
        exact hdropped

/-- The exit of an interpretation can come through a channel as long as the interpretation is on a
thread, or parked at an async node that is not dropped. -/
theorem hasSender_eq_false_iff (hid : id < (r.world n).heap.channels.size) :
    (r.world n).hasSender id = false ↔ ∀ q, r.EndsInto n q id →
      ∃ h, q = .handoff h ∧ (r.world n).heap.Dropped (r.world n).roots (.handoff h) := by
  rw [World.hasSender_eq_false_iff (hhonest.isClosed hstart n) hid]
  exact hhonest.dropped_sender_iff hstart

end Starting

theorem has_of_le (h : (r.world n).heap.Has x) (hnm : n ≤ m) : (r.world m).heap.Has x := by
  induction hnm with
  | refl => exact h
  | step _ ih => exact (hhonest.conserves _).passes.has ih

/-- What is dropped is never held again. -/
theorem dropped_of_le (hhas : (r.world n).heap.Has x) (hsender : ∀ id, x ≠ .sender id)
    (h : (r.world n).heap.Dropped (r.world n).roots x) (hnm : n ≤ m) :
    (r.world m).heap.Dropped (r.world m).roots x := by
  induction hnm with
  | refl => exact h
  | @step m hnm ih =>
      clear h
      replace hhas := hhonest.has_of_le hhas hnm
      have hconserves := hhonest.conserves m
      induction ih with
      | @intro x hroots hkept ihkept =>
          have hyields :
              ¬(r.world m).heap.Yields (r.world (m + 1)).heap (r.world m).Names x := by
            rintro (hknown | ⟨hnot, -⟩)
            · exact (hhonest.held_of_known hknown).not_dropped (.intro hroots hkept)
            · exact hnot hhas
          refine .intro (fun hx => ?_) fun y hx => ?_
          · rcases hhonest.mem_roots.1 hx with hx | ⟨t, level, id, heq, -⟩
            · exact hyields (hconserves.names hx)
            · exact hsender id heq
          · rcases mem_kept.1 hx with hx | ⟨h, id, -, heq, -⟩
            · rcases hconserves.passes.names hx with hx | hx
              · have hmem := mem_kept.2 (.inl hx)
                have hy := Heap.mem_holders.1 (Heap.mem_holders_of_kept hmem)
                exact ihkept y hmem hy.2 hy.1
              · exact absurd hx hyields
            · exact absurd heq (hsender id)

end IsHonest

end Run

end Trampoline
