import Mathlib.Data.List.Nodup
import Mathlib.Data.List.Perm.Subperm
import Trampoline.Machine.World

/-!
Which objects are dropped. The search finds nothing that is not held, and the census counts, for
every object there is, the references to it from outside and from the objects that have not been
dropped; so exactly the dropped objects end up without a holder, and a channel has a sender unless
the sender is dropped.
-/

namespace Trampoline

namespace Heap

variable {D F : Type} {heap : Heap D F} {roots : List Ref} {x y : Ref}

/-- The heap has an object of this name. -/
def Has (heap : Heap D F) : Ref → Prop
  | .handoff id => id < heap.handoffs.size
  | .promise id => id < heap.promises.size
  | .sender id => id < heap.channels.size
  | .receiver id => id < heap.channels.size
  | .future id => id < heap.futures.size

/-- What is kept from outside, or by an object that is held. -/
inductive Held (heap : Heap D F) (roots : List Ref) : Ref → Prop where
  | root {x : Ref} : x ∈ roots → Held heap roots x
  | kept {x y : Ref} : Held heap roots y → x ∈ heap.kept y → Held heap roots x

/-- What is not kept from outside, and by no object that is not dropped. -/
inductive Dropped (heap : Heap D F) (roots : List Ref) : Ref → Prop where
  | intro {x : Ref} :
      x ∉ roots → (∀ y, x ∈ heap.kept y → Dropped heap roots y) → Dropped heap roots x

/-- All references from outside and between objects are to objects there are. -/
structure IsClosed (heap : Heap D F) (roots : List Ref) : Prop where
  roots {x : Ref} : x ∈ roots → heap.Has x
  kept {x y : Ref} : x ∈ heap.kept y → heap.Has x

theorem Held.not_dropped (h : heap.Held roots x) : ¬heap.Dropped roots x := by
  induction h with
  | root hroot => exact fun ⟨hnot, _⟩ => hnot hroot
  | kept _ hkept ih => exact fun ⟨_, hall⟩ => ih (hall _ hkept)

theorem Held.has (hclosed : heap.IsClosed roots) (h : heap.Held roots x) : heap.Has x := by
  cases h with
  | root hroot => exact hclosed.roots hroot
  | kept _ hkept => exact hclosed.kept hkept

/-- The objects that can keep others. -/
def holders (heap : Heap D F) : List Ref :=
  (List.range heap.handoffs.size).map .handoff ++ ((List.range heap.promises.size).map .promise ++
    ((List.range heap.channels.size).map .receiver ++
      (List.range heap.futures.size).map .future))

/-- All objects there are. -/
def objects (heap : Heap D F) : List Ref :=
  heap.holders ++ (List.range heap.channels.size).map .sender

@[simp] theorem mem_objects : x ∈ heap.objects ↔ heap.Has x := by
  cases x <;> simp [objects, holders, Has]

theorem mem_holders : x ∈ heap.holders ↔ heap.Has x ∧ ∀ id, x ≠ .sender id := by
  cases x <;> simp [holders, Has]

theorem length_objects (heap : Heap D F) : heap.objects.length = heap.population := by
  simp only [objects, holders, List.length_append, List.length_map, List.length_range, population]
  omega

theorem nodup_holders (heap : Heap D F) : heap.holders.Nodup := by
  have hmap {make : Nat → Ref} (hmake : Function.Injective make) (n : Nat) :
      ((List.range n).map make).Nodup := List.nodup_range.map hmake
  refine .append (hmap (fun _ _ => by simp) _) (.append (hmap (fun _ _ => by simp) _)
    (.append (hmap (fun _ _ => by simp) _) (hmap (fun _ _ => by simp) _) ?_) ?_) ?_
  all_goals
    intro x hx hx'
    cases x <;> simp at hx hx'

/-- What keeps something is an object there is, and no sender. -/
theorem mem_holders_of_kept (h : x ∈ heap.kept y) : y ∈ heap.holders := by
  have hlt {α : Type} {xs : Array α} {id : Nat} (hnone : id < xs.size → False) : xs[id]? = none :=
    Array.getElem?_eq_none (Nat.le_of_not_lt hnone)
  refine mem_holders.2 ⟨Classical.not_not.1 fun hnot => ?_, ?_⟩
  · cases y with
    | sender id => simp [kept] at h
    | handoff id => simp [kept, hlt hnot] at h
    | promise id => simp [kept, hlt hnot] at h
    | receiver id => simp [kept, hlt hnot] at h
    | future id => simp [kept, hlt hnot] at h
  · rintro id rfl
    simp [kept] at h

/-- What is kept neither from outside nor by another object is dropped. -/
theorem dropped_of_holders (hroots : x ∉ roots) (hkept : ∀ y ∈ heap.holders, x ∉ heap.kept y) :
    heap.Dropped roots x :=
  .intro hroots fun y hy => absurd hy (hkept y (mem_holders_of_kept hy))

theorem foldObjects_eq {α : Type} (heap : Heap D F) (f : α → Ref → α) (start : α) :
    heap.foldObjects f start = heap.holders.foldl f start := by
  have hfold (n : Nat) (make : Nat → Ref) (a : α) :
      n.fold (fun id _ a => f a (make id)) a = ((List.range n).map make).foldl f a := by
    induction n with
    | zero => rfl
    | succ n ih => simp [ih, List.range_succ]
  simp only [foldObjects, holders, List.foldl_append, hfold]

-- The search.
section Reach

theorem rank_lt (h : heap.Has x) : x.rank < 5 * heap.population := by
  have hlt {id size : Nat} (h : id < size) (hsize : size ≤ heap.population) {k : Nat} (hk : k < 5) :
      5 * id + k < 5 * heap.population := by omega
  cases x with
  | handoff id => exact hlt h (by simp only [population]; omega) (Nat.zero_lt_succ 4)
  | promise id => exact hlt h (by simp only [population]; omega) (by decide)
  | sender id => exact hlt h (by simp only [population]; omega) (by decide)
  | receiver id => exact hlt h (by simp only [population]; omega) (by decide)
  | future id => exact hlt h (by simp only [population]; omega) (by decide)

/-- What has been met is held, and so is what is to be searched. -/
structure MeetsHeld (heap : Heap D F) (roots : List Ref) (state : Met × List Ref) : Prop where
  size : state.1.marks.size = 5 * heap.population
  met {x : Ref} : heap.Has x → state.1.contains x = true → heap.Held roots x
  todo {x : Ref} : x ∈ state.2 → heap.Held roots x

theorem MeetsHeld.meet {state : Met × List Ref} (h : MeetsHeld heap roots state)
    (hy : heap.Held roots y) : MeetsHeld heap roots (meet state y) := by
  obtain ⟨⟨marks⟩, todo⟩ := state
  rw [Heap.meet]
  split
  · exact h
  · refine ⟨by simpa [Met.insert] using h.size, fun {x} hx hmet => ?_, fun {x} hx => ?_⟩
    · by_cases hrank : y.rank = x.rank
      · exact Ref.eq_of_rank_eq hrank ▸ hy
      · refine h.met hx ?_
        simpa [Met.insert, Met.contains, Array.getElem?_setIfInBounds_ne hrank] using hmet
    · rcases List.mem_cons.1 hx with rfl | hx
      · exact hy
      · exact h.todo hx

theorem MeetsHeld.foldl {state : Met × List Ref} (h : MeetsHeld heap roots state)
    {objects : List Ref} (hheld : ∀ y ∈ objects, heap.Held roots y) :
    MeetsHeld heap roots (objects.foldl Heap.meet state) := by
  induction objects generalizing state with
  | nil => exact h
  | cons y objects ih =>
      exact ih (h.meet (hheld y List.mem_cons_self)) fun z hz => hheld z (List.mem_cons_of_mem _ hz)

theorem MeetsHeld.explore {state : Met × List Ref} (h : MeetsHeld heap roots state) (n : Nat)
    (hx : heap.Has x) (hmet : (heap.explore n state).contains x = true) : heap.Held roots x := by
  induction n generalizing state with
  | zero => exact h.met hx hmet
  | succ n ih =>
      obtain ⟨met, todo⟩ := state
      cases todo with
      | nil => exact h.met hx hmet
      | cons y todo =>
          have hy := h.todo List.mem_cons_self
          have hrest : MeetsHeld heap roots (met, todo) :=
            ⟨h.size, h.met, fun hz => h.todo (List.mem_cons_of_mem _ hz)⟩
          exact ih (hrest.foldl fun z hz => .kept hy hz) hmet

/-- The search finds only what is held. -/
theorem held_of_reach (hx : heap.Has x) (h : (heap.reach roots).contains x = true) :
    heap.Held roots x := by
  have hstart : MeetsHeld heap roots (.none heap.population, []) := by
    refine ⟨by simp [Met.none], fun {x} hx hmet => ?_, fun hx => by simp at hx⟩
    simp [Met.none, Met.contains, rank_lt hx] at hmet
  exact (hstart.foldl fun y hy => .root hy).explore _ hx h

end Reach

end Heap

-- The census.
namespace Census

variable {D F : Type} {heap : Heap D F} {census : Census} {x y : Ref} {l : List Ref}

/-- The census has a place for every object of a heap. -/
structure Fits (census : Census) (heap : Heap D F) : Prop where
  handoffs : census.handoffs.size = heap.handoffs.size
  promises : census.promises.size = heap.promises.size
  senders : census.senders.size = heap.channels.size
  receivers : census.receivers.size = heap.channels.size
  futures : census.futures.size = heap.futures.size

theorem Fits.modify (h : census.Fits heap) (change : Nat → Nat) (y : Ref) :
    (census.modify change y).Fits heap := by
  cases y <;>
    exact ⟨by simp [Census.modify, h.handoffs], by simp [Census.modify, h.promises],
      by simp [Census.modify, h.senders], by simp [Census.modify, h.receivers],
      by simp [Census.modify, h.futures]⟩

theorem count_modify_ne (change : Nat → Nat) (hne : x ≠ y) :
    (census.modify change y).count x = census.count x := by
  have hget {counts : Array Nat} {i j : Nat} (hij : j ≠ i) :
      (counts.modify i change)[j]?.getD 0 = counts[j]?.getD 0 := by
    rw [Array.getElem?_modify, if_neg (Ne.symm hij)]
  cases x <;> cases y <;> first | rfl | exact hget fun heq => hne (congrArg _ heq)

theorem Fits.count_modify_self (h : census.Fits heap) (hy : heap.Has y) (change : Nat → Nat) :
    (census.modify change y).count y = change (census.count y) := by
  have hget {counts : Array Nat} {i n : Nat} (hsize : counts.size = n) (hi : i < n) :
      (counts.modify i change)[i]?.getD 0 = change (counts[i]?.getD 0) := by
    subst hsize
    simp [Array.getElem?_modify, Array.getElem?_eq_getElem hi]
  cases y with
  | handoff id => exact hget h.handoffs hy
  | promise id => exact hget h.promises hy
  | sender id => exact hget h.senders hy
  | receiver id => exact hget h.receivers hy
  | future id => exact hget h.futures hy

/-- Every reference counts once. -/
theorem Fits.foldl_gain (h : census.Fits heap) (l : List Ref) :
    (l.foldl gain census).Fits heap ∧
      ∀ x, heap.Has x → (l.foldl gain census).count x = census.count x + l.count x := by
  induction l generalizing census with
  | nil => exact ⟨h, fun _ _ => rfl⟩
  | cons y l ih =>
      obtain ⟨hfits, hcount⟩ := ih (h.modify (· + 1) y)
      refine ⟨hfits, fun x hx => (hcount x hx).trans ?_⟩
      by_cases hxy : x = y
      · subst hxy
        rw [h.count_modify_self hx, List.count_cons_self]
        omega
      · rw [count_modify_ne _ hxy, List.count_cons_of_ne (Ne.symm hxy)]

/-- Objects lose holders, no more than they have; those that lose the last one join the others,
once. -/
theorem Fits.foldl_lose (h : census.Fits heap) (hlist : ∀ y ∈ l, heap.Has y)
    (hle : ∀ x, heap.Has x → l.count x ≤ census.count x) (todo : List Ref) :
    ∃ census' new, l.foldl lose (census, todo) = (census', new ++ todo) ∧ census'.Fits heap ∧
      (∀ x, heap.Has x → census'.count x + l.count x = census.count x) ∧ new.Nodup ∧
        ∀ x, x ∈ new ↔ x ∈ l ∧ census'.count x = 0 := by
  induction l generalizing census todo with
  | nil => exact ⟨census, [], rfl, h, fun _ _ => rfl, .nil, fun _ => by simp⟩
  | cons y l ih =>
      have hy := hlist y List.mem_cons_self
      have hself := h.count_modify_self hy (· - 1)
      have hone := hle y hy
      rw [List.count_cons_self] at hone
      have hle' (x : Ref) (hx : heap.Has x) : l.count x ≤ (census.modify (· - 1) y).count x := by
        by_cases hxy : x = y
        · subst hxy
          omega
        · rw [count_modify_ne _ hxy]
          simpa [List.count_cons_of_ne (Ne.symm hxy)] using hle x hx
      have hcount {census' : Census} (hrest : ∀ x, heap.Has x →
          census'.count x + l.count x = (census.modify (· - 1) y).count x) (x : Ref)
          (hx : heap.Has x) : census'.count x + (y :: l).count x = census.count x := by
        by_cases hxy : x = y
        · subst hxy
          have := hrest x hx
          rw [List.count_cons_self]
          omega
        · rw [List.count_cons_of_ne (Ne.symm hxy), hrest x hx, count_modify_ne _ hxy]
      have hrest (todo' : List Ref) := ih (h.modify (· - 1) y)
        (fun z hz => hlist z (List.mem_cons_of_mem _ hz)) hle' todo'
      rw [List.foldl_cons, lose]
      split
      case isTrue hzero =>
        obtain ⟨census', new, heq, hfits, hrest, hnodup, hnew⟩ := hrest (y :: todo)
        have hyl : y ∉ l := List.count_eq_zero.1 (by have := hle' y hy; omega)
        have hy' : census'.count y = 0 := by have := hrest y hy; omega
        refine ⟨census', new ++ [y], by simp [heq], hfits, hcount hrest, ?_, fun x => ?_⟩
        · exact hnodup.append (List.nodup_singleton y) fun z hz hzy => by
            rw [List.mem_singleton.1 hzy] at hz
            exact hyl ((hnew y).1 hz).1
        · rw [List.mem_append, hnew, List.mem_singleton, List.mem_cons]
          constructor
          · rintro (⟨hx, hzero⟩ | rfl)
            · exact ⟨.inr hx, hzero⟩
            · exact ⟨.inl rfl, hy'⟩
          · rintro ⟨rfl | hx, hzero⟩
            · exact .inr rfl
            · exact .inl ⟨hx, hzero⟩
      case isFalse hsome =>
        obtain ⟨census', new, heq, hfits, hrest, hnodup, hnew⟩ := hrest todo
        refine ⟨census', new, heq, hfits, hcount hrest, hnodup, fun x => ?_⟩
        rw [hnew, List.mem_cons]
        refine ⟨fun ⟨hx, hzero⟩ => ⟨.inr hx, hzero⟩, ?_⟩
        rintro ⟨rfl | hx, hzero⟩
        · refine ⟨List.count_pos_iff.1 ?_, hzero⟩
          have := hrest x hy
          omega
        · exact ⟨hx, hzero⟩

end Census

namespace Heap

variable {D F : Type} {heap : Heap D F} {roots dropped todo : List Ref} {census : Census}
  {x y : Ref}

/-- The references from outside and from the objects that have not been dropped. -/
def remaining (heap : Heap D F) (roots dropped : List Ref) : List Ref :=
  roots ++ (heap.holders.filter (· ∉ dropped)).flatMap heap.kept

theorem remaining_cons (roots : List Ref) (hy : y ∉ dropped) : List.Perm
    (heap.remaining roots dropped) (heap.kept y ++ heap.remaining roots (y :: dropped)) := by
  have hfilter : heap.holders.filter (· ∉ y :: dropped) =
      (heap.holders.filter (· ∉ dropped)).filter (· != y) := by
    rw [List.filter_filter]
    exact List.filter_congr fun z _ => by by_cases hz : z = y <;> simp [hz]
  rw [remaining, remaining, hfilter]
  by_cases hholder : y ∈ heap.holders
  · have hmem : y ∈ heap.holders.filter (· ∉ dropped) := List.mem_filter.2 ⟨hholder, by simpa⟩
    have herase := (heap.nodup_holders.filter (· ∉ dropped)).erase_eq_filter y
    have hperm := (List.perm_cons_erase hmem).flatMap_right heap.kept
    rw [herase, List.flatMap_cons] at hperm
    refine (hperm.append_left roots).trans ?_
    rw [← List.append_assoc, ← List.append_assoc]
    exact List.perm_append_comm.append_right _
  · have hnone : heap.kept y = [] := List.eq_nil_iff_forall_not_mem.2
      fun x hmem => hholder (mem_holders_of_kept hmem)
    have hself : (heap.holders.filter (· ∉ dropped)).filter (· != y) =
        heap.holders.filter (· ∉ dropped) := List.filter_eq_self.2 fun z hz =>
      bne_iff_ne.2 fun heq => hholder (heq ▸ (List.mem_filter.1 hz).1)
    rw [hnone, List.nil_append, hself]

/-- An object without remaining references is dropped, if the others are. -/
theorem dropped_of_remaining (hdropped : ∀ y ∈ dropped, heap.Dropped roots y)
    (h : x ∉ heap.remaining roots dropped) : heap.Dropped roots x := by
  rw [remaining, List.mem_append, not_or] at h
  refine ⟨h.1, fun y hy => Classical.by_contradiction fun hnot => h.2 ?_⟩
  refine List.mem_flatMap.2 ⟨y, List.mem_filter.2 ⟨mem_holders_of_kept hy, ?_⟩, hy⟩
  simpa using fun hmem => hnot (hdropped y hmem)

/-- How far the dropping of objects is: the census counts the remaining references, and those
without any have been dropped, or are to be dropped. -/
structure Releases (heap : Heap D F) (roots dropped : List Ref) (census : Census)
    (todo : List Ref) : Prop where
  fits : census.Fits heap
  count {x : Ref} : heap.Has x → census.count x = (heap.remaining roots dropped).count x
  nodup : (todo ++ dropped).Nodup
  gone {x : Ref} : x ∈ todo ++ dropped → heap.Has x ∧ census.count x = 0 ∧ heap.Dropped roots x
  all {x : Ref} : x ∈ heap.holders → census.count x = 0 → x ∈ todo ++ dropped

namespace Releases

theorem next (hclosed : heap.IsClosed roots)
    (h : heap.Releases roots dropped census (y :: todo)) :
    ∃ census' todo', (heap.kept y).foldl Census.lose (census, todo) = (census', todo') ∧
      heap.Releases roots (y :: dropped) census' todo' := by
  have hy : y ∉ dropped := fun hmem =>
    (List.nodup_append.1 h.nodup).2.2 y List.mem_cons_self y hmem rfl
  have hremaining {x : Ref} (hx : heap.Has x) : census.count x =
      (heap.kept y).count x + (heap.remaining roots (y :: dropped)).count x := by
    rw [h.count hx, (remaining_cons roots hy).count_eq, List.count_append]
  have hperm : (todo ++ y :: dropped).Perm (y :: todo ++ dropped) := List.perm_middle
  obtain ⟨census', new, heq, hfits, hcount, hnodup, hnew⟩ :=
    h.fits.foldl_lose (fun x hx => hclosed.kept hx)
      (fun x hx => by rw [hremaining hx]; exact Nat.le_add_right _ _) todo
  have hcount' {x : Ref} (hx : heap.Has x) :
      census'.count x = (heap.remaining roots (y :: dropped)).count x := by
    have := hcount x hx
    have := hremaining hx
    omega
  have hold {x : Ref} (hx : x ∈ todo ++ y :: dropped) :
      heap.Has x ∧ census'.count x = 0 ∧ heap.Dropped roots x := by
    obtain ⟨hhas, hzero, hdropped⟩ := h.gone (hperm.mem_iff.1 hx)
    have := hcount x hhas
    exact ⟨hhas, by omega, hdropped⟩
  refine ⟨census', new ++ todo, heq, hfits, hcount', ?_, fun {x} hx => ?_, fun {x} hx hzero => ?_⟩
  · rw [List.append_assoc]
    refine hnodup.append (hperm.nodup_iff.2 h.nodup) fun x hx hx' => ?_
    obtain ⟨hhas, hzero, -⟩ := h.gone (hperm.mem_iff.1 hx')
    have := List.count_pos_iff.2 ((hnew x).1 hx).1
    have := hcount x hhas
    omega
  · rw [List.append_assoc] at hx
    rcases List.mem_append.1 hx with hx | hx
    · obtain ⟨hkept, hzero⟩ := (hnew x).1 hx
      refine ⟨hclosed.kept hkept, hzero, dropped_of_remaining (fun z hz => ?_)
        (List.count_eq_zero.1 ((hcount' (hclosed.kept hkept)).symm.trans hzero))⟩
      exact (hold (List.mem_append_right _ hz)).2.2
    · exact hold hx
  · rw [List.append_assoc]
    by_cases hkept : x ∈ heap.kept y
    · exact List.mem_append_left _ ((hnew x).2 ⟨hkept, hzero⟩)
    · have := hcount x (mem_holders.1 hx).1
      rw [List.count_eq_zero.2 hkept] at this
      exact List.mem_append_right _ (hperm.mem_iff.2 (h.all hx (by omega)))

/-- Objects are dropped until there are none to be dropped any more. -/
theorem run (hclosed : heap.IsClosed roots) {n : Nat}
    (h : heap.Releases roots dropped census todo) (hn : n + dropped.length = heap.population) :
    ∃ dropped', heap.Releases roots dropped' (heap.release n (census, todo)) [] := by
  induction n generalizing dropped census todo with
  | zero =>
      cases todo with
      | nil => exact ⟨dropped, h⟩
      | cons y todo =>
          have hsub : y :: todo ++ dropped ⊆ heap.objects :=
            fun x hx => mem_objects.2 (h.gone hx).1
          have hlength := (h.nodup.subperm hsub).length_le
          rw [length_objects, List.length_append, List.length_cons] at hlength
          omega
  | succ n ih =>
      cases todo with
      | nil => exact ⟨dropped, h⟩
      | cons y todo =>
          obtain ⟨census', todo', heq, hnext⟩ := h.next hclosed
          rw [release, heq]
          exact ih hnext (by rw [List.length_cons]; omega)

/-- When no more objects are to be dropped, those without a holder are the dropped ones. -/
theorem count_eq_zero_iff (h : heap.Releases roots dropped census []) (hx : heap.Has x) :
    census.count x = 0 ↔ heap.Dropped roots x := by
  refine ⟨fun hzero => dropped_of_remaining (fun y hy => (h.gone hy).2.2)
    (List.count_eq_zero.1 ((h.count hx).symm.trans hzero)), fun hdropped => ?_⟩
  induction hdropped with
  | @intro x hroots _ ih =>
      rw [h.count hx, remaining, List.count_append, List.count_eq_zero.2 hroots, Nat.zero_add]
      refine List.count_eq_zero.2 fun hmem => ?_
      obtain ⟨y, hy, hkept⟩ := List.mem_flatMap.1 hmem
      obtain ⟨hholder, hnot⟩ := List.mem_filter.1 hy
      simp only [decide_eq_true_eq] at hnot
      exact hnot (h.all hholder (ih y hkept (mem_holders.1 hholder).1))

end Releases

theorem fullCensus_fits (heap : Heap D F) (roots : List Ref) :
    (heap.fullCensus roots).Fits heap ∧
      ∀ x, heap.Has x →
        (heap.fullCensus roots).count x = (heap.remaining roots []).count x := by
  have hholders (l : List Ref) {census : Census} (h : census.Fits heap) :
      let census' := l.foldl (fun census y => (heap.kept y).foldl Census.gain census) census
      census'.Fits heap ∧ ∀ x, heap.Has x → census'.count x =
        census.count x + (l.flatMap heap.kept).count x := by
    induction l generalizing census with
    | nil => exact ⟨h, fun _ _ => rfl⟩
    | cons y l ih =>
        obtain ⟨hgain, hcount⟩ := h.foldl_gain (heap.kept y)
        obtain ⟨hfits, hcount'⟩ := ih hgain
        refine ⟨hfits, fun x hx => ?_⟩
        rw [List.foldl_cons, hcount' x hx, hcount x hx, List.flatMap_cons, List.count_append,
          Nat.add_assoc]
  have hstart : Census.Fits ⟨.replicate heap.handoffs.size 0, .replicate heap.promises.size 0,
      .replicate heap.channels.size 0, .replicate heap.channels.size 0,
        .replicate heap.futures.size 0⟩ heap := by
    constructor <;> simp
  obtain ⟨hroots, hcount⟩ := hstart.foldl_gain roots
  obtain ⟨hfits, hcount'⟩ := hholders heap.holders hroots
  rw [fullCensus, foldObjects_eq]
  refine ⟨hfits, fun x hx => ?_⟩
  rw [hcount' x hx, hcount x hx, remaining]
  have hzero : Census.count ⟨.replicate heap.handoffs.size 0, .replicate heap.promises.size 0,
      .replicate heap.channels.size 0, .replicate heap.channels.size 0,
        .replicate heap.futures.size 0⟩ x = 0 := by
    cases x <;> simp [Census.count, Array.getElem?_replicate] <;> split <;> rfl
  simp [hzero]

/-- In the census exactly the dropped objects have no holder. -/
theorem census_count_eq_zero_iff (hclosed : heap.IsClosed roots) (hx : heap.Has x) :
    (heap.census roots).count x = 0 ↔ heap.Dropped roots x := by
  obtain ⟨hfits, hcount⟩ := heap.fullCensus_fits roots
  have hunheld (l todo : List Ref) (p : Ref → Prop) [DecidablePred p] :
      l.foldl (fun todo y => if p y then y :: todo else todo) todo =
        (l.filter p).reverse ++ todo := by
    induction l generalizing todo with
    | nil => rfl
    | cons y l ih =>
        rw [List.foldl_cons, ih, List.filter_cons]
        split <;> simp_all
  have hstart : heap.Releases roots [] (heap.fullCensus roots)
      ((heap.holders.filter fun y => (heap.fullCensus roots).count y = 0).reverse ++ []) := by
    refine ⟨hfits, fun hx => hcount _ hx, ?_, fun {y} hy => ?_, fun {y} hy hzero => ?_⟩
    · simpa using (heap.nodup_holders.filter _)
    · simp only [List.append_nil, List.mem_reverse, List.mem_filter, decide_eq_true_eq] at hy
      have hhas := (mem_holders.1 hy.1).1
      have hnone : ∀ z ∈ ([] : List Ref), heap.Dropped roots z := by simp
      exact ⟨hhas, hy.2,
        dropped_of_remaining hnone (List.count_eq_zero.1 ((hcount y hhas).symm.trans hy.2))⟩
    · simpa using ⟨hy, hzero⟩
  obtain ⟨dropped, hend⟩ := hstart.run hclosed (n := heap.population) rfl
  rw [census, foldObjects_eq, hunheld]
  exact hend.count_eq_zero_iff hx

end Heap

namespace World

variable {H : Host} {w : World H} {id : ChannelId}

/-- A channel has no sender exactly when the sender is dropped. -/
theorem hasSender_eq_false_iff (hclosed : w.heap.IsClosed w.roots)
    (hid : id < w.heap.channels.size) :
    w.hasSender id = false ↔ w.heap.Dropped w.roots (.sender id) := by
  have hcensus := Heap.census_count_eq_zero_iff hclosed (x := .sender id) hid
  rw [hasSender, Bool.or_eq_false_iff, ← hcensus]
  refine ⟨fun h => Decidable.of_not_not (of_decide_eq_false h.2),
    fun hzero => ⟨?_, decide_eq_false (not_not_intro hzero)⟩⟩
  refine Bool.eq_false_iff.2 fun hreach => ?_
  exact (Heap.held_of_reach (x := .sender id) hid hreach).not_dropped (hcensus.1 hzero)

end World

end Trampoline
