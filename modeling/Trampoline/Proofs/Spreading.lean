import Trampoline.Proofs.Failing
import Trampoline.Proofs.Forks
import Trampoline.Proofs.Joins

/-!
The first half of a concurrent traversal. It forks the effects of the items one after the other,
each on the scheduler and into a fiber of its own, and comes to no async node meanwhile: when it
starts to join the forks, all of them have been submitted.
-/

namespace Trampoline

variable {H : Host}

namespace Run

variable {r : Run H} {b e k n m : Nat} {p q : Place} {t : ThreadId} {value error : Ty}
  {s : SchedulerId} {x : Node H.Data H.Fn} {fiber : PromiseId} {f g : Forked H.Data H.Fn}
  {forks forks' : List (Forked H.Data H.Fn)} {frames rest : List (Frame H.Data H.Fn)}
  {finish : Finish H.Fn} {i j : Interpretation H.Data H.Fn}

/-- A scheduler comes back, with a reply, from the submission of every effect that is forked on it.
-/
def SubmissionsReturn (r : Run H) (s : SchedulerId) : Prop :=
  ∀ n t value error x fiber stack,
    r.Turns n t (.run (.submit s (launched value error x s fiber))) stack →
      ∃ m, r.Returns n m t stack

/-- A scheduler that starts a thread for whatever is submitted to it comes back at once. -/
theorem submissionsReturn_of_startsThreads
    (h : ∃ kind, (r.world 0).heap.schedulers[s]? = some kind ∧ kind.StartsThreads H.spawnError) :
    r.SubmissionsReturn s := by
  rintro n t value error x fiber stack ⟨haction, name, ht⟩
  obtain ⟨kind, hkind, hstarts⟩ := r.exists_scheduler Scheduler.isKept_startsThreads h n
  obtain ⟨heap, born, hsubmit⟩ :=
    Task.submitTurn_of_startsThreads hkind hstarts (launched value error x s fiber)
  obtain ⟨-, hnext⟩ := next_of_action haction ht rfl
  simp only [Task.turn, hsubmit] at hnext
  exact ⟨n + 1, Nat.lt_succ_self n, fun j hj hjn => by omega, name, .unit, hnext⟩

theorem submissionsReturn_pool {hook : Hook H.Fn}
    (hpool : (r.world 0).heap.schedulers[s]? = some (.pool hook)) : r.SubmissionsReturn s :=
  submissionsReturn_of_startsThreads ⟨_, hpool, trivial⟩

/-- The fork has got its fiber since time `b`, and has then been submitted before time `e`. -/
def IsForked (r : Run H) (b e : Nat) (value error : Ty) (s : SchedulerId)
    (f : Forked H.Data H.Fn) : Prop :=
  ∃ k c t, b ≤ k ∧ k < c ∧ c < e ∧ r.Launches k value error f.1 s f.2 ∧
    r.Does c t (.submit s (launched value error f.1 s f.2))

theorem IsForked.mono {b' e' : Nat} (h : r.IsForked b e value error s f) (hb : b' ≤ b)
    (he : e ≤ e') : r.IsForked b' e' value error s f := by
  obtain ⟨k, c, t, hbk, hkc, hce, hlaunch, hsubmits⟩ := h
  exact ⟨k, c, t, Nat.le_trans hb hbk, hkc, Nat.lt_of_lt_of_le hce he, hlaunch, hsubmits⟩

theorem IsForked.lt_size (h : r.IsForked b e value error s f) :
    f.2 < (r.world e).heap.promises.size := by
  obtain ⟨k, c, t, -, hkc, hce, hlaunch, -⟩ := h
  have hsize := promises_size_le (r := r) (show k + 1 ≤ e by omega)
  rw [hlaunch.size_succ] at hsize
  exact hsize

/-- A later fork has a later fiber. -/
theorem IsForked.fiber_lt {e' : Nat} (h : r.IsForked b e value error s f)
    (h' : r.IsForked e e' value error s g) : f.2 < g.2 := by
  obtain ⟨k, -, -, hek, -, -, hlaunch, -⟩ := h'
  exact hlaunch.fiber ▸ Nat.lt_of_lt_of_le h.lt_size (promises_size_le hek)

/-- The interpretation that is at `p` at time `b` goes on with `i`, `n` actions later; until then it
has forked these effects, in this order, and nothing else, and has come to no async node. -/
structure Spreads (r : Run H) (value error : Ty) (s : SchedulerId) (b : Nat) (p : Place)
    (finish : Finish H.Fn) (n : Nat) (forks : List (Forked H.Data H.Fn))
    (i : Interpretation H.Data H.Fn) : Prop where
  there : ∃ q, r.place b p n = some q ∧ (r.world (b + n)).pendingAt q = some (.driving i, finish)
  submitted : r.submitted b p n = forks.map fun f => (s, launched value error f.1 s f.2)
  nodes {k : Nat} {stage : Stage H.Data H.Fn} : k ≤ n → r.stage b p k = some stage →
    stage.node? = none
  forked : ∀ f ∈ forks, r.IsForked b (b + n) value error s f
  fresh : forks.Pairwise fun f g => f.2 < g.2

theorem submitted_add (hq : r.place b p n = some q) (m : Nat) :
    r.submitted b p (n + m) = r.submitted b p n ++ r.submitted (b + n) q m := by
  induction m with
  | zero => simp [submitted]
  | succ m ih =>
      rw [← Nat.add_assoc, submitted, ih, List.append_assoc, submitted, r.place_add hq,
        Nat.add_assoc]

theorem Spreads.trans (h : r.Spreads value error s b p finish n forks i)
    (hq : r.place b p n = some q) (h' : r.Spreads value error s (b + n) q finish m forks' j) :
    r.Spreads value error s b p finish (n + m) (forks ++ forks') j where
  there := by
    obtain ⟨q', hq', hat⟩ := h'.there
    exact ⟨q', (r.place_add hq m).trans hq', Nat.add_assoc b n m ▸ hat⟩
  submitted := by rw [submitted_add hq, h.submitted, h'.submitted, List.map_append]
  nodes {k stage} hk hstage := by
    rcases Nat.le_total k n with hkn | hnk
    · exact h.nodes hkn hstage
    · obtain ⟨d, rfl⟩ := Nat.exists_eq_add_of_le hnk
      exact h'.nodes (Nat.le_of_add_le_add_left hk) ((r.stage_add hq d).symm.trans hstage)
  forked f hf := by
    rcases List.mem_append.1 hf with hf | hf
    · exact (h.forked f hf).mono (Nat.le_refl b) (by omega)
    · exact (h'.forked f hf).mono (Nat.le_add_right b n) (by omega)
  fresh := List.pairwise_append.2 ⟨h.fresh, h'.fresh,
    fun f hf g hg => (h.forked f hf).fiber_lt (h'.forked g hg)⟩

/-- An interpretation that is about to go on by itself does so, and submits nothing for that. -/
theorem Fair.exists_goes (hfair : r.Fair)
    (hp : (r.world b).pendingAt p = some (.driving i, finish)) (hstep : i.step = .next j) :
    ∃ n q, r.place b p n = some q ∧ (r.world (b + n)).pendingAt q = some (.driving j, finish) ∧
      r.submitted b p n = [] ∧ ∀ k, k < n → r.stage b p k = some (.driving i) := by
  let goal (n : Nat) : Prop := ∃ q, r.place b p n = some q ∧
    (r.world (b + n)).pendingAt q = some (.driving j, finish) ∧
      r.submitted b p n = [] ∧ ∀ k, k < n → r.stage b p k = some (.driving i)
  let waits (n : Nat) : Prop := r.submitted b p n = [] ∧
    ∀ k, k ≤ n → r.stage b p k = some (.driving i)
  have happroaches : r.Approaches b p finish goal
      fun n _ stage => stage = .driving i ∧ waits n := by
    intro n k q stage hq hat hwaits
    obtain ⟨rfl, hsubmitted, hstages⟩ := hwaits
    obtain ⟨q', hnext, hthen⟩ := next_of_step hat hstep
    have hplace : r.place b p (n + 1) = some q' := by simp [place, hq, hnext]
    have hsubmitted' : r.submitted b p (n + 1) = [] := by
      rw [submitted_succ hq, World.submits?_of_ne_asking hat (by simp), hsubmitted]
      rfl
    rcases hthen with hat' | ⟨rfl, hat', hother⟩
    · exact .inl ⟨q', hplace, hat', hsubmitted', fun k hk => hstages k (Nat.le_of_lt_succ hk)⟩
    · refine .inr ⟨q', _, k, hplace, hat', ⟨rfl, hsubmitted', fun k hk => ?_⟩,
        .inr ⟨rfl, rfl, rfl, hother⟩⟩
      rcases Nat.lt_or_eq_of_le hk with hlt | rfl
      · exact hstages k (Nat.le_of_lt_succ hlt)
      · exact (r.stage_eq_some hp).2 ⟨q', hplace, hat'⟩
  refine happroaches.exists_goal hfair (fun n k q stage hq hat hwaits => ?_)
    (n := 0) (j := 0) rfl hp
    ⟨rfl, rfl, fun k hk => ?_⟩
  · obtain ⟨rfl, -⟩ := hwaits
    trivial
  · obtain rfl := Nat.le_zero.1 hk
    exact (r.stage_eq_some hp).2 ⟨p, rfl, hp⟩

/-- It comes to no async node meanwhile. -/
theorem Fair.spreads_next (hfair : r.Fair)
    (hp : (r.world b).pendingAt p = some (.driving i, finish)) (hstep : i.step = .next j)
    (value error : Ty) (s : SchedulerId) :
    ∃ n, r.Spreads value error s b p finish n [] j := by
  obtain ⟨n, q, hq, hat, hsubmitted, hstages⟩ := hfair.exists_goes hp hstep
  refine ⟨n, ⟨q, hq, hat⟩, hsubmitted, fun {k stage} hk hstage => ?_, by simp, .nil⟩
  rcases Nat.lt_or_eq_of_le hk with hlt | rfl
  · obtain rfl := Option.some.inj ((hstages k hlt).symm.trans hstage)
    rfl
  · obtain rfl := Option.some.inj (((r.stage_eq_some hp).2 ⟨q, hq, hat⟩).symm.trans hstage)
    rfl

section Return

variable {c : Nat} {back : Return H} {below : List (Return H)} {x' : Pending H.Data H.Fn}

/-- A thread that is at work above a return leaves the interpretation that waits there where it is.
-/
theorem place_of_above (habove : ∀ j, b + c < j → j < b + e →
      ∃ thread, (r.world j).threads[t]? = some thread ∧ thread.IsAbove (back :: below))
    (hplace : r.place b p (c + 1) = some (.thread t below.length)) (hcn : c < n) (hne : n ≤ e) :
    r.place b p n = some (.thread t below.length) := by
  induction hcn with
  | refl => exact hplace
  | @step n hcn ih =>
      have hcn : c < n := hcn
      obtain ⟨⟨name, control, stack⟩, ht, above, hstack, hbusy⟩ :=
        habove (b + n) (by omega) (by omega)
      obtain rfl : stack = _ := hstack
      have hother := World.shift_ne_below above ht hbusy (r.action (b + n))
      simp [Run.place, ih (by omega), World.next?_of_other hother]

/-- The interpretation that waits there is at the same stage all the time. -/
theorem pendingAt_of_above (habove : ∃ thread, (r.world n).threads[t]? = some thread ∧
    thread.IsAbove (back :: below)) (hback : back.pending? = some x') :
    (r.world n).pendingAt (.thread t below.length) = some x' := by
  obtain ⟨⟨name, control, stack⟩, ht, above, hstack, -⟩ := habove
  obtain rfl : stack = _ := hstack
  exact hback ▸ World.pendingAt_back ht

end Return

section Submit

variable {c : Nat} {last applied : Kept} {below : List (Return H)}

/-- As long as the thread of an interpretation that forks an effect is at work above it, the
interpretation waits for the reply. -/
theorem Submitting.awaits
    (hp : (r.world b).pendingAt p =
      some (.driving ⟨.node (.forking value error s x), frames⟩, finish))
    (h : r.Submitting b p frames finish value error x s m c t fiber last applied below)
    (habove : ∀ j, b + c < j → j < b + e → ∃ thread, (r.world j).threads[t]? = some thread ∧
      thread.IsAbove (.answering .succeed frames last applied finish :: below)) (hne : n < e) :
    r.AwaitsReply b p (.forking value error s x) frames n := by
  intro j hj
  rcases Nat.lt_or_ge c j with hcj | hjc
  · exact .inr ((r.stage_eq_some hp).2 ⟨.thread t below.length,
      place_of_above habove h.place hcj (by omega),
        pendingAt_of_above (habove (b + j) (by omega) (by omega)) rfl⟩)
  · exact (h.before hjc).2

/-- An interpretation that has forked an effect goes on with the effect that joins the fork once the
submission has come back. -/
theorem Submitting.replies (hfair : r.Fair) {d : Nat}
    (hp : (r.world b).pendingAt p =
      some (.driving ⟨.node (.forking value error s x), frames⟩, finish))
    (h : r.Submitting b p frames finish value error x s m c t fiber last applied below)
    (hreturns : r.Returns (b + c) d t (.after (.give (.joining value error fiber)) ::
      .answering .succeed frames last applied finish :: below)) :
    ∃ e q, c < e ∧ r.AwaitsReply b p (.forking value error s x) frames e ∧
      r.submitted b p (e + 1) = [(s, launched value error x s fiber)] ∧
        r.place b p (e + 1) = some q ∧ (r.world (b + (e + 1))).pendingAt q =
          some (.driving (.settle (.settled (.ok (.joining value error fiber))) frames),
            finish) := by
  obtain ⟨d', -, hback, name, ht⟩ := hreturns.below hfair
  have hlt := hback.lt
  obtain ⟨e, rfl⟩ : ∃ e, d' = b + e := ⟨d' - b, by omega⟩
  have hce : c < e := Nat.lt_of_add_lt_add_left hlt
  obtain ⟨e', hee', haction, hsame⟩ := hfair.exists_turn_at
    (place_of_above hback.above h.place hce (Nat.le_refl e)) ht (List.cons_ne_nil _ _)
  obtain ⟨hplace, -, ht'⟩ := hsame e' hee' (Nat.le_refl e')
  obtain ⟨hplace', hsubmitted, hat⟩ := next_of_reply hplace haction ht' (.inl ⟨_, rfl, rfl⟩)
  have hawaits : r.AwaitsReply b p (.forking value error s x) frames e' := by
    intro j hj
    rcases Nat.lt_or_ge j e with hje | hej
    · exact h.awaits hp hback.above hje j (Nat.le_refl j)
    · obtain ⟨hplace, -, ht⟩ := hsame j hej hj
      exact .inr ((r.stage_eq_some hp).2 ⟨_, hplace, World.pendingAt_top ht⟩)
  obtain ⟨-, hsubmitted', -⟩ := h.forking.awaits hp h.place h.submitted (by omega) hawaits
  exact ⟨e', _, by omega, hawaits, hsubmitted.trans hsubmitted', hplace', hat⟩

/-- An interpretation that comes to the node that forks an effect, on a scheduler that comes back
from its submissions, goes on with the effect that joins the fork. -/
theorem Fair.exists_forked (hfair : r.Fair) (hreturn : r.SubmissionsReturn s)
    (hp : (r.world b).pendingAt p =
      some (.driving ⟨.node (.forking value error s x), frames⟩, finish)) :
    ∃ n fiber, r.Spreads value error s b p finish n [(x, fiber)]
      (.settle (.settled (.ok (.joining value error fiber))) frames) := by
  obtain ⟨m, c, t, fiber, last, applied, below, h⟩ := hfair.exists_submitting hp
  obtain ⟨d, hreturns⟩ := hreturn _ _ _ _ _ _ _ h.submits
  obtain ⟨e, q, hce, hawaits, hsubmitted, hq, hat⟩ := h.replies hfair hp hreturns
  refine ⟨e + 1, fiber, ⟨q, hq, hat⟩, hsubmitted, fun hk hstage => ?_, fun f hf => ?_,
    List.pairwise_singleton _ _⟩
  · rcases Nat.lt_or_eq_of_le hk with hlt | rfl
    · rcases hawaits _ (Nat.le_of_lt_succ hlt) with hnode | hasking
      · obtain rfl := Option.some.inj (hnode.symm.trans hstage)
        rfl
      · obtain rfl := Option.some.inj (hasking.symm.trans hstage)
        rfl
    · obtain rfl := Option.some.inj (((r.stage_eq_some hp).2 ⟨q, hq, hat⟩).symm.trans hstage)
      rfl
  · obtain rfl := List.mem_singleton.1 hf
    have hmc := h.lt
    exact ⟨b + m, b + c, t, Nat.le_add_right b m, by omega, by omega, h.forks.launches,
      h.submits.does⟩

end Submit

/-- A traversal forks the items that are left, and goes on with the list of the effects that join
the forks. -/
theorem Fair.exists_spreads (hfair : r.Fair) (hreturn : r.SubmissionsReturn s)
    {done : List PromiseId} {todo : List (Node H.Data H.Fn)}
    (h : Collecting (.effect value error) (.bind (.sequence value error) :: rest)
      (done.map (.joining value error)) (todo.map (.forking value error s)) k i)
    (hp : (r.world b).pendingAt p = some (.driving i, finish)) :
    ∃ n forks, forks.map Prod.fst = todo ∧ r.Spreads value error s b p finish n forks
      (.settle (.settled (.ok (.list (.effect value error)
        (.ofList ((done ++ forks.map Prod.snd).map (.joining value error))))))
          (.bind (.sequence value error) :: rest)) := by
  induction k using Nat.strongRecOn generalizing b p i done todo with
  | ind k ih =>
      rcases h.step with ⟨j, k', hk, hstep, hnext⟩ | ⟨htodo, hstep⟩ | ⟨x, todo', htodo, rfl, rfl⟩
      · obtain ⟨n, hgoes⟩ := hfair.spreads_next hp hstep value error s
        obtain ⟨q, hq, hat⟩ := hgoes.there
        obtain ⟨m, forks, hitems, hspreads⟩ := ih k' hk hnext hat
        exact ⟨n + m, forks, hitems, hgoes.trans hq hspreads⟩
      · obtain rfl := List.map_eq_nil_iff.1 htodo
        obtain ⟨n, hgoes⟩ := hfair.spreads_next hp hstep value error s
        exact ⟨n, [], rfl, by simpa using hgoes⟩
      · obtain ⟨x, todo, rfl, rfl, rfl⟩ := List.map_eq_cons_iff.1 htodo
        obtain ⟨n, fiber, hfork⟩ := hfair.exists_forked hreturn hp
        obtain ⟨q, hq, hat⟩ := hfork.there
        have hnext := @Collecting.adding H.Data H.Fn (.effect value error)
          (.bind (.sequence value error) :: rest) (done.map (.joining value error))
          (.joining value error fiber) (todo.map (.forking value error s)) rfl
        rw [show done.map (.joining value error) ++ [.joining value error fiber] =
          (done ++ [fiber]).map (Value.joining value error) by simp] at hnext
        obtain ⟨m, forks, rfl, hspreads⟩ := ih _ (Nat.lt_succ_self _) hnext hat
        refine ⟨n + m, (x, fiber) :: forks, rfl, ?_⟩
        rw [List.append_assoc] at hspreads
        exact hfork.trans hq hspreads

/-- A concurrent traversal forks all its items before it comes to any async node. -/
theorem Fair.exists_spreads_of_concurrent (hfair : r.Fair) (hreturn : r.SubmissionsReturn s)
    {xs : List (Node H.Data H.Fn)}
    (hp : (r.world b).pendingAt p =
      some (.driving ⟨.node (.concurrent value error s xs), rest⟩, finish)) :
    ∃ n forks, forks.map Prod.fst = xs ∧ r.Spreads value error s b p finish n forks
      (.settle (.settled (.ok (.list (.effect value error)
        (.ofList ((forks.map Prod.snd).map (.joining value error))))))
          (.bind (.sequence value error) :: rest)) := by
  obtain ⟨n, hgoes⟩ := hfair.spreads_next hp rfl value error s
  obtain ⟨q, hq, hat⟩ := hgoes.there
  have hopening : Collecting (.effect value error) (.bind (.sequence value error) :: rest)
      (([] : List PromiseId).map (.joining value error)) (xs.map (.forking value error s)) _ _ :=
    Collecting.start ..
  obtain ⟨m, forks, hitems, hspreads⟩ := hfair.exists_spreads hreturn hopening hat
  exact ⟨n + m, forks, hitems, hgoes.trans hq hspreads⟩

end Run

end Trampoline
