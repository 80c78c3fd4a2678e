import Trampoline.Effect.Combinators
import Trampoline.Proofs.Drill
import Trampoline.Proofs.Shown

/-!
Laws of sequencing. Effects that are put together in different ways do the same, above whatever
stack, in whatever setting and from whatever state on: they make the same calls in the same order,
and come to the same exit, stop at the same node or never end.
-/

namespace Trampoline

variable {D F U σ : Type} {a b c d e : Ty}

/-- The values of an outcome have these tags. -/
def Outcome.HasTags (value error : Ty) : Outcome D F → Prop
  | .ok v => v.ty = value
  | .error v => v.ty = error

namespace Setting

open Interpretation

section Functions

variable (S : Setting D F U σ)

/-- Given a value of a type, a function builds an effect. -/
def Builds (f : Owned F) (a b e : Ty) : Prop :=
  ∀ s v, v.ty = a →
    ∃ (y : Effect D F b e) (s' : σ), S.reply s (.call f [v]) = some (.ok y.toValue, s')

/-- Given a value of a type, a function does nothing but to build an effect. -/
def Makes (f : Owned F) (a : Ty) (make : Value D F → Effect D F b e) : Prop :=
  ∀ s v, v.ty = a → S.calls s (.call f [v]) = [] ∧
    S.reply s (.call f [v]) = some (.ok (make v).toValue, s)

/-- Given a value of a type, `h` builds the effect that is made of the one that `f` builds. -/
def Wraps (h f : Owned F) (a : Ty) (wrap : Effect D F b e → Effect D F c d) : Prop :=
  ∀ s v, v.ty = a → S.calls s (.call h [v]) = S.calls s (.call f [v]) ∧
    ∀ y s', S.reply s (.call f [v]) = some (.ok y.toValue, s') →
      S.reply s (.call h [v]) = some (.ok (wrap y).toValue, s')

/-- Given a value of a type, `k` does what `h` does and builds an effect of the reply. -/
def Lifts (k h : Owned F) (a : Ty) (make : Value D F → Effect D F b e) : Prop :=
  ∀ s v, v.ty = a → S.calls s (.call k [v]) = S.calls s (.call h [v]) ∧
    S.reply s (.call k [v]) =
      (S.reply s (.call h [v])).map fun (r, s') => (r.map fun w => (make w).toValue, s')

/-- An effect settles, if it does, with values of its own types. -/
def Types (s : σ) (x : Effect D F a e) : Prop :=
  ∀ us o s', S.Settles s x.node us o s' → Outcome.HasTags a e o

end Functions

variable {S : Setting D F U σ} {s s' : σ} {frames : List (Frame D F)}

theorem leads_source (s : σ) (x : Node D F) (bind : Bind D F) (frames : List (Frame D F)) :
    S.Leads s ⟨.node (.flatMap x bind), frames⟩ [] s ⟨.node x, .bind bind :: frames⟩ :=
  .of_next rfl .refl

theorem leads_attempted (s : σ) (x : Node D F) (reify : Reify) (frames : List (Frame D F)) :
    S.Leads s ⟨.node (.attempt x reify), frames⟩ [] s ⟨.node x, .reify reify :: frames⟩ :=
  .of_next rfl .refl

theorem leads_answer {frame : Frame D F} {o : Outcome D F} {next : Next D F}
    (h : frame.plan o = .answer next) (frames : List (Frame D F)) :
    S.Leads s (settle (.settled o) (frame :: frames)) [] s (continueWith frames next) := by
  refine .of_next ?_ .refl
  rw [step_settled_cons, h]
  rfl

theorem leads_ask {frame : Frame D F} {o : Outcome D F} {question : Ask D F} {post : Post D F}
    {r : Except Payload (Value D F)} (h : frame.plan o = .ask question post)
    (hreply : S.reply s question = some (r, s')) (frames : List (Frame D F)) :
    S.Leads s (settle (.settled o) (frame :: frames)) (S.calls s question) s'
      (.reply post frames r) := by
  refine .of_moves (.ask ?_ hreply)
  rw [step_settled_cons, h]
  rfl

theorem leads_raise {frame : Frame D F} {o : Outcome D F} {payload : Payload}
    (h : frame.plan o = .raise payload) (frames : List (Frame D F)) :
    S.Leads s (settle (.settled o) (frame :: frames)) [] s (settle (.panicked payload) frames) := by
  refine .of_next ?_ .refl
  rw [step_settled_cons, h]
  rfl

/-- What is pending makes no difference after a panic. -/
theorem Alike.of_panicked (s s' : σ) (payload : Payload) (frames frames' : List (Frame D F)) :
    S.Alike s (settle (.panicked payload) frames) s' (settle (.panicked payload) frames') := by
  refine .of_seen fun n => ?_
  cases n <;> rfl

/-- Interpretations that run a node above different continuations are alike if the continuations
make no difference once the node has settled. -/
theorem Alike.of_source {x : Node D F} {above above' : List (Frame D F)} {i j : Interpretation D F}
    (hi : S.Leads s i [] s ⟨.node x, above⟩) (hj : S.Leads s j [] s ⟨.node x, above'⟩)
    (h : ∀ us o s', S.Settles s x us o s' →
      S.Alike s' (settle (.settled o) above) s' (settle (.settled o) above')) : S.Alike s i s j :=
  .of_leads hi hj (.of_settled h)

theorem leads_succeed (s : σ) (v : Value D F) (frames : List (Frame D F)) :
    S.Leads s ⟨.node (.thunk (.succeed v)), frames⟩ [] s (settle (.settled (.ok v)) frames) :=
  .of_next rfl .refl

theorem leads_fail (s : σ) (v : Value D F) (frames : List (Frame D F)) :
    S.Leads s ⟨.node (.thunk (.fail v)), frames⟩ [] s (settle (.settled (.error v)) frames) :=
  .of_next rfl .refl

section FlatMap

variable {f g h u : Owned F} {v : Value D F}

theorem plan_flatMap (f : Owned F) (hv : v.ty = a) :
    (Frame.bind (.flatMap a f)).plan (.ok v) = .ask (.call f [v]) .run := by
  simp [Frame.plan, Bind.plan, Value.expect, hv]

theorem plan_flatMap_mismatch (f : Owned F) (hv : v.ty ≠ a) :
    (Frame.bind (.flatMap a f)).plan (.ok v) = .raise mismatch := by
  simp [Frame.plan, Bind.plan, Value.expect, hv]

theorem succeed_flatMap {y : Effect D F b e} (hv : v.ty = a)
    (hf : S.reply s (.call f [v]) = some (.ok y.toValue, s')) (frames : List (Frame D F)) :
    S.Leads s ⟨.node ((Effect.succeed v : Effect D F a e).flatMap f : Effect D F b e).node, frames⟩
      (S.calls s (.call f [v])) s' ⟨.node y.node, frames⟩ :=
  (leads_source s _ _ frames).trans
    ((leads_succeed s v _).trans (leads_ask (plan_flatMap f hv) hf frames))

theorem flatMap_succeed (hu : S.Makes u a fun v => (Effect.succeed v : Effect D F a e))
    {x : Effect D F a e} (hx : S.Types s x) (frames : List (Frame D F)) :
    S.Alike s ⟨.node (x.flatMap u : Effect D F a e).node, frames⟩ s ⟨.node x.node, frames⟩ := by
  refine .of_source (x := x.node) (leads_source s _ _ frames) .refl fun us o s' hsettles => ?_
  cases o with
  | error v => exact .of_leads (leads_answer rfl frames) .refl (.refl _ _)
  | ok v =>
      have hv : v.ty = a := hx _ _ _ hsettles
      obtain ⟨hcalls, hreply⟩ := hu s' v hv
      have hleads := (leads_ask (plan_flatMap u hv) hreply frames).trans
        (leads_succeed s' v frames)
      rw [hcalls] at hleads
      exact .of_leads hleads .refl (.refl _ _)

theorem flatMap_assoc (hf : S.Builds f a b e)
    (hh : S.Wraps h f a fun y : Effect D F b e => (y.flatMap g : Effect D F c e))
    (x : Effect D F a e) (frames : List (Frame D F)) :
    S.Alike s ⟨.node ((x.flatMap f : Effect D F b e).flatMap g : Effect D F c e).node, frames⟩ s
      ⟨.node (x.flatMap h : Effect D F c e).node, frames⟩ := by
  refine .of_source (x := x.node) ((leads_source s _ _ frames).trans (leads_source s _ _ _))
    (leads_source s _ _ frames) fun us o s' _ => ?_
  cases o with
  | error v =>
      exact .of_leads ((leads_answer rfl _).trans (leads_answer rfl frames))
        (leads_answer rfl frames) (.refl _ _)
  | ok v =>
      by_cases hv : v.ty = a
      · obtain ⟨y, s₁, hreply⟩ := hf s' v hv
        obtain ⟨hcalls, hwraps⟩ := hh s' v hv
        have hleft := leads_ask (plan_flatMap f hv) hreply (.bind (.flatMap b g) :: frames)
        have hright := (leads_ask (plan_flatMap h hv) (hwraps y s₁ hreply) frames).trans
          (leads_source s₁ y.node (.flatMap b g) frames)
        rw [hcalls, List.append_nil] at hright
        exact .of_leads hleft hright (.refl _ _)
      · exact .of_leads (leads_raise (plan_flatMap_mismatch f hv) _)
          (leads_raise (plan_flatMap_mismatch h hv) frames) (.of_panicked _ _ _ _ _)

end FlatMap

end Setting

namespace Effect

variable {H : Host} {S : Setting H.Data H.Fn U σ} {f g h u : Owned H.Fn}

/-- The laws of a monad. The function `u` builds the effect that succeeds with its argument, and `h`
builds the effect that `f` builds, followed by `g`. -/
theorem monad_laws (x : Effect H.Data H.Fn a e) (hx : ∀ s, S.Types s x)
    (hu : S.Makes u a fun v => (succeed v : Effect H.Data H.Fn a e)) (hf : S.Builds f a b e)
    (hh : S.Wraps h f a fun y : Effect H.Data H.Fn b e => (y.flatMap g : Effect H.Data H.Fn c e)) :
    (∀ s v, v.ty = a → ∃ (y : Effect H.Data H.Fn b e) (s' : σ),
      S.reply s (.call f [v]) = some (.ok y.toValue, s') ∧
        S.Equates s ((succeed v : Effect H.Data H.Fn a e).flatMap f : Effect _ _ b e).node
          (S.calls s (.call f [v])) s' y.node) ∧
      (∀ s, S.Equates s (x.flatMap u : Effect H.Data H.Fn a e).node [] s x.node) ∧
        ∀ s, S.Equates s ((x.flatMap f : Effect _ _ b e).flatMap g : Effect H.Data H.Fn c e).node []
          s (x.flatMap h : Effect H.Data H.Fn c e).node := by
  refine ⟨fun s v hv => ?_, fun s => ?_, fun s => ?_⟩
  · obtain ⟨y, s', hreply⟩ := hf s v hv
    exact ⟨y, s', hreply, .of_leads (Setting.succeed_flatMap hv hreply)⟩
  · exact .of_alike (Setting.flatMap_succeed hu (hx s))
  · exact .of_alike (Setting.flatMap_assoc hf hh x)

end Effect

namespace Drill

/-- An effect that waits at an async node for what a function, its registration, leads to. -/
def pause : Effect Unit Nat .unit .unit := .asyncOn immediateId ⟨2, ∅⟩

/-- An effect that calls a function. -/
def errand : Effect Unit Nat .unit .unit := .delay ⟨6, ∅⟩

/-- The functions 3, 4, 5 and 7 build effects, and 6 is called by the effect that 3 builds. -/
def sequel : Nat → Value Unit Nat
  | 3 => errand.toValue
  | 4 => (Effect.fail .unit : Effect Unit Nat .unit .unit).toValue
  | 5 => (errand.flatMap ⟨4, ∅⟩ : Effect Unit Nat .unit .unit).toValue
  | 7 => (Effect.succeed .unit : Effect Unit Nat .unit .unit).toValue
  | _ => .unit

/-- Function 5 makes the call of function 3. -/
def sequelCalls : Nat → List Nat
  | 5 => [3]
  | 7 => []
  | f => [f]

/-- Two ways to put an effect and two functions together. -/
def inTurn : Effect Unit Nat .unit .unit :=
  (pause.flatMap ⟨3, ∅⟩ : Effect Unit Nat .unit .unit).flatMap ⟨4, ∅⟩

def atOnce : Effect Unit Nat .unit .unit := pause.flatMap ⟨5, ∅⟩

/-- The second thread completes the node of the first one, whose registration does not. Its own node
is completed by its registration. -/
def sequencing : Script
  | 0 => [.ask (.runBlocking .unit .unit inTurn.node)]
  | 1 => [.ask (.complete (.node 0) (.ok .unit)), .ask (.runBlocking .unit .unit atOnce.node)]
  | 2 => [.ask (.complete (.node 1) (.ok .unit))]
  | f => [.ret (sequel f)]

def sequenced : Run (host sequencing) :=
  run sequencing [] (List.replicate 24 0 ++ List.replicate 73 1 ++ List.replicate 3 0)

/-- What the functions reply and which calls this takes. Every node gets an exit. -/
def setting (calls : Nat → List Nat) (reply : Nat → List (Value Unit Nat) → Value Unit Nat) :
    Setting Unit Nat Nat Unit where
  reply _ question :=
    match question with
    | .call f args => some (.ok (reply f.val args), ())
    | _ => none
  calls _ question :=
    match question with
    | .call f _ => calls f.val
    | _ => []
  exit _ _ _ := some (.settled (.ok .unit), ())
  registers _ r _ :=
    match r with
    | .user _ _ f => calls f.val
    | _ => []

/-- The setting in which two effects are put together. -/
def sequelSetting : Setting Unit Nat Nat Unit :=
  setting sequelCalls fun f _ => sequel f

/-- The interpretations of the two threads. -/
theorem pendingAt_inTurn : (sequenced.world 2).pendingAt (.thread 0 2) =
    some (.driving (.start inTurn.node), .channel .unit .unit 0) := by rfl

set_option maxRecDepth 4000 in
theorem pendingAt_atOnce : (sequenced.world 53).pendingAt (.thread 1 2) =
    some (.driving (.start atOnce.node), .channel .unit .unit 1) := by rfl

set_option maxRecDepth 4000 in
theorem sequenced_fair : sequenced.Fair := Run.fair_ofList (by decide)

/-- What is done from the call of function 6 on. -/
def ending : List (Deed Unit Nat) :=
  [.call (.thunk (.delay ⟨6, ∅⟩)), .ask (.call ⟨6, ∅⟩ []), .reply (.ok .unit),
    .pop (.bind (.flatMap .unit ⟨4, ∅⟩)), .call (.bind (.flatMap .unit ⟨4, ∅⟩) .unit),
    .ask (.call ⟨4, ∅⟩ [.unit]), .reply (.ok (sequel 4)), .call (.thunk (.fail .unit)),
    .finish (.settled (.error .unit))]

theorem history_inTurn : sequenced.history 2 (.thread 0 2) 45 =
    [.push (.bind (.flatMap .unit ⟨4, ∅⟩)), .push (.bind (.flatMap .unit ⟨3, ∅⟩)),
      .submit (.user .unit .unit ⟨2, ∅⟩) immediateId, .call (.register (.user .unit .unit ⟨2, ∅⟩)),
      .exit (.settled (.ok .unit)), .pop (.bind (.flatMap .unit ⟨3, ∅⟩)),
      .call (.bind (.flatMap .unit ⟨3, ∅⟩) .unit), .ask (.call ⟨3, ∅⟩ [.unit]),
      .reply (.ok (sequel 3))] ++ ending := by rfl

set_option maxRecDepth 4000 in
theorem history_atOnce : sequenced.history 53 (.thread 1 2) 39 =
    [.push (.bind (.flatMap .unit ⟨5, ∅⟩)), .submit (.user .unit .unit ⟨2, ∅⟩) immediateId,
      .call (.register (.user .unit .unit ⟨2, ∅⟩)), .exit (.settled (.ok .unit)),
      .pop (.bind (.flatMap .unit ⟨5, ∅⟩)), .call (.bind (.flatMap .unit ⟨5, ∅⟩) .unit),
      .ask (.call ⟨5, ∅⟩ [.unit]), .reply (.ok (sequel 5)),
      .push (.bind (.flatMap .unit ⟨4, ∅⟩))] ++ ending := by rfl

/-- Whether what an interpretation waits for comes by one of these times, and no submission
panics. -/
def goesOn {script : Script} (r : Run (host script)) (b : Nat) (p : Place) (times : List Nat)
    (n : Nat) : Bool :=
  match r.stage b p n, r.place b p n with
  | some (.asking _ _), some (.thread t l) =>
      times.any fun m =>
        n ≤ m && decide ((r.world (b + m)).Replies t l ∨ (r.world (b + m)).Panics t l)
  | some (.submitting _ _), some (.thread t l) =>
      !decide ((r.world (b + n)).Panics t l) &&
        times.any fun m => n ≤ m && decide ((r.world (b + m)).Replies t l)
  | _, _ => true

theorem goesOn_of_check {script : Script} {r : Run (host script)} {b : Nat} {p : Place}
    {times : List Nat} {n : Nat} {stage : Stage Unit Nat} (h : goesOn r b p times n)
    (hs : r.stage b p n = some stage)
    (hparked : ∀ id frames, stage = .parked id frames → ∃ m t exit, r.Accepts m t id exit) :
    r.GoesOn b p n stage := by
  cases stage with
  | asking post frames =>
      intro t l hq
      simp only [goesOn, hs, hq, List.any_eq_true, Bool.and_eq_true, decide_eq_true_eq] at h
      obtain ⟨m, -, hm, hback⟩ := h
      exact ⟨m, hm, hback⟩
  | submitting id frames =>
      intro t l hq
      simp only [goesOn, hs, hq, List.any_eq_true, Bool.and_eq_true, decide_eq_true_eq] at h
      obtain ⟨-, m, -, hm, hreplies⟩ := h
      exact ⟨m, hm, .inl hreplies⟩
  | parked id frames => exact hparked id frames rfl
  | _ => trivial

theorem not_panics_of_check {script : Script} {r : Run (host script)} {b : Nat} {p : Place}
    {times : List Nat} {n : Nat} {id : HandoffId} {frames : List (Frame Unit Nat)} {t : ThreadId}
    {l : Nat} (h : goesOn r b p times n) (hq : r.place b p n = some (.thread t l))
    (hs : r.stage b p n = some (.submitting id frames)) : ¬(r.world (b + n)).Panics t l := by
  simp only [goesOn, hs, hq, Bool.and_eq_true, Bool.not_eq_true', decide_eq_false_iff_not] at h
  exact h.1

/-- An interpretation that ends and is never parked suits a setting if all that it does is what the
setting has. -/
theorem suits_of_check {script : Script} {r : Run (host script)} {S : Setting Unit Nat Nat Unit}
    {b n : Nat} {p : Place} {times : List Nat} {x : Pending Unit Nat}
    (hp : (r.world b).pendingAt p = some x) (hfair : r.Fair) (hover : r.stage b p n = none)
    (hpermits : S.PermitsAll ⟨(), .nothing⟩ (r.history b p n))
    (hafter : (S.afterAll ⟨(), .nothing⟩ (r.history b p n)).waiting = .nothing)
    (hcheck : ∀ m < n, goesOn r b p times m)
    (hnever : ∀ m < n, (r.stage b p m).all Stage.isUnparked) :
    r.Suits S () b p := by
  refine .of_over hp hfair hover hpermits hafter (fun m hm stage hs => ?_)
    fun m hm t l id frames hq hs => not_panics_of_check (hcheck m hm) hq hs
  refine goesOn_of_check (hcheck m hm) hs fun id frames heq => ?_
  subst heq
  have hparked := hnever m hm
  rw [hs] at hparked
  exact absurd hparked Bool.false_ne_true

set_option maxRecDepth 10000 in
theorem suits_inTurn : sequenced.Suits sequelSetting () 2 (.thread 0 2) := by
  have hcheck : ∀ n < 45, goesOn sequenced 2 (.thread 0 2) [19, 31, 36, 41] n := by decide
  have hnode : ∀ n < 45, ((sequenced.stage 2 (.thread 0 2) n).bind Stage.node?).all (· = 0) := by
    decide
  refine .of_over pendingAt_inTurn sequenced_fair (n := 45) rfl ?_ ?_ (fun n hn stage hs => ?_)
    fun n hn t l id frames hq hs => not_panics_of_check (hcheck n hn) hq hs
  · rw [history_inTurn]
    exact ⟨trivial, trivial, trivial, rfl, ⟨_, rfl⟩, trivial, trivial, trivial, ⟨_, rfl⟩, trivial,
      trivial, ⟨_, rfl⟩, trivial, trivial, trivial, ⟨_, rfl⟩, trivial, trivial, trivial⟩
  · rw [history_inTurn]
    rfl
  · refine goesOn_of_check (hcheck n hn) hs fun id frames heq => ?_
    subst heq
    have hzero := hnode n hn
    rw [hs] at hzero
    obtain rfl : id = 0 := of_decide_eq_true hzero
    exact ⟨27, 1, .settled (.ok .unit), .completion, _, ⟨rfl, _, _, rfl⟩, rfl, trivial⟩

set_option maxRecDepth 10000 in
theorem suits_atOnce : sequenced.Suits sequelSetting () 53 (.thread 1 2) := by
  have hcheck : ∀ n < 39, goesOn sequenced 53 (.thread 1 2) [18, 24, 30, 35] n := by decide
  refine suits_of_check pendingAt_atOnce sequenced_fair rfl ?_ ?_ hcheck (by decide)
  · rw [history_atOnce]
    exact ⟨trivial, trivial, rfl, ⟨_, rfl⟩, trivial, trivial, trivial, ⟨_, rfl⟩, trivial, trivial,
      trivial, ⟨_, rfl⟩, trivial, trivial, trivial, ⟨_, rfl⟩, trivial, trivial, trivial⟩
  · rw [history_atOnce]
    rfl

theorem eq_unit {v : Value Unit Nat} (h : v.ty = .unit) : v = .unit := by
  cases v <;> simp [Value.ty] at h ⊢

theorem settles_pause (calls : Nat → List Nat)
    (reply : Nat → List (Value Unit Nat) → Value Unit Nat) (s : Unit) :
    (setting calls reply).Settles s pause.node (calls 2) (.ok .unit) () := by
  intro frames
  refine .of_moves ?_
  change (setting calls reply).Moves _ _
    ((setting calls reply).registers s (.user .unit .unit ⟨2, ∅⟩) immediateId) _ _
  exact .suspend rfl rfl

theorem types_pause (calls : Nat → List Nat)
    (reply : Nat → List (Value Unit Nat) → Value Unit Nat) (s : Unit) :
    (setting calls reply).Types s pause := by
  intro us o s' hsettles
  obtain ⟨-, rfl, -⟩ := hsettles.unique (settles_pause calls reply s)
  rfl

set_option maxRecDepth 4000 in
/-- The first thread does with its two functions in turn what the second one does with the function
that puts them together. The first one is parked at its node and the second one is not. -/
theorem sequenced_monad_laws :
    (sequenced.stage 2 (.thread 0 2) 21).bind Stage.node? = some 0 ∧
      (∀ n < 39, (sequenced.stage 53 (.thread 1 2) n).all fun
        | .parked _ _ => false
        | _ => true) ∧
      Sight.Agree (sequenced.shown sequelSetting () 2 (.thread 0 2))
        (sequenced.shown sequelSetting () 53 (.thread 1 2)) ∧
      Setting.Equates (H := host sequencing) sequelSetting ()
        (pause.flatMap ⟨7, ∅⟩ : Effect Unit Nat .unit .unit).node [] () pause.node ∧
      ∃ y : Effect Unit Nat .unit .unit,
        Setting.Equates (H := host sequencing) sequelSetting ()
          ((Effect.succeed .unit : Effect Unit Nat .unit .unit).flatMap ⟨3, ∅⟩ :
            Effect Unit Nat .unit .unit).node [3] () y.node := by
  have hmakes : sequelSetting.Makes ⟨7, ∅⟩ .unit
      fun v => (Effect.succeed v : Effect Unit Nat .unit .unit) := fun s v hv => by
    rw [eq_unit hv]
    exact ⟨rfl, rfl⟩
  have hbuilds : sequelSetting.Builds ⟨3, ∅⟩ .unit .unit .unit :=
    fun s v _ => ⟨errand, (), rfl⟩
  have hwraps : sequelSetting.Wraps ⟨5, ∅⟩ ⟨3, ∅⟩ .unit
      fun y : Effect Unit Nat .unit .unit => (y.flatMap ⟨4, ∅⟩ : Effect Unit Nat .unit .unit) :=
    fun s v _ => ⟨rfl, fun ⟨node⟩ s' hy => by cases hy; rfl⟩
  obtain ⟨hleft, hright, hassoc⟩ := Effect.monad_laws (H := host sequencing) (S := sequelSetting)
    pause (types_pause _ _) hmakes hbuilds hwraps
  obtain ⟨y, s', -, hy⟩ := hleft () .unit rfl
  exact ⟨rfl, by decide,
    (hassoc ()).shown pendingAt_inTurn pendingAt_atOnce suits_inTurn suits_atOnce, hright (), y, hy⟩

end Drill

end Trampoline
