import Trampoline.Effect.Concurrent
import Trampoline.Effect.Retry
import Trampoline.Machine.Host

/-!
The types of values, nodes and continuations. What is untyped in an interpretation has been built at
types: a node at those of its value and its error, a continuation at those of the value that it
takes and of the one that it gives. A reference to a shared object has the types at which the object
has been made, and a function of the host program has those that the program declares.
-/

namespace Trampoline

/-- The types at which shared objects have been made, in the order of their numbers. -/
@[ext] structure Types where
  handoffs : List (Ty × Ty)
  promises : List Ty
  channels : List (Ty × Ty)
  futures : List (Ty × Ty)

namespace Types

/-- More objects have been made; those that there were have the types that they had. -/
structure Extends (L L' : Types) : Prop where
  handoffs : L.handoffs <+: L'.handoffs
  promises : L.promises <+: L'.promises
  channels : L.channels <+: L'.channels
  futures : L.futures <+: L'.futures

variable {L L' L'' : Types}

theorem Extends.refl (L : Types) : L.Extends L :=
  ⟨List.prefix_rfl, List.prefix_rfl, List.prefix_rfl, List.prefix_rfl⟩

theorem Extends.trans (h : L.Extends L') (h' : L'.Extends L'') : L.Extends L'' :=
  ⟨h.handoffs.trans h'.handoffs, h.promises.trans h'.promises, h.channels.trans h'.channels,
    h.futures.trans h'.futures⟩

theorem getElem?_of_extends {α : Type} {l l' : List α} (h : l <+: l') {i : Nat} {x : α}
    (hi : l[i]? = some x) : l'[i]? = some x := by
  obtain ⟨more, rfl⟩ := h
  rw [List.getElem?_append_left (List.getElem?_eq_some_iff.1 hi).1]
  exact hi

variable {a e : Ty} {id : Nat}

theorem Extends.handoff (h : L.Extends L') (hid : L.handoffs[id]? = some (a, e)) :
    L'.handoffs[id]? = some (a, e) := getElem?_of_extends h.handoffs hid

theorem Extends.promise (h : L.Extends L') (hid : L.promises[id]? = some a) :
    L'.promises[id]? = some a := getElem?_of_extends h.promises hid

theorem Extends.channel (h : L.Extends L') (hid : L.channels[id]? = some (a, e)) :
    L'.channels[id]? = some (a, e) := getElem?_of_extends h.channels hid

theorem Extends.future (h : L.Extends L') (hid : L.futures[id]? = some (a, e)) :
    L'.futures[id]? = some (a, e) := getElem?_of_extends h.futures hid

end Types

/-- What a program declares about its own data and functions: which data there are of each of its
types, which arguments a function takes and what it replies, and which panics there are. -/
structure Signature (D F : Type) where
  data : Types → Nat → D → Prop
  function : Types → F → List Ty → Ty → Prop
  panics : Payload → Prop
  data_extends {L L' : Types} {index : Nat} {d : D} :
    L.Extends L' → data L index d → data L' index d
  function_extends {L L' : Types} {f : F} {args : List Ty} {reply : Ty} :
    L.Extends L' → function L f args reply → function L' f args reply
  /-- Of a panic that has been recorded there is the text. -/
  panics_text {payload : Payload} : panics payload → panics (.text payload.message)

variable {D F : Type} (T : Signature D F) (L : Types)

/-- A callback that takes outcomes of these types. -/
inductive Callback.HasTypes : Callback F → Ty → Ty → Prop where
  | node {a e : Ty} {id : HandoffId} : L.handoffs[id]? = some (a, e) → HasTypes (.node id) a e
  | user {a e reply : Ty} {f : Owned F} :
      T.function L f.val [.result a e] reply → HasTypes (.user a e f) a e

/-- A place for the exit of an interpretation at these types. -/
inductive Finish.HasTypes : Finish F → Ty → Ty → Prop where
  | callback {a e : Ty} {target : Callback F} :
      target.HasTypes T L a e → HasTypes (.callback a e target) a e
  | channel {a e : Ty} {id : ChannelId} :
      L.channels[id]? = some (a, e) → HasTypes (.channel a e id) a e
  | fiber {a e : Ty} {id : PromiseId} {s : SchedulerId} :
      L.promises[id]? = some (.slot a e) → HasTypes (.fiber a e id s) a e

/-- The registration of a node at these types. -/
inductive Register.HasTypes : Register F → Ty → Ty → Prop where
  | user {a e reply : Ty} {f : Owned F} :
      T.function L f.val [.callback a e] reply → HasTypes (.user a e f) a e
  | join {a e d : Ty} {fiber : PromiseId} :
      L.promises[fiber]? = some (.slot a e) → HasTypes (.join a e fiber) (.slot a e) d
  | sleep {e : Ty} {nanoseconds : Nat} : HasTypes (.sleep nanoseconds) .unit e
  | never {a e : Ty} : HasTypes .never a e

/-- Combines values of two types to one of a third type. -/
inductive Combine.HasTypes : Combine F → Ty → Ty → Ty → Prop where
  | user {a b c : Ty} {f : Owned F} : T.function L f.val [a, b] c → HasTypes (.user f) a b c
  | pair {a b : Ty} : HasTypes .pair a b (.pair a b)
  | first {a b : Ty} : HasTypes .first a b a
  | joins {a b c e : Ty} {inner : Combine F} : HasTypes inner a b c →
      HasTypes (.joins a b c e inner) (.effect a e) (.effect b e) (.effect c e)

mutual

/-- A value of a type, all parts of which are of their types. -/
inductive Value.HasType : Value D F → Ty → Prop where
  | data {index : Nat} {d : Owned D} : T.data L index d.val →
      Value.HasType (.data index d) (.base index)
  | unit : Value.HasType .unit .unit
  | text {s : String} : Value.HasType (.text s) .text
  | instant {nanoseconds : Nat} : Value.HasType (.instant nanoseconds) .instant
  | list {item : Ty} {items : Items D F} :
      items.HaveType item → Value.HasType (.list item items) (.list item)
  | pair {a b : Ty} {first second : Value D F} :
      first.HasType a → second.HasType b → Value.HasType (.pair first second) (.pair a b)
  | absent {item : Ty} : Value.HasType (.absent item) (.option item)
  | present {item : Ty} {v : Value D F} :
      v.HasType item → Value.HasType (.present item v) (.option item)
  | ok {a e : Ty} {v : Value D F} : v.HasType a → Value.HasType (.ok a e v) (.result a e)
  | err {a e : Ty} {v : Value D F} : v.HasType e → Value.HasType (.err a e v) (.result a e)
  | slot {a e : Ty} {s : Slot D F} : s.HasTypes a e → Value.HasType (.slot a e s) (.slot a e)
  | effect {a e : Ty} {node : Node D F} :
      node.HasTypes a e → Value.HasType (.effect a e node) (.effect a e)
  | callback {a e : Ty} {target : Callback F} :
      target.HasTypes T L a e → Value.HasType (.callback a e target) (.callback a e)
  | promise {a : Ty} {id : PromiseId} :
      L.promises[id]? = some a → Value.HasType (.promise a id) (.promise a)
  | fiber {a e : Ty} {id : PromiseId} :
      L.promises[id]? = some (.slot a e) → Value.HasType (.fiber a e id) (.fiber a e)
  | future {a e : Ty} {id : FutureId} :
      L.futures[id]? = some (a, e) → Value.HasType (.future a e id) (.future a e)
  | work {w : Work D F} : w.IsTyped → Value.HasType (.work w) .work
  | failure {report : WorkFailure} : Value.HasType (.failure report) .failure
  | thread {id : ThreadId} : Value.HasType (.thread id) .thread

inductive Items.HaveType : Items D F → Ty → Prop where
  | empty {item : Ty} : Items.HaveType .empty item
  | snoc {item : Ty} {init : Items D F} {last : Value D F} :
      init.HaveType item → last.HasType item → Items.HaveType (.snoc init last) item

inductive Slot.HasTypes : Slot D F → Ty → Ty → Prop where
  | ok {a e : Ty} {v : Value D F} : v.HasType a → Slot.HasTypes (.ok v) a e
  | err {a e : Ty} {v : Value D F} : v.HasType e → Slot.HasTypes (.err v) a e
  | panicked {a e : Ty} {report : WorkFailure} :
      T.panics (.text report.message) → Slot.HasTypes (.panicked report) a e

/-- A node that settles with a value of the first type or an error of the second type. -/
inductive Node.HasTypes : Node D F → Ty → Ty → Prop where
  | thunk {a e : Ty} {t : Thunk D F} : t.HasTypes a e → Node.HasTypes (.thunk t) a e
  | async {a e : Ty} {register : Register F} {s : SchedulerId} :
      register.HasTypes T L a e → Node.HasTypes (.async register s) a e
  | flatMap {a b e : Ty} {source : Node D F} {bind : Bind D F} :
      source.HasTypes a e → bind.HasTypes a b e → Node.HasTypes (.flatMap source bind) b e
  | attempt {a e d : Ty} {source : Node D F} :
      source.HasTypes a e → Node.HasTypes (.attempt source ⟨a, e⟩) (.result a e) d

inductive Thunk.HasTypes : Thunk D F → Ty → Ty → Prop where
  | succeed {a e : Ty} {v : Value D F} : v.HasType a → Thunk.HasTypes (.succeed v) a e
  | fail {a e : Ty} {v : Value D F} : v.HasType e → Thunk.HasTypes (.fail v) a e
  | result {a e : Ty} {f : Owned F} :
      T.function L f.val [] (.result a e) → Thunk.HasTypes (.result f) a e
  | delay {a e : Ty} {f : Owned F} : T.function L f.val [] a → Thunk.HasTypes (.delay f) a e
  | fork {a d e : Ty} {source : Node D F} {s : SchedulerId} :
      source.HasTypes a d → Thunk.HasTypes (.fork a d source s) (.effect a d) e
  | opened {e : Ty} {span : String} : Thunk.HasTypes (.opened span) .instant e
  | print {e : Ty} {line : String} : Thunk.HasTypes (.print line) .unit e
  | threadName {e : Ty} : Thunk.HasTypes .threadName .text e

/-- The continuation of a `flatMap` node that takes a value of the first type and settles with one
of the second type, or with an error of the third type. -/
inductive Bind.HasTypes : Bind D F → Ty → Ty → Ty → Prop where
  | map {a b e : Ty} {f : Owned F} : T.function L f.val [a] b → Bind.HasTypes (.map a f) a b e
  | flatMap {a b e : Ty} {f : Owned F} :
      T.function L f.val [a] (.effect b e) → Bind.HasTypes (.flatMap a f) a b e
  | replace {a b e : Ty} {v : Value D F} : v.HasType b → Bind.HasTypes (.replace a v) a b e
  | tap {a e reply : Ty} {f : Owned F} :
      T.function L f.val [a] reply → Bind.HasTypes (.tap a f) a a e
  | recover {a e d : Ty} {r : Recovery D F} :
      r.HasTypes a e d → Bind.HasTypes (.recover a e r) (.result a e) a d
  | handle {a e d : Ty} {f : Owned F} :
      T.function L f.val [e] a → Bind.HasTypes (.handle a e f) (.result a e) a d
  | mapError {a e d : Ty} {f : Owned F} :
      T.function L f.val [e] d → Bind.HasTypes (.mapError a e f) (.result a e) a d
  | andThen {a b c e : Ty} {that : Node D F} {how : Combine F} :
      that.HasTypes b e → how.HasTypes T L a b c → Bind.HasTypes (.andThen a b that how) a c e
  | next {a b e : Ty} {that : Node D F} :
      that.HasTypes b e → Bind.HasTypes (.next a that) a b e
  | flatten {a e : Ty} : Bind.HasTypes (.flatten a e) (.effect a e) a e
  | sequence {a e : Ty} :
      Bind.HasTypes (.sequence a e) (.list (.effect a e)) (.list a) e
  | collect {a e : Ty} {that : Node D F} :
      that.HasTypes a e → Bind.HasTypes (.collect a that) (.list a) (.list a) e
  | timed {a e : Ty} {span : String} {source : Node D F} :
      source.HasTypes (.result a e) e → Bind.HasTypes (.timed a e span source) .instant a e
  | unslot {a e : Ty} : Bind.HasTypes (.unslot a e) (.slot a e) a e

/-- The replacement of an effect that has failed with an error of the second type. -/
inductive Recovery.HasTypes : Recovery D F → Ty → Ty → Ty → Prop where
  | user {a e d : Ty} {f : Owned F} :
      T.function L f.val [e] (.effect a d) → Recovery.HasTypes (.user f) a e d
  | once {a e d : Ty} {again : Node D F} :
      again.HasTypes a d → Recovery.HasTypes (.once again) a e d
  | after {a e d : Ty} {nanoseconds : Nat} {again : Node D F} :
      again.HasTypes a e → Recovery.HasTypes (.after nanoseconds again) a e d

/-- A unit of work that registers and finishes at the types of its effect. -/
inductive Work.IsTyped : Work D F → Prop where
  | register {a e : Ty} {r : Register F} {id : HandoffId} :
      r.HasTypes T L a e → L.handoffs[id]? = some (a, e) → Work.IsTyped (.register r id)
  | interpret {a e : Ty} {node : Node D F} {finish : Finish F} :
      node.HasTypes a e → finish.HasTypes T L a e → Work.IsTyped (.interpret node finish)
  | user {reply : Ty} {f : Owned F} : T.function L f.val [] reply → Work.IsTyped (.user f)

end

section Extends

variable {T L} {L' : Types} {a b c e d : Ty}

theorem Callback.HasTypes.extends {target : Callback F} (h : target.HasTypes T L a e)
    (hle : L.Extends L') : target.HasTypes T L' a e := by
  cases h with
  | node hid => exact .node (hle.handoff hid)
  | user hf => exact .user (T.function_extends hle hf)

theorem Finish.HasTypes.extends {finish : Finish F} (h : finish.HasTypes T L a e)
    (hle : L.Extends L') : finish.HasTypes T L' a e := by
  cases h with
  | callback htarget => exact .callback (htarget.extends hle)
  | channel hid => exact .channel (hle.channel hid)
  | fiber hid => exact .fiber (hle.promise hid)

theorem Register.HasTypes.extends {r : Register F} (h : r.HasTypes T L a e)
    (hle : L.Extends L') : r.HasTypes T L' a e := by
  cases h with
  | user hf => exact .user (T.function_extends hle hf)
  | join hid => exact .join (hle.promise hid)
  | sleep => exact .sleep
  | never => exact .never

theorem Combine.HasTypes.extends {how : Combine F} (h : how.HasTypes T L a b c)
    (hle : L.Extends L') : how.HasTypes T L' a b c := by
  induction h with
  | user hf => exact .user (T.function_extends hle hf)
  | pair => exact .pair
  | first => exact .first
  | joins _ ih => exact .joins ih

mutual

theorem Value.HasType.extends {v : Value D F} {a : Ty} (hle : L.Extends L') :
    v.HasType T L a → v.HasType T L' a
  | .data hd => .data (T.data_extends hle hd)
  | .unit => .unit
  | .text => .text
  | .instant => .instant
  | .list hitems => .list (hitems.extends hle)
  | .pair hfirst hsecond => .pair (hfirst.extends hle) (hsecond.extends hle)
  | .absent => .absent
  | .present hv => .present (hv.extends hle)
  | .ok hv => .ok (hv.extends hle)
  | .err hv => .err (hv.extends hle)
  | .slot hs => .slot (hs.extends hle)
  | .effect hnode => .effect (hnode.extends hle)
  | .callback htarget => .callback (htarget.extends hle)
  | .promise hid => .promise (hle.promise hid)
  | .fiber hid => .fiber (hle.promise hid)
  | .future hid => .future (hle.future hid)
  | .work hw => .work (hw.extends hle)
  | .failure => .failure
  | .thread => .thread

theorem Items.HaveType.extends {items : Items D F} {a : Ty} (hle : L.Extends L') :
    items.HaveType T L a → items.HaveType T L' a
  | .empty => .empty
  | .snoc hinit hlast => .snoc (hinit.extends hle) (hlast.extends hle)

theorem Slot.HasTypes.extends {s : Slot D F} {a e : Ty} (hle : L.Extends L') :
    s.HasTypes T L a e → s.HasTypes T L' a e
  | .ok hv => .ok (hv.extends hle)
  | .err hv => .err (hv.extends hle)
  | .panicked hreport => .panicked hreport

theorem Node.HasTypes.extends {node : Node D F} {a e : Ty} (hle : L.Extends L') :
    node.HasTypes T L a e → node.HasTypes T L' a e
  | .thunk ht => .thunk (ht.extends hle)
  | .async hr => .async (hr.extends hle)
  | .flatMap hsource hbind => .flatMap (hsource.extends hle) (hbind.extends hle)
  | .attempt hsource => .attempt (hsource.extends hle)

theorem Thunk.HasTypes.extends {t : Thunk D F} {a e : Ty} (hle : L.Extends L') :
    t.HasTypes T L a e → t.HasTypes T L' a e
  | .succeed hv => .succeed (hv.extends hle)
  | .fail hv => .fail (hv.extends hle)
  | .result hf => .result (T.function_extends hle hf)
  | .delay hf => .delay (T.function_extends hle hf)
  | .fork hsource => .fork (hsource.extends hle)
  | .opened => .opened
  | .print => .print
  | .threadName => .threadName

theorem Bind.HasTypes.extends {bind : Bind D F} {a b e : Ty} (hle : L.Extends L') :
    bind.HasTypes T L a b e → bind.HasTypes T L' a b e
  | .map hf => .map (T.function_extends hle hf)
  | .flatMap hf => .flatMap (T.function_extends hle hf)
  | .replace hv => .replace (hv.extends hle)
  | .tap hf => .tap (T.function_extends hle hf)
  | .recover hr => .recover (hr.extends hle)
  | .handle hf => .handle (T.function_extends hle hf)
  | .mapError hf => .mapError (T.function_extends hle hf)
  | .andThen hthat hhow => .andThen (hthat.extends hle) (hhow.extends hle)
  | .next hthat => .next (hthat.extends hle)
  | .flatten => .flatten
  | .sequence => .sequence
  | .collect hthat => .collect (hthat.extends hle)
  | .timed hsource => .timed (hsource.extends hle)
  | .unslot => .unslot

theorem Recovery.HasTypes.extends {r : Recovery D F} {a e d : Ty} (hle : L.Extends L') :
    r.HasTypes T L a e d → r.HasTypes T L' a e d
  | .user hf => .user (T.function_extends hle hf)
  | .once hagain => .once (hagain.extends hle)
  | .after hagain => .after (hagain.extends hle)

theorem Work.IsTyped.extends {w : Work D F} (hle : L.Extends L') :
    w.IsTyped T L → w.IsTyped T L'
  | .register hr hid => .register (hr.extends hle) (hle.handoff hid)
  | .interpret hnode hfinish => .interpret (hnode.extends hle) (hfinish.extends hle)
  | .user hf => .user (T.function_extends hle hf)

end

end Extends

end Trampoline
