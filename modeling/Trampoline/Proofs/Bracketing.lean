import Trampoline.Effect.Concurrent
import Trampoline.Effect.Retry
import Trampoline.Proofs.Endings
import Trampoline.Proofs.Recovering

/-!
Brackets. An instrumented effect announces in its span that it starts and how it settles, which is
an opening and a closing bracket around what it does. Effects that are made by the library have the
two announcements only in this form, so the spans that are open are those of the instrumented
effects whose continuations are pending, and the brackets of an interpretation are nested.
-/

namespace Trampoline

variable {D F : Type}

open Interpretation

/-- A bracket: an instrumented effect starts in a span, or has settled there. -/
inductive Bracket where
  | opens (span : String)
  | closes (span : String) (succeeded : Bool)
  deriving DecidableEq, Repr

/-- The bracket that an event is: its message says what has happened in the span. -/
def Event.bracket? (event : Event) : Option Bracket :=
  match event.spans, event.fields.lookup "message" with
  | [span], some (.text message) =>
      if message = "effect started" then some (.opens span)
      else if message = "effect succeeded" then some (.closes span true)
      else if message = "effect failed" then some (.closes span false)
      else none
  | _, _ => none

@[simp] theorem Event.bracket?_started (span : String) :
    (started span).bracket? = some (.opens span) := rfl

@[simp] theorem Event.bracket?_ended (span : String) (succeeded : Bool) :
    (ended span succeeded).bracket? = some (.closes span succeeded) := by
  cases succeeded <;> simp [bracket?, ended]

/-- An event outside every span is no bracket. -/
@[simp] theorem Event.bracket?_plain (level : Level) (message : String)
    (more : List (String × Field)) : (plain level message more).bracket? = none := rfl

@[simp] theorem Event.bracket?_retryingOnce : retryingOnce.bracket? = none := rfl

@[simp] theorem Event.bracket?_retrying (delay : String) : (retrying delay).bracket? = none := rfl

/-- The event that a question has recorded. -/
def Ask.event? : Ask D F → Option Event
  | .emit event => some event
  | .clock event => some event
  | _ => none

def Ask.bracket? (question : Ask D F) : Option Bracket := question.event?.bind Event.bracket?

def Deed.bracket? : Deed D F → Option Bracket
  | .ask question => question.bracket?
  | _ => none

/-- The brackets among some deeds. -/
def Deed.brackets (deeds : List (Deed D F)) : List Bracket := deeds.filterMap bracket?

@[simp] theorem Deed.brackets_nil : brackets ([] : List (Deed D F)) = [] := rfl

@[simp] theorem Deed.brackets_cons (deed : Deed D F) (deeds : List (Deed D F)) :
    brackets (deed :: deeds) = deed.bracket?.toList ++ brackets deeds := by
  cases h : deed.bracket? <;> simp [brackets, h]

@[simp] theorem Deed.brackets_append (first rest : List (Deed D F)) :
    brackets (first ++ rest) = brackets first ++ brackets rest :=
  List.filterMap_append

namespace Bracket

/-- Brackets that are properly nested: each opening one is closed in its own span, and what is in
between is nested, too. -/
inductive Nested : List Bracket → Prop where
  | nil : Nested []
  | wrap {span : String} {succeeded : Bool} {inner rest : List Bracket} :
      Nested inner → Nested rest → Nested (.opens span :: (inner ++ .closes span succeeded :: rest))

/-- Brackets that turn the spans that are open, the innermost first, into others. -/
inductive Turns : List String → List Bracket → List String → Prop where
  | nil {spans : List String} : Turns spans [] spans
  | opens {span : String} {spans out : List String} {rest : List Bracket} :
      Turns (span :: spans) rest out → Turns spans (.opens span :: rest) out
  | closes {span : String} {succeeded : Bool} {spans out : List String} {rest : List Bracket} :
      Turns spans rest out → Turns (span :: spans) (.closes span succeeded :: rest) out

namespace Turns

variable {spans mid out : List String} {first rest : List Bracket}

theorem append (h : Turns spans first mid) (h' : Turns mid rest out) :
    Turns spans (first ++ rest) out := by
  induction h with
  | nil => exact h'
  | opens _ ih => exact .opens (ih h')
  | closes _ ih => exact .closes (ih h')

/-- The open spans can be closed one after another. -/
theorem closing (spans : List String) (succeeded : Bool) :
    Turns spans (spans.map fun span => .closes span succeeded) [] := by
  induction spans with
  | nil => exact .nil
  | cons span spans ih => exact .closes ih

end Turns

/-- Brackets that close the open spans one after another, with nested brackets before each and
afterwards. -/
def ClosesAll : List String → List Bracket → Prop
  | [], brackets => Nested brackets
  | span :: spans, brackets => ∃ inner succeeded rest,
      brackets = inner ++ .closes span succeeded :: rest ∧ Nested inner ∧ ClosesAll spans rest

theorem ClosesAll.wrap {span : String} {spans : List String} {brackets : List Bracket}
    (h : ClosesAll (span :: spans) brackets) : ClosesAll spans (.opens span :: brackets) := by
  obtain ⟨inner, succeeded, rest, rfl, hinner, hrest⟩ := h
  cases spans with
  | nil => exact Nested.wrap hinner hrest
  | cons span' spans =>
      obtain ⟨inner', succeeded', rest', rfl, hinner', hrest'⟩ := hrest
      exact ⟨.opens span :: (inner ++ .closes span succeeded :: inner'), succeeded', rest', by simp,
        Nested.wrap hinner hinner', hrest'⟩

theorem Turns.closesAll {spans : List String} {brackets : List Bracket}
    (h : Turns spans brackets []) : ClosesAll spans brackets := by
  generalize hout : ([] : List String) = out at h
  induction h with
  | nil =>
      subst hout
      exact .nil
  | opens _ ih => exact (ih hout).wrap
  | closes _ ih => exact ⟨[], _, _, rfl, .nil, ih hout⟩

/-- Brackets that leave no span open are nested. -/
theorem Turns.nested {brackets : List Bracket} (h : Turns [] brackets []) : Nested brackets :=
  h.closesAll

/-- Brackets that leave some spans open can be completed to nested ones. -/
theorem Turns.exists_nested {brackets : List Bracket} {out : List String}
    (h : Turns [] brackets out) : ∃ rest, Nested (brackets ++ rest) :=
  ⟨_, (h.append (closing out true)).nested⟩

end Bracket

mutual

/-- Values in which all effects are made by the library's own functions. An announcement of a start
or an end is in an effect only where the effect is instrumented. -/
inductive Value.IsBuilt : Value D F → Prop where
  | data {index : Nat} {d : Owned D} : Value.IsBuilt (.data index d)
  | unit : Value.IsBuilt .unit
  | text {s : String} : Value.IsBuilt (.text s)
  | instant {nanoseconds : Nat} : Value.IsBuilt (.instant nanoseconds)
  | list {item : Ty} {items : Items D F} : items.IsBuilt → Value.IsBuilt (.list item items)
  | pair {first second : Value D F} :
      first.IsBuilt → second.IsBuilt → Value.IsBuilt (.pair first second)
  | absent {item : Ty} : Value.IsBuilt (.absent item)
  | present {item : Ty} {v : Value D F} : v.IsBuilt → Value.IsBuilt (.present item v)
  | ok {value error : Ty} {v : Value D F} : v.IsBuilt → Value.IsBuilt (.ok value error v)
  | err {value error : Ty} {v : Value D F} : v.IsBuilt → Value.IsBuilt (.err value error v)
  | slot {value error : Ty} {s : Slot D F} : s.IsBuilt → Value.IsBuilt (.slot value error s)
  | effect {value error : Ty} {node : Node D F} :
      node.IsBuilt → Value.IsBuilt (.effect value error node)
  | callback {value error : Ty} {target : Callback F} : Value.IsBuilt (.callback value error target)
  | promise {value : Ty} {id : PromiseId} : Value.IsBuilt (.promise value id)
  | fiber {value error : Ty} {id : PromiseId} : Value.IsBuilt (.fiber value error id)
  | future {value error : Ty} {id : FutureId} : Value.IsBuilt (.future value error id)
  | work {w : Work D F} : Value.IsBuilt (.work w)
  | failure {report : WorkFailure} : Value.IsBuilt (.failure report)
  | thread {id : ThreadId} : Value.IsBuilt (.thread id)

inductive Items.IsBuilt : Items D F → Prop where
  | empty : Items.IsBuilt .empty
  | snoc {init : Items D F} {last : Value D F} :
      init.IsBuilt → last.IsBuilt → Items.IsBuilt (.snoc init last)

inductive Slot.IsBuilt : Slot D F → Prop where
  | ok {v : Value D F} : v.IsBuilt → Slot.IsBuilt (.ok v)
  | err {v : Value D F} : v.IsBuilt → Slot.IsBuilt (.err v)
  | panicked {report : WorkFailure} : Slot.IsBuilt (.panicked report)

inductive Node.IsBuilt : Node D F → Prop where
  | thunk {t : Thunk D F} : t.IsBuilt → Node.IsBuilt (.thunk t)
  | async {register : Register F} {scheduler : SchedulerId} :
      Node.IsBuilt (.async register scheduler)
  | flatMap {source : Node D F} {bind : Bind D F} :
      source.IsBuilt → bind.IsBuilt → Node.IsBuilt (.flatMap source bind)
  | attempt {source : Node D F} {reify : Reify} :
      source.IsBuilt → Node.IsBuilt (.attempt source reify)
  | instrument {value error : Ty} {span : String} {source : Node D F} : source.IsBuilt →
      Node.IsBuilt (.flatMap (.thunk (.opened span))
        (.timed value error span (.attempt source ⟨value, error⟩)))

inductive Thunk.IsBuilt : Thunk D F → Prop where
  | succeed {v : Value D F} : v.IsBuilt → Thunk.IsBuilt (.succeed v)
  | fail {v : Value D F} : v.IsBuilt → Thunk.IsBuilt (.fail v)
  | result {f : Owned F} : Thunk.IsBuilt (.result f)
  | delay {f : Owned F} : Thunk.IsBuilt (.delay f)
  | fork {value error : Ty} {source : Node D F} {scheduler : SchedulerId} :
      source.IsBuilt → Thunk.IsBuilt (.fork value error source scheduler)
  | print {line : String} : Thunk.IsBuilt (.print line)
  | threadName : Thunk.IsBuilt .threadName

inductive Bind.IsBuilt : Bind D F → Prop where
  | map {value : Ty} {f : Owned F} : Bind.IsBuilt (.map value f)
  | flatMap {value : Ty} {f : Owned F} : Bind.IsBuilt (.flatMap value f)
  | replace {value : Ty} {v : Value D F} : v.IsBuilt → Bind.IsBuilt (.replace value v)
  | tap {value : Ty} {f : Owned F} : Bind.IsBuilt (.tap value f)
  | recover {value error : Ty} {r : Recovery D F} :
      r.IsBuilt → Bind.IsBuilt (.recover value error r)
  | handle {value error : Ty} {f : Owned F} : Bind.IsBuilt (.handle value error f)
  | mapError {value error : Ty} {f : Owned F} : Bind.IsBuilt (.mapError value error f)
  | andThen {value second : Ty} {that : Node D F} {combine : Combine F} :
      that.IsBuilt → Bind.IsBuilt (.andThen value second that combine)
  | next {value : Ty} {that : Node D F} : that.IsBuilt → Bind.IsBuilt (.next value that)
  | flatten {value error : Ty} : Bind.IsBuilt (.flatten value error)
  | sequence {value error : Ty} : Bind.IsBuilt (.sequence value error)
  | collect {item : Ty} {that : Node D F} : that.IsBuilt → Bind.IsBuilt (.collect item that)
  | unslot {value error : Ty} : Bind.IsBuilt (.unslot value error)

inductive Recovery.IsBuilt : Recovery D F → Prop where
  | user {f : Owned F} : Recovery.IsBuilt (.user f)
  | once {again : Node D F} : again.IsBuilt → Recovery.IsBuilt (.once again)
  | after {nanoseconds : Nat} {again : Node D F} :
      again.IsBuilt → Recovery.IsBuilt (.after nanoseconds again)

end

/-- An outcome whose value or error is built. -/
def Outcome.IsBuilt : Outcome D F → Prop
  | .ok v => v.IsBuilt
  | .error v => v.IsBuilt

namespace Node.IsBuilt

variable {value error item : Ty} {nodes : List (Node D F)} {node : Node D F}

theorem join (fiber : PromiseId) : (Node.join value error fiber : Node D F).IsBuilt :=
  .flatMap .async .unslot

theorem retryAfter (h : node.IsBuilt) (value error : Ty) (d : Nat) :
    (node.retryAfter value error d).IsBuilt :=
  .flatMap (.attempt h) (.recover (.after h))

theorem afterSleep (h : node.IsBuilt) (d : Nat) : (node.afterSleep d).IsBuilt :=
  .flatMap .async (.next h)

theorem collectAll (h : node.IsBuilt) (hnodes : ∀ x ∈ nodes, x.IsBuilt) (item : Ty) :
    (Node.collectAll item node nodes).IsBuilt := by
  induction nodes generalizing node with
  | nil => exact h
  | cons x nodes ih =>
      exact ih (.flatMap h (.collect (hnodes x List.mem_cons_self)))
        fun y hy => hnodes y (List.mem_cons_of_mem x hy)

theorem sequence (hnodes : ∀ x ∈ nodes, x.IsBuilt) (item : Ty) :
    (Node.sequence item nodes).IsBuilt :=
  collectAll (.thunk (.succeed (.list .empty))) hnodes item

end Node.IsBuilt

theorem Value.IsBuilt.ofOutcome {o : Outcome D F} (h : Outcome.IsBuilt o) (value error : Ty) :
    (Value.ofOutcome value error o).IsBuilt := by
  cases o with
  | ok v => exact .ok h
  | error v => exact .err h

theorem Value.IsBuilt.outcome? {v : Value D F} {o : Outcome D F} (h : v.IsBuilt)
    (ho : v.outcome? = some o) : Outcome.IsBuilt o := by
  cases h with
  | ok hv => exact Option.some.inj ho ▸ hv
  | err hv => exact Option.some.inj ho ▸ hv
  | _ => contradiction

/-- The effects of a list are built if its items are. -/
theorem Items.IsBuilt.nodesOnto? {items : Items D F} {nodes out : List (Node D F)}
    (h : items.IsBuilt) (hnodes : ∀ x ∈ nodes, x.IsBuilt)
    (hout : items.nodesOnto? nodes = some out) : ∀ x ∈ out, x.IsBuilt := by
  match items, h with
  | .empty, _ => exact Option.some.inj hout ▸ hnodes
  | .snoc init last, .snoc hinit hlast =>
      cases hlast with
      | effect hnode =>
          exact Items.IsBuilt.nodesOnto? hinit (List.forall_mem_cons.2 ⟨hnode, hnodes⟩) hout
      | _ => contradiction

theorem Slot.IsBuilt.read {s : Slot D F} {o : Outcome D F} (h : s.IsBuilt)
    (ho : s.read = .ok o) : Outcome.IsBuilt o := by
  cases h with
  | ok hv => exact Except.ok.inj ho ▸ hv
  | err hv => exact Except.ok.inj ho ▸ hv
  | panicked => contradiction

/-- A one-shot continuation that announces nothing. -/
inductive Resume.IsBuilt : Resume D F → Prop where
  | combine {second : Ty} {first : Value D F} {how : Combine F} :
      first.IsBuilt → Resume.IsBuilt (.combine second first how)
  | append {item : Ty} {items : Items D F} : items.IsBuilt → Resume.IsBuilt (.append item items)

inductive Next.IsBuilt : Next D F → Prop where
  | run {node : Node D F} : node.IsBuilt → Next.IsBuilt (.run node)
  | andThen {node : Node D F} {resume : Resume D F} :
      node.IsBuilt → resume.IsBuilt → Next.IsBuilt (.andThen node resume)
  | done {o : Outcome D F} : Outcome.IsBuilt o → Next.IsBuilt (.done o)

def Post.IsBuilt : Post D F → Prop
  | .fixed next => next.IsBuilt
  | _ => True

/-- Whether what a function does is built, and no bracket. -/
inductive Plan.IsBuilt : Plan D F → Prop where
  | answer {next : Next D F} : next.IsBuilt → Plan.IsBuilt (.answer next)
  | raise {payload : Payload} : Plan.IsBuilt (.raise payload)
  | ask {question : Ask D F} {post : Post D F} :
      question.bracket? = none → post.IsBuilt → Plan.IsBuilt (.ask question post)

theorem Plan.IsBuilt.settled {o : Outcome D F} (h : Outcome.IsBuilt o) :
    (Plan.settled o).IsBuilt :=
  .answer (.done h)

theorem Plan.IsBuilt.expect {ty : Ty} {v : Value D F} {plan : Value D F → Plan D F}
    (h : (plan v).IsBuilt) : (v.expect ty plan).IsBuilt := by
  unfold Value.expect
  split
  · exact h
  · exact .raise

theorem Post.IsBuilt.answer {post : Post D F} {v : Value D F} {next : Next D F}
    (h : post.IsBuilt) (hv : v.IsBuilt) (hnext : post.answer v = .ok next) : next.IsBuilt := by
  cases post with
  | succeed => exact Except.ok.inj hnext ▸ .done hv
  | fail => exact Except.ok.inj hnext ▸ .done hv
  | fixed next => exact Except.ok.inj hnext ▸ h
  | outcome =>
      simp only [Post.answer] at hnext
      split at hnext
      · rename_i o ho
        exact Except.ok.inj hnext ▸ .done (hv.outcome? ho)
      · contradiction
  | run =>
      cases hv with
      | effect hnode => exact Except.ok.inj hnext ▸ .run hnode
      | _ => contradiction

theorem Thunk.IsBuilt.plan {t : Thunk D F} (h : t.IsBuilt) : t.plan.IsBuilt := by
  cases h with
  | succeed hv => exact .settled hv
  | fail hv => exact .settled hv
  | _ => exact .ask rfl trivial

theorem Recovery.IsBuilt.plan {recovery : Recovery D F} (h : recovery.IsBuilt) (value error : Ty)
    (e : Value D F) : (recovery.plan value error e).IsBuilt := by
  cases h with
  | user => exact .ask rfl trivial
  | once hagain => exact .ask rfl (Next.IsBuilt.run hagain)
  | @after d again hagain =>
      exact .ask rfl (Next.IsBuilt.run ((hagain.retryAfter value error d).afterSleep d))

theorem Combine.plan_isBuilt {first second : Value D F} (hfirst : first.IsBuilt)
    (hsecond : second.IsBuilt) (how : Combine F) : (how.plan first second).IsBuilt := by
  cases how with
  | user f => exact .ask rfl trivial
  | pair => exact .settled (Value.IsBuilt.pair hfirst hsecond)
  | first => exact .settled hfirst
  | joins a b result error inner =>
      simp only [Combine.plan]
      split
      · cases hfirst with
        | effect hleft =>
            cases hsecond with
            | effect hright =>
                exact .settled (Value.IsBuilt.effect (.flatMap hleft (.andThen hright)))
      · exact .raise

theorem Bind.IsBuilt.plan {k : Bind D F} {v : Value D F} (h : k.IsBuilt) (hv : v.IsBuilt) :
    (k.plan v).IsBuilt := by
  cases h <;> simp only [Bind.plan] <;> refine .expect ?_
  case map => exact .ask rfl trivial
  case flatMap => exact .ask rfl trivial
  case replace hw => exact .settled hw
  case tap => exact .ask rfl (Next.IsBuilt.done hv)
  case andThen hthat => exact .answer (.andThen hthat (.combine hv))
  case next hthat => exact .answer (.run hthat)
  case recover hr =>
    cases hv with
    | ok hw => exact .settled hw
    | err hw => exact hr.plan _ _ _
    | _ => exact .raise
  case handle =>
    cases hv with
    | ok hw => exact .settled hw
    | err hw => exact .ask rfl trivial
    | _ => exact .raise
  case mapError =>
    cases hv with
    | ok hw => exact .settled hw
    | err hw => exact .ask rfl trivial
    | _ => exact .raise
  case flatten =>
    cases hv with
    | effect hnode => exact .answer (.run hnode)
    | _ => exact .raise
  case sequence =>
    cases hv with
    | list hitems =>
        dsimp only
        split
        · rename_i nodes hnodes
          exact .answer (.run (.sequence (hitems.nodesOnto? (by simp) hnodes) _))
        · exact .raise
    | _ => exact .raise
  case collect hthat =>
    cases hv with
    | list hitems => exact .answer (.andThen hthat (.append hitems))
    | _ => exact .raise
  case unslot =>
    cases hv with
    | slot hs =>
        dsimp only
        split
        · rename_i o ho
          exact .settled (hs.read ho)
        · exact .raise
    | _ => exact .raise

theorem Resume.IsBuilt.plan {resume : Resume D F} {v : Value D F} (h : resume.IsBuilt)
    (hv : v.IsBuilt) : (resume.plan v).IsBuilt := by
  cases h <;> simp only [Resume.plan] <;> refine .expect ?_
  case combine hfirst => exact Combine.plan_isBuilt hfirst hv _
  case append hitems => exact .settled (Value.IsBuilt.list (.snoc hitems hv))

theorem Reify.plan_isBuilt {o : Outcome D F} (h : Outcome.IsBuilt o) (reify : Reify) :
    (reify.plan o).IsBuilt := by
  cases o <;> simp only [Reify.plan] <;> refine .expect (.settled ?_)
  case ok v => exact Value.IsBuilt.ok h
  case error v => exact Value.IsBuilt.err h

/-- Whether a continuation is made by the library's functions and announces nothing. -/
def Frame.IsBuilt : Frame D F → Prop
  | .bind k => k.IsBuilt
  | .resume r => r.IsBuilt
  | .reify _ => True

theorem Frame.IsBuilt.plan {frame : Frame D F} {o : Outcome D F} (h : frame.IsBuilt)
    (ho : Outcome.IsBuilt o) : (frame.plan o).IsBuilt := by
  cases frame with
  | bind k =>
      cases o with
      | ok v => exact Bind.IsBuilt.plan h ho
      | error v => exact .settled ho
  | resume resume =>
      cases o with
      | ok v => exact Resume.IsBuilt.plan h ho
      | error v => exact .settled ho
  | reify reify => exact Reify.plan_isBuilt ho reify

/-- The spans that are opened by the continuations above some others, the innermost first. -/
inductive Frame.Opens (base : List (Frame D F)) : List (Frame D F) → List String → Prop where
  | nil : Opens base base []
  | cons {frame : Frame D F} {frames : List (Frame D F)} {spans : List String} :
      frame.IsBuilt → Opens base frames spans → Opens base (frame :: frames) spans
  | instrumented {value error : Ty} {span : String} {frames : List (Frame D F)}
      {spans : List String} : Opens base frames spans →
        Opens base (.reify ⟨value, error⟩ :: .resume (.close value error span) :: frames)
          (span :: spans)

/-- The spans that are opened in an interpretation above some continuations, the innermost first. -/
inductive Interpretation.Opens (base : List (Frame D F)) :
    Interpretation D F → List String → Prop where
  | node {x : Node D F} {frames : List (Frame D F)} {spans : List String} :
      x.IsBuilt → Frame.Opens base frames spans → Opens base ⟨.node x, frames⟩ spans
  /-- An instrumented effect is about to announce its start. -/
  | announces {value error : Ty} {span : String} {source : Node D F} {frames : List (Frame D F)}
      {spans : List String} : source.IsBuilt → Frame.Opens base frames spans →
        Opens base ⟨.node (.thunk (.opened span)),
          .bind (.timed value error span (.attempt source ⟨value, error⟩)) :: frames⟩ spans
  /-- It has announced its start. -/
  | announced {value error : Ty} {span : String} {source : Node D F} {v : Value D F}
      {frames : List (Frame D F)} {spans : List String} :
        source.IsBuilt → Frame.Opens base frames spans →
          Opens base (settle (.settled (.ok v))
            (.bind (.timed value error span (.attempt source ⟨value, error⟩)) :: frames))
              (span :: spans)
  | starts {value error : Ty} {span : String} {source : Node D F} {frames : List (Frame D F)}
      {spans : List String} : source.IsBuilt → Frame.Opens base frames spans →
        Opens base ⟨.node (.attempt source ⟨value, error⟩),
          .resume (.close value error span) :: frames⟩ (span :: spans)
  | exit {o : Outcome D F} {frames : List (Frame D F)} {spans : List String} :
      Outcome.IsBuilt o → Frame.Opens base frames spans →
        Opens base (settle (.settled o) frames) spans
  /-- An instrumented effect has settled. -/
  | settled {value error : Ty} {span : String} {o : Outcome D F} {frames : List (Frame D F)}
      {spans : List String} : Outcome.IsBuilt o → Frame.Opens base frames spans →
        Opens base (settle (.settled (.ok (.ofOutcome value error o)))
          (.resume (.close value error span) :: frames)) (span :: spans)
  | panicked {payload : Payload} {frames : List (Frame D F)} {spans : List String} :
      Opens base (settle (.panicked payload) frames) spans

/-- The spans that are open while a question waits for its reply. -/
inductive Post.Opens (base : List (Frame D F)) :
    Post D F → List (Frame D F) → List String → Prop where
  | plain {post : Post D F} {frames : List (Frame D F)} {spans : List String} :
      post.IsBuilt → Frame.Opens base frames spans → Opens base post frames spans
  | announcing {value error : Ty} {span : String} {source : Node D F} {frames : List (Frame D F)}
      {spans : List String} : source.IsBuilt → Frame.Opens base frames spans →
        Opens base .succeed
          (.bind (.timed value error span (.attempt source ⟨value, error⟩)) :: frames)
            (span :: spans)

variable {base frames : List (Frame D F)} {spans : List String} {i : Interpretation D F}

theorem Next.IsBuilt.opens {next : Next D F} (h : next.IsBuilt)
    (hframes : Frame.Opens base frames spans) : (continueWith frames next).Opens base spans := by
  cases h with
  | run hnode => exact .node hnode hframes
  | andThen hnode hresume => exact .node hnode (.cons hresume hframes)
  | done ho => exact .exit ho hframes

theorem Post.Opens.reply {post : Post D F} (h : post.Opens base frames spans)
    {r : Except Payload (Value D F)} (hr : ∀ v, r = .ok v → v.IsBuilt) :
    (Interpretation.reply post frames r).Opens base spans := by
  cases r with
  | error payload => exact .panicked
  | ok v =>
      cases h with
      | plain hpost hframes =>
          simp only [Interpretation.reply]
          split
          · rename_i next hnext
            exact (hpost.answer (hr v rfl) hnext).opens hframes
          · exact .panicked
      | announcing hsource hframes => exact .announced hsource hframes

/-- What comes of a step: the brackets that are announced, and what is open then. -/
inductive Progress.Opens (base : List (Frame D F)) :
    Progress D F → List Bracket → List String → Prop where
  | next {j : Interpretation D F} {spans : List String} :
      j.Opens base spans → Opens base (.next j) [] spans
  | ask {question : Ask D F} {post : Post D F} {frames : List (Frame D F)} {spans : List String} :
      post.Opens base frames spans →
        Opens base (.ask question post frames) question.bracket?.toList spans
  | suspend {register : Register F} {scheduler : SchedulerId} {frames : List (Frame D F)}
      {spans : List String} :
      Frame.Opens base frames spans → Opens base (.suspend register scheduler frames) [] spans
  | settled {o : Outcome D F} : Opens base (.finish (.settled o)) [] []
  | panicked {payload : Payload} {spans : List String} :
      Opens base (.finish (.panicked payload)) [] spans

theorem Plan.IsBuilt.opens {plan : Plan D F} (h : plan.IsBuilt)
    (hframes : Frame.Opens base frames spans) : (follow frames plan).Opens base [] spans := by
  cases h with
  | answer hnext => exact .next (hnext.opens hframes)
  | raise => exact .next .panicked
  | @ask question post hquestion hpost =>
      have hopens :
          (follow frames (.ask question post)).Opens base question.bracket?.toList spans :=
        .ask (.plain hpost hframes)
      rwa [hquestion] at hopens

/-- Whether an interpretation has settled above some continuations and goes on with these. -/
def Interpretation.Leaves (base : List (Frame D F)) (i : Interpretation D F) : Prop :=
  base ≠ [] ∧ ∃ o, i = settle (.settled o) base

/-- A step announces what turns the open spans into those that are open afterwards. -/
theorem Interpretation.Opens.step (h : i.Opens base spans) (hstays : ¬i.Leaves base) :
    ∃ brackets spans', Bracket.Turns spans brackets spans' ∧
      i.step.Opens base brackets spans' := by
  cases h with
  | node hx hframes =>
      cases hx with
      | thunk ht => exact ⟨[], spans, .nil, ht.plan.opens hframes⟩
      | async => exact ⟨[], spans, .nil, .suspend hframes⟩
      | flatMap hsource hbind =>
          exact ⟨[], spans, .nil, .next (.node hsource (.cons hbind hframes))⟩
      | attempt hsource => exact ⟨[], spans, .nil, .next (.node hsource (.cons trivial hframes))⟩
      | instrument hsource => exact ⟨[], spans, .nil, .next (.announces hsource hframes)⟩
  | announces hsource hframes =>
      exact ⟨_, _, .opens .nil, .ask (.announcing hsource hframes)⟩
  | @announced value error span source v frames spans hsource hframes =>
      refine ⟨[], _, .nil, ?_⟩
      rw [step_settled_cons]
      simp only [Frame.plan, Bind.plan, Value.expect]
      split
      · exact .next (.starts hsource hframes)
      · exact .next .panicked
  | starts hsource hframes => exact ⟨[], _, .nil, .next (.node hsource (.instrumented hframes))⟩
  | @exit o frames spans ho hframes =>
      cases hframes with
      | nil =>
          obtain rfl : base = [] := by_contra fun hbase => hstays ⟨hbase, o, rfl⟩
          exact ⟨[], [], .nil, .settled⟩
      | cons hframe hrest => exact ⟨[], spans, .nil, (hframe.plan ho).opens hrest⟩
      | @instrumented value error span rest spans hrest =>
          refine ⟨[], _, .nil, ?_⟩
          rw [step_settled_cons]
          by_cases htags : Outcome.HasTags value error o
          · rw [Frame.plan_reify htags]
            exact .next (.settled ho hrest)
          · rw [Frame.plan_reify_mismatch htags]
            exact .next .panicked
  | @settled value error span o frames spans ho hframes =>
      refine ⟨[.closes span o.isOk], spans, .closes .nil, ?_⟩
      rw [step_settled_cons]
      have hopens :
          (follow frames (.ask (.emit (.ended span o.isOk)) (.fixed (.done o)))).Opens base
            (Ask.bracket? (D := D) (F := F) (.emit (.ended span o.isOk))).toList spans :=
        .ask (.plain (Next.IsBuilt.done ho) hframes)
      simpa [Frame.plan, Resume.plan, Ask.bracket?, Ask.event?] using hopens
  | panicked => exact ⟨[], spans, .nil, .panicked⟩

/-- The spans that are open at a stage, the innermost first. -/
inductive Stage.Opens (base : List (Frame D F)) : Stage D F → List String → Prop where
  | driving {i : Interpretation D F} {spans : List String} :
      i.Opens base spans → Stage.Opens base (.driving i) spans
  | asking {post : Post D F} {frames : List (Frame D F)} {spans : List String} :
      post.Opens base frames spans → Stage.Opens base (.asking post frames) spans
  | waits {stage : Stage D F} {id : HandoffId} {frames : List (Frame D F)} {spans : List String} :
      stage.node? = some id → stage.frames? = some frames → Frame.Opens base frames spans →
        Stage.Opens base stage spans
  | resuming {exit : Exit (Outcome D F)} {frames : List (Frame D F)} {spans : List String} :
      (∀ o, exit = .settled o → Outcome.IsBuilt o) → Frame.Opens base frames spans →
        Stage.Opens base (.resuming exit frames) spans
  /-- No span is open when an interpretation has settled. -/
  | settled {o : Outcome D F} : Stage.Opens base (.concluding (.settled o)) []
  | panicked {payload : Payload} {spans : List String} :
      Stage.Opens base (.concluding (.panicked payload)) spans

/-- Whether what comes from the surroundings is built. -/
def Deed.IsBuilt : Deed D F → Prop
  | .reply (.ok v) => v.IsBuilt
  | .exit (.settled o) => Outcome.IsBuilt o
  | _ => True

section

variable {stage stage' : Stage D F} {deeds : List (Deed D F)}

theorem Frame.Opens.settle {exit : Exit (Outcome D F)} (h : Frame.Opens base frames spans)
    (hexit : ∀ o, exit = .settled o → Outcome.IsBuilt o) :
    (settle exit frames).Opens base spans := by
  cases exit with
  | settled o => exact .exit (hexit o rfl) h
  | panicked payload => exact .panicked

/-- The brackets of a step are those of its question. -/
theorem Interpretation.brackets_deeds (i : Interpretation D F) :
    Deed.brackets i.deeds = match i.step with
      | .ask question _ _ => question.bracket?.toList
      | _ => [] := by
  have hplan (plan : Plan D F) (frames : List (Frame D F)) :
      Deed.brackets plan.deeds = match follow frames plan with
        | .ask question _ _ => question.bracket?.toList
        | _ => [] := by
    cases plan with
    | answer next => cases next <;> rfl
    | raise payload => rfl
    | ask question post => simp [Plan.deeds, Deed.bracket?, follow]
  obtain ⟨focus, frames⟩ := i
  cases focus with
  | node node =>
      cases node with
      | thunk t =>
          rw [deeds, Deed.brackets_cons, step]
          exact hplan t.plan frames
      | _ => rfl
  | exit exit =>
      cases exit with
      | panicked payload => rfl
      | settled o =>
          cases frames with
          | nil => rfl
          | cons frame frames =>
              rw [deeds, Deed.brackets_cons, Deed.brackets_append, step]
              have hcall : Deed.brackets ((frame.call? o).toList.map .call) = [] := by
                cases frame.call? o <;> rfl
              rw [hcall]
              exact hplan _ frames

theorem Post.brackets_deeds (post : Post D F) (r : Except Payload (Value D F)) :
    Deed.brackets (post.deeds r) = [] := by
  rw [deeds.eq_def, Deed.brackets_cons]
  cases r with
  | error payload => rfl
  | ok v =>
      dsimp only
      split
      · rename_i next _
        cases next <;> rfl
      · rfl

/-- An interpretation that comes to its end announces nothing. -/
theorem Stage.Goes.brackets_of_over (h : stage.Goes deeds none) : Deed.brackets deeds = [] := by
  cases h with
  | step hstep => cases hstep <;> rfl

/-- What happens to an interpretation announces what turns the open spans into those that are open
afterwards. -/
theorem Stage.Opens.goes (h : stage.Opens base spans)
    (hstays : ∀ i, stage = .driving i → ¬i.Leaves base) (hgoes : stage.Goes deeds (some stage'))
    (hdeeds : ∀ d ∈ deeds, d.IsBuilt) :
    ∃ spans', Bracket.Turns spans (Deed.brackets deeds) spans' ∧ stage'.Opens base spans' := by
  cases hgoes with
  | rest => exact ⟨spans, .nil, h⟩
  | registered _ => exact ⟨spans, .nil, h⟩
  | step hstep =>
      cases h with
      | @driving i spans hi =>
          obtain ⟨brackets, spans', hturns, hopens⟩ := hi.step (hstays i rfl)
          cases hstep with
          | next hnext =>
              rw [hnext] at hopens
              rw [i.brackets_deeds, hnext]
              cases hopens with
              | next hj => exact ⟨spans', hturns, .driving hj⟩
          | ask hask =>
              rw [hask] at hopens
              rw [i.brackets_deeds, hask]
              cases hopens with
              | ask hpost => exact ⟨spans', hturns, .asking hpost⟩
          | suspend hsuspend =>
              rw [hsuspend] at hopens
              rw [i.brackets_deeds, hsuspend]
              cases hopens with
              | suspend hframes => exact ⟨spans', hturns, .waits rfl rfl hframes⟩
          | finish hfinish =>
              rw [hfinish] at hopens
              rw [i.brackets_deeds, hfinish]
              cases hopens with
              | settled => exact ⟨[], hturns, .settled⟩
              | panicked => exact ⟨spans', hturns, .panicked⟩
      | asking hpost =>
          cases hstep with
          | @reply post frames r =>
              rw [Post.brackets_deeds]
              refine ⟨spans, .nil, .driving (hpost.reply ?_)⟩
              rintro v rfl
              exact hdeeds _ List.mem_cons_self
      | waits hnode hframes hopens =>
          cases hstep with
          | submitted => exact ⟨spans, .nil, .waits rfl hframes hopens⟩
          | park => exact ⟨spans, .nil, .waits rfl hframes hopens⟩
          | inline =>
              obtain rfl := Option.some.inj hframes
              refine ⟨spans, .nil, .driving (hopens.settle ?_)⟩
              rintro o rfl
              exact hdeeds _ List.mem_cons_self
          | deliver =>
              obtain rfl := Option.some.inj hframes
              refine ⟨spans, .nil, .resuming ?_ hopens⟩
              rintro o rfl
              exact hdeeds _ List.mem_cons_self
          | _ => contradiction
      | resuming hexit hopens =>
          cases hstep with
          | resume => exact ⟨spans, .nil, .driving (hopens.settle hexit)⟩
      | settled => cases hstep
      | panicked => cases hstep

end

/-- Where no more is pending than what was pending at first, no span is open. -/
theorem Frame.Opens.length_le (h : Frame.Opens base frames spans) :
    base.length ≤ frames.length ∧ (frames.length ≤ base.length → spans = []) := by
  induction h with
  | nil => exact ⟨Nat.le_refl _, fun _ => rfl⟩
  | cons _ _ ih =>
      refine ⟨Nat.le_succ_of_le ih.1, fun h => absurd ih.1 ?_⟩
      simp only [List.length_cons] at h
      omega
  | instrumented _ ih =>
      refine ⟨by simp only [List.length_cons]; omega, fun h => absurd ih.1 ?_⟩
      simp only [List.length_cons] at h
      omega

/-- An interpretation that has settled above some continuations has closed all of its spans. -/
theorem Interpretation.Opens.of_settled {o : Outcome D F}
    (h : (settle (.settled o) base).Opens base spans) : spans = [] := by
  generalize hi : settle (.settled o) base = i at h
  cases h with
  | exit _ hframes =>
      obtain ⟨-, rfl⟩ := Interpretation.mk.inj hi
      exact hframes.length_le.2 (Nat.le_refl _)
  | announced _ hframes =>
      obtain ⟨-, rfl⟩ := Interpretation.mk.inj hi
      have hlength := hframes.length_le.1
      simp only [List.length_cons] at hlength
      omega
  | settled _ hframes =>
      obtain ⟨-, rfl⟩ := Interpretation.mk.inj hi
      have hlength := hframes.length_le.1
      simp only [List.length_cons] at hlength
      omega
  | _ => simp [settle] at hi

/-- The spans that are open at a time in a course are those that its brackets have left open. -/
theorem Course.exists_opens {c : Course D F} {stage : Stage D F} (hstart : c.stage 0 = some stage)
    (hopens : stage.Opens base []) (hbuilt : ∀ n, ∀ d ∈ c.deeds n, d.IsBuilt) {n : Nat}
    (hstays : ∀ m, m < n → ∀ i, c.stage m = some (.driving i) → ¬i.Leaves base) :
    ∃ spans, Bracket.Turns [] (Deed.brackets (c.history n)) spans ∧
      ∀ now, c.stage n = some now → now.Opens base spans := by
  induction n with
  | zero =>
      refine ⟨[], .nil, fun now hs => ?_⟩
      obtain rfl := Option.some.inj (hs.symm.trans hstart)
      exact hopens
  | succ n ih =>
      obtain ⟨spans, hturns, hstage⟩ := ih fun m hm => hstays m (Nat.lt_succ_of_lt hm)
      rw [history, Deed.brackets_append]
      cases hbefore : c.stage n with
      | none =>
          obtain ⟨hover, hdeeds⟩ := c.ended n hbefore
          refine ⟨spans, ?_, fun now hs => by simp [hover] at hs⟩
          simpa [hdeeds] using hturns
      | some before =>
          have hgoes := c.goes n before hbefore
          cases hs : c.stage (n + 1) with
          | none =>
              refine ⟨spans, ?_, fun now hnow => absurd hnow (by simp)⟩
              rw [hs] at hgoes
              rw [hgoes.brackets_of_over, List.append_nil]
              exact hturns
          | some now =>
              rw [hs] at hgoes
              obtain ⟨spans', hnext, hnow⟩ := (hstage before hbefore).goes
                (fun i hi => hstays n (Nat.lt_succ_self n) i (hi ▸ hbefore)) hgoes (hbuilt n)
              refine ⟨spans', hturns.append hnext, fun now' hnow' => ?_⟩
              obtain rfl := Option.some.inj hnow'
              exact hnow

namespace Run

variable {H : Host} {r : Run H} {b : Nat} {p : Place} {x : Node H.Data H.Fn}
  {base : List (Frame H.Data H.Fn)} {finish : Finish H.Fn}

/-- All that the interpretation that is at `p` at time `b` gets from its surroundings is built. -/
def ReceivesBuilt (r : Run H) (b : Nat) (p : Place) : Prop :=
  ∀ n, ∀ d ∈ r.deeds b p n, d.IsBuilt

/-- The brackets that the interpretation that is at `p` at time `b` has announced until `n` actions
later. -/
def brackets (r : Run H) (b : Nat) (p : Place) (n : Nat) : List Bracket :=
  Deed.brackets (r.history b p n)

/-- Until `n` actions later the interpretation that is at `p` at time `b` has not gone on with these
continuations. -/
def StaysAbove (r : Run H) (b : Nat) (p : Place) (base : List (Frame H.Data H.Fn)) (n : Nat) :
    Prop :=
  ∀ m, m < n → ∀ i, r.stage b p m = some (.driving i) → ¬i.Leaves base

/-- The brackets that an interpretation announces above some continuations are nested as far as they
go, and when it has settled there all of them are closed. -/
structure NestsBrackets (r : Run H) (b : Nat) (p : Place) (base : List (Frame H.Data H.Fn)) :
    Prop where
  opens {n : Nat} : r.StaysAbove b p base n → ∃ rest, Bracket.Nested (r.brackets b p n ++ rest)
  settled {n : Nat} {o : Outcome H.Data H.Fn} : r.StaysAbove b p base n →
    r.stage b p n = some (.driving (.settle (.settled o) base)) →
      Bracket.Nested (r.brackets b p n)
  /-- If nothing else was pending, it ends with all of them closed. -/
  ends {n : Nat} {o : Outcome H.Data H.Fn} :
    base = [] → r.EndsAt b p n (.settled o) → Bracket.Nested (r.brackets b p n)

/-- An interpretation never goes on with continuations where none are. -/
theorem staysAbove_nil (n : Nat) : r.StaysAbove b p [] n :=
  fun _ _ _ _ hleaves => hleaves.1 rfl

/-- An effect that is made by the library's functions nests its brackets, if what it gets from its
surroundings is made by them, too. -/
theorem nestsBrackets (hx : x.IsBuilt)
    (hp : (r.world b).pendingAt p = some (.driving ⟨.node x, base⟩, finish))
    (hbuilt : r.ReceivesBuilt b p) : r.NestsBrackets b p base := by
  have hopens {n : Nat} (hstays : r.StaysAbove b p base n) :
      ∃ spans, Bracket.Turns [] (r.brackets b p n) spans ∧
        ∀ now, r.stage b p n = some now → now.Opens base spans := by
    rw [brackets, ← r.course_history hp]
    exact (r.course hp).exists_opens ((r.stage_eq_some hp).2 ⟨p, rfl, hp⟩)
      (.driving (.node hx .nil)) hbuilt hstays
  refine ⟨fun hstays => ?_, fun hstays hsettled => ?_, fun {n o} hbase hends => ?_⟩
  · obtain ⟨spans, hturns, -⟩ := hopens hstays
    exact hturns.exists_nested
  · obtain ⟨spans, hturns, hstage⟩ := hopens hstays
    cases hstage _ hsettled with
    | waits hnode => contradiction
    | driving hi =>
        obtain rfl := hi.of_settled
        exact hturns.nested
  · subst hbase
    obtain ⟨spans, hturns, hstage⟩ := hopens (staysAbove_nil n)
    cases hstage _ (hends.stage hp).1 with
    | waits hnode => contradiction
    | settled => exact hturns.nested

end Run

end Trampoline
