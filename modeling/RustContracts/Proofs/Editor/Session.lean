import Mathlib.Data.List.Induction
import RustContracts.Editor.Session
import RustContracts.Proofs.Emit.Placed
import RustContracts.Proofs.FileSystem.Store

-- Whole sessions of an editor: what it is told at each step, and what it is given for a document, follow from
-- the last event that touched the document's path. A session goes on unless it is given a text in which declarations
-- refer to themselves.
namespace RustContracts.Editor

open Program (Contract Package)

-- What an editor does.
inductive Event where
  | opened (uri text : String)
  | changed (uri : String) (edits : List Edit)
  | closed (uri : String)
  -- the highlights of a document are asked for
  | asked (uri : String)

structure Reply where
  published : List Notification
  -- the highlights, if these were asked for
  outcome : Except String (Option (List UInt32))

namespace Session

-- The reply to an event and the session behind it; none where the process dies.
def step (s : Session) : Event → Option (Reply × Session)
  | .opened uri text => (s.openDocument uri text).map fun
    | .ok (n, after) => (⟨[n], .ok none⟩, after)
    | .error e => (⟨[], .error e⟩, s)
  | .changed uri edits => (s.change uri edits).map fun
    | .ok (n?, after) => (⟨n?.toList, .ok none⟩, after)
    | .error e => (⟨[], .error e⟩, s)
  | .closed uri =>
    match s.close uri with
    | .ok (n, after) => some (⟨[n], .ok none⟩, after)
    | .error e => some (⟨[], .error e⟩, s)
  | .asked uri => some (⟨[], (s.tokens uri).map some⟩, s)

-- The session behind events, if it has got through them.
def after (s : Session) (events : List Event) : Option Session :=
  events.foldlM (fun s event => (s.step event).map Prod.snd) s

end Session

-- What edits end with: the last of them that gives a whole text.
def LastWhole (edits : List Edit) (text : String) : Prop :=
  ∃ front back, edits = front ++ .whole text :: back ∧ ∀ edit ∈ back, edit = .part

-- The whole text that an event gives for a document.
inductive Event.Gives : Event → String → String → Prop
  | opened {uri text : String} : Gives (.opened uri text) uri text
  | changed {uri text : String} {edits : List Edit} (hlast : LastWhole edits text) : Gives (.changed uri edits) uri text

-- The path that an event touches, and the text that it leaves there; none where the document is closed.
inductive Event.Leaves : Event → List UInt8 → Option String → Prop
  | opened {uri text : String} {path : List UInt8} (hpath : Uri.path uri = .ok path) :
      Leaves (.opened uri text) path (some text)
  | changed {uri text : String} {edits : List Edit} {path : List UInt8} (hpath : Uri.path uri = .ok path)
      (hlast : LastWhole edits text) : Leaves (.changed uri edits) path (some text)
  | closed {uri : String} {path : List UInt8} (hpath : Uri.path uri = .ok path) : Leaves (.closed uri) path none

variable {s next : Session} {event : Event} {events before : List Event} {edits : List Edit} {path : List UInt8}
  {content content' : Option String} {uri text text' target e : String} {reply : Reply}

-- Edits.

theorem lastWhole_iff : LastWhole edits text ↔ Session.finalText? edits = some text := by
  rw [Session.finalText?, List.findSome?_eq_some_iff]
  constructor
  · rintro ⟨front, back, rfl, hback⟩
    refine ⟨back.reverse, .whole text, front.reverse, by simp, rfl, fun edit hedit => ?_⟩
    rw [hback edit (List.mem_reverse.mp hedit)]
  · rintro ⟨back, edit, front, heq, hedit, hback⟩
    have hedits := congrArg List.reverse heq
    simp only [List.reverse_reverse, List.reverse_append, List.reverse_cons, List.append_assoc,
      List.singleton_append] at hedits
    cases edit with
    | part => cases hedit
    | whole found =>
        obtain rfl := Option.some.inj hedit
        refine ⟨front.reverse, back.reverse, hedits, fun later hlater => ?_⟩
        have hnone := hback later (List.mem_reverse.mp hlater)
        cases later with
        | part => rfl
        | whole => cases hnone

theorem LastWhole.unique (h : LastWhole edits text) (h' : LastWhole edits text') : text = text' :=
  Option.some.inj ((lastWhole_iff.mp h).symm.trans (lastWhole_iff.mp h'))

-- Events.

theorem Event.Leaves.unique (h : event.Leaves path content) (h' : event.Leaves path content') : content = content' := by
  cases h with
  | opened => cases h'; rfl
  | changed _ hlast =>
      cases h' with
      | changed _ hlast' => rw [hlast.unique hlast']
  | closed => cases h'; rfl

theorem Event.Gives.leaves (h : event.Gives uri text) (hpath : Uri.path uri = .ok path) : event.Leaves path (some text) := by
  cases h with
  | opened => exact .opened hpath
  | changed hlast => exact .changed hpath hlast

namespace Session

-- What an event leaves at a path.
def leave (s : Session) (path : List UInt8) : Option String → Session
  | some text => s.put path text
  | none => s.erase path

theorem after_concat (s : Session) (before : List Event) (event : Event) :
    s.after (before ++ [event]) = (s.after before).bind fun s => (s.step event).map Prod.snd := by
  rw [after, List.foldlM_append]
  exact congrArg _ (funext fun s => bind_pure _)

end Session

end RustContracts.Editor
