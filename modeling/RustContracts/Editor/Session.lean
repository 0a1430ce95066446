import RustContracts.Editor.Highlight
import RustContracts.Editor.Marker
import RustContracts.Editor.Uri

-- The documents that an editor has open, each checked whenever it changes.
namespace RustContracts.Editor

structure Session where
  -- the name of the target that documents are checked for
  target : String
  -- the texts by path, the latest first
  documents : List (List UInt8 × String) := []

-- What the editor is told about a document.
structure Notification where
  uri : String
  markers : List Marker

-- A change of a document; one of a part only is not supported.
inductive Edit where
  | whole (text : String)
  | part

-- The name of the file at a path; bytes that are no text are left out.
def fileName (path : List UInt8) : String := (String.fromUTF8? ⟨path.toArray⟩).getD ""

namespace Session

def text? (s : Session) (path : List UInt8) : Option String := s.documents.lookup path

def put (s : Session) (path : List UInt8) (text : String) : Session :=
  { s with documents := (path, text) :: s.documents.filter (·.1 != path) }

def erase (s : Session) (path : List UInt8) : Session :=
  { s with documents := s.documents.filter (·.1 != path) }

-- A document is opened, or changed as a whole. None where the process dies.
def openDocument (s : Session) (uri text : String) : Option (Except String (Notification × Session)) :=
  match Uri.path uri with
  | .error e => some (.error e)
  | .ok path => do
    let markers ← diagnose (fileName path) text s.target
    return .ok (⟨uri, markers⟩, s.put path text)

-- The text that edits end with, if one of them gives a whole text.
def finalText? (edits : List Edit) : Option String :=
  edits.reverse.findSome? fun
    | .whole text => some text
    | .part => none

def change (s : Session) (uri : String) (edits : List Edit) :
    Option (Except String (Option Notification × Session)) :=
  match finalText? edits with
  | none => some (.ok (none, s))
  | some text => (s.openDocument uri text).map fun opened => opened.map fun (n, s) => (some n, s)

-- A closed document has no markers.
def close (s : Session) (uri : String) : Except String (Notification × Session) := do
  let path ← Uri.path uri
  return (⟨uri, []⟩, s.erase path)

-- The highlights of an open document.
def tokens (s : Session) (uri : String) : Except String (List UInt32) := do
  let path ← Uri.path uri
  match s.text? path with
  | some text => return encode (highlights text)
  | none => throw ("document " ++ uri ++ " is not open")

end Session

end RustContracts.Editor
