import RustContracts.Text.Path

-- A file system as a value: files and directories by path, and the directory that relative paths start
-- from.
namespace RustContracts

inductive Entry where
  | file (text : String)
  | directory
deriving DecidableEq, Inhabited

structure FileSystem where
  -- the parts of the working directory's path, from the root on
  workingDir : List String := []
  entries : List (List String × Entry) := []

-- Why a path could not be used.
inductive PathCause where
  | notFound
  | notDirectory
  | isDirectory
  | nameTooLong
  -- no name holds the character with code zero
  | invalidName
deriving DecidableEq

structure PathError where
  -- what was tried
  action : String
  path : String
  cause : PathCause
deriving DecidableEq

def PathCause.text : PathCause → String
  | notFound => "no such file or directory"
  | notDirectory => "not a directory"
  | isDirectory => "is a directory"
  | nameTooLong => "file name too long"
  | invalidName => "invalid argument"

def PathError.message (e : PathError) : String := e.action ++ " " ++ e.path ++ ": " ++ e.cause.text

namespace FileSystem

-- What stands at a place; the root is a directory.
def entry? (fs : FileSystem) (place : List String) : Option Entry :=
  if place = [] then some .directory else fs.entries.lookup place

def put (fs : FileSystem) (place : List String) (e : Entry) : FileSystem :=
  { fs with entries := (place, e) :: fs.entries.filter (·.1 != place) }

-- An empty directory to work in, at a place given by parts.
def atWork (place : List String) : FileSystem :=
  { workingDir := place
    entries := (List.range place.length).map fun i => (place.take (i + 1), .directory) }

-- The most bytes that a part of a path can have, and a path as a whole.
def maxPartLength : Nat := 255
def maxPathLength : Nat := 4095

-- The place that parts of a path lead to from a directory. All but the last have to exist.
def walk (fs : FileSystem) (place : List String) : List String → Except PathCause (List String)
  | [] => .ok place
  | part :: rest =>
    if part = "" || part = "." then fs.walk place rest
    else if part = ".." then fs.walk place.dropLast rest
    else if maxPartLength < part.utf8ByteSize then .error .nameTooLong
    else
      let next := place ++ [part]
      if rest.isEmpty then .ok next
      else
        match fs.entry? next with
        | none => .error .notFound
        | some (.file _) => .error .notDirectory
        | some .directory => fs.walk next rest

-- The place that a path denotes. The empty path denotes none.
def resolve (fs : FileSystem) (path : String) : Except PathCause (List String) :=
  if path = "" then .error .notFound
  else if path.toList.contains (Char.ofNat 0) then .error .invalidName
  else if maxPathLength < path.utf8ByteSize then .error .nameTooLong
  else fs.walk (if Text.Path.isRooted path then [] else fs.workingDir) (Text.Path.parts path)

-- What a path denotes, if it exists.
def stat? (fs : FileSystem) (path : String) : Option Entry :=
  match fs.resolve path with
  | .ok place => fs.entry? place
  | .error _ => none

def isFile (fs : FileSystem) (path : String) : Bool :=
  match fs.stat? path with
  | some (.file _) => true
  | _ => false

-- The text of a file. A directory can be opened, but not read.
def read (fs : FileSystem) (path : String) : Except PathError String :=
  match fs.resolve path with
  | .error cause => .error ⟨"open", path, cause⟩
  | .ok place =>
    match fs.entry? place with
    | none => .error ⟨"open", path, .notFound⟩
    | some .directory => .error ⟨"read", path, .isDirectory⟩
    | some (.file text) => .ok text

-- Writes a file into a directory that exists.
def write (fs : FileSystem) (path text : String) : Except PathError FileSystem :=
  match fs.resolve path with
  | .error cause => .error ⟨"open", path, cause⟩
  | .ok place =>
    match fs.entry? place with
    | some .directory => .error ⟨"open", path, .isDirectory⟩
    | _ => .ok (fs.put place (.file text))

-- Makes a directory if there is none.
def makeDir (fs : FileSystem) (path : String) : Except PathError FileSystem :=
  match fs.resolve path with
  | .error cause => .error ⟨"mkdir", path, cause⟩
  | .ok place =>
    match fs.entry? place with
    | some .directory => .ok fs
    | some (.file _) => .error ⟨"mkdir", path, .notDirectory⟩
    | none => .ok (fs.put place .directory)

-- The paths that lead to a path, shortest first, and the path itself.
def leadingPaths (path : String) : List String :=
  let parts := Text.Path.parts path
  ((List.range parts.length).map fun i => "/".intercalate (parts.take (i + 1))).filter (· != "")

-- Makes directories one after the other. The first failure ends it, and those made before it stay.
def makeEach (fs : FileSystem) : List String → Except PathError Unit × FileSystem
  | [] => (.ok (), fs)
  | path :: rest =>
    match fs.makeDir path with
    | .error e => (.error e, fs)
    | .ok made => made.makeEach rest

-- Makes a directory and those that lead to it.
def makeDirs (fs : FileSystem) (path : String) : Except PathError FileSystem :=
  let (made, after) := fs.makeEach (leadingPaths path)
  made.map fun _ => after

-- The absolute form of a path.
def absolute (fs : FileSystem) (path : String) : String :=
  if Text.Path.isRooted path then Text.Path.clean path
  else Text.Path.join ("/" ++ "/".intercalate fs.workingDir) path

end FileSystem

end RustContracts
