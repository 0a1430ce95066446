import RustContracts.Compile
import RustContracts.Config
import RustContracts.FileSystem.Basic

-- Source files, their output and the settings of projects, in a file system.
namespace RustContracts.FileSystem

-- A file that could not be read.
def readFault (path : String) (e : PathError) : Diagnostic :=
  .io path ("failed to read file: " ++ e.message)

-- The tree of a source file.
def parseFile (fs : FileSystem) (path : String) : Except Diagnostic Solidity.SourceUnit := do
  let source ← (fs.read path).mapError (readFault path)
  (Solidity.parse source).mapError fun d => d.inFile path

-- The code of a source file.
def compiledSource (programs : Formatter.Programs) (fs : FileSystem) (source target : String)
    (options : Compile.Options) : Except Stop String := do
  let text ← (fs.read source).mapError fun e => .fault (readFault source e)
  Compile.compileWith programs source text target options

-- Writes code to a path, behind the directories that lead to it. Directories that were made stay.
def store (fs : FileSystem) (path code : String) : Except Stop Unit × FileSystem :=
  match fs.makeEach (leadingPaths (Text.Path.dir path)) with
  | (.error e, made) => (.error (.fault (.io path e.message)), made)
  | (.ok _, made) =>
    match made.write path code with
    | .error e => (.error (.fault (.io path ("failed to write file: " ++ e.message))), made)
    | .ok written => (.ok (), written)

-- Compiles a source file to a path and tells whether it was skipped: whatever stands at the path already
-- is left alone.
def compileFile (programs : Formatter.Programs) (fs : FileSystem) (source path target : String)
    (options : Compile.Options) : Except Stop Bool × FileSystem :=
  if (fs.stat? path).isSome then (.ok true, fs)
  else
    match compiledSource programs fs source target options with
    | .error e => (.error e, fs)
    | .ok code =>
      let (stored, fs) := fs.store path code
      (stored.map fun _ => false, fs)

-- Settings.

inductive LoadError where
  | io (d : Diagnostic)
  | config (path : String) (e : ConfigError)

-- The settings in a file.
def loadConfig (fs : FileSystem) (path : String) : Except LoadError Config :=
  match fs.read path with
  | .error e => .error (.io (.io path e.message))
  | .ok text =>
    match Config.parse text with
    | .error e => .error (.config path e)
    | .ok c => .ok (c.ofFile path)

-- A directory and those around it, innermost first; `count` bounds how many there are.
def enclosing : Nat → String → List String
  | 0, dir => [dir]
  | count + 1, dir =>
    let outer := Text.Path.dir dir
    if outer = dir then [dir] else dir :: enclosing count outer

-- The nearest settings file, in a directory or around it.
def findConfig? (fs : FileSystem) (dir : String) : Option String :=
  let start := fs.absolute dir
  ((enclosing start.length start).map fun d => Text.Path.join d Config.fileName).find? fs.isFile

-- The settings that are nearest to a directory, or the defaults.
def discoverConfig (fs : FileSystem) (dir : String) : Except LoadError Config :=
  match fs.findConfig? dir with
  | some path => fs.loadConfig path
  | none => .ok {}

end RustContracts.FileSystem
