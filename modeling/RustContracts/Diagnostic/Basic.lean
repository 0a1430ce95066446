import RustContracts.Diagnostic.Kind
import RustContracts.Text.Position

-- A fault found in a program, with its place and what helps to mend it.
namespace RustContracts

open Text (Position)

-- `1 argument`, `2 arguments`.
def plural (n : Nat) (word : String) : String :=
  toString n ++ " " ++ word ++ (if n = 1 then "" else "s")

-- Where a report points to: a file and, when `line` is positive, a place in it.
structure Place where
  file : String := ""
  line : Int := 0
  column : Int := 0
deriving DecidableEq, Inhabited

namespace Place

def ofPosition (p : Position) : Place := { line := p.line, column := p.column }

def isKnown (p : Place) : Bool := 0 < p.line

end Place

structure Diagnostic where
  kind : FaultKind
  message : String
  place : Place := {}
  -- how many characters the marker under the source line covers
  length : Int := 1
  notes : List String := []
  help : String := ""
deriving DecidableEq, Inhabited

namespace Diagnostic

def code (d : Diagnostic) : String := d.kind.code

def hasPosition (d : Diagnostic) : Bool := d.place.isKnown

-- Attaches a place unless the fault already has one.
def located (d : Diagnostic) (p : Place) : Diagnostic :=
  if d.hasPosition then d else { d with place := p }

-- Attaches a position of the source unless the fault already has one.
def atPosition (d : Diagnostic) (p : Position) : Diagnostic := d.located (.ofPosition p)

-- Names the file of a fault whose place is known.
def inFile (d : Diagnostic) (file : String) : Diagnostic :=
  if d.hasPosition then { d with place := { d.place with file := file } } else d

-- One line: place, class and message.
def text (d : Diagnostic) : String :=
  let what := d.kind.name ++ ": " ++ d.message
  if d.hasPosition then
    let spot := toString d.place.line ++ ":" ++ toString d.place.column ++ ": " ++ what
    if d.place.file = "" then spot else d.place.file ++ ":" ++ spot
  else what

-- The faults of the compiler, each with its wording.

def fault (kind : FaultKind) (p : Position) (message : String) : Diagnostic :=
  { kind, message, place := .ofPosition p }

-- The marker covers as many characters as the name has bytes.
def covering (d : Diagnostic) (name : String) : Diagnostic :=
  { d with length := name.utf8ByteSize }

def badSyntax (p : Position) (message : String) : Diagnostic :=
  fault .syntaxError p message

def unsupported (p : Position) (construct : String) : Diagnostic :=
  (fault .unsupportedType p ("unsupported type: " ++ construct)).covering construct

def numSize (p : Position) (message : String) : Diagnostic :=
  { fault .unsupportedNumSize p message with
    help := "integer widths must be one of 8, 16, 32, 64, 128 or 256 bits" }

def messageType (p : Position) (what : String) : Diagnostic :=
  fault .unsupportedMessageType p ("unsupported message type: " ++ what)

def unexpected (p : Position) (expected actual : String) : Diagnostic :=
  fault .unexpectedExpression p ("expected " ++ expected ++ ", found " ++ actual)

def invalidFunction (p : Position) (message : String) : Diagnostic :=
  fault .invalidFunctionType p message

def missingConstructor (p : Position) (contract : String) : Diagnostic :=
  { fault .constructorNotFound p ("constructor of '" ++ contract ++ "' not found") with
    notes := ["arguments were supplied for a base contract that declares no constructor"] }

-- A modifier needs exactly one implementation; this one has none or several.
def modifierCount (p : Position) (name : String) (implementations : Nat) : Diagnostic :=
  if implementations = 0 then
    (fault .invalidModifier p ("modifier '" ++ name ++ "' has no implementation")).covering name
  else
    { (fault .invalidModifier p ("modifier '" ++ name ++ "' has " ++ toString implementations ++
        " implementations in the inheritance chain")).covering name with
      help := "overriding modifiers is not supported; keep a single definition" }

def notState (p : Position) (name : String) : Diagnostic :=
  (fault .notStateVariable p ("'" ++ name ++ "' is not a local or state variable")).covering name

def badMapping (p : Position) (message : String) : Diagnostic :=
  fault .invalidMapping p message

def mappingInitialized (p : Position) (name : String) : Diagnostic :=
  { (fault .mappingInit p ("mapping '" ++ name ++ "' cannot be initialized")).covering name with
    help := "remove the initializer; mappings start empty and read as the zero value" }

def linearization (contract cause : String) : Diagnostic :=
  { kind := .linearizationFailed, message := "cannot linearize '" ++ contract ++ "': " ++ cause }

-- A file that could not be read or written.
def io (path cause : String) : Diagnostic :=
  { kind := .ioError, message := path ++ ": " ++ cause, place := { file := path } }

-- The formatter failed; what it printed becomes a note.
def format (cause output : String) : Diagnostic :=
  { kind := .formatError, message := "formatter failed: " ++ cause,
    notes := if output = "" then [] else [output] }

end Diagnostic

-- Why there is no code in the end.
inductive Stop where
  -- a fault, which is reported
  | fault (d : Diagnostic)
  -- A declaration refers to itself and is followed until the stack is full. The process dies there and reports nothing.
  | overflow
deriving DecidableEq, Inhabited

def Stop.inFile (file : String) : Stop → Stop
  | fault d => fault (d.inFile file)
  | overflow => overflow

end RustContracts
