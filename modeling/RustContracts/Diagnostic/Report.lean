import RustContracts.Diagnostic.Basic

-- Failures as a reader sees them: a header, the lines around the place, a marker, notes and help.
namespace RustContracts

-- Why a request failed: a fault of the program or some other cause, perhaps in a context.
inductive Failure where
  | fault (d : Diagnostic)
  | plain (message : String)
  | within (context : String) (cause : Failure)

namespace Failure

def text : Failure → String
  | fault d => d.text
  | plain message => message
  | within context cause => context ++ ": " ++ cause.text

-- The fault of the program behind a failure, through every context.
def diagnostic? : Failure → Option Diagnostic
  | fault d => some d
  | plain _ => none
  | within _ cause => cause.diagnostic?

def isKind (f : Failure) (k : FaultKind) : Bool :=
  f.diagnostic?.any (·.kind = k)

end Failure

namespace Report

-- Line numbers are right-aligned in a column of this width, at least three.
def numberWidth (line : Int) : Nat :=
  max 3 (toString line).length

def spaces (n : Nat) : String := String.ofList (List.replicate n ' ')

def padLeft (width : Nat) (s : String) : String :=
  spaces (width - s.length) ++ s

-- The marker under the faulty characters: at least one caret.
def marker (column length : Int) : String :=
  spaces (column - 1).toNat ++ String.ofList (List.replicate (max 1 length).toNat '^')

-- Notes and help, and the blank line that ends every report.
def trailer (d : Diagnostic) (indent : String) : String :=
  String.join (d.notes.map fun n => indent ++ " │ note: " ++ n ++ "\n") ++
    (if d.help = "" then "" else indent ++ " │ help: " ++ d.help ++ "\n") ++ "\n"

-- One line of the source with its number; nothing when the source has no such line.
def sourceLine (width : Nat) (lines : List String) (number : Int) : String :=
  if number < 1 then ""
  else match lines[(number - 1).toNat]? with
    | some l => padLeft width (toString number) ++ " │ " ++ l ++ "\n"
    | none => ""

-- A fault against the source it came from.
def ofDiagnostic (file source : String) (d : Diagnostic) : String :=
  let lines := source.splitOn "\n"
  let line := d.place.line
  let width := numberWidth line
  let indent := spaces width
  let shownFile := if d.place.file = "" then file else d.place.file
  let header := "error[" ++ d.code ++ "]: " ++ d.message ++ "\n"
  if d.hasPosition then
    let inside := line ≤ lines.length
    header ++ indent ++ " --> " ++ shownFile ++ ":" ++ toString line ++ ":" ++
      toString d.place.column ++ "\n" ++ indent ++ " │\n" ++
      sourceLine width lines (line - 1) ++
      sourceLine width lines line ++
      (if inside then indent ++ " │ " ++ marker d.place.column d.length ++ "\n" else "") ++
      sourceLine width lines (line + 1) ++
      trailer d indent
  else
    header ++ indent ++ " --> " ++ shownFile ++ "\n" ++ trailer d indent

-- Any failure; one that is no fault of the program gets a plain header.
def ofFailure (file source : String) (f : Failure) : String :=
  match f.diagnostic? with
  | some d => ofDiagnostic file source d
  | none => "error: " ++ f.text ++ "\n\n"

end Report

end RustContracts
