import RustContracts.Diagnostic.Basic
import RustContracts.Text.Quoted

-- Formatting of finished code by another program.
namespace RustContracts.Formatter

-- How a run of a program ended.
inductive Outcome where
  -- there is no such program
  | notFound
  -- it failed with a status; what it reported
  | failed (status : Nat) (report : String)
  -- what it printed
  | printed (output : String)

-- The programs of a system, by name; a run is given arguments and input.
abbrev Programs := String → List String → String → Outcome

-- A bare system: one program that does nothing, one that fails and one that prints its arguments.
def bareSystem : Programs := fun name args _ =>
  match name with
  | "true" => .printed ""
  | "false" => .failed 1 ""
  | "echo" => .printed (" ".intercalate args ++ "\n")
  | _ => .notFound

def defaultProgram : String := "rustfmt"

def arguments : List String := ["--edition", "2021", "--emit", "stdout"]

-- Code as a program formats it; an empty name stands for the default. Code is never given back
-- unformatted.
def format (programs : Programs) (name code : String) : Except Diagnostic String :=
  let program := if name = "" then defaultProgram else name
  match programs program arguments code with
  | .printed output => .ok output
  | .failed status report => .error (.format ("exit status " ++ toString status) report)
  | .notFound =>
    .error (.format ("exec: " ++ Text.quoted program ++ ": executable file not found in $PATH") "")

end RustContracts.Formatter
