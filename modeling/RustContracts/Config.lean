import RustContracts.Target
import RustContracts.Text.Path
import RustContracts.Toml.Table

-- The settings of a project.
namespace RustContracts

structure Config where
  target : Target := .ink .v5
  -- the contract to emit; the most derived one when empty
  contract : String := ""
  outDir : String := "."
  format : Bool := false
  formatter : String := "rustfmt"
  -- how many files are compiled at once; none leaves it to the machine
  jobs : Option Nat := none
  verbosity : Int := 0
  -- the file that the settings are from
  path : String := ""
deriving Inhabited

inductive ConfigError where
  -- the file is not well-formed, or a setting has a value of the wrong type
  | malformed
  | badTarget (message : String)
  | badJobs (n : Int)

def ConfigError.message : ConfigError → String
  | malformed => "malformed settings"
  | badTarget message => message
  | badJobs n => "jobs must be positive, got " ++ toString n

namespace Config

-- The file that settings are kept in.
def fileName : String := "sol2rs.toml"

-- An integer as a signed one of 64 bits.
def wrap64 (n : Int) : Int := n.bmod (1 <<< 64)

-- Settings. A name may also be written in capitals. An absent setting has the given value, one of the wrong
-- type is an error.

def setting? (t : Toml.Table) (name : String) : Option Toml.Node :=
  (t.get? name).or (t.get? (String.ofList (name.toList.map Char.toUpper)))

-- A text. Integers beyond the signed ones stand for a text of one unknown character.
def textSetting (t : Toml.Table) (name : String) : Except ConfigError String :=
  match setting? t name with
  | none => .ok ""
  | some (.value (.string s)) => .ok s
  | some (.value (.integer n)) => if (1 <<< 63 : Nat) ≤ n then .ok "\ufffd" else .error .malformed
  | some _ => .error .malformed

def boolSetting (t : Toml.Table) (name : String) : Except ConfigError Bool :=
  match setting? t name with
  | none => .ok false
  | some (.value (.bool b)) => .ok b
  | some _ => .error .malformed

def intSetting (t : Toml.Table) (name : String) : Except ConfigError Int :=
  match setting? t name with
  | none => .ok 0
  | some (.value (.integer n)) => .ok (wrap64 n)
  | some _ => .error .malformed

def tableSetting (t : Toml.Table) (name : String) : Except ConfigError Toml.Table :=
  match setting? t name with
  | none => .ok .empty
  | some (.table inner) => .ok inner
  | some _ => .error .malformed

-- The settings in a text; what is not set or empty has its default.
def parse (text : String) : Except ConfigError Config :=
  match Toml.parse text with
  | none => .error .malformed
  | some root => do
    let compile ← tableSetting root "compile"
    let log ← tableSetting root "log"
    let backend ← textSetting compile "backend"
    let contract ← textSetting compile "contract"
    let outDir ← textSetting compile "out-dir"
    let format ← boolSetting compile "format"
    let formatter ← textSetting compile "rustfmt"
    let jobs ← intSetting compile "jobs"
    let verbosity ← intSetting log "verbosity"
    let target ← if backend = "" then .ok (.ink .v5)
      else (Target.parse backend).mapError ConfigError.badTarget
    if jobs < 0 then throw (.badJobs jobs)
    return { target := target
             contract := contract
             outDir := if outDir = "" then "." else outDir
             format := format
             formatter := if formatter = "" then "rustfmt" else formatter
             jobs := if jobs = 0 then none else some jobs.toNat
             verbosity := verbosity }

-- Settings read from a file; the output directory is relative to the file.
def ofFile (path : String) (c : Config) : Config :=
  { c with
    path := path
    outDir := if Text.Path.isRooted c.outDir then c.outDir
      else Text.Path.join (Text.Path.dir path) c.outDir }

end Config

end RustContracts
