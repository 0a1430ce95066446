import RustContracts.Text.Case
import RustContracts.Text.Quoted

-- The frameworks that contracts can be written for.
namespace RustContracts

-- Version 5 has 32-byte accounts and 128-bit balances, version 6 has 20-byte addresses and 256-bit
-- balances.
inductive InkVersion where
  | v5
  | v6
deriving DecidableEq, Inhabited

inductive Target where
  | ink (version : InkVersion)
  | soroban
deriving DecidableEq, Inhabited

namespace Target

def name : Target → String
  | ink .v5 => "ink"
  | ink .v6 => "ink-v6"
  | soroban => "soroban"

-- In order of their names.
def all : List Target := [ink .v5, ink .v6, soroban]

def ofName? (name : String) : Option Target := all.find? (·.name = name)

theorem ofName?_name (t : Target) : ofName? t.name = some t := by
  cases t with
  | ink v => cases v <;> decide
  | soroban => decide

-- The lower case of a letter. Two letters outside ASCII have one inside it.
def lowerChar (c : Char) : Char :=
  if c.toNat = 0x130 then 'i' else if c.toNat = 0x212a then 'k' else c.toLower

-- The target that a name denotes; case and blanks around it do not count.
def parse (text : String) : Except String Target :=
  match ofName? (String.ofList ((Text.trimBlank text.toList).map lowerChar)) with
  | some t => .ok t
  | none =>
    .error ("unknown backend " ++ Text.quoted text ++ " (available: " ++
      ", ".intercalate (all.map name) ++ ")")

end Target

end RustContracts
