import RustContracts.Abi.Keccak
import RustContracts.Program.Contract
import RustContracts.Text.Quoted

-- The signatures by which callers from outside name functions, and their selectors.
namespace RustContracts.Abi

open Program

mutual

-- The name of a type in a signature; `structText` names structs, where their names have an end.
def canonicalWith (structText : DeclRef → Option String) : Ty → Option String
  | .address _ => some "address"
  | .contract _ => some "address"
  | .enum _ => some "uint8"
  | .array elem length => do
    let name ← canonicalWith structText elem
    return name ++ (if length < 0 then "[]" else "[" ++ toString length ++ "]")
  | .struct r => structText r
  | .tuple elems => do
    let names ← canonicalNames structText elems
    return "(" ++ ",".intercalate names ++ ")"
  | t => some t.text

def canonicalNames (structText : DeclRef → Option String) : List Ty → Option (List String)
  | [] => some []
  | t :: rest => do
    let name ← canonicalWith structText t
    let names ← canonicalNames structText rest
    return name :: names

end

-- A struct is named by the types of its fields. Structs that are nested more than `depth` deep are within themselves,
-- and their names have no end.
def structText (p : Package) : Nat → DeclRef → Option String
  | 0, _ => none
  | depth + 1, r => do
    let fields := ((p.struct? r).map (·.fields)).getD []
    let names ← canonicalNames (structText p depth) (fields.map Param.type)
    return "(" ++ ",".intercalate names ++ ")"

def canonical (p : Package) (t : Ty) : Option String :=
  canonicalWith (structText p (p.structCount + 1)) t

-- `name(type,type)`
def signature (p : Package) (name : String) (params : List Param) : Option String := do
  let names ← canonicalNames (structText p (p.structCount + 1)) (params.map Param.type)
  return name ++ "(" ++ ",".intercalate names ++ ")"

-- The first four bytes of the hash of the signature.
def selector (p : Package) (name : String) (params : List Param) : Option (List UInt8) :=
  (signature p name params).map fun text => (Keccak.hash text.toUTF8.toList).take 4

def selectorText (bytes : List UInt8) : String :=
  String.join (bytes.map fun b => Text.hex 2 b.toNat)

end RustContracts.Abi
