-- The types of a resolved program.
namespace RustContracts.Program

-- A struct, enum or constant by the class that owns it and its name there; the owner is empty at
-- file level.
structure DeclRef where
  owner : String
  name : String
deriving DecidableEq, Inhabited

inductive Ty where
  | int (signed : Bool) (bits : Nat)
  | bool
  | address (payable : Bool)
  | string
  -- `bytes` for size zero, `bytesN` otherwise
  | bytes (size : Nat)
  | mapping (key value : Ty)
  -- a negative length marks an array that grows
  | array (elem : Ty) (length : Int)
  | struct (ref : DeclRef)
  | enum (ref : DeclRef)
  -- a contract, held as its address
  | contract (name : String)
  | tuple (elems : List Ty)
  -- an integer literal before it is given the type that its place asks for
  | literal
deriving Inhabited

namespace Ty

def uint256 : Ty := int false 256

def unit : Ty := tuple []

-- The name of an integer type.
def intText (signed : Bool) (bits : Nat) : String :=
  (if signed then "int" else "uint") ++ toString bits

mutual

def text : Ty → String
  | int signed bits => intText signed bits
  | bool => "bool"
  | address payable => if payable then "address payable" else "address"
  | string => "string"
  | bytes size => if size = 0 then "bytes" else "bytes" ++ toString size
  | mapping key value => "mapping(" ++ key.text ++ " => " ++ value.text ++ ")"
  | array elem length =>
    if length < 0 then elem.text ++ "[]" else elem.text ++ "[" ++ toString length ++ "]"
  | struct ref => ref.name
  | enum ref => ref.name
  | contract name => name
  | tuple elems => "(" ++ listText elems ++ ")"
  | literal => "int_const"

def listText : List Ty → String
  | [] => ""
  | [t] => t.text
  | t :: rest => t.text ++ ", " ++ listText rest

end

mutual

-- Whether two types are the same; payability of addresses does not count.
def same : Ty → Ty → Bool
  | int s n, t =>
    match t with
    | int s' n' => s == s' && n == n'
    | _ => false
  | address _, t =>
    match t with
    | address _ => true
    | _ => false
  | bytes n, t =>
    match t with
    | bytes n' => n == n'
    | _ => false
  | mapping k v, t =>
    match t with
    | mapping k' v' => k.same k' && v.same v'
    | _ => false
  | array e n, t =>
    match t with
    | array e' n' => n == n' && e.same e'
    | _ => false
  | struct r, t =>
    match t with
    | struct r' => r == r'
    | _ => false
  | enum r, t =>
    match t with
    | enum r' => r == r'
    | _ => false
  | contract c, t =>
    match t with
    | contract c' => c == c'
    | _ => false
  | tuple es, t =>
    match t with
    | tuple es' => sameList es es'
    | _ => false
  | bool, t => t.text == "bool"
  | string, t => t.text == "string"
  | literal, t => t.text == "int_const"

def sameList : List Ty → List Ty → Bool
  | [], [] => true
  | a :: as, b :: bs => a.same b && sameList as bs
  | _, _ => false

end

def isMapping : Ty → Bool
  | mapping _ _ => true
  | _ => false

def isInteger : Ty → Bool
  | int _ _ | literal => true
  | _ => false

def isLiteral : Ty → Bool
  | literal => true
  | _ => false

def isUnit : Ty → Bool
  | tuple [] => true
  | _ => false

-- The types of the keys that lead to a value that is no mapping.
def mappingKeys : Ty → List Ty
  | mapping key value => key :: value.mappingKeys
  | _ => []

-- The value behind all keys.
def mappingValue : Ty → Ty
  | mapping _ value => value.mappingValue
  | t => t

def mappingDepth (t : Ty) : Nat := t.mappingKeys.length

-- A width that is written in decimal digits and fits a machine integer.
def width? (digits : String) : Option Nat :=
  if digits.isEmpty || !digits.all Char.isDigit then none
  else
    let n := digits.foldl (fun n c => n * 10 + (c.toNat - '0'.toNat)) 0
    if n < 1 <<< 63 then some n else none

-- The type with an elementary name: none when the name is not elementary, an error when its width
-- does not exist.
def elementary? (name : String) : Option (Except String Ty) :=
  match name with
  | "bool" => some (.ok bool)
  | "address" => some (.ok (address false))
  | "string" => some (.ok string)
  | "bytes" => some (.ok (bytes 0))
  | "byte" => some (.ok (bytes 1))
  | "uint" => some (.ok uint256)
  | "int" => some (.ok (int true 256))
  | _ =>
    let sized (stem : String) (build : Nat → Except String Ty) : Option (Except String Ty) :=
      (width? (name.drop stem.length).toString).map build
    let integer (stem : String) (signed : Bool) (n : Nat) : Except String Ty :=
      if n < 8 || 256 < n || n % 8 != 0 then
        .error (stem ++ toString n ++ " is not a valid integer width")
      else .ok (int signed n)
    if name.startsWith "uint" then sized "uint" (integer "uint" false)
    else if name.startsWith "int" then sized "int" (integer "int" true)
    else if name.startsWith "bytes" then
      sized "bytes" fun n =>
        if n < 1 || 32 < n then
          .error ("bytes" ++ toString n ++ " is not a valid fixed bytes width")
        else .ok (bytes n)
    else none

end Ty

end RustContracts.Program
