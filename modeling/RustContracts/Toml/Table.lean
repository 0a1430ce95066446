import RustContracts.Toml.Token

-- Settings files as tables of values.
namespace RustContracts.Toml

mutual

-- Numbers are integers of 64 bits, with sign or without.
inductive Value where
  | string (text : String)
  | bool (value : Bool)
  | integer (n : Int)
  -- a float or a time
  | other
  | array (elements : List Value)

inductive Node where
  | value (v : Value)
  | table (t : Table)
  -- the tables of `[[...]]`, the last first
  | tables (ts : List Table)

structure Table where
  -- a table in braces cannot be added to
  isInline : Bool
  entries : List (String × Node)

end

namespace Table

def empty : Table := ⟨false, []⟩

def get? (t : Table) (key : String) : Option Node := t.entries.lookup key

def put (t : Table) (key : String) (n : Node) : Table :=
  { t with entries := (key, n) :: t.entries.filter (·.1 != key) }

end Table

-- Keys.

-- Text up to a quote, and what follows it.
def quotedPart (quote : Char) (cs : List Char) : Option (List Char × List Char) :=
  literalString [quote] cs

-- The parts of a dotted key.
def keyParts (cs : List Char) : Option (List String) :=
  match cs with
  | [] => some []
  | '"' :: rest =>
    match quotedPart '"' rest with
    | some (part, more) =>
      if _h : more.length ≤ rest.length then (keyParts more).map (String.ofList part :: ·) else none
    | none => none
  | '\'' :: rest =>
    match quotedPart '\'' rest with
    | some (part, more) =>
      if _h : more.length ≤ rest.length then (keyParts more).map (String.ofList part :: ·) else none
    | none => none
  | '.' :: rest =>
    match rest with
    | [] => none
    | c :: more =>
      if isBareChar c || c == '\'' || c == '"' || c == ' ' then keyParts (c :: more) else none
  | c :: rest =>
    if isSpace c then keyParts rest
    else if isBareChar c then
      let part := String.ofList (c :: rest.takeWhile isBareChar)
      let behind := rest.dropWhile isBareChar
      match behind.dropWhile isSpace with
      | [] => some [part]
      | d :: more =>
        if d == '.' then
          if _h : (d :: more).length ≤ rest.length then (keyParts (d :: more)).map (part :: ·)
          else none
        else none
    else none
termination_by cs.length

-- A key has at least one part.
def parseKey (text : String) : Option (List String) :=
  (keyParts text.toList).filter (!·.isEmpty)

-- Numbers.

-- Underscores stand between digits only.
def underscoresOk (isDigit : Char → Bool) : Bool → List Char → Bool
  | _, [] => true
  | before, c :: rest =>
    (c != '_' || (before && !rest.isEmpty)) && underscoresOk isDigit (isDigit c) rest

def digitsValue (base : Nat) (digits : List Char) : Nat :=
  digits.foldl (fun n c => n * base + (Solidity.hexValue? c).getD 0) 0

-- An integer that fits 64 bits. A decimal number of three digits or more does not begin with a zero.
def integerValue (text : List Char) : Option Int :=
  let bare := text.filter (· != '_')
  let based (base : Nat) (isDigit : Char → Bool) (digits : List Char) : Option Int :=
    if !underscoresOk isDigit false text || digits.isEmpty then none
    else
      let n := digitsValue base digits
      if n < 1 <<< 64 then some n else none
  match bare with
  | '0' :: 'x' :: digits => based 16 Solidity.isHexChar digits
  | '0' :: 'o' :: digits => based 8 Char.isDigit digits
  | '0' :: 'b' :: digits => based 2 Char.isDigit digits
  | '0' :: _ :: _ :: _ => none
  | '-' :: digits =>
    if !underscoresOk Char.isDigit false text then none
    else
      let n := digitsValue 10 digits
      if n ≤ 1 <<< 63 then some (-(n : Int)) else none
  | '+' :: digits =>
    if !underscoresOk Char.isDigit false text then none
    else
      let n := digitsValue 10 digits
      if n < 1 <<< 63 then some n else none
  | digits => based 10 Char.isDigit digits

-- The digits of a float before an exponent, without the point.
def floatDigits (text : List Char) : List Char :=
  (text.takeWhile fun c => c != 'e' && c != 'E').filter Char.isDigit

-- The exponent of a float, if it has one.
def floatExponent? (text : List Char) : Option (List Char) :=
  match text.dropWhile fun c => c != 'e' && c != 'E' with
  | [] => none
  | _ :: rest => some rest

-- A float has digits on both sides of its exponent mark and is not larger than the largest number of
-- 64 bits.
def isFloat (text : List Char) : Bool :=
  let bare := text.filter (· != '_')
  let digits := floatDigits bare
  let places := ((bare.takeWhile fun c => c != 'e' && c != 'E').dropWhile (· != '.')).length - 1
  let size := (digits.dropWhile (· == '0')).length
  let fits (e : Int) : Bool :=
    size = 0 || e + size ≤ 308 ||
      (e + size ≤ 310 &&
        digitsValue 10 digits * Nat.pow 10 (e + 400).toNat < ((1 <<< 1024) - (1 <<< 970)) * Nat.pow 10 400)
  underscoresOk Char.isDigit false text && !digits.isEmpty &&
    match floatExponent? bare with
    | none => fits (-places)
    | some e =>
      let (negative, ds) := match e with
        | '-' :: ds => (true, ds)
        | '+' :: ds => (false, ds)
        | ds => (false, ds)
      !ds.isEmpty && ds.all Char.isDigit &&
        fits ((if negative then -1 else 1) * (digitsValue 10 ds : Int) - places)

-- Tables in tables.

-- The table that a node leads to: of several the last.
def Node.table? : Node → Option Table
  | .table t => some t
  | .tables (t :: _) => some t
  | _ => none

-- A node with the table that it leads to replaced.
def Node.withTable (t : Table) : Node → Node
  | .tables (_ :: ts) => .tables (t :: ts)
  | _ => .table t

-- Changes the table at a path; tables that are missing on the way are made. None when something else
-- stands in the way or the change is refused.
def Table.alter (f : Table → Option Table) (t : Table) : List String → Option Table
  | [] => f t
  | key :: path =>
    match t.get? key with
    | none => do
      let inner ← Table.alter f ⟨t.isInline, []⟩ path
      return t.put key (.table inner)
    | some n => do
      let inner ← Table.alter f (← n.table?) path
      return t.put key (n.withTable inner)

-- The node at a path, if tables lead there.
def Table.at? (t : Table) : List String → Option Node
  | [] => some (.table t)
  | [key] => t.get? key
  | key :: path => (t.get? key).bind Node.table? |>.bind (Table.at? · path)

-- Puts a node at a path. A value on the way is passed over.
def Table.set (t : Table) (n : Node) : List String → Table
  | [] => t
  | [key] => t.put key n
  | key :: path =>
    match t.get? key with
    | none => t.put key (.table (Table.set .empty n path))
    | some (.value _) => Table.set t n path
    | some m =>
      match m.table? with
      | some inner => t.put key (m.withTable (inner.set n path))
      | none => t.put key (.tables [Table.set .empty n path])

-- Parsing.

-- A list of nodes as one: tables only make `tables`.
def nodesNode (ns : List Node) : Node :=
  let inner := ns.filterMap fun
    | .table t => some t
    | _ => none
  if !ns.isEmpty && inner.length = ns.length then .tables inner.reverse
  else .value (.array [])

mutual

-- A value at the front of tokens, and what follows it; `depth` bounds how many calls are nested, which
-- is no more than two for each token.
def parseValue : Nat → List Token → Option (Node × List Token)
  | 0, _ => none
  | depth + 1, ts =>
    match ts with
    | .string s :: rest => some (.value (.string s), rest)
    | .bool b :: rest => some (.value (.bool b), rest)
    | .integer text :: rest => (integerValue text).map fun n => (.value (.integer n), rest)
    | .float text :: rest => if isFloat text then some (.value .other, rest) else none
    | .special :: rest => some (.value .other, rest)
    | .time :: rest => some (.value .other, rest)
    | .leftBracket :: rest =>
      (parseElements depth rest).map fun (ns, rest) => (nodesNode ns, rest)
    | .leftBrace :: rest =>
      (parseFields depth .empty rest).map fun (t, rest) =>
        (.table { t with isInline := true }, rest)
    | _ => none

-- The elements of an array up to its bracket.
def parseElements : Nat → List Token → Option (List Node × List Token)
  | 0, _ => none
  | depth + 1, ts =>
    match ts with
    | .rightBracket :: rest => some ([], rest)
    | ts => do
      let (n, rest) ← parseValue depth ts
      match rest with
      | .comma :: rest =>
        let (ns, rest) ← parseElements depth rest
        return (n :: ns, rest)
      | .rightBracket :: rest => return ([n], rest)
      | _ => none

-- The fields of a table up to its brace, with commas between them.
def parseFields : Nat → Table → List Token → Option (Table × List Token)
  | 0, _, _ => none
  | depth + 1, t, ts =>
    match ts with
    | .rightBrace :: rest => some (t, rest)
    | .key text :: .equal :: rest => do
      let path ← parseKey text
      let (n, rest) ← parseValue depth rest
      let t := t.set n path
      match rest with
      | .rightBrace :: rest => return (t, rest)
      | .comma :: .key text :: rest => parseFields depth t (.key text :: rest)
      | _ => none
    | _ => none

end

structure Draft where
  root : Table := .empty
  -- where keys go that are not dotted
  current : List String := []
  -- the headers seen so far, as written
  seen : List String := []

-- `key = value`. A key is given once.
def Draft.assign (d : Draft) (key : List String) (n : Node) : Option Draft := do
  let last ← key.getLast?
  let root ← d.root.alter (fun t =>
    if t.isInline || (t.get? last).isSome then none else some (t.put last n))
    (d.current ++ key.dropLast)
  return { d with root := root }

-- `[name]`. A table in braces cannot be opened again; one in a list can.
def Draft.openTable (d : Draft) (name : String) : Option Draft := do
  if d.seen.contains name then none
  else
    let path ← parseKey name
    let root ← d.root.alter some path
    match root.at? path with
    | some (.table t) => if t.isInline then none else pure ()
    | _ => pure ()
    return { root := root, current := path, seen := d.seen ++ [name] }

-- `[[name]]` adds a table. Values on the way are passed over. The headers of tables inside it may be
-- used again.
def Draft.openTableArray (d : Draft) (name : String) : Option Draft := do
  let path ← parseKey name
  let root := (d.root.alter some path.dropLast).getD d.root
  let tables ← match root.at? path with
    | none => some []
    | some (.tables ts) => some ts
    | some _ => none
  let seen := d.seen.filter fun s => !s.startsWith (name ++ ".")
  return { root := root.set (.tables (.empty :: tables)) path
           current := path
           seen := if seen.getLast? = some name then seen else seen ++ [name] }

def parseLines (d : Draft) : List Token → Option Draft
  | [] => some d
  | .table name :: rest => do parseLines (← d.openTable name) rest
  | .tableArray name :: rest => do parseLines (← d.openTableArray name) rest
  | .key text :: .equal :: rest =>
    match parseKey text, parseValue (2 * rest.length + 2) rest with
    | some key, some (n, more) =>
      if _h : more.length ≤ rest.length then do parseLines (← d.assign key n) more else none
    | _, _ => none
  | _ => none
termination_by ts => ts.length

-- The table that a text denotes; none when it is not well-formed.
def parse (text : String) : Option Table := do
  let ts ← tokens text
  let d ← parseLines {} ts
  return d.root

end RustContracts.Toml
