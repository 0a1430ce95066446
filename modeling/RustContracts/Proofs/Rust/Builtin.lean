import Mathlib.Algebra.Group.Int.Defs
import Mathlib.Algebra.Group.Nat.Defs
import RustContracts.Proofs.Rust.Machine

-- Names, literals, operators, functions and methods that code can rely on, up to what the host decides.
-- Moves, borrows and clones are not told apart: a value is what it is wherever it stands.
namespace RustContracts.Rust

-- Names and literals.

-- A path such as `DataKey::Total` names an item and is no variable.
def isPath (name : String) : Bool := name.toList.contains ':'

-- A name that no variable has stands for itself. The contract is no value.
def readName (name : String) : Run Value := ⟨fun m =>
  if name = "self" then ⟨.error .stuck, m, []⟩
  else if isPath name then ⟨.ok (.variant name []), m, []⟩
  else
    match m.locals.lookup name with
    | some (.value v) => ⟨.ok v, m, []⟩
    | some (.reference _ _) => ⟨.error .stuck, m, []⟩
    | none => ⟨.ok (.variant name []), m, []⟩⟩

def decimal (digits : List Char) : Nat := Nat.ofDigitChars 10 digits 0

-- A number in decimal digits, perhaps with a sign before and a type behind them.
def number? (text : List Char) : Option Int :=
  let body := if text.head? = some '-' then text.tail else text
  let digits := body.takeWhile Char.isDigit
  if digits.isEmpty || (body.dropWhile Char.isDigit).head? = some 'x' then none
  else some (if text.head? = some '-' then -decimal digits else decimal digits)

-- `[0u8; n]`
def zeroBytes? (text : List Char) : Option Value :=
  if text.take 6 = "[0u8; ".toList then
    some (.list (List.replicate (decimal ((text.drop 6).takeWhile Char.isDigit)) (.int 0)))
  else none

def literal? (h : Host) (text : String) : Option Value :=
  if text = "true" then some (.bool true)
  else if text = "false" then some (.bool false)
  else if text = "()" then some .unit
  else if text = "\"\"" then some (.text "")
  else
    match zeroBytes? text.toList, number? text.toList with
    | some v, _ => some v
    | none, some n => some (.int n)
    | none, none => h.literal text

-- Operators.

-- The number of bits of an integer type and whether it has a sign; addresses of code are 32 bits wide.
def intType? : String → Option (Bool × Nat)
  | "u8" => some (false, 8)
  | "u16" => some (false, 16)
  | "u32" | "usize" => some (false, 32)
  | "u64" => some (false, 64)
  | "u128" => some (false, 128)
  | "i8" => some (true, 8)
  | "i16" => some (true, 16)
  | "i32" => some (true, 32)
  | "i64" => some (true, 64)
  | "i128" => some (true, 128)
  | _ => none

-- Conversions between integer types drop the high bits.
def castTo (h : Host) (type : String) (v : Value) : Option Value :=
  match v, intType? type with
  | .int n, some (false, bits) => some (.int (n % 2 ^ bits))
  | .int n, some (true, bits) => some (.int (Int.bmod n (2 ^ bits)))
  | v, _ => h.cast type v

-- References are the values that they refer to.
def applyUnary (h : Host) (op : String) (v : Value) : Option Value :=
  if op = "&" then some v
  else
    match op, v with
    | "!", .bool b => some (.bool !b)
    | op, v => h.unary op v

-- Functions and methods.

def endsWith (name suffix : String) : Bool := suffix.toList.isSuffixOf name.toList

def startsWith (name start : String) : Bool := start.toList.isPrefixOf name.toList

-- Functions whose value is what they are given behind the environment.
def hostConversions : List String :=
  ["U256::from_u128", "U256::from_u32", "I256::from_i128", "I256::from_u32", "String::from_str",
   "BytesN::from_array"]

-- Functions that make clients of other contracts: `new` of a type that is no item of another.
def isClient (path : String) : Bool :=
  endsWith path "Client::new" &&
    !(path.toList.take (path.toList.length - "Client::new".length)).contains ':'

-- Items of an enum or of the contract make none.
theorem isClient_append {scope : String} (hscope : ':' ∈ scope.toList ∧ 'C' ∉ scope.toList)
    (name : String) : isClient (scope ++ name) = false := by
  rw [Bool.eq_false_iff]
  intro hclient
  simp only [isClient, endsWith, Bool.and_eq_true, List.isSuffixOf_iff_suffix] at hclient
  obtain ⟨⟨front, heq⟩, hfront⟩ := hclient
  have hlen : (scope ++ name).toList.length - "Client::new".length = front.length := by
    have hlen := congrArg List.length heq
    rw [List.length_append] at hlen
    have : "Client::new".toList.length = "Client::new".length := rfl
    omega
  rw [hlen, ← heq, List.take_left] at hfront
  rw [String.toList_append] at heq
  rcases List.append_eq_append_iff.mp heq with ⟨rest, hscope', -⟩ | ⟨rest, hfront', -⟩
  · cases rest with
    | nil => simp_all
    | cons c rest => simp_all
  · simp_all

-- A client is no value: it is held by a variable.
def callFunction (h : Host) (path : String) (args : List Value) : Run Value :=
  if isClient path then Run.exit .stuck
  else if startsWith path "DataKey::" || startsWith path "Error::" || path == "Ok" || path == "Err" then
    pure (.variant path args)
  else if hostConversions.contains path then
    match args with
    | [_, v] => pure v
    | _ => Run.exit .stuck
  else if path == "U256::from" || path == "String::from" then
    match args with
    | [v] => pure v
    | _ => Run.exit .stuck
  else if path == "Vec::new" || path == "Bytes::new" then pure (.list [])
  else Run.effect (h.function path args)

def callBang (h : Host) (name : String) (args : List Value) : Run Value :=
  if name = "vec" then
    match args with
    | .variant "env" [] :: items => pure (.list items)
    | items => pure (.list items)
  else if name = "panic_with_error" then Run.exit .panic
  else Run.effect (h.function (name ++ "!") args)

-- An absent entry of a mapping knows the default of its type.
def optionOf (default : List Value) : Option Value → Value
  | some v => .variant "Some" [v]
  | none => .variant "None" default

def unwrap : Value → Run Value
  | .variant "Some" [v] => pure v
  | .variant "None" _ => Run.exit .panic
  | _ => Run.exit .stuck

def unwrapOr (other : Value) : Value → Run Value
  | .variant "Some" [v] => pure v
  | .variant "None" _ => pure other
  | _ => Run.exit .stuck

def unwrapOrDefault : Value → Run Value
  | .variant "Some" [v] => pure v
  | .variant "None" [v] => pure v
  | _ => Run.exit .stuck

def readCell (c : Cell) (default : List Value) : Run Value :=
  ⟨fun m => ⟨.ok (optionOf default (m.store c)), m, []⟩⟩

def writeCell (c : Cell) (v : Value) : Run Value :=
  ⟨fun m => ⟨.ok .unit, { m with store := m.store.write c v }, []⟩⟩

def getMethod (v : Value) (args : List Value) : Run Value :=
  match v, args with
  | .list items, [.int i] => pure (optionOf [] (if 0 ≤ i then items[i.toNat]? else none))
  | _, _ => Run.exit .stuck

-- Values of the contract's own storage, by keys.
def persistentMethod (h : Host) (method : String) (v : Value) (args : List Value) : Run Value :=
  match v, args with
  | .variant "env.persistent" [], [.variant path data] => readCell ⟨path, data⟩ []
  | .variant "env.persistent" [], [.variant path data, v] => writeCell ⟨path, data⟩ v
  | v, args => Run.effect (h.method method v args)

-- Mappings are no values; their entries are read and written one at a time.
def callMapping (h : Host) (f : String) (method : String) (args : List Value) : Run Value :=
  match method, args with
  | "get", [k] => readCell ⟨f, [k]⟩ [(h.field f).zero]
  | "insert", [k, v] => writeCell ⟨f, [k]⟩ v
  | _, _ => Run.exit .stuck

-- Narrowing of wide integers: one gives an option, the other stops.
def narrowMethod (h : Host) (method : String) (v : Value) : Run Value :=
  match method, v with
  | "to_u128", .int n => pure (optionOf [] (if 0 ≤ n ∧ n < 2 ^ 128 then some (.int n) else none))
  | "as_usize", .int n => if 0 ≤ n ∧ n < 2 ^ 32 then pure (.int n) else Run.exit .panic
  | method, v => Run.effect (h.method method v [])

def lengthMethod (h : Host) (v : Value) : Run Value :=
  match v with
  | .list items => pure (.int items.length)
  | v => Run.effect (h.method "len" v [])

def callMethod (h : Host) (v : Value) (method : String) (args : List Value) : Run Value :=
  if startsWith method "get::<" || method == "set" then persistentMethod h method v args
  else if method == "clone" || method == "into" then pure v
  else if method == "unwrap" then unwrap v
  else if method == "unwrap_or" then unwrapOr (args.headD .unit) v
  else if method == "unwrap_or_default" then unwrapOrDefault v
  else if method == "get" then getMethod v args
  else if method == "len" then lengthMethod h v
  else if method == "to_u128" || method == "as_usize" then narrowMethod h method v
  else if v = .variant "env" [] ∧ method = "storage" then pure (.variant "env.storage" [])
  else if v = .variant "env.storage" [] ∧ method = "persistent" then
    pure (.variant "env.persistent" [])
  else Run.effect (h.method method v args)

-- Methods that change the place on which they are called.

def isMutator (method : String) : Bool :=
  ["set", "push", "push_back", "pop", "pop_back"].contains method

def mutation (method : String) (args : List Value) : Value → Option Value
  | .list items =>
    match args with
    | [] => some (.list items.dropLast)
    | [v] => if method == "push" || method == "push_back" then some (.list (items ++ [v])) else none
    | [.int i, v] =>
      if method == "set" && 0 ≤ i && i.toNat < items.length then some (.list (items.set i.toNat v))
      else none
    | _ => none
  | _ => none

def Expr.isSelf : Expr → Bool
  | .ident name => name == "self"
  | _ => false

def Expr.isPlace : Expr → Bool
  | .ident _ | .field _ _ | .index _ _ => true
  | _ => false

-- The reference that a variable holds.
def Expr.reference? (m : Machine) : Expr → Option (String × Value)
  | .ident name =>
    if isPath name then none
    else
      match m.locals.lookup name with
      | some (.reference type address) => some (type, address)
      | _ => none
  | _ => none

-- The mapping that an expression stands for.
def Expr.mapping? (h : Host) : Expr → Option String
  | .field target name => if target.isSelf && (h.field name).isMapping then some name else none
  | _ => none

-- Fields of the contract are in storage.
def storageField (h : Host) (name : String) : Run Value := ⟨fun m =>
  if (h.field name).isMapping then ⟨.error .stuck, m, []⟩
  else ⟨.ok ((m.store ⟨name, []⟩).getD (h.field name).zero), m, []⟩⟩

def memberOf (v : Value) (name : String) : Run Value := Run.ofOption .stuck (v.get? [.field name])

def elementOf (v key : Value) : Run Value :=
  match v, key with
  | .list items, .int i => Run.ofOption .panic (if 0 ≤ i then items[i.toNat]? else none)
  | _, _ => Run.exit .stuck

namespace Place

def ofField (h : Host) (name : String) : Place := ⟨.cell ⟨name, []⟩ (h.field name).zero, []⟩

def member (p : Place) (name : String) : Place := ⟨p.root, p.path ++ [.field name]⟩

def element (p : Place) (key : Value) : Run Place :=
  match key with
  | .int i => if 0 ≤ i then pure ⟨p.root, p.path ++ [.index i.toNat]⟩ else Run.exit .panic
  | _ => Run.exit .stuck

end Place

end RustContracts.Rust
