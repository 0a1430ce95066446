import RustContracts.Text.Quoted

-- Number literals: decimal, hexadecimal, with a fraction or an exponent, and with a unit. Values are
-- words of 256 bits.
namespace RustContracts.Solidity.Number

-- One more than the largest value of a word.
def wordLimit : Nat := 1 <<< 256

-- Why a literal denotes no word.
inductive Cause where
  -- the digits alone exceed a word
  | tooLarge
  | badHexDigit
  -- the bytes of a piece of the digits that is no decimal number
  | badDecimal (piece : List UInt8)
  -- nothing but a sign
  | noDigits
  | badExponent (text : String)
  | exponentTooLong (text : String)
  -- the product with the unit or with the power of ten exceeds a word
  | overflow
  | exponentOutOfRange
  | notInteger
deriving DecidableEq

def Cause.message : Cause → String
  | tooLarge => "hex number > 256 bits"
  | badHexDigit => "invalid hex string"
  | badDecimal piece => "strconv.ParseUint: parsing " ++ Text.quotedBytes piece ++ ": invalid syntax"
  | noDigits => "EOF"
  | badExponent text => "strconv.Atoi: parsing " ++ Text.quoted text ++ ": invalid syntax"
  | exponentTooLong text => "strconv.Atoi: parsing " ++ Text.quoted text ++ ": value out of range"
  | overflow => "does not fit in 256 bits"
  | exponentOutOfRange => "exponent out of range"
  | notInteger => "not an integer"

inductive NumberError where
  | unknownUnit (unit : String)
  -- the literal without its underscores
  | invalid (text : String) (cause : Cause)
deriving DecidableEq

def NumberError.message : NumberError → String
  | unknownUnit unit => "unknown unit " ++ Text.quoted unit
  | invalid text cause => "invalid number literal " ++ text ++ ": " ++ cause.message

-- How many of the smallest units one unit is.
def unitScale : List (String × Nat) :=
  [("", 1), ("wei", 1), ("gwei", Nat.pow 10 9), ("ether", Nat.pow 10 18), ("seconds", 1), ("minutes", 60),
   ("hours", 3600), ("days", 86400), ("weeks", 604800)]

-- The number that digits write, most significant first.
def ofDigits (base : Nat) (digits : List Nat) : Nat :=
  digits.foldl (fun n d => n * base + d) 0

def decimalDigit? (c : Char) : Option Nat :=
  if c.isDigit then some (c.toNat - '0'.toNat) else none

def hexDigit? (c : Char) : Option Nat :=
  if c.isDigit then some (c.toNat - '0'.toNat)
  else if 'a' ≤ c ∧ c ≤ 'f' then some (c.toNat - 'a'.toNat + 10)
  else if 'A' ≤ c ∧ c ≤ 'F' then some (c.toNat - 'A'.toNat + 10)
  else none

def mulChecked (a b : Nat) : Except Cause Nat :=
  if a * b < wordLimit then .ok (a * b) else .error .overflow

-- The value of hexadecimal digits, at most 64 of them without leading zeros.
def hexValue (digits : List Char) : Except Cause Nat :=
  let digits := digits.dropWhile (· == '0')
  if 64 < (String.ofList digits).utf8ByteSize then .error .tooLarge
  else
    match digits.mapM hexDigit? with
    | some ds => .ok (ofDigits 16 ds)
    | none => .error .badHexDigit

-- The pieces of nineteen bytes in which digits are read, from the least significant end.
def pieces : Nat → List UInt8 → List (List UInt8)
  | 0, _ => []
  | fuel + 1, bytes =>
    if bytes.length ≤ 19 then [bytes]
    else
      let cut := bytes.length - 19
      bytes.drop cut :: pieces fuel (bytes.take cut)

-- The first piece from the end that is no decimal number.
def badPiece (digits : List Char) : List UInt8 :=
  let bytes := Text.bytesOf digits
  let isDigit (b : UInt8) : Bool := 0x30 ≤ b && b ≤ 0x39
  ((pieces bytes.length bytes).find? fun p => !p.all isDigit).getD []

-- The value of decimal digits. A leading plus is allowed.
def decimalValue (digits : List Char) : Except Cause Nat :=
  let digits := match digits with
    | '+' :: rest => rest
    | ds => ds
  let significant := digits.dropWhile (· == '0')
  let digits := if significant.isEmpty then digits.drop (digits.length - 1) else significant
  if digits.isEmpty then .error .noDigits
  else if 78 < (String.ofList digits).utf8ByteSize then .error .tooLarge
  else if (String.ofList digits).utf8ByteSize = 78 ∧
      toString (wordLimit - 1) < String.ofList digits then .error .tooLarge
  else
    match digits.mapM decimalDigit? with
    | some ds => .ok (ofDigits 10 ds)
    | none => .error (.badDecimal (badPiece digits))

-- The digits of an exponent. Reading stops with an error at the first character that is no digit or
-- that leaves the range of 64-bit numbers.
def exponentDigits (text : String) : Nat → List Char → Except Cause Nat
  | n, [] => .ok n
  | n, c :: rest =>
    match decimalDigit? c with
    | none => .error (.badExponent text)
    | some d =>
      if 1 <<< 64 ≤ n * 10 + d then .error (.exponentTooLong text)
      else exponentDigits text (n * 10 + d) rest

-- An exponent with an optional sign, in the range of signed 64-bit numbers.
def exponent (cs : List Char) : Except Cause Int := do
  let text := String.ofList cs
  let (negative, digits) := match cs with
    | '-' :: rest => (true, rest)
    | '+' :: rest => (false, rest)
    | ds => (false, ds)
  if digits.isEmpty then throw (.badExponent text)
  let n ← exponentDigits text 0 digits
  if negative then
    if n ≤ 1 <<< 63 then return -(n : Int) else throw (.exponentTooLong text)
  else
    if n < 1 <<< 63 then return (n : Int) else throw (.exponentTooLong text)

-- A decimal literal times a scale. All digits are read as one number, scaled, and shifted by the
-- exponent less the length of the fraction, a difference in 64-bit arithmetic.
def decimal (cs : List Char) (scale : Nat) : Except Cause Nat := do
  let mantissa := cs.takeWhile fun c => c != 'e' && c != 'E'
  let power ← match cs.drop mantissa.length with
    | [] => pure 0
    | _ :: digits => exponent digits
  let whole := mantissa.takeWhile (· != '.')
  let fraction := mantissa.drop (whole.length + 1)
  let digits := (whole ++ fraction).dropWhile (· == '0')
  if digits.isEmpty then return 0
  let value ← mulChecked (← decimalValue digits) scale
  let shift := Int.bmod (power - (String.ofList fraction).utf8ByteSize) (1 <<< 64)
  if shift > 77 then throw .exponentOutOfRange
  if shift < -77 then throw .notInteger
  if shift ≥ 0 then mulChecked value (Nat.pow 10 shift.toNat)
  else
    let pow := Nat.pow 10 (-shift).toNat
    if value % pow = 0 then return value / pow else throw .notInteger

-- The value of a literal with a unit.
def parse (literal unit : String) : Except NumberError Nat :=
  let cs := literal.toList.filter (· != '_')
  match unitScale.lookup unit with
  | none => .error (.unknownUnit unit)
  | some scale =>
    let value : Except Cause Nat :=
      match cs with
      | '0' :: 'x' :: digits | '0' :: 'X' :: digits => do mulChecked (← hexValue digits) scale
      | _ => decimal cs scale
    match value with
    | .ok v => .ok v
    | .error cause => .error (.invalid (String.ofList cs) cause)

-- Whether a magnitude with a sign is in the range of an integer type of the given width. A signed
-- type without a width that words have holds nothing but zero, and that only with a sign.
def fits (v : Nat) (bits : Int) (signed negative : Bool) : Bool :=
  if signed then
    let limit : Nat := if 1 ≤ bits ∧ bits ≤ 256 then 1 <<< (bits - 1).toNat else 0
    if negative then v ≤ limit else v < limit
  else
    !negative && 0 ≤ bits && (v = 0 || v.log2 < bits)

end RustContracts.Solidity.Number
