import RustContracts.Text.Printable

-- Texts in double quotes, as messages show a piece of the source: control characters by escapes,
-- what cannot be printed by its code point.
namespace RustContracts.Text

-- The lower-case hexadecimal digits of `n`, at least `width` of them.
def hex (width n : Nat) : String :=
  let digits := Nat.toDigits 16 n
  String.ofList (List.replicate (width - digits.length) '0' ++ digits)

-- How one character is shown between the quotes.
def quotedChar (c : Char) : String :=
  match c.toNat with
  | 0x07 => "\\a"
  | 0x08 => "\\b"
  | 0x0c => "\\f"
  | 0x0a => "\\n"
  | 0x0d => "\\r"
  | 0x09 => "\\t"
  | 0x0b => "\\v"
  | 0x22 => "\\\""
  | 0x5c => "\\\\"
  | n =>
    if isPrintable c then c.toString
    else if n < 0x20 || n = 0x7f then "\\x" ++ hex 2 n
    else if n < 0x10000 then "\\u" ++ hex 4 n
    else "\\U" ++ hex 8 n

-- A text between double quotes.
def quoted (text : String) : String :=
  "\"" ++ String.join (text.toList.map quotedChar) ++ "\""

-- The bytes of a text.
def bytesOf (cs : List Char) : List UInt8 := (String.ofList cs).toUTF8.toList

-- The first character of bytes, and how many of them it takes.
def firstChar? (bytes : List UInt8) : Option (Char × Nat) :=
  [1, 2, 3, 4].findSome? fun n =>
    if bytes.length < n then none
    else
      match (String.fromUTF8? ⟨(bytes.take n).toArray⟩).map String.toList with
      | some [c] => some (c, n)
      | _ => none

-- Bytes between quotes; those that are no character are shown in hexadecimal. `skip` bytes belong to
-- the character before them.
def quotedBytesFrom (skip : Nat) : List UInt8 → String
  | [] => ""
  | b :: rest =>
    match skip with
    | n + 1 => quotedBytesFrom n rest
    | 0 =>
      match firstChar? (b :: rest) with
      | some (c, n) => quotedChar c ++ quotedBytesFrom (n - 1) rest
      | none => "\\x" ++ hex 2 b.toNat ++ quotedBytesFrom 0 rest

def quotedBytes (bytes : List UInt8) : String := "\"" ++ quotedBytesFrom 0 bytes ++ "\""

end RustContracts.Text
