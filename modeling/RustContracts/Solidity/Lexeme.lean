import RustContracts.Text.Position
import RustContracts.Text.Quoted

-- Splitting a source text into lexemes. The rules are tried in a fixed order and the first that
-- applies decides, so the lexemes cover the text without gap.
namespace RustContracts.Solidity

open Text (Position)

inductive LexemeKind where
  | whitespace
  | comment
  | pragma
  | string
  | number
  | ident
  | operator
  | punctuation
deriving DecidableEq, Inhabited

structure Lexeme where
  kind : LexemeKind
  -- the characters as written, quotes included
  text : String
  start : Position
deriving DecidableEq, Inhabited

namespace Lexeme

-- The place right after the lexeme.
def stop (l : Lexeme) : Position := l.start.advanceOver l.text.toList

end Lexeme

-- Character classes.

def isSpaceChar (c : Char) : Bool := c == ' ' || c == '\t' || c == '\r' || c == '\n'

def isWordChar (c : Char) : Bool := c.isAlphanum || c == '_'

def isIdentStart (c : Char) : Bool := c.isAlpha || c == '_' || c == '$'

def isIdentChar (c : Char) : Bool := c.isAlphanum || c == '_' || c == '$'

def isHexChar (c : Char) : Bool :=
  c.isDigit || ('a' ≤ c && c ≤ 'f') || ('A' ≤ c && c ≤ 'F')

-- How many characters at the front satisfy `p`.
def spanLength (p : Char → Bool) (cs : List Char) : Nat := (cs.takeWhile p).length

-- The rules. Each gives the length of its lexeme at the front of the text, zero when it does not
-- apply.

-- The length up to and with the first `*/`.
def blockCommentEnd : List Char → Option Nat
  | [] => none
  | '*' :: '/' :: _ => some 2
  | _ :: rest => (blockCommentEnd rest).map (· + 1)

def commentLength : List Char → Nat
  | '/' :: '/' :: rest => 2 + spanLength (· != '\n') rest
  | '/' :: '*' :: rest =>
    match blockCommentEnd rest with
    | some n => 2 + n
    | none => 0
  | _ => 0

-- A pragma is kept whole up to its semicolon; its contents are not read.
def pragmaLength (cs : List Char) : Nat :=
  let word := "pragma".toList
  if word.isPrefixOf cs then
    let rest := cs.drop word.length
    if rest.head?.any isWordChar then 0
    else
      let n := spanLength (· != ';') rest
      if n < rest.length then word.length + n + 1 else 0
  else 0

-- The length up to and with the first `quote` that no backslash protects. A backslash protects any
-- character but a line break.
def stringEnd (quote : Char) : List Char → Option Nat
  | [] => none
  | ['\\'] => none
  | '\\' :: c :: rest => if c = '\n' then none else (stringEnd quote rest).map (· + 2)
  | c :: rest => if c = quote then some 1 else (stringEnd quote rest).map (· + 1)

def stringLength : List Char → Nat
  | '"' :: rest => ((stringEnd '"' rest).map (· + 1)).getD 0
  | '\'' :: rest => ((stringEnd '\'' rest).map (· + 1)).getD 0
  | _ => 0

def hexNumberLength : List Char → Nat
  | '0' :: x :: rest =>
    let n := spanLength (fun c => isHexChar c || c == '_') rest
    if (x == 'x' || x == 'X') && 0 < n then 2 + n else 0
  | _ => 0

-- The length of a fraction `.5_0` at the front.
def fractionLength : List Char → Nat
  | '.' :: rest =>
    let n := spanLength (fun c => c.isDigit || c == '_') rest
    if 0 < n then 1 + n else 0
  | _ => 0

-- The length of an exponent `e18` at the front.
def exponentLength : List Char → Nat
  | e :: rest =>
    let n := spanLength Char.isDigit rest
    if (e == 'e' || e == 'E') && 0 < n then 1 + n else 0
  | [] => 0

def decimalLength : List Char → Nat
  | [] => 0
  | c :: rest =>
    if c.isDigit then
      let whole := 1 + spanLength (fun c => c.isDigit || c == '_') rest
      let fraction := fractionLength ((c :: rest).drop whole)
      whole + fraction + exponentLength ((c :: rest).drop (whole + fraction))
    else 0

def numberLength (cs : List Char) : Nat :=
  let n := hexNumberLength cs
  if 0 < n then n else decimalLength cs

def identLength : List Char → Nat
  | [] => 0
  | c :: rest => if isIdentStart c then 1 + spanLength isIdentChar rest else 0

-- Operators of two characters come before those of one.
def operators : List String :=
  ["**", "=>", "==", "!=", "<=", ">=", "&&", "||", "++", "--", "+=", "-=", "*=", "/=", "%=", "|=",
   "&=", "^=", "<<", ">>", "-", "+", "*", "/", "%", "!", "~", "^", "&", "|", "<", ">", "=", "?", ":"]

def operatorLength (cs : List Char) : Nat :=
  ((operators.find? fun o => o.toList.isPrefixOf cs).map String.length).getD 0

def punctuationLength : List Char → Nat
  | [] => 0
  | c :: _ => if "\x7b\x7d[]().,;".toList.contains c then 1 else 0

namespace LexemeKind

-- The rules in the order in which they are tried.
def all : List LexemeKind :=
  [whitespace, comment, pragma, string, number, ident, operator, punctuation]

-- The length of a lexeme of this kind at the front of a text, zero when there is none.
def matchLength : LexemeKind → List Char → Nat
  | whitespace => spanLength isSpaceChar
  | comment => commentLength
  | pragma => pragmaLength
  | string => stringLength
  | number => numberLength
  | ident => identLength
  | operator => operatorLength
  | punctuation => punctuationLength

-- Lexemes without meaning for the parser.
def isBlank : LexemeKind → Bool
  | whitespace | comment => true
  | _ => false

-- The name of the kind in messages.
def name : LexemeKind → String
  | whitespace => "whitespace"
  | comment => "comment"
  | pragma => "pragma"
  | string => "string"
  | number => "number"
  | ident => "ident"
  | operator => "operator"
  | punctuation => "punctuation"

end LexemeKind

-- The first rule that applies at the front of a text, with the length of its lexeme.
def firstRule (cs : List Char) : Option (LexemeKind × Nat) :=
  LexemeKind.all.findSome? fun k =>
    let n := k.matchLength cs
    if 0 < n then some (k, n) else none

theorem firstRule_pos {cs : List Char} {k : LexemeKind} {n : Nat} (h : firstRule cs = some (k, n)) :
    0 < n := by
  unfold firstRule at h
  obtain ⟨k', _, hk⟩ := List.exists_of_findSome?_eq_some h
  simp only at hk
  split at hk
  · cases hk
    assumption
  · cases hk

-- The lexemes of a text and, when some part of it is no lexeme, that rest and its place.
structure Scan where
  lexemes : List Lexeme
  stuck : Option (Position × List Char)
  -- the place where scanning ended
  stop : Position

-- The scan of a text that begins at a place.
def scanFrom (p : Position) (cs : List Char) : Scan :=
  match cs with
  | [] => ⟨[], none, p⟩
  | c :: rest =>
    match _h : firstRule (c :: rest) with
    | none => ⟨[], some (p, c :: rest), p⟩
    | some (k, n) =>
      let text := (c :: rest).take n
      let tail := scanFrom (p.advanceOver text) ((c :: rest).drop n)
      ⟨⟨k, String.ofList text, p⟩ :: tail.lexemes, tail.stuck, tail.stop⟩
termination_by cs.length
decreasing_by
  have := firstRule_pos _h
  simp only [List.length_drop, List.length_cons]
  omega

def scan (source : String) : Scan := scanFrom .start source.toList

-- A place where no rule applies is shown by the next sixteen characters.
def stuckMessage (rest : List Char) : String :=
  let sample := if 16 < rest.length then rest.take 16 ++ "...".toList else rest
  "lexer: invalid input text " ++ Text.quoted (String.ofList sample)

end RustContracts.Solidity
