import RustContracts.Solidity.Lexeme

-- Highlighting of source texts, and its encoding as a list of numbers.
namespace RustContracts

namespace Text

-- The length of a text in 16-bit units, the unit in which editors count characters: a character beyond the basic plane
-- takes two.

def units16OfChar (c : Char) : Nat :=
  if c.toNat < 0x10000 then 1 else 2

def units16 : List Char → Nat
  | [] => 0
  | c :: text => units16OfChar c + units16 text

@[simp] theorem units16_append (s t : List Char) : units16 (s ++ t) = units16 s + units16 t := by
  induction s with
  | nil => simp [units16]
  | cons c s ih => rw [List.cons_append, units16, ih, units16, Nat.add_assoc]

end Text

namespace Editor

open Solidity (Lexeme)
open Text (Position)

inductive TokenType where
  | namespaceName
  | typeName
  | functionName
  | variableName
  | parameterName
  | propertyName
  | keyword
  | number
  | string
  | operator
  | modifier
  | event
deriving DecidableEq, Inhabited

namespace TokenType

def name : TokenType → String
  | namespaceName => "namespace"
  | typeName => "type"
  | functionName => "function"
  | variableName => "variable"
  | parameterName => "parameter"
  | propertyName => "property"
  | keyword => "keyword"
  | number => "number"
  | string => "string"
  | operator => "operator"
  | modifier => "modifier"
  | event => "event"

-- Types are encoded by their place in this list.
def all : List TokenType :=
  [namespaceName, typeName, functionName, variableName, parameterName, propertyName, keyword, number,
   string, operator, modifier, event]

def index (t : TokenType) : Nat := all.findIdx (· == t)

end TokenType

-- Modifiers are encoded as the bits of a number, in this order.
def modifierNames : List String := ["declaration", "readonly", "abstract"]

-- A highlighted range; lines and characters count from zero. The protocol has 32 bits for each number: what stands
-- beyond them is cut off where a highlight is encoded.
structure Highlight where
  line : Nat
  start : Nat
  -- in 16-bit units
  length : Nat
  type : TokenType
  -- whether it is the name in a declaration
  declares : Bool := false
deriving DecidableEq

def keywords : List String :=
  ["contract", "interface", "library", "abstract", "is", "function", "constructor", "modifier", "event",
   "error", "struct", "enum", "using", "for", "if", "else", "while", "do", "break", "continue", "return",
   "returns", "emit", "revert", "require", "new", "delete", "import", "unchecked", "true", "false",
   "fallback", "receive", "memory", "storage", "calldata", "indexed", "anonymous"]

def modifierWords : List String :=
  ["public", "private", "internal", "external", "view", "pure", "payable", "constant", "immutable",
   "virtual", "override"]

-- The type of the name that follows a declaring keyword.
def declaredBy? : String → Option TokenType
  | "contract" | "interface" | "library" | "struct" | "enum" | "error" => some .typeName
  | "function" | "modifier" => some .functionName
  | "event" => some .event
  | _ => none

-- A word that is `stem` with digits behind it.
def isNumbered (stem word : String) : Bool :=
  word.startsWith stem && (word.toList.drop stem.length).all Char.isDigit

def isElementaryType (word : String) : Bool :=
  isNumbered "int" word || isNumbered "uint" word || isNumbered "bytes" word ||
    ["address", "bool", "string", "mapping"].contains word

-- The type of a word; `pending` is what a declaring keyword before it asks for.
def wordType? (pending : Option TokenType) (word : String) : Option (TokenType × Bool) :=
  match pending with
  | some t => some (t, true)
  | none =>
    if keywords.contains word then some (.keyword, false)
    else if modifierWords.contains word then some (.modifier, false)
    else if isElementaryType word then some (.typeName, false)
    else none

def highlightAt (p : Position) (text : String) (type : TokenType) (declares : Bool) : Highlight :=
  ⟨p.line - 1, p.column - 1, Text.units16 text.toList, type, declares⟩

-- The highlights of lexemes. Other words keep no highlight; operators and punctuation end what a keyword
-- asks for.
def highlightsFrom (pending : Option TokenType) : List Lexeme → List Highlight
  | [] => []
  | l :: rest =>
    match l.kind with
    | .ident =>
      let next := highlightsFrom (declaredBy? l.text) rest
      match wordType? pending l.text with
      | some (t, declares) => highlightAt l.start l.text t declares :: next
      | none => next
    | .pragma => highlightAt l.start "pragma" .keyword false :: highlightsFrom pending rest
    | .number => highlightAt l.start l.text .number false :: highlightsFrom pending rest
    | .string => highlightAt l.start l.text .string false :: highlightsFrom pending rest
    | .operator => highlightAt l.start l.text .operator false :: highlightsFrom none rest
    | .punctuation => highlightsFrom none rest
    | .whitespace | .comment => highlightsFrom pending rest

-- The highlights of a text, up to the first place that is no lexeme.
def highlights (source : String) : List Highlight := highlightsFrom none (Solidity.scan source).lexemes

-- Five numbers for each highlight. Lines count from the line of the one before; characters count from
-- its start when both stand on one line.
def encodeFrom (line start : UInt32) : List Highlight → List UInt32
  | [] => []
  | h :: rest =>
    let l := UInt32.ofNat h.line
    let s := UInt32.ofNat h.start
    let deltaLine := l - line
    [deltaLine, if deltaLine = 0 then s - start else s, UInt32.ofNat h.length,
      UInt32.ofNat h.type.index, if h.declares then 1 else 0] ++ encodeFrom l s rest

def encode (hs : List Highlight) : List UInt32 := encodeFrom 0 0 hs

end Editor

end RustContracts
