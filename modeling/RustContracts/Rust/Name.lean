import RustContracts.Text.Case

-- Rust identifiers for names of the source.
namespace RustContracts.Rust

def keywords : List String :=
  ["as", "async", "await", "box", "break", "const", "continue", "crate", "dyn", "else", "enum",
   "extern", "false", "fn", "for", "if", "impl", "in", "let", "loop", "match", "mod", "move", "mut",
   "priv", "pub", "ref", "return", "static", "struct", "trait", "true", "type", "typeof", "unsafe",
   "use", "where", "while", "yield", "abstract", "become", "do", "final", "macro", "override", "try",
   "unsized", "virtual"]

-- Keywords that cannot be written as raw identifiers.
def reserved : List String := ["self", "Self", "super", "crate"]

namespace Name

def isSnakeChar (c : Char) : Bool := c.isLower || c.isDigit || c == '_'

-- The snake-case identifier of a variable, field or function. Leading underscores stay; a name in
-- snake case already is kept, so that `arg0` stays `arg0`; a keyword becomes a raw identifier or
-- gets an underscore.
def value (name : String) : String :=
  let lead := name.toList.takeWhile (· == '_')
  let rest := name.toList.dropWhile (· == '_')
  let words := bif rest.all isSnakeChar then rest else Text.snake rest
  bif words.isEmpty then name
  else
    let ident := String.ofList (lead ++ words)
    bif reserved.contains ident then ident ++ "_"
    else bif keywords.contains ident then "r#" ++ ident
    else ident

-- The screaming-snake identifier of a constant.
def constant (name : String) : String :=
  String.ofList (Text.screamingSnake (name.toList.dropWhile (· == '_')))

def isCamel (name : List Char) : Bool :=
  name.head?.any Char.isUpper && name.all Char.isAlphanum

-- The upper-camel identifier of a type or variant. A name in that form already is kept, so that
-- acronyms survive.
def type (name : String) : String :=
  let words := if isCamel name.toList then name.toList else Text.upperCamel name.toList
  match words with
  | [] => "Unnamed"
  | c :: _ =>
    let ident := String.ofList (if c.isDigit then 'E' :: words else words)
    if reserved.contains ident then ident ++ "_" else ident

end Name

end RustContracts.Rust
