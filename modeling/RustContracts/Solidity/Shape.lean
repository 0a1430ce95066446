import RustContracts.Solidity.Lexeme

-- What a grammar rule asks for, as messages name it.
namespace RustContracts.Solidity

-- How often a group stands: at most once, any number of times, at least once.
inductive Repetition where
  | optional
  | any
  | some
deriving DecidableEq

def Repetition.mark : Repetition → String
  | optional => "?"
  | any => "*"
  | some => "+"

inductive Shape where
  | word (text : String)
  | token (kind : LexemeKind)
  -- a construct with a name of its own
  | named (name : String)
  | sequence (parts : List Shape)
  | choice (alternatives : List Shape)
  | group (repetition : Repetition) (inner : Shape)
  -- the next tokens must not be these
  | absent (inner : Shape)

namespace Shape

-- Words in quotes, kinds of tokens in angle brackets. A sequence of several parts and a choice stand
-- in parentheses unless they are the whole text.
def text (outermost : Bool) : Shape → String
  | word w => Text.quoted w
  | token k => "<" ++ k.name ++ ">"
  | named n => n
  | sequence [s] => s.text false
  | sequence parts =>
    let inner := " ".intercalate (parts.map fun s => s.text false)
    if outermost then inner else "(" ++ inner ++ ")"
  | choice alternatives =>
    let inner := " | ".intercalate (alternatives.map fun s => s.text false)
    if outermost then inner else "(" ++ inner ++ ")"
  | group r inner => inner.text false ++ r.mark
  | absent inner => "(?! " ++ inner.text true ++ ")"

end Shape

end RustContracts.Solidity
