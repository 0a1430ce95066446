import RustContracts.Diagnostic.Basic
import RustContracts.Solidity.Grammar
import RustContracts.Solidity.StringLiteral

-- From a source text to its tree.
namespace RustContracts.Solidity

open Text (Position)

-- The token of a lexeme: a string literal stands for the text that it denotes.
def Lexeme.token (l : Lexeme) : Except Diagnostic Token :=
  if l.kind = .string then
    match unquote l.text with
    | some value => .ok ⟨l.kind, value, l.start, l.stop⟩
    | none =>
      .error (.badSyntax l.start
        ("invalid quoted string " ++ Text.quoted l.text ++ ": invalid syntax"))
  else .ok ⟨l.kind, l.text, l.start, l.stop⟩

-- The tokens that the grammar sees, and the place where the text ends.
def tokenize (source : String) : Except Diagnostic (List Token × Position) := do
  let scanned := scan source
  let tokens ← (scanned.lexemes.filter fun l => !l.kind.isBlank).mapM Lexeme.token
  match scanned.stuck with
  | some (place, rest) => throw (.badSyntax place (stuckMessage rest))
  | none => return (tokens, scanned.stop)

def Mismatch.diagnostic (m : Mismatch) : Diagnostic := .badSyntax m.place m.message

-- Reads a whole text by a rule. When tokens are left over, the furthest failure explains why the rule
-- did not go on.
def readAll {α : Type} (rule : Rule α) (tokens : List Token) (finish : Position) :
    Except Diagnostic α :=
  let reader : Reader :=
    { rest := tokens, consumed := 0, lastStop := .start, finish := finish, furthest := none,
      depth := 0 }
  match rule.run reader with
  | .failed m _ => .error m.diagnostic
  | .absent => .error (reader.mismatch none).diagnostic
  | .matched a after =>
    match after.rest with
    | [] => .ok a
    | _ :: _ =>
      let here := after.mismatch none
      if after.depth ≤ after.consumed then .error here.diagnostic
      else .error (after.furthest.getD here).diagnostic

-- The tree of a source text; a text that is not well formed is reported at the token that does not fit.
def parse (source : String) : Except Diagnostic SourceUnit := do
  let (tokens, finish) ← tokenize source
  readAll (Grammar.sourceUnit (Grammar.upToDepth (tokens.length + 1))) tokens finish

end RustContracts.Solidity
