-- A place in a source text: lines and columns count from one, columns in characters.
namespace RustContracts.Text

structure Position where
  line : Nat := 0
  column : Nat := 0
deriving DecidableEq, Inhabited

namespace Position

-- The place of the first character of every text.
def start : Position := ⟨1, 1⟩

-- The place of the character that follows `c`, when `c` stands at `p`.
def advance (p : Position) (c : Char) : Position :=
  if c = '\n' then ⟨p.line + 1, 1⟩ else ⟨p.line, p.column + 1⟩

-- The place right after `text`, when `text` begins at `p`.
def advanceOver (p : Position) (text : List Char) : Position :=
  text.foldl advance p

-- A place that points into a text; `⟨0, 0⟩` stands for "nowhere".
def isKnown (p : Position) : Bool := 0 < p.line

-- `line:column`, the form in which reports name a place.
def text (p : Position) : String :=
  toString p.line ++ ":" ++ toString p.column

theorem advanceOver_append (p : Position) (s t : List Char) :
    p.advanceOver (s ++ t) = (p.advanceOver s).advanceOver t := by
  simp [advanceOver]

end Position

end RustContracts.Text
