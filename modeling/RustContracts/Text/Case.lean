-- Words of a name: the snake, screaming-snake and upper-camel forms. Only the letters and digits of
-- ASCII have a class; every other character stands for itself.
namespace RustContracts.Text

-- The characters with the Unicode property White_Space.
def isBlank (c : Char) : Bool :=
  let n := c.toNat
  (0x09 ≤ n && n ≤ 0x0d) || n == 0x20 || n == 0x85 || n == 0xa0 || n == 0x1680 ||
    (0x2000 ≤ n && n ≤ 0x200a) || n == 0x2028 || n == 0x2029 || n == 0x202f || n == 0x205f ||
    n == 0x3000

-- A text without the blanks at either end.
def trimBlank (text : List Char) : List Char :=
  ((text.dropWhile isBlank).reverse.dropWhile isBlank).reverse

-- What the word splitter sees of a character.
inductive CharClass where
  | capital
  | small
  | digit
  | other
deriving DecidableEq

def classOf (c : Char) : CharClass :=
  if c.isUpper then .capital
  else if c.isLower then .small
  else if c.isDigit then .digit
  else .other

-- The characters that stand between two words.
def isDivider (c : Char) : Bool :=
  c == '_' || c == ' ' || c == '-' || c == '.'

-- Whether two neighbours belong to different classes of letters and digits.
def classChanges : CharClass → CharClass → Bool
  | .capital, .small | .capital, .digit => true
  | .small, .capital | .small, .digit => true
  | .digit, .capital | .digit, .small => true
  | _, _ => false

-- The words of a name joined by underscores. `previous` is the class of the character before the
-- rest: a capital that begins a word after an acronym gets its underscore in front, every other
-- change of class puts one behind, and a capital that begins a word needs none.
def delimited (shape : Char → Char) : CharClass → List Char → List Char
  | _, [] => []
  | _, [c] => [if isDivider c then '_' else shape c]
  | previous, c :: next :: rest =>
    let here := classOf c
    let after := classOf next
    let tail := delimited shape here (next :: rest)
    if classChanges here after then
      let front := if here = .capital ∧ after = .small ∧ previous = .capital then ['_'] else []
      let back := if here = .capital ∧ after = .small then [] else ['_']
      front ++ shape c :: back ++ tail
    else (if isDivider c then '_' else shape c) :: tail

-- `balanceOf` is `balance_of`, `HTTPServer` is `http_server`, `arg0` is `arg_0`.
def snake (name : List Char) : List Char :=
  delimited Char.toLower .other (trimBlank name)

-- `balanceOf` is `BALANCE_OF`.
def screamingSnake (name : List Char) : List Char :=
  delimited Char.toUpper .other (trimBlank name)

-- The words of a name run together. `raise` asks for a capital, `afterCapital` says that the
-- character before was one: in a run of capitals all but the first are lowered.
def camelFrom (raise afterCapital : Bool) : List Char → List Char
  | [] => []
  | c :: rest =>
    match classOf c with
    | .capital => (if !raise && afterCapital then c.toLower else c) :: camelFrom false true rest
    | .small => (if raise then c.toUpper else c) :: camelFrom false false rest
    | .digit => c :: camelFrom true false rest
    | .other => camelFrom (isDivider c) false rest

-- `balance_of` is `BalanceOf`.
def upperCamel (name : List Char) : List Char :=
  camelFrom true false (trimBlank name)

end RustContracts.Text
