import RustContracts.Solidity.Shape

-- Grammar rules: readers of a token list that may match, not apply, or fail half-way. A failure in an
-- optional part is dropped, but the one that got furthest is remembered, since it is the one that
-- a reader of the source wants to see when the text as a whole does not parse.
namespace RustContracts.Solidity

open Text (Position)

structure Token where
  kind : LexemeKind
  -- the characters as written, for a string literal the text that it denotes
  value : String
  start : Position
  stop : Position
deriving Inhabited

-- A token that fits nowhere: none at the end of the text, with what was expected instead.
structure Mismatch where
  found : Option Token
  place : Position
  expected : Option Shape

def Mismatch.message (m : Mismatch) : String :=
  "unexpected token " ++ Text.quoted ((m.found.map Token.value).getD "<EOF>") ++
    match m.expected with
    | some s => " (expected " ++ s.text true ++ ")"
    | none => ""

-- A place between two tokens, and the furthest failure met so far.
structure Reader where
  rest : List Token
  -- the number of tokens before this place
  consumed : Nat
  -- the place right after the last token before this one
  lastStop : Position
  -- the place after all tokens
  finish : Position
  furthest : Option Mismatch
  -- how many tokens stood before the furthest failure
  depth : Nat

namespace Reader

-- The place of the next token, or of the end of the text.
def place (r : Reader) : Position := (r.rest.head?.map Token.start).getD r.finish

-- The failure that the next token does not fit.
def mismatch (r : Reader) (expected : Option Shape) : Mismatch := ⟨r.rest.head?, r.place, expected⟩

-- Remembers a failure at this place unless one further on is known.
def note (r : Reader) (m : Mismatch) : Reader :=
  if r.depth ≤ r.consumed then { r with furthest := some m, depth := r.consumed } else r

-- Goes on at `r` after an attempt that failed with `m` at `attempt`.
def abandon (r : Reader) (m : Mismatch) (attempt : Reader) : Reader :=
  if r.depth < attempt.depth then
    { r with furthest := attempt.furthest, depth := attempt.depth }
  else if r.depth ≤ attempt.consumed then
    { r with furthest := some m, depth := max attempt.consumed attempt.depth }
  else r

-- Goes on where a successful attempt ended.
def accept (r : Reader) (attempt : Reader) : Reader :=
  if r.depth ≤ attempt.depth then attempt
  else { attempt with furthest := r.furthest, depth := r.depth }

end Reader

inductive Outcome (α : Type) where
  | matched (value : α) (after : Reader)
  -- the rule does not apply; nothing was read
  | absent
  -- the rule applied and then a token did not fit
  | failed (m : Mismatch) (after : Reader)

def Outcome.map {α β : Type} (f : α → β) : Outcome α → Outcome β
  | matched a r => matched (f a) r
  | absent => absent
  | failed m r => failed m r

structure Rule (α : Type) where
  shape : Shape
  run : Reader → Outcome α

namespace Rule

variable {α β : Type}

def map (f : α → β) (rule : Rule α) : Rule β :=
  ⟨rule.shape, fun r => (rule.run r).map f⟩

-- The next token, when it satisfies `p`.
def satisfying (shape : Shape) (p : Token → Bool) : Rule String where
  shape := shape
  run r :=
    match r.rest with
    | t :: rest =>
      if p t then
        .matched t.value { r with rest := rest, consumed := r.consumed + 1, lastStop := t.stop }
      else .absent
    | [] => .absent

-- A token with this value, whatever its kind.
def word (text : String) : Rule String := satisfying (.word text) (·.value == text)

-- A token of this kind.
def token (kind : LexemeKind) : Rule String := satisfying (.token kind) (·.kind == kind)

-- Rounds of a rule until it does not apply, fails, or `limit` rounds are done.
def rounds (rule : Rule α) : Nat → Reader → List α × Reader
  | 0, r => ([], r)
  | limit + 1, r =>
    match rule.run r with
    | .matched a attempt =>
      let (more, after) := rounds rule limit (r.accept attempt)
      (a :: more, after)
    | .absent => ([], r)
    | .failed m attempt => ([], (r.note m).abandon m attempt)

-- `( … )?`
def optional (rule : Rule α) : Rule (Option α) where
  shape := .group .optional rule.shape
  run r :=
    let (found, after) := rule.rounds 1 r
    .matched found.head? after

-- `( … )*`; a round reads at least one token, so the tokens bound the rounds.
def many (rule : Rule α) : Rule (List α) where
  shape := .group .any rule.shape
  run r :=
    let (found, after) := rule.rounds (r.rest.length + 1) r
    .matched found after

-- `( … )+`
def some (rule : Rule α) : Rule (List α) where
  shape := .group .some rule.shape
  run r :=
    let (found, after) := rule.rounds (r.rest.length + 1) r
    if found.isEmpty then .absent else .matched found after

-- The rest of a choice: `best` is the failure that got furthest among the alternatives tried.
def chooseFrom (r : Reader) (best : Option (Mismatch × Nat)) : List (Rule α) → Outcome α
  | [] =>
    match best with
    | .some (m, _) => .failed m (r.note m)
    | .none => .absent
  | rule :: others =>
    match rule.run r with
    | .matched a attempt => .matched a (r.accept attempt)
    | .absent => chooseFrom r best others
    | .failed m attempt =>
      let further := best.all fun b => b.2 ≤ attempt.consumed
      chooseFrom (r.abandon m attempt) (if further then .some (m, attempt.consumed) else best) others

-- The first alternative that matches; when none does, the failure that got furthest.
def choice (alternatives : List (Rule α)) : Rule α where
  shape := .choice (alternatives.map Rule.shape)
  run r := chooseFrom r none alternatives

-- One of several words.
def oneOf (words : List String) : Rule String := choice (words.map word)

-- Matches without reading when the rule does not match here.
def absent (rule : Rule α) : Rule Unit where
  shape := .absent rule.shape
  run r :=
    match rule.run r with
    | .matched _ _ => .failed (r.mismatch none) r
    | _ => .matched () r

-- A construct with a name of its own, built from the places of its first character and of the first
-- character behind it.
def construct (name : String) (build : Position → Position → α → β) (rule : Rule α) : Rule β where
  shape := .named name
  run r :=
    match rule.run r with
    | .matched a after => .matched (build r.place after.lastStop a) after
    | .absent => .absent
    | .failed m after => .failed m (after.note m)

-- The rule of a construct that is nested too deep.
def never (name : String) : Rule α := ⟨.named name, fun _ => .absent⟩

end Rule

-- Rules one after the other. Once the first has matched the others have to; `follow` reads them after
-- it.
structure Sequence (α : Type) where
  shapes : List Shape
  first : Reader → Outcome α
  follow : Reader → Outcome α

namespace Sequence

variable {α β : Type}

-- A part that has to match, or the rest of the sequence is missing.
def required (shapes : List Shape) (outcome : Reader → Outcome α) (r : Reader) : Outcome α :=
  match outcome r with
  | .absent => .failed (r.mismatch (some (.sequence shapes))) r
  | o => o

-- The last part.
def last (rule : Rule α) : Sequence α where
  shapes := [rule.shape]
  first := rule.run
  follow := required [rule.shape] rule.run

-- A part whose value is kept, before others.
def keep (rule : Rule α) (others : Sequence β) : Sequence (α × β) :=
  let shapes := rule.shape :: others.shapes
  let andThen (o : Outcome α) : Outcome (α × β) :=
    match o with
    | .matched a after => (others.follow after).map (a, ·)
    | .absent => .absent
    | .failed m after => .failed m after
  { shapes := shapes
    first := fun r => andThen (rule.run r)
    follow := fun r => andThen (required shapes rule.run r) }

-- A part that only has to be there.
def skip (rule : Rule α) (others : Sequence β) : Sequence β :=
  let both := keep rule others
  { shapes := both.shapes
    first := fun r => (both.first r).map Prod.snd
    follow := fun r => (both.follow r).map Prod.snd }

def rule (s : Sequence α) : Rule α := ⟨.sequence s.shapes, s.first⟩

end Sequence

namespace Rule

variable {α : Type}

-- Further elements of a list, a comma before each.
def afterCommas (element : Rule α) : Rule (List α) :=
  (Sequence.skip (word ",") (.last element)).rule.many

-- A list with commas between its elements.
def commaList (element : Rule α) : Rule (List α) :=
  (Sequence.keep element (.last element.afterCommas)).rule.map fun (a, more) => a :: more

-- A list that may be empty.
def commaListOrNone (element : Rule α) : Rule (List α) :=
  element.commaList.optional.map (·.getD [])

-- The rule's text, empty when the rule does not match.
def orEmpty (rule : Rule String) : Rule String := rule.optional.map (·.getD "")

-- Whether the rule matches.
def isPresent (rule : Rule α) : Rule Bool := rule.optional.map Option.isSome

end Rule

end RustContracts.Solidity
