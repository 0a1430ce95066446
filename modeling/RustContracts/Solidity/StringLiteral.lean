import RustContracts.Solidity.Lexeme

-- The text that a string literal denotes.
namespace RustContracts.Solidity

-- The value of a hexadecimal digit.
def hexValue? (c : Char) : Option Nat :=
  if c.isDigit then some (c.toNat - '0'.toNat)
  else if 'a' ≤ c ∧ c ≤ 'f' then some (c.toNat - 'a'.toNat + 10)
  else if 'A' ≤ c ∧ c ≤ 'F' then some (c.toNat - 'A'.toNat + 10)
  else none

def octalValue? (c : Char) : Option Nat :=
  if '0' ≤ c ∧ c ≤ '7' then some (c.toNat - '0'.toNat) else none

-- The number written by the next `count` digits, and what follows them.
def takeDigits (digit? : Char → Option Nat) (base : Nat) :
    Nat → Nat → List Char → Option (Nat × List Char)
  | 0, value, rest => some (value, rest)
  | _ + 1, _, [] => none
  | count + 1, value, c :: rest =>
    match digit? c with
    | some d => takeDigits digit? base count (value * base + d) rest
    | none => none

theorem length_takeDigits_le {digit? : Char → Option Nat} {base count value v : Nat}
    {cs rest : List Char} (h : takeDigits digit? base count value cs = some (v, rest)) :
    rest.length ≤ cs.length := by
  induction count generalizing value cs with
  | zero =>
    simp only [takeDigits, Option.some.injEq, Prod.mk.injEq] at h
    exact h.2 ▸ Nat.le_refl _
  | succ count ih =>
    cases cs with
    | nil => simp [takeDigits] at h
    | cons c cs =>
      simp only [takeDigits] at h
      split at h
      · have := ih h
        simp only [List.length_cons]
        omega
      · cases h

-- A character by its code point; surrogates and what lies beyond the last plane are none.
def charOfCode? (n : Nat) : Option Char :=
  if n.isValidChar then some (Char.ofNat n) else none

-- What an escape denotes: `c` is the character behind the backslash, `rest` what follows it.
def escape (quote c : Char) (rest : List Char) : Option (Char × List Char) :=
  match c with
  | 'a' => some (Char.ofNat 0x07, rest)
  | 'b' => some (Char.ofNat 0x08, rest)
  | 'f' => some (Char.ofNat 0x0c, rest)
  | 'n' => some ('\n', rest)
  | 'r' => some ('\r', rest)
  | 't' => some ('\t', rest)
  | 'v' => some (Char.ofNat 0x0b, rest)
  | '\\' => some ('\\', rest)
  | 'x' => (takeDigits hexValue? 16 2 0 rest).map fun (n, r) => (Char.ofNat n, r)
  | 'u' => (takeDigits hexValue? 16 4 0 rest).bind fun (n, r) => (charOfCode? n).map (·, r)
  | 'U' => (takeDigits hexValue? 16 8 0 rest).bind fun (n, r) => (charOfCode? n).map (·, r)
  | c =>
    if c = quote then some (c, rest)
    else
      match octalValue? c with
      | none => none
      | some d =>
        (takeDigits octalValue? 8 2 d rest).bind fun (n, r) =>
          if n ≤ 255 then some (Char.ofNat n, r) else none

theorem length_escape_le {quote c d : Char} {cs rest : List Char}
    (h : escape quote c cs = some (d, rest)) : rest.length ≤ cs.length := by
  unfold escape at h
  split at h
  case h_9 | h_10 | h_11 =>
    simp only [Option.map_eq_some_iff, Option.bind_eq_some_iff] at h
    obtain ⟨⟨n, r⟩, hd, hr⟩ := h
    have hle := length_takeDigits_le hd
    first
      | (obtain ⟨x, _, hx⟩ := hr; cases hx; exact hle)
      | (cases hr; exact hle)
  case h_12 =>
    split at h
    · cases h
      exact Nat.le_refl _
    · split at h
      · cases h
      · simp only [Option.bind_eq_some_iff] at h
        obtain ⟨⟨n, r⟩, hd, hr⟩ := h
        have hle := length_takeDigits_le hd
        simp only at hr
        split at hr
        · cases hr
          exact hle
        · cases hr
  all_goals
    cases h
    exact Nat.le_refl _

-- The text between the quotes with its escapes resolved; none when an escape is malformed or the
-- quote itself stands there unprotected.
def unescape (quote : Char) (cs : List Char) : Option (List Char) :=
  match cs with
  | [] => some []
  | ['\\'] => none
  | '\\' :: c :: rest =>
    match _h : escape quote c rest with
    | some (d, tail) => (unescape quote tail).map (d :: ·)
    | none => none
  | c :: rest => if c = quote then none else (unescape quote rest).map (c :: ·)
termination_by cs.length
decreasing_by
  · have := length_escape_le _h
    simp only [List.length_cons]
    omega
  · simp

-- The text that a literal with its quotes denotes.
def unquote (literal : String) : Option String :=
  match literal.toList with
  | [] => none
  | quote :: rest => (unescape quote rest.dropLast).map String.ofList

end RustContracts.Solidity
