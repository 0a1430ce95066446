import RustContracts.Proofs.Solidity.Digits

-- Number literals and the rational numbers that they write. A literal that is accepted has the value that is written,
-- times its unit; but one that writes a word is refused when all its digits, read without their point, leave the range
-- of words.
namespace RustContracts.Solidity.Number

-- A number as the rule for lexemes takes it.
inductive Written where
  -- `0x` or `0X`, and digits
  | hex (capital : Bool) (digits : List Char)
  -- digits, with a point and more of them, and with `e` or `E` and an exponent
  | decimal (whole : List Char) (fraction : Option (List Char)) (exponent : Option (Bool × List Char))

def fractionText (fraction : Option (List Char)) : List Char := fraction.elim [] ('.' :: ·)

def exponentText (exponent : Option (Bool × List Char)) : List Char :=
  exponent.elim [] fun e => (if e.1 then 'E' else 'e') :: e.2

namespace Written

def text : Written → List Char
  | hex capital digits => '0' :: (if capital then 'X' else 'x') :: digits
  | decimal whole fraction exponent => whole ++ fractionText fraction ++ exponentText exponent

-- Underscores can stand between digits, but not before the first one of all and not in an exponent.
def Legal : Written → Prop
  | hex _ digits => digits ≠ [] ∧ ∀ c ∈ digits, isHexChar c ∨ c = '_'
  | decimal whole fraction exponent =>
    (∃ c rest, whole = c :: rest ∧ c.isDigit ∧ ∀ d ∈ rest, d.isDigit ∨ d = '_') ∧
      (∀ f ∈ fraction, f ≠ [] ∧ ∀ c ∈ f, c.isDigit ∨ c = '_') ∧ ∀ e ∈ exponent, e.2 ≠ [] ∧ ∀ c ∈ e.2, c.isDigit

-- The number that decimal digits write; underscores count for nothing.
def decimalNumber (cs : List Char) : Nat := ofDigits 10 (cs.filterMap decimalDigit?)

-- The power of ten.
def power : Written → Nat
  | hex _ _ => 0
  | decimal _ _ exponent => exponent.elim 0 fun e => decimalNumber e.2

-- How many digits stand behind the point.
def places : Written → Nat
  | hex _ _ => 0
  | decimal _ fraction _ => fraction.elim 0 fun f => (f.filterMap decimalDigit?).length

-- The number that is written.
def value : Written → ℚ
  | hex _ digits => ofDigits 16 (digits.filterMap hexDigit?)
  | w@(decimal whole fraction _) =>
    (decimalNumber whole + (fraction.elim 0 decimalNumber : Nat) / 10 ^ w.places) * 10 ^ w.power

-- All digits as one number, without their point.
def digits : Written → Nat
  | hex _ digits => ofDigits 16 (digits.filterMap hexDigit?)
  | decimal whole fraction _ => decimalNumber (whole ++ fraction.getD [])

theorem value_eq (w : Written) : w.value = w.digits * 10 ^ w.power / 10 ^ w.places := by
  cases w with
  | hex capital ds => simp [value, digits, power, places]
  | decimal whole fraction exponent =>
      cases fraction with
      | none => simp [value, digits, places]
      | some f =>
          have hdigits : (decimal whole (some f) exponent).digits =
              decimalNumber whole * 10 ^ (decimal whole (some f) exponent).places + decimalNumber f := by
            rw [digits, Option.getD_some, decimalNumber, List.filterMap_append, ofDigits_append]
            rfl
          rw [value, hdigits]
          push_cast
          field_simp
          rfl

end Written

-- The rule takes the whole text.
def IsNumber (text : String) : Prop := 0 < text.length ∧ numberLength text.toList = text.toList.length

-- Lexemes.

section Lexemes

variable {cs : List Char}

theorem takeWhile_drop_spanLength (p : Char → Bool) (cs : List Char) :
    cs.takeWhile p ++ cs.drop (spanLength p cs) = cs := by
  have htake : cs.takeWhile p = cs.take (spanLength p cs) := List.prefix_iff_eq_take.mp (List.takeWhile_prefix p)
  rw [htake, List.take_append_drop]

theorem takeWhile_ne_nil {p : Char → Bool} (h : 0 < spanLength p cs) : cs.takeWhile p ≠ [] :=
  List.ne_nil_of_length_pos h

theorem hexNumberLength_cases (cs : List Char) :
    hexNumberLength cs = 0 ∨ ∃ capital digits rest, cs = (Written.hex capital digits).text ++ rest ∧
      (Written.hex capital digits).Legal ∧ hexNumberLength cs = (Written.hex capital digits).text.length := by
  unfold hexNumberLength
  split
  next x rest =>
    dsimp only
    split
    next h =>
      rw [Bool.and_eq_true, Bool.or_eq_true, beq_iff_eq, beq_iff_eq, decide_eq_true_eq] at h
      refine .inr ⟨x == 'X', rest.takeWhile fun c => isHexChar c || c == '_',
        rest.drop (spanLength (fun c => isHexChar c || c == '_') rest), ?_, ⟨takeWhile_ne_nil h.2, ?_⟩, ?_⟩
      · rcases h.1 with rfl | rfl <;> simp [Written.text, takeWhile_drop_spanLength]
      · intro c hc
        simpa using List.mem_takeWhile_imp hc
      · simp only [Written.text, spanLength, List.length_cons]
        omega
    next => exact .inl rfl
  next => exact .inl rfl

theorem fraction_split (cs : List Char) :
    ∃ fraction rest, cs = fractionText fraction ++ rest ∧ fractionLength cs = (fractionText fraction).length ∧
      ∀ f ∈ fraction, f ≠ [] ∧ ∀ c ∈ f, c.isDigit ∨ c = '_' := by
  have hnone : ∃ fraction rest, cs = fractionText fraction ++ rest ∧ 0 = (fractionText fraction).length ∧
      ∀ f ∈ fraction, f ≠ [] ∧ ∀ c ∈ f, c.isDigit ∨ c = '_' := ⟨none, cs, rfl, rfl, by simp⟩
  unfold fractionLength
  split
  next rest =>
    dsimp only
    split
    next h =>
      refine ⟨some (rest.takeWhile fun c => c.isDigit || c == '_'), _,
        congrArg ('.' :: ·) (takeWhile_drop_spanLength _ rest).symm, Nat.add_comm _ _, ?_⟩
      intro f hf
      obtain rfl := Option.some.inj hf
      refine ⟨takeWhile_ne_nil h, fun c hc => ?_⟩
      simpa using List.mem_takeWhile_imp hc
    next => exact hnone
  next => exact hnone

theorem exponent_split (cs : List Char) :
    ∃ exponent rest, cs = exponentText exponent ++ rest ∧ exponentLength cs = (exponentText exponent).length ∧
      ∀ e ∈ exponent, e.2 ≠ [] ∧ ∀ c ∈ e.2, c.isDigit := by
  have hnone : ∃ exponent rest, cs = exponentText exponent ++ rest ∧ 0 = (exponentText exponent).length ∧
      ∀ e ∈ exponent, e.2 ≠ [] ∧ ∀ c ∈ e.2, c.isDigit := ⟨none, cs, rfl, rfl, by simp⟩
  unfold exponentLength
  split
  next e rest =>
    dsimp only
    split
    next h =>
      rw [Bool.and_eq_true, Bool.or_eq_true, beq_iff_eq, beq_iff_eq, decide_eq_true_eq] at h
      refine ⟨some (e == 'E', rest.takeWhile Char.isDigit), rest.drop (spanLength Char.isDigit rest), ?_, Nat.add_comm _ _, ?_⟩
      · rcases h.1 with rfl | rfl <;> simp [exponentText, takeWhile_drop_spanLength]
      · intro x hx
        obtain rfl := Option.some.inj hx
        exact ⟨takeWhile_ne_nil h.2, fun c hc => List.mem_takeWhile_imp hc⟩
    next => exact hnone
  next => exact hnone

-- What the rule takes at the front of a text is a number.
theorem exists_written (h : 0 < numberLength cs) :
    ∃ w : Written, ∃ rest, w.Legal ∧ cs = w.text ++ rest ∧ numberLength cs = w.text.length := by
  rcases hexNumberLength_cases cs with hhex | ⟨capital, digits, rest, hcs, hlegal, hlength⟩
  · have hlength : numberLength cs = decimalLength cs := by simp [numberLength, hhex]
    cases cs with
    | nil => simp [hlength, decimalLength] at h
    | cons c rest =>
        have hc : c.isDigit := by
          by_contra hc
          simp [hlength, decimalLength, hc] at h
        obtain ⟨whole, hwhole⟩ : ∃ whole, whole = c :: rest.takeWhile fun c => c.isDigit || c == '_' := ⟨_, rfl⟩
        have hsplit : c :: rest = whole ++ rest.drop (spanLength (fun c => c.isDigit || c == '_') rest) := by
          rw [hwhole, List.cons_append, takeWhile_drop_spanLength]
        have hspan : 1 + spanLength (fun c => c.isDigit || c == '_') rest = whole.length := by
          rw [hwhole, List.length_cons, spanLength, Nat.add_comm]
        obtain ⟨fraction, more, hmore, hfraction, hlegal⟩ :=
          fraction_split (rest.drop (spanLength (fun c => c.isDigit || c == '_') rest))
        obtain ⟨exponent, last, hlast, hexponent, hlegal'⟩ := exponent_split more
        refine ⟨.decimal whole fraction exponent, last, ⟨⟨c, _, hwhole, hc, ?_⟩, hlegal, hlegal'⟩, ?_, ?_⟩
        · intro d hd
          simpa using List.mem_takeWhile_imp hd
        · rw [hsplit, hmore, hlast, Written.text]
          simp
        · have hdrop : (c :: rest).drop whole.length = fractionText fraction ++ more := by
            rw [hsplit, List.drop_left, hmore]
          have hdrop' : (c :: rest).drop (whole.length + (fractionText fraction).length) = more := by
            rw [← List.drop_drop, hdrop, List.drop_left]
          rw [hlength, decimalLength, if_pos hc]
          dsimp only
          rw [hspan, hdrop, ← hmore, hfraction, hdrop', hexponent, Written.text]
          simp [Nat.add_assoc]
  · refine ⟨.hex capital digits, rest, hlegal, hcs, ?_⟩
    have hpos : 0 < hexNumberLength cs := by rw [hlength, Written.text]; simp
    rw [numberLength, if_pos hpos, hlength]

theorem IsNumber.exists_written {text : String} (h : IsNumber text) : ∃ w : Written, w.Legal ∧ w.text = text.toList := by
  have hpos : 0 < numberLength text.toList := by
    rw [h.2, String.length_toList]
    exact h.1
  obtain ⟨w, rest, hlegal, htext, hlength⟩ := Number.exists_written hpos
  have hrest : rest = [] := by
    have := congrArg List.length htext
    rw [h.2.symm.trans hlength, List.length_append] at this
    exact List.eq_nil_of_length_eq_zero (by omega)
  exact ⟨w, hlegal, by rw [htext, hrest, List.append_nil]⟩

end Lexemes

-- Decimal literals.

-- The steps of reading one: the power of ten, all digits as one number times the scale, and the shift of the point.

def powerOf (cs : List Char) : Except Cause Int :=
  match cs with
  | [] => pure 0
  | _ :: digits => exponent digits

def shifted (value : Nat) (shift : Int) : Except Cause Nat :=
  if shift > 77 then .error .exponentOutOfRange
  else if shift < -77 then .error .notInteger
  else if shift ≥ 0 then mulChecked value (Nat.pow 10 shift.toNat)
  else if value % Nat.pow 10 (-shift).toNat = 0 then .ok (value / Nat.pow 10 (-shift).toNat)
  else .error .notInteger

def scaled (digits : List Char) (places : Int) (scale : Nat) (power : Int) : Except Cause Nat := do
  if (digits.dropWhile (· == '0')).isEmpty then return 0
  let value ← mulChecked (← decimalValue (digits.dropWhile (· == '0'))) scale
  shifted value (Int.bmod (power - places) (1 <<< 64))

theorem decimal_eq_scaled (cs : List Char) (scale : Nat) :
    let mantissa := cs.takeWhile fun c => c != 'e' && c != 'E'
    let whole := mantissa.takeWhile (· != '.')
    let fraction := mantissa.drop (whole.length + 1)
    decimal cs scale =
      powerOf (cs.drop mantissa.length) >>= scaled (whole ++ fraction) (String.ofList fraction).utf8ByteSize scale := by
  intro mantissa whole fraction
  change (match cs.drop mantissa.length with
    | [] => pure 0 >>= scaled (whole ++ fraction) (String.ofList fraction).utf8ByteSize scale
    | _ :: digits => exponent digits >>= scaled (whole ++ fraction) (String.ofList fraction).utf8ByteSize scale) = _
  unfold powerOf
  split <;> rfl

section Shifts

variable {value places power v : Nat}

-- Powers of ten beyond those of words.
theorem word_lt_pow (h : 77 < power) : wordLimit < 10 ^ power := by
  have hword : wordLimit < 10 ^ 78 := by rw [wordLimit_eq]; decide
  exact hword.trans_le (Nat.pow_le_pow_right (by decide) h)

theorem shifted_up {k : Nat} : shifted value k =
    if 77 < k then .error .exponentOutOfRange else mulChecked value (10 ^ k) := by
  have hcast : ((k : Int) > 77) ↔ 77 < k := by omega
  rw [shifted, if_neg (show ¬(k : Int) < -77 by omega), if_pos (show (k : Int) ≥ 0 by omega), Int.toNat_natCast]
  simp only [hcast]
  rfl

theorem shifted_down {k : Nat} (hk : 0 < k) : shifted value (-(k : Int)) =
    if 77 < k then .error .notInteger
    else if value % 10 ^ k = 0 then .ok (value / 10 ^ k) else .error .notInteger := by
  have hcast : (-(k : Int) < -77) ↔ 77 < k := by omega
  rw [shifted, if_neg (show ¬-(k : Int) > 77 by omega), if_neg (show ¬-(k : Int) ≥ 0 by omega), Int.neg_neg,
    Int.toNat_natCast]
  simp only [hcast]
  rfl

theorem shifted_ok_iff (hpos : 0 < value) (hword : value < wordLimit) :
    shifted value ((power : Int) - places) = .ok v ↔ v < wordLimit ∧ v * 10 ^ places = value * 10 ^ power := by
  rcases Nat.lt_or_ge power places with hlt | hle
  · obtain ⟨k, hk, rfl⟩ : ∃ k, 0 < k ∧ places = power + k := ⟨places - power, by omega, by omega⟩
    have hshift : (power : Int) - (power + k : Nat) = -(k : Int) := by omega
    have hvalue : v * 10 ^ (power + k) = value * 10 ^ power ↔ v * 10 ^ k = value := by
      rw [Nat.pow_add, Nat.mul_comm (10 ^ power), ← Nat.mul_assoc, Nat.mul_left_inj (by positivity)]
    rw [hshift, shifted_down hk, hvalue]
    split
    case isTrue hlarge =>
      simp only [reduceCtorEq, false_iff, not_and]
      rintro - rfl
      have := word_lt_pow hlarge
      have := Nat.le_mul_of_pos_left (10 ^ k) (Nat.pos_of_mul_pos_right hpos)
      omega
    case isFalse =>
      have hle := Nat.div_le_self value (10 ^ k)
      split
      case isTrue hdvd =>
        rw [Except.ok.injEq]
        constructor
        · rintro rfl
          exact ⟨by omega, Nat.div_mul_cancel (Nat.dvd_of_mod_eq_zero hdvd)⟩
        · rintro ⟨-, rfl⟩
          exact Nat.mul_div_cancel _ (by positivity)
      case isFalse hrest =>
        simp only [reduceCtorEq, false_iff, not_and]
        rintro - rfl
        exact hrest (Nat.mul_mod_left _ _)
  · obtain ⟨k, rfl⟩ := Nat.exists_eq_add_of_le hle
    have hshift : ((places + k : Nat) : Int) - places = k := by omega
    have hvalue : v * 10 ^ places = value * 10 ^ (places + k) ↔ value * 10 ^ k = v := by
      rw [Nat.pow_add, Nat.mul_comm (10 ^ places), ← Nat.mul_assoc, Nat.mul_left_inj (by positivity), eq_comm]
    rw [hshift, shifted_up, hvalue]
    split
    case isTrue hlarge =>
      have := word_lt_pow hlarge
      have := Nat.le_mul_of_pos_left (10 ^ k) hpos
      simp only [reduceCtorEq, false_iff]
      omega
    case isFalse =>
      rw [mulChecked]
      split
      case isTrue hfits =>
        rw [Except.ok.injEq]
        exact ⟨fun heq => ⟨heq ▸ hfits, heq⟩, And.right⟩
      case isFalse =>
        simp only [reduceCtorEq, false_iff]
        omega

theorem shifted_notInteger (hpos : 0 < value) (hword : value < wordLimit)
    (h : shifted value ((power : Int) - places) = .error .notInteger) : ¬10 ^ places ∣ value * 10 ^ power := by
  rcases Nat.lt_or_ge power places with hlt | hle
  · obtain ⟨k, hk, rfl⟩ : ∃ k, 0 < k ∧ places = power + k := ⟨places - power, by omega, by omega⟩
    have hshift : (power : Int) - (power + k : Nat) = -(k : Int) := by omega
    rw [Nat.add_comm, Nat.pow_add, Nat.mul_dvd_mul_iff_right (by positivity)]
    rw [hshift, shifted_down hk] at h
    intro hdvd
    have hle := Nat.le_of_dvd hpos hdvd
    split_ifs at h with hlarge hrest
    · have := word_lt_pow hlarge
      omega
    · exact hrest (Nat.mod_eq_zero_of_dvd hdvd)
  · obtain ⟨k, rfl⟩ := Nat.exists_eq_add_of_le hle
    have hshift : ((places + k : Nat) : Int) - places = k := by omega
    rw [hshift, shifted_up, mulChecked] at h
    split_ifs at h <;> cases h

end Shifts

section Decimal

variable {whole : List Char} {fraction : Option (List Char)} {exponent : Option (Bool × List Char)} {scale v : Nat}

-- The parts of a decimal literal.
structure Parts (whole : List Char) (fraction : Option (List Char)) (exponent : Option (Bool × List Char)) : Prop where
  whole : ∀ c ∈ whole, c.isDigit ∨ c = '_'
  fraction : ∀ f ∈ fraction, ∀ c ∈ f, c.isDigit ∨ c = '_'
  exponent : ∀ e ∈ exponent, ∀ c ∈ e.2, c.isDigit

-- The same without underscores.
structure Bare (whole : List Char) (fraction : Option (List Char)) (exponent : Option (Bool × List Char)) : Prop where
  whole_ne : whole ≠ []
  whole : ∀ c ∈ whole, c.isDigit
  fraction : ∀ f ∈ fraction, ∀ c ∈ f, c.isDigit
  exponent : ∀ e ∈ exponent, e.2 ≠ [] ∧ ∀ c ∈ e.2, c.isDigit

theorem Bare.parts (h : Bare whole fraction exponent) : Parts whole fraction exponent where
  whole c hc := .inl (h.whole c hc)
  fraction f hf c hc := .inl (h.fraction f hf c hc)
  exponent e he := (h.exponent e he).2

theorem takeWhile_append_of_all {p : Char → Bool} {front back : List Char} (hfront : ∀ c ∈ front, p c)
    (hback : ∀ c ∈ back.head?, p c = false) : (front ++ back).takeWhile p = front := by
  rw [List.takeWhile_append_of_pos hfront]
  cases back with
  | nil => simp
  | cons c back => rw [List.takeWhile_cons_of_neg (by simp [hback c rfl]), List.append_nil]

theorem Parts.mantissa (h : Parts whole fraction exponent) :
    (whole ++ fractionText fraction ++ exponentText exponent).takeWhile (fun c => c != 'e' && c != 'E') =
      whole ++ fractionText fraction := by
  have hdigit {c : Char} (hc : c.isDigit ∨ c = '_') : (c != 'e' && c != 'E') = true := by
    rw [Bool.and_eq_true, bne_iff_ne, bne_iff_ne]
    constructor <;> rintro rfl <;> exact absurd hc (by decide)
  refine takeWhile_append_of_all (fun c hc => ?_) fun c hc => ?_
  · rcases List.mem_append.mp hc with hc | hc
    · exact hdigit (h.whole c hc)
    · cases fraction with
      | none => cases hc
      | some f =>
          rcases List.mem_cons.mp hc with rfl | hc
          · decide
          · exact hdigit (h.fraction f rfl c hc)
  · cases exponent with
    | none => cases hc
    | some e =>
        obtain rfl := Option.some.inj hc
        cases e.1 <;> decide

theorem Parts.integer (h : Parts whole fraction exponent) :
    (whole ++ fractionText fraction).takeWhile (· != '.') = whole ∧
      (whole ++ fractionText fraction).drop (whole.length + 1) = fraction.getD [] := by
  constructor
  · refine takeWhile_append_of_all (fun c hc => ?_) fun c hc => ?_
    · rw [bne_iff_ne]
      rintro rfl
      exact absurd (h.whole '.' hc) (by decide)
    · cases fraction with
      | none => cases hc
      | some f =>
          obtain rfl := Option.some.inj hc
          rfl
  · rw [← List.drop_drop, List.drop_left]
    cases fraction <;> rfl

theorem Bare.power (h : Bare whole fraction exponent) {power : Nat}
    (hpower : power = exponent.elim 0 fun e => Written.decimalNumber e.2) :
    powerOf (exponentText exponent) =
      if power < 2 ^ 63 then .ok (power : Int) else .error (.exponentTooLong (String.ofList (exponent.elim [] Prod.snd))) := by
  cases exponent with
  | none =>
      rw [hpower]
      rfl
  | some e =>
      rw [hpower]
      exact exponent_eq (h.exponent e rfl).2 (h.exponent e rfl).1

theorem Bare.digits (h : Bare whole fraction exponent) : ∀ c ∈ whole ++ fraction.getD [], c.isDigit := by
  intro c hc
  rcases List.mem_append.mp hc with hc | hc
  · exact h.whole c hc
  · cases fraction with
    | none => cases hc
    | some f => exact h.fraction f rfl c hc

theorem scaled_eq {ds : List Char} (h : ∀ c ∈ ds, c.isDigit) (places : Int) (power : Int) :
    scaled ds places scale power =
      if Written.decimalNumber ds = 0 then .ok 0
      else if Written.decimalNumber ds < wordLimit then
        if Written.decimalNumber ds * scale < wordLimit then
          shifted (Written.decimalNumber ds * scale) (Int.bmod (power - places) (1 <<< 64))
        else .error .overflow
      else .error .tooLarge := by
  have hdropped : ∀ c ∈ ds.dropWhile (· == '0'), c.isDigit := fun c hc => h c (List.dropWhile_subset _ hc)
  have hnumber : Written.decimalNumber ds = Written.decimalNumber (ds.dropWhile (· == '0')) :=
    (ofDigits_dropWhile (by decide) ds).symm
  unfold scaled
  rw [hnumber]
  cases hds : ds.dropWhile (· == '0') with
  | nil => rfl
  | cons c rest =>
      rw [hds] at hdropped
      have hc : c ≠ '0' := by
        have hhead := List.head_dropWhile_not (· == '0') (l := ds) (by simp [hds])
        simpa [hds] using hhead
      have hle := le_ofDigits (b := 10) (f := decimalDigit?) eq_zero_of_decimalDigit?
        (fun x hx => decimalDigit?_isSome.trans (hdropped x hx)) hc
      have hpow : 0 < 10 ^ rest.length := by positivity
      have hpos : Written.decimalNumber (c :: rest) ≠ 0 := (Nat.lt_of_lt_of_le hpow hle).ne'
      rw [decimalValue_eq hdropped hc, if_neg hpos, ← Written.decimalNumber]
      by_cases hword : Written.decimalNumber (c :: rest) < wordLimit
      · rw [if_pos hword, if_pos hword]
        change (mulChecked (Written.decimalNumber (c :: rest)) scale >>= fun value =>
          shifted value (Int.bmod (power - places) (1 <<< 64))) = _
        rw [mulChecked]
        split <;> rfl
      · rw [if_neg hword, if_neg hword]
        rfl

-- Such a literal does not begin like a hexadecimal one.
theorem Parts.not_hex (h : Parts whole fraction exponent) (x : Char) (rest : List Char) (hx : x = 'x' ∨ x = 'X') :
    whole ++ fractionText fraction ++ exponentText exponent ≠ '0' :: x :: rest := by
  intro heq
  have hmem : x ∈ whole ++ fractionText fraction ++ exponentText exponent := by simp [heq]
  have hnot : ¬((x.isDigit ∨ x = '_') ∨ x = '.' ∨ x = 'e' ∨ x = 'E') := by rcases hx with rfl | rfl <;> decide
  apply hnot
  rcases List.mem_append.mp hmem with hmem | hmem
  · rcases List.mem_append.mp hmem with hmem | hmem
    · exact .inl (h.whole x hmem)
    · cases fraction with
      | none => cases hmem
      | some f =>
          rcases List.mem_cons.mp hmem with rfl | hmem
          · exact .inr (.inl rfl)
          · exact .inl (h.fraction f rfl x hmem)
  · cases exponent with
    | none => cases hmem
    | some e =>
        rcases List.mem_cons.mp hmem with rfl | hmem
        · cases e.1 <;> simp
        · exact .inl (.inl (h.exponent e rfl x hmem))

-- How the parts are read one after the other.
theorem decimal_eq (h : Bare whole fraction exponent) (hsize : (fraction.getD []).length < 2 ^ 63) (power digits : Nat)
    (hpower : power = exponent.elim 0 fun e => Written.decimalNumber e.2)
    (hdigits : digits = Written.decimalNumber (whole ++ fraction.getD [])) :
    decimal (whole ++ fractionText fraction ++ exponentText exponent) scale =
      if power < 2 ^ 63 then
        if digits = 0 then .ok 0
        else if digits < wordLimit then
          if digits * scale < wordLimit then shifted (digits * scale) ((power : Int) - (fraction.getD []).length)
          else .error .overflow
        else .error .tooLarge
      else .error (.exponentTooLong (String.ofList (exponent.elim [] Prod.snd))) := by
  have hplaces : (String.ofList (fraction.getD [])).utf8ByteSize = (fraction.getD []).length :=
    utf8ByteSize_of_hex fun c hc => isHexChar_of_isDigit (h.digits c (List.mem_append_right _ hc))
  have hsplit := decimal_eq_scaled (whole ++ fractionText fraction ++ exponentText exponent) scale
  dsimp only at hsplit
  rw [h.parts.mantissa, List.drop_left, h.parts.integer.1, h.parts.integer.2, h.power hpower, hplaces] at hsplit
  rw [hsplit]
  split
  case isTrue hp =>
    have hshift : Int.bmod ((power : Int) - (fraction.getD []).length) (1 <<< 64) = (power : Int) - (fraction.getD []).length := by
      rw [Nat.one_shiftLeft]
      exact Int.bmod_eq_of_le (by omega) (by omega)
    rw [hdigits, ← hshift]
    exact scaled_eq h.digits _ _
  case isFalse => rfl

end Decimal

-- Whole literals.

def bare (cs : List Char) : List Char := cs.filter (· != '_')

theorem filterMap_bare {f : Char → Option Nat} (hf : f '_' = none) (cs : List Char) :
    (bare cs).filterMap f = cs.filterMap f := by
  rw [bare, List.filterMap_filter]
  congr 1
  funext c
  by_cases hc : c = '_'
  · simp [hc, hf]
  · simp [hc]

theorem isDigit_of_mem_bare {cs : List Char} (h : ∀ c ∈ cs, c.isDigit ∨ c = '_') : ∀ c ∈ bare cs, c.isDigit := by
  intro c hc
  obtain ⟨hmem, hne⟩ := List.mem_filter.mp hc
  exact (h c hmem).resolve_right (by simpa using hne)

theorem bare_of_isDigit {cs : List Char} (h : ∀ c ∈ cs, c.isDigit) : bare cs = cs := by
  refine List.filter_eq_self.mpr fun c hc => ?_
  rw [bne_iff_ne]
  rintro rfl
  exact absurd (h '_' hc) (by decide)

namespace Written

theorem fractionText_inj {fraction other : Option (List Char)} (h : fractionText fraction = fractionText other) :
    fraction = other := by
  cases fraction <;> cases other <;> simp_all [fractionText]

theorem exponentText_inj {exponent other : Option (Bool × List Char)} (h : exponentText exponent = exponentText other) :
    exponent = other := by
  cases exponent with
  | none => cases other <;> simp_all [exponentText]
  | some e =>
      cases other with
      | none => simp [exponentText] at h
      | some e' =>
          obtain ⟨hmark, hdigits⟩ := List.cons.inj h
          have hcapital : e.1 = e'.1 := by
            revert hmark
            cases e.1 <;> cases e'.1 <;> decide
          rw [Prod.ext hcapital hdigits]

theorem Legal.parts {whole : List Char} {fraction : Option (List Char)} {exponent : Option (Bool × List Char)}
    (h : (decimal whole fraction exponent).Legal) : Parts whole fraction exponent := by
  obtain ⟨⟨c, rest, rfl, hc, hrest⟩, hfraction, hexponent⟩ := h
  exact ⟨List.forall_mem_cons.mpr ⟨.inl hc, hrest⟩, fun f hf => (hfraction f hf).2, fun e he => (hexponent e he).2⟩

-- A text is one number at most.
theorem Legal.eq_of_text {w u : Written} (hw : w.Legal) (hu : u.Legal) (h : w.text = u.text) : w = u := by
  have hnot {whole : List Char} {fraction : Option (List Char)} {exponent : Option (Bool × List Char)}
      (hlegal : (decimal whole fraction exponent).Legal) (capital : Bool) (digits : List Char) :
      (decimal whole fraction exponent).text ≠ (hex capital digits).text :=
    hlegal.parts.not_hex _ _ (by cases capital <;> simp)
  cases w with
  | hex capital digits =>
      cases u with
      | hex capital' digits' =>
          obtain ⟨-, hmark, rfl⟩ : '0' = '0' ∧ (if capital then 'X' else 'x') = (if capital' then 'X' else 'x') ∧
              digits = digits' := by simpa [Written.text] using h
          have hcapital : capital = capital' := by
            revert hmark
            cases capital <;> cases capital' <;> decide
          rw [hcapital]
      | decimal whole fraction exponent => exact absurd h.symm (hnot hu capital digits)
  | decimal whole fraction exponent =>
      cases u with
      | hex capital digits => exact absurd h (hnot hw capital digits)
      | decimal whole' fraction' exponent' =>
          have hmantissa : whole ++ fractionText fraction = whole' ++ fractionText fraction' := by
            rw [← hw.parts.mantissa, ← hu.parts.mantissa]
            exact congrArg _ h
          rw [Written.text, Written.text, hmantissa, List.append_cancel_left_eq] at h
          have hwhole : whole = whole' := by
            rw [← hw.parts.integer.1, ← hu.parts.integer.1, hmantissa]
          rw [hwhole, List.append_cancel_left_eq] at hmantissa
          rw [hwhole, fractionText_inj hmantissa, exponentText_inj h]

-- What is read of a number, without its unit.
def reads (w : Written) (scale : Nat) : Except Cause Nat :=
  match w with
  | hex _ digits => hexValue (bare digits) >>= (mulChecked · scale)
  | decimal whole fraction exponent =>
    Number.decimal (bare whole ++ fractionText (fraction.map bare) ++ exponentText exponent) scale

theorem Legal.bare_text {whole : List Char} {fraction : Option (List Char)} {exponent : Option (Bool × List Char)}
    (h : (decimal whole fraction exponent).Legal) :
    bare (decimal whole fraction exponent).text =
      bare whole ++ fractionText (fraction.map bare) ++ exponentText exponent := by
  have hfraction : bare (fractionText fraction) = fractionText (fraction.map bare) := by
    cases fraction <;> rfl
  have hexponent : bare (exponentText exponent) = exponentText exponent := by
    cases exponent with
    | none => rfl
    | some e =>
        rw [exponentText, Option.elim_some, bare, List.filter_cons_of_pos (by cases e.1 <;> decide), ← bare,
          bare_of_isDigit (h.2.2 e rfl).2]
  rw [text, bare, List.filter_append, List.filter_append, ← bare, ← bare, ← bare, hfraction, hexponent]

theorem Legal.bare {whole : List Char} {fraction : Option (List Char)} {exponent : Option (Bool × List Char)}
    (h : (decimal whole fraction exponent).Legal) : Bare (Number.bare whole) (fraction.map Number.bare) exponent := by
  obtain ⟨⟨c, rest, rfl, hc, hrest⟩, hfraction, hexponent⟩ := h
  have hne : c ≠ '_' := by
    rintro rfl
    exact absurd hc (by decide)
  refine ⟨?_, isDigit_of_mem_bare fun d hd => ?_, fun f hf => ?_, hexponent⟩
  · simp [Number.bare, hne]
  · rcases List.mem_cons.mp hd with rfl | hd
    · exact .inl hc
    · exact hrest d hd
  · obtain ⟨g, hg, rfl⟩ := Option.mem_map.mp hf
    exact isDigit_of_mem_bare (hfraction g hg).2

theorem digits_bare (whole : List Char) (fraction : Option (List Char)) (exponent : Option (Bool × List Char)) :
    (decimal whole fraction exponent).digits =
      decimalNumber (Number.bare whole ++ (fraction.map Number.bare).getD []) := by
  have hbare : Number.bare whole ++ (fraction.map Number.bare).getD [] = Number.bare (whole ++ fraction.getD []) := by
    cases fraction <;> simp [Number.bare]
  rw [hbare, decimalNumber, filterMap_bare (by decide)]
  rfl

theorem Legal.places_eq {whole : List Char} {fraction : Option (List Char)} {exponent : Option (Bool × List Char)}
    (h : (decimal whole fraction exponent).Legal) :
    (decimal whole fraction exponent).places = ((fraction.map Number.bare).getD []).length := by
  cases fraction with
  | none => rfl
  | some f =>
      have hdigits := isDigit_of_mem_bare (h.2.1 f rfl).2
      rw [places, Option.elim_some, ← filterMap_bare (by decide),
        length_filterMap fun c hc => decimalDigit?_isSome.trans (hdigits c hc)]
      rfl

theorem Legal.parse_eq {w : Written} (h : w.Legal) {text : String} (htext : w.text = text.toList) (unit : String) :
    parse text unit =
      match unitScale.lookup unit with
      | none => .error (.unknownUnit unit)
      | some scale =>
        match w.reads scale with
        | .ok v => .ok v
        | .error cause => .error (.invalid (String.ofList (Number.bare w.text)) cause) := by
  unfold parse
  rw [← htext]
  dsimp only
  rw [← Number.bare]
  cases unitScale.lookup unit with
  | none => rfl
  | some scale =>
      cases w with
      | hex capital digits =>
          have hbare : Number.bare (hex capital digits).text =
              '0' :: (if capital then 'X' else 'x') :: Number.bare digits := by
            cases capital <;> simp [Written.text, Number.bare]
          rw [hbare]
          cases capital <;> rfl
      | decimal whole fraction exponent =>
          rw [h.bare_text]
          dsimp only
          congr 1
          split
          next hcs => exact absurd hcs (h.bare.parts.not_hex _ _ (.inl rfl))
          next hcs => exact absurd hcs (h.bare.parts.not_hex _ _ (.inr rfl))
          next => rfl

theorem Legal.reads_hex {capital : Bool} {ds : List Char} (h : (hex capital ds).Legal) (scale : Nat) :
    (hex capital ds).reads scale =
      if (hex capital ds).digits < wordLimit then mulChecked (hex capital ds).digits scale else .error .tooLarge := by
  have hds : ∀ c ∈ Number.bare ds, isHexChar c := by
    intro c hc
    obtain ⟨hmem, hne⟩ := List.mem_filter.mp hc
    exact (h.2 c hmem).resolve_right (by simpa using hne)
  rw [reads, hexValue_eq hds, filterMap_bare (by decide), ← digits.eq_1 capital]
  split <;> rfl

theorem Legal.reads_ok_iff {w : Written} (h : w.Legal) (hsize : w.places < 2 ^ 63) {scale v : Nat} (hscale : 0 < scale) :
    w.reads scale = .ok v ↔
      (w.power < 2 ^ 63 ∧ w.digits * scale < wordLimit) ∧ v < wordLimit ∧
        v * 10 ^ w.places = w.digits * scale * 10 ^ w.power := by
  cases w with
  | hex capital ds =>
      have hpart := Nat.le_mul_of_pos_right (hex capital ds).digits hscale
      have hvalue : v * 10 ^ (hex capital ds).places = (hex capital ds).digits * scale * 10 ^ (hex capital ds).power ↔
          (hex capital ds).digits * scale = v := by
        rw [places, power, pow_zero, Nat.mul_one, Nat.mul_one, eq_comm]
      have hpower : (hex capital ds).power < 2 ^ 63 := Nat.two_pow_pos 63
      rw [hvalue, h.reads_hex]
      split
      case isTrue hword =>
        rw [mulChecked]
        split
        case isTrue hfits =>
          rw [Except.ok.injEq]
          exact ⟨fun heq => ⟨⟨hpower, hfits⟩, heq ▸ hfits, heq⟩, fun h => h.2.2⟩
        case isFalse hlarge =>
          simp only [reduceCtorEq, false_iff]
          exact fun h => hlarge h.1.2
      case isFalse hlarge =>
        refine iff_of_false (fun heq => by cases heq) fun h => ?_
        omega
  | decimal whole fraction exponent =>
      rw [h.places_eq] at hsize ⊢
      rw [reads, decimal_eq h.bare hsize (decimal whole fraction exponent).power _ rfl
        (digits_bare whole fraction exponent)]
      have hpart := Nat.le_mul_of_pos_right (decimal whole fraction exponent).digits hscale
      have hlimit : 0 < wordLimit := by decide
      split
      case isTrue hpower =>
        split
        case isTrue hzero =>
          rw [hzero, Except.ok.injEq, Nat.zero_mul, Nat.zero_mul, Nat.mul_eq_zero]
          refine ⟨fun heq => ⟨⟨hpower, hlimit⟩, heq ▸ hlimit, .inl heq.symm⟩, fun h => ?_⟩
          exact (h.2.2.resolve_right (by positivity)).symm
        case isFalse hpos =>
          split
          case isTrue hword =>
            split
            case isTrue hscaled =>
              rw [shifted_ok_iff (Nat.mul_pos (Nat.pos_of_ne_zero hpos) hscale) hscaled]
              exact ⟨fun h => ⟨⟨hpower, hscaled⟩, h⟩, And.right⟩
            case isFalse hlarge => exact iff_of_false (fun heq => by cases heq) fun h => hlarge h.1.2
          case isFalse hlarge =>
            refine iff_of_false (fun heq => by cases heq) fun h => ?_
            omega
      case isFalse hlarge => exact iff_of_false (fun heq => by cases heq) fun h => hlarge h.1.1

theorem Legal.reads_notInteger {w : Written} (h : w.Legal) (hsize : w.places < 2 ^ 63) {scale : Nat} (hscale : 0 < scale)
    (hreads : w.reads scale = .error .notInteger) : ¬10 ^ w.places ∣ w.digits * scale * 10 ^ w.power := by
  cases w with
  | hex capital ds =>
      rw [h.reads_hex, mulChecked] at hreads
      split_ifs at hreads
      all_goals cases hreads
  | decimal whole fraction exponent =>
      rw [h.places_eq] at hsize ⊢
      rw [reads, decimal_eq h.bare hsize (decimal whole fraction exponent).power _ rfl
        (digits_bare whole fraction exponent)] at hreads
      split_ifs at hreads with hpower hzero hword hscaled
      case pos => exact shifted_notInteger (Nat.mul_pos (Nat.pos_of_ne_zero hzero) hscale) hscaled hreads
      all_goals cases hreads

end Written

theorem unitScale_pos {unit : String} {scale : Nat} (h : unitScale.lookup unit = some scale) : 0 < scale := by
  have hall : ∀ entry ∈ unitScale, 0 < entry.2 := by decide
  obtain ⟨before, behind, hentry, -⟩ := List.lookup_eq_some_iff.mp h
  exact hall (unit, scale) (by simp [hentry])

section Values

variable {w : Written} {scale : Nat}

theorem scaled_value_eq_iff (n : ℤ) :
    (n : ℚ) = w.value * scale ↔ n * (10 ^ w.places : Nat) = (w.digits * scale * 10 ^ w.power : Nat) := by
  have hpos : (10 : ℚ) ^ w.places ≠ 0 := by positivity
  rw [w.value_eq, ← @Int.cast_inj ℚ]
  push_cast
  rw [div_mul_eq_mul_div, eq_div_iff hpos]
  constructor <;> intro h <;> rw [h] <;> ring

end Values

variable {text : String}

theorem places_lt {w : Written} (htext : w.text = text.toList) (hsize : text.utf8ByteSize < 2 ^ 63) : w.places < 2 ^ 63 := by
  refine Nat.lt_of_le_of_lt ?_ hsize
  have hlength : w.text.length ≤ text.utf8ByteSize := by
    rw [htext]
    simpa using length_le_utf8ByteSize text.toList
  refine Nat.le_trans ?_ hlength
  cases w with
  | hex capital digits => exact Nat.zero_le _
  | decimal whole fraction exponent =>
      cases fraction with
      | none => exact Nat.zero_le _
      | some f =>
          have hle := List.length_filterMap_le decimalDigit? f
          simp only [Written.places, Written.text, fractionText, Option.elim_some, List.length_append, List.length_cons]
          omega

-- What the reader of a literal makes of the number and the unit.
theorem Written.Legal.parse_cases {w : Written} (h : w.Legal) (htext : w.text = text.toList) (unit : String) :
    (unitScale.lookup unit = none ∧ parse text unit = .error (.unknownUnit unit)) ∨
      ∃ scale, unitScale.lookup unit = some scale ∧
        ((∃ v, w.reads scale = .ok v ∧ parse text unit = .ok v) ∨
          ∃ cause read, w.reads scale = .error cause ∧ parse text unit = .error (.invalid read cause)) := by
  rw [h.parse_eq htext]
  cases unitScale.lookup unit with
  | none => exact .inl ⟨rfl, rfl⟩
  | some scale =>
      refine .inr ⟨scale, rfl, ?_⟩
      dsimp only
      cases w.reads scale with
      | ok v => exact .inl ⟨v, rfl, rfl⟩
      | error cause => exact .inr ⟨cause, _, rfl, rfl⟩

-- What is accepted is a word, and the number that is written.
theorem Written.Legal.value_of_parse {w : Written} (h : w.Legal) (htext : w.text = text.toList)
    (hsize : text.utf8ByteSize < 2 ^ 63) {unit : String} {v : Nat} (hparse : parse text unit = .ok v) :
    v < 2 ^ 256 ∧ ∃ scale, unitScale.lookup unit = some scale ∧ (v : ℚ) = w.value * scale := by
  rcases h.parse_cases htext unit with ⟨-, herror⟩ | ⟨scale, hscale, ⟨v', hreads, hok⟩ | ⟨cause, read, -, herror⟩⟩
  · rw [hparse] at herror
    cases herror
  · obtain rfl := Except.ok.inj (hparse.symm.trans hok)
    obtain ⟨-, hword, hvalue⟩ := (h.reads_ok_iff (places_lt htext hsize) (unitScale_pos hscale)).mp hreads
    exact ⟨wordLimit_eq ▸ hword, scale, hscale, (scaled_value_eq_iff (v : ℤ)).mpr (by exact_mod_cast hvalue)⟩
  · rw [hparse] at herror
    cases herror

-- An accepted literal has the value that is written, and one that is refused for not being whole has no whole value. (A
-- text has less than 2^63 bytes.)
theorem accepted_exact (h : IsNumber text) (hsize : text.utf8ByteSize < 2 ^ 63) (unit : String) :
    (∃ w : Written, w.Legal ∧ w.text = text.toList) ∧ ∀ w : Written, w.Legal → w.text = text.toList →
      (∀ v, parse text unit = .ok v →
        v < 2 ^ 256 ∧ ∃ scale, unitScale.lookup unit = some scale ∧ (v : ℚ) = w.value * scale) ∧
      ∀ read, parse text unit = .error (.invalid read .notInteger) →
        ∃ scale, unitScale.lookup unit = some scale ∧ ∀ n : ℤ, (n : ℚ) ≠ w.value * scale := by
  refine ⟨h.exists_written, fun w hw htext => ⟨fun v => hw.value_of_parse htext hsize, fun read hread => ?_⟩⟩
  rcases hw.parse_cases htext unit with ⟨-, hparse⟩ | ⟨scale, hscale, ⟨v, -, hparse⟩ | ⟨cause, read', hreads, hparse⟩⟩
  · rw [hread] at hparse
    cases hparse
  · rw [hread] at hparse
    cases hparse
  · obtain ⟨-, rfl⟩ := NumberError.invalid.inj (Except.error.inj (hread.symm.trans hparse))
    refine ⟨scale, hscale, fun n hn => hw.reads_notInteger (places_lt htext hsize) (unitScale_pos hscale) hreads ?_⟩
    have hdvd : ((10 ^ w.places : Nat) : ℤ) ∣ (w.digits * scale * 10 ^ w.power : Nat) :=
      ⟨n, by rw [← (scaled_value_eq_iff n).mp hn, Int.mul_comm]⟩
    exact Int.natCast_dvd_natCast.mp hdvd

-- One and a half ether is a whole number of wei, one and a half wei is not.
section OneAndHalf

def oneAndHalf : Written := .decimal ['1'] (some ['5']) none

theorem legal_oneAndHalf : oneAndHalf.Legal := by
  refine ⟨⟨'1', [], rfl, by decide, by simp⟩, fun f hf => ?_, by simp⟩
  obtain rfl := Option.some.inj hf
  exact ⟨by simp, by simp⟩

theorem isNumber_oneAndHalf : IsNumber "1.5" := by
  unfold IsNumber
  decide

theorem accepted_exact_ether :
    IsNumber "1.5" ∧ "1.5".utf8ByteSize < 2 ^ 63 ∧
      (parse "1.5" "ether" = .ok 1500000000000000000 ∧ (1500000000000000000 : Nat) = oneAndHalf.value * (10 ^ 18 : Nat)) ∧
      parse "1.5" "wei" = .error (.invalid "1.5" .notInteger) ∧ ∀ n : ℤ, (n : ℚ) ≠ oneAndHalf.value * (1 : Nat) := by
  have hsize : "1.5".utf8ByteSize < 2 ^ 63 := by decide
  have hether : parse "1.5" "ether" = .ok 1500000000000000000 := by decide
  have hwei : parse "1.5" "wei" = .error (.invalid "1.5" .notInteger) := by decide
  have hexact (unit : String) := (accepted_exact isNumber_oneAndHalf hsize unit).2 oneAndHalf legal_oneAndHalf rfl
  obtain ⟨-, scale, hscale, hvalue⟩ := (hexact "ether").1 _ hether
  obtain rfl := Option.some.inj hscale
  obtain ⟨scale, hscale, hnot⟩ := (hexact "wei").2 _ hwei
  obtain rfl := Option.some.inj hscale
  exact ⟨isNumber_oneAndHalf, hsize, ⟨hether, hvalue⟩, hwei, hnot⟩

end OneAndHalf

-- A literal is accepted exactly when its value is a word and so are the digits without their point, times the unit. (An
-- exponent is read as a signed number of 64 bits.)
theorem accepted_iff (h : IsNumber text) (hsize : text.utf8ByteSize < 2 ^ 63) {unit : String} {scale : Nat}
    (hunit : unitScale.lookup unit = some scale) :
    ∃ w : Written, w.Legal ∧ w.text = text.toList ∧
      ((∃ v, parse text unit = .ok v) ↔
        (∃ n : ℕ, n < 2 ^ 256 ∧ (n : ℚ) = w.value * scale) ∧ w.digits * scale < 2 ^ 256 ∧ w.power < 2 ^ 63) := by
  obtain ⟨w, hw, htext⟩ := h.exists_written
  refine ⟨w, hw, htext, ?_⟩
  have hplaces := places_lt htext hsize
  have hpos := unitScale_pos hunit
  have hvalue (n : Nat) : (n : ℚ) = w.value * scale ↔ n * 10 ^ w.places = w.digits * scale * 10 ^ w.power := by
    have hvalue := @scaled_value_eq_iff w scale n
    rw [Int.cast_natCast] at hvalue
    rw [hvalue]
    norm_cast
  have hread (v : Nat) := hw.reads_ok_iff (v := v) hplaces hpos
  rw [wordLimit_eq] at hread
  simp only [hvalue]
  rcases hw.parse_cases htext unit with ⟨hnone, -⟩ | ⟨scale', hscale, hcases⟩
  · rw [hnone] at hunit
    cases hunit
  · obtain rfl := Option.some.inj (hscale.symm.trans hunit)
    constructor
    · rintro ⟨v, hv⟩
      rcases hcases with ⟨v', hreads, -⟩ | ⟨cause, read, -, hparse⟩
      · obtain ⟨⟨hpower, hdigits⟩, hword, heq⟩ := (hread v').mp hreads
        exact ⟨⟨v', hword, heq⟩, hdigits, hpower⟩
      · rw [hparse] at hv
        cases hv
    · rintro ⟨⟨n, hword, heq⟩, hdigits, hpower⟩
      have hreads := (hread n).mpr ⟨⟨hpower, hdigits⟩, hword, heq⟩
      rcases hcases with ⟨v, -, hparse⟩ | ⟨cause, read, hfailed, -⟩
      · exact ⟨v, hparse⟩
      · rw [hreads] at hfailed
        cases hfailed

theorem accepted_iff_ether :
    IsNumber "1.5" ∧ "1.5".utf8ByteSize < 2 ^ 63 ∧ unitScale.lookup "ether" = some (Nat.pow 10 18) ∧
      ∃ w : Written, w.text = "1.5".toList ∧ w.digits * Nat.pow 10 18 < 2 ^ 256 ∧ w.power < 2 ^ 63 := by
  have hsize : "1.5".utf8ByteSize < 2 ^ 63 := by decide
  have hunit : unitScale.lookup "ether" = some (Nat.pow 10 18) := rfl
  obtain ⟨w, -, htext, haccepted⟩ := accepted_iff isNumber_oneAndHalf hsize hunit
  have hparse : parse "1.5" "ether" = .ok 1500000000000000000 := by decide
  exact ⟨isNumber_oneAndHalf, hsize, hunit, w, htext, (haccepted.mp ⟨_, hparse⟩).2⟩

-- `1.` and 78 zeros: a literal for one whose digits, without the point, are no word.
def padded : Written := .decimal ['1'] (some (List.replicate 78 '0')) none

theorem padded_refused :
    padded.Legal ∧ IsNumber (String.ofList padded.text) ∧ unitScale.lookup "" = some 1 ∧ padded.value * (1 : Nat) = 1 ∧
      ∀ v, parse (String.ofList padded.text) "" ≠ .ok v := by
  have hlegal : padded.Legal := by
    refine ⟨⟨'1', [], rfl, by decide, by simp⟩, fun f hf => ?_, by simp⟩
    obtain rfl := Option.some.inj hf
    exact ⟨by simp, fun c hc => .inl (List.eq_of_mem_replicate hc ▸ by decide)⟩
  have hnumber : IsNumber (String.ofList padded.text) := by
    unfold IsNumber
    decide
  have hzeros : Written.decimalNumber (List.replicate 78 '0') = 0 := by decide +kernel
  have hone : Written.decimalNumber ['1'] = 1 := by decide
  have hparse : parse (String.ofList padded.text) "" =
      .error (.invalid (String.ofList padded.text) .tooLarge) := by decide
  refine ⟨hlegal, hnumber, rfl, ?_, fun v hv => by rw [hparse] at hv; cases hv⟩
  rw [padded, Written.value, Option.elim_some, hzeros, hone, Written.power, Option.elim_none]
  norm_num

end RustContracts.Solidity.Number
