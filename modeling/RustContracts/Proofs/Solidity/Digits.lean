import Mathlib
import RustContracts.Solidity.Lexeme
import RustContracts.Solidity.Number

-- Numbers written in digits: what the readers of hexadecimal digits, decimal digits and exponents answer on texts that
-- hold nothing but digits.
namespace RustContracts.Solidity.Number

variable {b d : Nat} {ds es : List Nat} {cs : List Char}

theorem wordLimit_eq : wordLimit = 2 ^ 256 := Nat.one_shiftLeft 256

-- Positional notation.

theorem ofDigits_foldl (n : Nat) (ds : List Nat) :
    ds.foldl (fun n d => n * b + d) n = n * b ^ ds.length + ofDigits b ds := by
  induction ds generalizing n with
  | nil => simp [ofDigits]
  | cons d ds ih =>
      rw [ofDigits, List.foldl_cons, List.foldl_cons, ih, ih (0 * b + d), List.length_cons, pow_succ]
      ring

theorem ofDigits_cons (d : Nat) (ds : List Nat) :
    ofDigits b (d :: ds) = d * b ^ ds.length + ofDigits b ds := by
  rw [ofDigits, List.foldl_cons, ofDigits_foldl, Nat.zero_mul, Nat.zero_add]

theorem ofDigits_append (ds es : List Nat) :
    ofDigits b (ds ++ es) = ofDigits b ds * b ^ es.length + ofDigits b es := by
  rw [ofDigits, List.foldl_append, ofDigits_foldl, ← ofDigits]

theorem ofDigits_zero_cons (ds : List Nat) : ofDigits b (0 :: ds) = ofDigits b ds := by
  rw [ofDigits_cons, Nat.zero_mul, Nat.zero_add]

theorem ofDigits_lt (h : ∀ d ∈ ds, d < b) : ofDigits b ds < b ^ ds.length := by
  induction ds with
  | nil => simp [ofDigits]
  | cons d ds ih =>
      have hd : d + 1 ≤ b := h d List.mem_cons_self
      have htail := ih fun e he => h e (List.mem_cons_of_mem _ he)
      have hhead := Nat.mul_le_mul_right (b ^ ds.length) hd
      rw [ofDigits_cons, List.length_cons, pow_succ, Nat.mul_comm (b ^ ds.length)]
      rw [Nat.add_mul, Nat.one_mul] at hhead
      omega

-- Digits of one length are ordered as texts as the numbers are.
theorem ofDigits_lt_iff_lex (hds : ∀ d ∈ ds, d < b) (hes : ∀ d ∈ es, d < b) (h : ds.length = es.length) :
    ofDigits b ds < ofDigits b es ↔ ds < es := by
  induction ds generalizing es with
  | nil =>
      obtain rfl := List.eq_nil_of_length_eq_zero h.symm
      simp
  | cons d ds ih =>
      cases es with
      | nil => simp at h
      | cons e es =>
          have hlen : ds.length = es.length := by simpa using h
          have htail := ih (fun x hx => hds x (List.mem_cons_of_mem _ hx))
            (fun x hx => hes x (List.mem_cons_of_mem _ hx)) hlen
          have hdt := ofDigits_lt fun x hx => hds x (List.mem_cons_of_mem _ hx)
          have het := ofDigits_lt fun x hx => hes x (List.mem_cons_of_mem _ hx)
          rw [ofDigits_cons, ofDigits_cons, hlen, List.cons_lt_cons_iff, ← htail]
          rw [hlen] at hdt
          rcases Nat.lt_trichotomy d e with hlt | rfl | hgt
          · have := Nat.mul_le_mul_right (b ^ es.length) (Nat.succ_le_of_lt hlt)
            rw [Nat.succ_mul] at this
            simp only [hlt, true_or, iff_true]
            omega
          · simp
          · have := Nat.mul_le_mul_right (b ^ es.length) (Nat.succ_le_of_lt hgt)
            rw [Nat.succ_mul] at this
            simp only [Nat.not_lt.mpr hgt.le, hgt.ne', false_and, or_self, iff_false]
            omega

-- Texts of digits.

section Texts

variable {f : Char → Option Nat}

theorem mapM_digits (h : ∀ c ∈ cs, (f c).isSome) : cs.mapM f = some (cs.filterMap f) := by
  induction cs with
  | nil => rfl
  | cons c cs ih =>
      obtain ⟨d, hd⟩ := Option.isSome_iff_exists.mp (h c List.mem_cons_self)
      have htail := ih fun x hx => h x (List.mem_cons_of_mem _ hx)
      simp [hd, htail]

theorem length_filterMap (h : ∀ c ∈ cs, (f c).isSome) : (cs.filterMap f).length = cs.length := by
  induction cs with
  | nil => rfl
  | cons c cs ih =>
      obtain ⟨d, hd⟩ := Option.isSome_iff_exists.mp (h c List.mem_cons_self)
      rw [List.filterMap_cons_some hd, List.length_cons, List.length_cons,
        ih fun x hx => h x (List.mem_cons_of_mem _ hx)]

theorem ofDigits_dropWhile (hzero : f '0' = some 0) (cs : List Char) :
    ofDigits b ((cs.dropWhile (· == '0')).filterMap f) = ofDigits b (cs.filterMap f) := by
  induction cs with
  | nil => rfl
  | cons c cs ih =>
      by_cases hc : c = '0'
      · rw [hc, List.dropWhile_cons_of_pos (by simp), ih, List.filterMap_cons_some hzero, ofDigits_zero_cons]
      · rw [List.dropWhile_cons_of_neg (by simpa using hc)]

-- A first digit that is not zero counts.
theorem le_ofDigits (hzero : ∀ c, f c = some 0 → c = '0') {c : Char} {rest : List Char}
    (h : ∀ x ∈ c :: rest, (f x).isSome) (hc : c ≠ '0') :
    b ^ rest.length ≤ ofDigits b ((c :: rest).filterMap f) := by
  obtain ⟨d, hd⟩ := Option.isSome_iff_exists.mp (h c List.mem_cons_self)
  have hpos : 0 < d := Nat.pos_of_ne_zero fun h0 => hc (hzero c (h0 ▸ hd))
  have hlen := length_filterMap (f := f) fun x hx => h x (List.mem_cons_of_mem _ hx)
  rw [List.filterMap_cons_some hd, ofDigits_cons, hlen]
  have := Nat.mul_le_mul_right (b ^ rest.length) (Nat.succ_le_of_lt hpos)
  omega

theorem ofDigits_text_lt (hlt : ∀ c d, f c = some d → d < b) (h : ∀ c ∈ cs, (f c).isSome) :
    ofDigits b (cs.filterMap f) < b ^ cs.length := by
  rw [← length_filterMap h]
  refine ofDigits_lt fun d hd => ?_
  obtain ⟨c, -, hc⟩ := List.mem_filterMap.mp hd
  exact hlt c d hc

end Texts

-- Digits of the two bases.

theorem decimalDigit?_isSome {c : Char} : (decimalDigit? c).isSome = c.isDigit := by
  unfold decimalDigit?
  split <;> simp_all

theorem hexDigit?_isSome {c : Char} : (hexDigit? c).isSome = isHexChar c := by
  unfold hexDigit? isHexChar
  split_ifs <;> simp_all

theorem decimalDigit?_eq {c : Char} (h : decimalDigit? c = some d) : c.toNat = d + 48 ∧ d < 10 := by
  unfold decimalDigit? at h
  split at h
  · next hc =>
      obtain rfl := Option.some.inj h
      have hrange := Char.isDigit_iff_toNat.mp hc
      simp only [Char.reduceToNat] at hrange ⊢
      omega
  · cases h

theorem hexDigit?_eq {c : Char} (h : hexDigit? c = some d) :
    (c.toNat = d + 48 ∨ 10 ≤ d) ∧ d < 16 ∧ c.toNat ≤ 127 := by
  unfold hexDigit? at h
  split_ifs at h with hc hlower hupper
  · have hrange := Char.isDigit_iff_toNat.mp hc
    obtain rfl := Option.some.inj h
    simp only [Char.reduceToNat] at hrange ⊢
    omega
  · have hrange : 'a'.toNat ≤ c.toNat ∧ c.toNat ≤ 'f'.toNat := hlower
    obtain rfl := Option.some.inj h
    simp only [Char.reduceToNat] at hrange ⊢
    omega
  · have hrange : 'A'.toNat ≤ c.toNat ∧ c.toNat ≤ 'F'.toNat := hupper
    obtain rfl := Option.some.inj h
    simp only [Char.reduceToNat] at hrange ⊢
    omega

theorem eq_zero_of_decimalDigit? (c : Char) (h : decimalDigit? c = some 0) : c = '0' :=
  Char.toNat_inj.mp (decimalDigit?_eq h).1

theorem eq_zero_of_hexDigit? (c : Char) (h : hexDigit? c = some 0) : c = '0' := by
  refine Char.toNat_inj.mp ((hexDigit?_eq h).1.resolve_right ?_)
  omega

-- Texts of decimal digits are ordered as their digits are.
theorem lt_iff_of_digits {cs cs' : List Char} (h : ∀ c ∈ cs, c.isDigit) (h' : ∀ c ∈ cs', c.isDigit) :
    cs < cs' ↔ cs.filterMap decimalDigit? < cs'.filterMap decimalDigit? := by
  induction cs generalizing cs' with
  | nil =>
      cases cs' with
      | nil => simp
      | cons c' cs' =>
          obtain ⟨d', hd'⟩ := Option.isSome_iff_exists.mp (decimalDigit?_isSome.trans (h' c' List.mem_cons_self))
          simp [hd']
  | cons c cs ih =>
      obtain ⟨d, hd⟩ := Option.isSome_iff_exists.mp (decimalDigit?_isSome.trans (h c List.mem_cons_self))
      cases cs' with
      | nil => simp
      | cons c' cs' =>
          obtain ⟨d', hd'⟩ := Option.isSome_iff_exists.mp (decimalDigit?_isSome.trans (h' c' List.mem_cons_self))
          have hc := (decimalDigit?_eq hd).1
          have hc' := (decimalDigit?_eq hd').1
          have hlt : c < c' ↔ d < d' := by
            have hval : c < c' ↔ c.toNat < c'.toNat := Iff.rfl
            rw [hval]
            omega
          have heq : c = c' ↔ d = d' := by
            rw [← Char.toNat_inj]
            omega
          rw [List.filterMap_cons_some hd, List.filterMap_cons_some hd', List.cons_lt_cons_iff, List.cons_lt_cons_iff,
            hlt, heq, ih (fun x hx => h x (List.mem_cons_of_mem _ hx)) fun x hx => h' x (List.mem_cons_of_mem _ hx)]

-- Sizes.

theorem utf8ByteSize_ofList_cons (c : Char) (cs : List Char) :
    (String.ofList (c :: cs)).utf8ByteSize = c.utf8Size + (String.ofList cs).utf8ByteSize := by
  rw [← List.singleton_append, String.ofList_append, String.utf8ByteSize_append]
  congr 1
  rw [← String.size_toByteArray, String.toByteArray_ofList, List.utf8Encode_singleton, List.size_toByteArray,
    String.length_utf8EncodeChar]

theorem length_le_utf8ByteSize (cs : List Char) : cs.length ≤ (String.ofList cs).utf8ByteSize := by
  induction cs with
  | nil => simp
  | cons c cs ih =>
      have := c.utf8Size_pos
      rw [utf8ByteSize_ofList_cons, List.length_cons]
      omega

theorem utf8ByteSize_of_hex (h : ∀ c ∈ cs, isHexChar c) : (String.ofList cs).utf8ByteSize = cs.length := by
  induction cs with
  | nil => simp
  | cons c cs ih =>
      obtain ⟨d, hd⟩ := Option.isSome_iff_exists.mp (hexDigit?_isSome.trans (h c List.mem_cons_self))
      have hsize : c.utf8Size = 1 := by
        rw [Char.utf8Size_eq_one_iff, UInt32.le_iff_toNat_le]
        exact (hexDigit?_eq hd).2.2
      rw [utf8ByteSize_ofList_cons, List.length_cons, ih fun x hx => h x (List.mem_cons_of_mem _ hx), hsize, Nat.add_comm]

theorem isHexChar_of_isDigit {c : Char} (h : c.isDigit) : isHexChar c := by
  simp [isHexChar, h]

-- The readers.

theorem hexValue_eq (h : ∀ c ∈ cs, isHexChar c) :
    hexValue cs =
      if ofDigits 16 (cs.filterMap hexDigit?) < wordLimit then .ok (ofDigits 16 (cs.filterMap hexDigit?))
      else .error .tooLarge := by
  have hsome : ∀ c ∈ cs.dropWhile (· == '0'), (hexDigit? c).isSome := fun c hc =>
    hexDigit?_isSome.trans (h c (List.dropWhile_subset _ hc))
  have hsize := utf8ByteSize_of_hex fun c hc => h c (List.dropWhile_subset (· == '0') hc)
  rw [hexValue, hsize, mapM_digits hsome, wordLimit_eq, ← ofDigits_dropWhile (by decide) cs]
  generalize hds : cs.dropWhile (· == '0') = ds at hsome
  have hlt := ofDigits_text_lt (b := 16) (f := hexDigit?) (fun c d hd => (hexDigit?_eq hd).2.1) hsome
  split
  case isTrue hlong =>
    -- the first digit is not zero, so the number has as many digits as the text
    cases ds with
    | nil => simp at hlong
    | cons c rest =>
        have hc : c ≠ '0' := by
          have hhead := List.head_dropWhile_not (· == '0') (l := cs) (by simp [hds])
          simpa [hds] using hhead
        have hle := le_ofDigits (b := 16) (f := hexDigit?) eq_zero_of_hexDigit? hsome hc
        have hpow : (16 : Nat) ^ 64 ≤ 16 ^ rest.length := Nat.pow_le_pow_right (by decide) (by simpa using hlong)
        rw [if_neg (by omega)]
  case isFalse hshort =>
    have hpow : (16 : Nat) ^ ds.length ≤ 16 ^ 64 := Nat.pow_le_pow_right (by decide) (by omega)
    rw [if_pos (by omega)]

theorem decimalValue_eq {c : Char} {rest : List Char} (h : ∀ x ∈ c :: rest, x.isDigit) (hc : c ≠ '0') :
    decimalValue (c :: rest) =
      if ofDigits 10 ((c :: rest).filterMap decimalDigit?) < wordLimit then
        .ok (ofDigits 10 ((c :: rest).filterMap decimalDigit?))
      else .error .tooLarge := by
  have hsome : ∀ x ∈ c :: rest, (decimalDigit? x).isSome := fun x hx => decimalDigit?_isSome.trans (h x hx)
  have hplus : c ≠ '+' := by
    rintro rfl
    exact absurd (h '+' List.mem_cons_self) (by decide)
  have hsize := utf8ByteSize_of_hex fun x hx => isHexChar_of_isDigit (h x hx)
  have hlt := ofDigits_text_lt (b := 10) (f := decimalDigit?) (fun c d hd => (decimalDigit?_eq hd).2) hsome
  have hle := le_ofDigits (b := 10) (f := decimalDigit?) eq_zero_of_decimalDigit? hsome hc
  have hdrop : (c :: rest).dropWhile (· == '0') = c :: rest := List.dropWhile_cons_of_neg (by simpa using hc)
  obtain ⟨n, hn⟩ : ∃ n, n = ofDigits 10 ((c :: rest).filterMap decimalDigit?) := ⟨_, rfl⟩
  rw [← hn] at hlt hle ⊢
  -- a text of as many digits as the largest word is compared with it as a text
  have hcompare (hlen : (c :: rest).length = 78) :
      toString (wordLimit - 1) < String.ofList (c :: rest) ↔ wordLimit ≤ n := by
    have hmax : ∀ x ∈ (toString (wordLimit - 1)).toList, x.isDigit := fun x hx =>
      Nat.isDigit_of_mem_toDigits (b := 10) (n := wordLimit - 1) (by decide) (by decide) (by simpa using hx)
    have hlargest : (toString (wordLimit - 1)).toList.length = 78 ∧
        ofDigits 10 ((toString (wordLimit - 1)).toList.filterMap decimalDigit?) = wordLimit - 1 := by decide +kernel
    have hbelow {cs : List Char} (h : ∀ x ∈ cs, x.isDigit) : ∀ d ∈ cs.filterMap decimalDigit?, d < 10 := by
      intro d hd
      obtain ⟨x, -, hx⟩ := List.mem_filterMap.mp hd
      exact (decimalDigit?_eq hx).2
    have hsame {cs : List Char} (h : ∀ x ∈ cs, x.isDigit) : (cs.filterMap decimalDigit?).length = cs.length :=
      length_filterMap fun x hx => decimalDigit?_isSome.trans (h x hx)
    rw [String.lt_iff, String.toList_ofList, lt_iff_of_digits hmax h,
      ← ofDigits_lt_iff_lex (hbelow hmax) (hbelow h) (by rw [hsame hmax, hsame h, hlargest.1, hlen]), hlargest.2, ← hn]
    have : 0 < wordLimit := by decide
    omega
  have hpos : (c :: rest).length = rest.length + 1 := List.length_cons
  have hword : wordLimit < 10 ^ 78 ∧ 10 ^ 77 < wordLimit := by rw [wordLimit_eq]; decide
  unfold decimalValue
  split
  next more heq => exact absurd (List.cons.inj heq).1 hplus
  simp only [hdrop, hsize, mapM_digits hsome, List.isEmpty_cons, Bool.false_eq_true, if_false]
  split
  case isTrue hlong =>
    have : 10 ^ 78 ≤ 10 ^ rest.length := Nat.pow_le_pow_right (by decide) (by omega)
    rw [if_neg (by omega)]
  case isFalse hshort =>
    split
    case isTrue hbig => rw [if_neg (Nat.not_lt.mpr ((hcompare hbig.1).mp hbig.2))]
    case isFalse hfits =>
      have hn' : n < wordLimit := by
        by_cases hlen : (c :: rest).length = 78
        · exact Nat.lt_of_not_le fun hle => hfits ⟨hlen, (hcompare hlen).mpr hle⟩
        · have : 10 ^ (c :: rest).length ≤ 10 ^ 77 := Nat.pow_le_pow_right (by decide) (by omega)
          omega
      rw [if_pos hn', hn]

-- Reading stops where the number leaves the range, and what follows makes it no smaller.
theorem exponentDigits_eq (text : String) (n : Nat) (hn : n < 2 ^ 64) (h : ∀ c ∈ cs, c.isDigit) :
    exponentDigits text n cs =
      if n * 10 ^ cs.length + ofDigits 10 (cs.filterMap decimalDigit?) < 2 ^ 64 then
        .ok (n * 10 ^ cs.length + ofDigits 10 (cs.filterMap decimalDigit?))
      else .error (.exponentTooLong text) := by
  induction cs generalizing n with
  | nil =>
      have hvalue : n * 10 ^ ([] : List Char).length + ofDigits 10 (([] : List Char).filterMap decimalDigit?) = n := by
        simp [ofDigits]
      rw [exponentDigits, hvalue, if_pos hn]
  | cons c cs ih =>
      have htail : ∀ x ∈ cs, x.isDigit := fun x hx => h x (List.mem_cons_of_mem _ hx)
      obtain ⟨d, hd⟩ := Option.isSome_iff_exists.mp (decimalDigit?_isSome.trans (h c List.mem_cons_self))
      have hlen := length_filterMap (f := decimalDigit?) fun x hx => decimalDigit?_isSome.trans (htail x hx)
      have hvalue : n * 10 ^ (c :: cs).length + ofDigits 10 ((c :: cs).filterMap decimalDigit?) =
          (n * 10 + d) * 10 ^ cs.length + ofDigits 10 (cs.filterMap decimalDigit?) := by
        rw [List.filterMap_cons_some hd, ofDigits_cons, hlen, List.length_cons, pow_succ]
        ring
      rw [exponentDigits, hvalue, hd]
      simp only [Nat.one_shiftLeft]
      split
      case isTrue hbig =>
        have hpos : 0 < 10 ^ cs.length := Nat.pow_pos (by decide)
        have := Nat.le_mul_of_pos_right (n * 10 + d) hpos
        rw [if_neg (by omega)]
      case isFalse => exact ih (n * 10 + d) (by omega) htail

-- An exponent without a sign.
theorem exponent_eq (h : ∀ c ∈ cs, c.isDigit) (hne : cs ≠ []) :
    exponent cs =
      if ofDigits 10 (cs.filterMap decimalDigit?) < 2 ^ 63 then .ok (ofDigits 10 (cs.filterMap decimalDigit?) : Nat)
      else .error (.exponentTooLong (String.ofList cs)) := by
  have hsign {sign : Char} (hs : sign.isDigit = false) (rest : List Char) : cs ≠ sign :: rest := by
    rintro rfl
    rw [h sign List.mem_cons_self] at hs
    cases hs
  have hread := exponentDigits_eq (String.ofList cs) 0 (by decide) h
  rw [Nat.zero_mul, Nat.zero_add] at hread
  unfold exponent
  split
  next negative digits hdigits =>
    have hplain : (negative, digits) = (false, cs) := by
      rw [← hdigits]
      split
      · exact absurd rfl (@hsign '-' (by decide) _)
      · exact absurd rfl (@hsign '+' (by decide) _)
      · rfl
    obtain ⟨rfl, rfl⟩ := Prod.mk.inj hplain
    have hempty : digits.isEmpty = false := List.isEmpty_eq_false_iff.mpr hne
    simp only [hempty, Bool.false_eq_true, if_false, hread, Nat.one_shiftLeft]
    split
    case isTrue hlt => rfl
    case isFalse hlt =>
      rw [if_neg (by omega)]
      rfl

end RustContracts.Solidity.Number
