import RustContracts.Proofs.Emit.Writes
import RustContracts.Proofs.Rust.Integer

-- The types that hold integers in Rust, and integer literals: what is written for one has the type that is asked for
-- and denotes its value; one that the type does not have is refused.
namespace RustContracts.Emit

open Program
open Text (Position)
open Rust (IntType Integer integers? ofParts signedValue)

-- The type that holds the integers of a type, if there is one.
def holder? (target : Target) (t : IntType) : Option IntType :=
  match target with
  | .ink _ =>
    match Ink.primitiveWidth? t.bits with
    | some width => some ⟨t.signed, width⟩
    | none => if t.signed then none else some .u256
  | .soroban => some ⟨t.signed, ([32, 64, 128].find? (t.bits ≤ ·)).getD 256⟩

-- An integer type of the source.
def ofInt (t : IntType) : Ty := .int t.signed t.bits

-- The integer type that a place asks for, or else that of 256 bits.
def askedInt : Option Ty → IntType
  | some (.int signed bits) => ⟨signed, bits⟩
  | _ => ⟨false, 256⟩

-- A type of the source is written as an integer type of Rust.
def Represents (E : Env) (t : Ty) (T : IntType) : Prop :=
  T ∈ IntType.all ∧ ∀ s, ∃ s', Writes (typeText t) E s T.name s'

variable {E : Env} {s s' : State} {x : Rust.Expr} {t T : IntType} {target : Target}

-- Types.

section Holder

theorem find?_width {widths : List Nat} {bits width : Nat} (h : widths.find? (bits ≤ ·) = some width) :
    width ∈ widths ∧ bits ≤ width :=
  ⟨List.mem_of_find?_eq_some h, by simpa using List.find?_some h⟩

theorem find?_width_eq_none {widths : List Nat} {bits : Nat} (h : widths.find? (bits ≤ ·) = none) :
    ∀ width ∈ widths, width < bits := by
  simpa using h

-- The holder has the sign of the type and no less bits; it is primitive up to 128 bits.
theorem holder?_spec (hbits : t.bits ≤ 256) (h : holder? target t = some T) :
    T ∈ IntType.all ∧ T.signed = t.signed ∧ t.bits ≤ T.bits ∧
      if 128 < t.bits then T = ⟨t.signed, 256⟩ else T ∈ IntType.primitives := by
  have hprimitive : ∀ width ∈ [8, 16, 32, 64, 128], ∀ sign, (⟨sign, width⟩ : IntType) ∈ IntType.primitives := by
    decide
  have hwide : ∀ sign, (⟨sign, 256⟩ : IntType) ∈ IntType.all := by decide
  have hall : ∀ T ∈ IntType.primitives, T ∈ IntType.all := fun T hT => List.mem_append_left _ hT
  cases target with
  | ink v =>
      simp only [holder?] at h
      cases hwidth : Ink.primitiveWidth? t.bits with
      | some width =>
          rw [hwidth] at h
          obtain rfl := Option.some.inj h
          obtain ⟨hmem, hle⟩ := find?_width hwidth
          have hlt : ¬128 < t.bits := by
            have : width ≤ 128 := (by decide : ∀ w ∈ [8, 16, 32, 64, 128], w ≤ 128) _ hmem
            omega
          rw [if_neg hlt]
          exact ⟨hall _ (hprimitive _ hmem _), rfl, hle, hprimitive _ hmem _⟩
      | none =>
          rw [hwidth] at h
          have hlt := find?_width_eq_none hwidth 128 (by decide)
          cases hsign : t.signed with
          | true => simp [hsign] at h
          | false =>
              obtain rfl := Option.some.inj (show some IntType.u256 = some T by simpa [hsign] using h)
              rw [if_pos hlt]
              exact ⟨hwide false, rfl, hbits, rfl⟩
  | soroban =>
      obtain rfl := Option.some.inj h
      cases hwidth : [32, 64, 128].find? (t.bits ≤ ·) with
      | some width =>
          obtain ⟨hmem, hle⟩ := find?_width hwidth
          have hmem' : width ∈ [8, 16, 32, 64, 128] := by
            exact (by decide : ∀ w ∈ [32, 64, 128], w ∈ [8, 16, 32, 64, 128]) _ hmem
          have hlt : ¬128 < t.bits := by
            have : width ≤ 128 := (by decide : ∀ w ∈ [32, 64, 128], w ≤ 128) _ hmem
            omega
          rw [if_neg hlt, Option.getD_some]
          exact ⟨hall _ (hprimitive _ hmem' _), rfl, hle, hprimitive _ hmem' _⟩
      | none =>
          have hlt := find?_width_eq_none hwidth 128 (by decide)
          rw [if_pos hlt, Option.getD_none]
          exact ⟨hwide _, rfl, hbits, rfl⟩

-- Wide signed integers have none in ink! contracts.
theorem unsigned_of_wide {v : InkVersion} (h : holder? (.ink v) t = some T) (hwide : 128 < t.bits) :
    t.signed = false := by
  simp only [holder?] at h
  cases hwidth : Ink.primitiveWidth? t.bits with
  | some width =>
      obtain ⟨hmem, hle⟩ := find?_width hwidth
      have : width ≤ 128 := (by decide : ∀ w ∈ [8, 16, 32, 64, 128], w ≤ 128) _ hmem
      omega
  | none =>
      rw [hwidth] at h
      cases hsign : t.signed with
      | true => simp [hsign] at h
      | false => rfl

theorem writes_inkName {v : InkVersion} {name : String} :
    Writes (Ink.intName t.signed t.bits) E s name s' ↔
      s = s' ∧ ∃ T, holder? (.ink v) t = some T ∧ T.name = name := by
  have hname : ∀ width ∈ [8, 16, 32, 64, 128], ∀ sign : Bool,
      IntType.name ⟨sign, width⟩ = (if sign then "i" else "u") ++ toString width := by decide
  simp only [Ink.intName, holder?]
  cases hwidth : Ink.primitiveWidth? t.bits with
  | some width =>
      have := hname width (find?_width hwidth).1 t.signed
      simp only [writes_pure, Option.some.injEq, exists_eq_left', this]
      exact And.comm
  | none =>
      cases t.signed with
      | true => simp
      | false =>
          simp only [Bool.false_eq_true, if_false, writes_pure, Option.some.injEq, exists_eq_left']
          exact And.comm

theorem sorobanName_eq (h : holder? .soroban t = some T) : Soroban.intName t.signed t.bits = T.name := by
  have hname : ∀ width ∈ [32, 64, 128], ∀ sign : Bool,
      IntType.name ⟨sign, width⟩ = (if sign then "i" else "u") ++ toString width := by decide
  obtain rfl := Option.some.inj h
  rw [Soroban.intName]
  cases hwidth : [32, 64, 128].find? (t.bits ≤ ·) with
  | some width => exact (hname width (find?_width hwidth).1 t.signed).symm
  | none => rfl

theorem writes_useU256 (v : InkVersion) (E : Env) (s : State) : ∃ s', Writes (Ink.useU256 v) E s () s' := by
  cases v <;> exact ⟨_, rfl⟩

theorem writes_use (path : String) (E : Env) (s : State) : ∃ s', Writes (use path) E s () s' := ⟨_, rfl⟩

-- Imports that are noted on the way do not matter.
section Noted

variable {α : Type} {note : Emit Unit} {rest : Emit α} {a : α} {c : Prop} [Decidable c]

theorem writes_of_noted (hw : Writes (if c then note >>= fun _ => rest else rest) E s a s') :
    ∃ s₁, Writes rest E s₁ a s' := by
  split at hw
  · obtain ⟨_, s₁, -, hw⟩ := writes_bind.mp hw
    exact ⟨s₁, hw⟩
  · exact ⟨s, hw⟩

theorem exists_writes_noted (hnote : ∀ s, ∃ s', Writes note E s () s')
    (hrest : ∀ s, ∃ s', Writes rest E s a s') (s : State) :
    ∃ s', Writes (if c then note >>= fun _ => rest else rest) E s a s' := by
  split
  · obtain ⟨s₁, hs₁⟩ := hnote s
    obtain ⟨s', hs'⟩ := hrest s₁
    exact ⟨s', writes_bind.mpr ⟨(), s₁, hs₁, hs'⟩⟩
  · exact hrest s

end Noted

-- Integer types are written as what holds their numbers.
theorem represents_iff (hbits : t.bits ≤ 256) :
    Represents E (ofInt t) T ↔ holder? E.target t = some T := by
  have hwrites (name : String) : (∀ s, ∃ s', Writes (typeText (ofInt t)) E s name s') ↔
      ∃ T, holder? E.target t = some T ∧ T.name = name := by
    simp only [typeText, writes_of_target]
    cases htarget : E.target with
    | ink v =>
        simp only [ofInt, Ink.type]
        constructor
        · intro h
          obtain ⟨s', hw⟩ := h {}
          obtain ⟨s₁, hw⟩ := writes_of_noted hw
          exact (writes_inkName.mp hw).2
        · intro h
          exact exists_writes_noted (writes_useU256 v E) fun s => ⟨s, writes_inkName.mpr ⟨rfl, h⟩⟩
    | soroban =>
        obtain ⟨T, hT⟩ : ∃ T, holder? .soroban t = some T := ⟨_, rfl⟩
        simp only [ofInt, Soroban.type, hT, Option.some.injEq, exists_eq_left', ← sorobanName_eq hT]
        constructor
        · intro h
          obtain ⟨s', hw⟩ := h {}
          obtain ⟨s₁, hw⟩ := writes_of_noted hw
          exact (writes_pure.mp hw).1
        · rintro rfl
          exact exists_writes_noted (writes_use _ E) fun s => ⟨s, rfl⟩
  constructor
  · rintro ⟨hall, h⟩
    obtain ⟨U, hU, hname⟩ := (hwrites T.name).mp h
    rwa [← IntType.name_inj (holder?_spec hbits hU).1 hall hname]
  · intro h
    exact ⟨(holder?_spec hbits h).1, (hwrites T.name).mpr ⟨T, h, rfl⟩⟩

end Holder

-- Literals.

-- An integer literal with its sign.
def literal (p q : Position) (value : Nat) (negative : Bool) : Expr :=
  if negative then .unary p .negate (.int q value) .literal else .int p value

section Numeral

variable {negative : Bool} {value : Nat}

-- What fits a type is one of its numbers; only a signed type takes a sign.
theorem fits_iff (hbits : t.Sized) :
    Solidity.Number.fits value t.bits t.signed negative = true ↔
      (negative = true → t.signed = true) ∧ t.Holds (signedValue negative value) := by
  obtain ⟨signed, bits⟩ := t
  obtain ⟨hpos, hle⟩ : 0 < bits ∧ bits ≤ 256 := hbits
  have hcast : ((2 ^ (bits - 1) : Nat) : Int) = 2 ^ (bits - 1) := by push_cast; rfl
  have hone : 0 < 2 ^ (bits - 1) := Nat.two_pow_pos _
  have hcast' : ((2 ^ bits : Nat) : Int) = 2 ^ bits := by push_cast; rfl
  cases signed with
  | true =>
      have hwidth : (1 : Int) ≤ (bits : Int) ∧ (bits : Int) ≤ 256 := by omega
      have hpred : ((bits : Int) - 1).toNat = bits - 1 := by omega
      rw [IntType.holds_signed]
      cases negative <;>
        simp only [Solidity.Number.fits, Nat.one_shiftLeft, signedValue, if_true, hwidth, and_self, hpred, Bool.false_eq_true, if_false,
          decide_eq_true_eq, false_implies, true_implies, true_and] <;>
        omega
  | false =>
      have hlog : (value = 0 ∨ (value.log2 : Int) < bits) ↔ value < 2 ^ bits := by
        by_cases hzero : value = 0
        · simp [hzero]
        · rw [← Nat.log2_lt hzero]
          omega
      rw [IntType.holds_unsigned]
      cases negative with
      | true => simp [Solidity.Number.fits]
      | false =>
          simp only [Solidity.Number.fits, signedValue, Bool.false_eq_true, if_false, Bool.not_false, Bool.true_and,
            Bool.and_eq_true, Bool.or_eq_true, decide_eq_true_eq, hlog, false_implies, true_and]
          omega

-- The parts of a number denote it again.
theorem ofParts_limbs (hvalue : value < 2 ^ 256) :
    ofParts ([3, 2, 1, 0].map fun i => (Ink.limb value i : Int)) = value := by
  simp only [ofParts, Ink.limb, Nat.one_shiftLeft, List.map_cons, List.map_nil, List.foldl_cons, List.foldl_nil]
  omega

theorem integers?_limbs (known : Rust.Expr → Option Integer) (places : List Nat) :
    integers? known (List.replicate places.length ⟨false, 64⟩)
        (places.map fun i => .lit ("0x" ++ Text.hex 16 (Ink.limb value i))) =
      some (places.map fun i => (Ink.limb value i : Int)) := by
  induction places with
  | nil => rfl
  | cons i places ih =>
      have hlimb : IntType.Holds ⟨false, 64⟩ (Ink.limb value i) := by
        rw [IntType.holds_unsigned]
        have : Ink.limb value i < 2 ^ 64 := Nat.mod_lt _ (by decide)
        omega
      have hread := Rust.integerLiteral?_hex ⟨false, 64⟩ 16 (Ink.limb value i)
      rw [IntType.integer?, if_pos hlimb] at hread
      exact Rust.integers?_cons (Rust.integer?_lit hread) ih

-- A literal of a primitive type has its name behind the digits.
theorem suffixed_denotes (known : Rust.Expr → Option Integer) (hT : T ∈ IntType.primitives)
    (hsign : negative = true → T.signed = true) (hholds : T.Holds (signedValue negative value)) :
    (Rust.Expr.lit ((if negative then "-" else "") ++ toString value ++ T.name)).integer? known none =
      some ⟨T, signedValue negative value⟩ :=
  Rust.integer?_lit ((Rust.integerLiteral?_suffixed hT negative value).trans (IntType.signed?_of_holds hsign hholds))

theorem u256_denotes (known : Rust.Expr → Option Integer) (hvalue : value < 2 ^ 256) :
    (Ink.u256 value).integer? known none = some ⟨.u256, value⟩ := by
  rw [Ink.u256]
  split
  · next hlt =>
      have hholds : IntType.Holds ⟨false, 128⟩ (signedValue false value) := by
        rw [IntType.holds_unsigned]
        simp only [signedValue, Bool.false_eq_true, if_false]
        omega
      have hlit := suffixed_denotes known (by decide) (fun h => absurd h Bool.false_ne_true) hholds
      have htext : (if false then "-" else "") ++ toString value ++ IntType.name ⟨false, 128⟩ =
          toString value ++ "u128" := by
        rw [show IntType.name ⟨false, 128⟩ = "u128" by decide]
        simp
      rw [htext] at hlit
      rw [Rust.integer?_toU256 hlit, Integer.toU256?,
        if_pos ⟨(by decide : (⟨false, 128⟩ : IntType) ∈ IntType.primitives), Int.natCast_nonneg value⟩]
      rfl
  · have hparts : integers? known (List.replicate 4 ⟨false, 64⟩)
        ([0, 1, 2, 3].map fun i => .lit ("0x" ++ Text.hex 16 (Ink.limb value i))) = _ := integers?_limbs known [0, 1, 2, 3]
    rw [Rust.integer?_limbs hparts, ← List.map_reverse]
    exact congrArg (fun n => some (Integer.mk .u256 n)) (ofParts_limbs hvalue)

theorem inkNumeral_denotes {v : InkVersion} (hbits : t.Sized)
    (hsign : negative = true → t.signed = true) (hholds : t.Holds (signedValue negative value))
    (hw : Writes (Ink.intLiteral v value negative t.signed t.bits) E s x s') :
    ∃ T, holder? (.ink v) t = some T ∧ ∀ known, x.integer? known none = some ⟨T, signedValue negative value⟩ := by
  obtain ⟨name, s₁, hname, hw⟩ := writes_bind.mp hw
  obtain ⟨rfl, T, hT, rfl⟩ := writes_inkName.mp hname
  obtain ⟨-, hTsign, hTbits, hkind⟩ := holder?_spec hbits.2 hT
  have hholds' := hholds.mono hTsign.symm hTbits
  refine ⟨T, hT, fun known => ?_⟩
  by_cases hwide : 128 < t.bits
  · have hiswide : Ink.isWide t.bits = true := by simpa [Ink.isWide] using hwide
    have hunsigned := unsigned_of_wide hT hwide
    rw [if_pos hwide, hunsigned] at hkind
    subst hkind
    simp only [hiswide, if_true] at hw
    obtain ⟨_, s₂, -, hw⟩ := writes_bind.mp hw
    obtain ⟨rfl, -⟩ := writes_pure.mp hw
    obtain rfl : negative = false := by
      cases negative with
      | true => simp [hunsigned] at hsign
      | false => rfl
    refine u256_denotes known ?_
    have := (IntType.holds_unsigned.mp hholds').2
    simp only [signedValue, Bool.false_eq_true, if_false] at this
    exact_mod_cast this
  · have hiswide : Ink.isWide t.bits = false := by simpa [Ink.isWide] using hwide
    rw [if_neg hwide] at hkind
    simp only [hiswide, Bool.false_eq_true, if_false] at hw
    obtain ⟨rfl, -⟩ := writes_pure.mp hw
    exact suffixed_denotes known hkind (hTsign ▸ hsign) hholds'

-- A host function takes a literal without a type.
theorem hostNumeral_denotes (known : Rust.Expr → Option Integer) {path : String} {U : IntType}
    (hpath : Rust.hostNumber? path = some (T, [U])) (hsign : negative = true → U.signed = true)
    (hholds : U.Holds (signedValue negative value)) :
    (Soroban.hostCall path [.lit ((if negative then "-" else "") ++ toString value)]).integer? known none =
      some ⟨T, signedValue negative value⟩ := by
  have harg : integers? known [U] [.lit ((if negative then "-" else "") ++ toString value)] =
      some [signedValue negative value] := by
    have hread := (Rust.integerLiteral?_plain U negative value).trans (IntType.signed?_of_holds hsign hholds)
    exact Rust.integers?_cons (Rust.integer?_lit hread) rfl
  rw [Soroban.hostCall, Rust.integer?_host hpath, harg]
  simp [ofParts]

theorem sorobanNumeral_denotes (hbits : t.Sized)
    (hsign : negative = true → t.signed = true) (hholds : t.Holds (signedValue negative value))
    (hw : Writes (Soroban.intLiteral value negative t.signed t.bits) E s x s') :
    ∃ T, holder? .soroban t = some T ∧ ∀ known, x.integer? known none = some ⟨T, signedValue negative value⟩ := by
  obtain ⟨T, hT⟩ : ∃ T, holder? .soroban t = some T := ⟨_, rfl⟩
  obtain ⟨-, hTsign, hTbits, hkind⟩ := holder?_spec hbits.2 hT
  have hholds' := hholds.mono hTsign.symm hTbits
  refine ⟨T, hT, fun known => ?_⟩
  simp only [Soroban.intLiteral, sorobanName_eq hT] at hw
  by_cases hwide : 128 < t.bits
  · have hiswide : Soroban.isWide t.bits = true := by simpa [Soroban.isWide] using hwide
    rw [if_pos hwide] at hkind
    simp only [hiswide, Bool.not_true, Bool.false_eq_true, if_false] at hw
    cases hsigned : t.signed with
    | true =>
        rw [hsigned] at hkind
        subst hkind
        simp only [hsigned, if_true] at hw
        obtain ⟨_, s₂, -, hw⟩ := writes_bind.mp hw
        split at hw
        · obtain ⟨_, _, hthrow, -⟩ := writes_bind.mp hw
          exact absurd hthrow not_writes_throw
        · next hlt =>
            obtain ⟨rfl, -⟩ := writes_pure.mp hw
            refine hostNumeral_denotes known (U := ⟨true, 128⟩) (by decide) (fun _ => rfl) ?_
            rw [IntType.holds_signed]
            simp only [signedValue]
            split <;> omega
    | false =>
        rw [hsigned] at hkind
        subst hkind
        simp only [hsigned, Bool.false_eq_true, if_false] at hw
        obtain ⟨_, s₂, -, hw⟩ := writes_bind.mp hw
        obtain rfl : negative = false := by simpa [hsigned] using hsign
        have hvalue := (IntType.holds_unsigned.mp hholds').2
        simp only [signedValue, Bool.false_eq_true, if_false] at hvalue
        split at hw
        · next hlt =>
            obtain ⟨rfl, -⟩ := writes_pure.mp hw
            have hpath : Rust.hostNumber? "U256::from_u128" = some (.u256, [⟨false, 128⟩]) := by decide
            have hfits : IntType.Holds ⟨false, 128⟩ (signedValue false value) := by
              rw [IntType.holds_unsigned]
              simp only [signedValue, Bool.false_eq_true, if_false]
              omega
            have hhost := hostNumeral_denotes known hpath (fun h => absurd h Bool.false_ne_true) hfits
            simpa [IntType.u256] using hhost
        · obtain ⟨rfl, -⟩ := writes_pure.mp hw
          have hparts : integers? known (List.replicate 4 ⟨false, 64⟩)
              ([3, 2, 1, 0].map fun i => .lit ("0x" ++ Text.hex 16 (Ink.limb value i))) = _ :=
            integers?_limbs known [3, 2, 1, 0]
          rw [Soroban.hostCall, Rust.integer?_host (by decide : Rust.hostNumber? "U256::from_parts" =
            some (.u256, List.replicate 4 ⟨false, 64⟩))]
          refine (congrArg (Option.map _) hparts).trans ?_
          exact congrArg (fun n => some (Integer.mk .u256 n)) (ofParts_limbs (by exact_mod_cast hvalue))
  · have hiswide : Soroban.isWide t.bits = false := by simpa [Soroban.isWide] using hwide
    rw [if_neg hwide] at hkind
    simp only [hiswide, Bool.not_false, if_true] at hw
    obtain ⟨rfl, -⟩ := writes_pure.mp hw
    exact suffixed_denotes known hkind (hTsign ▸ hsign) hholds'

end Numeral

theorem numberLiteral_eq (expected : Option Ty) (p : Position) (value : Nat) (negative : Bool) :
    numberLiteral expected p value negative = numberLiteral (some (ofInt (askedInt expected))) p value negative := by
  cases expected with
  | none => rfl
  | some t => cases t <;> rfl

-- What is written for a number denotes it.
theorem number_denotes {t : IntType} (hbits : t.Sized) {p : Position} {value : Nat} {negative : Bool}
    (hw : Writes (numberLiteral (some (ofInt t)) p value negative) E s x s') :
    t.Holds (signedValue negative value) ∧ ∃ T, holder? E.target t = some T ∧
      ∀ known, x.integer? known none = some ⟨T, signedValue negative value⟩ := by
  cases hfit : Solidity.Number.fits value t.bits t.signed negative with
  | false =>
      simp only [numberLiteral, ofInt, hfit, Bool.not_false, if_true] at hw
      obtain ⟨_, _, hthrow, -⟩ := writes_bind.mp hw
      exact absurd hthrow not_writes_throw
  | true =>
      simp only [numberLiteral, ofInt, hfit, Bool.not_true, Bool.false_eq_true, if_false] at hw
      obtain ⟨hsign, hholds⟩ := (fits_iff hbits).mp hfit
      refine ⟨hholds, ?_⟩
      simp only [intLiteral, writes_of_target] at hw
      cases htarget : E.target with
      | ink v =>
          rw [htarget] at hw
          exact inkNumeral_denotes hbits hsign hholds hw
      | soroban =>
          rw [htarget] at hw
          exact sorobanNumeral_denotes hbits hsign hholds hw

-- A literal is no place: it is written as it stands.
theorem outcome_literal (inlined : ConstantDecl → Emit Rust.Expr) (expected : Option Ty) (p q : Position)
    (value : Nat) (negative : Bool) :
    outcome (operandAs expected (literal p q value negative) fun asked =>
        access inlined asked (literal p q value negative)) E s =
      outcome (numberLiteral expected (if negative then q else p) value negative) E s := by
  have hunit (e : Expr) (p : Position) (neg : Bool) (he : access inlined expected e = do
      let x ← numberLiteral expected p value neg
      return .value x) (hkeys : checkKeys e = pure ()) (hplace : isPlace e = pure false) (ht : writtenType expected e = .literal)
      (ht' : e.type = .literal) :
      outcome (operandAs expected e fun asked => access inlined asked e) E s =
        outcome (numberLiteral expected p value neg) E s := by
    have hcopy (s : State) : ∃ b, outcome (isCopy .literal) E s = (.ok b, s) := by
      simp only [isCopy, outcome_bind, show outcome target E s = (.ok E.target, s) from rfl]
      cases E.target <;> exact ⟨_, rfl⟩
    rcases hn : outcome (numberLiteral expected p value neg) E s with ⟨r, s'⟩
    cases r with
    | error d => simp only [operandAs, operandOf, valueOf, he, hkeys, outcome_bind, outcome_pure, hn]
    | ok x =>
        obtain ⟨b, hb⟩ := hcopy s'
        simp only [operandAs, operandOf, valueOf, he, hkeys, hplace, ht, ht', outcome_bind, outcome_pure, hn, hb,
          Bool.false_and, Bool.false_eq_true, if_false]
  cases negative with
  | true => exact hunit _ q true rfl rfl rfl rfl rfl
  | false => exact hunit _ p false rfl rfl rfl rfl rfl

-- The literals that are written: those whose value the type has, but for wide signed types. Ink! contracts have none,
-- Soroban contracts take their constants from 128 bits.

theorem exists_inkNumeral {v : InkVersion} (hwide : t.signed = true → t.bits ≤ 128) (value : Nat)
    (negative : Bool) : ∃ x s', Writes (Ink.intLiteral v value negative t.signed t.bits) E s x s' := by
  obtain ⟨T, hT⟩ : ∃ T, holder? (.ink v) t = some T := by
    simp only [holder?]
    cases hwidth : Ink.primitiveWidth? t.bits with
    | some width => exact ⟨_, rfl⟩
    | none =>
        have hlt := find?_width_eq_none hwidth 128 (by decide)
        cases hsigned : t.signed with
        | true => exact absurd (hwide hsigned) (Nat.not_le_of_lt hlt)
        | false => exact ⟨_, rfl⟩
  have hname : Writes (Ink.intName t.signed t.bits) E s T.name s := writes_inkName.mpr ⟨rfl, T, hT, rfl⟩
  cases hiswide : Ink.isWide t.bits with
  | true =>
      obtain ⟨s', hs'⟩ := writes_useU256 v E s
      refine ⟨Ink.u256 value, s', writes_bind.mpr ⟨T.name, s, hname, ?_⟩⟩
      simp only [hiswide, if_true]
      exact writes_bind.mpr ⟨(), s', hs', rfl⟩
  | false =>
      refine ⟨.lit ((if negative then "-" else "") ++ toString value ++ T.name), s,
        writes_bind.mpr ⟨T.name, s, hname, ?_⟩⟩
      simp only [hiswide, Bool.false_eq_true, if_false]
      rfl

theorem exists_sorobanNumeral {value : Nat} (hwide : t.signed = true → 128 < t.bits → value < 2 ^ 127)
    (negative : Bool) : ∃ x s', Writes (Soroban.intLiteral value negative t.signed t.bits) E s x s' := by
  simp only [Soroban.intLiteral, Nat.one_shiftLeft]
  cases hiswide : Soroban.isWide t.bits with
  | false => exact ⟨_, s, rfl⟩
  | true =>
      have hlt : 128 < t.bits := by simpa [Soroban.isWide] using hiswide
      simp only [Bool.not_true, Bool.false_eq_true, if_false]
      cases hsigned : t.signed with
      | true =>
          have hlow : ¬2 ^ 127 ≤ value := Nat.not_le_of_lt (hwide hsigned hlt)
          simp only [if_true, if_neg hlow]
          exact ⟨_, _, rfl⟩
      | false =>
          simp only [Bool.false_eq_true, if_false]
          by_cases hlow : value < 2 ^ 128
          · simp only [if_pos hlow]
            exact ⟨_, _, rfl⟩
          · simp only [if_neg hlow]
            exact ⟨_, _, rfl⟩

theorem narrow_of_inkNumeral {v : InkVersion} {value : Nat} {negative : Bool} {x : Rust.Expr}
    (hw : Writes (Ink.intLiteral v value negative t.signed t.bits) E s x s') (hsigned : t.signed = true) : t.bits ≤ 128 := by
  obtain ⟨_, s₁, hname, -⟩ := writes_bind.mp hw
  obtain ⟨-, T, hT : holder? (.ink v) t = some T, -⟩ := writes_inkName.mp hname
  by_contra hwide
  rw [unsigned_of_wide hT (Nat.not_le.mp hwide)] at hsigned
  cases hsigned

theorem lt_of_sorobanNumeral {value : Nat} {negative : Bool} {x : Rust.Expr}
    (hw : Writes (Soroban.intLiteral value negative t.signed t.bits) E s x s') (hsigned : t.signed = true)
    (hwide : 128 < t.bits) : value < 2 ^ 127 := by
  have hiswide : Soroban.isWide t.bits = true := by simpa [Soroban.isWide] using hwide
  simp only [Soroban.intLiteral, hiswide, hsigned, Nat.one_shiftLeft, Bool.not_true, Bool.false_eq_true, if_false,
    if_true] at hw
  obtain ⟨_, s₂, -, hw⟩ := writes_bind.mp hw
  split at hw
  · obtain ⟨_, _, hthrow, -⟩ := writes_bind.mp hw
    exact absurd hthrow not_writes_throw
  · next hlow => exact Nat.not_le.mp hlow

theorem number_written_iff (hbits : t.Sized) (p : Position) (value : Nat) (negative : Bool) :
    (∃ x s', Writes (numberLiteral (some (ofInt t)) p value negative) E s x s') ↔
      ((negative = true → t.signed = true) ∧ t.Holds (signedValue negative value)) ∧
        (t.signed = true → 128 < t.bits → E.target = .soroban ∧ value < 2 ^ 127) := by
  rw [← fits_iff hbits]
  cases hfit : Solidity.Number.fits value t.bits t.signed negative with
  | false =>
      refine iff_of_false ?_ fun h => Bool.false_ne_true h.1
      rintro ⟨x, s', hw⟩
      simp only [numberLiteral, ofInt, hfit, Bool.not_false, if_true] at hw
      obtain ⟨_, _, hthrow, -⟩ := writes_bind.mp hw
      exact absurd hthrow not_writes_throw
  | true =>
      simp only [numberLiteral, ofInt, hfit, Bool.not_true, Bool.false_eq_true, if_false, intLiteral, writes_of_target,
        true_and]
      cases htarget : E.target with
      | ink v =>
          constructor
          · rintro ⟨x, s', hw⟩ hsigned hwide
            exact absurd hwide (Nat.not_lt.mpr (narrow_of_inkNumeral hw hsigned))
          · intro hwide
            refine exists_inkNumeral (fun hsigned => Nat.not_lt.mp fun hlt => ?_) value negative
            cases (hwide hsigned hlt).1
      | soroban =>
          constructor
          · rintro ⟨x, s', hw⟩ hsigned hwide
            exact ⟨rfl, lt_of_sorobanNumeral hw hsigned hwide⟩
          · exact fun hwide => exists_sorobanNumeral (fun hsigned hlt => (hwide hsigned hlt).2) negative

-- A literal of a type of up to 256 bits is written only if the type has its value; it then has the Rust type for it
-- and denotes the value. Values that the type does not have are refused for their size; all others are written, but for
-- those of wide signed types, of which ink! contracts have none and Soroban contracts take those from 128 bits.
theorem literal_denotes (E : Env) (inlined : ConstantDecl → Emit Rust.Expr) (t : IntType)
    (hbits : t.Sized) (p q : Position) (value : Nat) (negative : Bool) :
    let written := operandAs (some (ofInt t)) (literal p q value negative) fun asked =>
      access inlined asked (literal p q value negative)
    (∀ s x s', Writes written E s x s' →
        t.Holds (signedValue negative value) ∧ ∃ T, Represents E (ofInt t) T ∧
          ∀ known, x.integer? known none = some ⟨T, signedValue negative value⟩) ∧
      (¬t.Holds (signedValue negative value) → ∀ s, ∃ d, outcome written E s = (.error (.fault d), s) ∧
        d.kind = .unsupportedNumSize) ∧
      ∀ s, (∃ x s', Writes written E s x s') ↔
        ((negative = true → t.signed = true) ∧ t.Holds (signedValue negative value)) ∧
          (t.signed = true → 128 < t.bits → E.target = .soroban ∧ value < 2 ^ 127) := by
  intro written
  refine ⟨?_, ?_, fun s => ?_⟩
  · intro s x s' hw
    have hw' : Writes (numberLiteral (some (ofInt t)) (if negative then q else p) value negative) E s x s' := by
      rwa [Writes, ← outcome_literal inlined]
    simp only [represents_iff hbits.2]
    exact number_denotes hbits hw'
  · intro hnot s
    have hfit : Solidity.Number.fits value t.bits t.signed negative = false := by
      rw [Bool.eq_false_iff, ne_eq, fits_iff hbits]
      exact fun h => hnot h.2
    refine ⟨.numSize (if negative then q else p) ((if negative then "-" else "") ++ toString value ++
        " does not fit in " ++ Ty.intText t.signed t.bits), ?_, rfl⟩
    refine (outcome_literal inlined _ p q value negative).trans ?_
    simp only [numberLiteral, ofInt, hfit]
    rfl
  · rw [← number_written_iff (s := s) hbits (if negative then q else p) value negative]
    simp only [Writes, ← outcome_literal inlined, written]

-- `-8388608` is the least number of 24 bits with a sign; without the sign it is too large.
theorem least_of_24_bits :
    let E : Env := ⟨{ name := "sample", classes := [] }, default, .ink .v5⟩
    let t : IntType := ⟨true, 24⟩
    let inlined : ConstantDecl → Emit Rust.Expr := constantValue 0
    (t.Sized) ∧
      (∃ T, Represents E (ofInt t) T ∧
        ∀ known, (Rust.Expr.lit "-8388608i32").integer? known none = some ⟨T, -8388608⟩) ∧
      ∃ d, outcome (operandAs (some (ofInt t)) (literal {} {} 8388608 false) fun asked =>
          access inlined asked (literal {} {} 8388608 false)) E {} = (.error (.fault d), {}) ∧ d.kind = .unsupportedNumSize := by
  intro E t inlined
  have hbits : t.Sized := by decide
  refine ⟨hbits, ?_, ?_⟩
  · exact ((literal_denotes E inlined t hbits {} {} 8388608 true).1 {} _ {} rfl).2
  · exact (literal_denotes E inlined t hbits {} {} 8388608 false).2.1 (by decide) {}

end RustContracts.Emit
