import RustContracts.Proofs.Emit.Literal

-- Conversions between integer types, and the bounds of integer types, as Rust reads them: which of them yield what the
-- source asks for. Numbers are reduced to what holds them, which may be wider than their type.
namespace RustContracts.Emit

open Program
open Text (Position)
open Rust (IntType Integer integers? ofParts)

-- The conversion of a number into a type that `holder` holds yields what the type asks for.
structure Faithful (target : Target) (source result holder : IntType) (v : Int) : Prop where
  -- the number is reduced to the holder; that has to be a number of the type
  reduced : result.Holds (holder.wrap v)
  -- from 128 bits up there are no negative numbers in ink! contracts, and Soroban's come from 128 bits of their sign
  widened : source.bits ≤ 128 → 128 < result.bits →
    match target with
    | .ink _ => 0 ≤ v
    | .soroban => IntType.Holds ⟨result.signed, 128⟩ v
  -- Soroban's wide numbers have to fit 128 bits, whatever they are cut down to
  narrowed : result.bits ≤ 128 → 128 < source.bits → target = .soroban → IntType.Holds ⟨source.signed, 128⟩ v

variable {E : Env} {s s' : State} {x y : Rust.Expr} {source result S T : IntType} {v : Int}
variable {known : Rust.Expr → Option Integer}

-- What is reduced to a wider type is reduced to the narrower one exactly when it fits.
theorem wrap_eq_iff (hpos : 0 < result.bits) (hle : result.bits ≤ T.bits) :
    T.wrap v = result.wrap v ↔ result.Holds (T.wrap v) := by
  constructor
  · intro h
    rw [h]
    exact IntType.holds_wrap hpos v
  · intro h
    rw [← IntType.wrap_wrap hle, IntType.wrap_of_holds hpos h]

theorem yields_iff {n : Int} : (some (Integer.mk T n) = some ⟨T, result.wrap v⟩) ↔ n = result.wrap v := by
  simp

-- Casts.

theorem cast_denotes (hS : S ∈ IntType.primitives) (hT : T ∈ IntType.primitives)
    (hx : x.integer? known none = some ⟨S, v⟩) (asked : Option IntType) :
    (Rust.Expr.cast x T.name).integer? known asked = some ⟨T, T.wrap v⟩ := by
  rw [Rust.integer?_cast hx, Integer.cast?, if_pos hS, IntType.primitive?_name hT]
  rfl

-- A number that a primitive type has.
theorem lt_of_narrow (hv : source.Holds v) (hnarrow : source.bits ≤ 128) : -2 ^ 127 ≤ v ∧ v < 2 ^ 128 := by
  have hwide : IntType.Holds ⟨source.signed, 128⟩ v := hv.mono rfl hnarrow
  cases hsign : source.signed with
  | true =>
      rw [hsign, IntType.holds_signed] at hwide
      omega
  | false =>
      rw [hsign, IntType.holds_unsigned] at hwide
      omega

-- What fits 128 bits of the sign fits every wider type of it.
theorem holds_of_narrow (hwide : 128 < result.bits) (h : IntType.Holds ⟨result.signed, 128⟩ v) : result.Holds v :=
  h.mono rfl (Nat.le_of_lt hwide)

namespace Faithful

variable {target : Target}

theorem iff_reduced (h : 128 < source.bits ↔ 128 < result.bits) :
    Faithful target source result T v ↔ result.Holds (T.wrap v) :=
  ⟨fun hf => hf.reduced, fun hr => ⟨hr, by omega, by omega⟩⟩

theorem iff_widened (hsource : source.bits ≤ 128) (hresult : 128 < result.bits) :
    Faithful target source result T v ↔ result.Holds (T.wrap v) ∧
      match target with
      | .ink _ => 0 ≤ v
      | .soroban => IntType.Holds ⟨result.signed, 128⟩ v :=
  ⟨fun hf => ⟨hf.reduced, hf.widened hsource hresult⟩, fun hr => ⟨hr.1, fun _ _ => hr.2, by omega⟩⟩

theorem iff_narrowed (hresult : result.bits ≤ 128) (hsource : 128 < source.bits) :
    Faithful target source result T v ↔
      result.Holds (T.wrap v) ∧ (target = .soroban → IntType.Holds ⟨source.signed, 128⟩ v) :=
  ⟨fun hf => ⟨hf.reduced, hf.narrowed hresult hsource⟩, fun hr => ⟨hr.1, by omega, fun _ _ => hr.2⟩⟩

end Faithful

-- A wide number of a sign is made from 128 bits of it.
theorem hostCast_denotes {path : String} {sign : Bool}
    (hpath : Rust.hostNumber? path = some (⟨sign, 256⟩, [⟨sign, 128⟩])) (hS : S ∈ IntType.primitives)
    (hx : x.integer? known none = some ⟨S, v⟩) :
    (Soroban.hostCall path [.cast x (IntType.name ⟨sign, 128⟩)]).integer? known none =
      some ⟨⟨sign, 256⟩, IntType.wrap ⟨sign, 128⟩ v⟩ := by
  have hprimitive : ∀ sign, (⟨sign, 128⟩ : IntType) ∈ IntType.primitives := by decide
  have harg := Rust.integers?_cons (cast_denotes hS (hprimitive sign) hx (some ⟨sign, 128⟩))
    (show integers? known [] [] = some [] from rfl)
  rw [Soroban.hostCall, Rust.integer?_host hpath, harg]
  simp [ofParts]

-- 128 bits of the sign have a number exactly when they have what it is reduced to, if it comes from a narrow type.
theorem wrap_eq_wide_iff (hv : source.Holds v) (hnarrow : source.bits ≤ 128) (hwide : 128 < result.bits) :
    IntType.wrap ⟨result.signed, 128⟩ v = result.wrap v ↔ IntType.Holds ⟨result.signed, 128⟩ v := by
  constructor
  · intro h
    obtain ⟨hlow, hhigh⟩ := lt_of_narrow hv hnarrow
    have hholds := IntType.holds_wrap (t := ⟨result.signed, 128⟩) (Nat.zero_lt_succ _) v
    suffices hself : result.wrap v = v by rwa [h, hself] at hholds
    refine IntType.wrap_of_holds (by omega) ?_
    obtain ⟨sign, bits⟩ := result
    change 128 < bits at hwide
    cases sign with
    | true =>
        have hpow := IntType.two_pow_le (show 128 ≤ bits - 1 by omega)
        rw [IntType.holds_signed]
        omega
    | false =>
        have hpow := IntType.two_pow_le (show 129 ≤ bits from hwide)
        rw [IntType.holds_unsigned] at hholds ⊢
        refine ⟨?_, by omega⟩
        -- a negative number would come out larger than 128 bits
        by_contra hneg
        have hmod : IntType.wrap ⟨false, bits⟩ v = v + 2 ^ bits := by
          change v % 2 ^ bits = v + 2 ^ bits
          rw [← Int.add_emod_right]
          exact Int.emod_eq_of_lt (by omega) (by omega)
        omega
  · intro h
    rw [IntType.wrap_of_holds (Nat.zero_lt_succ _) h, IntType.wrap_of_holds (by omega) (holds_of_narrow hwide h)]

-- The ways to write a conversion of a number from one holder to another.
inductive Converted (target : Target) (source result S T : IntType) (x : Rust.Expr) : Rust.Expr → Prop where
  | kept (hsource : 128 < source.bits) (hresult : 128 < result.bits) (hheld : S = T) :
      Converted target source result S T x x
  | cut (hsource : ¬128 < source.bits) (hresult : ¬128 < result.bits) (hS : S ∈ IntType.primitives)
      (hT : T ∈ IntType.primitives) : Converted target source result S T x (.cast x T.name)
  | widenedInk {v : InkVersion} (htarget : target = .ink v) (hsource : ¬128 < source.bits) (hresult : 128 < result.bits)
      (hS : S ∈ IntType.primitives) (hT : T = .u256) :
      Converted target source result S T x (.callPath "U256::from" [x])
  | widenedSoroban {path : String} (htarget : target = .soroban) (hsource : ¬128 < source.bits)
      (hresult : 128 < result.bits) (hS : S ∈ IntType.primitives) (hT : T = ⟨result.signed, 256⟩)
      (hpath : Rust.hostNumber? path = some (⟨result.signed, 256⟩, [⟨result.signed, 128⟩])) :
      Converted target source result S T x
        (Soroban.hostCall path [.cast x (IntType.name ⟨result.signed, 128⟩)])
  | narrowedInk {v : InkVersion} (htarget : target = .ink v) (hsource : 128 < source.bits)
      (hresult : ¬128 < result.bits) (hS : S = .u256) (hT : T ∈ IntType.primitives) :
      Converted target source result S T x (.cast (x.method "low_u128") T.name)
  | narrowedSoroban (htarget : target = .soroban) (hsource : 128 < source.bits) (hresult : ¬128 < result.bits)
      (hS : S = ⟨source.signed, 256⟩) (hT : T ∈ IntType.primitives) :
      Converted target source result S T x
        (.cast ((x.method (if source.signed then "to_i128" else "to_u128")).method "unwrap") T.name)

theorem converted_ink {version : InkVersion} (hsource : source.Sized) (hresult : result.Sized)
    (hS : holder? (.ink version) source = some S)
    (hw : Writes (Ink.cast version x (ofInt source) (ofInt result)) E s y s') :
    ∃ T, holder? (.ink version) result = some T ∧ Converted (.ink version) source result S T x y := by
  obtain ⟨name, s₁, hname, hw⟩ := writes_bind.mp hw
  obtain ⟨rfl, T, hT, rfl⟩ := writes_inkName.mp hname
  have hSkind := (holder?_spec hsource.2 hS).2.2.2
  have hTkind := (holder?_spec hresult.2 hT).2.2.2
  refine ⟨T, hT, ?_⟩
  by_cases hwide : 128 < result.bits <;> by_cases hwide' : 128 < source.bits
  -- wide to wide
  · simp only [Ink.isWide, hwide, hwide', decide_true] at hw
    obtain ⟨rfl, -⟩ := writes_pure.mp hw
    rw [if_pos hwide, unsigned_of_wide hT hwide] at hTkind
    rw [if_pos hwide', unsigned_of_wide hS hwide'] at hSkind
    exact .kept hwide' hwide (hSkind.trans hTkind.symm)
  -- narrow to wide
  · simp only [Ink.isWide, hwide, hwide', decide_true, decide_false] at hw
    obtain ⟨_, s₂, -, hw⟩ := writes_bind.mp hw
    obtain ⟨rfl, -⟩ := writes_pure.mp hw
    rw [if_pos hwide, unsigned_of_wide hT hwide] at hTkind
    rw [if_neg hwide'] at hSkind
    exact .widenedInk rfl hwide' hwide hSkind hTkind
  -- wide to narrow
  · simp only [Ink.isWide, hwide, hwide', decide_true, decide_false] at hw
    obtain ⟨rfl, -⟩ := writes_pure.mp hw
    rw [if_neg hwide] at hTkind
    rw [if_pos hwide', unsigned_of_wide hS hwide'] at hSkind
    exact .narrowedInk rfl hwide' hwide hSkind hTkind
  -- narrow to narrow
  · simp only [Ink.isWide, hwide, hwide', decide_false] at hw
    obtain ⟨rfl, -⟩ := writes_pure.mp hw
    rw [if_neg hwide] at hTkind
    rw [if_neg hwide'] at hSkind
    exact .cut hwide' hwide hSkind hTkind

theorem converted_soroban (hsource : source.Sized) (hresult : result.Sized) (hS : holder? .soroban source = some S)
    (hw : Writes (Soroban.cast x (ofInt source) (ofInt result)) E s y s') :
    ∃ T, holder? .soroban result = some T ∧ Converted .soroban source result S T x y := by
  obtain ⟨T, hT⟩ : ∃ T, holder? .soroban result = some T := ⟨_, rfl⟩
  have hSkind := (holder?_spec hsource.2 hS).2.2.2
  have hTkind := (holder?_spec hresult.2 hT).2.2.2
  refine ⟨T, hT, ?_⟩
  rw [ofInt, ofInt, Soroban.cast] at hw
  simp only [sorobanName_eq hT] at hw
  by_cases hwide : 128 < result.bits <;> by_cases hwide' : 128 < source.bits
  -- wide to wide
  · simp only [Soroban.isWide, hwide, hwide', decide_true] at hw
    rw [if_pos hwide] at hTkind
    rw [if_pos hwide'] at hSkind
    split at hw
    · next hsign =>
        obtain ⟨rfl, -⟩ := writes_pure.mp hw
        exact .kept hwide' hwide (by rw [hSkind, hTkind, hsign])
    · exact absurd hw not_writes_throw
  -- narrow to wide
  · simp only [Soroban.isWide, hwide, hwide', decide_true, decide_false] at hw
    obtain ⟨_, s₂, -, hw⟩ := writes_bind.mp hw
    rw [if_pos hwide] at hTkind
    rw [if_neg hwide'] at hSkind
    have hwidened {path : String}
        (hpath : Rust.hostNumber? path = some (⟨result.signed, 256⟩, [⟨result.signed, 128⟩])) :
        Converted .soroban source result S T x (Soroban.hostCall path [.cast x (IntType.name ⟨result.signed, 128⟩)]) :=
      .widenedSoroban rfl hwide' hwide hSkind hTkind hpath
    cases hsign : result.signed with
    | true =>
        rw [hsign] at hw hwidened
        obtain ⟨rfl, -⟩ := writes_pure.mp hw
        exact hwidened (by decide)
    | false =>
        rw [hsign] at hw hwidened
        obtain ⟨rfl, -⟩ := writes_pure.mp hw
        exact hwidened (by decide)
  -- wide to narrow
  · simp only [Soroban.isWide, hwide, hwide', decide_true, decide_false] at hw
    obtain ⟨rfl, -⟩ := writes_pure.mp hw
    rw [if_neg hwide] at hTkind
    rw [if_pos hwide'] at hSkind
    exact .narrowedSoroban rfl hwide' hwide hSkind hTkind
  -- narrow to narrow
  · simp only [Soroban.isWide, hwide, hwide', decide_false] at hw
    obtain ⟨rfl, -⟩ := writes_pure.mp hw
    rw [if_neg hwide] at hTkind
    rw [if_neg hwide'] at hSkind
    exact .cut hwide' hwide hSkind hTkind

-- Every conversion is written in one of these ways, to what holds the result.
theorem writes_convert (hsource : source.Sized) (hresult : result.Sized) (hS : holder? E.target source = some S)
    (hw : Writes (convert x (ofInt source) (ofInt result)) E s y s') :
    ∃ T, holder? E.target result = some T ∧ Converted E.target source result S T x y := by
  simp only [convert, writes_of_target] at hw
  cases htarget : E.target with
  | ink v =>
      rw [htarget] at hw hS
      exact converted_ink hsource hresult hS hw
  | soroban =>
      rw [htarget] at hw hS
      exact converted_soroban hsource hresult hS hw

-- What each of them yields.
theorem yields_of_converted {target : Target} (hsource : source.Sized) (hresult : result.Sized)
    (hS : holder? target source = some S) (hT : holder? target result = some T)
    (hx : x.integer? known none = some ⟨S, v⟩) (hv : source.Holds v) (hy : Converted target source result S T x y) :
    y.integer? known none = some ⟨T, result.wrap v⟩ ↔ Faithful target source result T v := by
  obtain ⟨-, hSsign, hSbits, -⟩ := holder?_spec hsource.2 hS
  obtain ⟨-, hTsign, hTbits, -⟩ := holder?_spec hresult.2 hT
  have hSv := hv.mono hSsign.symm hSbits
  have hwrap := wrap_eq_iff (v := v) hresult.1 hTbits
  cases hy with
  | kept hwide' hwide hheld =>
      subst hheld
      have hself : S.wrap v = v := IntType.wrap_of_holds (by omega) hSv
      rw [Faithful.iff_reduced (iff_of_true hwide' hwide), ← hwrap, hx, yields_iff, hself]
  | cut hwide' hwide hSkind hTkind =>
      rw [Faithful.iff_reduced (iff_of_false hwide' hwide), ← hwrap, cast_denotes hSkind hTkind hx, yields_iff]
  | widenedInk htarget hwide' hwide hSkind hTkind =>
      subst hTkind htarget
      have hlt := (lt_of_narrow hv (Nat.le_of_not_lt hwide')).2
      rw [Faithful.iff_widened (Nat.le_of_not_lt hwide') hwide, ← hwrap, Rust.integer?_toU256 hx, Integer.toU256?]
      by_cases hnonneg : 0 ≤ v
      · rw [if_pos ⟨hSkind, hnonneg⟩]
        have hfits : IntType.Holds ⟨false, 256⟩ v := by
          rw [IntType.holds_unsigned]
          omega
        have hself := IntType.wrap_of_holds (by decide) hfits
        simp only [IntType.u256, hself, hnonneg, and_true]
        exact yields_iff
      · rw [if_neg (fun h => hnonneg h.2)]
        simp [hnonneg]
  | widenedSoroban htarget hwide' hwide hSkind hTkind hpath =>
      subst hTkind htarget
      rw [Faithful.iff_widened (Nat.le_of_not_lt hwide') hwide, hostCast_denotes hpath hSkind hx, yields_iff,
        wrap_eq_wide_iff hv (Nat.le_of_not_lt hwide') hwide]
      refine (and_iff_right_of_imp fun h => ?_).symm
      have hfits : IntType.Holds ⟨result.signed, 256⟩ v := (holds_of_narrow hwide h).mono rfl hTbits
      rw [← hwrap, IntType.wrap_of_holds (Nat.zero_lt_succ _) hfits,
        IntType.wrap_of_holds (by omega) (holds_of_narrow hwide h)]
  | narrowedInk htarget hwide' hwide hSkind hTkind =>
      subst hSkind htarget
      have hlow : (x.method "low_u128").integer? known none =
          some ⟨⟨false, 128⟩, IntType.wrap ⟨false, 128⟩ v⟩ := Rust.integer?_lowBits hx
      rw [Faithful.iff_narrowed (Nat.le_of_not_lt hwide) hwide', ← hwrap, cast_denotes (by decide) hTkind hlow,
        IntType.wrap_wrap (IntType.bits_le_of_primitive hTkind).2]
      simp
  | narrowedSoroban htarget hwide' hwide hSkind hTkind =>
      subst hSkind htarget
      have hnarrow : ((x.method (if source.signed then "to_i128" else "to_u128")).method "unwrap").integer? known none =
          IntType.integer? ⟨source.signed, 128⟩ v := Rust.integer?_narrow hx
      rw [Faithful.iff_narrowed (Nat.le_of_not_lt hwide) hwide', ← hwrap]
      by_cases hfits : IntType.Holds ⟨source.signed, 128⟩ v
      · rw [IntType.integer?, if_pos hfits] at hnarrow
        have hprimitive : ∀ sign, (⟨sign, 128⟩ : IntType) ∈ IntType.primitives := by decide
        rw [cast_denotes (hprimitive _) hTkind hnarrow, yields_iff]
        simp [hfits]
      · rw [IntType.integer?, if_neg hfits] at hnarrow
        simp [Rust.Expr.integer?, hnarrow, hfits]

-- Bounds.

-- The largest or smallest number of a type.
def extreme (t : IntType) (isMax : Bool) : Int := if isMax then t.max else t.min

theorem bound_denotes (isMax : Bool) (hT : T ∈ IntType.primitives) :
    (Rust.Expr.lit (T.name ++ (if isMax then "::MAX" else "::MIN"))).integer? known none =
      some ⟨T, extreme T isMax⟩ := by
  have hread : ∀ T ∈ IntType.primitives, ∀ isMax : Bool,
      Rust.numeral? none (T.name ++ (if isMax then "::MAX" else "::MIN")) = some ⟨T, extreme T isMax⟩ := by
    decide +kernel
  rw [Rust.Expr.integer?, hread T hT]

-- The bound of a wide type from its parts, of which the highest has the sign.
theorem parts_denote {sign isMax : Bool} {high low : String}
    (hhigh : Rust.numeral? (some ⟨sign, 64⟩) high = some ⟨⟨sign, 64⟩, extreme ⟨sign, 64⟩ isMax⟩)
    (hlow : Rust.numeral? (some ⟨false, 64⟩) low = some ⟨⟨false, 64⟩, extreme ⟨false, 64⟩ isMax⟩) :
    (Soroban.hostCall (IntType.name ⟨sign, 256⟩ ++ "::from_parts") ([high, low, low, low].map .lit)).integer? known none =
      some ⟨⟨sign, 256⟩, extreme ⟨sign, 256⟩ isMax⟩ := by
  have hpath : Rust.hostNumber? (IntType.name ⟨sign, 256⟩ ++ "::from_parts") =
      some (⟨sign, 256⟩, [⟨sign, 64⟩, ⟨false, 64⟩, ⟨false, 64⟩, ⟨false, 64⟩]) := by
    clear hhigh
    revert sign
    decide
  have hvalue : ∀ sign isMax, ofParts [extreme ⟨sign, 64⟩ isMax, extreme ⟨false, 64⟩ isMax, extreme ⟨false, 64⟩ isMax,
      extreme ⟨false, 64⟩ isMax] = extreme ⟨sign, 256⟩ isMax := by decide
  have hpart : (Rust.Expr.lit low).integer? known (some ⟨false, 64⟩) =
      some ⟨⟨false, 64⟩, extreme ⟨false, 64⟩ isMax⟩ := by rw [Rust.Expr.integer?, hlow]
  have hfirst : (Rust.Expr.lit high).integer? known (some ⟨sign, 64⟩) =
      some ⟨⟨sign, 64⟩, extreme ⟨sign, 64⟩ isMax⟩ := by rw [Rust.Expr.integer?, hhigh]
  have hparts := Rust.integers?_cons hfirst (Rust.integers?_cons hpart (Rust.integers?_cons hpart
    (Rust.integers?_cons hpart (show integers? known [] [] = some [] from rfl))))
  rw [Soroban.hostCall, Rust.integer?_host hpath]
  simp only [List.map_cons, List.map_nil, hparts, Option.map_some, hvalue]

theorem intBound_denotes {t : IntType} {isMax : Bool} (hbits : t.Sized)
    (hw : Writes (intBound t.signed t.bits isMax) E s y s') :
    ∃ T, holder? E.target t = some T ∧ ∀ known, y.integer? known none = some ⟨T, extreme T isMax⟩ := by
  simp only [intBound, writes_of_target] at hw
  cases htarget : E.target with
  | ink v =>
      rw [htarget] at hw
      obtain ⟨name, s₁, hname, hw⟩ := writes_bind.mp hw
      obtain ⟨rfl, T, hT, rfl⟩ := writes_inkName.mp hname
      have hkind := (holder?_spec hbits.2 hT).2.2.2
      refine ⟨T, hT, fun known => ?_⟩
      by_cases hwide : 128 < t.bits
      · rw [if_pos hwide, unsigned_of_wide hT hwide] at hkind
        simp only [Ink.isWide, hwide, decide_true, if_true] at hw
        obtain ⟨_, s₂, -, hw⟩ := writes_bind.mp hw
        obtain ⟨rfl, -⟩ := writes_pure.mp hw
        have hread : ∀ isMax : Bool, Rust.numeral? none (if isMax then "U256::MAX" else "U256::zero()") =
            some ⟨.u256, extreme .u256 isMax⟩ := by decide
        rw [hkind, Rust.Expr.integer?, hread]
        rfl
      · rw [if_neg hwide] at hkind
        simp only [Ink.isWide, hwide, decide_false, Bool.false_eq_true, if_false] at hw
        obtain ⟨rfl, -⟩ := writes_pure.mp hw
        exact bound_denotes isMax hkind
  | soroban =>
      rw [htarget] at hw
      obtain ⟨T, hT⟩ : ∃ T, holder? .soroban t = some T := ⟨_, rfl⟩
      have hkind := (holder?_spec hbits.2 hT).2.2.2
      refine ⟨T, hT, fun known => ?_⟩
      simp only [Soroban.intBound, sorobanName_eq hT] at hw
      by_cases hwide : 128 < t.bits
      · rw [if_pos hwide] at hkind
        simp only [Soroban.isWide, hwide, decide_true, Bool.not_true, Bool.false_eq_true, if_false] at hw
        obtain ⟨_, s₂, -, hw⟩ := writes_bind.mp hw
        obtain ⟨rfl, -⟩ := writes_pure.mp hw
        rw [hkind]
        cases hsign : t.signed <;> cases isMax <;> exact parts_denote (by decide) (by decide)
      · rw [if_neg hwide] at hkind
        simp only [Soroban.isWide, hwide, decide_false, Bool.not_false, if_true] at hw
        obtain ⟨rfl, -⟩ := writes_pure.mp hw
        exact bound_denotes isMax hkind

-- A bound of the holder is that of the type if both are equally wide, and without a sign zero is the least anyway.
theorem extreme_eq_iff {t : IntType} {isMax : Bool} (hpos : 0 < t.bits) (hsign : T.signed = t.signed)
    (hbits : t.bits ≤ T.bits) :
    extreme T isMax = extreme t isMax ↔ T.bits = t.bits ∨ (isMax = false ∧ t.signed = false) := by
  obtain ⟨sign, n⟩ := T
  obtain ⟨sign', m⟩ := t
  obtain rfl : sign = sign' := hsign
  have hinj {a b : Nat} : (2 : Int) ^ a = 2 ^ b ↔ a = b := by
    constructor
    · exact fun h => Int.pow_right_injective (by decide) h
    · rintro rfl; rfl
  change 0 < m at hpos
  change m ≤ n at hbits
  cases isMax <;> cases sign <;> simp [extreme, IntType.max, IntType.min, hinj] <;> omega

-- What is written for a conversion of a number yields what the source asks for exactly when the conversion is
-- faithful; in all other cases the result differs or there is none. What is written for a bound denotes that of the
-- holder, which is the bound of the type exactly when both are equally wide, or no sign and the least number is asked
-- for.
theorem conversions_denote_iff (E : Env) :
    (∀ source result : IntType, source.Sized → result.Sized →
      ∀ S known x v, Represents E (ofInt source) S → x.integer? known none = some ⟨S, v⟩ → source.Holds v →
      ∀ s y s', Writes (convert x (ofInt source) (ofInt result)) E s y s' →
        ∃ T, Represents E (ofInt result) T ∧
          (y.integer? known none = some ⟨T, result.wrap v⟩ ↔ Faithful E.target source result T v)) ∧
    (∀ t : IntType, t.Sized → ∀ isMax inlined expected p s y s',
      Writes (access inlined expected (.bound p t.signed t.bits isMax)) E s (.value y) s' →
        ∃ T, Represents E (ofInt t) T ∧ (∀ known, y.integer? known none = some ⟨T, extreme T isMax⟩) ∧
          (extreme T isMax = extreme t isMax ↔ T.bits = t.bits ∨ (isMax = false ∧ t.signed = false))) := by
  constructor
  · intro source result hsource hresult S known x v hS hx hv s y s' hw
    rw [represents_iff hsource.2] at hS
    obtain ⟨T, hT, hy⟩ := writes_convert hsource hresult hS hw
    exact ⟨T, (represents_iff hresult.2).mpr hT, yields_of_converted hsource hresult hS hT hx hv hy⟩
  · intro t hbits isMax inlined expected p s y s' hw
    simp only [access] at hw
    obtain ⟨x, s₁, hbound, hpure⟩ := writes_bind.mp hw
    obtain ⟨heq, -⟩ := writes_pure.mp hpure
    obtain rfl := Access.value.inj heq
    obtain ⟨T, hT, hx⟩ := intBound_denotes hbits hbound
    obtain ⟨-, hsign, hle, -⟩ := holder?_spec hbits.2 hT
    exact ⟨T, (represents_iff hbits.2).mpr hT, hx, extreme_eq_iff hbits.1 hsign hle⟩

namespace Narrowing

def env : Env := ⟨{ name := "sample", classes := [] }, default, .ink .v5⟩

-- A variable `x` of a type.
def holding (T : IntType) (v : Int) : Rust.Expr → Option Integer
  | .ident "x" => some ⟨T, v⟩
  | _ => none

-- `x as u8` cuts 300 down to 44, and `u8::MAX` is the largest number of 8 bits.
theorem byte_denoted :
    let source : IntType := ⟨false, 32⟩
    let result : IntType := ⟨false, 8⟩
    (source.Sized) ∧ (result.Sized) ∧
      (∃ T, Represents env (ofInt result) T ∧
        (Rust.Expr.cast (.ident "x") "u8").integer? (holding ⟨false, 32⟩ 300) none = some ⟨T, 44⟩) ∧
      ∃ T, Represents env (ofInt result) T ∧
        ∀ known, (Rust.Expr.lit "u8::MAX").integer? known none = some ⟨T, extreme result true⟩ := by
  intro source result
  have hsource : source.Sized := by decide
  have hresult : result.Sized := by decide
  have hboth := conversions_denote_iff env
  refine ⟨hsource, hresult, ?_, ?_⟩
  · have hS : Represents env (ofInt source) ⟨false, 32⟩ := (represents_iff hsource.2).mpr rfl
    obtain ⟨T, hT, hiff⟩ := hboth.1 source result hsource hresult ⟨false, 32⟩ (holding ⟨false, 32⟩ 300) (.ident "x") 300
      hS rfl (by decide) {} (.cast (.ident "x") "u8") {} rfl
    have hheld : T = ⟨false, 8⟩ :=
      Option.some.inj (((represents_iff hresult.2).mp hT).symm.trans (by decide))
    subst hheld
    have hvalue : result.wrap 300 = 44 := by decide
    rw [hvalue] at hiff
    exact ⟨_, hT, hiff.mpr ((Faithful.iff_reduced (by decide)).mpr (by decide))⟩
  · obtain ⟨T, hT, hx, hiff⟩ := hboth.2 result hresult true (constantValue 0) none {} {} _ {} rfl
    have hheld : T = ⟨false, 8⟩ :=
      Option.some.inj (((represents_iff hresult.2).mp hT).symm.trans (by decide))
    subst hheld
    exact ⟨_, hT, fun known => hiff.mpr (.inl rfl) ▸ hx known⟩

-- 24 bits are held by 32: `x as u32` leaves 2²⁴ as it is, where zero is asked for, and `u32::MAX` is no number of 24
-- bits.
theorem holder_kept :
    let t : IntType := ⟨false, 24⟩
    (∃ s', Writes (convert (.ident "x") (.int false 32) (ofInt t)) env {} (.cast (.ident "x") "u32") s') ∧
      (Rust.Expr.cast (.ident "x") "u32").integer? (holding ⟨false, 32⟩ 16777216) none = some ⟨⟨false, 32⟩, 16777216⟩ ∧
      t.wrap 16777216 = 0 ∧
      (∃ s', Writes (access (constantValue 0) none (.bound {} t.signed t.bits true)) env {} (.value (.lit "u32::MAX")) s') ∧
      (∀ known, (Rust.Expr.lit "u32::MAX").integer? known none = some ⟨⟨false, 32⟩, 4294967295⟩) ∧
      t.max = 16777215 := by
  intro t
  refine ⟨⟨_, rfl⟩, ?_, by decide, ⟨_, rfl⟩, fun known => ?_, by decide⟩
  · have hx : (Rust.Expr.ident "x").integer? (holding ⟨false, 32⟩ 16777216) none = some ⟨⟨false, 32⟩, 16777216⟩ := rfl
    have hcast := cast_denotes (T := ⟨false, 32⟩) (by decide) (by decide) hx none
    rwa [show IntType.wrap ⟨false, 32⟩ 16777216 = 16777216 by decide] at hcast
  · exact bound_denotes (T := ⟨false, 32⟩) true (by decide)

end Narrowing

end RustContracts.Emit
