import RustContracts.Proofs.Emit.Steady
import RustContracts.Proofs.Rust.Reads

-- Temporary variables: their names, and machines that differ in nothing else.
namespace RustContracts

-- A name with a number behind it.
def numbered (stem : String) (k : Nat) : String := stem ++ "_" ++ toString k

theorem toList_numbered (stem : String) (k : Nat) :
    (numbered stem k).toList = stem.toList ++ '_' :: Nat.toDigits 10 k := by
  simp [numbered, String.toList_append]

theorem takeWhile_numbered (stem : String) (k : Nat) :
    (numbered stem k).toList.reverse.takeWhile Char.isDigit = (Nat.toDigits 10 k).reverse := by
  have hdigits : ∀ c ∈ (Nat.toDigits 10 k).reverse, c.isDigit := fun c hc =>
    Nat.isDigit_of_mem_toDigits (by decide) (by decide) (List.mem_reverse.mp hc)
  rw [toList_numbered, List.reverse_append, List.reverse_cons, List.append_assoc,
    List.takeWhile_append_of_pos hdigits]
  simp

-- Digits are no underscores, so the last underscore tells stem and number apart.
theorem numbered_inj {stem stem' : String} {j k : Nat} (h : numbered stem j = numbered stem' k) :
    stem = stem' ∧ j = k := by
  have hdigits : Nat.toDigits 10 j = Nat.toDigits 10 k := by
    rw [← List.reverse_inj, ← takeWhile_numbered stem, ← takeWhile_numbered stem', h]
  have hjk : j = k := by
    rw [← Nat.ofDigitChars_ten_toDigits (n := j), hdigits, Nat.ofDigitChars_ten_toDigits]
  subst hjk
  refine ⟨?_, rfl⟩
  have hlist := congrArg String.toList h
  rw [toList_numbered, toList_numbered] at hlist
  exact String.toList_inj.mp (List.append_cancel_right hlist)

namespace Emit

-- The stems of temporary variables.
def stems : List String := ["t", "key", "value", "idx", "elem", "v", "n", "i"]

-- The temporary variable with a number.
def IsTemp (name : String) (k : Nat) : Prop := ∃ stem ∈ stems, name = numbered stem k

-- The temporary variables behind a count.
def Fresh (k : Nat) (name : String) : Prop := ∃ j, k < j ∧ IsTemp name j

theorem Fresh.mono {j k : Nat} {name : String} (hjk : j ≤ k) (h : Fresh k name) :
    Fresh j name := by
  obtain ⟨i, hi, hname⟩ := h
  exact ⟨i, by omega, hname⟩

-- A name that does not end with a digit is never temporary.
theorem not_fresh_of_last {name : String} {k : Nat}
    (h : (name.toList.reverse.takeWhile Char.isDigit).isEmpty = true) : ¬Fresh k name := by
  rintro ⟨j, -, stem, -, rfl⟩
  rw [takeWhile_numbered] at h
  simp [Nat.toDigits_ne_nil] at h

namespace IsTemp

variable {name : String} {j k : Nat}

theorem fresh (h : IsTemp name k) (hjk : j < k) : Fresh j name := ⟨k, hjk, h⟩

theorem not_fresh (h : IsTemp name k) (hkj : k ≤ j) : ¬Fresh j name := by
  obtain ⟨stem, -, rfl⟩ := h
  rintro ⟨i, hi, stem', -, heq⟩
  obtain ⟨-, rfl⟩ := numbered_inj heq
  omega

theorem ne_self (h : IsTemp name k) : name ≠ "self" := by
  obtain ⟨stem, -, rfl⟩ := h
  intro heq
  have hdigits := takeWhile_numbered stem k
  rw [heq] at hdigits
  exact Nat.toDigits_ne_nil (List.reverse_eq_nil_iff.mp hdigits.symm)

-- A temporary variable is a plain variable.
theorem isPath (h : IsTemp name k) : Rust.isPath name = false := by
  obtain ⟨stem, hstem, rfl⟩ := h
  have hdigits : ':' ∉ Nat.toDigits 10 k := fun hmem => by
    have := Nat.isDigit_of_mem_toDigits (by decide) (by decide) hmem
    revert this
    decide
  have hstem' : ':' ∉ stem.toList := by
    revert stem
    decide
  simp [Rust.isPath, toList_numbered, hdigits, hstem']

theorem isTuplePattern (h : IsTemp name k) : Rust.isTuplePattern name = false := by
  obtain ⟨stem, hstem, rfl⟩ := h
  have hhead : stem.toList ≠ [] ∧ stem.toList.head? ≠ some '(' := by
    revert stem
    decide
  simp [Rust.isTuplePattern, toList_numbered, List.head?_append_of_ne_nil _ hhead.1, hhead.2]

end IsTemp

-- The state with one more temporary variable.
def State.counted (s : State) : State :=
  { s with frame := { s.frame with temps := s.frame.temps + 1 } }

@[simp] theorem State.counted_temps (s : State) : s.counted.frame.temps = s.frame.temps + 1 := rfl

theorem sameNames_counted (s : State) : SameNames s s.counted := ⟨rfl, Nat.le_succ _⟩

theorem writes_temp {stem name : String} {E : Env} {s s' : State} :
    Writes (temp stem) E s name s' ↔ name = numbered stem (s.frame.temps + 1) ∧ s' = s.counted := by
  have ho : outcome (temp stem) E s = (.ok (numbered stem (s.frame.temps + 1)), s.counted) := rfl
  rw [Writes, ho, Prod.mk.injEq, Except.ok.injEq]
  exact and_congr eq_comm eq_comm

end Emit

namespace Rust

-- Two machines agree on all variables but the temporary ones behind a count.
def Machine.Agrees (k : Nat) (m m' : Machine) : Prop :=
  ∀ name, ¬Emit.Fresh k name → m'.locals.lookup name = m.locals.lookup name

namespace Machine.Agrees

variable {k : Nat} {m m' m'' : Machine}

theorem refl (k : Nat) (m : Machine) : m.Agrees k m := fun _ _ => rfl

theorem trans (h : m.Agrees k m') (h' : m'.Agrees k m'') : m.Agrees k m'' := fun name hname =>
  (h' name hname).trans (h name hname)

theorem mono {j : Nat} (hjk : j ≤ k) (h : m.Agrees k m') : m.Agrees j m' := fun name hname =>
  h name fun hf => hname (hf.mono hjk)

end Machine.Agrees

end Rust

end RustContracts
