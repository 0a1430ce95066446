-- Merging precedence lists into one order, the step from which the order of a hierarchy is built.
namespace RustContracts.Inheritance

variable {α : Type} [DecidableEq α]

-- The first entries of the lists that are not exhausted.
def heads (seqs : List (List α)) : List α := seqs.filterMap List.head?

-- Everything that some list still wants behind another entry.
def tails (seqs : List (List α)) : List α := seqs.flatMap List.tail

-- The first head that no list wants behind another entry.
def candidate (seqs : List (List α)) : Option α :=
  (heads seqs).find? fun c => !(tails seqs).contains c

-- Takes `c` off a list that begins with it.
def dropHead (c : α) (seq : List α) : List α :=
  if seq.head? = some c then seq.tail else seq

-- Takes `c` off every list that begins with it.
def dropHeads (c : α) (seqs : List (List α)) : List (List α) := seqs.map (dropHead c)

omit [DecidableEq α] in
theorem mem_heads {c : α} {seqs : List (List α)} : c ∈ heads seqs ↔ ∃ s ∈ seqs, s.head? = some c := by
  simp [heads, List.mem_filterMap]

theorem length_dropHead_le (c : α) (seq : List α) : (dropHead c seq).length ≤ seq.length := by
  unfold dropHead
  split
  · simp
  · exact Nat.le_refl _

-- A list that begins with `c` gets shorter.
theorem length_dropHead_lt {c : α} {seq : List α} (h : seq.head? = some c) :
    (dropHead c seq).length < seq.length := by
  cases seq with
  | nil => simp at h
  | cons a rest => simp [dropHead, h]

-- Taking a head off all lists leaves fewer entries in all.
theorem length_flatten_dropHeads_lt {c : α} {seqs : List (List α)} (h : c ∈ heads seqs) :
    (dropHeads c seqs).flatten.length < seqs.flatten.length := by
  have hle (l : List (List α)) : (dropHeads c l).flatten.length ≤ l.flatten.length := by
    induction l with
    | nil => exact Nat.le_refl _
    | cons s rest ih =>
      have hs := length_dropHead_le c s
      simp only [dropHeads, List.map_cons, List.flatten_cons, List.length_append] at ih ⊢
      omega
  obtain ⟨s, hs, hc⟩ := mem_heads.mp h
  induction seqs with
  | nil => simp at hs
  | cons t rest ih =>
    have hrest := hle rest
    simp only [dropHeads, List.map_cons, List.flatten_cons, List.length_append] at hrest ih ⊢
    cases List.mem_cons.mp hs with
    | inl heq =>
      subst heq
      have hlt := length_dropHead_lt hc
      omega
    | inr hmem =>
      have ht := length_dropHead_le c t
      have hlt := ih (mem_heads.mpr ⟨s, hmem, hc⟩) hmem
      omega

theorem candidate_mem {c : α} {seqs : List (List α)} (h : candidate seqs = some c) :
    c ∈ heads seqs :=
  List.mem_of_find?_eq_some h

-- One order that keeps every list: again and again the candidate is taken off all lists. When the
-- lists contradict each other the answer names the heads that block one another.
def merge (seqs : List (List α)) : Except (List α) (List α) :=
  if heads seqs = [] then .ok []
  else
    match _h : candidate seqs with
    | none => .error (heads seqs).eraseDups
    | some c => (merge (dropHeads c seqs)).map (c :: ·)
termination_by seqs.flatten.length
decreasing_by
  exact length_flatten_dropHeads_lt (candidate_mem _h)

end RustContracts.Inheritance
