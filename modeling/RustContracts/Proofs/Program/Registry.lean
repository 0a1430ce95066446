import Mathlib.Data.List.Induction
import Mathlib.Data.List.Nodup
import RustContracts.Program.Registry
import RustContracts.Proofs.Program.Dispatch

-- The registry over any sequence of calls: it has an entry for each reason in the order in which they first come up,
-- with the codes from one on in 32 bits, and every call is given the entry that the first call with its reason has made.
namespace RustContracts.Program

-- What is registered as a reason to abort.
inductive Registration where
  | message (text : String)
  | custom (decl : ErrorDecl)

-- A call of the registry.
inductive RegistryCall where
  | register (x : Registration)
  | event

namespace Registry

theorem register_of_known (r : Registry) {key : String} (message : String) (custom : Option ErrorDecl) {e : ErrorEntry}
    (h : r.entries.find? (·.key = key) = some e) : r.register key message custom = (e, r) := by
  rw [register, h]

theorem register_of_new (r : Registry) {key : String} (message : String) (custom : Option ErrorDecl)
    (h : r.entries.find? (·.key = key) = none) :
    r.register key message custom = (⟨.ofNat (r.entries.length + 1), key, message, custom⟩,
      { r with entries := r.entries ++ [⟨.ofNat (r.entries.length + 1), key, message, custom⟩] }) := by
  rw [register, h]

end Registry

namespace Registration

-- Messages are told apart by their texts and errors by their names; no message is an error.
def Same : Registration → Registration → Prop
  | message text, message text' => text = text'
  | custom decl, custom decl' => decl.name = decl'.name
  | _, _ => False

def key : Registration → String
  | message text => "msg:" ++ text
  | custom decl => "error:" ++ decl.name

-- The entry that is made under a code.
def entry (code : UInt32) : Registration → ErrorEntry
  | message text => ⟨code, "msg:" ++ text, text, none⟩
  | custom decl => ⟨code, "error:" ++ decl.name, decl.name, some decl⟩

def run (r : Registry) : Registration → ErrorEntry × Registry
  | message text => r.registerMessage text
  | custom decl => r.registerCustom decl

variable {x y : Registration} {r : Registry} {e : ErrorEntry}

@[simp] theorem code_entry (code : UInt32) (x : Registration) : (x.entry code).code = code := by cases x <;> rfl

@[simp] theorem key_entry (code : UInt32) (x : Registration) : (x.entry code).key = x.key := by cases x <;> rfl

theorem key_eq_iff : x.key = y.key ↔ x.Same y := by
  have hstart (text name : String) : "msg:" ++ text ≠ "error:" ++ name := fun h => by
    simpa [String.toList_append] using congrArg String.toList h
  cases x with
  | message text =>
      cases y with
      | message text' => exact String.append_right_inj "msg:"
      | custom decl => exact iff_of_false (hstart text decl.name) id
  | custom decl =>
      cases y with
      | message text => exact iff_of_false (hstart text decl.name).symm id
      | custom decl' => exact String.append_right_inj "error:"

theorem run_of_known (h : r.entries.find? (·.key = x.key) = some e) : x.run r = (e, r) := by
  cases x with
  | message text => exact r.register_of_known text none h
  | custom decl => exact r.register_of_known decl.name (some decl) h

theorem run_of_new (h : r.entries.find? (·.key = x.key) = none) :
    x.run r = (x.entry (.ofNat (r.entries.length + 1)),
      { r with entries := r.entries ++ [x.entry (.ofNat (r.entries.length + 1))] }) := by
  cases x with
  | message text => exact r.register_of_new text none h
  | custom decl => exact r.register_of_new decl.name (some decl) h

end Registration

namespace RegistryCall

def registration? : RegistryCall → Option Registration
  | register x => some x
  | event => none

-- The registry behind a call.
def next (r : Registry) : RegistryCall → Registry
  | register x => (x.run r).2
  | event => r.countEvent.2

end RegistryCall

namespace Registry

-- The registry behind calls on a new one.
def after (calls : List RegistryCall) : Registry := calls.foldl RegistryCall.next {}

-- What the call at a place was given.
def answer? (calls : List RegistryCall) (i : Nat) : Option ErrorEntry :=
  (calls[i]?.bind RegistryCall.registration?).map fun x => (x.run (after (calls.take i))).1

def registrations (calls : List RegistryCall) : List Registration := calls.filterMap RegistryCall.registration?

-- Each entry is the one that the first registration under its key has made, and they are numbered in that order.
structure KeepsFirst (xs : List Registration) (entries : List ErrorEntry) : Prop where
  codes : entries.map (·.code) = (List.range' 1 entries.length).map UInt32.ofNat
  keys : entries.map (·.key) = (xs.map (·.key)).eraseDups
  made : ∀ e ∈ entries, ∃ first, xs.find? (·.key = e.key) = some first ∧ e = first.entry e.code

section KeepsFirst

variable {xs : List Registration} {r : Registry} {entries : List ErrorEntry} {e e' : ErrorEntry}

theorem nodup_eraseDups (keys : List String) : keys.eraseDups.Nodup := by
  induction keys using List.reverseRecOn with
  | nil => exact .nil
  | append_singleton keys key ih =>
      rw [eraseDups_concat]
      split
      · exact ih
      · next hnew => exact List.concat_eq_append ▸ ih.concat fun hmem => hnew (List.mem_eraseDups.mp hmem)

namespace KeepsFirst

theorem toNat_codes (h : KeepsFirst xs entries) (hfew : entries.length < UInt32.size) :
    entries.map (·.code.toNat) = List.range' 1 entries.length := by
  have hsmall : ∀ code ∈ List.range' 1 entries.length, (UInt32.ofNat code).toNat = code := fun code hcode => by
    rw [List.mem_range'_1] at hcode
    exact UInt32.toNat_ofNat_of_lt' (by omega)
  calc entries.map (·.code.toNat)
      = (entries.map (·.code)).map UInt32.toNat := by rw [List.map_map]; rfl
    _ = (List.range' 1 entries.length).map fun code => (UInt32.ofNat code).toNat := by rw [h.codes, List.map_map]; rfl
    _ = List.range' 1 entries.length := by rw [List.map_congr_left hsmall, List.map_id']

theorem nodup_codes (h : KeepsFirst xs entries) (hfew : entries.length < UInt32.size) : (entries.map (·.code)).Nodup := by
  refine List.Nodup.of_map UInt32.toNat ?_
  rw [List.map_map]
  exact (h.toNat_codes hfew : entries.map (UInt32.toNat ∘ (·.code)) = _) ▸ List.nodup_range'

theorem eq_of_code (h : KeepsFirst xs entries) (hfew : entries.length < UInt32.size) (he : e ∈ entries) (he' : e' ∈ entries)
    (hcode : e.code = e'.code) : e = e' :=
  List.inj_on_of_nodup_map (h.nodup_codes hfew) he he' hcode

theorem nodup_keys (h : KeepsFirst xs entries) : (entries.map (·.key)).Nodup := h.keys ▸ nodup_eraseDups _

theorem eq_of_key (h : KeepsFirst xs entries) (he : e ∈ entries) (he' : e' ∈ entries) (hkey : e.key = e'.key) :
    e = e' :=
  List.inj_on_of_nodup_map h.nodup_keys he he' hkey

-- A key that is known already: the registration finds its entry.
theorem known (h : KeepsFirst xs entries) (x : Registration) (he : e ∈ entries) (hkey : e.key = x.key) :
    KeepsFirst (xs ++ [x]) entries where
  codes := h.codes
  keys := by
    have hmem : x.key ∈ xs.map (·.key) := by
      rw [← List.mem_eraseDups, ← h.keys, ← hkey]
      exact List.mem_map_of_mem he
    rw [List.map_append, List.map_singleton, eraseDups_concat, if_pos hmem, h.keys]
  made e he := by
    obtain ⟨first, hfirst, hentry⟩ := h.made e he
    exact ⟨first, by rw [List.find?_append, hfirst]; rfl, hentry⟩

-- A new one: the registration makes the next entry.
theorem new (h : KeepsFirst xs entries) (x : Registration) (hnew : x.key ∉ entries.map (·.key)) :
    KeepsFirst (xs ++ [x]) (entries ++ [x.entry (.ofNat (entries.length + 1))]) where
  codes := by
    rw [List.map_append, h.codes, List.map_singleton, Registration.code_entry, List.length_append, List.length_singleton,
      List.range'_concat, List.map_append, List.map_singleton, Nat.one_mul, Nat.add_comm 1]
  keys := by
    have hout : x.key ∉ xs.map (·.key) := by rwa [← List.mem_eraseDups, ← h.keys]
    rw [List.map_append, h.keys, List.map_singleton, Registration.key_entry, List.map_append, List.map_singleton,
      eraseDups_concat, if_neg hout]
  made e he := by
    rcases List.mem_append.mp he with he | he
    · obtain ⟨first, hfirst, hentry⟩ := h.made e he
      exact ⟨first, by rw [List.find?_append, hfirst]; rfl, hentry⟩
    · obtain rfl := List.mem_singleton.mp he
      have hnone : xs.find? (·.key = x.key) = none := by
        rw [List.find?_eq_none]
        intro y hy heq
        refine hnew ?_
        rw [h.keys, List.mem_eraseDups, ← of_decide_eq_true heq]
        exact List.mem_map_of_mem hy
      refine ⟨x, ?_, by rw [Registration.code_entry]⟩
      rw [Registration.key_entry, List.find?_append, hnone]
      simp

end KeepsFirst

-- What one registration does.
theorem run_registration (h : KeepsFirst xs r.entries) (x : Registration) :
    KeepsFirst (xs ++ [x]) (x.run r).2.entries ∧ r.entries <+: (x.run r).2.entries ∧
      (x.run r).1 ∈ (x.run r).2.entries ∧ (x.run r).1.key = x.key := by
  cases hfound : r.entries.find? (·.key = x.key) with
  | some e =>
      have he := List.mem_of_find?_eq_some hfound
      have hkey : e.key = x.key := by simpa using List.find?_some hfound
      rw [Registration.run_of_known hfound]
      exact ⟨h.known x he hkey, List.prefix_rfl, he, hkey⟩
  | none =>
      have hnew : x.key ∉ r.entries.map (·.key) := by
        intro hmem
        obtain ⟨e, he, hkey⟩ := List.mem_map.mp hmem
        exact List.find?_eq_none.mp hfound e he (decide_eq_true hkey)
      rw [Registration.run_of_new hfound]
      exact ⟨h.new x hnew, List.prefix_append _ _, List.mem_append_right _ (List.mem_singleton_self _),
        Registration.key_entry _ x⟩

end KeepsFirst

-- Runs.

section Runs

variable {calls more : List RegistryCall} {call : RegistryCall} {i : Nat} {x : Registration}

theorem after_concat : after (calls ++ [call]) = call.next (after calls) := by
  rw [after, List.foldl_append]
  rfl

theorem registrations_append : registrations (calls ++ more) = registrations calls ++ registrations more :=
  List.filterMap_append

theorem keepsFirst_after (calls : List RegistryCall) : KeepsFirst (registrations calls) (after calls).entries := by
  induction calls using List.reverseRecOn with
  | nil => exact ⟨rfl, rfl, by nofun⟩
  | append_singleton calls call ih =>
      rw [after_concat, registrations_append]
      cases call with
      | register x => exact (run_registration ih x).1
      | event => rwa [show registrations [.event] = [] from rfl, List.append_nil]

theorem entries_prefix (calls more : List RegistryCall) : (after calls).entries <+: (after (calls ++ more)).entries := by
  induction more using List.reverseRecOn with
  | nil => exact (List.append_nil calls).symm ▸ List.prefix_rfl
  | append_singleton more call ih =>
      rw [← List.append_assoc, after_concat]
      cases call with
      | register x => exact ih.trans (run_registration (keepsFirst_after _) x).2.1
      | event => exact ih

theorem entries_take (calls : List RegistryCall) (i : Nat) :
    (after (calls.take i)).entries <+: (after calls).entries := by
  have h := entries_prefix (calls.take i) (calls.drop i)
  rwa [List.take_append_drop] at h

-- A registration is given an entry under its key, and keeps it.
theorem answer_register (h : calls[i]? = some (.register x)) :
    ∃ e ∈ (after calls).entries, answer? calls i = some e ∧ e.key = x.key := by
  obtain ⟨-, -, hmem, hkey⟩ := run_registration (keepsFirst_after (calls.take i)) x
  have htake : calls.take (i + 1) = calls.take i ++ [.register x] := by rw [List.take_add_one, h]; rfl
  have hprefix := entries_take calls (i + 1)
  rw [htake, after_concat] at hprefix
  exact ⟨_, hprefix.subset hmem, by rw [answer?, h]; rfl, hkey⟩

-- Two registrations are given one entry exactly when they have one reason.
theorem answers_eq_iff {j : Nat} {y : Registration} {e e' : ErrorEntry} (hi : calls[i]? = some (.register x))
    (hj : calls[j]? = some (.register y)) (he : answer? calls i = some e) (he' : answer? calls j = some e') :
    e ∈ (after calls).entries ∧ e' ∈ (after calls).entries ∧ (e = e' ↔ x.Same y) := by
  obtain ⟨a, ha, hanswer, hkey⟩ := answer_register hi
  obtain rfl := Option.some.inj (hanswer.symm.trans he)
  obtain ⟨b, hb, hanswer', hkey'⟩ := answer_register hj
  obtain rfl := Option.some.inj (hanswer'.symm.trans he')
  refine ⟨ha, hb, ?_⟩
  rw [← Registration.key_eq_iff, ← hkey, ← hkey']
  exact ⟨congrArg _, (keepsFirst_after calls).eq_of_key ha hb⟩

-- Entries are numbered in the order in which their reasons are first registered. A registration is given the entry that
-- the first one of its reason has made; two are given one entry only if they are the same reason. What is registered
-- stays. Codes have 32 bits: fewer than 2 ^ 32 reasons have the codes from one on, and no two of them share one.
theorem registrations_share_first (calls : List RegistryCall) :
    (after calls).entries.map (·.code) = (List.range' 1 (after calls).entries.length).map UInt32.ofNat ∧
    (after calls).entries.map (·.key) = ((registrations calls).map (·.key)).eraseDups ∧
    (∀ i x, calls[i]? = some (.register x) → ∃ first e, (registrations calls).find? (·.key = x.key) = some first ∧
      first.Same x ∧ e ∈ (after calls).entries ∧ e = first.entry e.code ∧ answer? calls i = some e) ∧
    (∀ i j x y e e', calls[i]? = some (.register x) → calls[j]? = some (.register y) → answer? calls i = some e →
      answer? calls j = some e' → (e = e' ↔ x.Same y)) ∧
    (∀ i, (after (calls.take i)).entries <+: (after calls).entries) ∧
    ((after calls).entries.length < UInt32.size →
      (after calls).entries.map (·.code.toNat) = List.range' 1 (after calls).entries.length ∧
      ∀ i j x y e e', calls[i]? = some (.register x) → calls[j]? = some (.register y) → answer? calls i = some e →
        answer? calls j = some e' → (e.code = e'.code ↔ x.Same y)) := by
  have hafter := keepsFirst_after calls
  refine ⟨hafter.codes, hafter.keys, fun i x hi => ?_, fun i j x y e e' hi hj he he' => ?_, entries_take calls,
    fun hfew => ⟨hafter.toNat_codes hfew, fun i j x y e e' hi hj he he' => ?_⟩⟩
  · obtain ⟨e, he, hanswer, hkey⟩ := answer_register hi
    obtain ⟨first, hfirst, hentry⟩ := hafter.made e he
    rw [hkey] at hfirst
    have hsame : first.key = x.key := by simpa using List.find?_some hfirst
    exact ⟨first, e, hfirst, Registration.key_eq_iff.mp hsame, he, hentry, hanswer⟩
  · exact (answers_eq_iff hi hj he he').2.2
  · obtain ⟨hmem, hmem', hsame⟩ := answers_eq_iff hi hj he he'
    exact Iff.trans ⟨hafter.eq_of_code hfew hmem hmem', congrArg _⟩ hsame

-- Two errors with one name and a message with the same text, around the counting of an event.
def repeated : List RegistryCall :=
  [.register (.message "a"), .register (.custom { name := "a" }), .event, .register (.message "a"),
   .register (.custom { name := "a", owner := "C" }), .register (.message "b")]

theorem registrations_share_first_repeated :
    (after repeated).entries.length < UInt32.size ∧ (after repeated).entries.map (·.code.toNat) = [1, 2, 3] ∧
    (∃ e, answer? repeated 0 = some e ∧ answer? repeated 3 = some e) ∧
    (∃ e, answer? repeated 1 = some e ∧ answer? repeated 4 = some e ∧ e.custom.map (·.owner) = some "") ∧
    ∀ e e', answer? repeated 0 = some e → answer? repeated 1 = some e' → e ≠ e' ∧ e.code ≠ e'.code := by
  obtain ⟨-, -, hfirst, hshared, -, hbounded⟩ := registrations_share_first repeated
  have hfew : (after repeated).entries.length < UInt32.size := by decide
  obtain ⟨hcodes, hapart⟩ := hbounded hfew
  obtain ⟨-, a, -, -, -, -, ha⟩ := hfirst 0 _ rfl
  obtain ⟨-, a', -, -, -, -, ha'⟩ := hfirst 3 _ rfl
  obtain ⟨first, b, hfound, -, -, hb, hanswer⟩ := hfirst 1 _ rfl
  obtain ⟨-, b', -, -, -, -, hanswer'⟩ := hfirst 4 _ rfl
  obtain rfl := (hshared 0 3 (.message "a") (.message "a") a a' rfl rfl ha ha').mpr rfl
  obtain rfl := (hshared 1 4 (.custom { name := "a" }) (.custom { name := "a", owner := "C" }) b b' rfl rfl
    hanswer hanswer').mpr rfl
  refine ⟨hfew, hcodes, ⟨a, ha, ha'⟩, ⟨b, hanswer, hanswer', ?_⟩, fun e e' he he' => ?_⟩
  · obtain rfl := Option.some.inj hfound
    rw [hb]
    rfl
  · exact ⟨(hshared 0 1 _ _ e e' rfl rfl he he').not.mpr id, (hapart 0 1 _ _ e e' rfl rfl he he').not.mpr id⟩

end Runs

end Registry

end RustContracts.Program
