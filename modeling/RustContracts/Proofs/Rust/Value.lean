import RustContracts.Rust.Tree

-- The values that a contract computes with, and the places inside them.
namespace RustContracts.Rust

inductive Atom where
  | unit
  | bool (b : Bool)
  -- integers of every width
  | int (n : Int)
  | text (s : String)
  | account (id : Nat)
deriving DecidableEq

-- What holds parts together.
inductive Shape where
  -- arrays and vectors
  | list
  | tuple
  | struct (names : List String)
  -- a variant of an enum with its data; a name without data is one too
  | variant (path : String)
deriving DecidableEq

inductive Value where
  | atom (a : Atom)
  | node (shape : Shape) (parts : List Value)

namespace Value

@[match_pattern] abbrev unit : Value := atom .unit
@[match_pattern] abbrev bool (b : Bool) : Value := atom (.bool b)
@[match_pattern] abbrev int (n : Int) : Value := atom (.int n)
@[match_pattern] abbrev text (s : String) : Value := atom (.text s)
@[match_pattern] abbrev account (id : Nat) : Value := atom (.account id)
@[match_pattern] abbrev list (items : List Value) : Value := node .list items
@[match_pattern] abbrev tuple (items : List Value) : Value := node .tuple items
@[match_pattern] abbrev struct (names : List String) (parts : List Value) : Value :=
  node (.struct names) parts
@[match_pattern] abbrev variant (path : String) (data : List Value) : Value :=
  node (.variant path) data

mutual

def decEq : (a b : Value) → Decidable (a = b)
  | atom a, atom b => decidable_of_iff (a = b) (by simp)
  | node s ps, node t qs =>
    match decEqList ps qs with
    | isTrue h => decidable_of_iff (s = t) (by simp [h])
    | isFalse h => isFalse (by simp [h])
  | atom _, node _ _ => isFalse (by simp)
  | node _ _, atom _ => isFalse (by simp)

def decEqList : (as bs : List Value) → Decidable (as = bs)
  | [], [] => isTrue rfl
  | a :: as, b :: bs =>
    match decEq a b, decEqList as bs with
    | isTrue h, isTrue h' => isTrue (by rw [h, h'])
    | isFalse h, _ => isFalse (by simp [h])
    | _, isFalse h => isFalse (by simp [h])
  | [], _ :: _ => isFalse (by simp)
  | _ :: _, [] => isFalse (by simp)

end

instance : DecidableEq Value := decEq

end Value

-- One step from a value to a part of it.
inductive Selector where
  | field (name : String)
  | index (i : Nat)
deriving DecidableEq

-- Where the part that a step leads to stands among the parts.
def Shape.slot? : Shape → Selector → Option Nat
  | struct names, .field name => names.idxOf? name
  | list, .index i => some i
  | _, _ => none

namespace Value

def get? : Value → List Selector → Option Value
  | v, [] => some v
  | node shape parts, s :: rest =>
    (shape.slot? s).bind fun i => (parts[i]?).bind fun p => p.get? rest
  | atom _, _ :: _ => none

-- Changes the part at the end of a path and keeps all else.
def modify? (f : Value → Option Value) : Value → List Selector → Option Value
  | v, [] => f v
  | node shape parts, s :: rest =>
    (shape.slot? s).bind fun i => (parts[i]?).bind fun p =>
      (p.modify? f rest).map fun q => node shape (parts.set i q)
  | atom _, _ :: _ => none

-- Changes the part at the end of a path and puts every part on the way back, perhaps elsewhere: each step
-- says where a part is taken from and where it goes.
def carry? (f : Value → Option Value) : Value → List (Selector × Selector) → Option Value
  | v, [] => f v
  | node shape parts, (a, b) :: rest =>
    (shape.slot? a).bind fun i => (parts[i]?).bind fun p => (p.carry? f rest).bind fun q =>
      (shape.slot? b).bind fun j => if j < parts.length then some (node shape (parts.set j q)) else none
  | atom _, _ :: _ => none

end Value

-- Two paths that part at some step; neither place lies inside the other.
def Apart : List Selector → List Selector → Prop
  | s :: p, t :: q => s ≠ t ∨ Apart p q
  | _, _ => False

-- Different steps lead to different parts.
theorem Shape.slot?_inj {shape : Shape} {s t : Selector} {i : Nat} (hs : shape.slot? s = some i)
    (ht : shape.slot? t = some i) : s = t := by
  cases shape with
  | list => cases s <;> cases t <;> simp_all [slot?]
  | struct names =>
      cases s with
      | index _ => cases hs
      | field n =>
          cases t with
          | index _ => cases ht
          | field n' =>
              obtain ⟨hi, hn, -⟩ := List.idxOf?_eq_some_iff.mp hs
              obtain ⟨hi', hn', -⟩ := List.idxOf?_eq_some_iff.mp ht
              rw [← hn, ← hn']
  | tuple => cases s <;> cases hs
  | variant _ => cases s <;> cases hs

namespace Value

variable {f : Value → Option Value}

theorem get?_cons_eq_some {v u : Value} {s : Selector} {rest : List Selector}
    (h : v.get? (s :: rest) = some u) :
    ∃ shape parts i p, v = node shape parts ∧ shape.slot? s = some i ∧ parts[i]? = some p ∧
      p.get? rest = some u := by
  cases v with
  | atom a => cases h
  | node shape parts =>
      obtain ⟨i, hi, h⟩ := Option.bind_eq_some_iff.mp h
      obtain ⟨p, hp, h⟩ := Option.bind_eq_some_iff.mp h
      exact ⟨shape, parts, i, p, rfl, hi, hp, h⟩

theorem modify?_cons_eq_some {v w : Value} {s : Selector} {rest : List Selector}
    (h : v.modify? f (s :: rest) = some w) :
    ∃ shape parts i p q, v = node shape parts ∧ shape.slot? s = some i ∧ parts[i]? = some p ∧
      p.modify? f rest = some q ∧ w = node shape (parts.set i q) := by
  cases v with
  | atom a => cases h
  | node shape parts =>
      obtain ⟨i, hi, h⟩ := Option.bind_eq_some_iff.mp h
      obtain ⟨p, hp, h⟩ := Option.bind_eq_some_iff.mp h
      obtain ⟨q, hq, rfl⟩ := Option.map_eq_some_iff.mp h
      exact ⟨shape, parts, i, p, q, rfl, hi, hp, hq, rfl⟩

theorem get?_append (v : Value) (path rest : List Selector) :
    v.get? (path ++ rest) = (v.get? path).bind fun u => u.get? rest := by
  induction path generalizing v with
  | nil => rfl
  | cons s path ih =>
      cases v with
      | atom a => rfl
      | node shape parts => simp [get?, ih, Option.bind_assoc]

theorem modify?_append (v : Value) (path rest : List Selector) :
    v.modify? f (path ++ rest) = v.modify? (fun u => u.modify? f rest) path := by
  induction path generalizing v with
  | nil => rfl
  | cons s path ih =>
      cases v with
      | atom a => rfl
      | node shape parts => simp [modify?, ih]

-- Parts that go back where they came from make a plain change.
theorem carry?_cons_self (v : Value) (s : Selector) (rest : List (Selector × Selector)) :
    v.carry? f ((s, s) :: rest) = v.modify? (fun p => p.carry? f rest) [s] := by
  cases v with
  | atom a => rfl
  | node shape parts =>
      simp only [carry?, modify?]
      cases hi : shape.slot? s with
      | none => rfl
      | some i =>
          cases hp : parts[i]? with
          | none => simp [hp]
          | some p =>
              have hlt := (List.getElem?_eq_some_iff.mp hp).1
              simp only [hp, Option.bind_some, hlt, if_true]
              cases p.carry? f rest <;> rfl

theorem carry?_self (v : Value) (path : List Selector) :
    v.carry? f (path.map fun s => (s, s)) = v.modify? f path := by
  induction path generalizing v with
  | nil => rfl
  | cons s path ih =>
      have hsplit := modify?_append (f := f) v [s] path
      rw [List.singleton_append] at hsplit
      rw [List.map_cons, carry?_cons_self, hsplit]
      simp only [ih]

-- One step of the way there and back: the part is taken out, changed and put in.
theorem carry?_cons (v : Value) (a b : Selector) (rest : List (Selector × Selector)) :
    v.carry? f ((a, b) :: rest) =
      (v.get? [a]).bind fun p => (p.carry? f rest).bind fun q => v.modify? (fun _ => some q) [b] := by
  cases v with
  | atom _ => rfl
  | node shape parts =>
      have hput (j : Nat) (q : Value) :
          (if j < parts.length then some (node shape (parts.set j q)) else none) =
            (parts[j]?).bind fun _ => some (node shape (parts.set j q)) := by
        by_cases hj : j < parts.length <;> simp [hj]
      simp [carry?, get?, modify?, hput, Option.bind_assoc]

-- Only what a change does to the part at the end of the path counts.
theorem modify?_congr {g : Value → Option Value} {v u : Value} {path : List Selector}
    (hu : v.get? path = some u) (hfg : f u = g u) : v.modify? f path = v.modify? g path := by
  induction path generalizing v with
  | nil =>
      obtain rfl : v = u := Option.some.inj hu
      exact hfg
  | cons s path ih =>
      obtain ⟨shape, parts, i, p, rfl, hi, hp, hu⟩ := get?_cons_eq_some hu
      simp [modify?, hi, hp, ih hu]

-- A change succeeds where there is something to change.
theorem modify?_of_get? {v u w : Value} {path : List Selector} (hg : v.get? path = some u)
    (hf : f u = some w) : ∃ v', v.modify? f path = some v' := by
  induction path generalizing v with
  | nil =>
      obtain rfl : v = u := Option.some.inj hg
      exact ⟨w, hf⟩
  | cons s path ih =>
      obtain ⟨shape, parts, i, p, rfl, hi, hp, hg⟩ := get?_cons_eq_some hg
      obtain ⟨q, hq⟩ := ih hg
      exact ⟨node shape (parts.set i q), by simp [modify?, hi, hp, hq]⟩

theorem get?_of_modify? {v v' : Value} {path : List Selector} (h : v.modify? f path = some v') :
    ∃ u w, v.get? path = some u ∧ f u = some w ∧ v'.get? path = some w := by
  induction path generalizing v v' with
  | nil => exact ⟨v, v', rfl, h, rfl⟩
  | cons s path ih =>
      obtain ⟨shape, parts, i, p, q, rfl, hi, hp, hq, rfl⟩ := modify?_cons_eq_some h
      obtain ⟨u, w, hu, hw, hr⟩ := ih hq
      have hlt := (List.getElem?_eq_some_iff.mp hp).1
      refine ⟨u, w, by simp [get?, hi, hp, hu], hw, ?_⟩
      simp [get?, hi, List.getElem?_set_self hlt, hr]

-- Without a part to change, or a change of it, there is no change.
theorem modify?_eq_none {v : Value} {path : List Selector}
    (h : ∀ u, v.get? path = some u → f u = none) : v.modify? f path = none := by
  cases hm : v.modify? f path with
  | none => rfl
  | some v' =>
      obtain ⟨u, w, hu, hw, -⟩ := get?_of_modify? hm
      rw [h u hu] at hw
      cases hw

-- A change leaves every other place as it was.
theorem get?_modify?_apart {v v' : Value} {path other : List Selector}
    (h : v.modify? f path = some v') (ha : Apart path other) : v'.get? other = v.get? other := by
  induction path generalizing v v' other with
  | nil => cases ha
  | cons s path ih =>
      cases other with
      | nil => cases ha
      | cons t other =>
          obtain ⟨shape, parts, i, p, q, rfl, hi, hp, hq, rfl⟩ := modify?_cons_eq_some h
          have hlt := (List.getElem?_eq_some_iff.mp hp).1
          by_cases hst : s = t
          · subst hst
            have hrest := ih hq (ha.resolve_left fun hne => hne rfl)
            simp [get?, hi, hp, List.getElem?_set_self hlt, hrest]
          · cases ht : shape.slot? t with
            | none => simp [get?, ht]
            | some j =>
                have hij : i ≠ j := fun heq => hst (Shape.slot?_inj hi (heq ▸ ht))
                simp [get?, ht, List.getElem?_set_ne hij]

-- A second change at the same place starts from what the first has left there.
theorem modify?_modify? {v w : Value} {path : List Selector} (h : v.modify? f path = some w)
    (g : Value → Option Value) : w.modify? g path = v.modify? (fun u => (f u).bind g) path := by
  induction path generalizing v w with
  | nil =>
      have hf : f v = some w := h
      simp [modify?, hf]
  | cons s path ih =>
      obtain ⟨shape, parts, i, p, q, rfl, hi, hp, hq, rfl⟩ := modify?_cons_eq_some h
      have hlt := (List.getElem?_eq_some_iff.mp hp).1
      simp [modify?, hi, hp, List.getElem?_set_self hlt, ih hq]

theorem modify?_get_self {v u : Value} {path : List Selector} (hu : v.get? path = some u) :
    v.modify? (fun _ => some u) path = some v := by
  induction path generalizing v with
  | nil => exact congrArg some (Option.some.inj hu).symm
  | cons s path ih =>
      obtain ⟨shape, parts, i, p, rfl, hi, hp, hu⟩ := get?_cons_eq_some hu
      obtain ⟨hlt, rfl⟩ := List.getElem?_eq_some_iff.mp hp
      simp [modify?, hi, hp, ih hu]

-- Two values become the same by an assignment exactly when they differ at its place at most.
theorem modify?_const_eq_iff {a b u v : Value} {path : List Selector} (hu : b.get? path = some u) :
    a.modify? (fun _ => some v) path = b.modify? (fun _ => some v) path ↔
      a.modify? (fun _ => some u) path = some b := by
  obtain ⟨w, hw⟩ := modify?_of_get? (f := fun _ => some v) hu rfl
  have hback : w.modify? (fun _ => some u) path = some b := by
    rw [modify?_modify? hw]
    exact modify?_get_self hu
  constructor
  · intro h
    rw [hw] at h
    rw [← hback, modify?_modify? h]
    rfl
  · intro h
    rw [modify?_modify? h]
    rfl

-- A change that can be told from its result is told from the whole as well.
theorem modify?_inj (hf : ∀ a b w, f a = some w → f b = some w → a = b) {a b w : Value}
    {path : List Selector} (ha : a.modify? f path = some w) (hb : b.modify? f path = some w) :
    a = b := by
  induction path generalizing a b w with
  | nil => exact hf a b w ha hb
  | cons s path ih =>
      obtain ⟨shape, parts, i, p, q, rfl, hi, hp, hq, rfl⟩ := modify?_cons_eq_some ha
      obtain ⟨shape', parts', i', p', q', rfl, hi', hp', hq', heq⟩ := modify?_cons_eq_some hb
      obtain ⟨rfl, hparts⟩ := node.inj heq
      obtain rfl : i = i' := Option.some.inj (hi.symm.trans hi')
      obtain ⟨hlt, rfl⟩ := List.getElem?_eq_some_iff.mp hp
      obtain ⟨hlt', rfl⟩ := List.getElem?_eq_some_iff.mp hp'
      have hqq : q = q' := by
        have := congrArg (·[i]?) hparts
        simpa [List.getElem?_set_self hlt, List.getElem?_set_self hlt'] using this
      subst hqq
      have hpp := ih hq hq'
      have hset := congrArg (·.set i parts[i]) hparts
      simp only [List.set_set, List.set_getElem_self] at hset
      rw [hpp, List.set_getElem_self] at hset
      rw [hset]

end Value

end RustContracts.Rust
