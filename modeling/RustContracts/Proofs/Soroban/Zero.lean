import RustContracts.Proofs.Emit.Temp

-- The default values of Soroban's types: which types have one, and that it is what the written default
-- evaluates to.
namespace RustContracts.Soroban

open Program Emit
open Rust (Machine Host Value)
open Rust.Expr (Reads AllRead)

mutual

-- The default of a type, if it has one; `structZero` gives that of a struct.
def zeroValueWith (p : Package) (structZero : DeclRef → Option Value) : Ty → Option Value
  | .int _ _ | .literal => some (.int 0)
  | .bool => some (.bool false)
  | .address _ | .contract _ | .mapping _ _ => none
  | .string => some (.text "")
  | .bytes size => some (.list (List.replicate size (.int 0)))
  | .array elem length =>
    if length ≤ 0 then some (.list [])
    else (zeroValueWith p structZero elem).map fun v => .list (List.replicate length.toNat v)
  | .enum r =>
    (p.enum? r).bind fun e => e.variants.head?.map fun first =>
      .variant (Rust.Name.type e.name ++ "::" ++ Rust.Name.type first) []
  | .struct r => structZero r
  | .tuple [] => some .unit
  | .tuple elems => (zeroValuesWith p structZero elems).map .tuple

def zeroValuesWith (p : Package) (structZero : DeclRef → Option Value) :
    List Ty → Option (List Value)
  | [] => some []
  | t :: rest =>
    (zeroValueWith p structZero t).bind fun v =>
      (zeroValuesWith p structZero rest).map fun vs => v :: vs

end

def structZeroValue (p : Package) : Nat → DeclRef → Option Value
  | 0, _ => none
  | depth + 1, r =>
    let fields := ((p.struct? r).map (·.fields)).getD []
    (zeroValuesWith p (structZeroValue p depth) (fields.map Param.type)).map fun vs =>
      .struct (fields.map fun f => Rust.Name.value f.name) vs

def zeroValue? (p : Package) (t : Ty) : Option Value :=
  zeroValueWith p (structZeroValue p (p.structCount + 1)) t

-- An expression with a value wherever the environment is at hand.
def HostReads (x : Rust.Expr) (v : Value) : Prop :=
  ∀ h fuel (m : Machine), m.locals.lookup "env" = none → Reads h fuel m x v

def HostReadsAll : List Rust.Expr → List Value → Prop := List.Forall₂ HostReads

theorem HostReadsAll.allRead {xs : List Rust.Expr} {vs : List Value} (hxs : HostReadsAll xs vs)
    (h : Host) (fuel : Nat) {m : Machine} (henv : m.locals.lookup "env" = none) :
    AllRead h fuel m xs vs :=
  hxs.imp fun _ _ hx => hx h fuel m henv

-- A step writes something that satisfies a property of the given value; without one it fails.
def Finds {α β : Type} (p : Package) (act : Emit α) (R : α → β → Prop) : Option β → Prop
  | some v => ∀ E s, E.package = p → ∃ x s', Writes act E s x s' ∧ R x v
  | none => ∀ E s x s', E.package = p → ¬Writes act E s x s'

variable {α β α' β' : Type} {p : Package} {R : α → β → Prop} {R' : α' → β' → Prop}

theorem finds_pure {a : α} {v : β} (h : R a v) : Finds p (pure a) R (some v) :=
  fun _ s _ => ⟨a, s, rfl, h⟩

theorem finds_throw (stop : Stop) : Finds p (throw stop : Emit α) R none := by
  intro E s x s' _ hw
  exact not_writes_throw hw

-- A step that succeeds and stays out of the way.
theorem finds_after {act : Emit α} {note : Emit Unit} {o : Option β}
    (hnote : ∀ E s, ∃ s', Writes note E s () s') (h : Finds p act R o) :
    Finds p (note >>= fun _ => act) R o := by
  cases o with
  | none =>
      intro E s x s' hE hw
      obtain ⟨_, s₁, -, hw⟩ := writes_bind.mp hw
      exact h E s₁ x s' hE hw
  | some v =>
      intro E s hE
      obtain ⟨s₁, hs₁⟩ := hnote E s
      obtain ⟨x, s', hw, hr⟩ := h E s₁ hE
      exact ⟨x, s', writes_bind.mpr ⟨(), s₁, hs₁, hw⟩, hr⟩

theorem finds_bind {act : Emit α} {next : α → Emit α'} {o : Option β} {f : β → Option β'}
    (h : Finds p act R o) (hnext : ∀ x v, o = some v → R x v → Finds p (next x) R' (f v)) :
    Finds p (act >>= next) R' (o.bind f) := by
  cases o with
  | none =>
      intro E s x s' hE hw
      obtain ⟨a, s₁, hw, -⟩ := writes_bind.mp hw
      exact h E s a s₁ hE hw
  | some v =>
      change Finds p (act >>= next) R' (f v)
      cases hf : f v with
      | none =>
          intro E s x s' hE hw
          obtain ⟨a, s₁, ha, hr⟩ := h E s hE
          obtain ⟨b, s₂, hb, hw⟩ := writes_bind.mp hw
          obtain ⟨rfl, rfl⟩ := ha.unique hb
          have := hnext a v rfl hr
          rw [hf] at this
          exact this E s₁ x s' hE hw
      | some w =>
          intro E s hE
          obtain ⟨a, s₁, ha, hr⟩ := h E s hE
          have := hnext a v rfl hr
          rw [hf] at this
          obtain ⟨x, s', hw, hr'⟩ := this E s₁ hE
          exact ⟨x, s', writes_bind.mpr ⟨a, s₁, ha, hw⟩, hr'⟩

theorem finds_read {next : Env → Emit α} {o : Option β}
    (h : ∀ E, E.package = p → Finds p (next E) R o) : Finds p (read >>= next) R o := by
  cases o with
  | none =>
      intro E s x s' hE hw
      obtain ⟨_, _, hread, hw⟩ := writes_bind.mp hw
      obtain ⟨rfl, rfl⟩ := writes_read.mp hread
      exact h E hE E s x s' hE hw
  | some v =>
      intro E s hE
      obtain ⟨x, s', hw, hr⟩ := h E hE E s hE
      exact ⟨x, s', writes_bind.mpr ⟨E, s, rfl, hw⟩, hr⟩

theorem writes_use (path : String) (E : Env) (s : State) : ∃ s', Writes (use path) E s () s' :=
  ⟨_, rfl⟩

-- What the host's constructors read.

theorem hostReads_ident : HostReads (.ident "env") (.variant "env" []) := by
  intro h fuel m henv
  have hpath : Rust.isPath "env" = false := by decide
  simp [Reads, Rust.Expr.eval, Rust.readName, hpath, henv]

theorem hostReads_env : HostReads env (.variant "env" []) := fun h fuel m henv =>
  (hostReads_ident h fuel m henv).ref

theorem HostReads.hostCall {path : String} {args : List Rust.Expr} {vs : List Value} {v : Value}
    (hargs : HostReadsAll args vs)
    (hcall : ∀ h, Rust.callFunction h path (.variant "env" [] :: vs) = pure v) :
    HostReads (hostCall path args) v := by
  intro h fuel m henv
  have hall : AllRead h fuel m (env :: args) (.variant "env" [] :: vs) :=
    .cons (hostReads_env h fuel m henv) (hargs.allRead h fuel henv)
  rw [Reads, Soroban.hostCall, Rust.Expr.callPath, Rust.Expr.eval, Rust.Run.run_bind_of_ok hall.eval]
  simp only [Rust.Expr.name, hcall]
  rfl

theorem HostReads.lit {text : String} {v : Value} (h : ∀ h, Rust.literal? h text = some v) :
    HostReads (.lit text) v := fun h' _ _ _ => .lit (h h')

theorem literal?_zero (h : Host) (signed : Bool) (bits : Nat) :
    Rust.literal? h ("0" ++ intName signed bits) = some (.int 0) := by
  unfold intName
  split
  · rename_i width hw
    have hmem := List.mem_of_find?_eq_some hw
    simp only [List.mem_cons, List.not_mem_nil, or_false] at hmem
    rcases hmem with rfl | rfl | rfl <;> cases signed <;> rfl
  · cases signed <;> rfl

theorem literal?_zeroBytes (h : Host) (size : Nat) :
    Rust.literal? h ("[0u8; " ++ toString size ++ "]") =
      some (.list (List.replicate size (.int 0))) := by
  have hlist : ("[0u8; " ++ toString size ++ "]").toList =
      "[0u8; ".toList ++ (Nat.toDigits 10 size ++ [']']) := by
    simp [String.toList_append]
  have hne (text : String) (ht : text.toList.head? ≠ some '[') :
      "[0u8; " ++ toString size ++ "]" ≠ text := by
    rintro rfl
    exact ht (by rw [hlist]; rfl)
  have hdigits : ∀ c ∈ Nat.toDigits 10 size, c.isDigit := fun c hc =>
    Nat.isDigit_of_mem_toDigits (by decide) (by decide) hc
  have htake : ("[0u8; ".toList ++ (Nat.toDigits 10 size ++ [']'])).take 6 = "[0u8; ".toList := rfl
  have hdrop : ("[0u8; ".toList ++ (Nat.toDigits 10 size ++ [']'])).drop 6 =
      Nat.toDigits 10 size ++ [']'] := rfl
  have hzero : Rust.zeroBytes? ("[0u8; " ++ toString size ++ "]").toList =
      some (.list (List.replicate size (.int 0))) := by
    rw [hlist, Rust.zeroBytes?, if_pos htake, hdrop, List.takeWhile_append_of_pos hdigits]
    simp [Rust.decimal]
  rw [Rust.literal?, if_neg (hne _ (by decide)), if_neg (hne _ (by decide)),
    if_neg (hne _ (by decide)), if_neg (hne _ (by decide)), hzero]

theorem hostReads_vec {x : Rust.Expr} {v : Value} (hx : HostReads x v) (count : Nat) :
    HostReads (.bangCall "vec" (env :: List.replicate count x)) (.list (List.replicate count v)) := by
  have hitems : HostReadsAll (List.replicate count x) (List.replicate count v) := by
    induction count with
    | zero => exact .nil
    | succ count ih => exact .cons hx ih
  intro h fuel m henv
  have hall : HostReadsAll (env :: _) (_ :: _) := .cons hostReads_env hitems
  rw [Reads, Rust.Expr.eval, Rust.Run.run_bind_of_ok (hall.allRead h fuel henv).eval]
  rfl

theorem finds_intLiteral (signed : Bool) (bits : Nat) :
    Finds p (intLiteral 0 false signed bits) HostReads (some (.int 0)) := by
  unfold intLiteral
  by_cases hw : isWide bits
  · cases signed with
    | true =>
        simp only [hw]
        refine finds_after (writes_use _) (finds_pure ?_)
        exact .hostCall (.cons (.lit fun _ => rfl) .nil) fun _ => rfl
    | false =>
        simp only [hw]
        refine finds_after (writes_use _) (finds_pure ?_)
        exact .hostCall (.cons (.lit fun _ => rfl) .nil) fun _ => rfl
  · simp only [hw]
    exact finds_pure (.lit fun h => literal?_zero h signed bits)

section Structs

variable {structZero : DeclRef → Emit Rust.Expr} {structValue : DeclRef → Option Value}

mutual

theorem finds_zeroWith (hstruct : ∀ r, Finds p (structZero r) HostReads (structValue r)) :
    ∀ t, Finds p (zeroWith structZero t) HostReads (zeroValueWith p structValue t)
  | .int signed bits => by
      rw [zeroWith, zeroValueWith]
      split
      · exact finds_intLiteral signed bits
      · exact finds_pure (.lit fun h => literal?_zero h signed bits)
  | .literal => finds_intLiteral false 256
  | .bool => finds_pure (.lit fun _ => rfl)
  | .address _ => finds_throw _
  | .contract _ => finds_throw _
  | .string => by
      refine finds_after (writes_use _) (finds_pure ?_)
      exact .hostCall (.cons (.lit fun _ => rfl) .nil) fun _ => rfl
  | .bytes size => by
      rw [zeroWith, zeroValueWith]
      by_cases hsize : size = 0
      · subst hsize
        refine finds_after (writes_use _) (finds_pure ?_)
        exact .hostCall .nil fun _ => rfl
      · rw [if_neg hsize]
        refine finds_after (writes_use _) (finds_pure ?_)
        refine .hostCall (.cons (fun h fuel m henv => Reads.ref ?_) .nil) fun _ => rfl
        exact HostReads.lit (fun h => literal?_zeroBytes h size) h fuel m henv
  | .array elem length => by
      rw [zeroWith, zeroValueWith]
      refine finds_after (writes_use _) ?_
      by_cases hlength : length ≤ 0
      · rw [if_pos hlength, if_pos hlength]
        exact finds_pure (.hostCall .nil fun _ => rfl)
      · rw [if_neg hlength, if_neg hlength, Option.map_eq_bind]
        refine finds_bind (finds_zeroWith hstruct elem) fun x v _ hx => ?_
        exact finds_after (writes_use _) (finds_pure (hostReads_vec hx _))
  | .enum r => by
      rw [zeroWith, zeroValueWith]
      refine finds_read fun E hE => ?_
      rw [hE]
      cases p.enum? r with
      | none => exact finds_throw _
      | some e =>
          cases hv : e.variants with
          | nil =>
              simp only [hv, Option.bind_some, List.head?_nil, Option.map_none]
              exact finds_throw _
          | cons first rest =>
              simp only [hv, Option.bind_some, List.head?_cons, Option.map_some]
              refine finds_pure fun _ _ _ _ => Reads.path ?_
              simp [Rust.isPath, String.toList_append]
  | .struct r => hstruct r
  | .tuple [] => finds_pure (.lit fun _ => rfl)
  | .tuple (t :: ts) => by
      rw [zeroWith, zeroValueWith, Option.map_eq_bind]
      · refine finds_bind (finds_zerosWith hstruct (t :: ts)) fun xs vs _ hxs => finds_pure ?_
        exact fun h fuel m henv => Reads.tuple (hxs.allRead h fuel henv)
      · simp
      · simp
  | .mapping _ _ => finds_throw _

theorem finds_zerosWith (hstruct : ∀ r, Finds p (structZero r) HostReads (structValue r)) :
    ∀ ts, Finds p (zerosWith structZero ts) HostReadsAll (zeroValuesWith p structValue ts)
  | [] => finds_pure .nil
  | t :: ts => by
      rw [zerosWith, zeroValuesWith]
      refine finds_bind (finds_zeroWith hstruct t) fun x v _ hx => ?_
      rw [Option.map_eq_bind]
      exact finds_bind (finds_zerosWith hstruct ts) fun xs vs _ hxs => finds_pure (.cons hx hxs)

end

end Structs

theorem length_zeroValuesWith {structValue : DeclRef → Option Value} {ts : List Ty} {vs : List Value}
    (h : zeroValuesWith p structValue ts = some vs) : vs.length = ts.length := by
  induction ts generalizing vs with
  | nil =>
      obtain rfl : [] = vs := by simpa [zeroValuesWith] using h
      rfl
  | cons t ts ih =>
      rw [zeroValuesWith] at h
      obtain ⟨v, -, h⟩ := Option.bind_eq_some_iff.mp h
      obtain ⟨rest, hrest, rfl⟩ := Option.map_eq_some_iff.mp h
      simp [ih hrest]

theorem finds_structZero (depth : Nat) (r : DeclRef) :
    Finds p (structZero depth r) HostReads (structZeroValue p depth r) := by
  induction depth generalizing r with
  | zero => exact finds_throw _
  | succ depth ih =>
      rw [structZero, structZeroValue]
      refine finds_read fun E hE => ?_
      simp only [hE]
      generalize ((p.struct? r).map (·.fields)).getD [] = fields
      rw [Option.map_eq_bind]
      refine finds_bind (finds_zerosWith ih _) fun xs vs hvs hxs => finds_pure ?_
      intro h fuel m henv
      have hlen : (fields.map fun f => Rust.Name.value f.name).length = xs.length := by
        rw [hxs.length_eq, length_zeroValuesWith hvs, List.length_map, List.length_map]
      have hlit := Reads.structLit (Rust.Name.type r.name) (hxs.allRead h fuel henv) hlen
      rwa [List.zip_map_left, List.map_map] at hlit

-- A default is written exactly for the types that have one, and evaluates to it.
theorem finds_zero (t : Ty) : Finds p (zero t) HostReads (zeroValue? p t) := by
  refine finds_read fun E hE => ?_
  rw [hE]
  exact finds_zeroWith (finds_structZero _) t

end RustContracts.Soroban
