import RustContracts.Proofs.Emit.WriteBack

-- Assignments without side effects: what is assigned stands at its place, all else is as it was, and so
-- storage on one target goes along with storage on the other.
namespace RustContracts.Emit

open Program
open Rust (Machine Host Value Selector Store Apart runAll)
open Rust.Expr (Reads Stands)

-- Another field, or another entry of the same mapping.
def Elsewhere (target : Target) (d : FieldDecl) (keys : List Value) (e : FieldDecl) (ks : List Value) :
    Prop :=
  (cellOf target e ks).field ≠ (cellOf target d keys).field ∨
    e = d ∧ ks.length = keys.length ∧ ks ≠ keys

theorem cellKeys_inj {ks ks' : List Value} (hlen : ks.length = ks'.length)
    (h : Ink.cellKeys ks = Ink.cellKeys ks') : ks = ks' := by
  match ks, ks', hlen with
  | [], [], _ => rfl
  | [k], [k'], _ => exact h
  | k :: l :: ks, k' :: l' :: ks', _ =>
      have htuple : [Value.tuple (k :: l :: ks)] = [Value.tuple (k' :: l' :: ks')] := h
      exact (Value.node.inj (List.head_eq_of_cons_eq htuple)).2

theorem Elsewhere.cell_ne {target : Target} {d e : FieldDecl} {keys ks : List Value}
    (h : Elsewhere target d keys e ks) : cellOf target e ks ≠ cellOf target d keys := by
  intro heq
  rcases h with hfield | ⟨rfl, hlen, hne⟩
  · exact hfield (congrArg Rust.Cell.field heq)
  · refine hne ?_
    cases target with
    | ink version => exact cellKeys_inj hlen (congrArg Rust.Cell.keys heq)
    | soroban => exact congrArg Rust.Cell.keys heq

theorem entry_write_self (target : Target) (h : Host) (d : FieldDecl) (store : Store) (keys : List Value)
    (w : Value) : entry target h d (store.write (cellOf target d keys) w) keys = w := by
  rw [entry, Store.write_self, Option.getD_some]

theorem Elsewhere.entry_write {target : Target} {d e : FieldDecl} {keys ks : List Value}
    (he : Elsewhere target d keys e ks) (h : Host) (store : Store) (w : Value) :
    entry target h e (store.write (cellOf target d keys) w) ks = entry target h e store ks := by
  rw [entry, entry, Store.write_of_ne store w he.cell_ne]

namespace Setting

variable {c : Setting} {d : FieldDecl} {path : List Step} {keys : List Value} {sels : List Selector}
variable {v w : Value} {code : List Rust.Stmt}

-- An assignment of a value to a place that exists, where no key, index or value has side effects.
-- Indices have 32 bits, as those into arrays with fewer elements have.
structure Assigns (c : Setting) (d : FieldDecl) (path : List Step) (keys : List Value)
    (sels : List Selector) (v : Value) (code : List Rust.Stmt) : Prop where
  uses : Uses c.env c.host c.machine d
  still : c.after = c.machine.store
  writes : ∃ start x s', Writes (changeField start d path (.set x)) c.env c.state code s' ∧
    ∀ m, c.Sees m → m.store = c.machine.store → Reads c.host c.fuel m x v
  keyed : c.Keyed d.type.mappingKeys path (keys.map Seen.still)
  leads : List.Forall₂ c.Leads (path.drop d.type.mappingDepth) (sels.map Seen.still)
  place : ((entry c.env.target c.host d c.machine.store keys).get? sels).isSome
  -- a part is only assigned where the whole can be read
  readable : sels ≠ [] → Readable c.env d c.machine.store keys

-- A field that is a place is changed where it stands.
theorem stores_inPlace {x : Rust.Expr} {s s' : State} {version : InkVersion}
    (htarget : c.env.target = .ink version) (hx : c.Yields x v)
    (hleads : List.Forall₂ c.Leads path (sels.map Seen.still)) (hs : SameNames c.state s)
    (hcode : Writes (changePath (.set x) (Ink.selfField d.name) path) c.env s code s')
    (hw : (entry (.ink version) c.host d c.after []).modify? (fun _ => some v) sels = some w) :
    c.Stores c.machine code (some (c.after.write (cellOf (.ink version) d []) w)) := by
  have hstart : c.Sees c.machine := .refl _ c.machine
  have hroot : (Rust.Place.ofField c.host d.name).root.read? (c.behind c.machine) =
      some (entry (.ink version) c.host d c.after []) := rfl
  obtain ⟨es, hrun⟩ := inPlace_changePath htarget (.of_value rfl hx) hleads hcode hs hstart rfl (.ofField d.name)
    (.ofField d.name) hroot
  rw [ite_self, List.nil_append, map_place_still] at hrun
  change (runAll c.host c.fuel code).run c.machine = Rust.Root.changed _ _ es
    ((entry (.ink version) c.host d c.after []).modify? (fun _ => some v) sels) at hrun
  rw [hw] at hrun
  exact ⟨_, es, hrun, rfl⟩

-- Each of the three ways to write an assignment ends in the same storage.
theorem Assigns.stores (h : c.Assigns d path keys sels v code)
    (hw : (entry c.env.target c.host d c.machine.store keys).modify? (fun _ => some v) sels = some w) :
    c.Stores c.machine code
      (some (c.machine.store.write (cellOf c.env.target d keys) w)) := by
  obtain ⟨start, x, s', hcode, hx⟩ := h.writes
  have hyields : c.Yields x v := fun m hm hstore => ⟨[], by rw [hx m hm hstore, h.still, ← hstore]⟩
  obtain ⟨xs, s₁, hxs, hkind⟩ := writes_changeField hcode
  obtain ⟨hwritten, hlen, hs₁⟩ := writes_mappingKeys h.keyed (.refl _) hxs
  obtain ⟨version, htarget, hmap, hpath⟩ | ⟨hcells, hrest, y, st, hy, hwrite, rfl⟩ | ⟨hback, -⟩ := hkind
  · have hnone : d.type.mappingKeys = [] := by
      cases ht : d.type with
      | mapping _ _ => simp [Ty.isMapping, ht] at hmap
      | _ => rfl
    obtain rfl : keys = [] := by simpa [hnone, Keyed] using h.keyed
    have hleads := h.leads
    rw [Ty.mappingDepth, hnone, List.length_nil, List.drop_zero] at hleads
    rw [htarget, ← h.still] at hw
    rw [htarget, ← h.still]
    exact stores_inPlace htarget hyields hleads hs₁ hpath hw
  · obtain rfl : x = y := Change.set.inj hy
    obtain rfl : sels = [] := by simpa [hrest] using h.leads
    obtain rfl : v = w := Option.some.inj hw
    have hstart : c.Sees c.machine := .refl _ c.machine
    have hkeys : Rust.Expr.AllRead c.host c.fuel c.machine xs ((keys.map Seen.still).map Seen.before) :=
      List.forall₂_map_right_iff.mpr (hwritten.imp fun _ _ hk => hk.before c.machine hstart rfl)
    rw [map_before_still] at hkeys
    have hrun := run_writeField h.uses hcells hlen hwrite hkeys (hx c.machine hstart rfl)
    exact ⟨_, [], (Rust.run_singleton st).trans hrun, rfl⟩
  · have hstores := stores_readsBack h.uses rfl hyields h.keyed h.leads hback (.refl _) hcode
    have hne : sels ≠ [] := by
      rintro rfl
      have hrest : path.drop d.type.mappingDepth = [] := by simpa using h.leads
      cases hback.2 hrest
    have hupdated : updated (Change.set x).isSet v = fun _ => some v := rfl
    rw [storeBack, map_before_still, if_pos (h.readable hne), map_again_still, route_still,
      Rust.Value.carry?_self, hupdated, hw, h.still] at hstores
    exact hstores

-- The place holds the value, every other place, entry and field is as it was, and where another target
-- agreed on a field or an entry before it agrees behind the assignment.
theorem Assigns.updates (h : c.Assigns d path keys sels v code) :
    ∃ m' es, (runAll c.host c.fuel code).run c.machine = ⟨.ok (), m', es⟩ ∧
      (entry c.env.target c.host d m'.store keys).get? sels = some v ∧
      (∀ other, Apart sels other → (entry c.env.target c.host d m'.store keys).get? other =
        (entry c.env.target c.host d c.machine.store keys).get? other) ∧
      (∀ e ks, Elsewhere c.env.target d keys e ks →
        entry c.env.target c.host e m'.store ks = entry c.env.target c.host e c.machine.store ks) ∧
      ∀ {c' : Setting} {path' code'}, c'.Assigns d path' keys sels v code' →
        ∃ m'' es', (runAll c'.host c'.fuel code').run c'.machine = ⟨.ok (), m'', es'⟩ ∧
          ∀ e ks, e = d ∧ ks = keys ∨
              Elsewhere c.env.target d keys e ks ∧ Elsewhere c'.env.target d keys e ks →
            entry c.env.target c.host e c.machine.store ks =
              entry c'.env.target c'.host e c'.machine.store ks →
            entry c.env.target c.host e m'.store ks = entry c'.env.target c'.host e m''.store ks := by
  obtain ⟨u, hu⟩ := Option.isSome_iff_exists.mp h.place
  obtain ⟨w, hw⟩ := Rust.Value.modify?_of_get? (f := fun _ => some v) hu rfl
  obtain ⟨m', es, hrun, hstore⟩ := h.stores hw
  refine ⟨m', es, hrun, ?_, fun other hother => ?_, fun e ks he => ?_, fun {c' path' code'} h' => ?_⟩
  · obtain ⟨_, _, -, hv, hget⟩ := Rust.Value.get?_of_modify? hw
    obtain rfl := Option.some.inj hv
    rw [hstore, entry_write_self, hget]
  · rw [hstore, entry_write_self, Rust.Value.get?_modify?_apart hw hother]
  · rw [hstore, he.entry_write]
  · obtain ⟨u', hu'⟩ := Option.isSome_iff_exists.mp h'.place
    obtain ⟨w', hw'⟩ := Rust.Value.modify?_of_get? (f := fun _ => some v) hu' rfl
    obtain ⟨m'', es', hrun', hstore'⟩ := h'.stores hw'
    refine ⟨m'', es', hrun', fun e ks hplace hsame => ?_⟩
    rw [hstore, hstore']
    rcases hplace with ⟨rfl, rfl⟩ | ⟨he, he'⟩
    · rw [entry_write_self, entry_write_self]
      rw [hsame, hw'] at hw
      exact (Option.some.inj hw).symm
    · rw [he.entry_write, he'.entry_write, hsame]

end Setting

namespace Callee

-- `s.a = 1;` with the declarations above, on a target.

def still (target : Target) : Setting :=
  { setting fun _ => none with env := { (setting fun _ => none).env with target := target } }

def assigned (target : Target) : List Rust.Stmt :=
  match outcome (changeField {} field [.member {} "a" field.type] (.set (.lit "1"))) (still target).env
      {} with
  | (.ok code, _) => code
  | (.error _, _) => []

theorem assigns (target : Target) :
    (still target).Assigns field [.member {} "a" field.type] [] [.field "a"] (.int 1)
      (assigned target) where
  uses := ⟨⟨rfl, fun _ hz => Option.some.inj hz⟩, fun _ => rfl⟩
  still := rfl
  writes := by
    cases target with
    | ink version => exact ⟨{}, .lit "1", _, rfl, fun _ _ _ => .lit rfl⟩
    | soroban => exact ⟨{}, .lit "1", _, rfl, fun _ _ _ => .lit rfl⟩
  keyed := rfl
  leads := .cons rfl .nil
  place := by cases target <;> rfl
  readable _ := fun _ => .inr rfl

theorem assigned_updates :
    ∃ m' m'' es es',
      (runAll (still .soroban).host 0 (assigned .soroban)).run ⟨[], fun _ => none⟩ = ⟨.ok (), m', es⟩ ∧
      (runAll (still (.ink .v6)).host 0 (assigned (.ink .v6))).run ⟨[], fun _ => none⟩ =
        ⟨.ok (), m'', es'⟩ ∧
      (entry .soroban (still .soroban).host field m'.store []).get? [.field "a"] = some (.int 1) ∧
      (entry .soroban (still .soroban).host field m'.store []).get? [.field "b"] = some (.int 0) ∧
      entry .soroban (still .soroban).host field m'.store [] =
        entry (.ink .v6) (still (.ink .v6)).host field m''.store [] := by
  obtain ⟨m', es, hrun, hplace, hother, -, hink⟩ := (assigns .soroban).updates
  obtain ⟨m'', es', hrun', hsame⟩ := hink (assigns (.ink .v6))
  refine ⟨m', m'', es, es', hrun, hrun', hplace, ?_, hsame field [] (.inl ⟨rfl, rfl⟩) rfl⟩
  exact (hother [.field "b"] (.inl (by decide))).trans rfl

end Callee

namespace Owned

-- `m[1].n = 5;` for `struct S { address owner; uint256 n; }` and `mapping(uint256 => S) m;`

def structDecl : StructDecl :=
  { name := "S", fields := [⟨"owner", .address false⟩, ⟨"n", .uint256⟩], owner := "C", start := {} }

def field : FieldDecl :=
  { name := "m", sourceName := "m", type := .mapping .uint256 (.struct ⟨"C", "S"⟩), owner := "C"
    start := {} }

def contract : Contract := { (default : Contract) with name := "C", structs := [structDecl] }

def env : Env := ⟨{ name := "C", classes := [contract] }, contract, .soroban⟩

def statement : Stmt :=
  .assign {} (.member {} (.index {} (.field {} field) (.int {} 1) (.struct ⟨"C", "S"⟩)) "n" .uint256)
    (.int {} 5)

def written : List Rust.Stmt :=
  match outcome (stmt statement) env {} with
  | (.ok code, _) => code
  | (.error _, _) => []

def host : Host where
  field _ := ⟨true, .struct ["owner", "n"] [.account 0, .int 0]⟩
  literal _ := none
  unary _ _ := none
  binary _ _ _ := none
  cast _ _ := none
  function _ _ _ := none
  method _ _ _ _ := none
  contract _ _ _ _ _ := none

-- An address has no default in Soroban, so the entry cannot be read before it is written as a whole.
theorem absent_entry_panics :
    (∃ s', Writes (stmt statement) env {} written s') ∧
      ((entry .soroban host field (fun _ => none) [.int 1]).get? [.field "n"]).isSome ∧
      ∃ m' es, (runAll host 0 written).run ⟨[], fun _ => none⟩ = ⟨.error .panic, m', es⟩ :=
  ⟨⟨_, rfl⟩, rfl, _, _, rfl⟩

end Owned

end RustContracts.Emit
