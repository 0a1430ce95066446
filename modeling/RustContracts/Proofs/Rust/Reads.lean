import RustContracts.Proofs.Rust.Eval
import RustContracts.Rust.Tree
import Mathlib.Data.List.Forall2

-- Expressions that have a value and change nothing.
namespace RustContracts.Rust

variable {h : Host} {fuel : Nat} {m m₁ m₂ : Machine} {v : Value} {vs : List Value}

namespace Expr

def Reads (h : Host) (fuel : Nat) (m : Machine) (x : Expr) (v : Value) : Prop :=
  (x.eval h fuel).run m = ⟨.ok v, m, []⟩

def AllRead (h : Host) (fuel : Nat) (m : Machine) : List Expr → List Value → Prop :=
  List.Forall₂ (Reads h fuel m)

-- What has a value is neither the contract nor a mapping nor a variable that holds a reference.
theorem receiver_of_eval {x : Expr} {es : List Event} (hx : (x.eval h fuel).run m = ⟨.ok v, m₁, es⟩) :
    x.isSelf = false ∧ x.mapping? h = none ∧ x.reference? m = none := by
  cases x with
  | ident name =>
      by_cases hself : name = "self"
      · simp [eval, readName, hself] at hx
      · refine ⟨by simpa [isSelf], rfl, ?_⟩
        by_cases hpath : isPath name = true
        · simp [reference?, hpath]
        · cases hlook : m.locals.lookup name with
          | none => simp [reference?, hlook]
          | some b =>
              cases b with
              | value _ => simp [reference?, hlook]
              | reference _ _ => simp [eval, readName, hself, hpath, hlook] at hx
  | field target name =>
      refine ⟨rfl, ?_, rfl⟩
      by_cases hself : target.isSelf
      · cases hmap : (h.field name).isMapping with
        | false => simp [mapping?, hmap]
        | true => simp [eval, hself, storageField, hmap] at hx
      · simp [mapping?, hself]
  | _ => exact ⟨rfl, rfl, rfl⟩

-- A method that changes no place takes the values of its receiver and arguments, in that order.
theorem eval_methodCall {x : Expr} {method : String} {args : List Expr}
    (hm : (isMutator method && x.isPlace) = false) (hx : (x.eval h fuel).run m = ⟨.ok v, m₁, []⟩)
    (hargs : (evalAll h fuel args).run m₁ = ⟨.ok vs, m₂, []⟩) :
    ((methodCall x method args).eval h fuel).run m = (callMethod h v method vs).run m₂ := by
  obtain ⟨hself, hmap, href⟩ := receiver_of_eval hx
  rw [eval, Run.run_bind_of_ok (Run.run_machine m)]
  simp only [href, hself, hmap, hm, Bool.false_eq_true, if_false]
  rw [Run.run_bind_of_ok hx, Run.run_bind_of_ok hargs]

theorem eval_methodCall_error {x : Expr} {method : String} {args : List Expr} {e : Exit}
    (hm : (isMutator method && x.isPlace) = false) (hself : x.isSelf = false) (hmap : x.mapping? h = none)
    (href : x.reference? m = none) (hx : (x.eval h fuel).run m = ⟨.error e, m₁, []⟩) :
    ((methodCall x method args).eval h fuel).run m = ⟨.error e, m₁, []⟩ := by
  rw [eval, Run.run_bind_of_ok (Run.run_machine m)]
  simp only [href, hself, hmap, hm, Bool.false_eq_true, if_false]
  rw [Run.run_bind_of_error hx]

theorem AllRead.eval {xs : List Expr} (hxs : AllRead h fuel m xs vs) :
    (evalAll h fuel xs).run m = ⟨.ok vs, m, []⟩ := by
  induction hxs with
  | nil => rfl
  | cons hx _ ih =>
      rw [evalAll, Run.run_bind_of_ok hx, Run.run_bind_of_ok ih]
      rfl

theorem AllRead.evalFields {xs : List Expr} (hxs : AllRead h fuel m xs vs) {names : List String}
    (hlen : names.length = xs.length) :
    (Rust.evalFields h fuel ((names.zip xs).map fun f => ⟨f.1, f.2⟩)).run m = ⟨.ok vs, m, []⟩ := by
  induction hxs generalizing names with
  | nil => cases names <;> rfl
  | cons hx _ ih =>
      cases names with
      | nil => cases hlen
      | cons name names =>
          have hrest := ih (Nat.succ.inj hlen)
          rw [List.zip_cons_cons, List.map_cons, Rust.evalFields, Run.run_bind_of_ok hx,
            Run.run_bind_of_ok hrest]
          rfl

namespace Reads

theorem ident {name : String} (hself : name ≠ "self") (hpath : isPath name = false)
    (hlook : m.locals.lookup name = some (.value v)) : Reads h fuel m (.ident name) v := by
  simp [Reads, eval, readName, hself, hpath, hlook]

theorem path {name : String} (hpath : isPath name = true) :
    Reads h fuel m (.ident name) (.variant name []) := by
  have hself : name ≠ "self" := by
    rintro rfl
    revert hpath
    decide
  simp [Reads, eval, readName, hself, hpath]

-- What a name reads depends on its own binding alone.
theorem of_lookup {name : String} (hx : Reads h fuel m (.ident name) v)
    (hlook : m₁.locals.lookup name = m.locals.lookup name) : Reads h fuel m₁ (.ident name) v := by
  simp only [Reads, eval, readName, hlook] at hx ⊢
  by_cases hself : name = "self"
  · simp [hself] at hx
  · by_cases hpath : isPath name = true
    · simpa [hself, hpath] using hx
    · cases hb : m.locals.lookup name with
      | none => simpa [hself, hpath, hb] using hx
      | some b =>
          cases b with
          | value _ => simpa [hself, hpath, hb] using hx
          | reference _ _ => simp [hself, hpath, hb] at hx

theorem lit {text : String} (ht : literal? h text = some v) : Reads h fuel m (.lit text) v := by
  rw [Reads, eval, Run.ofOption_some ht]
  rfl

theorem ref {x : Expr} (hx : Reads h fuel m x v) : Reads h fuel m x.ref v := by
  rw [Reads, Expr.ref, eval, Run.run_bind_of_ok hx]
  rfl

theorem tuple {xs : List Expr} (hxs : AllRead h fuel m xs vs) :
    Reads h fuel m (.tuple xs) (.tuple vs) := by
  rw [Reads, eval, Run.run_bind_of_ok hxs.eval]
  rfl

theorem callPath {path : String} {args : List Expr} (hargs : AllRead h fuel m args vs)
    (hv : (callFunction h path vs).run m = ⟨.ok v, m, []⟩) : Reads h fuel m (.callPath path args) v := by
  rw [Reads, Expr.callPath, eval, Run.run_bind_of_ok hargs.eval]
  exact hv

-- The names are those of the fields, in order.
theorem structLit (name : String) {names : List String} {xs : List Expr}
    (hxs : AllRead h fuel m xs vs) (hlen : names.length = xs.length) :
    Reads h fuel m (.structLit name ((names.zip xs).map fun f => ⟨f.1, f.2⟩) none)
      (.struct names vs) := by
  have hnames : ((names.zip xs).map fun f => (⟨f.1, f.2⟩ : FieldInit)).map FieldInit.name = names := by
    rw [List.map_map]
    exact List.map_fst_zip (Nat.le_of_eq hlen)
  rw [Reads, eval, Run.run_bind_of_ok (hxs.evalFields hlen), hnames]
  rfl

theorem method {x : Expr} {name : String} {w : Value} (hm : (isMutator name && x.isPlace) = false)
    (hx : Reads h fuel m x v) (hw : (callMethod h v name []).run m = ⟨.ok w, m, []⟩) :
    Reads h fuel m (x.method name) w := by
  rw [Reads, Expr.method, eval_methodCall hm hx rfl, hw]

theorem clone {x : Expr} (hx : Reads h fuel m x v) : Reads h fuel m (x.method "clone") v :=
  hx.method rfl rfl

-- What a clone reads is what its receiver reads.
theorem of_clone {x : Expr} (hx : Reads h fuel m (x.method "clone") v) : Reads h fuel m x v := by
  rw [Reads, Expr.method, eval, Run.run_bind_of_ok (Run.run_machine m)] at hx
  cases href : x.reference? m with
  | some r => simp [href, evalAll, callContract, Run.run_bind, Run.note, Outcome.behind] at hx
  | none =>
      simp only [href] at hx
      by_cases hself : x.isSelf
      · simp [hself, Run.run_bind] at hx
      · rw [if_neg hself, if_neg (by simp [isMutator])] at hx
        cases hmap : x.mapping? h with
        | some f => simp [hmap, evalAll, callMapping, Run.run_bind] at hx
        | none =>
            simp only [hmap] at hx
            rcases hr : (x.eval h fuel).run m with ⟨r, m', es⟩
            cases r with
            | error e => simp [Run.run_bind, hr] at hx
            | ok w =>
                rw [Run.run_bind_ok hr] at hx
                change (⟨.ok w, m', es ++ ([] ++ [])⟩ : Outcome Value) = _ at hx
                simp only [List.append_nil] at hx
                rw [Reads, hr, hx]

theorem borrowed {x : Expr} (hx : Reads h fuel m x v) : Reads h fuel m x.borrowed v := by
  unfold Expr.borrowed
  split
  · split
    · exact of_clone hx
    · exact hx
  · exact hx

theorem cast {x : Expr} {type : String} {w : Value} (hx : Reads h fuel m x v)
    (hw : castTo h type v = some w) : Reads h fuel m (.cast x type) w := by
  rw [Reads, eval, Run.run_bind_of_ok hx, Run.ofOption_some hw]
  rfl

end Reads

end Expr

end RustContracts.Rust
