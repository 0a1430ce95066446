import RustContracts.Proofs.Emit.Setting
import RustContracts.Proofs.Rust.Identifier

-- What a declaration does: it binds its variables to the values that they are given.
namespace RustContracts.Emit

open Program
open Rust (Machine Value Run runAll)

variable {E : Env} {s s' : State}

-- Types.

-- A text that is no type of references: it starts otherwise, or is no path.
def NotReference (text : String) : Prop := text.toList.head? ≠ some 'i' ∨ ':' ∉ text.toList

theorem startsWith_ref {text : String} (h : NotReference text) :
    Rust.startsWith text "ink::contract_ref!(" = false := by
  rw [Bool.eq_false_iff]
  intro hstart
  obtain ⟨rest, hrest⟩ := List.isPrefixOf_iff_prefix.mp hstart
  rw [NotReference, ← hrest] at h
  rcases h with h | h
  · exact h rfl
  · exact h (List.mem_append_left _ (by decide))

theorem Ink.colon_notMem_intName {signed : Bool} {bits : Nat} {text : String}
    (hw : Writes (Ink.intName signed bits) E s text s') : ':' ∉ text.toList := by
  unfold Ink.intName at hw
  split at hw
  · next width hwidth =>
      obtain ⟨rfl, -⟩ := writes_pure.mp hw
      have hall : ∀ width ∈ [8, 16, 32, 64, 128], ∀ sign ∈ ["i", "u"], ':' ∉ (sign ++ toString (width : Nat)).toList := by
        decide
      refine hall width (List.mem_of_find?_eq_some hwidth) _ ?_
      split <;> decide
  · split at hw
    · exact absurd hw not_writes_throw
    · obtain ⟨rfl, -⟩ := writes_pure.mp hw
      decide

theorem Soroban.colon_notMem_intName (signed : Bool) (bits : Nat) : ':' ∉ (Soroban.intName signed bits).toList := by
  unfold Soroban.intName
  split
  · next width hwidth =>
      have hall : ∀ width ∈ [32, 64, 128], ∀ sign ∈ ["i", "u"], ':' ∉ (sign ++ toString (width : Nat)).toList := by
        decide
      refine hall width (List.mem_of_find?_eq_some hwidth) _ ?_
      split <;> decide
  · split <;> decide

theorem head_tupleText (texts : List String) :
    (Ink.tupleText texts).toList.head? = some '(' ∧ (Soroban.tupleText texts).toList.head? = some '(' := by
  constructor
  · unfold Ink.tupleText
    split <;> simp [String.toList_append]
  · unfold Soroban.tupleText
    split <;> simp [String.toList_append]

-- What holds of all that a step writes.
def Always {α : Type} (P : α → Prop) (act : Emit α) : Prop := ∀ E s a s', Writes act E s a s' → P a

section Always

variable {α β : Type} {P : α → Prop}

theorem always_pure {a : α} (h : P a) : Always P (pure a) := by
  intro E s b s' hw
  obtain ⟨rfl, -⟩ := writes_pure.mp hw
  exact h

theorem always_bind {x : Emit β} {f : β → Emit α} (h : ∀ b, Always P (f b)) : Always P (x >>= f) := by
  intro E s a s' hw
  obtain ⟨b, s₁, -, hw⟩ := writes_bind.mp hw
  exact h b E s₁ a s' hw

theorem always_throw (stop : Stop) : Always P (throw stop : Emit α) := by
  intro E s a s' hw
  exact absurd hw not_writes_throw

end Always

theorem always_ink_type (version : InkVersion) (t : Ty) : Always NotReference (Ink.type version t) := by
  cases t with
  | int signed bits =>
      rw [Ink.type]
      have hname : Always NotReference (Ink.intName signed bits) := fun E s text s' hw => .inr (Ink.colon_notMem_intName hw)
      split
      · exact always_bind fun _ => hname
      · exact hname
  | literal =>
      rw [Ink.type]
      exact always_bind fun _ => always_pure (.inl (by decide))
  | bool =>
      rw [Ink.type]
      exact always_pure (.inl (by decide))
  | address _ | contract _ =>
      have hname : Always NotReference (pure (Ink.addressName version)) :=
        always_pure (.inl (by cases version <;> decide))
      rw [Ink.type, Ink.addressType]
      split
      · exact always_bind fun _ => hname
      · exact hname
  | string =>
      rw [Ink.type]
      exact always_bind fun _ => always_pure (.inl (by decide))
  | bytes size =>
      rw [Ink.type]
      split
      · exact always_bind fun _ => always_pure (.inl (by decide))
      · exact always_pure (.inl (by simp [String.toList_append]))
  | array elem length =>
      rw [Ink.type]
      refine always_bind fun t => ?_
      split
      · exact always_bind fun _ => always_pure (.inl (by simp [String.toList_append]))
      · exact always_pure (.inl (by simp [String.toList_append]))
  | struct r | enum r =>
      rw [Ink.type]
      exact always_pure (.inr (Rust.Name.colon_notMem_type r.name))
  | tuple elems =>
      rw [Ink.type]
      exact always_bind fun ts => always_pure (.inl (by simp [(head_tupleText ts).1]))
  | mapping key value =>
      rw [Ink.type]
      exact always_throw _

theorem always_soroban_type (t : Ty) : Always NotReference (Soroban.type t) := by
  cases t with
  | int signed bits =>
      rw [Soroban.type]
      have hname : Always NotReference (pure (Soroban.intName signed bits)) :=
        always_pure (.inr (Soroban.colon_notMem_intName signed bits))
      split
      · exact always_bind fun _ => hname
      · exact hname
  | literal | address _ | contract _ | string =>
      rw [Soroban.type, Soroban.named]
      exact always_bind fun _ => always_pure (.inl (by decide))
  | bool =>
      rw [Soroban.type]
      exact always_pure (.inl (by decide))
  | bytes size =>
      rw [Soroban.type]
      split
      · rw [Soroban.named]
        exact always_bind fun _ => always_pure (.inl (by decide))
      · exact always_bind fun _ => always_pure (.inl (by simp [String.toList_append]))
  | array elem length =>
      rw [Soroban.type]
      exact always_bind fun t => always_bind fun _ => always_pure (.inl (by simp [String.toList_append]))
  | struct r | enum r =>
      rw [Soroban.type]
      exact always_pure (.inr (Rust.Name.colon_notMem_type r.name))
  | tuple elems =>
      rw [Soroban.type]
      exact always_bind fun ts => always_pure (.inl (by simp [(head_tupleText ts).2]))
  | mapping key value =>
      rw [Soroban.type]
      exact always_throw _

theorem startsWith_typeText {t : Ty} {text : String} (hw : Writes (typeText t) E s text s') :
    Rust.startsWith text "ink::contract_ref!(" = false := by
  rw [typeText, writes_of_target] at hw
  cases htarget : E.target with
  | ink version =>
      rw [htarget] at hw
      exact startsWith_ref (always_ink_type version t E s text s' hw)
  | soroban =>
      rw [htarget] at hw
      exact startsWith_ref (always_soroban_type t E s text s' hw)


-- Patterns.

-- A variable in a pattern, with the mark of those that change.
def marked (isMut : Bool) (name : String) : String := if isMut then "mut " ++ name else name

theorem intercalate_comma (first : List Char) (rest : List (List Char)) :
    [',', ' '].intercalate (first :: rest) = [','].intercalate (first :: rest.map (' ' :: ·)) := by
  induction rest generalizing first with
  | nil => rfl
  | cons next rest ih =>
      rw [List.map_cons, List.intercalate_cons_cons, List.intercalate_cons_cons, ih]
      cases rest with
      | nil => simp
      | cons last rest => simp [List.intercalate_cons_cons]

-- A name in a pattern, and whether it has the mark of those that change.
def readMark (text : List Char) : Bool × String :=
  if text.take 4 = "mut ".toList then (true, String.ofList (text.drop 4)) else (false, String.ofList text)

theorem readMark_marked (isMut : Bool) {name : String} (hname : ' ' ∉ name.toList) :
    readMark (marked isMut name).toList = (isMut, name) := by
  cases isMut with
  | true =>
      have htext : (marked true name).toList = "mut ".toList ++ name.toList := by
        rw [marked, if_pos rfl, String.toList_append]
      rw [readMark, htext, if_pos (by simp), List.drop_left' (by decide), String.ofList_toList]
  | false =>
      rw [marked, if_neg Bool.false_ne_true, readMark, if_neg, String.ofList_toList]
      intro htake
      exact hname (List.mem_of_mem_take (htake ▸ by decide : ' ' ∈ name.toList.take 4))

-- The names in a pattern of several with their marks.
def patternMarks (pattern : String) : List (Bool × String) :=
  (((pattern.toList.drop 1).dropLast).splitOn ',').map fun part => readMark (part.dropWhile (· == ' '))

theorem map_snd_patternMarks (pattern : String) : (patternMarks pattern).map Prod.snd = Rust.patternNames pattern := by
  unfold patternMarks Rust.patternNames readMark
  rw [List.map_map]
  refine List.map_congr_left fun part _ => ?_
  dsimp only [Function.comp_apply]
  split <;> rfl

theorem dropWhile_marked (isMut : Bool) {name : String} (hname : ' ' ∉ name.toList) :
    (marked isMut name).toList.dropWhile (· == ' ') = (marked isMut name).toList := by
  cases isMut with
  | true =>
      have htext : (marked true name).toList = 'm' :: 'u' :: 't' :: ' ' :: name.toList := by
        rw [marked, if_pos rfl, String.toList_append]
        rfl
      rw [htext, List.dropWhile_cons_of_neg (by decide)]
  | false =>
      rw [marked, if_neg Bool.false_ne_true]
      cases hcs : name.toList with
      | nil => rfl
      | cons c cs =>
          rw [hcs] at hname
          have hc : c ≠ ' ' := (List.ne_of_not_mem_cons hname).symm
          rw [List.dropWhile_cons_of_neg (by simp [hc])]

theorem patternMarks_tuple {names : List (Bool × String)} (hne : names ≠ [])
    (hnames : ∀ n ∈ names, ',' ∉ n.2.toList ∧ ' ' ∉ n.2.toList) :
    patternMarks ("(" ++ ", ".intercalate (names.map fun n => marked n.1 n.2) ++ ")") = names := by
  obtain ⟨first, rest, rfl⟩ := List.exists_cons_of_ne_nil hne
  have hinner : ((("(" ++ ", ".intercalate ((first :: rest).map fun n => marked n.1 n.2) ++ ")").toList.drop 1).dropLast) =
      [','].intercalate ((marked first.1 first.2).toList :: rest.map fun n => ' ' :: (marked n.1 n.2).toList) := by
    simp [String.toList_append, String.toList_intercalate, intercalate_comma, Function.comp_def]
  have hcomma (n : Bool × String) (hn : ',' ∉ n.2.toList) : ',' ∉ (marked n.1 n.2).toList := by
    unfold marked
    split
    · simpa [String.toList_append] using hn
    · exact hn
  have hread (n : Bool × String) (hn : ' ' ∉ n.2.toList) :
      readMark ((marked n.1 n.2).toList.dropWhile (· == ' ')) = n := by
    rw [dropWhile_marked n.1 hn, readMark_marked n.1 hn]
  obtain ⟨hfirst, hrest⟩ := List.forall_mem_cons.mp hnames
  rw [patternMarks, hinner, List.splitOn_intercalate ',' ?_ (List.cons_ne_nil _ _), List.map_cons, List.map_map,
    hread first hfirst.2]
  · have hrest : ∀ n ∈ rest, ((fun part => readMark (part.dropWhile (· == ' '))) ∘
        fun n => ' ' :: (marked n.1 n.2).toList) n = id n := by
      intro n hn
      rw [Function.comp_apply, List.dropWhile_cons_of_pos rfl]
      exact hread n (hrest n hn).2
    rw [List.map_congr_left hrest, List.map_id]
  · refine List.forall_mem_cons.mpr ⟨hcomma first hfirst.1, List.forall_mem_map.mpr fun n hn => ?_⟩
    exact List.not_mem_cons_of_ne_of_not_mem (by decide) (hcomma n (hrest n hn).1)

theorem patternNames_tuple {names : List (Bool × String)} (hne : names ≠ [])
    (hnames : ∀ n ∈ names, ',' ∉ n.2.toList ∧ ' ' ∉ n.2.toList) :
    Rust.patternNames ("(" ++ ", ".intercalate (names.map fun n => marked n.1 n.2) ++ ")") = names.map Prod.snd := by
  rw [← map_snd_patternMarks, patternMarks_tuple hne hnames]


-- Declarations.

section Names

variable {n : String}

-- The identifier of a variable is no name of the contract, no path and no pattern.
theorem value_ne_self (h : Solidity.isIdentifier n = true) : Rust.Name.value n ≠ "self" := by
  intro heq
  exact Rust.Name.value_notMem_reserved h (by rw [heq]; decide)

theorem notMem_value (h : Solidity.isIdentifier n = true) {c : Char} (hsnake : Rust.Name.isSnakeChar c = false)
    (hdollar : c ≠ '$') (hhash : c ≠ '#') : c ∉ (Rust.Name.value n).toList := by
  intro hc
  rcases Rust.Name.mem_value h hc with hc | hc | hc
  · rw [hsnake] at hc
    cases hc
  · exact hdollar hc
  · exact hhash hc

theorem isPath_value (h : Solidity.isIdentifier n = true) : Rust.isPath (Rust.Name.value n) = false := by
  have hcolon : ':' ∉ (Rust.Name.value n).toList := notMem_value h (by decide) (by decide) (by decide)
  simpa [Rust.isPath] using hcolon

theorem isTuplePattern_value (h : Solidity.isIdentifier n = true) :
    Rust.isTuplePattern (Rust.Name.value n) = false := by
  have hopen : '(' ∉ (Rust.Name.value n).toList := notMem_value h (by decide) (by decide) (by decide)
  rw [Rust.isTuplePattern, beq_eq_false_iff_ne]
  exact fun hhead => hopen (List.mem_of_head? hhead)

end Names

-- The value of several variables is a tuple.

def packed : List Value → Value
  | [v] => v
  | vs => .tuple vs

def packedType : List Ty → Ty
  | [t] => t
  | ts => .tuple ts

namespace Setting

variable {c : Setting} {code : List Rust.Stmt}

-- Values that a source expression may have wherever it is written; computing it may change storage.
def Computes (c : Setting) (t : Ty) (e : Expr) (v : Value) : Prop :=
  ∀ s x s', SameNames c.state s → Writes (exprAs t e) c.env s x s' → c.Yields x v

-- What code does that declares variables: they hold these values, and storage is as computing them has left it.
def Declares (c : Setting) (code : List Rust.Stmt) (bound : List (String × Value)) : Prop :=
  ∃ m' es, (runAll c.host c.fuel code).run c.machine = ⟨.ok (), m', es⟩ ∧ m'.store = c.after ∧
    m'.locals = (bound.map fun b => (b.1, .value b.2)).reverse ++ c.machine.locals

end Setting

theorem run_declareAll (names : List String) (vs : List Value) (m : Machine) :
    (Rust.declareAll names vs).run m =
      ⟨.ok (), { m with locals := ((names.zip vs).map fun b => (b.1, .value b.2)).reverse ++ m.locals }, []⟩ := by
  induction names generalizing vs m with
  | nil => rfl
  | cons name names ih =>
      cases vs with
      | nil => rfl
      | cons v vs =>
          have hname : (Run.declare name (.value v)).run m = ⟨.ok (), m.push name v, []⟩ := rfl
          rw [Rust.declareAll, Run.run_bind_of_ok hname, ih]
          simp [Machine.push]

-- The pattern that declares variables, and the type that is written for a single one.

-- A variable that is declared in a pattern.
theorem writes_declared {v : Param} {name : String}
    (hw : Writes (do
      let ident := Rust.Name.value v.name
      declare v.name ident
      return if ← isMutated v.name then "mut " ++ ident else ident) E s name s') :
    name = marked (s.frame.mutated.contains v.name) (Rust.Name.value v.name) ∧ s'.frame.mutated = s.frame.mutated ∧
      ∀ n, s'.local? n = if n = v.name then some (Rust.Name.value v.name) else s.local? n := by
  obtain ⟨u, s₁, hdeclare, hw⟩ := writes_bind.mp hw
  have hlocal := local_declare hdeclare
  obtain rfl := writes_modify.mp hdeclare
  cases hw
  exact ⟨rfl, rfl, hlocal⟩

theorem writes_pattern {vars : List Param} {names : List String}
    (hw : Writes (vars.mapM fun v => do
      let ident := Rust.Name.value v.name
      declare v.name ident
      return if ← isMutated v.name then "mut " ++ ident else ident) E s names s') :
    names = vars.map (fun v => marked (s.frame.mutated.contains v.name) (Rust.Name.value v.name)) ∧
      ∀ n, n ∈ vars.map Param.name ∨ s.local? n = some (Rust.Name.value n) → s'.local? n = some (Rust.Name.value n) := by
  induction vars generalizing s names with
  | nil =>
      obtain ⟨rfl, rfl⟩ := writes_pure.mp hw
      exact ⟨rfl, by simp⟩
  | cons v vars ih =>
      rw [List.mapM_cons] at hw
      obtain ⟨name, s₁, hv, hw⟩ := writes_bind.mp hw
      obtain ⟨more, s₂, hmore, hw⟩ := writes_bind.mp hw
      obtain ⟨rfl, rfl⟩ := writes_pure.mp hw
      obtain ⟨rfl, hmutated, hlocal⟩ := writes_declared hv
      obtain ⟨rfl, hlocals⟩ := ih hmore
      rw [hmutated]
      refine ⟨rfl, fun n hn => hlocals n ?_⟩
      rw [List.map_cons, List.mem_cons, or_assoc] at hn
      rw [hlocal n]
      by_cases hsame : n = v.name
      · rw [if_pos hsame, hsame]
        exact .inr rfl
      · rw [if_neg hsame]
        exact hn.resolve_left hsame


namespace Setting

variable {c : Setting} {code : List Rust.Stmt} {vars : List Param} {value : Expr} {ws : List Value}

-- A declaration binds its variables to copies of the values.
theorem declares_of_writes (hnames : ∀ v ∈ vars, Solidity.isIdentifier v.name = true) (hlength : ws.length = vars.length)
    (hvalue : c.Computes (packedType (vars.map Param.type)) value (packed ws))
    (hw : Writes (declareVars vars value) c.env c.state code s') :
    c.Declares code ((vars.map fun v => Rust.Name.value v.name).zip ws) ∧
      ∀ v ∈ vars, s'.local? v.name = some (Rust.Name.value v.name) := by
  have hruns {isMut : Bool} {pattern type : String} {x : Rust.Expr} {s s₁ : State}
      (hs : SameNames c.state s) (hx : Writes (exprAs (packedType (vars.map Param.type)) value) c.env s x s₁)
      (htype : Rust.startsWith type "ink::contract_ref!(" = false)
      (hpattern : ∀ m, (Rust.declarePattern pattern (packed ws)).run m =
        (Rust.declareAll (vars.map fun v => Rust.Name.value v.name) ws).run m) :
      c.Declares [.letVar isMut pattern type (some x)] ((vars.map fun v => Rust.Name.value v.name).zip ws) := by
    obtain ⟨es, heval⟩ := hvalue s x s₁ hs hx c.machine (.refl _ c.machine) rfl
    have hrun : ((Rust.Stmt.letVar isMut pattern type (some x)).run c.host c.fuel).run c.machine = _ :=
      Rust.run_let htype heval
    rw [hpattern, run_declareAll, Rust.Outcome.behind_mk, List.append_nil] at hrun
    exact ⟨_, es, (Rust.run_singleton _).trans hrun, rfl, rfl⟩
  unfold declareVars at hw
  split at hw
  · next v =>
      obtain ⟨w, rfl⟩ : ∃ w, ws = [w] := List.length_eq_one_iff.mp hlength
      obtain ⟨type, s₁, htype, hw⟩ := writes_bind.mp hw
      obtain ⟨x, s₂, hx, hw⟩ := writes_bind.mp hw
      obtain ⟨u, s₃, hdeclare, hw⟩ := writes_bind.mp hw
      have hlocal := local_declare hdeclare v.name
      cases hw
      refine ⟨hruns ((steady_typeText _).sameNames htype) hx (startsWith_typeText htype) fun m => ?_, fun v' hv' => ?_⟩
      · have hplain := isTuplePattern_value (hnames v List.mem_cons_self)
        have hdeclare : Rust.declarePattern (Rust.Name.value v.name) (packed [w]) =
            Run.declare (Rust.Name.value v.name) (.value w) := by simp [Rust.declarePattern, hplain, packed]
        rw [hdeclare]
        rfl
      · rw [List.mem_singleton.mp hv', hlocal, if_pos rfl]
  · next hmany =>
      have hpacked : packed ws = .tuple ws := by
        unfold packed
        split
        · next w =>
            obtain ⟨v, rfl⟩ := List.length_eq_one_iff.mp hlength.symm
            exact absurd rfl (hmany v)
        · rfl
      have htype : packedType (vars.map Param.type) = .tuple (vars.map Param.type) := by
        unfold packedType
        split
        · next t heq =>
            obtain ⟨v, rfl, -⟩ := List.map_eq_singleton_iff.mp heq
            exact absurd rfl (hmany v)
        · rfl
      obtain ⟨x, s₁, hx, hw⟩ := writes_bind.mp hw
      obtain ⟨names, s₂, hdeclared, hw⟩ := writes_bind.mp hw
      obtain ⟨rfl, rfl⟩ := writes_pure.mp hw
      obtain ⟨rfl, hlocals⟩ := writes_pattern hdeclared
      refine ⟨hruns (.refl _) (htype ▸ hx) rfl fun m => ?_, fun v hv => ?_⟩
      · have htuple : Rust.isTuplePattern ("(" ++ ", ".intercalate (vars.map fun v =>
            marked (s₁.frame.mutated.contains v.name) (Rust.Name.value v.name)) ++ ")") = true := by
          simp [Rust.isTuplePattern, String.toList_append]
        rw [hpacked, Rust.declarePattern, if_pos htuple]
        by_cases hnil : vars = []
        · obtain rfl : ws = [] := List.length_eq_zero_iff.mp (by rw [hlength, hnil, List.length_nil])
          rw [run_declareAll, run_declareAll, List.zip_nil_right, List.zip_nil_right]
        · let names := vars.map fun v => (s₁.frame.mutated.contains v.name, Rust.Name.value v.name)
          have hplain : ∀ n ∈ names, ',' ∉ n.2.toList ∧ ' ' ∉ n.2.toList := List.forall_mem_map.mpr fun v hv =>
            ⟨notMem_value (hnames v hv) (by decide) (by decide) (by decide),
              notMem_value (hnames v hv) (by decide) (by decide) (by decide)⟩
          have hplain := patternNames_tuple (show names ≠ [] by simpa [names] using hnil) hplain
          rw [List.map_map, List.map_map] at hplain
          exact congrArg (fun names => (Rust.declareAll names ws).run m) hplain
      · exact hlocals v.name (.inl (List.mem_map_of_mem hv))

end Setting

end RustContracts.Emit
