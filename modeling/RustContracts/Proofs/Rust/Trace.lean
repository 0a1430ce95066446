import RustContracts.Proofs.Rust.Eval

-- Which references a run calls: every call goes through a variable, to the address that the variable was
-- given when it was declared. Rules for declarations and calls carry over from code to all of its runs.
namespace RustContracts.Rust

-- What is said about references in some code.
structure Rules where
  -- the names of the variables that hold them
  reserved : String → Prop
  -- what a variable may be declared as, and whether as one that may be changed
  declares : String → Expr → Prop
  marks : Bool → String → Prop
  -- which methods are called on a variable
  calls : String → String → Prop
  reserved_of_declares : ∀ {name value}, declares name value → reserved name
  -- methods that are not taken for what code does with values
  calls_plain : ∀ {name method}, calls name method → method ≠ "clone" ∧ method ≠ "into"

-- Code.

mutual

-- Code that keeps the rules: its variables hold no references, but for those on which methods are called,
-- and nothing in it makes a reference.
def Expr.Clean (R : Rules) : Expr → Prop
  | .ident name => isPath name = true ∨ ¬R.reserved name
  | .lit _ | .missing => True
  | .field target _ => target.Clean R
  | .methodCall receiver method args =>
    (method = "into" → receiver.isSelf = true) ∧
      (receiver.Clean R ∨ ∃ name, receiver = .ident name ∧ R.calls name method) ∧ AllClean R args
  | .call function args => isClient function.name = false ∧ AllClean R args
  | .bangCall _ args | .tuple args | .array args => AllClean R args
  | .binary _ left right => left.Clean R ∧ right.Clean R
  | .index target key => target.Clean R ∧ key.Clean R
  | .unary _ operand => operand.Clean R
  | .structLit _ fields base => FieldsClean R fields ∧ OptionClean R base
  | .cast value _ | .tryOp value => value.Clean R
  | .ifElse _ cond whenTrue whenFalse =>
    cond.Clean R ∧ whenTrue.Clean R ∧ OptionClean R whenFalse
  | .block body => body.Clean R

-- What makes a reference is clean but for that.
def Expr.Makes (R : Rules) : Expr → Prop
  | .methodCall account _ args => account.Clean R ∧ AllClean R args
  | .call _ args => AllClean R args
  | _ => False

def AllClean (R : Rules) : List Expr → Prop
  | [] => True
  | e :: rest => e.Clean R ∧ AllClean R rest

def FieldsClean (R : Rules) : List FieldInit → Prop
  | [] => True
  | ⟨_, value⟩ :: rest => value.Clean R ∧ FieldsClean R rest

def OptionClean (R : Rules) : Option Expr → Prop
  | none => True
  | some e => e.Clean R

def Block.Clean (R : Rules) : Block → Prop
  | ⟨stmts, tail⟩ => CodeClean R stmts ∧ OptionClean R tail

def Stmt.Clean (R : Rules) : Stmt → Prop
  | .letVar isMut pattern type (some value) =>
    value.Clean R ∧ isReference type value = false ∨
      value.Makes R ∧ R.declares pattern value ∧ R.marks isMut pattern
  | .letVar _ _ _ none => True
  | .expr value => value.Clean R
  | .assign target _ value => target.Clean R ∧ value.Clean R
  | .whileLoop _ cond body => cond.Clean R ∧ body.Clean R
  | .loop _ body | .labeled _ body => body.Clean R
  | .breakLoop _ | .continueLoop _ => True
  | .returnValue value => OptionClean R value

def CodeClean (R : Rules) : List Stmt → Prop
  | [] => True
  | s :: rest => s.Clean R ∧ CodeClean R rest

end

-- Runs.

section Runs

variable (R : Rules) (h : Host) (fuel : Nat)

-- An event behind others: what is declared is declared by the rules, as what it refers to at that time,
-- and what is called has been declared.
def Event.Follows (past : List Event) : Event → Prop
  | declared name value address before =>
    R.declares name value ∧ ∃ m es, (value.referent h fuel).run before = ⟨.ok address, m, es⟩
  | called name address method _ _ =>
    R.calls name method ∧ ∃ value before, .declared name value address before ∈ past

def Kept (past : List Event) : Prop :=
  ∀ before e after, past = before ++ e :: after → e.Follows R h fuel before

-- Every reference in scope has been declared.
def Noted (past : List Event) (m : Machine) : Prop :=
  ∀ name type address, (name, Binding.reference type address) ∈ m.locals →
    ∃ value before, .declared name value address before ∈ past

structure Sound (past : List Event) (m : Machine) : Prop where
  kept : Kept R h fuel past
  noted : Noted past m

def Faithful {α : Type} (x : Run α) : Prop :=
  ∀ past m, Sound R h fuel past m →
    Sound R h fuel (past ++ (x.run m).events) (x.run m).machine

end Runs

variable {R : Rules} {h : Host} {fuel : Nat} {α β : Type} {past : List Event} {m m' : Machine}

theorem kept_snoc {e : Event} :
    Kept R h fuel (past ++ [e]) ↔ Kept R h fuel past ∧ e.Follows R h fuel past := by
  constructor
  · intro hkept
    refine ⟨fun before e' after heq => ?_, hkept past e [] rfl⟩
    exact hkept before e' (after ++ [e]) (by simp [heq])
  · rintro ⟨hkept, he⟩ before e' after heq
    rcases List.eq_nil_or_concat after with rfl | ⟨after, last, rfl⟩
    · obtain ⟨rfl, hlast⟩ := List.append_inj' heq rfl
      obtain rfl := List.head_eq_of_cons_eq hlast
      exact he
    · have heq' : past ++ [e] = (before ++ e' :: after) ++ [last] := by simpa using heq
      exact hkept before e' after (List.append_inj' heq' rfl).1

theorem Kept.declares {name : String} {value : Expr} {address : Value} {before : Machine}
    (hkept : Kept R h fuel past) (hmem : .declared name value address before ∈ past) :
    R.declares name value := by
  obtain ⟨pre, post, heq⟩ := List.append_of_mem hmem
  exact (hkept pre _ post heq).1

theorem Sound.of_subset (hs : Sound R h fuel past m)
    (hsub : ∀ name type address, (name, Binding.reference type address) ∈ m'.locals →
      (name, Binding.reference type address) ∈ m.locals) : Sound R h fuel past m' where
  kept := hs.kept
  noted name type address hmem := hs.noted name type address (hsub name type address hmem)

-- Steps without events that leave the variables as they are.
theorem faithful_of_quiet {x : Run α}
    (hx : ∀ m, (x.run m).events = [] ∧ (x.run m).machine.locals = m.locals) : Faithful R h fuel x := by
  intro past m hs
  obtain ⟨hevents, hlocals⟩ := hx m
  rw [hevents, List.append_nil]
  exact hs.of_subset fun _ _ _ hmem => hlocals ▸ hmem

@[grind ←] theorem faithful_pure (a : α) : Faithful R h fuel (pure a) :=
  faithful_of_quiet fun _ => ⟨rfl, rfl⟩

@[grind ←] theorem faithful_exit (e : Exit) : Faithful R h fuel (Run.exit e : Run α) :=
  faithful_of_quiet fun _ => ⟨rfl, rfl⟩

@[grind .] theorem faithful_machine : Faithful R h fuel Run.machine :=
  faithful_of_quiet fun _ => ⟨rfl, rfl⟩

@[grind ←] theorem faithful_ofOption (e : Exit) (o : Option α) :
    Faithful R h fuel (Run.ofOption e o) := by
  cases o with
  | none => exact faithful_exit e
  | some a => exact faithful_pure a

@[grind ←] theorem faithful_effect (f : Store → Option (Value × Store)) :
    Faithful R h fuel (Run.effect f) := by
  refine faithful_of_quiet fun m => ?_
  simp only [Run.effect]
  split <;> exact ⟨rfl, rfl⟩

@[grind ←] theorem faithful_declare (name : String) (v : Value) :
    Faithful R h fuel (Run.declare name (.value v)) := by
  intro past m hs
  change Sound R h fuel (past ++ []) { m with locals := (name, .value v) :: m.locals }
  rw [List.append_nil]
  refine hs.of_subset fun n type address hmem => ?_
  rcases List.mem_cons.mp hmem with heq | hmem
  · cases heq
  · exact hmem

@[grind ←] theorem faithful_bind {x : Run α} {f : α → Run β} (hx : Faithful R h fuel x)
    (hf : ∀ a, Faithful R h fuel (f a)) : Faithful R h fuel (x >>= f) := by
  intro past m hs
  have hs' := hx past m hs
  rw [Run.run_bind]
  rcases hr : x.run m with ⟨r, m', es⟩
  rw [hr] at hs'
  cases r with
  | error e => exact hs'
  | ok a =>
      have hs'' := hf a _ _ hs'
      rw [List.append_assoc] at hs''
      exact hs''

@[grind ←] theorem faithful_handle {x : Run α} {f : Exit → Run α} (hx : Faithful R h fuel x)
    (hf : ∀ e, Faithful R h fuel (f e)) : Faithful R h fuel (x.handle f) := by
  intro past m hs
  have hs' := hx past m hs
  unfold Run.handle
  rcases hr : x.run m with ⟨r, m', es⟩
  rw [hr] at hs'
  cases r with
  | ok a => simpa [hr] using hs'
  | error e =>
      have hs'' := hf e _ _ hs'
      rw [List.append_assoc] at hs''
      simpa [hr, Outcome.behind] using hs''

@[grind ←] theorem faithful_inBlock {x : Run α} (hx : Faithful R h fuel x) :
    Faithful R h fuel x.inBlock := fun past m hs =>
  (hx past m hs).of_subset fun _ _ _ hmem => List.mem_of_mem_drop hmem

-- Names, functions and methods.

@[grind ←] theorem faithful_readName (name : String) : Faithful R h fuel (readName name) := by
  refine faithful_of_quiet fun m => ?_
  simp only [readName]
  repeat' split
  all_goals exact ⟨rfl, rfl⟩

@[grind ←] theorem faithful_storageField (name : String) :
    Faithful R h fuel (storageField h name) := by
  refine faithful_of_quiet fun m => ?_
  simp only [storageField]
  split <;> exact ⟨rfl, rfl⟩

@[grind ←] theorem faithful_memberOf (v : Value) (name : String) :
    Faithful R h fuel (memberOf v name) := by
  grind [memberOf]

@[grind ←] theorem faithful_elementOf (v key : Value) : Faithful R h fuel (elementOf v key) := by
  unfold elementOf
  grind

@[grind ←] theorem faithful_tryValue (v : Value) : Faithful R h fuel (tryValue v) := by
  unfold tryValue
  grind

@[grind ←] theorem faithful_truth (v : Value) : Faithful R h fuel (truth v) := by
  unfold truth
  grind

@[grind ←] theorem faithful_readCell (c : Cell) (default : List Value) :
    Faithful R h fuel (readCell c default) :=
  faithful_of_quiet fun _ => ⟨rfl, rfl⟩

@[grind ←] theorem faithful_writeCell (c : Cell) (v : Value) : Faithful R h fuel (writeCell c v) :=
  faithful_of_quiet fun _ => ⟨rfl, rfl⟩

@[grind ←] theorem faithful_callFunction (path : String) (args : List Value) :
    Faithful R h fuel (callFunction h path args) := by
  unfold callFunction
  grind

@[grind ←] theorem faithful_callBang (name : String) (args : List Value) :
    Faithful R h fuel (callBang h name args) := by
  unfold callBang
  grind

@[grind ←] theorem faithful_callMapping (f method : String) (args : List Value) :
    Faithful R h fuel (callMapping h f method args) := by
  unfold callMapping
  grind

@[grind ←] theorem faithful_persistentMethod (method : String) (v : Value) (args : List Value) :
    Faithful R h fuel (persistentMethod h method v args) := by
  unfold persistentMethod
  grind

@[grind ←] theorem faithful_unwrap (v : Value) : Faithful R h fuel (unwrap v) := by
  unfold unwrap
  grind

@[grind ←] theorem faithful_unwrapOr (other v : Value) : Faithful R h fuel (unwrapOr other v) := by
  unfold unwrapOr
  grind

@[grind ←] theorem faithful_unwrapOrDefault (v : Value) :
    Faithful R h fuel (unwrapOrDefault v) := by
  unfold unwrapOrDefault
  grind

@[grind ←] theorem faithful_getMethod (v : Value) (args : List Value) :
    Faithful R h fuel (getMethod v args) := by
  unfold getMethod
  grind

@[grind ←] theorem faithful_lengthMethod (v : Value) : Faithful R h fuel (lengthMethod h v) := by
  unfold lengthMethod
  grind

@[grind ←] theorem faithful_narrowMethod (method : String) (v : Value) :
    Faithful R h fuel (narrowMethod h method v) := by
  unfold narrowMethod
  grind

theorem faithful_ite {c : Prop} [Decidable c] {x y : Run Value} (hx : Faithful R h fuel x) (hy : Faithful R h fuel y) :
    Faithful R h fuel (if c then x else y) := by
  by_cases hc : c
  · rwa [if_pos hc]
  · rwa [if_neg hc]

@[grind ←] theorem faithful_callMethod (v : Value) (method : String) (args : List Value) :
    Faithful R h fuel (callMethod h v method args) := by
  unfold callMethod
  repeat' refine faithful_ite ?_ ?_
  all_goals grind

-- Variables.

@[grind ←] theorem faithful_element (p : Place) (key : Value) :
    Faithful R h fuel (p.element key) := by
  unfold Place.element
  grind

theorem mem_setBinding {name n type : String} {v address : Value} {bs : List (String × Binding)}
    (hmem : (n, Binding.reference type address) ∈ setBinding name (.value v) bs) :
    (n, Binding.reference type address) ∈ bs := by
  induction bs with
  | nil => exact hmem
  | cons b bs ih =>
      obtain ⟨n', old⟩ := b
      rw [setBinding] at hmem
      split at hmem
      · rcases List.mem_cons.mp hmem with heq | hmem
        · cases heq
        · exact List.mem_cons_of_mem _ hmem
      · rcases List.mem_cons.mp hmem with heq | hmem
        · exact heq ▸ List.mem_cons_self
        · exact List.mem_cons_of_mem _ (ih hmem)

@[grind ←] theorem faithful_modify (p : Place) (f : Value → Option Value) :
    Faithful R h fuel (p.modify f) := by
  intro past m hs
  rw [Place.modify]
  dsimp only
  split
  · rw [List.append_nil]
    exact hs
  · split
    · rw [List.append_nil]
      refine hs.of_subset fun name type address hmem => ?_
      cases hroot : p.root with
      | var n =>
          rw [hroot] at hmem
          exact mem_setBinding hmem
      | cell c zero =>
          rw [hroot] at hmem
          exact hmem
    · rw [List.append_nil]
      exact hs

theorem faithful_declareAll (names : List String) (vs : List Value) :
    Faithful R h fuel (declareAll names vs) := by
  induction names generalizing vs with
  | nil => exact faithful_pure ()
  | cons name names ih =>
      cases vs with
      | nil => exact faithful_pure ()
      | cons v vs => exact faithful_bind (faithful_declare name v) fun _ => ih vs

@[grind ←] theorem faithful_declarePattern (pattern : String) (v : Value) :
    Faithful R h fuel (declarePattern pattern v) := by
  unfold declarePattern
  grind [faithful_declareAll]

@[grind ←] theorem faithful_bindMatch (pattern : String) (v : Value) :
    Faithful R h fuel (bindMatch pattern v) := by
  unfold bindMatch
  grind [faithful_declareAll]

-- A reference is declared by the rules, as what it refers to.
theorem Sound.declareReference {es : List Event} {before now : Machine} {name : String}
    {value : Expr} {address : Value} (hs : Sound R h fuel (past ++ es) now)
    (hdeclares : R.declares name value)
    (hrun : (value.referent h fuel).run before = ⟨.ok address, m', es⟩) (type : String) :
    Sound R h fuel
      (past ++ es ++ ((Rust.declareReference name type value before address).run now).events)
      ((Rust.declareReference name type value before address).run now).machine := by
  have hrun' : (Rust.declareReference name type value before address).run now =
      ⟨.ok (), { now with locals := (name, .reference type address) :: now.locals },
        [.declared name value address before]⟩ := rfl
  rw [hrun']
  refine ⟨kept_snoc.mpr ⟨hs.kept, hdeclares, m', es, hrun⟩, fun n type' address' hmem => ?_⟩
  rcases List.mem_cons.mp hmem with heq | hmem
  · cases heq
    exact ⟨value, before, List.mem_append_right _ List.mem_cons_self⟩
  · obtain ⟨value', before', hmem⟩ := hs.noted n type' address' hmem
    exact ⟨value', before', List.mem_append_left _ hmem⟩

theorem Sound.callContract {now : Machine} {name method : String} {address : Value}
    (hs : Sound R h fuel past now) (hcalls : R.calls name method)
    (hdeclared : ∃ value before, .declared name value address before ∈ past) (type : String)
    (args : List Value) :
    Sound R h fuel (past ++ ((Rust.callContract h name type address method args).run now).events)
      ((Rust.callContract h name type address method args).run now).machine := by
  have hrun : (Rust.callContract h name type address method args).run now =
      ((Run.effect (h.contract type address method args)).run now).behind
        [.called name address method args now] := rfl
  have hcalled : Sound R h fuel (past ++ [Event.called name address method args now]) now := by
    refine ⟨kept_snoc.mpr ⟨hs.kept, hcalls, hdeclared⟩, fun n type' address' hmem => ?_⟩
    obtain ⟨value, before, hmem⟩ := hs.noted n type' address' hmem
    exact ⟨value, before, List.mem_append_left _ hmem⟩
  have heffect := faithful_effect (h.contract type address method args) _ _ hcalled
  rw [List.append_assoc] at heffect
  rw [hrun]
  exact heffect

theorem Expr.eq_ident_of_reference {x : Expr} {type : String} {address : Value}
    (hx : x.reference? m = some (type, address)) :
    x = .ident x.name ∧ isPath x.name = false ∧
      (x.name, Binding.reference type address) ∈ m.locals := by
  cases x with
  | ident name =>
      rw [reference?] at hx
      split at hx
      · cases hx
      · rename_i hpath
        split at hx
        · rename_i hlook
          cases hx
          obtain ⟨pre, post, heq, -⟩ := List.lookup_eq_some_iff.mp hlook
          exact ⟨rfl, by simpa [Expr.name] using hpath, by simp [heq, Expr.name]⟩
        · cases hx
  | _ => cases hx

-- Calls of methods: those on a reference are called by the rules, on a variable that has been declared.
-- A method of a value, which is no reference to a contract.
theorem faithful_methodOf {receiver : Expr} (method : String) {args : List Expr}
    (heval : Faithful R h fuel (receiver.eval h fuel)) (hplace : Faithful R h fuel (receiver.place h fuel))
    (hargs : Faithful R h fuel (evalAll h fuel args)) :
    Faithful R h fuel (if receiver.isSelf then do
        if method = "clone" then Run.exit .stuck
        let vs ← evalAll h fuel args
        Run.effect (h.method method .unit vs)
      else if isMutator method && receiver.isPlace then do
        let p ← receiver.place h fuel
        let vs ← evalAll h fuel args
        p.modify (mutation method vs)
        pure .unit
      else
        match receiver.mapping? h with
        | some f => do
          let vs ← evalAll h fuel args
          callMapping h f method vs
        | none => do
          let v ← receiver.eval h fuel
          let vs ← evalAll h fuel args
          callMethod h v method vs) := by
  grind

theorem faithful_methodCall {receiver : Expr} {method : String} {args : List Expr}
    (hclean : receiver.Clean R ∨ ∃ name, receiver = .ident name ∧ R.calls name method)
    (heval : Faithful R h fuel (receiver.eval h fuel))
    (hplace : Faithful R h fuel (receiver.place h fuel))
    (hargs : Faithful R h fuel (evalAll h fuel args)) :
    Faithful R h fuel ((Expr.methodCall receiver method args).eval h fuel) := by
  intro past m hs
  rw [Expr.eval, Run.run_bind_of_ok (Run.run_machine m)]
  cases href : receiver.reference? m with
  | none =>
      exact faithful_methodOf method heval hplace hargs past m hs
  | some r =>
      obtain ⟨type, address⟩ := r
      obtain ⟨hident, hpath, hmem⟩ := Expr.eq_ident_of_reference href
      obtain ⟨value, before, hdeclared⟩ := hs.noted _ _ _ hmem
      have hreserved := R.reserved_of_declares (hs.kept.declares hdeclared)
      have hcalls : R.calls receiver.name method := by
        rcases hclean with hclean | ⟨name, rfl, hcalls⟩
        · rw [hident, Expr.Clean, hpath] at hclean
          simp [hreserved] at hclean
        · exact hcalls
      have hs' := hargs past m hs
      dsimp only
      rw [Run.run_bind]
      rcases hr : (evalAll h fuel args).run m with ⟨r, m', es⟩
      rw [hr] at hs'
      cases r with
      | error e => exact hs'
      | ok vs =>
          have hs'' := hs'.callContract hcalls ⟨value, before, List.mem_append_left _ hdeclared⟩ type vs
          rw [List.append_assoc] at hs''
          exact hs''

theorem faithful_repeatTurns {label : String} {turn : Run Bool} (hturn : Faithful R h fuel turn)
    (n : Nat) : Faithful R h fuel (repeatTurns label turn n) := by
  induction n with
  | zero => exact faithful_exit _
  | succ n ih =>
      rw [repeatTurns]
      grind

theorem faithful_labeledBlock {label : String} {body : Run Value} (hbody : Faithful R h fuel body) :
    Faithful R h fuel (labeledBlock label body) := by
  unfold labeledBlock
  grind

-- A declaration of plain variables.
theorem faithful_letVar {isMut : Bool} {pattern type : String} {value : Expr}
    (hplain : isReference type value = false) (heval : Faithful R h fuel (value.eval h fuel)) :
    Faithful R h fuel ((Stmt.letVar isMut pattern type (some value)).run h fuel) := by
  rw [Stmt.run, hplain]
  grind

-- A declaration by the rules.
theorem faithful_letReference {isMut : Bool} {pattern type : String} {value : Expr}
    (hdeclares : R.declares pattern value) (heval : Faithful R h fuel (value.eval h fuel))
    (hreferent : Faithful R h fuel (value.referent h fuel)) :
    Faithful R h fuel ((Stmt.letVar isMut pattern type (some value)).run h fuel) := by
  cases href : isReference type value with
  | false => exact faithful_letVar href heval
  | true =>
      intro past m hs
      rw [Stmt.run, if_pos href, Run.run_bind_of_ok (Run.run_machine m), Run.run_bind]
      have hs' := hreferent past m hs
      rcases hr : (value.referent h fuel).run m with ⟨r, m', es⟩
      rw [hr] at hs'
      cases r with
      | error e => exact hs'
      | ok address =>
          have hs'' := hs'.declareReference hdeclares hr type
          rw [List.append_assoc] at hs''
          exact hs''

mutual

-- Every run of clean code keeps the rules, by induction along the code.
theorem Expr.faithful_eval (R : Rules) (h : Host) (fuel : Nat) :
    ∀ x : Expr, x.Clean R → Faithful R h fuel (x.eval h fuel)
  | .ident name, _ => faithful_readName name
  | .lit text, _ => faithful_ofOption _ _
  | .missing, _ => faithful_exit _
  | .field target name, hx => by
      have htarget := Expr.faithful_eval R h fuel target hx
      rw [Expr.eval]
      grind
  | .methodCall receiver method args, hx => by
      have hargs := faithful_evalAll R h fuel args hx.2.2
      have hreceiver : Faithful R h fuel (receiver.eval h fuel) ∧
          Faithful R h fuel (receiver.place h fuel) := by
        rcases hx.2.1 with hclean | ⟨name, hname, -⟩
        · exact ⟨Expr.faithful_eval R h fuel receiver hclean, Expr.faithful_place R h fuel receiver hclean⟩
        · rw [hname]
          exact ⟨faithful_readName name, faithful_pure _⟩
      exact faithful_methodCall hx.2.1 hreceiver.1 hreceiver.2 hargs
  | .call function args, hx => by
      have hargs := faithful_evalAll R h fuel args hx.2
      rw [Expr.eval]
      grind
  | .bangCall name args, hx => by
      have hargs := faithful_evalAll R h fuel args hx
      rw [Expr.eval]
      grind
  | .binary op left right, hx => by
      have hleft := Expr.faithful_eval R h fuel left hx.1
      have hright := Expr.faithful_eval R h fuel right hx.2
      rw [Expr.eval]
      grind
  | .unary op operand, hx => by
      have hoperand := Expr.faithful_eval R h fuel operand hx
      rw [Expr.eval]
      grind
  | .index target key, hx => by
      have htarget := Expr.faithful_eval R h fuel target hx.1
      have hkey := Expr.faithful_eval R h fuel key hx.2
      rw [Expr.eval]
      grind
  | .tuple elements, hx => by
      have helements := faithful_evalAll R h fuel elements hx
      rw [Expr.eval]
      grind
  | .array elements, hx => by
      have helements := faithful_evalAll R h fuel elements hx
      rw [Expr.eval]
      grind
  | .structLit name fields base, hx => by
      have hfields := faithful_evalFields R h fuel fields hx.1
      have hbase := faithful_evalOption R h fuel base hx.2
      rw [Expr.eval]
      grind
  | .cast value type, hx => by
      have hvalue := Expr.faithful_eval R h fuel value hx
      rw [Expr.eval]
      grind
  | .tryOp value, hx => by
      have hvalue := Expr.faithful_eval R h fuel value hx
      rw [Expr.eval]
      grind
  | .ifElse pattern cond whenTrue whenFalse, hx => by
      have hcond := Expr.faithful_eval R h fuel cond hx.1
      have htrue := Block.faithful_eval R h fuel whenTrue hx.2.1
      have hfalse := faithful_evalOption R h fuel whenFalse hx.2.2
      rw [Expr.eval]
      grind
  | .block body, hx => by
      rw [Expr.eval]
      exact Block.faithful_eval R h fuel body hx

theorem Expr.faithful_place (R : Rules) (h : Host) (fuel : Nat) :
    ∀ x : Expr, x.Clean R → Faithful R h fuel (x.place h fuel)
  | .ident name, _ => faithful_pure _
  | .field target name, hx => by
      have htarget := Expr.faithful_place R h fuel target hx
      rw [Expr.place]
      grind
  | .index target key, hx => by
      have htarget := Expr.faithful_place R h fuel target hx.1
      have hkey := Expr.faithful_eval R h fuel key hx.2
      rw [Expr.place]
      grind
  | .lit _, _ | .missing, _ | .methodCall _ _ _, _ | .call _ _, _ | .bangCall _ _, _ => faithful_exit _
  | .binary _ _ _, _ | .unary _ _, _ | .tuple _, _ | .array _, _ => faithful_exit _
  | .structLit _ _ _, _ | .cast _ _, _ | .tryOp _, _ | .ifElse _ _ _ _, _ => faithful_exit _
  | .block _, _ => faithful_exit _

-- What makes a reference.
theorem Expr.faithful_makes (R : Rules) (h : Host) (fuel : Nat) :
    ∀ x : Expr, x.Makes R →
      Faithful R h fuel (x.eval h fuel) ∧ Faithful R h fuel (x.referent h fuel)
  | .methodCall account method args, hx => by
      have hargs := faithful_evalAll R h fuel args hx.2
      have haccount := Expr.faithful_eval R h fuel account hx.1
      have hplace := Expr.faithful_place R h fuel account hx.1
      exact ⟨faithful_methodCall (.inl hx.1) haccount hplace hargs, haccount⟩
  | .call function [], hx => by
      have hargs := faithful_evalAll R h fuel [] hx
      rw [Expr.eval]
      exact ⟨by grind, faithful_exit _⟩
  | .call function [env], hx => by
      have hargs := faithful_evalAll R h fuel [env] hx
      rw [Expr.eval]
      exact ⟨by grind, faithful_exit _⟩
  | .call function [env, account], hx => by
      have hargs := faithful_evalAll R h fuel [env, account] hx
      have haccount := Expr.faithful_eval R h fuel account hx.2.1
      rw [Expr.eval]
      exact ⟨by grind, haccount⟩
  | .call function (a :: b :: c :: rest), hx => by
      have hargs := faithful_evalAll R h fuel (a :: b :: c :: rest) hx
      rw [Expr.eval]
      exact ⟨by grind, faithful_exit _⟩

theorem faithful_evalAll (R : Rules) (h : Host) (fuel : Nat) :
    ∀ xs : List Expr, AllClean R xs → Faithful R h fuel (evalAll h fuel xs)
  | [], _ => faithful_pure _
  | x :: rest, hx => by
      have hfirst := Expr.faithful_eval R h fuel x hx.1
      have hrest := faithful_evalAll R h fuel rest hx.2
      rw [evalAll]
      grind

theorem faithful_evalFields (R : Rules) (h : Host) (fuel : Nat) :
    ∀ fields : List FieldInit, FieldsClean R fields → Faithful R h fuel (evalFields h fuel fields)
  | [], _ => faithful_pure _
  | ⟨name, value⟩ :: rest, hx => by
      have hfirst := Expr.faithful_eval R h fuel value hx.1
      have hrest := faithful_evalFields R h fuel rest hx.2
      rw [evalFields]
      grind

theorem faithful_evalOption (R : Rules) (h : Host) (fuel : Nat) :
    ∀ o : Option Expr, OptionClean R o → Faithful R h fuel (evalOption h fuel o)
  | none, _ => faithful_pure _
  | some x, hx => by
      have hvalue := Expr.faithful_eval R h fuel x hx
      rw [evalOption]
      grind

theorem Block.faithful_eval (R : Rules) (h : Host) (fuel : Nat) :
    ∀ b : Block, b.Clean R → Faithful R h fuel (b.eval h fuel)
  | ⟨stmts, tail⟩, hb => by
      have hstmts := faithful_runAll R h fuel stmts hb.1
      have htail := faithful_evalOption R h fuel tail hb.2
      rw [Block.eval]
      grind

theorem Stmt.faithful_run (R : Rules) (h : Host) (fuel : Nat) :
    ∀ s : Stmt, s.Clean R → Faithful R h fuel (s.run h fuel)
  | .letVar isMut pattern type (some value), hs => by
      rcases hs with ⟨hclean, hplain⟩ | ⟨hmakes, hdeclares, -⟩
      · exact faithful_letVar hplain (Expr.faithful_eval R h fuel value hclean)
      · obtain ⟨heval, hreferent⟩ := Expr.faithful_makes R h fuel value hmakes
        exact faithful_letReference hdeclares heval hreferent
  | .letVar _ _ _ none, _ => faithful_exit _
  | .expr value, hs => by
      have hvalue := Expr.faithful_eval R h fuel value hs
      rw [Stmt.run]
      grind
  | .assign target op value, hs => by
      have htarget := Expr.faithful_place R h fuel target hs.1
      have hvalue := Expr.faithful_eval R h fuel value hs.2
      rw [Stmt.run]
      grind
  | .whileLoop label cond body, hs => by
      have hcond := Expr.faithful_eval R h fuel cond hs.1
      have hbody := Block.faithful_eval R h fuel body hs.2
      rw [Stmt.run]
      exact faithful_repeatTurns (by grind) fuel
  | .loop label body, hs => by
      have hbody := Block.faithful_eval R h fuel body hs
      rw [Stmt.run]
      exact faithful_repeatTurns (by grind) fuel
  | .labeled label body, hs => by
      rw [Stmt.run]
      exact faithful_labeledBlock (Block.faithful_eval R h fuel body hs)
  | .breakLoop label, _ => faithful_exit _
  | .continueLoop label, _ => faithful_exit _
  | .returnValue value, hs => by
      have hvalue := faithful_evalOption R h fuel value hs
      rw [Stmt.run]
      grind

theorem faithful_runAll (R : Rules) (h : Host) (fuel : Nat) :
    ∀ code : List Stmt, CodeClean R code → Faithful R h fuel (runAll h fuel code)
  | [], _ => faithful_pure _
  | s :: rest, hs => by
      have hfirst := Stmt.faithful_run R h fuel s hs.1
      have hrest := faithful_runAll R h fuel rest hs.2
      rw [runAll]
      grind

end

-- A run from a state without references keeps the rules throughout.
theorem kept_of_clean {code : Block} (hclean : code.Clean R)
    (hm : ∀ name type address, (name, Binding.reference type address) ∉ m.locals) :
    Kept R h fuel ((code.eval h fuel).run m).events := by
  have hstart : Sound R h fuel [] m :=
    ⟨fun before e after heq => by simp at heq, fun name type address hmem => absurd hmem (hm _ _ _)⟩
  exact (Block.faithful_eval R h fuel code hclean [] m hstart).kept

end RustContracts.Rust
