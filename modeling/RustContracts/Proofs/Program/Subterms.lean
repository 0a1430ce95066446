import RustContracts.Program.Stmt

-- Expressions and statements inside others: what holds of every one of them, and where jumps and placeholders stand.
namespace RustContracts.Program

-- Expressions.

section Expressions

attribute [local simp] Expr.subexprs Expr.subexprsList Expr.children Stmt.substmts

variable {P Q : Expr → Prop} {e : Expr} {es : List Expr}

theorem mem_subexprsList : e ∈ Expr.subexprsList es ↔ ∃ x ∈ es, e ∈ x.subexprs := by
  induction es with
  | nil => simp
  | cons x xs ih => simp [ih]

theorem mem_subexprs {x : Expr} : x ∈ e.subexprs ↔ x = e ∨ ∃ c ∈ e.children, x ∈ c.subexprs := by
  cases e
  all_goals simp [mem_subexprsList]

theorem subexprs_eq (e : Expr) : e.subexprs = e :: e.children.flatMap Expr.subexprs := by
  have hlist (es : List Expr) : Expr.subexprsList es = es.flatMap Expr.subexprs := by
    induction es with
    | nil => rfl
    | cons x xs ih => rw [Expr.subexprsList, ih, List.flatMap_cons]
  cases e
  all_goals simp [hlist]

-- By induction on the number of expressions inside.
theorem subexprs_subset {x : Expr} (hx : x ∈ e.subexprs) : x.subexprs ⊆ e.subexprs := by
  induction h : e.subexprs.length using Nat.strongRecOn generalizing e with
  | ind n ih =>
      obtain rfl | ⟨c, hc, hx⟩ := mem_subexprs.mp hx
      · exact List.Subset.refl _
      · have hsubset : c.subexprs ⊆ e.subexprs := fun y hy => mem_subexprs.mpr (.inr ⟨c, hc, hy⟩)
        refine List.Subset.trans (ih _ ?_ hx rfl) hsubset
        obtain ⟨before, after, heq⟩ := List.append_of_mem hc
        rw [← h, subexprs_eq e, heq]
        simp only [List.length_cons, List.flatMap_append, List.flatMap_cons, List.length_append]
        omega

-- An expression of which everything inside satisfies a property, itself among it.
def Expr.Each (P : Expr → Prop) (e : Expr) : Prop := ∀ x ∈ e.subexprs, P x

theorem Expr.each_iff : e.Each P ↔ P e ∧ ∀ c ∈ e.children, c.Each P := by
  constructor
  · intro h
    exact ⟨h e (mem_subexprs.mpr (.inl rfl)), fun c hc x hx => h x (mem_subexprs.mpr (.inr ⟨c, hc, hx⟩))⟩
  · rintro ⟨he, hchildren⟩ x hx
    obtain rfl | ⟨c, hc, hx⟩ := mem_subexprs.mp hx
    · exact he
    · exact hchildren c hc x hx

theorem Expr.Each.imp (h : e.Each P) (hPQ : ∀ x, P x → Q x) : e.Each Q := fun x hx => hPQ x (h x hx)

-- The expressions that a statement and the statements inside it evaluate.

def Stmt.exprs (s : Stmt) : List Expr := s.substmts.flatMap Stmt.directExprs

def Block.exprs (b : Block) : List Expr := b.substmts.flatMap Stmt.directExprs

theorem Block.exprs_eq (b : Block) : b.exprs = b.stmts.flatMap Stmt.exprs := by
  obtain ⟨start, stmts, unchecked⟩ := b
  rw [exprs, substmts, List.flatMap_cons]
  change (substmtsList stmts).flatMap Stmt.directExprs = stmts.flatMap Stmt.exprs
  induction stmts with
  | nil => rfl
  | cons s rest ih => rw [substmtsList, List.flatMap_append, ih, List.flatMap_cons, Stmt.exprs]

@[simp] theorem Stmt.exprs_block (b : Block) : (Stmt.block b).exprs = b.exprs := by
  rw [exprs, substmts, Block.exprs]

@[simp] theorem Stmt.exprs_ifElse (p : Text.Position) (c : Expr) (t : Block) (e : Option Block) :
    (Stmt.ifElse p c t e).exprs = c :: (t.exprs ++ e.toList.flatMap Block.exprs) := by
  cases e <;> simp [exprs, directExprs, Block.exprs]

@[simp] theorem Stmt.exprs_whileLoop (p : Text.Position) (c : Expr) (b : Block) (testLast : Bool) :
    (Stmt.whileLoop p c b testLast).exprs = c :: b.exprs := by
  simp [exprs, directExprs, Block.exprs]

@[simp] theorem Stmt.exprs_forLoop (p : Text.Position) (i : Option Stmt) (c : Option Expr)
    (s : Option Stmt) (b : Block) :
    (Stmt.forLoop p i c s b).exprs =
      c.toList ++ (i.toList.flatMap Stmt.exprs ++ s.toList.flatMap Stmt.exprs ++ b.exprs) := by
  cases i <;> cases s <;> simp [exprs, directExprs, Block.exprs]

-- A statement without others inside it.
theorem Stmt.exprs_eq_directExprs {s : Stmt} (h : s.substmts = [s]) : s.exprs = s.directExprs := by
  rw [exprs, h, List.flatMap_singleton]

end Expressions

-- Statements.

section Statements

attribute [local simp] Stmt.substmts

theorem self_mem_substmts (st : Stmt) : st ∈ st.substmts := by
  cases st with
  | block b =>
      cases b
      rw [Stmt.substmts, Block.substmts]
      exact List.mem_cons_self
  | ifElse p c t e => cases e <;> simp
  | forLoop p i c post b => cases i <;> cases post <;> simp
  | _ => simp

-- The parts of a loop.

theorem mem_substmts_forLoop {start : Text.Position} {init post : Option Stmt} {cond : Option Expr} {body : Block}
    {x : Stmt} : x ∈ (Stmt.forLoop start init cond post body).substmts ↔
      x = .forLoop start init cond post body ∨ (∃ st ∈ init, x ∈ st.substmts) ∨ (∃ st ∈ post, x ∈ st.substmts) ∨
        x ∈ body.substmts := by
  cases init <;> cases post <;> simp

theorem forall_substmts_forLoop {P : Stmt → Prop} {start : Text.Position} {init post : Option Stmt}
    {cond : Option Expr} {body : Block}
    (h : ∀ st ∈ (Stmt.forLoop start init cond post body).substmts, P st) :
    (∀ st ∈ init, ∀ x ∈ st.substmts, P x) ∧ (∀ st ∈ post, ∀ x ∈ st.substmts, P x) ∧
      ∀ x ∈ body.substmts, P x := by
  have hpart {x : Stmt} (hx : _) : P x := h x (mem_substmts_forLoop.mpr (.inr hx))
  exact ⟨fun st hst x hx => hpart (.inl ⟨st, hst, hx⟩), fun st hst x hx => hpart (.inr (.inl ⟨st, hst, hx⟩)),
    fun x hx => hpart (.inr (.inr hx))⟩

theorem mem_substmtsList {st : Stmt} {sts : List Stmt} (h : st ∈ sts) : ∀ x ∈ st.substmts, x ∈ substmtsList sts := by
  induction sts with
  | nil => cases h
  | cons first rest ih =>
      intro x hx
      rw [substmtsList]
      rcases List.mem_cons.mp h with rfl | h
      · exact List.mem_append_left _ hx
      · exact List.mem_append_right _ (ih h x hx)

theorem mem_substmts_of_mem {st : Stmt} {b : Block} (h : st ∈ b.stmts) : st ∈ b.substmts := by
  cases b
  exact List.mem_cons_of_mem _ (mem_substmtsList h st (self_mem_substmts st))

end Statements

-- Jumps and placeholders that stand where they may: a jump inside a loop, a placeholder in the code of a modifier.

section Placed

-- A statement with no other inside it, behind which control goes on unless it aborts.
def Stmt.isSimple : Stmt → Bool
  | .decl _ _ _ | .assign _ _ _ | .expr _ _ | .require _ _ _ | .emit _ _ _ => true
  | _ => false

mutual

-- Whether all jumps and placeholders of a statement are in place, where placeholders are allowed and jumps are. The
-- head of a loop has none.
def Stmt.placed (inModifier inLoop : Bool) : Stmt → Bool
  | .block b => b.placed inModifier inLoop
  | .ifElse _ _ t none => t.placed inModifier inLoop
  | .ifElse _ _ t (some e) => t.placed inModifier inLoop && e.placed inModifier inLoop
  | .whileLoop _ _ b _ => b.placed inModifier true
  | .forLoop _ i _ p b => i.all Stmt.isSimple && p.all Stmt.isSimple && b.placed inModifier true
  | .breakLoop _ | .continueLoop _ => inLoop
  | .placeholder _ => inModifier
  | _ => true

def Block.placed (inModifier inLoop : Bool) : Block → Bool
  | ⟨_, stmts, _⟩ => placedAll inModifier inLoop stmts

def placedAll (inModifier inLoop : Bool) : List Stmt → Bool
  | [] => true
  | st :: rest => st.placed inModifier inLoop && placedAll inModifier inLoop rest

end

variable {inModifier inModifier' inLoop inLoop' : Bool}

theorem placed_block (b : Block) : b.placed inModifier inLoop = placedAll inModifier inLoop b.stmts := by
  cases b
  rw [Block.placed]

theorem placedAll_iff {sts : List Stmt} :
    placedAll inModifier inLoop sts = true ↔ ∀ st ∈ sts, st.placed inModifier inLoop = true := by
  induction sts with
  | nil => simp [placedAll]
  | cons st rest ih => rw [placedAll, Bool.and_eq_true, ih, List.forall_mem_cons]

theorem placed_of_isSimple {st : Stmt} (h : st.isSimple = true) : st.placed inModifier inLoop = true := by
  cases st <;> simp_all [Stmt.isSimple, Stmt.placed]

theorem substmts_of_isSimple {st : Stmt} (h : st.isSimple = true) : st.substmts = [st] := by
  cases st <;> simp_all [Stmt.isSimple, Stmt.substmts]

mutual

-- What is in place stays so where more is allowed.
theorem Stmt.placed_mono (hmodifier : inModifier = true → inModifier' = true) {inLoop inLoop' : Bool}
    (hloop : inLoop = true → inLoop' = true) : ∀ st : Stmt, st.placed inModifier inLoop = true → st.placed inModifier' inLoop' = true
  | .block b, h => by
      rw [Stmt.placed] at h ⊢
      exact b.placed_mono hmodifier hloop h
  | .ifElse _ _ t none, h => by
      rw [Stmt.placed] at h ⊢
      exact t.placed_mono hmodifier hloop h
  | .ifElse _ _ t (some e), h => by
      rw [Stmt.placed, Bool.and_eq_true] at h ⊢
      exact ⟨t.placed_mono hmodifier hloop h.1, e.placed_mono hmodifier hloop h.2⟩
  | .whileLoop _ _ b _, h => by
      rw [Stmt.placed] at h ⊢
      exact b.placed_mono hmodifier id h
  | .forLoop _ _ _ _ b, h => by
      rw [Stmt.placed, Bool.and_eq_true] at h ⊢
      exact ⟨h.1, b.placed_mono hmodifier id h.2⟩
  | .breakLoop _, h => by
      rw [Stmt.placed] at h ⊢
      exact hloop h
  | .continueLoop _, h => by
      rw [Stmt.placed] at h ⊢
      exact hloop h
  | .placeholder _, h => by
      rw [Stmt.placed] at h ⊢
      exact hmodifier h
  | .decl _ _ _, _ | .assign _ _ _, _ | .expr _ _, _ | .returnValue _ _, _ | .require _ _ _, _ | .revert _ _ _, _
  | .emit _ _ _, _ => by simp [Stmt.placed]

theorem Block.placed_mono (hmodifier : inModifier = true → inModifier' = true) {inLoop inLoop' : Bool}
    (hloop : inLoop = true → inLoop' = true) : ∀ b : Block, b.placed inModifier inLoop = true → b.placed inModifier' inLoop' = true
  | ⟨_, stmts, _⟩, h => by
      rw [Block.placed] at h ⊢
      exact placedAll_mono hmodifier hloop stmts h

theorem placedAll_mono (hmodifier : inModifier = true → inModifier' = true) {inLoop inLoop' : Bool}
    (hloop : inLoop = true → inLoop' = true) : ∀ sts : List Stmt,
      placedAll inModifier inLoop sts = true → placedAll inModifier' inLoop' sts = true
  | [], _ => by rw [placedAll]
  | st :: rest, h => by
      rw [placedAll, Bool.and_eq_true] at h ⊢
      exact ⟨st.placed_mono hmodifier hloop h.1, placedAll_mono hmodifier hloop rest h.2⟩

end

def Stmt.isPlaceholder : Stmt → Bool
  | .placeholder _ => true
  | _ => false

theorem not_placeholder_of_isSimple {st : Stmt} (h : st.isSimple = true) : ∀ x ∈ st.substmts, x.isPlaceholder = false := by
  rw [substmts_of_isSimple h, List.forall_mem_singleton]
  cases st <;> simp_all [Stmt.isSimple, Stmt.isPlaceholder]

mutual

-- Where no placeholder is allowed there is none at any depth.
theorem Stmt.no_placeholder {inLoop : Bool} : ∀ st : Stmt, st.placed false inLoop = true → ∀ x ∈ st.substmts, x.isPlaceholder = false
  | .block b, h => by
      rw [Stmt.placed] at h
      rw [Stmt.substmts]
      exact b.no_placeholder h
  | .ifElse _ _ t none, h => by
      rw [Stmt.placed] at h
      rw [Stmt.substmts]
      exact List.forall_mem_cons.mpr ⟨rfl, t.no_placeholder h⟩
  | .ifElse _ _ t (some e), h => by
      rw [Stmt.placed, Bool.and_eq_true] at h
      rw [Stmt.substmts]
      exact List.forall_mem_cons.mpr ⟨rfl, List.forall_mem_append.mpr ⟨t.no_placeholder h.1, e.no_placeholder h.2⟩⟩
  | .whileLoop _ _ b _, h => by
      rw [Stmt.placed] at h
      rw [Stmt.substmts]
      exact List.forall_mem_cons.mpr ⟨rfl, b.no_placeholder h⟩
  | .forLoop _ i _ q b, h => by
      rw [Stmt.placed, Bool.and_eq_true, Bool.and_eq_true, Option.all_eq_true, Option.all_eq_true] at h
      intro x hx
      obtain rfl | ⟨st, hst, hx⟩ | ⟨st, hst, hx⟩ | hx := mem_substmts_forLoop.mp hx
      · rfl
      · exact not_placeholder_of_isSimple (h.1.1 st hst) x hx
      · exact not_placeholder_of_isSimple (h.1.2 st hst) x hx
      · exact b.no_placeholder h.2 x hx
  | .placeholder _, h => by
      rw [Stmt.placed] at h
      cases h
  | .breakLoop _, _ | .continueLoop _, _ | .decl _ _ _, _ | .assign _ _ _, _ | .expr _ _, _ | .returnValue _ _, _
  | .require _ _ _, _ | .revert _ _ _, _ | .emit _ _ _, _ => by
      rw [Stmt.substmts]
      · exact List.forall_mem_singleton.mpr rfl
      all_goals nofun

theorem Block.no_placeholder {inLoop : Bool} : ∀ b : Block, b.placed false inLoop = true → ∀ x ∈ b.substmts, x.isPlaceholder = false
  | ⟨_, stmts, _⟩, h => by
      rw [Block.placed] at h
      rw [Block.substmts]
      exact List.forall_mem_cons.mpr ⟨rfl, no_placeholders stmts h⟩

theorem no_placeholders {inLoop : Bool} : ∀ sts : List Stmt, placedAll false inLoop sts = true →
    ∀ x ∈ substmtsList sts, x.isPlaceholder = false
  | [], _ => by
      rw [substmtsList]
      nofun
  | st :: rest, h => by
      rw [placedAll, Bool.and_eq_true] at h
      rw [substmtsList]
      exact List.forall_mem_append.mpr ⟨st.no_placeholder h.1, no_placeholders rest h.2⟩

end

end Placed

end RustContracts.Program
