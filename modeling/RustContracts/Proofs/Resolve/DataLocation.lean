import RustContracts.Proofs.Resolve.Steps

-- The data locations of variables: code is resolved to the same whatever they are.
namespace RustContracts

namespace Solidity

mutual

-- Code without the data locations of its variables.
def Block.unlocated : Block → Block
  | ⟨start, stop, statements⟩ => ⟨start, stop, unlocatedAll statements⟩

def unlocatedAll : List Statement → List Statement
  | [] => []
  | s :: rest => s.unlocated :: unlocatedAll rest

def Statement.unlocated : Statement → Statement
  | .block p b => .block p b.unlocated
  | .unchecked p b => .unchecked p b.unlocated
  | .ifElse p cond whenTrue none => .ifElse p cond whenTrue.unlocated none
  | .ifElse p cond whenTrue (some whenFalse) => .ifElse p cond whenTrue.unlocated (some whenFalse.unlocated)
  | .forLoop p (some (.varDecl q d)) cond post body =>
    .forLoop p (some (.varDecl q { d with location := "" })) cond post body.unlocated
  | .forLoop p init cond post body => .forLoop p init cond post body.unlocated
  | .whileLoop p cond body => .whileLoop p cond body.unlocated
  | .doWhile p body cond => .doWhile p body.unlocated cond
  | .varDecl p d => .varDecl p { d with location := "" }
  | .tupleDecl p vars value => .tupleDecl p (vars.map fun v => { v with location := "" }) value
  | s => s

end

end Solidity

namespace Resolve

open Solidity (Statement Block TupleVariable)

theorem tupleVars_unlocated (vars : List TupleVariable) :
    tupleVars (vars.map fun v => { v with location := "" }) = tupleVars vars := by
  induction vars with
  | nil => rfl
  | cons v vars ih => simp only [List.map_cons, tupleVars, ih]

theorem varDecl_unlocated (d : Solidity.VariableDeclaration) : varDecl { d with location := "" } = varDecl d := rfl

-- A branch is a block or a statement that stands alone.
theorem nested_unlocated {s : Statement} (hs : stmt s.unlocated = stmt s) (hblock : ∀ p b, s ≠ .block p b) :
    nested s.unlocated = nested s := by
  have hstart : s.unlocated.start = s.start := by
    unfold Statement.unlocated
    split <;> rfl
  have hblock' (p : Text.Position) (b : Block) : s.unlocated ≠ .block p b := by
    unfold Statement.unlocated
    split
    · exact absurd rfl (hblock _ _)
    all_goals first | exact hblock p b | (intro h; cases h)
  rw [nested, nested, hs, hstart]
  · exact hblock
  · exact hblock'

theorem of_stmt {s : Statement} (hs : stmt s.unlocated = stmt s) (hblock : ∀ p b, s ≠ .block p b) :
    stmt s.unlocated = stmt s ∧ nested s.unlocated = nested s := ⟨hs, nested_unlocated hs hblock⟩

mutual

theorem block_unlocated : ∀ b : Block, block b.unlocated = block b
  | ⟨start, stop, statements⟩ => by
      simp only [Block.unlocated, block, stmts_unlocated statements]

theorem stmts_unlocated : ∀ l : List Statement, stmts (Solidity.unlocatedAll l) = stmts l
  | [] => rfl
  | s :: rest => by
      simp only [Solidity.unlocatedAll, stmts, (stmt_unlocated s).1, stmts_unlocated rest]

theorem stmt_unlocated : ∀ s : Statement, stmt s.unlocated = stmt s ∧ nested s.unlocated = nested s
  | .block p b => by
      simp only [Statement.unlocated, stmt, nested, block_unlocated b, and_self]
  | .unchecked p b => by
      refine of_stmt ?_ nofun
      simp only [Statement.unlocated, stmt, block_unlocated b]
  | .ifElse p cond whenTrue none => by
      refine of_stmt ?_ nofun
      simp only [Statement.unlocated, stmt, (stmt_unlocated whenTrue).2]
  | .ifElse p cond whenTrue (some whenFalse) => by
      refine of_stmt ?_ nofun
      simp only [Statement.unlocated, stmt, (stmt_unlocated whenTrue).2, (stmt_unlocated whenFalse).2]
  | .forLoop p (some (.varDecl q d)) cond post body => by
      refine of_stmt ?_ nofun
      simp only [Statement.unlocated, stmt, (stmt_unlocated body).2]
      rfl
  | .forLoop p (some (.expr q e)) cond post body => by
      refine of_stmt ?_ nofun
      simp only [Statement.unlocated, stmt, (stmt_unlocated body).2]
  | .forLoop p none cond post body => by
      refine of_stmt ?_ nofun
      simp only [Statement.unlocated, stmt, (stmt_unlocated body).2]
  | .whileLoop p cond body => by
      refine of_stmt ?_ nofun
      simp only [Statement.unlocated, stmt, (stmt_unlocated body).2]
  | .doWhile p body cond => by
      refine of_stmt ?_ nofun
      simp only [Statement.unlocated, stmt, (stmt_unlocated body).2]
  | .varDecl p d => by
      refine of_stmt ?_ nofun
      simp only [Statement.unlocated, stmt, varDecl_unlocated]
  | .tupleDecl p vars value => by
      refine of_stmt ?_ nofun
      simp only [Statement.unlocated, stmt, tupleVars_unlocated]
  | .returnValue _ _ | .emit _ _ | .revert _ _ | .breakLoop _ | .continueLoop _ | .placeholder _
  | .expr _ _ => of_stmt (by simp only [Statement.unlocated]) nofun

end

end Resolve

end RustContracts
