import RustContracts.Proofs.Rust.Form
import RustContracts.Proofs.Rust.RoundTrip

-- What Rust reads by its context. Behind the type of a cast `<` and `<<` start generic arguments, and in what is tested a
-- brace starts a block.
namespace RustContracts.Rust

open Grammar Token

-- The text of an expression ends in the type of a cast, where anything looser than `least` is in parentheses.
def Expr.EndsInCast : Expr → Nat → Prop
  | .cast _ _, least => least ≤ Tightness.cast
  | .binary op _ right, least => least ≤ operatorTightness op ∧ right.EndsInCast (operatorTightness op + 1)
  | .unary _ operand, least => least ≤ Tightness.unary ∧ operand.EndsInCast Tightness.unary
  | _, _ => False

-- The braces of a struct literal stand in the text of an expression outside of all brackets and blocks.
def Expr.ShowsStruct : Expr → Nat → Prop
  | .structLit _ _ _, _ => True
  | .field x _, least | .methodCall x _ _, least | .call x _, least | .index x _, least | .tryOp x, least =>
    least ≤ Tightness.trailing ∧ x.ShowsStruct Tightness.trailing
  | .binary op left right, least =>
    least ≤ operatorTightness op ∧
      (left.ShowsStruct (leftTightness op) ∨ right.ShowsStruct (operatorTightness op + 1))
  | .unary _ operand, least => least ≤ Tightness.unary ∧ operand.ShowsStruct Tightness.unary
  | .cast value _, least => least ≤ Tightness.cast ∧ value.ShowsStruct Tightness.cast
  | _, _ => False

-- Code in which no cast stands directly before `<` or `<<`, and no struct literal in what is tested.
def unambiguous : Form where
  ident _ := True
  left op x := op = "<" ∨ op = "<<" → ¬ x.EndsInCast (leftTightness op)
  cond c := ¬ c.ShowsStruct 0

namespace Expr

variable {x : Expr} {s t least : Nat}

-- Parentheses only hide.

theorem EndsInCast.mono (h : x.EndsInCast t) (hle : s ≤ t) : x.EndsInCast s := by
  cases x with
  | cast => exact Nat.le_trans hle h
  | binary | unary => exact ⟨Nat.le_trans hle h.1, h.2⟩
  | _ => exact h.elim

theorem EndsInCast.le : ∀ {x : Expr} {least : Nat}, x.EndsInCast least → least ≤ Tightness.cast
  | .cast _ _, _, h => h
  | .binary _ _ right, _, h => Nat.le_trans h.1 (Nat.le_of_succ_le (EndsInCast.le (x := right) h.2))
  | .unary _ operand, _, h => absurd (EndsInCast.le (x := operand) h.2) (by decide)

theorem ShowsStruct.mono (h : x.ShowsStruct t) (hle : s ≤ t) : x.ShowsStruct s := by
  cases x with
  | structLit => trivial
  | field | methodCall | call | index | tryOp | binary | unary | cast => exact ⟨Nat.le_trans hle h.1, h.2⟩
  | _ => exact h.elim

theorem endsInCast_borrowed (h : x.borrowed.EndsInCast least) : x.EndsInCast least := by
  unfold borrowed at h
  split at h
  · split at h
    · next hsimple => cases ‹Expr› <;> simp_all [isSimple, EndsInCast]
    · exact h
  · exact h

theorem showsStruct_borrowed (h : x.borrowed.ShowsStruct least) : x.ShowsStruct 0 := by
  unfold borrowed at h
  split at h
  · split at h
    · exact ⟨Nat.zero_le _, by cases ‹Expr› <;> simp_all [isSimple, ShowsStruct]⟩
    · exact h.mono (Nat.zero_le _)
  · exact h.mono (Nat.zero_le _)

end Expr

-- Tokens as Rust reads them.

namespace Grammar

-- Somewhere `<` or `<<` stands behind the type of a cast.
def angled : List Token → Bool
  | [] => false
  | .keyword "as" :: ts =>
    (match path ts with
      | some (_, .punct op :: _) => op = "<" || op = "<<"
      | _ => false) || angled ts
  | _ :: ts => angled ts

end Grammar

-- The expression that Rust reads in a text: none where `<` would start generic arguments.
def Expr.read? (text : String) : Option Expr :=
  if (lex text.toList).any angled then none else Expr.parse? text

-- Tokens in which no cast stands before `<`, whatever comes behind them, if `p` says that the last of them are the
-- type of a cast.
def Settled (p : Prop) (ts : List Token) : Prop :=
  ∀ rest, Grammar.Stop (Tightness.atom + 1) rest →
    (p → ∀ t ∈ rest.head?, t ≠ .punct "<" ∧ t ≠ .punct "<<") → angled (ts ++ rest) = angled rest

def Settles (p : Prop) (text : String) : Prop := ∃ ts, Lexes text.toList ts ∧ Settled p ts

variable {cs : List Char} {ts ts' : List Token} {p q : Prop} {text inside more : String} {e : Expr}

theorem angled_cons {t : Token} (h : t ≠ .keyword "as") (ts : List Token) : angled (t :: ts) = angled ts := by
  rw [angled]
  rintro rfl
  exact h rfl

theorem Lexes.unique (h : Lexes cs ts) (h' : Lexes cs ts') : ts = ts' := by
  have heq := (h [] trivial).symm.trans (h' [] trivial)
  rw [lex] at heq
  simpa using heq

theorem hold_lt_of_ne {t : Token} (h : t ≠ .punct "::") : hold t < Tightness.atom + 1 := by
  have hoperator (op : String) : operatorTightness op < Tightness.atom + 1 := by
    by_cases hop : 0 < operatorTightness op
    · exact Nat.lt_trans (operatorTightness_lt hop) (by decide)
    · exact Nat.lt_of_le_of_lt (Nat.le_of_not_lt hop) (by decide)
  unfold hold
  split
  · exact absurd rfl h
  all_goals first | decide | exact hoperator _

namespace Settled

theorem mono (h : Settled p ts) (himp : p → q) : Settled q ts :=
  fun rest hstop hangle => h rest hstop fun hends => hangle (himp hends)

theorem nil : Settled False [] := fun _ _ _ => rfl

theorem cons {t : Token} (htoken : t ≠ .keyword "as") (h : Settled p ts) : Settled p (t :: ts) := by
  intro rest hstop hangle
  rw [List.cons_append, angled_cons htoken]
  exact h rest hstop hangle

theorem of_notMem (h : .keyword "as" ∉ ts) : Settled False ts := by
  induction ts with
  | nil => exact nil
  | cons t ts ih =>
      obtain ⟨htoken, hts⟩ := List.ne_and_not_mem_of_not_mem_cons h
      exact cons (Ne.symm htoken) (ih hts)

-- Behind tokens comes one that does not go on with them.
theorem append {t : Token} (h : Settled p ts) (h' : Settled q (t :: ts')) (htoken : t ≠ .punct "::")
    (hangle : p → t ≠ .punct "<" ∧ t ≠ .punct "<<") : Settled q (ts ++ t :: ts') := by
  intro rest hstop hrest
  rw [List.append_assoc, List.cons_append, h _ (stop_cons (hold_lt_of_ne htoken) _) ?_, ← List.cons_append]
  · exact h' rest hstop hrest
  · rintro hends _ ⟨⟩
    exact hangle hends

-- A type behind `as`.
theorem cast {type : String} (h : .keyword "as" ∉ ts) (htype : Names ts type) : Settled True (.keyword "as" :: ts) := by
  intro rest hstop hangle
  have hpath : (match path (ts ++ rest) with
      | some (_, .punct op :: _) => decide (op = "<") || decide (op = "<<")
      | _ => false) = false := by
    rw [htype rest hstop]
    match rest, hangle with
    | [], _ => rfl
    | .name _ :: _, _ | .keyword _ :: _, _ | .literal _ :: _, _ => rfl
    | .punct op :: _, hangle =>
        obtain ⟨hless, hshift⟩ := hangle trivial _ rfl
        simp only [ne_eq, Token.punct.injEq] at hless hshift
        simp [hless, hshift]
  rw [List.cons_append, angled, hpath, Bool.false_or]
  exact of_notMem h rest hstop False.elim

end Settled

namespace Settles

theorem mono (h : Settles p text) (himp : p → q) : Settles q text := by
  obtain ⟨ts, hlex, hts⟩ := h
  exact ⟨ts, hlex, hts.mono himp⟩

theorem parenthesized (h : Settles p text) : Settles False ("(" ++ text ++ ")") := by
  obtain ⟨ts, hlex, hts⟩ := h
  refine ⟨_, ?_, (hts.append (.cons (t := .punct ")") (by decide) .nil) (by decide) fun _ => by decide).cons
    (t := .punct "(") (by decide)⟩
  rw [String.toList_append, String.toList_append]
  exact hlex.parenthesized

theorem parenthesizedIf {needed : Bool} (h : Settles p text) (himp : needed = false → p → q) :
    Settles q (parenthesizedIf needed text) := by
  cases needed with
  | true => exact h.parenthesized.mono False.elim
  | false => exact h.mono (himp rfl)

-- What stands behind a text goes on with a token of its own.
theorem behind {t : Token} {whole : String} (h : Settles p text) (hlex : Lexes cs (t :: ts))
    (hts : Settled q (t :: ts)) (hends : ∀ rest, Ends rest → Ends (cs ++ rest)) (htoken : t ≠ .punct "::")
    (hangle : p → t ≠ .punct "<" ∧ t ≠ .punct "<<") (hwhole : whole.toList = text.toList ++ cs) :
    Settles q whole := by
  obtain ⟨front, hlex', hfront⟩ := h
  exact ⟨_, hwhole ▸ hlex'.append hlex hends, hfront.append hts htoken hangle⟩

end Settles

theorem IsPath.tokens {name : String} (h : IsPath name) :
    ∃ ts, Lexes name.toList ts ∧ Names ts name ∧ .keyword "as" ∉ ts := by
  induction h with
  | @name a ha => exact ⟨_, ha.lexes, names_singleton a, by simp⟩
  | @cons a b ha _ ih =>
      obtain ⟨ts, hlex, hnames, has⟩ := ih
      refine ⟨_, ?_, names_cons hnames, by simpa using has⟩
      rw [String.toList_append, String.toList_append, List.append_assoc]
      exact ha.lexes.append hlex.colons fun _ _ => ends_cons (by decide) _

theorem reads_path {name : String} (h : IsPath name) : Settles False name := by
  obtain ⟨ts, hlex, -, has⟩ := h.tokens
  exact ⟨ts, hlex, .of_notMem has⟩

-- Expressions with commas between them, each of which reads in some way.
theorem reads_list (depth : Nat) {es : List Expr} (h : ∀ e ∈ es, ∃ p, Settles p (e.textAt depth 0)) :
    ∃ p, Settles p (listText depth es) := by
  match es, h with
  | [], _ => exact ⟨False, [], lexes_nil, .nil⟩
  | [e], h => exact h e List.mem_cons_self
  | e :: e' :: es, h =>
      obtain ⟨p, he⟩ := h e List.mem_cons_self
      obtain ⟨q, ts, hlex, hts⟩ := reads_list depth fun x hx => h x (List.mem_cons_of_mem e hx)
      refine ⟨q, he.behind (hlex.blank.punct (c := ',') (by decide)) (hts.cons (t := .punct ",") (by decide))
        (fun _ _ => ends_cons (by decide) _) (by decide) (fun _ => by decide) ?_⟩
      change (e.textAt depth 0 ++ ", " ++ listText depth (e' :: es)).toList = _
      rw [String.toList_append, String.toList_append, List.append_assoc]
      rfl

-- Arguments in parentheses, and what stands in brackets.
theorem Settles.arguments (h : Settles p inside) :
    ∃ ts, Lexes ('(' :: (inside.toList ++ [')'])) (.punct "(" :: ts) ∧ Settled False (.punct "(" :: ts) := by
  obtain ⟨ts, hlex, hts⟩ := h
  refine ⟨_, hlex.parenthesized, (hts.append (.cons (t := .punct ")") (by decide) .nil) (by decide) ?_).cons
    (t := .punct "(") (by decide)⟩
  exact fun _ => by decide

theorem Settles.bracketed (h : Settles p inside) :
    ∃ ts, Lexes ('[' :: (inside.toList ++ [']'])) (.punct "[" :: ts) ∧ Settled False (.punct "[" :: ts) := by
  obtain ⟨ts, hlex, hts⟩ := h
  refine ⟨_, hlex.bracketed, (hts.append (.cons (t := .punct "]") (by decide) .nil) (by decide) ?_).cons
    (t := .punct "[") (by decide)⟩
  exact fun _ => by decide

theorem angled_borrowed (ts : List Token) : angled (borrowed ts) = angled ts := by
  fun_induction borrowed ts with
  | case1 ts ih => rw [angled_cons (by decide), angled_cons (by decide), ih]
  | case2 ts => rw [angled_cons (by decide), angled_cons (by decide)]
  | case3 ts => exact angled_cons (by decide) ts

-- An operator in front.
theorem Settles.unary {op : String} (hop : op ∈ ["!", "-", "*", "&"]) (he : Printed Tightness.unary e text)
    (h : Settles p text) : Settles p (op ++ text) := by
  obtain ⟨ts, hlex, hts⟩ := h
  obtain ⟨ts', hlex', hstarts, hgroups⟩ := he
  obtain rfl := hlex.unique hlex'
  simp only [List.mem_cons, List.not_mem_nil, or_false] at hop
  unfold Settles
  rw [String.toList_append]
  rcases hop with rfl | rfl | rfl | rfl
  · exact ⟨_, hlex.unary (.inl rfl) hstarts, hts.cons (by decide)⟩
  · exact ⟨_, hlex.unary (.inr (.inl rfl)) hstarts, hts.cons (by decide)⟩
  · exact ⟨_, hlex.unary (.inr (.inr rfl)) hstarts, hts.cons (by decide)⟩
  · have hoperand := hgroups.exists_operand
    refine ⟨_, hlex.borrow hstarts hoperand, fun rest hstop hangle => ?_⟩
    rw [← borrowed_append hoperand, angled_borrowed]
    exact hts rest hstop hangle

-- Where no cast stands before `<`, the text of an expression reads, and it ends in a cast where the expression does.
theorem Expr.Readable.reads (h : e.Readable) (hfits : e.Fits unambiguous) (depth least : Nat) :
    Settles (e.EndsInCast least) (e.textAt depth least) := by
  have hlist {es : List Expr}
      (ih : ∀ a ∈ es, a.Fits unambiguous → ∀ least, Settles (a.EndsInCast least) (a.textAt depth least))
      (hes : ∀ a ∈ es, a.Fits unambiguous) : ∃ p, Settles p (listText depth es) :=
    reads_list depth fun a ha => ⟨_, ih a ha (hes a ha) 0⟩
  have htight {x : Expr} (hx : x.EndsInCast Tightness.trailing) : False := absurd hx.le (by decide)
  induction h generalizing least with
  | ident hname =>
      rw [Expr.textAt]
      exact reads_path hname
  | lit htext =>
      rw [Expr.textAt]
      exact Settles.parenthesizedIf ⟨_, lexes_token htext fun _ => Token.noConfusion, .of_notMem (by simp)⟩ fun _ h => h
  | field _ hname ih =>
      rw [Expr.textAt]
      cases hfits with
      | field hx =>
          refine Settles.parenthesizedIf (p := False) ?_ fun _ => False.elim
          refine (ih hx _).behind hname.lexes_point (.of_notMem (by simp)) (fun rest _ => hname.ends_point rest) (by decide)
            (fun h => (htight h).elim) ?_
          rw [String.toList_append, String.toList_append, List.append_assoc]
          rfl
  | methodCall _ hname _ ih ihargs =>
      rw [Expr.textAt]
      cases hfits with
      | methodCall hx hargs =>
          obtain ⟨p, hinside⟩ := hlist (fun a ha h least => ihargs a ha h least) hargs
          obtain ⟨ts, hlex, hts⟩ := hinside.arguments
          refine Settles.parenthesizedIf (p := False) ?_ fun _ => False.elim
          refine (ih hx _).behind (hname.lexes_point.append hlex fun _ _ => ends_cons (by decide) _)
            ((hts.cons (t := .name _) (by simp)).cons (t := .punct ".") (by decide)) (fun rest _ => ?_) (by decide)
            (fun h => (htight h).elim) ?_
          · rw [List.append_assoc]
            exact hname.ends_point _
          · simp only [String.toList_append, List.append_assoc]
            rfl
  | call hname _ ihargs =>
      rw [Expr.textAt, Expr.textAt]
      cases hfits with
      | call hargs =>
          obtain ⟨p, hinside⟩ := hlist (fun a ha h least => ihargs a ha h least) hargs
          obtain ⟨ts, hlex, hts⟩ := hinside.arguments
          refine Settles.parenthesizedIf (p := False) ?_ fun _ => False.elim
          refine (reads_path hname).behind hlex hts (fun _ _ => ends_cons (by decide) _) (by decide) (fun _ => by decide) ?_
          simp only [String.toList_append, List.append_assoc]
          rfl
  | @binary op l r hop _ _ ihl ihr =>
      rw [Expr.textAt]
      cases hfits with
      | binary hleft hl hr =>
          obtain ⟨ts, hlex, hts⟩ := ihr hr (operatorTightness op + 1)
          refine Settles.parenthesizedIf (p := r.EndsInCast (operatorTightness op + 1)) ?_ fun hneeded h =>
            ⟨by simpa using hneeded, h⟩
          refine (ihl hl (leftTightness op)).behind (hlex.operator hop).blank (hts.cons (t := .punct op) (by simp))
            (fun _ _ => ends_cons (by decide) _) (by rintro ⟨⟩; exact absurd hop (by decide)) (fun h => ?_) ?_
          · constructor
            · rintro ⟨⟩
              exact hleft (.inl rfl) h
            · rintro ⟨⟩
              exact hleft (.inr rfl) h
          · simp only [String.toList_append, List.append_assoc]
            rfl
  | @unary op x hop hx ih =>
      rw [Expr.textAt]
      cases hfits with
      | unary hfits =>
          refine Settles.parenthesizedIf (Settles.unary hop (hx.printed depth (by decide)) (ih hfits Tightness.unary)) ?_
          exact fun hneeded h => ⟨by simpa using hneeded, h⟩
  | index _ _ ih ihkey =>
      rw [Expr.textAt]
      cases hfits with
      | index hx hkey =>
          obtain ⟨ts, hlex, hts⟩ := (ihkey hkey 0).bracketed
          refine Settles.parenthesizedIf (p := False) ?_ fun _ => False.elim
          refine (ih hx _).behind hlex hts (fun _ _ => ends_cons (by decide) _) (by decide) (fun h => (htight h).elim) ?_
          simp only [String.toList_append, List.append_assoc]
          rfl
  | @tuple es _ ih =>
      cases hfits with
      | tuple hes =>
          cases es with
          | nil => exact Settles.parenthesized (p := False) ⟨[], lexes_nil, .nil⟩
          | cons e rest =>
              cases rest with
              | nil =>
                  obtain ⟨ts, hlex, hts⟩ := ih e List.mem_cons_self (hes e List.mem_cons_self) 0
                  refine ⟨_, ?_, (hts.append (.cons (t := .punct ",") (by decide) (.cons (t := .punct ")") (by decide) .nil))
                    (by decide) fun _ => by decide).cons (t := .punct "(") (by decide)⟩
                  rw [Expr.textAt, String.toList_append, String.toList_append]
                  exact (hlex.append ((lexes_nil.punct (by decide)).punct (by decide)) fun _ _ => ends_cons (by decide) _).punct
                    (by decide)
              | cons e' rest =>
                  obtain ⟨p, hinside⟩ := hlist (fun a ha h least => ih a ha h least) hes
                  exact hinside.parenthesized
  | array _ ih =>
      rw [Expr.textAt]
      cases hfits with
      | array hes =>
          obtain ⟨p, hinside⟩ := hlist (fun a ha h least => ih a ha h least) hes
          obtain ⟨ts, hlex, hts⟩ := hinside.bracketed
          refine ⟨_, ?_, hts⟩
          rw [String.toList_append, String.toList_append]
          exact hlex
  | @cast x type _ htype ih =>
      rw [Expr.textAt]
      cases hfits with
      | cast hx =>
          obtain ⟨ts, hlex, hnames, has⟩ := htype.tokens
          have hword : Lexes "as".toList [.keyword "as"] := lexes_token rfl fun _ => Token.noConfusion
          refine Settles.parenthesizedIf (p := True) ?_ fun hneeded _ => by simpa [EndsInCast] using hneeded
          refine (ih hx Tightness.cast).behind (hword.append hlex.blank fun _ _ => ends_cons (by decide) _).blank
            (.cast has hnames) (fun _ _ => ends_cons (by decide) _) (by decide) (fun _ => by decide) ?_
          simp only [String.toList_append, List.append_assoc]
          rfl
  | tryOp _ ih =>
      rw [Expr.textAt]
      cases hfits with
      | tryOp hx =>
          refine Settles.parenthesizedIf (p := False) ?_ fun _ => False.elim
          refine (ih hx _).behind (lexes_nil.punct (c := '?') (by decide)) (.cons (t := .punct "?") (by decide) .nil)
            (fun _ _ => ends_cons (by decide) _) (by decide) (fun h => (htight h).elim) ?_
          rw [String.toList_append]
          rfl

-- Unambiguous expressions read back in Rust.
theorem Expr.read?_text (h : e.Readable) (hfits : e.Fits unambiguous) : Expr.read? e.text = some e := by
  obtain ⟨ts, hlex, hts⟩ := h.reads hfits 0 0
  obtain ⟨ts', hlex', -, hgroups⟩ := h.printed 0 (Nat.zero_le _)
  obtain rfl := hlex.unique hlex'
  have hread := expression_append hgroups (Nat.le_refl _) stop_nil
  have hangled := hts [] stop_nil fun _ => by nofun
  have htokens := hlex [] trivial
  rw [List.append_nil] at hread hangled htokens
  rw [lex, Option.map_some, List.append_nil] at htokens
  rw [Expr.read?, Expr.parse?, Expr.text, htokens, Option.any_some, hangled, Option.bind_some, hread]
  rfl

-- All the expressions that stand in code, from the outside to the inside.

mutual

def Expr.exprs : Expr → List Expr
  | .field x member => .field x member :: x.exprs
  | .methodCall x method args => .methodCall x method args :: (x.exprs ++ exprsOfList args)
  | .call f args => .call f args :: exprsOfList args
  | .bangCall f args => .bangCall f args :: exprsOfList args
  | .binary op l r => .binary op l r :: (l.exprs ++ r.exprs)
  | .unary op x => .unary op x :: x.exprs
  | .index x key => .index x key :: (x.exprs ++ key.exprs)
  | .tuple es => .tuple es :: exprsOfList es
  | .array es => .array es :: exprsOfList es
  | .structLit s fields base => .structLit s fields base :: (exprsOfFields fields ++ exprsOfOption base)
  | .cast x type => .cast x type :: x.exprs
  | .tryOp x => .tryOp x :: x.exprs
  | .ifElse pattern c t e => .ifElse pattern c t e :: (c.exprs ++ t.exprs ++ exprsOfOption e)
  | .block b => .block b :: b.exprs
  | x => [x]

def exprsOfList : List Expr → List Expr
  | [] => []
  | x :: rest => x.exprs ++ exprsOfList rest

def exprsOfFields : List FieldInit → List Expr
  | [] => []
  | ⟨_, x⟩ :: rest => x.exprs ++ exprsOfFields rest

def exprsOfOption : Option Expr → List Expr
  | none => []
  | some x => x.exprs

def Block.exprs : Block → List Expr
  | ⟨stmts, tail⟩ => exprsOfStmts stmts ++ exprsOfOption tail

def Stmt.exprs : Stmt → List Expr
  | .letVar _ _ _ x | .returnValue x => exprsOfOption x
  | .expr x => x.exprs
  | .assign target _ x => target.exprs ++ x.exprs
  | .whileLoop _ c b => c.exprs ++ b.exprs
  | .loop _ b | .labeled _ b => b.exprs
  | .breakLoop _ | .continueLoop _ => []

def exprsOfStmts : List Stmt → List Expr
  | [] => []
  | st :: rest => st.exprs ++ exprsOfStmts rest

end

section Parts

variable {F : Form}

mutual

theorem Expr.fits_exprs : ∀ x : Expr, x.Fits F → ∀ y ∈ x.exprs, y.Fits F
  | .ident _, h | .lit _, h => List.forall_mem_singleton.mpr h
  | .field x _, h@(.field hx) | .unary _ x, h@(.unary hx) | .cast x _, h@(.cast hx) | .tryOp x, h@(.tryOp hx) =>
    List.forall_mem_cons.mpr ⟨h, x.fits_exprs hx⟩
  | .methodCall x _ args, h@(.methodCall hx hargs) =>
    List.forall_mem_cons.mpr ⟨h, List.forall_mem_append.mpr ⟨x.fits_exprs hx, fits_exprsOfList args hargs⟩⟩
  | .call _ args, h@(.call hargs) | .bangCall _ args, h@(.bangCall hargs) | .tuple args, h@(.tuple hargs)
  | .array args, h@(.array hargs) => List.forall_mem_cons.mpr ⟨h, fits_exprsOfList args hargs⟩
  | .binary _ x y, h@(.binary _ hx hy) | .index x y, h@(.index hx hy) =>
    List.forall_mem_cons.mpr ⟨h, List.forall_mem_append.mpr ⟨x.fits_exprs hx, y.fits_exprs hy⟩⟩
  | .structLit _ fields none, h@(.structLit hfields) =>
    List.forall_mem_cons.mpr ⟨h, List.forall_mem_append.mpr ⟨fits_exprsOfFields fields hfields, by nofun⟩⟩
  | .ifElse _ c t e, h@(.ifElse _ hc ht he) =>
    List.forall_mem_cons.mpr ⟨h, List.forall_mem_append.mpr
      ⟨List.forall_mem_append.mpr ⟨c.fits_exprs hc, t.fits_exprs ht⟩, fits_exprsOfOption e he⟩⟩
  | .block b, h@(.block hb) => List.forall_mem_cons.mpr ⟨h, b.fits_exprs hb⟩

theorem fits_exprsOfList : ∀ xs : List Expr, (∀ x ∈ xs, x.Fits F) → ∀ y ∈ exprsOfList xs, y.Fits F
  | [], _ => by nofun
  | x :: xs, h => by
      obtain ⟨hx, hxs⟩ := List.forall_mem_cons.mp h
      exact List.forall_mem_append.mpr ⟨x.fits_exprs hx, fits_exprsOfList xs hxs⟩

theorem fits_exprsOfFields : ∀ fields : List FieldInit, (∀ f ∈ fields, f.value.Fits F) →
    ∀ y ∈ exprsOfFields fields, y.Fits F
  | [], _ => by nofun
  | ⟨_, x⟩ :: fields, h => by
      obtain ⟨hx, hfields⟩ := List.forall_mem_cons.mp h
      exact List.forall_mem_append.mpr ⟨x.fits_exprs hx, fits_exprsOfFields fields hfields⟩

theorem fits_exprsOfOption : ∀ o : Option Expr, (∀ x ∈ o, x.Fits F) → ∀ y ∈ exprsOfOption o, y.Fits F
  | none, _ => by nofun
  | some x, h => x.fits_exprs (h x rfl)

theorem Block.fits_exprs : ∀ b : Block, b.Fits F → ∀ y ∈ b.exprs, y.Fits F
  | ⟨stmts, tail⟩, .mk hstmts htail =>
    List.forall_mem_append.mpr ⟨fits_exprsOfStmts stmts hstmts, fits_exprsOfOption tail htail⟩

theorem Stmt.fits_exprs : ∀ st : Stmt, st.Fits F → ∀ y ∈ st.exprs, y.Fits F
  | .letVar _ _ _ (some x), .letVar hx | .expr x, .expr hx | .returnValue (some x), .returnValue hx => x.fits_exprs hx
  | .assign target _ x, .assign htarget hx => List.forall_mem_append.mpr ⟨target.fits_exprs htarget, x.fits_exprs hx⟩
  | .whileLoop _ c b, .whileLoop _ hc hb => List.forall_mem_append.mpr ⟨c.fits_exprs hc, b.fits_exprs hb⟩
  | .loop _ b, .loop hb | .labeled _ b, .labeled hb => b.fits_exprs hb
  | .breakLoop _, _ | .continueLoop _, _ => by nofun

theorem fits_exprsOfStmts : ∀ sts : List Stmt, (∀ st ∈ sts, st.Fits F) → ∀ y ∈ exprsOfStmts sts, y.Fits F
  | [], _ => by nofun
  | st :: sts, h => by
      obtain ⟨hst, hsts⟩ := List.forall_mem_cons.mp h
      exact List.forall_mem_append.mpr ⟨st.fits_exprs hst, fits_exprsOfStmts sts hsts⟩

end

end Parts

end RustContracts.Rust
