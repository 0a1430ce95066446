import RustContracts.Proofs.Rust.Grammar

-- Printed expressions read back: the parentheses that are left out are the ones that the grammar puts in.
namespace RustContracts.Rust

open Grammar Token

-- Names and literals are single tokens.
def IsName (text : String) : Prop := scan text.toList = some (.name text, [])

def IsLiteral (text : String) : Prop := scan text.toList = some (.literal text, [])

inductive IsPath : String → Prop
  | name {a : String} : IsName a → IsPath a
  | cons {a b : String} : IsName a → IsPath b → IsPath (a ++ "::" ++ b)

-- The expressions that are made of operators, calls, brackets, names and literals.
inductive Expr.Readable : Expr → Prop
  | ident {name : String} : IsPath name → Readable (.ident name)
  | lit {text : String} : IsLiteral text → Readable (.lit text)
  | field {x : Expr} {name : String} : Readable x → IsName name → Readable (.field x name)
  | methodCall {x : Expr} {name : String} {args : List Expr} :
      Readable x → IsName name → (∀ a ∈ args, Readable a) → Readable (.methodCall x name args)
  | call {name : String} {args : List Expr} :
      IsPath name → (∀ a ∈ args, Readable a) → Readable (.call (.ident name) args)
  | binary {op : String} {l r : Expr} :
      0 < operatorTightness op → Readable l → Readable r → Readable (.binary op l r)
  | unary {op : String} {x : Expr} : op ∈ ["!", "-", "*", "&"] → Readable x → Readable (.unary op x)
  | index {x key : Expr} : Readable x → Readable key → Readable (.index x key)
  | tuple {es : List Expr} : (∀ e ∈ es, Readable e) → Readable (.tuple es)
  | array {es : List Expr} : (∀ e ∈ es, Readable e) → Readable (.array es)
  | cast {x : Expr} {type : String} : Readable x → IsPath type → Readable (.cast x type)
  | tryOp {x : Expr} : Readable x → Readable (.tryOp x)

-- The tokens of a text, in front of whatever is no part of it.
def Lexes (cs : List Char) (ts : List Token) : Prop :=
  ∀ rest, Ends rest → lex (cs ++ rest) = (lex rest).map (ts ++ ·)

variable {cs cs' : List Char} {ts ts' : List Token} {t : Token}

theorem lexes_nil : Lexes [] [] := fun _ _ => Option.map_id'.symm

theorem lexes_token (htoken : scan cs = some (t, [])) (hpunct : ∀ text, t ≠ .punct text) : Lexes cs [t] :=
  fun _ hends => lex_token hends htoken hpunct

theorem Lexes.append (h : Lexes cs ts) (h' : Lexes cs' ts') (hends : ∀ rest, Ends rest → Ends (cs' ++ rest)) :
    Lexes (cs ++ cs') (ts ++ ts') := by
  intro rest hrest
  rw [List.append_assoc, h _ (hends rest hrest), h' rest hrest, Option.map_map]
  simp only [Function.comp_def, List.append_assoc]

theorem Lexes.punct {c : Char} {text : String} (h : Lexes cs ts)
    (hc : (c, text) ∈ [('(', "("), (')', ")"), ('[', "["), (']', "]"), (',', ","), ('?', "?")]) :
    Lexes (c :: cs) (.punct text :: ts) := by
  intro rest hrest
  rw [List.cons_append, lex_bracket hc, h rest hrest, Option.map_map]
  rfl

theorem Lexes.blank (h : Lexes cs ts) : Lexes (' ' :: cs) ts := by
  intro rest hrest
  rw [List.cons_append, lex_blank, h rest hrest]

theorem Lexes.colons (h : Lexes cs ts) : Lexes (':' :: ':' :: cs) (.punct "::" :: ts) := by
  intro rest hrest
  rw [List.cons_append, List.cons_append, lex_colons, h rest hrest, Option.map_map]
  rfl

theorem lex_operator {op : String} (hop : 0 < operatorTightness op) (cs : List Char) :
    lex (op.toList ++ ' ' :: cs) = (lex cs).map (.punct op :: ·) := by
  have hmem := mem_operators hop
  simp only [rows, List.flatMap_cons, List.flatMap_nil, List.cons_append, List.nil_append, List.append_nil,
    List.mem_cons, List.not_mem_nil, or_false] at hmem
  rw [← lex_blank cs]
  rcases hmem with rfl | rfl | rfl | rfl | rfl | rfl | rfl | rfl | rfl | rfl | rfl | rfl | rfl | rfl | rfl | rfl | rfl |
    rfl
  all_goals exact lex_scan rfl (by simp)

theorem Lexes.operator {op : String} (hop : 0 < operatorTightness op) (h : Lexes cs ts) :
    Lexes (op.toList ++ ' ' :: cs) (.punct op :: ts) := by
  intro rest hrest
  rw [List.append_assoc, List.cons_append, lex_operator hop, h rest hrest, Option.map_map]
  rfl

theorem Lexes.unary {c : Char} (hc : c = '!' ∨ c = '-' ∨ c = '*') (h : Lexes cs ts) (hstarts : Starts cs) :
    Lexes (c :: cs) (.punct (String.singleton c) :: ts) := by
  intro rest hrest
  rw [List.cons_append, lex_unary hc (hstarts.append rest), h rest hrest, Option.map_map]
  rfl

theorem Lexes.borrow (h : Lexes cs ts) (hstarts : Starts cs) (hts : ∃ token ∈ ts, token ≠ .punct "&&") :
    Lexes ('&' :: cs) (borrowed ts) := by
  intro rest hrest
  rw [List.cons_append, lex_borrow (hstarts.append rest), h rest hrest, Option.map_map]
  exact Option.map_congr fun more _ => borrowed_append hts more

-- Where a text starts and ends.

theorem ends_cons {c : Char} (hc : c ∈ [' ', ',', ')', ']', '?', '[', '(', ':']) (cs : List Char) : Ends (c :: cs) := by
  simp only [List.mem_cons, List.not_mem_nil, or_false] at hc
  rcases hc with rfl | rfl | rfl | rfl | rfl | rfl | rfl | rfl <;> simp [Ends]

-- The first character of a name or a literal.
theorem head_of_scan (htoken : scan cs = some (t, [])) (hpunct : ∀ text, t ≠ .punct text) :
    ∃ c more, cs = c :: more ∧ (c.isDigit = true ∨ isQuote c = true ∨ isLetter c = true) := by
  cases cs with
  | nil => cases htoken
  | cons c more =>
      refine ⟨c, more, rfl, ?_⟩
      rw [scan] at htoken
      split at htoken
      · next hc => exact .inl hc
      · split at htoken
        · next hc => exact .inr (.inl hc)
        · split at htoken
          · next hc => exact .inr (.inr hc)
          · obtain ⟨text, rfl⟩ := eq_punct_of_punct? htoken
            exact absurd rfl (hpunct text)

theorem starts_of_scan (htoken : scan cs = some (t, [])) (hpunct : ∀ text, t ≠ .punct text) : Starts cs := by
  obtain ⟨c, more, rfl, hc⟩ := head_of_scan htoken hpunct
  have hne (d : Char) (hd : (d.isDigit || isQuote d || isLetter d) = false) : c ≠ d := by
    rintro rfl
    rcases hc with hc | hc | hc <;> simp [hc] at hd
  refine starts_of_ne ⟨?_, hne _ rfl, hne _ rfl⟩ (hne _ rfl) more
  simp [isBlank, hne ' ' rfl, hne '\n' rfl, hne '\t' rfl, hne '\r' rfl]

theorem IsName.lexes {name : String} (h : IsName name) : Lexes name.toList [.name name] :=
  lexes_token h fun _ => Token.noConfusion

theorem IsName.starts {name : String} (h : IsName name) : Starts name.toList :=
  starts_of_scan h fun _ => Token.noConfusion

theorem IsName.head {name : String} (h : IsName name) :
    ∃ c more, name.toList = c :: more ∧ isLetter c = true ∧ c.isDigit = false := by
  unfold IsName at h
  cases hcs : name.toList with
  | nil =>
      rw [hcs] at h
      cases h
  | cons c more =>
      rw [hcs, scan] at h
      split at h
      · cases h
      · next hdigit =>
          split at h
          · cases (eq_literal_of_quoted? h).choose_spec
          · split at h
            · next hletter => exact ⟨c, more, rfl, hletter, by simpa using hdigit⟩
            · cases (eq_punct_of_punct? h).choose_spec

theorem IsName.lexes_point {name : String} (h : IsName name) :
    Lexes ('.' :: name.toList) [.punct ".", .name name] := by
  intro rest hrest
  obtain ⟨c, more, hname, hletter, -⟩ := h.head
  rw [List.cons_append, hname, List.cons_append, lex_point hletter, ← List.cons_append, ← hname, h.lexes rest hrest,
    Option.map_map]
  rfl

theorem IsName.ends_point {name : String} (h : IsName name) (rest : List Char) :
    Ends ('.' :: name.toList ++ rest) := by
  obtain ⟨c, more, hname, -, hdigit⟩ := h.head
  rw [hname]
  exact hdigit

-- An expression in a text that the grammar gives back, where the text holds together as tightly as `t`.
def Printed (t : Nat) (e : Expr) (text : String) : Prop :=
  ∃ ts, Lexes text.toList ts ∧ Starts text.toList ∧ Groups t ts e

def PrintedList (es : List Expr) (text : String) : Prop :=
  ∃ ts, Lexes text.toList ts ∧ Lists ts es

variable {s t : Nat} {x e key : Expr} {es args : List Expr} {name text inside : String}

theorem Printed.loosen (h : Printed s e text) (hs : s ≤ Tightness.trailing) (hpos : 1 ≤ t) (hle : t ≤ s) :
    Printed t e text := by
  obtain ⟨ts, hlex, hstarts, hgroups⟩ := h
  exact ⟨ts, hlex, hstarts, hgroups.loosen hs hpos hle⟩

theorem Lexes.parenthesized (h : Lexes cs ts) : Lexes ('(' :: (cs ++ [')'])) (.punct "(" :: (ts ++ [.punct ")"])) :=
  (h.append (lexes_nil.punct (by decide)) fun _ _ => ends_cons (by decide) _).punct (by decide)

theorem Lexes.bracketed (h : Lexes cs ts) : Lexes ('[' :: (cs ++ [']'])) (.punct "[" :: (ts ++ [.punct "]"])) :=
  (h.append (lexes_nil.punct (by decide)) fun _ _ => ends_cons (by decide) _).punct (by decide)

theorem starts_open (cs : List Char) : Starts ('(' :: cs) := starts_of_ne (by decide) (by decide) cs

theorem Printed.parenthesized (h : Printed 1 e text) : Printed Tightness.trailing e ("(" ++ text ++ ")") := by
  obtain ⟨ts, hlex, -, hgroups⟩ := h
  refine ⟨_, ?_, ?_, groups_parenthesized hgroups⟩
  · rw [String.toList_append, String.toList_append]
    exact hlex.parenthesized
  · rw [String.toList_append, String.toList_append]
    exact starts_open _

-- The parentheses that the least tightness asks for.
theorem Printed.parenthesizedIf (h : Printed t e text) (hpos : 1 ≤ t) (ht : t ≤ Tightness.trailing) {least : Nat}
    (hleast : least ≤ Tightness.trailing) {needed : Bool} (hneeded : needed = false → least ≤ t) :
    Printed (max least 1) e (parenthesizedIf needed text) := by
  cases needed with
  | true =>
      exact (h.loosen ht (Nat.le_refl 1) hpos).parenthesized.loosen (Nat.le_refl _) (Nat.le_max_right _ _)
        (Nat.max_le.mpr ⟨hleast, by decide⟩)
  | false => exact h.loosen ht (Nat.le_max_right _ _) (Nat.max_le.mpr ⟨hneeded rfl, hpos⟩)

-- Names, paths and literals.

theorem IsPath.names (h : IsPath name) : ∃ ts, Lexes name.toList ts ∧ Starts name.toList ∧ Names ts name := by
  induction h with
  | @name a ha => exact ⟨_, ha.lexes, ha.starts, names_singleton a⟩
  | @cons a b ha _ ih =>
      obtain ⟨ts, hlex, -, hnames⟩ := ih
      refine ⟨_, ?_, ?_, names_cons hnames⟩
      · rw [String.toList_append, String.toList_append, List.append_assoc]
        exact ha.lexes.append hlex.colons fun _ _ => ends_cons (by decide) _
      · rw [String.toList_append, String.toList_append, List.append_assoc]
        exact ha.starts.append _

theorem printed_ident (h : IsPath name) : Printed Tightness.trailing (.ident name) name := by
  obtain ⟨ts, hlex, hstarts, hnames⟩ := h.names
  exact ⟨ts, hlex, hstarts, groups_path hnames⟩

theorem printed_lit (h : IsLiteral text) : Printed Tightness.trailing (.lit text) text :=
  ⟨_, lexes_token h fun _ => Token.noConfusion, starts_of_scan h fun _ => Token.noConfusion, groups_literal text⟩

-- Brackets.

theorem Printed.singleton (h : Printed 1 e text) : PrintedList [e] text := by
  obtain ⟨ts, hlex, -, hgroups⟩ := h
  exact ⟨ts, hlex, lists_singleton hgroups⟩

theorem Printed.cons (h : Printed 1 e text) (hes : PrintedList es inside) :
    PrintedList (e :: es) (text ++ ", " ++ inside) := by
  obtain ⟨ts, hlex, -, hgroups⟩ := h
  obtain ⟨ts', hlex', hlists⟩ := hes
  refine ⟨_, ?_, lists_cons hgroups hlists⟩
  rw [String.toList_append, String.toList_append, List.append_assoc]
  exact hlex.append (hlex'.blank.punct (by decide)) fun _ _ => ends_cons (by decide) _

-- `(a, b)`
theorem Printed.tuple (h : Printed 1 e text) (hes : PrintedList es inside) :
    Printed Tightness.trailing (.tuple (e :: es)) ("(" ++ (text ++ ", " ++ inside) ++ ")") := by
  obtain ⟨ts, hlex, -, hgroups⟩ := h
  obtain ⟨ts', hlex', hlists⟩ := hes
  refine ⟨_, ?_, ?_, groups_tuple hgroups hlists⟩
  · simp only [String.toList_append, List.append_assoc]
    refine (hlex.append ((hlex'.append (lexes_nil.punct (by decide)) fun _ _ => ends_cons (by decide) _).blank.punct
      (by decide)) fun _ _ => ends_cons (by decide) _).punct (by decide)
  · simp only [String.toList_append, List.append_assoc]
    exact starts_open _

-- `(a,)`
theorem Printed.tuple_singleton (h : Printed 1 e text) :
    Printed Tightness.trailing (.tuple [e]) ("(" ++ text ++ ",)") := by
  obtain ⟨ts, hlex, -, hgroups⟩ := h
  refine ⟨_, ?_, ?_, groups_tuple hgroups lists_nil⟩
  · rw [String.toList_append, String.toList_append]
    exact (hlex.append ((lexes_nil.punct (by decide)).punct (by decide)) fun _ _ => ends_cons (by decide) _).punct
      (by decide)
  · rw [String.toList_append, String.toList_append]
    exact starts_open _

theorem printed_unit : Printed Tightness.trailing (.tuple []) ("(" ++ "" ++ ")") :=
  ⟨_, (lexes_nil.punct (by decide)).punct (by decide), starts_open _, groups_unit⟩

theorem PrintedList.array (hes : PrintedList es inside) :
    Printed Tightness.trailing (.array es) ("[" ++ inside ++ "]") := by
  obtain ⟨ts, hlex, hlists⟩ := hes
  refine ⟨_, ?_, ?_, groups_array hlists⟩
  · rw [String.toList_append, String.toList_append]
    exact hlex.bracketed
  · rw [String.toList_append, String.toList_append]
    exact starts_of_ne (by decide) (by decide) _

-- What stands behind an operand.

theorem Printed.field (h : Printed Tightness.trailing x text) (hname : IsName name) :
    Printed Tightness.trailing (.field x name) (text ++ "." ++ name) := by
  obtain ⟨ts, hlex, hstarts, hgroups⟩ := h
  refine ⟨_, ?_, ?_, hgroups.field name⟩
  · rw [String.toList_append, String.toList_append, List.append_assoc]
    exact hlex.append hname.lexes_point fun rest _ => hname.ends_point rest
  · rw [String.toList_append, String.toList_append, List.append_assoc]
    exact hstarts.append _

theorem Printed.methodCall (h : Printed Tightness.trailing x text) (hname : IsName name)
    (hargs : PrintedList args inside) :
    Printed Tightness.trailing (.methodCall x name args) (text ++ "." ++ name ++ "(" ++ inside ++ ")") := by
  obtain ⟨ts, hlex, hstarts, hgroups⟩ := h
  obtain ⟨ts', hlex', hlists⟩ := hargs
  refine ⟨_, ?_, ?_, hgroups.methodCall name hlists⟩
  · simp only [String.toList_append, List.append_assoc]
    have hcall := hname.lexes_point.append hlex'.parenthesized fun _ _ => ends_cons (by decide) _
    refine hlex.append hcall fun rest _ => ?_
    rw [List.append_assoc, List.append_assoc]
    exact hname.ends_point _
  · simp only [String.toList_append, List.append_assoc]
    exact hstarts.append _

theorem IsPath.call (h : IsPath name) (hargs : PrintedList args inside) :
    Printed Tightness.trailing (.call (.ident name) args) (name ++ "(" ++ inside ++ ")") := by
  obtain ⟨ts, hlex, hstarts, hnames⟩ := h.names
  obtain ⟨ts', hlex', hlists⟩ := hargs
  refine ⟨_, ?_, ?_, groups_call hnames hlists⟩
  · simp only [String.toList_append, List.append_assoc]
    exact hlex.append hlex'.parenthesized fun _ _ => ends_cons (by decide) _
  · simp only [String.toList_append, List.append_assoc]
    exact hstarts.append _

theorem Printed.index (h : Printed Tightness.trailing x text) (hkey : Printed 1 key inside) :
    Printed Tightness.trailing (.index x key) (text ++ "[" ++ inside ++ "]") := by
  obtain ⟨ts, hlex, hstarts, hgroups⟩ := h
  obtain ⟨ts', hlex', -, hgroups'⟩ := hkey
  refine ⟨_, ?_, ?_, hgroups.index hgroups'⟩
  · simp only [String.toList_append, List.append_assoc]
    exact hlex.append hlex'.bracketed fun _ _ => ends_cons (by decide) _
  · simp only [String.toList_append, List.append_assoc]
    exact hstarts.append _

theorem Printed.tryOp (h : Printed Tightness.trailing x text) :
    Printed Tightness.trailing (.tryOp x) (text ++ "?") := by
  obtain ⟨ts, hlex, hstarts, hgroups⟩ := h
  refine ⟨_, ?_, ?_, hgroups.tryOp⟩
  · rw [String.toList_append]
    exact hlex.append (lexes_nil.punct (by decide)) fun _ _ => ends_cons (by decide) _
  · rw [String.toList_append]
    exact hstarts.append _

-- Operators.

theorem Printed.unary {op : String} (hop : op ∈ ["!", "-", "*", "&"]) (h : Printed Tightness.unary x text) :
    Printed Tightness.unary (.unary op x) (op ++ text) := by
  obtain ⟨ts, hlex, hstarts, hgroups⟩ := h
  have hgroups' := Groups.unary hop hgroups
  simp only [List.mem_cons, List.not_mem_nil, or_false] at hop
  unfold Printed
  rw [String.toList_append]
  rcases hop with rfl | rfl | rfl | rfl
  · exact ⟨_, hlex.unary (.inl rfl) hstarts, starts_of_ne (by decide) (by decide) _, hgroups'⟩
  · exact ⟨_, hlex.unary (.inr (.inl rfl)) hstarts, starts_of_ne (by decide) (by decide) _, hgroups'⟩
  · exact ⟨_, hlex.unary (.inr (.inr rfl)) hstarts, starts_of_ne (by decide) (by decide) _, hgroups'⟩
  · exact ⟨_, hlex.borrow hstarts hgroups.exists_operand, hstarts, hgroups.borrow⟩

theorem Printed.cast (h : Printed Tightness.cast x text) {type : String} (htype : IsPath type) :
    Printed Tightness.cast (.cast x type) (text ++ " as " ++ type) := by
  obtain ⟨ts, hlex, hstarts, hgroups⟩ := h
  obtain ⟨ts', hlex', -, hnames⟩ := htype.names
  have has : Lexes "as".toList [.keyword "as"] := lexes_token rfl fun _ => Token.noConfusion
  refine ⟨_, ?_, ?_, hgroups.cast hnames⟩
  · simp only [String.toList_append, List.append_assoc]
    exact hlex.append (has.append hlex'.blank fun _ _ => ends_cons (by decide) _).blank fun _ _ =>
      ends_cons (by decide) _
  · simp only [String.toList_append, List.append_assoc]
    exact hstarts.append _

theorem Printed.binary {op : String} (hop : 0 < operatorTightness op) {l r : Expr} {left right : String}
    (hl : Printed (leftTightness op) l left) (hr : Printed (operatorTightness op + 1) r right) :
    Printed (operatorTightness op) (.binary op l r) (left ++ " " ++ op ++ " " ++ right) := by
  obtain ⟨ts, hlex, hstarts, hgroups⟩ := hl
  obtain ⟨ts', hlex', -, hgroups'⟩ := hr
  refine ⟨_, ?_, ?_, Groups.binary hop hgroups hgroups'⟩
  · simp only [String.toList_append, List.append_assoc]
    exact hlex.append (hlex'.operator hop).blank fun _ _ => ends_cons (by decide) _
  · simp only [String.toList_append, List.append_assoc]
    exact hstarts.append _

-- Whole expressions.

theorem printedList (depth : Nat) {es : List Expr} (h : ∀ e ∈ es, Printed 1 e (e.textAt depth 0)) :
    PrintedList es (listText depth es) := by
  match es, h with
  | [], _ => exact ⟨[], lexes_nil, lists_nil⟩
  | [e], h => exact (h e List.mem_cons_self).singleton
  | e :: e' :: es, h =>
      exact (h e List.mem_cons_self).cons (printedList depth fun e he => h e (List.mem_cons_of_mem _ he))

theorem printed_tuple (depth least : Nat) (h : ∀ e ∈ es, Printed 1 e (e.textAt depth 0)) :
    Printed Tightness.trailing (.tuple es) ((Expr.tuple es).textAt depth least) := by
  match es, h with
  | [], _ => exact printed_unit
  | [e], h => exact (h e List.mem_cons_self).tuple_singleton
  | e :: e' :: es, h =>
      exact (h e List.mem_cons_self).tuple (printedList depth fun e he => h e (List.mem_cons_of_mem _ he))

theorem leftTightness_le {op : String} (hop : 0 < operatorTightness op) :
    1 ≤ leftTightness op ∧ leftTightness op ≤ Tightness.trailing := by
  have hlt := operatorTightness_lt hop
  simp only [leftTightness, Tightness.cast, Tightness.trailing] at *
  split <;> omega

theorem Expr.Readable.printed (h : e.Readable) (depth : Nat) {least : Nat} (hleast : least ≤ Tightness.trailing) :
    Printed (max least 1) e (e.textAt depth least) := by
  induction h generalizing least with
  | ident hname =>
      rw [Expr.textAt]
      exact (printed_ident hname).loosen (Nat.le_refl _) (Nat.le_max_right _ _) (Nat.max_le.mpr ⟨hleast, by decide⟩)
  | lit htext =>
      rw [Expr.textAt]
      exact (printed_lit htext).parenthesizedIf (by decide) (Nat.le_refl _) hleast fun _ => hleast
  | field _ hname ih =>
      rw [Expr.textAt]
      exact ((ih (Nat.le_refl _)).field hname).parenthesizedIf (by decide) (Nat.le_refl _) hleast (by simp)
  | methodCall _ hname _ ih ihargs =>
      rw [Expr.textAt]
      have hargs := printedList depth fun a ha => ihargs a ha (Nat.zero_le _)
      exact ((ih (Nat.le_refl _)).methodCall hname hargs).parenthesizedIf (by decide) (Nat.le_refl _) hleast (by simp)
  | call hname _ ihargs =>
      rw [Expr.textAt, Expr.textAt]
      have hargs := printedList depth fun a ha => ihargs a ha (Nat.zero_le _)
      exact (hname.call hargs).parenthesizedIf (by decide) (Nat.le_refl _) hleast (by simp)
  | @binary op l r hop _ _ ihl ihr =>
      rw [Expr.textAt]
      obtain ⟨hpos, hleft⟩ := leftTightness_le hop
      have hlt := operatorTightness_lt hop
      have hl := ihl hleft
      have hr := @ihr (operatorTightness op + 1) (Nat.le_trans hlt (by decide))
      rw [Nat.max_eq_left hpos] at hl
      rw [Nat.max_eq_left (Nat.le_add_left 1 _)] at hr
      exact (Printed.binary hop hl hr).parenthesizedIf hop (Nat.le_trans (Nat.le_of_lt hlt) (by decide)) hleast (by simp)
  | unary hop _ ih =>
      rw [Expr.textAt]
      exact (Printed.unary hop (@ih Tightness.unary (by decide))).parenthesizedIf (by decide) (by decide) hleast (by simp)
  | index _ _ ih ihkey =>
      rw [Expr.textAt]
      exact ((ih (Nat.le_refl _)).index (ihkey (Nat.zero_le _))).parenthesizedIf (by decide) (Nat.le_refl _) hleast
        (by simp)
  | tuple _ ih =>
      exact (printed_tuple depth least fun e he => ih e he (Nat.zero_le _)).loosen (Nat.le_refl _)
        (Nat.le_max_right _ _) (Nat.max_le.mpr ⟨hleast, by decide⟩)
  | array _ ih =>
      rw [Expr.textAt]
      exact (printedList depth fun e he => ih e he (Nat.zero_le _)).array.loosen (Nat.le_refl _)
        (Nat.le_max_right _ _) (Nat.max_le.mpr ⟨hleast, by decide⟩)
  | cast _ htype ih =>
      rw [Expr.textAt]
      exact (Printed.cast (@ih Tightness.cast (by decide)) htype).parenthesizedIf (by decide) (by decide) hleast (by simp)
  | tryOp _ ih =>
      rw [Expr.textAt]
      exact (ih (Nat.le_refl _)).tryOp.parenthesizedIf (by decide) (Nat.le_refl _) hleast (by simp)

-- The text of an expression denotes that expression.
theorem Expr.parse?_text (h : e.Readable) : Expr.parse? e.text = some e := by
  obtain ⟨ts, hlex, -, hgroups⟩ := h.printed 0 (Nat.zero_le _)
  have htokens := hlex [] trivial
  have hread := expression_append hgroups (Nat.le_refl _) stop_nil
  rw [List.append_nil] at htokens hread
  rw [Expr.parse?, Expr.text, htokens, lex, Option.map_some, List.append_nil, Option.bind_some, hread]

theorem Expr.parse?_text_nested :
    let a := Expr.ident "a"
    let e := Expr.binary "*" (.cast (.unary "-" (.binary "-" a (.ident "Self::b"))) "u128")
      (.tryOp (.methodCall (.unary "&" (.unary "&" a)) "get" [.tuple [.lit "1u8"], .binary "==" (.binary "<" a a) a]))
    e.text = "-(a - Self::b) as u128 * (&&a).get((1u8,), (a < a) == a)?" ∧ Expr.parse? e.text = some e := by
  have ha : (Expr.ident "a").Readable := .ident (.name rfl)
  have hb : IsPath "Self::b" := .cons (a := "Self") (b := "b") rfl (.name rfl)
  have hargs : ∀ e ∈ [Expr.tuple [.lit "1u8"], .binary "==" (.binary "<" (.ident "a") (.ident "a")) (.ident "a")],
      e.Readable := by
    simp only [List.forall_mem_cons, List.not_mem_nil, false_implies, implies_true, and_true]
    exact ⟨.tuple (by simpa using .lit rfl), .binary (by decide) (.binary (by decide) ha ha) ha⟩
  refine ⟨rfl, Expr.parse?_text ?_⟩
  exact .binary (by decide) (.cast (.unary (by decide) (.binary (by decide) ha (.ident hb))) (.name rfl))
    (.tryOp (.methodCall (.unary (by decide) (.unary (by decide) ha)) rfl hargs))

end RustContracts.Rust
