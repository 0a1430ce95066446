import RustContracts.Proofs.Rust.Token
import RustContracts.Rust.Print

-- The grammar of Rust's operators: how tokens group to an expression.
namespace RustContracts.Rust

namespace Grammar

-- What takes an expression off the front of tokens.
abbrev Reader := List Token → Option (Expr × List Token)

-- A name or path.
def path : List Token → Option (String × List Token)
  | .name a :: .punct "::" :: ts => (path ts).map fun (b, rest) => (a ++ "::" ++ b, rest)
  | .name a :: ts => some (a, ts)
  | _ => none

-- Expressions up to a closing bracket, with commas between them.
def items (inner : Reader) (close : String) (ts : List Token) : Option (List Expr × List Token) :=
  if ts.head? = some (.punct close) then some ([], ts.tail)
  else
    match inner ts with
    | some (x, .punct p :: rest) =>
      if p = close then some ([x], rest)
      else if p = "," ∧ rest.length < ts.length then
        (items inner close rest).map fun (xs, rest) => (x :: xs, rest)
      else none
    | _ => none
termination_by ts.length

-- Behind an opening parenthesis: a tuple has a comma or no element at all.
def grouped (inner : Reader) (ts : List Token) : Option (Expr × List Token) :=
  if ts.head? = some (.punct ")") then some (.tuple [], ts.tail)
  else
    match inner ts with
    | some (x, .punct p :: rest) =>
      if p = ")" then some (x, rest)
      else if p = "," then (items inner ")" rest).map fun (xs, rest) => (.tuple (x :: xs), rest)
      else none
    | _ => none

def primary (inner : Reader) : Reader
  | .literal text :: ts => some (.lit text, ts)
  | .punct "(" :: ts => grouped inner ts
  | .punct "[" :: ts => (items inner "]" ts).map fun (xs, rest) => (.array xs, rest)
  | ts => (path ts).map fun (name, rest) => (.ident name, rest)

-- Fields, calls, elements and `?` behind an expression.
def trailing (inner : Reader) (x : Expr) : Reader
  | .punct "." :: .name member :: .punct "(" :: ts =>
    match items inner ")" ts with
    | some (args, rest) =>
      if rest.length ≤ ts.length then trailing inner (.methodCall x member args) rest else none
    | none => none
  | .punct "." :: .name member :: ts => trailing inner (.field x member) ts
  | .punct "(" :: ts =>
    match items inner ")" ts with
    | some (args, rest) => if rest.length ≤ ts.length then trailing inner (.call x args) rest else none
    | none => none
  | .punct "[" :: ts =>
    match inner ts with
    | some (key, .punct p :: rest) =>
      if p = "]" ∧ rest.length ≤ ts.length then trailing inner (.index x key) rest else none
    | _ => none
  | .punct "?" :: ts => trailing inner (.tryOp x) ts
  | ts => some (x, ts)
termination_by ts => ts.length

def operand (inner : Reader) : Reader := fun ts =>
  (primary inner ts).bind fun (x, rest) => trailing inner x rest

-- Operators in front; `&&` stands for two of them here.
def unary (inner : Reader) : Reader
  | .punct op :: ts =>
    if op ∈ ["!", "-", "*", "&"] then (unary inner ts).map fun (x, rest) => (.unary op x, rest)
    else if op = "&&" then (unary inner ts).map fun (x, rest) => (.unary "&" (.unary "&" x), rest)
    else operand inner (.punct op :: ts)
  | ts => operand inner ts

-- Conversions; types are names or paths.
def casts (x : Expr) : Reader
  | .keyword "as" :: ts =>
    match path ts with
    | some (type, rest) => if rest.length ≤ ts.length then casts (.cast x type) rest else none
    | none => none
  | ts => some (x, ts)
termination_by ts => ts.length

-- Binary operators behind a left operand, from the left to the right.
def chain (ops : List String) (right : Reader) (x : Expr) : Reader
  | .punct op :: ts =>
    if op ∈ ops then
      match right ts with
      | some (y, rest) => if rest.length ≤ ts.length then chain ops right (.binary op x y) rest else none
      | none => none
    else some (x, .punct op :: ts)
  | ts => some (x, ts)
termination_by ts => ts.length

-- At most one binary operator.
def once (ops : List String) (right : Reader) (x : Expr) : Reader
  | .punct op :: ts =>
    if op ∈ ops then (right ts).map fun (y, rest) => (.binary op x y, rest) else some (x, .punct op :: ts)
  | ts => some (x, ts)

inductive Grouping where
  | left
  | none
deriving DecidableEq

-- The binary operators from the loosest to the tightest.
def rows : List (Grouping × List String) :=
  [(.left, ["||"]), (.left, ["&&"]), (.none, ["==", "!=", "<", "<=", ">", ">="]), (.left, ["|"]), (.left, ["^"]),
   (.left, ["&"]), (.left, ["<<", ">>"]), (.left, ["+", "-"]), (.left, ["*", "/", "%"])]

-- Expressions of the operators of some rows; operands are expressions of the rows below.
def ofRows (inner : Reader) : List (Grouping × List String) → Reader
  | [] => fun ts => (unary inner ts).bind fun (x, rest) => casts x rest
  | (.left, ops) :: below => fun ts =>
    (ofRows inner below ts).bind fun (x, rest) => chain ops (ofRows inner below) x rest
  | (.none, ops) :: below => fun ts =>
    (ofRows inner below ts).bind fun (x, rest) => once ops (ofRows inner below) x rest

-- Expressions with brackets nested no deeper than `depth`.
def expression : Nat → Reader
  | 0 => fun _ => none
  | depth + 1 => ofRows (expression depth) rows


-- Reading by tightness: what an operand of the tightness `t` is read by, and how reading goes on behind its front.

def readerAt (inner : Reader) (t : Nat) : Reader :=
  if t = Tightness.trailing then operand inner
  else if t = Tightness.unary then unary inner
  else ofRows inner (rows.drop (t - 1))

def continueAt (inner : Reader) (t : Nat) (x : Expr) : Reader :=
  if t = Tightness.trailing then trailing inner x
  else if t = Tightness.unary then fun rest => some (x, rest)
  else
    match rows[t - 1]? with
    | some (.left, ops) => chain ops (readerAt inner (t + 1)) x
    | some (.none, ops) => once ops (readerAt inner (t + 1)) x
    | none => casts x

-- `a.b(c) + 1`.
example : expression 2 [.name "a", .punct ".", .name "b", .punct "(", .name "c", .punct ")", .punct "+", .literal "1"] =
    some (.binary "+" (.methodCall (.ident "a") "b" [.ident "c"]) (.lit "1"), []) := by
  cbv

-- How tightly a token holds to what is in front of it. A parenthesis behind a member takes it for the name of a
-- method.
def hold : Token → Nat
  | .punct "::" => Tightness.atom + 1
  | .punct "(" => Tightness.atom
  | .punct "." | .punct "[" | .punct "?" => Tightness.trailing
  | .keyword "as" => Tightness.cast
  | .punct op => operatorTightness op
  | _ => 0

-- No token of the tightness `t` or more comes next.
def Stop (t : Nat) (rest : List Token) : Prop := ∀ token ∈ rest.head?, hold token < t

variable {inner : Reader} {d s t : Nat} {x e : Expr} {ts rest : List Token}

theorem Stop.mono (h : Stop s rest) (hle : s ≤ t) : Stop t rest := fun token htoken =>
  Nat.lt_of_lt_of_le (h token htoken) hle

theorem stop_nil : Stop t [] := fun _ htoken => by cases htoken

theorem stop_cons {token : Token} (h : hold token < t) (rest : List Token) : Stop t (token :: rest) := by
  rintro _ ⟨⟩
  exact h

-- The table.

theorem mem_operators {op : String} (hop : 0 < operatorTightness op) : op ∈ rows.flatMap (·.2) := by
  unfold operatorTightness at hop
  split at hop <;> first | decide | exact absurd hop (by decide)

theorem mem_rows {op : String} (hop : 0 < operatorTightness op) :
    ∃ ops, op ∈ ops ∧ rows[operatorTightness op - 1]? =
      some (if operatorTightness op = Tightness.compare then .none else .left, ops) := by
  have hall : ∀ op ∈ rows.flatMap (·.2), ∃ ops ∈ rows.map (·.2), op ∈ ops ∧ rows[operatorTightness op - 1]? =
      some (if operatorTightness op = Tightness.compare then .none else .left, ops) := by decide
  obtain ⟨ops, -, hmem, hrow⟩ := hall op (mem_operators hop)
  exact ⟨ops, hmem, hrow⟩

theorem hold_of_mem_rows {row : Grouping × List String} {i : Nat} (hrow : rows[i]? = some row) {op : String}
    (hop : op ∈ row.2) : hold (.punct op) = i + 1 := by
  have hall : ∀ i < rows.length, ∀ row ∈ rows[i]?, ∀ op ∈ row.2, hold (.punct op) = i + 1 := by decide
  exact hall i (List.getElem?_eq_some_iff.mp hrow).1 row hrow op hop

-- Reading stops where no token holds tightly enough.

theorem path_stop {a : String} (h : Stop (Tightness.atom + 1) rest) : path (.name a :: rest) = some (a, rest) := by
  unfold path
  split
  · next heq =>
      obtain ⟨-, rfl⟩ := List.cons.inj heq
      exact absurd (h _ rfl) (by decide)
  · next heq =>
      obtain ⟨ha, rfl⟩ := List.cons.inj heq
      rw [Token.name.inj ha]
  · next hname => exact absurd rfl (hname a rest)

theorem trailing_stop (h : Stop Tightness.trailing rest) : trailing inner x rest = some (x, rest) := by
  unfold trailing
  split
  · exact absurd (h _ rfl) (by decide)
  · exact absurd (h _ rfl) (by decide)
  · exact absurd (h _ rfl) (by decide)
  · exact absurd (h _ rfl) (by decide)
  · exact absurd (h _ rfl) (by decide)
  · rfl

theorem casts_stop (h : Stop Tightness.cast rest) : casts x rest = some (x, rest) := by
  unfold casts
  split
  · exact absurd (h _ rfl) (by decide)
  · rfl

theorem chain_stop {ops : List String} {right : Reader} (hops : ∀ op ∈ ops, hold (.punct op) = t) (h : Stop t rest) :
    chain ops right x rest = some (x, rest) := by
  unfold chain
  split
  · next op ts =>
      have hop : op ∉ ops := fun hop => absurd (h _ rfl) (by simp [hops op hop])
      rw [if_neg hop]
  · rfl

theorem once_stop {ops : List String} {right : Reader} (hops : ∀ op ∈ ops, hold (.punct op) = t) (h : Stop t rest) :
    once ops right x rest = some (x, rest) := by
  unfold once
  split
  · next op ts =>
      have hop : op ∉ ops := fun hop => absurd (h _ rfl) (by simp [hops op hop])
      rw [if_neg hop]
  · rfl

theorem continueAt_stop (hpos : 1 ≤ t) (hle : t ≤ Tightness.trailing) (h : Stop t rest) :
    continueAt inner t x rest = some (x, rest) := by
  unfold continueAt
  split
  · next ht =>
      subst ht
      exact trailing_stop h
  · split
    · rfl
    · next htrailing hunary =>
        have hhold {row : Grouping × List String} (hrow : rows[t - 1]? = some row) :
            ∀ op ∈ row.2, hold (.punct op) = t := fun op hop => by
          rw [hold_of_mem_rows hrow hop, Nat.sub_add_cancel hpos]
        match hrow : rows[t - 1]? with
        | some (.left, ops) => exact chain_stop (hhold hrow) h
        | some (.none, ops) => exact once_stop (hhold hrow) h
        | none =>
            have hcast : t ≤ Tightness.cast := by
              simp only [Tightness.trailing, Tightness.unary, Tightness.cast] at *
              omega
            exact casts_stop (h.mono hcast)

-- From one tightness to the next looser one.

theorem readerAt_step (hpos : 1 ≤ t) (hle : t ≤ Tightness.cast) (ts : List Token) :
    readerAt inner t ts = (readerAt inner (t + 1) ts).bind fun (x, rest) => continueAt inner t x rest := by
  match t with
  | 0 => cases hpos
  | 1 | 2 | 3 | 4 | 5 | 6 | 7 | 8 | 9 | 10 => rfl
  | t + 11 => exact absurd hle (by simp [Tightness.cast])

theorem unary_of_operand {r : Expr × List Token} (h : operand inner ts = some r) : unary inner ts = some r := by
  unfold unary
  split
  · next op ts =>
      have hprimary : primary inner (.punct op :: ts) ≠ none := fun hnone => by
        rw [operand, hnone] at h
        cases h
      split
      · next hop =>
          simp only [List.mem_cons, List.not_mem_nil, or_false] at hop
          rcases hop with rfl | rfl | rfl | rfl <;> exact absurd rfl hprimary
      · split
        · next hop =>
            subst hop
            exact absurd rfl hprimary
        · exact h
  · exact h

-- An expression whose tokens are `ts`: it is read whole in front of what holds more loosely than `t`, and it can be
-- the left operand of what holds just as tightly. Comparisons have no such left operand.
structure Groups (t : Nat) (ts : List Token) (e : Expr) : Prop where
  whole : ∀ d, ts.length ≤ d + 1 → ∀ rest, Stop t rest → readerAt (expression d) t (ts ++ rest) = some (e, rest)
  ready : t ≠ Tightness.compare → ∀ d, ts.length ≤ d + 1 → ∀ rest, Stop (t + 1) rest →
    readerAt (expression d) t (ts ++ rest) = continueAt (expression d) t e rest

theorem Groups.of_ready (hpos : 1 ≤ t) (hle : t ≤ Tightness.trailing)
    (h : ∀ d, ts.length ≤ d + 1 → ∀ rest, Stop (t + 1) rest →
      readerAt (expression d) t (ts ++ rest) = continueAt (expression d) t e rest) : Groups t ts e where
  whole d hd rest hstop := by
    rw [h d hd rest (hstop.mono (Nat.le_succ t)), continueAt_stop hpos hle hstop]
  ready _ := h

theorem Groups.loosen_step (h : Groups (t + 1) ts e) (hpos : 1 ≤ t) (hle : t < Tightness.trailing) : Groups t ts e := by
  refine .of_ready hpos (Nat.le_of_lt hle) fun d hd rest hstop => ?_
  have hwhole := h.whole d hd rest hstop
  by_cases hcast : t ≤ Tightness.cast
  · rw [readerAt_step hpos hcast, hwhole, Option.bind_some]
  · obtain rfl : t = Tightness.unary := by
      simp only [Tightness.trailing, Tightness.unary, Tightness.cast] at *
      omega
    exact unary_of_operand hwhole

theorem Groups.loosen (h : Groups s ts e) (hs : s ≤ Tightness.trailing) (hpos : 1 ≤ t) (hle : t ≤ s) :
    Groups t ts e := by
  induction hle with
  | refl => exact h
  | step hle ih => exact ih (h.loosen_step (Nat.le_trans hpos hle) hs) (Nat.le_of_succ_le hs)

-- Inside brackets.

theorem expression_append (h : Groups 1 ts e) (hd : ts.length ≤ d) (hstop : Stop 1 rest) :
    expression d (ts ++ rest) = some (e, rest) := by
  cases d with
  | zero =>
      obtain rfl := List.eq_nil_of_length_eq_zero (Nat.le_zero.mp hd)
      have hnone : readerAt (expression 0) 1 [] = none := rfl
      cases hnone.symm.trans (h.whole 0 (Nat.zero_le _) [] stop_nil)
  | succ d => exact h.whole d hd rest hstop

theorem ofRows_eq_none (h : unary inner ts = none) (below : List (Grouping × List String)) :
    ofRows inner below ts = none := by
  induction below with
  | nil => simp only [ofRows, h, Option.bind_none]
  | cons row below ih =>
      obtain ⟨_ | _, ops⟩ := row <;> simp only [ofRows, ih, Option.bind_none]

theorem head_ne_close {close : String} (hclose : close = ")" ∨ close = "]") {r : Expr × List Token}
    (h : expression d ts = some r) : ts.head? ≠ some (.punct close) := by
  intro hhead
  obtain ⟨more, rfl⟩ := List.head?_eq_some_iff.mp hhead
  cases d with
  | zero => cases h
  | succ d =>
      have hnone : unary (expression d) (.punct close :: more) = none := by
        rcases hclose with rfl | rfl <;> rfl
      rw [expression, ofRows_eq_none hnone] at h
      cases h

-- Expressions with commas between them, and perhaps one behind the last.
def Lists (ts : List Token) (es : List Expr) : Prop :=
  ∀ d, ts.length ≤ d → ∀ close, close = ")" ∨ close = "]" → ∀ rest,
    items (expression d) close (ts ++ .punct close :: rest) = some (es, rest)

theorem stop_close {close : String} (hclose : close = ")" ∨ close = "]") (rest : List Token) :
    Stop 1 (.punct close :: rest) := by
  rcases hclose with rfl | rfl <;> exact stop_cons (by decide) rest

theorem stop_comma (rest : List Token) : Stop 1 (.punct "," :: rest) := stop_cons (by decide) rest

theorem lists_nil : Lists [] [] := by
  intro d _ close _ rest
  rw [items]
  exact if_pos rfl

theorem lists_singleton (h : Groups 1 ts e) : Lists ts [e] := by
  intro d hd close hclose rest
  have hread := expression_append h hd (stop_close hclose rest)
  rw [items, if_neg (head_ne_close hclose hread), hread]
  exact if_pos rfl

theorem lists_cons (h : Groups 1 ts e) {ts' : List Token} {es : List Expr} (hes : Lists ts' es) :
    Lists (ts ++ .punct "," :: ts') (e :: es) := by
  intro d hd close hclose rest
  rw [List.length_append, List.length_cons] at hd
  have hread := expression_append h (d := d) (by omega) (stop_comma (ts' ++ .punct close :: rest))
  have hcomma : "," ≠ close := by rcases hclose with rfl | rfl <;> decide
  rw [List.append_assoc, List.cons_append, items, if_neg (head_ne_close hclose hread), hread]
  dsimp only
  rw [if_neg hcomma, if_pos ⟨rfl, by simp only [List.length_append, List.length_cons]; omega⟩,
    hes d (by omega) close hclose, Option.map_some]

theorem groups_parenthesized (h : Groups 1 ts e) : Groups Tightness.trailing (.punct "(" :: (ts ++ [.punct ")"])) e := by
  refine .of_ready (by decide) (Nat.le_refl _) fun d hd rest _ => ?_
  simp only [List.length_cons, List.length_append, List.length_nil] at hd
  have hread := expression_append h (d := d) (by omega) (stop_close (.inl rfl) rest)
  have hgrouped : grouped (expression d) (ts ++ .punct ")" :: rest) = some (e, rest) := by
    rw [grouped, if_neg (head_ne_close (.inl rfl) hread), hread]
    exact if_pos rfl
  rw [List.cons_append, List.append_assoc, List.singleton_append]
  change (grouped (expression d) (ts ++ .punct ")" :: rest)).bind _ = _
  rw [hgrouped, Option.bind_some]
  rfl

theorem groups_unit : Groups Tightness.trailing [.punct "(", .punct ")"] (.tuple []) :=
  .of_ready (by decide) (Nat.le_refl _) fun _ _ _ _ => rfl

theorem groups_tuple (h : Groups 1 ts e) {ts' : List Token} {es : List Expr} (hes : Lists ts' es) :
    Groups Tightness.trailing (.punct "(" :: (ts ++ .punct "," :: (ts' ++ [.punct ")"]))) (.tuple (e :: es)) := by
  refine .of_ready (by decide) (Nat.le_refl _) fun d hd rest _ => ?_
  simp only [List.length_cons, List.length_append, List.length_nil] at hd
  have hread := expression_append h (d := d) (by omega) (stop_comma (ts' ++ .punct ")" :: rest))
  have hgrouped : grouped (expression d) (ts ++ .punct "," :: (ts' ++ .punct ")" :: rest)) =
      some (.tuple (e :: es), rest) := by
    rw [grouped, if_neg (head_ne_close (.inl rfl) hread), hread]
    dsimp only
    rw [if_neg (by decide), if_pos rfl, hes d (by omega) ")" (.inl rfl), Option.map_some]
  rw [List.cons_append, List.append_assoc, List.cons_append, List.append_assoc, List.singleton_append]
  change (grouped (expression d) (ts ++ .punct "," :: (ts' ++ .punct ")" :: rest))).bind _ = _
  rw [hgrouped, Option.bind_some]
  rfl

theorem groups_array {es : List Expr} (hes : Lists ts es) :
    Groups Tightness.trailing (.punct "[" :: (ts ++ [.punct "]"])) (.array es) := by
  refine .of_ready (by decide) (Nat.le_refl _) fun d hd rest _ => ?_
  simp only [List.length_cons, List.length_append, List.length_nil] at hd
  rw [List.cons_append, List.append_assoc, List.singleton_append]
  change ((items (expression d) "]" (ts ++ .punct "]" :: rest)).map _).bind _ = _
  rw [hes d (by omega) "]" (.inr rfl), Option.map_some, Option.bind_some]
  rfl

-- Names, paths and literals.

-- The tokens of a path.
def Names (ts : List Token) (name : String) : Prop :=
  ∀ rest, Stop (Tightness.atom + 1) rest → path (ts ++ rest) = some (name, rest)

theorem names_singleton (a : String) : Names [.name a] a := fun _ hstop => path_stop hstop

theorem names_cons {a b : String} (h : Names ts b) : Names (.name a :: .punct "::" :: ts) (a ++ "::" ++ b) := by
  intro rest hstop
  rw [List.cons_append, List.cons_append, path, h rest hstop, Option.map_some]

theorem operand_path {name : String} (h : path ts = some (name, rest)) :
    operand inner ts = trailing inner (.ident name) rest := by
  have hprimary : primary inner ts = some (.ident name, rest) := by
    unfold primary
    split
    · cases h
    · cases h
    · cases h
    · rw [h, Option.map_some]
  rw [operand, hprimary, Option.bind_some]

theorem groups_path {name : String} (h : Names ts name) : Groups Tightness.trailing ts (.ident name) :=
  .of_ready (by decide) (Nat.le_refl _) fun _ _ rest hstop =>
    operand_path (h rest (hstop.mono (Nat.le_succ _)))

theorem groups_literal (text : String) : Groups Tightness.trailing [.literal text] (.lit text) :=
  .of_ready (by decide) (Nat.le_refl _) fun _ _ _ _ => rfl

-- What stands behind an operand.

theorem length_le_behind (ts : List Token) (token : Token) (rest : List Token) :
    rest.length ≤ (ts ++ token :: rest).length := by
  rw [List.length_append, List.length_cons]
  omega

theorem trailing_field (h : Stop Tightness.atom rest) (name : String) :
    trailing inner x (.punct "." :: .name name :: rest) = trailing inner (.field x name) rest := by
  rw [trailing]
  rintro ts rfl
  exact absurd (h _ rfl) (by decide)

theorem trailing_method {args : List Expr} (h : items inner ")" ts = some (args, rest))
    (hlength : rest.length ≤ ts.length) (name : String) :
    trailing inner x (.punct "." :: .name name :: .punct "(" :: ts) =
      trailing inner (.methodCall x name args) rest := by
  rw [trailing, h]
  exact if_pos hlength

theorem trailing_call {args : List Expr} (h : items inner ")" ts = some (args, rest))
    (hlength : rest.length ≤ ts.length) :
    trailing inner x (.punct "(" :: ts) = trailing inner (.call x args) rest := by
  rw [trailing, h]
  exact if_pos hlength

theorem trailing_index {key : Expr} (h : inner ts = some (key, .punct "]" :: rest))
    (hlength : rest.length ≤ ts.length) :
    trailing inner x (.punct "[" :: ts) = trailing inner (.index x key) rest := by
  rw [trailing, h]
  exact if_pos ⟨rfl, hlength⟩

theorem trailing_try : trailing inner x (.punct "?" :: ts) = trailing inner (.tryOp x) ts := by
  rw [trailing]

theorem Groups.behind (h : Groups Tightness.trailing ts x) {more : List Token}
    (hstop : ∀ rest, Stop Tightness.atom (more ++ rest))
    (hmore : ∀ d, more.length ≤ d + 1 → ∀ rest, Stop Tightness.atom rest →
      trailing (expression d) x (more ++ rest) = trailing (expression d) e rest) :
    Groups Tightness.trailing (ts ++ more) e := by
  refine .of_ready (by decide) (Nat.le_refl _) fun d hd rest hrest => ?_
  rw [List.length_append] at hd
  calc readerAt (expression d) Tightness.trailing ((ts ++ more) ++ rest)
      = trailing (expression d) x (more ++ rest) := by
        rw [List.append_assoc]
        exact h.ready (by decide) d (by omega) (more ++ rest) (hstop rest)
    _ = trailing (expression d) e rest := hmore d (by omega) rest hrest

theorem Groups.field (h : Groups Tightness.trailing ts x) (name : String) :
    Groups Tightness.trailing (ts ++ [.punct ".", .name name]) (.field x name) :=
  h.behind (fun _ => stop_cons (by decide) _) fun _ _ _ hrest => trailing_field hrest name

theorem Groups.methodCall (h : Groups Tightness.trailing ts x) (name : String) {ts' : List Token} {args : List Expr}
    (hargs : Lists ts' args) :
    Groups Tightness.trailing (ts ++ .punct "." :: .name name :: .punct "(" :: (ts' ++ [.punct ")"]))
      (.methodCall x name args) := by
  refine h.behind (fun _ => stop_cons (by decide) _) fun d hd rest _ => ?_
  simp only [List.length_cons, List.length_append, List.length_nil] at hd
  simp only [List.cons_append, List.append_assoc, List.nil_append]
  exact trailing_method (hargs d (by omega) ")" (.inl rfl) rest) (length_le_behind _ _ _) name

theorem Groups.index (h : Groups Tightness.trailing ts x) {ts' : List Token} {key : Expr} (hkey : Groups 1 ts' key) :
    Groups Tightness.trailing (ts ++ .punct "[" :: (ts' ++ [.punct "]"])) (.index x key) := by
  refine h.behind (fun _ => stop_cons (by decide) _) fun d hd rest _ => ?_
  simp only [List.length_cons, List.length_append, List.length_nil] at hd
  simp only [List.cons_append, List.append_assoc, List.nil_append]
  exact trailing_index (expression_append hkey (by omega) (stop_close (.inr rfl) rest)) (length_le_behind _ _ _)

theorem Groups.tryOp (h : Groups Tightness.trailing ts x) :
    Groups Tightness.trailing (ts ++ [.punct "?"]) (.tryOp x) :=
  h.behind (fun _ => stop_cons (by decide) _) fun _ _ _ _ => trailing_try

theorem groups_call {name : String} (h : Names ts name) {ts' : List Token} {args : List Expr} (hargs : Lists ts' args) :
    Groups Tightness.trailing (ts ++ .punct "(" :: (ts' ++ [.punct ")"])) (.call (.ident name) args) := by
  refine .of_ready (by decide) (Nat.le_refl _) fun d hd rest _ => ?_
  simp only [List.length_cons, List.length_append, List.length_nil] at hd
  simp only [List.cons_append, List.append_assoc, List.nil_append]
  have hpath : path (ts ++ .punct "(" :: (ts' ++ .punct ")" :: rest)) = some (name, _) := h _ (stop_cons (by decide) _)
  exact (operand_path hpath).trans (trailing_call (hargs d (by omega) ")" (.inl rfl) rest) (length_le_behind _ _ _))

-- Operators.

theorem Groups.unary {op : String} (hop : op ∈ ["!", "-", "*", "&"]) (h : Groups Tightness.unary ts x) :
    Groups Tightness.unary (.punct op :: ts) (.unary op x) := by
  refine .of_ready (by decide) (by decide) fun d hd rest hstop => ?_
  have hread : Grammar.unary (expression d) (ts ++ rest) = some (x, rest) :=
    h.ready (by decide) d (Nat.le_of_succ_le hd) rest hstop
  change Grammar.unary (expression d) (.punct op :: (ts ++ rest)) = some (.unary op x, rest)
  rw [Grammar.unary, if_pos hop, hread, Option.map_some]

theorem length_le_length_borrowed (ts : List Token) : ts.length ≤ (Token.borrowed ts).length := by
  fun_induction Token.borrowed ts with
  | case1 ts ih => exact Nat.succ_le_succ ih
  | case2 ts => exact Nat.le_refl _
  | case3 ts => exact Nat.le_succ _

-- One more `&` in front is one more borrow, also where it makes one token with the next.
theorem unary_borrowed (ts rest : List Token) : unary inner (Token.borrowed ts ++ rest) =
    (unary inner (ts ++ rest)).map fun (x, rest) => (.unary "&" x, rest) := by
  fun_induction Token.borrowed ts with
  | case1 ts ih =>
      simp only [List.cons_append]
      rw [unary, if_neg (by decide), if_pos rfl, ih, unary, if_neg (by decide), if_pos rfl]
      simp only [Option.map_map]
      rfl
  | case2 ts =>
      simp only [List.cons_append]
      rw [unary, if_neg (by decide), if_pos rfl, unary, if_pos (by decide), Option.map_map]
      rfl
  | case3 ts =>
      rw [List.cons_append, unary, if_pos (by decide)]

theorem Groups.borrow (h : Groups Tightness.unary ts x) : Groups Tightness.unary (Token.borrowed ts) (.unary "&" x) := by
  refine .of_ready (by decide) (by decide) fun d hd rest hstop => ?_
  have hread : Grammar.unary (expression d) (ts ++ rest) = some (x, rest) :=
    h.ready (by decide) d (Nat.le_trans (length_le_length_borrowed ts) hd) rest hstop
  change Grammar.unary (expression d) (Token.borrowed ts ++ rest) = some (.unary "&" x, rest)
  rw [unary_borrowed, hread, Option.map_some]

theorem unary_eq_none (h : ∀ token ∈ ts, token = .punct "&&") : unary inner ts = none := by
  induction ts with
  | nil => rfl
  | cons token ts ih =>
      rw [h token List.mem_cons_self, unary, if_neg (by decide), if_pos rfl,
        ih fun token htoken => h token (List.mem_cons_of_mem _ htoken), Option.map_none]

-- There is an operand behind the operators.
theorem Groups.exists_operand (h : Groups Tightness.unary ts x) : ∃ token ∈ ts, token ≠ .punct "&&" := by
  refine Classical.byContradiction fun hall => ?_
  have hborrows : ∀ token ∈ ts ++ [], token = .punct "&&" := fun token htoken =>
    Classical.byContradiction fun hne => hall ⟨token, by simpa using htoken, hne⟩
  cases (unary_eq_none hborrows).symm.trans (h.whole ts.length (Nat.le_succ _) [] stop_nil)

theorem Groups.cast (h : Groups Tightness.cast ts x) {ts' : List Token} {type : String} (htype : Names ts' type) :
    Groups Tightness.cast (ts ++ .keyword "as" :: ts') (.cast x type) := by
  refine .of_ready (by decide) (by decide) fun d hd rest hstop => ?_
  rw [List.length_append] at hd
  calc readerAt (expression d) Tightness.cast ((ts ++ .keyword "as" :: ts') ++ rest)
      = casts x (.keyword "as" :: (ts' ++ rest)) := by
        rw [List.append_assoc]
        exact h.ready (by decide) d (by omega) _ (stop_cons (by decide) _)
    _ = casts (.cast x type) rest := by
        rw [casts, htype rest (hstop.mono (by decide))]
        exact if_pos (by simp)

theorem hold_operator {op : String} (hop : 0 < operatorTightness op) : hold (.punct op) = operatorTightness op := by
  obtain ⟨ops, hmem, hrow⟩ := mem_rows hop
  rw [hold_of_mem_rows hrow hmem, Nat.sub_add_cancel hop]

theorem operatorTightness_lt {op : String} (hop : 0 < operatorTightness op) :
    operatorTightness op < Tightness.cast := by
  obtain ⟨ops, -, hrow⟩ := mem_rows hop
  have hlt : operatorTightness op - 1 < 9 := (List.getElem?_eq_some_iff.mp hrow).1
  simp only [Tightness.cast]
  omega

theorem continueAt_compare {op : String} (hop : operatorTightness op = Tightness.compare) {l r : Expr}
    (h : readerAt inner (Tightness.compare + 1) ts = some (r, rest)) :
    continueAt inner Tightness.compare l (.punct op :: ts) = some (.binary op l r, rest) := by
  have hpos : 0 < operatorTightness op := by
    rw [hop]
    decide
  obtain ⟨ops, hmem, hrow⟩ := mem_rows hpos
  rw [if_pos hop, hop] at hrow
  rw [continueAt, if_neg (by decide), if_neg (by decide), hrow]
  dsimp only
  rw [once, if_pos hmem, h, Option.map_some]

theorem continueAt_chain {op : String} (hop : 0 < operatorTightness op)
    (hne : operatorTightness op ≠ Tightness.compare) {l r : Expr}
    (h : readerAt inner (operatorTightness op + 1) ts = some (r, rest)) (hlength : rest.length ≤ ts.length) :
    continueAt inner (operatorTightness op) l (.punct op :: ts) =
      continueAt inner (operatorTightness op) (.binary op l r) rest := by
  obtain ⟨ops, hmem, hrow⟩ := mem_rows hop
  have hlt := operatorTightness_lt hop
  rw [if_neg hne] at hrow
  simp only [Tightness.cast] at hlt
  unfold continueAt
  rw [if_neg (by simp only [Tightness.trailing]; omega), if_neg (by simp only [Tightness.unary]; omega),
    if_neg (by simp only [Tightness.trailing]; omega), if_neg (by simp only [Tightness.unary]; omega), hrow]
  dsimp only
  rw [chain, if_pos hmem, h]
  exact if_pos hlength

-- A comparison reads its left operand whole; every other operator goes on behind what was read so far.
theorem Groups.binary {op : String} (hop : 0 < operatorTightness op) {l r : Expr} {tl tr : List Token}
    (hl : Groups (leftTightness op) tl l) (hr : Groups (operatorTightness op + 1) tr r) :
    Groups (operatorTightness op) (tl ++ .punct op :: tr) (.binary op l r) := by
  have hle := Nat.le_of_lt (operatorTightness_lt hop)
  have hstop (rest : List Token) : Stop (operatorTightness op + 1) (.punct op :: rest) :=
    stop_cons (by rw [hold_operator hop]; exact Nat.lt_succ_self _) rest
  rw [leftTightness] at hl
  by_cases hcompare : operatorTightness op = Tightness.compare
  · rw [if_pos hcompare] at hl
    rw [hcompare] at hl hr hstop ⊢
    refine ⟨fun d hd rest hrest => ?_, fun hne => absurd rfl hne⟩
    simp only [List.length_append, List.length_cons] at hd
    rw [List.append_assoc, List.cons_append, readerAt_step (by decide) (by decide), hl.whole d (by omega) _ (hstop _),
      Option.bind_some]
    exact continueAt_compare hcompare (hr.whole d (by omega) rest (hrest.mono (Nat.le_succ _)))
  · rw [if_neg hcompare] at hl
    refine .of_ready hop (Nat.le_trans hle (by decide)) fun d hd rest hrest => ?_
    simp only [List.length_append, List.length_cons] at hd
    rw [List.append_assoc, List.cons_append, hl.ready hcompare d (by omega) _ (hstop _)]
    exact continueAt_chain hop hcompare (hr.whole d (by omega) rest hrest) (by simp)

end Grammar

-- The expression that a text denotes; brackets nest no deeper than there are tokens.
def Expr.parse? (text : String) : Option Expr :=
  (lex text.toList).bind fun ts =>
    match Grammar.expression ts.length ts with
    | some (e, []) => some e
    | _ => none

end RustContracts.Rust
