import Mathlib.Data.List.Forall2
import RustContracts.Emit.Stmt

-- What a step of writing does: its outcome from a state, and the relation that it writes a result. Steps
-- that write expressions keep every name in scope and only count temporary variables up.
namespace RustContracts.Emit

open Program

variable {α β : Type} {E : Env} {s s' s'' : State}

-- What is written, or why nothing is, and the state behind it.
def outcome (act : Emit α) (E : Env) (s : State) : Except Stop α × State :=
  (act.run E).run.run s

def Writes (act : Emit α) (E : Env) (s : State) (a : α) (s' : State) : Prop :=
  outcome act E s = (.ok a, s')

@[simp] theorem outcome_pure (a : α) : outcome (pure a) E s = (.ok a, s) := rfl

@[simp] theorem outcome_throw (stop : Stop) :
    outcome (throw stop : Emit α) E s = (.error stop, s) := rfl

@[simp] theorem outcome_read : outcome read E s = (.ok E, s) := rfl

@[simp] theorem outcome_get : outcome get E s = (.ok s, s) := rfl

@[simp] theorem outcome_modify (f : State → State) : outcome (modify f) E s = (.ok (), f s) := rfl

theorem outcome_bind (x : Emit α) (f : α → Emit β) :
    outcome (x >>= f) E s =
      match outcome x E s with
      | (.ok a, s') => outcome (f a) E s'
      | (.error e, s') => (.error e, s') := by
  change ((x.run E >>= fun a => (f a).run E).run.run s) = _
  simp only [outcome, ExceptT.run_bind, StateT.run_bind]
  rcases h : (x.run E).run.run s with ⟨r, s'⟩
  cases r <;> rfl

theorem outcome_tryCatch (x : Emit α) (f : Stop → Emit α) :
    outcome (tryCatch x f) E s =
      match outcome x E s with
      | (.ok a, s') => (.ok a, s')
      | (.error e, s') => outcome (f e) E s' := by
  change ((tryCatch (x.run E) fun e => (f e).run E).run.run s) = _
  simp only [outcome, ExceptT.run_tryCatch, StateT.run_bind]
  rcases h : (x.run E).run.run s with ⟨r, s'⟩
  cases r <;> rfl

@[simp] theorem writes_pure {a b : α} : Writes (pure a) E s b s' ↔ a = b ∧ s = s' := by
  simp [Writes]

@[simp] theorem not_writes_throw {stop : Stop} {a : α} : ¬Writes (throw stop) E s a s' := by
  simp [Writes]

theorem writes_bind {x : Emit α} {f : α → Emit β} {b : β} :
    Writes (x >>= f) E s b s'' ↔ ∃ a s', Writes x E s a s' ∧ Writes (f a) E s' b s'' := by
  rw [Writes, outcome_bind]
  rcases h : outcome x E s with ⟨r, s'⟩
  constructor
  · intro hf
    cases r with
    | error e => cases hf
    | ok a => exact ⟨a, s', h, hf⟩
  · rintro ⟨a, t, hx, hf⟩
    obtain ⟨rfl, rfl⟩ := Prod.mk.inj (h.symm.trans hx)
    exact hf

theorem writes_read {e : Env} : Writes read E s e s' ↔ E = e ∧ s = s' := by
  simp [Writes]

theorem writes_modify {f : State → State} {u : Unit} : Writes (modify f) E s u s' ↔ f s = s' := by
  simp [Writes]

-- A text is written where it has an end.
theorem writes_ended {text? : Option String} {text : String} :
    Writes (Ink.ended text?) E s text s' ↔ text? = some text ∧ s = s' := by
  cases text? <;> simp [Ink.ended]

theorem writes_target {t : Target} : Writes target E s t s' ↔ E.target = t ∧ s = s' := by
  simp [Writes, show outcome target E s = (.ok E.target, s) from rfl]

-- What depends on the target is what the target at hand makes of it.
theorem writes_of_target {f : Target → Emit α} {a : α} :
    Writes (target >>= f) E s a s' ↔ Writes (f E.target) E s a s' := by
  simp only [writes_bind, writes_target]
  constructor
  · rintro ⟨_, _, ⟨rfl, rfl⟩, hw⟩
    exact hw
  · exact fun hw => ⟨_, _, ⟨rfl, rfl⟩, hw⟩

-- What is written for a list, item by item.
theorem writes_mapM {f : α → Emit β} {xs : List α} {ys : List β} (h : Writes (xs.mapM f) E s ys s') :
    List.Forall₂ (fun x y => ∃ t t', Writes (f x) E t y t') xs ys := by
  induction xs generalizing s s' ys with
  | nil =>
      obtain ⟨rfl, -⟩ := writes_pure.mp h
      exact .nil
  | cons x xs ih =>
      rw [List.mapM_cons] at h
      obtain ⟨y, s₁, hy, h⟩ := writes_bind.mp h
      obtain ⟨ys, s₂, hys, h⟩ := writes_bind.mp h
      obtain ⟨rfl, -⟩ := writes_pure.mp h
      exact .cons ⟨s, s₁, hy⟩ (ih hys)

theorem Writes.unique {act : Emit α} {a b : α} (h : Writes act E s a s')
    (h' : Writes act E s b s'') : a = b ∧ s' = s'' := by
  have := h.symm.trans h'
  simpa using this

-- The identifier that a variable of the source has.
def State.local? (s : State) (name : String) : Option String :=
  s.frame.scopes.findSome? fun scope => scope.locals.lookup name

theorem writes_local? {name : String} {o : Option String} :
    Writes (local? name) E s o s' ↔ s.local? name = o ∧ s = s' := by
  simp [Writes, show outcome (local? name) E s = (.ok (s.local? name), s) from rfl]

theorem local_declare {n ident : String} {u : Unit} (hw : Writes (declare n ident) E s u s') (name : String) :
    s'.local? name = if name = n then some ident else s.local? name := by
  obtain rfl := writes_modify.mp hw
  simp only [State.local?]
  by_cases hn : name = n
  · rw [if_pos hn, hn]
    cases s.frame.scopes <;> simp
  · have hlook (old : List (String × String)) : ((n, ident) :: old).lookup name = old.lookup name := by
      rw [List.lookup_cons, beq_false_of_ne hn]
    rw [if_neg hn]
    cases s.frame.scopes with
    | nil => simp [hlook]
    | cons scope scopes => rw [List.findSome?_cons, List.findSome?_cons, hlook]

-- Nothing but the counter of temporary variables has changed in the function at hand.
def SameNames (s s' : State) : Prop :=
  s'.frame = { s.frame with temps := s'.frame.temps } ∧ s.frame.temps ≤ s'.frame.temps

namespace SameNames

theorem refl (s : State) : SameNames s s := ⟨rfl, Nat.le_refl _⟩

theorem trans (h : SameNames s s') (h' : SameNames s' s'') : SameNames s s'' := by
  refine ⟨?_, Nat.le_trans h.2 h'.2⟩
  rw [h'.1, h.1]

theorem scopes_eq (h : SameNames s s') : s'.frame.scopes = s.frame.scopes := by
  rw [h.1]

theorem local?_eq (h : SameNames s s') (name : String) : s'.local? name = s.local? name := by
  rw [State.local?, h.scopes_eq, State.local?]

theorem of_frame_eq (h : s'.frame = s.frame) : SameNames s s' := by
  rw [SameNames, h]
  exact ⟨rfl, Nat.le_refl _⟩

end SameNames

-- A step that keeps the names, whether it fails or not.
def Steady (act : Emit α) : Prop := ∀ E s, SameNames s (outcome act E s).2

theorem Steady.sameNames {act : Emit α} {a : α} (h : Steady act) (hw : Writes act E s a s') :
    SameNames s s' := by
  have := h E s
  rwa [hw] at this

@[grind ←] theorem steady_pure (a : α) : Steady (pure a) := fun _ s => .refl s

@[grind ←] theorem steady_throw (stop : Stop) : Steady (throw stop : Emit α) := fun _ s => .refl s

@[grind .] theorem steady_read : Steady read := fun _ s => .refl s

@[grind .] theorem steady_get : Steady (get : Emit State) := fun _ s => .refl s

@[grind ←] theorem steady_bind {x : Emit α} {f : α → Emit β} (hx : Steady x)
    (hf : ∀ a, Steady (f a)) : Steady (x >>= f) := by
  intro E s
  have h := hx E s
  rw [outcome_bind]
  rcases ho : outcome x E s with ⟨r, s'⟩
  rw [ho] at h
  cases r with
  | error e => exact h
  | ok a => exact h.trans (hf a E s')

@[grind ←] theorem steady_tryCatch {x : Emit α} {f : Stop → Emit α} (hx : Steady x)
    (hf : ∀ e, Steady (f e)) : Steady (tryCatch x f) := by
  intro E s
  have h := hx E s
  rw [outcome_tryCatch]
  rcases ho : outcome x E s with ⟨r, s'⟩
  rw [ho] at h
  cases r with
  | error e => exact h.trans (hf e E s')
  | ok a => exact h

theorem steady_mapM {f : α → Emit β} (hf : ∀ a, Steady (f a)) (xs : List α) :
    Steady (xs.mapM f) := by
  induction xs with
  | nil => exact steady_pure []
  | cons x xs ih =>
      rw [List.mapM_cons]
      exact steady_bind (hf x) fun _ => steady_bind ih fun _ => steady_pure _

theorem steady_modify {f : State → State} (hf : ∀ s, SameNames s (f s)) : Steady (modify f) :=
  fun _ s => hf s

@[grind ←] theorem steady_use (path : String) : Steady (use path) := by
  refine steady_modify fun s => ?_
  split
  · exact .refl s
  · exact .of_frame_eq rfl

@[grind ←] theorem steady_ended (text? : Option String) : Steady (Ink.ended text?) := by
  cases text? <;> grind [Ink.ended]

@[grind ←] theorem steady_temp (stem : String) : Steady (temp stem) := by
  refine steady_bind (steady_modify fun s => ?_) fun _ => ?_
  · exact ⟨rfl, Nat.le_succ _⟩
  · exact steady_bind (steady_bind steady_get fun _ => steady_pure _) fun _ => steady_pure _

@[grind ←] theorem steady_helperName (key : String) (helper : Helper) :
    Steady (helperName key helper) := by
  refine steady_bind steady_get fun s => ?_
  split
  · exact steady_pure _
  · refine steady_bind (steady_modify fun s => ?_) fun _ => steady_pure _
    exact .of_frame_eq rfl

@[grind .] theorem steady_frame : Steady frame := by grind [frame]

@[grind .] theorem steady_target : Steady target := by grind [target]

@[grind ←] theorem steady_local? (name : String) : Steady (local? name) := by grind [local?]

@[grind ←] theorem steady_ref? (key : String) : Steady (ref? key) := by grind [ref?]

end RustContracts.Emit
