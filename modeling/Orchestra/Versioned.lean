/-
  Versioned values: one value, and a private copy for every transaction that touches it.

  A transaction is known by its SCOPE: its own key and those of the transactions around it.  The
  value has one committed layer and, for each transaction that touched it, an overlay.  The
  overlay of a transaction is a copy of the layer of its parent, made at the first touch, and
  remembers the version it was copied from.  A transaction may commit only if its parent's layer
  is still at that version and no other child is about to commit into it; between its vote and
  the decision the parent's layer is PENDING and declines writes.
-/
import Orchestra.Store

namespace Orchestra

/-- A transaction together with the transactions around it, the innermost first. -/
structure Scope where
  id : TxnId
  ancestors : List TxnId := []
deriving DecidableEq, Repr

namespace Scope

/-- The transaction just around this one. -/
def parent (s : Scope) : Option TxnId := s.ancestors.head?

/-- This transaction and those around it, the innermost first. -/
def lineage (s : Scope) : List TxnId := s.id :: s.ancestors

/-- The scope of a transaction started inside `s`. -/
def child (s : Scope) (id : TxnId) : Scope := ⟨id, s.lineage⟩

end Scope

/-- One copy of the value. -/
structure Layer (α : Type) where
  value : α
  /-- How often this layer was written or had a child merged into it. -/
  version : Nat := 0
  /-- The version of the parent's layer that this copy was made from. -/
  base : Nat := 0
  dirty : Bool := false
  /-- The child that has voted to commit and awaits the decision. -/
  pending : Option TxnId := none
deriving DecidableEq, Repr

/-- A value with its committed layer and the overlays of transactions. -/
structure Versioned (α : Type) where
  committed : Layer α
  overlays : List (TxnId × Layer α) := []
deriving Repr

namespace Versioned

variable {α β : Type}

def new (value : α) : Versioned α := { committed := { value } }

/-! ## Layers -/

/-- The layer of a transaction, or the committed one outside of any. -/
def layer? (v : Versioned α) : Option TxnId → Option (Layer α)
  | none => some v.committed
  | some t => v.overlays.lookup t

/-- Dropping the entries of one key leaves those of the others. -/
theorem lookup_filter_ne {xs : List (TxnId × Layer α)} {t t' : TxnId} (h : t' ≠ t) :
    (xs.filter (·.1 ≠ t)).lookup t' = xs.lookup t' := by
  induction xs with
  | nil => rfl
  | cons x xs ih =>
    obtain ⟨k, layer⟩ := x
    by_cases hk : k = t
    · have hb : (t' == t) = false := beq_false_of_ne h
      rw [List.filter_cons_of_neg (by simp [hk]), ih]
      simp [List.lookup_cons, hk, hb]
    · rw [List.filter_cons_of_pos (by simp [hk])]
      simp only [List.lookup_cons, ih]

theorem lookup_filter_self (xs : List (TxnId × Layer α)) (t : TxnId) :
    (xs.filter (·.1 ≠ t)).lookup t = none := by
  induction xs with
  | nil => rfl
  | cons x xs ih =>
    obtain ⟨k, layer⟩ := x
    by_cases hk : k = t
    · rw [List.filter_cons_of_neg (by simp [hk]), ih]
    · have hb : (t == k) = false := beq_false_of_ne (Ne.symm hk)
      rw [List.filter_cons_of_pos (by simp [hk])]
      simp only [List.lookup_cons, hb, ih]

/-- Puts a layer in place. -/
def setLayer (v : Versioned α) (txn : Option TxnId) (layer : Layer α) : Versioned α :=
  match txn with
  | none => { v with committed := layer }
  | some t => { v with overlays := (t, layer) :: v.overlays.filter (·.1 ≠ t) }

/-- Drops the overlay of a transaction. -/
def dropLayer (v : Versioned α) (t : TxnId) : Versioned α :=
  { v with overlays := v.overlays.filter (·.1 ≠ t) }

/-- A layer that is put in place is found there, and the others are left. -/
theorem layer?_setLayer (v : Versioned α) (txn txn' : Option TxnId) (layer : Layer α) :
    (v.setLayer txn layer).layer? txn' = if txn' = txn then some layer else v.layer? txn' := by
  cases txn with
  | none => cases txn' <;> simp [setLayer, layer?]
  | some t =>
    cases txn' with
    | none => simp [setLayer, layer?]
    | some t' =>
      by_cases ht : t' = t
      · simp [setLayer, layer?, ht]
      · have hb : (t' == t) = false := beq_false_of_ne ht
        simp only [setLayer, layer?, List.lookup_cons, hb, Option.some.injEq, ht, if_false]
        exact lookup_filter_ne ht

/-- An overlay that is dropped is gone, and the other layers are left. -/
theorem layer?_dropLayer (v : Versioned α) (t : TxnId) (txn : Option TxnId) :
    (v.dropLayer t).layer? txn = if txn = some t then none else v.layer? txn := by
  cases txn with
  | none => simp [dropLayer, layer?]
  | some t' =>
    by_cases ht : t' = t
    · subst ht
      rw [if_pos rfl]
      exact lookup_filter_self _ _
    · rw [if_neg (by simpa using ht)]
      exact lookup_filter_ne ht

/-- Makes sure that every transaction of a lineage has an overlay, the outermost first. -/
def touch (v : Versioned α) : (lineage : List TxnId) → Versioned α
  | [] => v
  | t :: ancestors =>
    let v := v.touch ancestors
    match v.layer? (some t) with
    | some _ => v
    | none =>
      match v.layer? ancestors.head? with
      | none => v
      | some source => v.setLayer (some t) { value := source.value, base := source.version }

/-! ## Reading and writing -/

/-- The value as a transaction sees it, or the committed value outside of any. -/
def read (v : Versioned α) (scope : Option Scope) : α × Versioned α :=
  match scope with
  | none => (v.committed.value, v)
  | some s =>
    let v := v.touch s.lineage
    (((v.layer? (some s.id)).getD v.committed).value, v)

/-- Changes the value as a transaction sees it, and gives what `f` found there.  Declined while
    a child of that layer is about to commit into it. -/
def update (v : Versioned α) (scope : Option Scope) (f : α → α × β) : Option β × Versioned α :=
  let v := match scope with
    | none => v
    | some s => v.touch s.lineage
  let txn := scope.map Scope.id
  match v.layer? txn with
  | none => (none, v)
  | some layer =>
    if layer.pending.isSome then (none, v)
    else
      let (value, found) := f layer.value
      (some found, v.setLayer txn { layer with value, version := layer.version + 1, dirty := true })

/-! ## Committing -/

/-- The vote of a transaction: whether it may commit.  A yes marks the parent's layer. -/
def ready (v : Versioned α) (s : Scope) : Bool × Versioned α :=
  match v.layer? (some s.id) with
  | none => (true, v)
  | some layer =>
    match v.layer? s.parent with
    | none => (false, v)
    | some parent =>
      if (parent.pending.any (· ≠ s.id)) || parent.version ≠ layer.base then (false, v)
      else (true, v.setLayer s.parent { parent with pending := some s.id })

/-- The parent's layer without the mark of the transaction `t`. -/
def Layer.release (t : TxnId) (parent : Layer α) : Layer α :=
  if parent.pending = some t then { parent with pending := none } else parent

/-- Merges the overlay of a transaction into its parent's layer. -/
def confirm (v : Versioned α) (s : Scope) : Versioned α :=
  match v.layer? (some s.id) with
  | none => v
  | some layer =>
    let v := v.dropLayer s.id
    match v.layer? s.parent with
    | none => v
    | some parent =>
      let parent := Layer.release s.id parent
      v.setLayer s.parent <|
        if layer.dirty then
          { parent with value := layer.value, version := parent.version + 1, dirty := true }
        else parent

/-- Forgets what a transaction did. -/
def rollback (v : Versioned α) (s : Scope) : Versioned α :=
  let v := v.dropLayer s.id
  match v.layer? s.parent with
  | none => v
  | some parent => v.setLayer s.parent (Layer.release s.id parent)

/-! ## Examples -/

/-- Of two transactions that have both read the value, the first to vote blocks the other. -/
example :
    let a : Scope := ⟨⟨0⟩, []⟩
    let b : Scope := ⟨⟨1⟩, []⟩
    let v := (((new 0).update (some a) fun _ => (1, ())).2.update (some b) fun _ => (2, ())).2
    let (first, v) := v.ready a
    let (second, v) := v.ready b
    (first, second, ((v.confirm a).rollback b).committed.value) = (true, false, 1) := by
  decide

/-- An inner transaction commits into the outer one, whose own commit makes it seen. -/
example :
    let outer : Scope := ⟨⟨0⟩, []⟩
    let inner := outer.child ⟨1⟩
    let v := ((new 0).update (some inner) fun _ => (7, ())).2
    let w := (v.ready inner).2.confirm inner
    ((w.read (some outer)).1, w.committed.value, (w.confirm outer).committed.value) = (7, 0, 7) := by
  decide

end Versioned
end Orchestra
