/-
  Forests of transactions, and what their operations do to the layers of a versioned value.

  Transactions are nested to any depth.  A FOREST says what is around each of them; it is fixed
  for a whole history, since the place of a transaction never changes.  Any party, a transaction
  or a PLAIN one, may operate on a value at any time: which orders of operations are allowed is
  left to those who use this module.

  1. **Forests**: lineages are suffixes of each other, and no transaction is around itself.

  2. **Touching** (`layer?_touch_old`, `layer?_touch_new`): layers that are there stay, and the
     missing ones of a lineage are clean copies, each of the layer of its parent.

  3. **Operations** (`Op.Effect`): all that one operation can do, with the answer that it gives.
     Everything about sequences of operations is proved from this inversion.
-/
import Orchestra.Versioned

namespace Orchestra

open List

variable {lin : List TxnId} {l party : Option TxnId}

/-! ## Forests -/

/-- For each transaction those around it, the innermost first. -/
structure Forest where
  ancestors : TxnId → List TxnId
  /-- Around a transaction are its parent and what is around that. -/
  above : ∀ {t p rest}, ancestors t = p :: rest → rest = ancestors p

namespace Forest

variable {F : Forest} {t u a : TxnId}

/-- A transaction with those around it. -/
def scope (F : Forest) (t : TxnId) : Scope := ⟨t, F.ancestors t⟩

/-- The transaction just around another one. -/
def parent (F : Forest) (t : TxnId) : Option TxnId := (F.ancestors t).head?

/-- A transaction and those around it; nothing for a plain party. -/
def line (F : Forest) : (party : Option TxnId) → List TxnId
  | none => []
  | some t => t :: F.ancestors t

theorem mem_line_self (F : Forest) (t : TxnId) : t ∈ F.line (some t) := mem_cons_self ..

/-- What is around a transaction is the line of its parent. -/
theorem ancestors_eq_line (F : Forest) (t : TxnId) : F.ancestors t = F.line (F.parent t) := by
  unfold parent
  cases h : F.ancestors t with
  | nil => rfl
  | cons p rest => rw [F.above h]; rfl

theorem line_suffix_ancestors (h : u ∈ F.ancestors t) : F.line (some u) <:+ F.ancestors t := by
  -- the line gets shorter with each step outward
  induction hn : (F.ancestors t).length generalizing t with
  | zero => rw [length_eq_zero_iff.1 hn] at h; cases h
  | succ n ih =>
    obtain ⟨p, rest, hp⟩ := exists_cons_of_length_eq_add_one hn
    have hrest := F.above hp
    rw [hp] at h hn ⊢
    rcases mem_cons.1 h with rfl | h
    · rw [hrest]
      exact suffix_refl _
    · grind

/-- No transaction is around itself. -/
theorem not_mem_ancestors (F : Forest) (t : TxnId) : t ∉ F.ancestors t := by
  intro h
  have hlen := (line_suffix_ancestors h).length_le
  simp only [line, length_cons] at hlen
  omega

theorem line_suffix (h : u ∈ F.line party) : F.line (some u) <:+ F.line party := by
  cases party with
  | none => cases h
  | some t =>
    rcases mem_cons.1 h with rfl | h
    · exact suffix_refl _
    · exact (line_suffix_ancestors h).trans (suffix_cons ..)

/-- Being around is transitive. -/
theorem mem_line_trans (h : u ∈ F.line party) (ha : a ∈ F.line (some u)) : a ∈ F.line party :=
  (line_suffix h).subset ha

/-- Two transactions are not inside each other. -/
theorem not_mem_line_of_mem_ancestors (h : u ∈ F.ancestors t) : t ∉ F.line (some u) := fun ht =>
  F.not_mem_ancestors t ((line_suffix_ancestors h).subset ht)

theorem mem_ancestors_of_parent (h : F.parent t = some u) : u ∈ F.ancestors t :=
  mem_of_head? h

theorem parent_ne_self (F : Forest) (t : TxnId) : F.parent t ≠ some t := fun h =>
  F.not_mem_ancestors t (mem_ancestors_of_parent h)

/-- Three transactions, each inside the one before. -/
def nest : Forest where
  ancestors t := if t = ⟨1⟩ then [⟨0⟩] else if t = ⟨2⟩ then [⟨1⟩, ⟨0⟩] else []
  above := by grind

end Forest

/-! ## Touching -/

namespace Layer

variable {α : Type}

/-- A clean copy, as it is made for a child. -/
def copy (source : Layer α) : Layer α := { value := source.value, base := source.version }

/-- The layer with another value written to it, or merged into it. -/
def write (x : Layer α) (value : α) : Layer α :=
  { x with value, version := x.version + 1, dirty := true }

end Layer

namespace Versioned

variable {α β : Type} {v : Versioned α} {x : Layer α}

/-- Only the mark is released. -/
@[simp] theorem Layer.release_value (t : TxnId) (x : Layer α) : (release t x).value = x.value := by
  unfold release
  split <;> rfl

@[simp] theorem Layer.release_version (t : TxnId) (x : Layer α) :
    (release t x).version = x.version := by
  unfold release
  split <;> rfl

@[simp] theorem Layer.release_base (t : TxnId) (x : Layer α) : (release t x).base = x.base := by
  unfold release
  split <;> rfl

/-- What the touch of one more transaction does. -/
theorem touch_cons (v : Versioned α) (t : TxnId) (rest : List TxnId) :
    v.touch (t :: rest) = v.touch rest ∨
      ∃ source, (v.touch rest).layer? (some t) = none ∧
        (v.touch rest).layer? rest.head? = some source ∧
        v.touch (t :: rest) = (v.touch rest).setLayer (some t) source.copy := by
  rw [touch]
  cases ht : (v.touch rest).layer? (some t) with
  | some x => exact .inl rfl
  | none =>
    cases hs : (v.touch rest).layer? rest.head? with
    | none => exact .inl rfl
    | some source => exact .inr ⟨source, rfl, rfl, rfl⟩

/-- Touching more keeps the layers that are there. -/
theorem layer?_touch_suffix {lin' : List TxnId} (h : lin' <:+ lin)
    (hx : (v.touch lin').layer? l = some x) : (v.touch lin).layer? l = some x := by
  obtain ⟨front, rfl⟩ := h
  induction front with
  | nil => exact hx
  | cons t front ih => grind [touch_cons, layer?_setLayer]

theorem layer?_touch_old (h : v.layer? l = some x) (lin : List TxnId) :
    (v.touch lin).layer? l = some x :=
  layer?_touch_suffix (nil_suffix ..) h

/-- Only the transactions of the lineage get layers. -/
theorem layer?_touch_of_not_mem (v : Versioned α) (h : ∀ t ∈ lin, l ≠ some t) :
    (v.touch lin).layer? l = v.layer? l := by
  induction lin with
  | nil => rfl
  | cons t rest ih => grind [touch_cons, layer?_setLayer]

/-- Every party finds its layer after it has touched its line. -/
theorem layer?_touch_line (v : Versioned α) (F : Forest) (party : Option TxnId) :
    ∃ x, (v.touch (F.line party)).layer? party = some x := by
  -- by the length of the line, from the outermost transaction inward
  induction hn : (F.line party).length generalizing party with
  | zero =>
    cases party with
    | none => exact ⟨_, rfl⟩
    | some t => cases hn
  | succ n ih =>
    cases party with
    | none => cases hn
    | some t =>
      have hup : F.ancestors t = F.line (F.parent t) := F.ancestors_eq_line t
      obtain ⟨source, hsource⟩ := ih (F.parent t) (by rw [← hup]; simpa [Forest.line] using hn)
      rw [← hup] at hsource
      rw [Forest.line, touch]
      cases ht : (v.touch (F.ancestors t)).layer? (some t) with
      | some x => exact ⟨x, ht⟩
      | none =>
        have hhead : (v.touch (F.ancestors t)).layer? (F.ancestors t).head? = some source := hsource
        grind [layer?_setLayer]

/-- A missing layer of a line is made as a copy of the layer of the parent. -/
theorem layer?_touch_new (v : Versioned α) {F : Forest} {t : TxnId} (hmem : t ∈ F.line party)
    (hnone : v.layer? (some t) = none) :
    ∃ source, (v.touch (F.ancestors t)).layer? (F.parent t) = some source ∧
      (v.touch (F.line party)).layer? (F.parent t) = some source ∧
      (v.touch (F.line party)).layer? (some t) = some source.copy := by
  have hsuffix : F.line (some t) <:+ F.line party := Forest.line_suffix hmem
  have hfree : (v.touch (F.ancestors t)).layer? (some t) = none := by
    grind [layer?_touch_of_not_mem, Forest.not_mem_ancestors]
  obtain ⟨source, hsource⟩ := v.layer?_touch_line F (F.parent t)
  rw [← F.ancestors_eq_line] at hsource
  refine ⟨source, hsource, layer?_touch_suffix ((suffix_cons ..).trans hsuffix) hsource, ?_⟩
  refine layer?_touch_suffix hsuffix ?_
  have hhead : (v.touch (F.ancestors t)).layer? (F.ancestors t).head? = some source := hsource
  rw [Forest.line, touch, hfree, hhead]
  dsimp only
  rw [layer?_setLayer, if_pos rfl]
  rfl

/-- A layer that is there after touching a line was there before, or was made for the line. -/
theorem layer?_touch_cases (v : Versioned α) {t : TxnId}
    (hx : (v.touch lin).layer? (some t) = some x) :
    v.layer? (some t) = some x ∨ v.layer? (some t) = none ∧ t ∈ lin := by
  cases hx' : v.layer? (some t) with
  | some x' =>
    rw [layer?_touch_old hx'] at hx
    exact .inl hx
  | none => grind [layer?_touch_of_not_mem]

/-- Touching a line whose layers are all there does nothing. -/
theorem touch_of_present (h : ∀ t ∈ lin, v.layer? (some t) ≠ none) : v.touch lin = v := by
  induction lin with
  | nil => rfl
  | cons t rest ih => grind [touch_cons]

end Versioned

/-! ## Operations -/

/-- An operation of a party on a value. -/
inductive Op (α β : Type) where
  | read (party : Option TxnId)
  | update (party : Option TxnId) (f : α → α × β)
  | ready (t : TxnId)
  | confirm (t : TxnId)
  | rollback (t : TxnId)

/-- What the party is told. -/
inductive Answer (α β : Type) where
  | seen (a : α)
  /-- What an update found, or nothing if it was declined. -/
  | found (b : Option β)
  | vote (yes : Bool)
  | done

namespace Op

variable {α β : Type}

/-- The party that reads or writes in an operation. -/
def access? : Op α β → Option (Option TxnId)
  | read party | update party _ => some party
  | _ => none

/-- The answer to an operation, and the value after it. -/
def run (F : Forest) (v : Versioned α) : Op α β → Answer α β × Versioned α
  | read party => (.seen (v.read (party.map F.scope)).1, (v.read (party.map F.scope)).2)
  | update party f =>
    (.found (v.update (party.map F.scope) f).1, (v.update (party.map F.scope) f).2)
  | ready t => (.vote (v.ready (F.scope t)).1, (v.ready (F.scope t)).2)
  | confirm t => (.done, v.confirm (F.scope t))
  | rollback t => (.done, v.rollback (F.scope t))

/-- The answers to some operations, one after the other, and the value after them. -/
def runs (F : Forest) (v : Versioned α) : List (Op α β) → List (Answer α β) × Versioned α
  | [] => ([], v)
  | op :: ops =>
    ((op.run F v).1 :: (runs F (op.run F v).2 ops).1, (runs F (op.run F v).2 ops).2)

/-- All that an operation can do to a value, with the answer that it gives then. -/
inductive Effect (F : Forest) (v : Versioned α) : Op α β → Answer α β → Versioned α → Prop where
  | seen {party x} : (v.touch (F.line party)).layer? party = some x →
      Effect F v (read party) (.seen x.value) (v.touch (F.line party))
  | declined {party f x} : (v.touch (F.line party)).layer? party = some x → x.pending ≠ none →
      Effect F v (update party f) (.found none) (v.touch (F.line party))
  | written {party f x} : (v.touch (F.line party)).layer? party = some x → x.pending = none →
      Effect F v (update party f) (.found (some (f x.value).2))
        ((v.touch (F.line party)).setLayer party (x.write (f x.value).1))
  /-- A transaction without a layer has nothing to commit. -/
  | waved {t} : v.layer? (some t) = none → Effect F v (ready t) (.vote true) v
  | refused {t x} : v.layer? (some t) = some x →
      (∀ p, v.layer? (F.parent t) = some p →
        (∃ u, u ≠ t ∧ p.pending = some u) ∨ p.version ≠ x.base) →
      Effect F v (ready t) (.vote false) v
  | marked {t x p} : v.layer? (some t) = some x → v.layer? (F.parent t) = some p →
      (∀ u, p.pending = some u → u = t) → p.version = x.base →
      Effect F v (ready t) (.vote true) (v.setLayer (F.parent t) { p with pending := some t })
  | idle {t} : v.layer? (some t) = none → Effect F v (confirm t) .done v
  /-- Without a layer of the parent there is nothing to merge into. -/
  | lost {t x} : v.layer? (some t) = some x → v.layer? (F.parent t) = none →
      Effect F v (confirm t) .done (v.dropLayer t)
  | merged {t x p} : v.layer? (some t) = some x → v.layer? (F.parent t) = some p →
      Effect F v (confirm t) .done ((v.dropLayer t).setLayer (F.parent t)
        (if x.dirty then (Versioned.Layer.release t p).write x.value
        else Versioned.Layer.release t p))
  | dropped {t} : v.layer? (F.parent t) = none → Effect F v (rollback t) .done (v.dropLayer t)
  | released {t p} : v.layer? (F.parent t) = some p →
      Effect F v (rollback t) .done
        ((v.dropLayer t).setLayer (F.parent t) (Versioned.Layer.release t p))

/-- The layer of the parent is still there when that of the child has been dropped. -/
theorem layer?_parent_dropLayer (F : Forest) (v : Versioned α) (t : TxnId) :
    (v.dropLayer t).layer? (F.scope t).parent = v.layer? (F.parent t) := by
  rw [Versioned.layer?_dropLayer, if_neg]
  · rfl
  · exact F.parent_ne_self t

theorem run_read {F : Forest} {v : Versioned α} {x : Layer α}
    (hx : (v.touch (F.line party)).layer? party = some x) :
    (read party : Op α β).run F v = (.seen x.value, v.touch (F.line party)) := by
  cases party with
  | none =>
    cases hx
    rfl
  | some t =>
    have hx' : (v.touch (F.scope t).lineage).layer? (some (F.scope t).id) = some x := hx
    rw [run, Option.map_some, Versioned.read, hx']
    rfl

/-- An update writes to the layer of its party, unless that one awaits somebody. -/
theorem run_update {F : Forest} {v : Versioned α} {x : Layer α}
    (hx : (v.touch (F.line party)).layer? party = some x) (f : α → α × β) :
    (update party f).run F v =
      if x.pending.isSome then (.found none, v.touch (F.line party))
      else (.found (some (f x.value).2),
        (v.touch (F.line party)).setLayer party (x.write (f x.value).1)) := by
  have hupdate : v.update (party.map F.scope) f =
      if x.pending.isSome then (none, v.touch (F.line party))
      else (some (f x.value).2,
        (v.touch (F.line party)).setLayer party (x.write (f x.value).1)) := by
    cases party with
    | none =>
      have hx' : v.layer? none = some x := hx
      simp only [Versioned.update, Option.map_none, hx']
      rfl
    | some t =>
      have hx' : (v.touch (F.scope t).lineage).layer? (some (F.scope t).id) = some x := hx
      simp only [Versioned.update, Option.map_some, hx']
      rfl
  rw [run, hupdate]
  split <;> rfl

/-- **What one operation can do.** -/
theorem run_effect (op : Op α β) (F : Forest) (v : Versioned α) :
    Effect F v op (op.run F v).1 (op.run F v).2 := by
  cases op with
  | read party =>
    obtain ⟨x, hx⟩ := v.layer?_touch_line F party
    rw [run_read hx]
    exact .seen hx
  | update party f =>
    obtain ⟨x, hx⟩ := v.layer?_touch_line F party
    rw [run_update hx]
    cases hp : x.pending with
    | some u => exact .declined hx (by simp [hp])
    | none => exact .written hx hp
  | ready t =>
    have hrun : (ready t : Op α β).run F v =
        (.vote (v.ready (F.scope t)).1, (v.ready (F.scope t)).2) := rfl
    rw [hrun, Versioned.ready]
    have hid : (F.scope t).id = t := rfl
    have hparent : (F.scope t).parent = F.parent t := rfl
    rw [hid, hparent]
    cases hx : v.layer? (some t) with
    | none => exact .waved hx
    | some x =>
      cases hp : v.layer? (F.parent t) with
      | none => exact .refused hx (fun p hp' => by rw [hp] at hp'; cases hp')
      | some p =>
        dsimp only
        split
        · rename_i hno
          refine .refused hx fun p' hp' => ?_
          grind [Option.any_eq_true]
        · rename_i hyes
          simp only [Bool.or_eq_true, Option.any_eq_true, decide_eq_true_eq, not_or, not_exists,
            not_and, ne_eq, Decidable.not_not] at hyes
          exact .marked hx hp hyes.1 hyes.2
  | confirm t =>
    have hrun : (confirm t : Op α β).run F v = (.done, v.confirm (F.scope t)) := rfl
    rw [hrun, Versioned.confirm]
    have hid : (F.scope t).id = t := rfl
    rw [hid]
    cases hx : v.layer? (some t) with
    | none => exact .idle hx
    | some x =>
      dsimp only
      rw [layer?_parent_dropLayer]
      cases hp : v.layer? (F.parent t) with
      | none => exact .lost hx hp
      | some p => exact .merged hx hp
  | rollback t =>
    have hrun : (rollback t : Op α β).run F v = (.done, v.rollback (F.scope t)) := rfl
    rw [hrun, Versioned.rollback]
    have hid : (F.scope t).id = t := rfl
    dsimp only
    rw [hid, layer?_parent_dropLayer]
    cases hp : v.layer? (F.parent t) with
    | none => exact .dropped hp
    | some p => exact .released hp

/-- What a read or an update can do to a value. -/
theorem access_effect (F : Forest) (v : Versioned α) {op : Op α β} (hop : op.access? = some party) :
    (op.run F v).2 = v.touch (F.line party) ∨
      ∃ x a, (v.touch (F.line party)).layer? party = some x ∧ x.pending = none ∧
        (op.run F v).2 = (v.touch (F.line party)).setLayer party (x.write a) := by
  have heffect := op.run_effect F v
  generalize (op.run F v).1 = answer at heffect
  generalize (op.run F v).2 = w at heffect ⊢
  cases heffect with
  | seen | declined =>
    cases hop
    exact .inl rfl
  | written hx hpending =>
    cases hop
    exact .inr ⟨_, _, hx, hpending, rfl⟩
  | _ => cases hop

end Op
end Orchestra
