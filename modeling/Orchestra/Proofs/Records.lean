/-
  How the records of a run move.

  Everything the engine does to its records is one of three things: a record is inserted under a
  fresh key, removed, or changed in place.  The lemmas here say what a lookup finds afterwards, in
  one form for all keys, so that a proof about a move never opens a store.
-/
import Orchestra.Engine.Turn

namespace Orchestra

open List

/-! ## Lookups -/

namespace Store

variable {k : Kind} {α : Type} {s : Store k α} {id id' : Key k} {a b : α} {f : α → α}

@[grind =]
theorem get?_insert (s : Store k α) (a : α) (id : Key k) :
    (s.insert a).get? id = if id = s.next then some a else s.get? id := by
  by_cases h : id = s.next
  · rw [if_pos h, h, get?_insert_self]
  · rw [if_neg h, get?_insert_of_ne s a h]

@[grind =]
theorem get?_remove (s : Store k α) (id id' : Key k) :
    (s.remove id).get? id' = if id' = id then none else s.get? id' := by
  by_cases h : id' = id
  · rw [if_pos h, h, get?_remove_self]
  · rw [if_neg h, get?_remove_of_ne s h]

attribute [grind =] get?_modify get?_next

/-- A record is found only under a key that was handed out. -/
theorem lt_next (h : s.get? id = some a) : id.index < s.next.index := by
  simp only [get?, Option.join_eq_some_iff] at h
  obtain ⟨hlt, -⟩ := Array.getElem?_eq_some_iff.1 h
  exact hlt

@[simp, grind =]
theorem next_modify (s : Store k α) (id : Key k) (f : α → α) : (s.modify id f).next = s.next := by
  unfold modify next
  split <;> simp

@[simp, grind =]
theorem next_remove (s : Store k α) (id : Key k) : (s.remove id).next = s.next := by
  unfold remove next
  split <;> simp

@[simp, grind =]
theorem next_insert (s : Store k α) (a : α) : (s.insert a).next.index = s.next.index + 1 := by
  simp [next, insert]

@[simp]
theorem size_modify (f : α → α) : (s.modify id f).size = s.size := by
  unfold modify
  split <;> rfl

theorem size_remove (h : s.get? id = some a) : (s.remove id).size + 1 = s.size := by
  have hlt : id.index < s.slots.size := lt_next h
  have hslot : s.slots[id.index] = some a := by
    rw [get?, Array.getElem?_eq_getElem hlt] at h
    exact h
  have hpos : 0 < s.slots.countP Option.isSome :=
    Array.countP_pos_iff.2 ⟨_, Array.getElem_mem hlt, by rw [hslot]; rfl⟩
  have hsize := s.size_eq
  simp_all [remove]

theorem size_remove_none (h : s.get? id = none) : (s.remove id).size = s.size := by
  unfold remove
  split
  · rename_i hlt
    rw [get?, Array.getElem?_eq_getElem hlt] at h
    have hslot : s.slots[id.index] = none := h
    simp [hslot]
  · rfl

section

variable (h : s.get? id = some a)

include h

/-- A key that names something is not the one handed out next. -/
theorem ne_next : id ≠ s.next := by
  rintro rfl
  rw [get?_next] at h
  cases h

/-- A record that changes when another is added is found changed. -/
theorem get?_insert_modify (b : α) (f : α → α) :
    ((s.insert b).modify id f).get? id = some (f a) := by
  rw [get?_modify, if_pos rfl, get?_insert, if_neg (ne_next h), h, Option.map_some]

/-- A record that is added when another changes is found as it is. -/
theorem get?_next_insert_modify (b : α) (f : α → α) :
    ((s.insert b).modify id f).get? s.next = some b := by
  rw [get?_modify, if_neg (ne_next h).symm, get?_insert_self]

end

/-- Changing each record of a list of distinct keys changes those and no others. -/
theorem get?_foldl_modify (f : α → α) {ids : List (Key k)} (h : ids.Nodup) (s : Store k α)
    (id : Key k) :
    (ids.foldl (fun s id => s.modify id f) s).get? id
      = if id ∈ ids then (s.get? id).map f else s.get? id := by
  induction ids generalizing s with
  | nil => rfl
  | cons x xs ih => grind

/-- After a change in place, a record comes from the one that changed or was there as it is. -/
theorem modified (h : (s.modify id f).get? id' = some b) :
    (id = id' ∧ ∃ a, s.get? id' = some a ∧ f a = b) ∨ (id' ≠ id ∧ s.get? id' = some b) := by
  grind [Option.map_eq_some_iff]

/-- After a record is added, a record is that one or was there. -/
theorem inserted (h : (s.insert a).get? id = some b) :
    (id = s.next ∧ a = b) ∨ (id ≠ s.next ∧ s.get? id = some b) := by grind

/-- A change in place goes from a record to one related to it, and every record comes from one. -/
theorem modify_forth {P : α → α → Prop} (hrefl : ∀ a, P a a) (hf : ∀ a, P a (f a)) (s : Store k α)
    (id : Key k) (h : s.get? id' = some a) : ∃ b, (s.modify id f).get? id' = some b ∧ P a b := by
  grind

theorem modify_back {P : α → α → Prop} (hrefl : ∀ a, P a a) (hf : ∀ a, P a (f a))
    (h : (s.modify id f).get? id' = some b) : ∃ a, s.get? id' = some a ∧ P a b := by
  rcases modified h with ⟨-, a, ha, rfl⟩ | ⟨-, h⟩
  · exact ⟨a, ha, hf a⟩
  · exact ⟨b, h, hrefl b⟩

/-- A change in place is not seen by what it leaves alone. -/
theorem map_get?_modify {β : Type} {p : α → β} (hf : ∀ a, p (f a) = p a) (s : Store k α)
    (id id' : Key k) : ((s.modify id f).get? id').map p = (s.get? id').map p := by
  rw [get?_modify]
  split
  · rw [Option.map_map]
    exact congrArg (Option.map · _) (funext hf)
  · rfl

theorem of_get?_remove (h : (s.remove id).get? id' = some a) : id' ≠ id ∧ s.get? id' = some a := by
  rw [get?_remove] at h
  split at h
  · cases h
  · exact ⟨‹_›, h⟩

/-- After a change in place, a record is the changed one or another that was there. -/
theorem of_get?_modify (ha : s.get? id = some a) (h : (s.modify id f).get? id' = some b) :
    (id' = id ∧ b = f a) ∨ (id' ≠ id ∧ s.get? id' = some b) := by grind

theorem contains_iff : s.contains id = true ↔ ∃ a, s.get? id = some a := by
  simp [contains, Option.isSome_iff_exists]

end Store

/-! ## Faults -/

/-- Two moves in a row do not fault only if neither does. -/
theorem bind_ok {ε α β : Type} {x : Except ε α} {f : α → Except ε β} {b : β}
    (h : x >>= f = .ok b) : ∃ a, x = .ok a ∧ f a = .ok b := by
  cases x with
  | error fault => cases h
  | ok a => exact ⟨a, rfl, h⟩

/-! ## Sets -/

section joined

variable {α : Type} [DecidableEq α] {xs : List α} {x y : α}

@[simp, grind =]
theorem mem_joined : y ∈ joined xs x ↔ y ∈ xs ∨ y = x := by
  unfold joined
  split
  · constructor
    · exact Or.inl
    · rintro (h | rfl) <;> assumption
  · simp

@[grind ←]
theorem nodup_joined (h : xs.Nodup) : (joined xs x).Nodup := by
  unfold joined
  split
  · exact h
  · rw [nodup_append]
    refine ⟨h, by simp, ?_⟩
    rintro a ha b hb rfl
    rw [mem_singleton] at hb
    exact ‹x ∉ xs› (hb ▸ ha)

theorem joined_of_not_mem (h : x ∉ xs) : joined xs x = xs ++ [x] := if_neg h

theorem mem_foldl_joined {ys : List α} : y ∈ ys.foldl joined xs ↔ y ∈ xs ∨ y ∈ ys := by
  induction ys generalizing xs with
  | nil => simp
  | cons z ys ih => rw [foldl_cons, ih, mem_joined, mem_cons, or_assoc]

theorem nodup_foldl_joined (h : xs.Nodup) (ys : List α) : (ys.foldl joined xs).Nodup := by
  induction ys generalizing xs with
  | nil => exact h
  | cons z ys ih => exact ih (nodup_joined h)

/-- Adding what is there changes nothing. -/
theorem foldl_joined_of_subset {ys : List α} (h : ∀ y ∈ ys, y ∈ xs) : ys.foldl joined xs = xs := by
  induction ys with
  | nil => rfl
  | cons z ys ih => grind [joined]

end joined

/-! ## Cohorts -/

theorem Transaction.enlist_of_subset {txn : Transaction} {cohorts : List CohortId}
    (h : ∀ c ∈ cohorts, c ∈ txn.cohorts) : txn.enlist cohorts = txn := by
  unfold enlist
  rw [foldl_joined_of_subset h]

namespace Engine

variable {ω : Type}

section

variable (e : Engine ω) (scope : Scope) (cohorts : List CohortId)

theorem enlist_eq :
    e.enlist scope cohorts = { e with transactions := (e.enlist scope cohorts).transactions } := by
  unfold enlist
  induction scope.lineage generalizing e with
  | nil => rfl
  | cons x xs ih => exact ih _

theorem next_enlist : (e.enlist scope cohorts).transactions.next = e.transactions.next := by
  unfold enlist
  induction scope.lineage generalizing e with
  | nil => rfl
  | cons x xs ih => exact (ih _).trans (Store.next_modify ..)

/-- Cohorts are recorded with every transaction of a scope, and with no other. -/
theorem get?_enlist (x : TxnId) : (e.enlist scope cohorts).transactions.get? x =
      if x ∈ scope.lineage then (e.transactions.get? x).map fun txn => txn.enlist cohorts
      else e.transactions.get? x := by
  unfold enlist
  induction scope.lineage generalizing e with
  | nil => rfl
  | cons y ys ih =>
    rw [foldl_cons, ih]
    show (if x ∈ ys then Option.map _ ((e.transactions.modify y _).get? x)
      else (e.transactions.modify y _).get? x) = _
    rw [Store.get?_modify]
    by_cases hy : x = y
    · subst hy
      rw [if_pos rfl, if_pos mem_cons_self]
      -- once they are recorded, doing it again changes nothing
      have htwice : ∀ txn : Transaction, (txn.enlist cohorts).enlist cohorts = txn.enlist cohorts :=
        fun txn => Transaction.enlist_of_subset fun c hc => mem_foldl_joined.2 (.inr hc)
      split
      · rw [Option.map_map]
        congr 1
        funext txn
        exact htwice txn
      · rfl
    · rw [if_neg hy]
      simp only [mem_cons, hy, false_or]

end

end Engine
/-! ## Changes of a record -/

/-- A region with one more token in it. -/
abbrev Region.seat (t : TokenId) (reg : Region) : Region :=
  { reg with tokens := joined reg.tokens t, live := reg.live + 1 }

abbrev Region.unseat (t : TokenId) (reg : Region) : Region :=
  { reg with tokens := reg.tokens.erase t, live := reg.live - 1 }

/-- A region with one more region in it. -/
abbrev Region.adopt (c : RegionId) (reg : Region) : Region :=
  { reg with children := joined reg.children c, live := reg.live + 1 }

abbrev Region.disown (c : RegionId) (reg : Region) : Region :=
  { reg with children := reg.children.erase c, live := reg.live - 1 }

/-- A group with one more member. -/
abbrev Group.enrol (t : TokenId) (grp : Group) : Group :=
  { grp with members := joined grp.members t }

abbrev Group.dismiss (t : TokenId) (grp : Group) : Group :=
  { grp with members := grp.members.erase t }

/-- A group with one more group below it. -/
abbrev Group.adopt (c : GroupId) (grp : Group) : Group :=
  { grp with children := joined grp.children c }

/-- A token that may go on. -/
abbrev Token.woken (tok : Token) : Token := { tok with phase := .runnable }

end Orchestra
