/-
  Pools are maps whose keys are never used twice.

  The past of a pool is the list of what was asked of it, the latest first.  What is stored under an
  identity is a matter of the past alone (`stored`): the last value that was put there, unless it has
  been removed since.

  1. **Free slots** (`Chained`): from the first free slot on, each free slot knows the next, and all free
     slots are on this chain, each once.  So the place of a new record is free (`insertWith_cases`).

  2. **Fresh identities** (`Kept`): the generation of a slot is the number of records that were removed
     from it, as long as that fits a word.  An identity that was handed out for the slot is of an
     earlier generation, or it is the one of the record that is there.

  3. **Keys** (`store_simulates`): a run keeps its records in stores, whose keys only count.  Such a
     store does what a pool does.
-/
import Mathlib.Data.List.Basic
import Orchestra.Pool
import Orchestra.Proofs.Records

namespace Orchestra

open List

variable {chain : List Nat}

namespace Pool

variable {α : Type}

/-! ## Pasts -/

/-- What is asked of a pool.  Questions that change nothing are left out. -/
inductive Action (α : Type) where
  | insert (record : PoolId → α)
  | modify (id : PoolId) (f : α → α)
  | remove (id : PoolId)

/-- The pool after one more action. -/
def perform (p : Pool α) : Action α → Pool α
  | .insert record => (p.insertWith record).2
  | .modify id f => p.modify id f
  | .remove id => (p.remove id).2

/-- The pool after a past, the latest action first. -/
def since : List (Action α) → Pool α
  | [] => empty
  | a :: past => (since past).perform a

/-- The identities that were handed out, the latest first. -/
def handed : List (Action α) → List PoolId
  | [] => []
  | .insert record :: past => ((since past).insertWith record).1 :: handed past
  | _ :: past => handed past

/-- What is stored under an identity. -/
def stored : List (Action α) → PoolId → Option α
  | [], _ => none
  | .insert record :: past, id =>
    if id = ((since past).insertWith record).1 then some (record id) else stored past id
  | .modify id' f :: past, id => if id = id' then (stored past id).map f else stored past id
  | .remove id' :: past, id => if id = id' then none else stored past id

/-- How many records were removed from a slot. -/
def removals : List (Action α) → Nat → Nat
  | [], _ => 0
  | .remove id :: past, i =>
    removals past i + if id.index = i ∧ (since past).contains id then 1 else 0
  | _ :: past, i => removals past i

end Pool

/-! ## Slots -/

namespace Slot

variable {α : Type}

def generation : Slot α → UInt32
  | occupied _ g => g
  | vacant _ g => g

def isOccupied : Slot α → Bool
  | occupied .. => true
  | vacant .. => false

end Slot

namespace Pool

variable {α : Type} {p : Pool α} {id : PoolId} {i : Nat} {v : α} {past : List (Action α)}

theorem get?_eq_some : p.get? id = some v ↔ p.slots[id.index]? = some (.occupied v id.generation) := by
  grind [get?]

theorem mem_ids : id ∈ p.ids ↔ (p.get? id).isSome := by
  simp only [ids, mem_filterMap, Prod.exists, mem_zipIdx_iff_getElem?,
    Array.getElem?_toList, Option.isSome_iff_exists, get?_eq_some]
  grind

theorem nodup_ids : p.ids.Nodup := by
  have hplaces : p.slots.toList.zipIdx.Pairwise fun a b => a.2 ≠ b.2 :=
    pairwise_map.1 (zipIdx_map_snd 0 p.slots.toList ▸ nodup_range')
  refine pairwise_filterMap.2 (hplaces.imp fun {a b} hne x hx y hy heq => hne ?_)
  grind

theorem length_ids : p.ids.length = p.slots.countP Slot.isOccupied := by
  unfold ids
  have hsame : p.slots.toList.countP Slot.isOccupied =
      p.slots.toList.zipIdx.countP (Slot.isOccupied ∘ Prod.fst) := by
    rw [← countP_map, zipIdx_map_fst]
  rw [length_filterMap_eq_countP, ← Array.countP_toList, hsame]
  refine countP_congr fun a _ => ?_
  obtain ⟨slot, i⟩ := a
  cases slot <;> rfl

/-! ## Free slots -/

/-- The slots of a list are free, and each of them knows the next. -/
inductive Chained (slots : Array (Slot α)) : Option Nat → List Nat → Prop where
  | nil : Chained slots none []
  | cons {i : Nat} {next : Option Nat} {g : UInt32} {rest : List Nat}
    (h : slots[i]? = some (.vacant next g)) (hrest : Chained slots next rest) :
    Chained slots (some i) (i :: rest)

/-- The chain does not depend on other slots. -/
theorem Chained.congr {slots slots' : Array (Slot α)} {head : Option Nat}
    (h : Chained slots head chain) (hsame : ∀ j ∈ chain, slots'[j]? = slots[j]?) :
    Chained slots' head chain := by
  induction h with
  | nil => exact .nil
  | cons hi _ ih =>
    rw [forall_mem_cons] at hsame
    exact .cons (hsame.1.trans hi) (ih hsame.2)

/-- All free slots are on the chain, each once. -/
structure Linked (p : Pool α) (chain : List Nat) : Prop where
  chained : Chained p.slots p.freeHead chain
  nodup : chain.Nodup
  mem : ∀ i, i ∈ chain ↔ ∃ next g, p.slots[i]? = some (.vacant next g)

/-! ## What an action does -/

/-- The pool `p'` differs from `p` in one slot. -/
structure Alters (p p' : Pool α) (i : Nat) (slot : Slot α) : Prop where
  slots : ∀ j, p'.slots[j]? = if j = i then some slot else p.slots[j]?
  grows : p.slots.size ≤ p'.slots.size

theorem alters_set {freeHead : Option Nat} {size : Nat} {slot : Slot α} (hi : i < p.slots.size) :
    Alters p { slots := p.slots.setIfInBounds i slot, freeHead, size } i slot where
  slots j := by grind
  grows := Nat.le_of_eq Array.size_setIfInBounds.symm

theorem countP_set {old : Slot α} (hold : p.slots[i]? = some old) (slot : Slot α) :
    (p.slots.setIfInBounds i slot).countP Slot.isOccupied + (if old.isOccupied then 1 else 0) =
      p.slots.countP Slot.isOccupied + if slot.isOccupied then 1 else 0 := by
  obtain ⟨hi, rfl⟩ := Array.getElem?_eq_some_iff.1 hold
  have hpos : p.slots[i].isOccupied = true → 0 < p.slots.countP Slot.isOccupied := fun h =>
    Array.countP_pos_iff.2 ⟨_, Array.getElem_mem hi, h⟩
  grind

/-- A new record goes into the first free slot, or into a new slot if none is free. -/
theorem insertWith_cases (h : Linked p chain) (record : PoolId → α) :
    ∃ i g, (p.insertWith record).1 = ⟨i, g⟩ ∧
      Alters p (p.insertWith record).2 i (.occupied (record ⟨i, g⟩) g) ∧
      (p.insertWith record).2.size = p.size + 1 ∧
      (p.insertWith record).2.slots.countP Slot.isOccupied = p.slots.countP Slot.isOccupied + 1 ∧
      i < (p.insertWith record).2.slots.size ∧
      (i = p.slots.size ∧ g = 0 ∧ (p.insertWith record).2.freeHead = none ∧ chain = [] ∨
        ∃ next rest, p.slots[i]? = some (.vacant next g) ∧ chain = i :: rest ∧
          (p.insertWith record).2.freeHead = next ∧ Chained p.slots next rest) := by
  obtain ⟨slots, freeHead, size⟩ := p
  cases h.chained with
  | nil =>
    refine ⟨slots.size, 0, rfl, ⟨fun j => ?_, ?_⟩, rfl, ?_, ?_, .inl ⟨rfl, rfl, rfl, rfl⟩⟩
    · exact Array.getElem?_push
    · exact Nat.le_of_lt (by simp [insertWith])
    · simp [insertWith, Array.countP_push, Slot.isOccupied]
    · simp [insertWith]
  | @cons i next g rest hi hrest =>
    have hi : slots[i]? = some (.vacant next g) := hi
    obtain ⟨hlt, -⟩ := Array.getElem?_eq_some_iff.1 hi
    have hinsert : (Pool.mk slots (some i) size).insertWith record = (⟨i, g⟩,
        { slots := slots.setIfInBounds i (.occupied (record ⟨i, g⟩) g)
          freeHead := next, size := size + 1 }) := by
      simp only [insertWith, hi]
    rw [hinsert]
    have hcount := countP_set (p := ⟨slots, some i, size⟩) hi (.occupied (record ⟨i, g⟩) g)
    refine ⟨i, g, rfl, alters_set hlt, rfl, ?_, ?_, .inr ⟨next, rest, hi, rfl, rfl, hrest⟩⟩
    · simpa [Slot.isOccupied] using hcount
    · simpa using hlt

/-- Removing a record frees its slot and gives it the next generation. -/
theorem remove_eq (h : p.get? id = some v) :
    p.remove id = (some v,
      { slots := p.slots.setIfInBounds id.index (.vacant p.freeHead (id.generation + 1))
        freeHead := some id.index, size := p.size - 1 }) := by
  simp [remove, get?_eq_some.1 h]

theorem remove_none (h : p.get? id = none) : p.remove id = (none, p) := by
  grind [get?_eq_some, remove]

theorem modify_eq (h : p.get? id = some v) (f : α → α) :
    p.modify id f =
      { p with slots := p.slots.setIfInBounds id.index (.occupied (f v) id.generation) } := by
  simp [modify, get?_eq_some.1 h]

theorem modify_none (h : p.get? id = none) (f : α → α) : p.modify id f = p := by
  unfold modify
  split
  · rename_i v g hslot
    split
    · rename_i hg
      have hsome := (get?_eq_some (v := v)).2 (hg ▸ hslot)
      rw [h] at hsome
      cases hsome
    · rfl
  · rfl

/-! ## The invariant -/

/-- What is true of a pool after a past. -/
structure Kept (past : List (Action α)) (p : Pool α) (chain : List Nat) : Prop where
  linked : Linked p chain
  size : p.size = p.slots.countP Slot.isOccupied
  /-- The generation of a slot is the number of records removed from it. -/
  generation : ∀ {i slot}, p.slots[i]? = some slot → slot.generation.toNat = removals past i
  unused : ∀ {i}, p.slots.size ≤ i → removals past i = 0
  /-- An identity that was handed out is of an earlier generation, or it names what is there. -/
  handed : ∀ {id}, id ∈ handed past → id.index < p.slots.size ∧
    (id.generation.toNat < removals past id.index ∨ ∃ v, p.get? id = some v)
  fresh : (Pool.handed past).Nodup
  stored : ∀ id, p.get? id = stored past id

/-- At most one identity of a slot finds something. -/
theorem get?_other {id' : PoolId} (h : p.get? id = some v) (hindex : id'.index = id.index)
    (hne : id' ≠ id) : p.get? id' = none := by
  refine Option.eq_none_iff_forall_ne_some.2 fun w hw => hne ?_
  have hslot := get?_eq_some.1 hw
  rw [hindex, get?_eq_some.1 h] at hslot
  obtain ⟨i, g⟩ := id
  obtain ⟨i', g'⟩ := id'
  cases hindex
  cases hslot
  rfl

namespace Alters

variable {p' : Pool α} (hother : ∀ id', id'.index = id.index → id' ≠ id → p.get? id' = none)
include hother

/-- What is found after a slot was given to a record. -/
theorem get?_occupied (h : Alters p p' id.index (.occupied v id.generation)) (id' : PoolId) :
    p'.get? id' = if id' = id then some v else p.get? id' := by
  by_cases hid : id' = id
  · rw [if_pos hid, get?_eq_some, h.slots, hid, if_pos rfl]
  · rw [if_neg hid]
    by_cases hindex : id'.index = id.index
    · rw [hother id' hindex hid]
      refine Option.eq_none_iff_forall_ne_some.2 fun w hw => hid ?_
      rw [get?_eq_some, h.slots, if_pos hindex] at hw
      obtain ⟨i, g⟩ := id
      obtain ⟨i', g'⟩ := id'
      cases hindex
      cases hw
      rfl
    · unfold get?
      rw [h.slots, if_neg hindex]

/-- What is found after a slot became free. -/
theorem get?_vacant {next : Option Nat} {g : UInt32} (h : Alters p p' id.index (.vacant next g))
    (id' : PoolId) : p'.get? id' = if id' = id then none else p.get? id' := by
  by_cases hindex : id'.index = id.index
  · have hnone : p'.get? id' = none := by
      unfold get?
      rw [h.slots, if_pos hindex]
    split
    · exact hnone
    · rw [hnone, hother id' hindex ‹_›]
  · have hid : id' ≠ id := fun heq => hindex (congrArg PoolId.index heq)
    rw [if_neg hid]
    unfold get?
    rw [h.slots, if_neg hindex]

end Alters

namespace Kept

variable {chain : List Nat}

theorem empty : Kept ([] : List (Action α)) Pool.empty [] where
  linked := ⟨.nil, nodup_nil, by simp [Pool.empty]⟩
  size := by simp [Pool.empty]
  generation := by simp [Pool.empty]
  unused _ := rfl
  handed := by simp [Pool.handed]
  fresh := nodup_nil
  stored id := by simp [Pool.get?, Pool.empty, Pool.stored]

/-- The slot of a new record was free, so its identity is new. -/
theorem insert (h : Kept past (since past) chain) (record : PoolId → α) :
    ∃ chain, Kept (.insert record :: past) ((since past).insertWith record).2 chain := by
  obtain ⟨i, g, hid, halters, hsize, hcount, hlt, hplace⟩ := insertWith_cases h.linked record
  -- the slot is new, or it is free and of the generation in the identity
  have hgen : g.toNat = removals past i := by
    rcases hplace with ⟨rfl, rfl, -⟩ | ⟨next, rest, hi, -⟩
    · exact (h.unused (Nat.le_refl _)).symm
    · exact h.generation hi
  have hnone : ∀ g', (since past).get? ⟨i, g'⟩ = none := by
    intro g'
    refine Option.eq_none_iff_forall_ne_some.2 fun v hv => ?_
    grind [get?_eq_some]
  have hnew : (⟨i, g⟩ : PoolId) ∉ Pool.handed past := by
    intro hmem
    rcases (h.handed hmem).2 with hearlier | ⟨v, hv⟩
    · exact Nat.lt_irrefl _ (hgen ▸ hearlier)
    · rw [hnone] at hv
      cases hv
  have hother : ∀ id' : PoolId, id'.index = i → id' ≠ ⟨i, g⟩ → (since past).get? id' = none := by
    rintro ⟨i', g'⟩ hindex -
    cases hindex
    exact hnone g'
  have hget : ∀ id', ((since past).insertWith record).2.get? id' =
      if id' = ⟨i, g⟩ then some (record ⟨i, g⟩) else (since past).get? id' :=
    Alters.get?_occupied hother halters
  have hlinked : ∃ chain, Linked ((since past).insertWith record).2 chain := by
    rcases hplace with ⟨rfl, -, hfree, rfl⟩ | ⟨next, rest, hi, rfl, hfree, hrest⟩
    · refine ⟨[], hfree ▸ .nil, nodup_nil, fun j => ?_⟩
      rw [halters.slots]
      split
      · simp
      · exact h.linked.mem j
    · have hnodup := nodup_cons.1 h.linked.nodup
      refine ⟨rest, ?_, hnodup.2, fun j => ?_⟩
      · rw [hfree]
        refine hrest.congr fun j hj => ?_
        rw [halters.slots, if_neg]
        rintro rfl
        exact hnodup.1 hj
      · rw [halters.slots]
        split
        · rename_i heq
          simp [heq, hnodup.1]
        · rename_i hne
          rw [← h.linked.mem j, mem_cons, or_iff_right hne]
  refine hlinked.imp fun chain hlinked => ⟨hlinked, ?_, ?_, ?_, ?_, ?_, fun id => ?_⟩
  · rw [hsize, hcount, h.size]
  · intro j slot hj
    rw [halters.slots] at hj
    split at hj
    · cases hj
      subst j
      exact hgen
    · exact h.generation hj
  · exact fun hj => h.unused (Nat.le_trans halters.grows hj)
  · intro id hmem
    simp only [Pool.handed, hid, mem_cons] at hmem
    rcases hmem with rfl | hmem
    · exact ⟨hlt, .inr ⟨_, (hget _).trans (if_pos rfl)⟩⟩
    · obtain ⟨hin, hold⟩ := h.handed hmem
      refine ⟨Nat.lt_of_lt_of_le hin halters.grows, hold.imp_right fun ⟨v, hv⟩ => ⟨v, ?_⟩⟩
      rw [hget, if_neg]
      · exact hv
      · rintro rfl
        exact hnew hmem
  · simp only [Pool.handed, hid]
    exact nodup_cons.2 ⟨hnew, h.fresh⟩
  · simp only [Pool.stored, hid]
    rw [hget, ← h.stored]
    split
    · subst id
      rfl
    · rfl

/-- A change in place keeps slots, generations and identities. -/
theorem modify (h : Kept past (since past) chain) (id : PoolId) (f : α → α) :
    Kept (.modify id f :: past) ((since past).modify id f) chain := by
  cases hid : (since past).get? id with
  | none =>
    rw [modify_none hid]
    refine ⟨h.linked, h.size, h.generation, h.unused, h.handed, h.fresh, fun id' => ?_⟩
    have hsame := h.stored id'
    simp only [Pool.stored]
    split
    · subst id'
      rw [← hsame, hid]
      rfl
    · exact hsame
  | some v =>
    have hslot := get?_eq_some.1 hid
    obtain ⟨hlt, -⟩ := Array.getElem?_eq_some_iff.1 hslot
    rw [modify_eq hid]
    have halters : Alters (since past) { (since past) with
        slots := (since past).slots.setIfInBounds id.index (.occupied (f v) id.generation) } id.index
        (.occupied (f v) id.generation) := alters_set hlt
    have hcount := countP_set hslot (.occupied (f v) id.generation)
    have hget := Alters.get?_occupied (fun _ => get?_other hid) halters
    have hother : ∀ i ∈ chain, i ≠ id.index := by
      rintro i hi rfl
      obtain ⟨next, g, hvacant⟩ := (h.linked.mem _).1 hi
      rw [hslot] at hvacant
      cases hvacant
    refine ⟨⟨?_, h.linked.nodup, fun i => ?_⟩, ?_, ?_, ?_, ?_, h.fresh, fun id' => ?_⟩
    · exact h.linked.chained.congr fun j hj => (halters.slots j).trans (if_neg (hother j hj))
    · rw [h.linked.mem, halters.slots]
      split
      · rename_i heq
        simp [heq, hslot]
      · rfl
    · simpa [Slot.isOccupied, h.size] using hcount.symm
    · intro i slot hi
      rw [halters.slots] at hi
      split at hi
      · cases hi
        subst i
        have hgen := h.generation hslot
        exact hgen
      · exact h.generation hi
    · exact fun hi => h.unused (Nat.le_trans halters.grows hi)
    · intro id' hmem
      obtain ⟨hin, hold⟩ := h.handed hmem
      refine ⟨Nat.lt_of_lt_of_le hin halters.grows, hold.imp_right fun ⟨w, hw⟩ => ?_⟩
      rw [hget]
      split
      · exact ⟨_, rfl⟩
      · exact ⟨w, hw⟩
    · simp only [Pool.stored]
      grind [stored]

/-- A slot that becomes free goes to the front of the chain, one generation on. -/
theorem remove (h : Kept past (since past) chain) (id : PoolId)
    (hfit : removals (.remove id :: past) id.index < UInt32.size) :
    ∃ chain, Kept (.remove id :: past) ((since past).remove id).2 chain := by
  cases hid : (since past).get? id with
  | none =>
    have hcount : ∀ i, removals (.remove id :: past) i = removals past i := fun i => by
      simp [removals, contains, hid]
    rw [remove_none hid]
    refine ⟨chain, h.linked, h.size, ?_, ?_, ?_, h.fresh, fun id' => ?_⟩
    · exact fun hi => (h.generation hi).trans (hcount _).symm
    · exact fun hi => (hcount _).trans (h.unused hi)
    · exact fun hmem => hcount _ ▸ h.handed hmem
    · have hsame := h.stored id'
      simp only [Pool.stored]
      split
      · subst id'
        exact hid
      · exact hsame
  | some v =>
    have hslot := get?_eq_some.1 hid
    obtain ⟨hlt, -⟩ := Array.getElem?_eq_some_iff.1 hslot
    have hremovals : ∀ i, removals (.remove id :: past) i =
        removals past i + if id.index = i then 1 else 0 := fun i => by
      simp [removals, contains, hid]
    have hgen := h.generation hslot
    rw [hremovals, if_pos rfl] at hfit
    rw [remove_eq hid]
    have halters : Alters (since past)
        { slots := (since past).slots.setIfInBounds id.index
            (.vacant (since past).freeHead (id.generation + 1))
          freeHead := some id.index, size := (since past).size - 1 } id.index
        (.vacant (since past).freeHead (id.generation + 1)) := alters_set hlt
    have hcount := countP_set hslot (.vacant (since past).freeHead (id.generation + 1))
    have hget := Alters.get?_vacant (fun _ => get?_other hid) halters
    have hnot : id.index ∉ chain := by
      intro hi
      obtain ⟨next, g, hvacant⟩ := (h.linked.mem _).1 hi
      rw [hslot] at hvacant
      cases hvacant
    refine ⟨id.index :: chain, ⟨?_, ?_, fun i => ?_⟩, ?_, ?_, ?_, ?_, h.fresh, fun id' => ?_⟩
    · refine .cons ((halters.slots _).trans (if_pos rfl)) (h.linked.chained.congr fun j hj => ?_)
      rw [halters.slots, if_neg]
      rintro rfl
      exact hnot hj
    · exact nodup_cons.2 ⟨hnot, h.linked.nodup⟩
    · rw [mem_cons, h.linked.mem, halters.slots]
      grind
    · simp [Slot.isOccupied] at hcount
      rw [h.size, ← hcount]
      rfl
    · intro i slot hi
      rw [halters.slots] at hi
      rw [hremovals]
      split at hi
      · cases hi
        subst i
        rw [if_pos rfl, ← hgen]
        show (id.generation + 1).toNat = id.generation.toNat + 1
        rw [UInt32.toNat_add]
        exact Nat.mod_eq_of_lt (hgen ▸ hfit)
      · rename_i hne
        rw [if_neg (Ne.symm hne), h.generation hi]
        rfl
    · grind [unused]
    · intro id' hmem
      obtain ⟨hin, hold⟩ := h.handed hmem
      refine ⟨Nat.lt_of_lt_of_le hin halters.grows, ?_⟩
      rw [hremovals, hget]
      by_cases hindex : id'.index = id.index
      · -- whatever was handed out for this slot is of an earlier generation now
        refine .inl ?_
        rw [if_pos hindex.symm, hindex]
        rcases hold with hearlier | ⟨w, hw⟩
        · rw [hindex] at hearlier
          exact Nat.lt_succ_of_lt hearlier
        · have hsame := get?_eq_some.1 hw
          rw [hindex] at hsame
          exact Nat.lt_succ_of_le (Nat.le_of_eq (h.generation hsame))
      · grind
    · simp only [Pool.stored]
      rw [hget, ← h.stored]

end Kept

theorem removals_le (a : Action α) (i : Nat) : removals past i ≤ removals (a :: past) i := by
  cases a with
  | insert | modify => exact Nat.le_refl _
  | remove id => exact Nat.le_add_right ..

/-- As long as no slot has been through all its generations, the invariant is kept. -/
theorem kept_since (past : List (Action α)) (hfit : ∀ i, removals past i < UInt32.size) :
    ∃ chain, Kept past (since past) chain := by
  induction past with
  | nil => exact ⟨[], .empty⟩
  | cons a past ih =>
    obtain ⟨chain, h⟩ := ih fun i => Nat.lt_of_le_of_lt (removals_le a i) (hfit i)
    cases a with
    | insert record => exact h.insert record
    | modify id f => exact ⟨chain, h.modify id f⟩
    | remove id => exact h.remove id (hfit id.index)

/-- A removed identity that was handed out is never handed out again, and nothing is stored there. -/
theorem stored_of_removed {earlier : List (Action α)} (hfresh : (handed past).Nodup)
    (hremoved : .remove id :: earlier <:+ past) (hid : id ∈ handed earlier) :
    stored past id = none ∧ id ∈ handed past := by
  induction past with
  | nil => simp at hremoved
  | cons a past ih =>
    rcases suffix_cons_iff.1 hremoved with heq | hearlier
    · cases heq
      exact ⟨if_pos rfl, hid⟩
    · cases a with
      | insert record =>
        obtain ⟨hnew, hfresh⟩ := nodup_cons.1 hfresh
        obtain ⟨hnone, hmem⟩ := ih hfresh hearlier
        refine ⟨?_, mem_cons_of_mem _ hmem⟩
        grind [stored]
      | modify id' f =>
        obtain ⟨hnone, hmem⟩ := ih hfresh hearlier
        refine ⟨?_, hmem⟩
        simp only [stored, hnone]
        split <;> rfl
      | remove id' =>
        obtain ⟨hnone, hmem⟩ := ih hfresh hearlier
        refine ⟨?_, hmem⟩
        simp only [stored, hnone]
        split <;> rfl

variable {k : Kind} {id' : PoolId}

/-- The key that stands for an identity: keys count the identities that were handed out. -/
def keyOf (k : Kind) (past : List (Action α)) (id : PoolId) : Key k :=
  ⟨(handed past).reverse.idxOf id⟩

/-- The store to which all is done that is done to the pool. -/
def mirrored (k : Kind) : List (Action α) → Store k α
  | [] => .empty
  | .insert record :: past => (mirrored k past).insert (record ((since past).insertWith record).1)
  | .modify id f :: past => (mirrored k past).modify (keyOf k past id) f
  | .remove id :: past => (mirrored k past).remove (keyOf k past id)

theorem next_mirrored (past : List (Action α)) : (mirrored k past).next = ⟨(handed past).length⟩ := by
  induction past with
  | nil => rfl
  | cons a past ih =>
    cases a with
    | insert record =>
      refine congrArg Key.mk ((Store.next_insert ..).trans ?_)
      rw [ih, handed, length_cons]
    | modify id f => exact (Store.next_modify ..).trans ih
    | remove id => exact (Store.next_remove ..).trans ih

/-- What was not handed out has the key that is handed out next. -/
theorem keyOf_unused (hid : id ∉ handed past) : keyOf k past id = (mirrored k past).next := by
  rw [next_mirrored, keyOf, idxOf_eq_length (mt mem_reverse.1 hid), length_reverse]

theorem keyOf_inj (hid : id ∈ handed past) (h : keyOf k past id = keyOf k past id') : id = id' :=
  (idxOf_inj (mem_reverse.2 hid)).1 (congrArg Key.index h)

/-- A key stands for its identity ever after. -/
theorem keyOf_cons (a : Action α) (hid : id ∈ handed past) :
    keyOf k (a :: past) id = keyOf k past id := by
  cases a with
  | insert record =>
    rw [keyOf, handed, reverse_cons, idxOf_append_of_mem (mem_reverse.2 hid), keyOf]
  | modify | remove => rfl

/-- A new identity has the key that the store hands out. -/
theorem keyOf_new {record : PoolId → α} (h : (handed (.insert record :: past)).Nodup) :
    keyOf k (.insert record :: past) ((since past).insertWith record).1 = (mirrored k past).next := by
  have hnew := mt mem_reverse.1 (nodup_cons.1 h).1
  rw [keyOf, handed, reverse_cons, idxOf_append_of_notMem hnew, idxOf_cons_self,
    next_mirrored, length_reverse, Nat.add_zero]

/-- To change what is found under a key is to change what is found under its identity. -/
theorem ite_keyOf (g : Option α → Option α) (hg : g none = none) {found : Option α}
    (hfound : (mirrored k past).get? (keyOf k past id) = found) :
    (if keyOf k past id = keyOf k past id' then g found else found) =
      if id = id' then g found else found := by
  by_cases hid : id ∈ handed past
  · exact if_congr ⟨keyOf_inj hid, congrArg _⟩ rfl rfl
  · rw [keyOf_unused hid, Store.get?_next] at hfound
    rw [← hfound, hg, ite_self, ite_self]

/-- The store holds under the key of an identity what is stored under the identity. -/
theorem get?_mirrored (hfresh : (handed past).Nodup) (id : PoolId) :
    (mirrored k past).get? (keyOf k past id) = stored past id := by
  induction past with
  | nil => exact Store.get?_empty _
  | cons a past ih =>
    cases a with
    | insert record =>
      have ih := ih (nodup_cons.1 hfresh).2
      rw [stored, mirrored, ← ih]
      split
      · rename_i hid
        rw [hid, keyOf_new hfresh, Store.get?_insert_self]
      · rename_i hne
        by_cases hid : id ∈ handed past
        · have hkey := keyOf_cons (k := k) (.insert record) hid
          rw [hkey]
          refine Store.get?_insert_of_ne _ _ fun hnext => hne ?_
          rw [← keyOf_new hfresh, ← hkey] at hnext
          have hmem : id ∈ handed (.insert record :: past) := mem_cons_of_mem _ hid
          exact keyOf_inj hmem hnext
        · have hout : id ∉ handed (.insert record :: past) :=
            fun hmem => (mem_cons.1 hmem).elim hne hid
          rw [keyOf_unused hid, Store.get?_next, keyOf_unused hout, mirrored, Store.get?_next]
    | modify id' f =>
      have hchanged := Store.get?_modify (mirrored k past) (keyOf k past id') (keyOf k past id) f
      rw [ih hfresh] at hchanged
      exact hchanged.trans (ite_keyOf (Option.map f) rfl (ih hfresh))
    | remove id' =>
      have hchanged := Store.get?_remove (mirrored k past) (keyOf k past id') (keyOf k past id)
      rw [ih hfresh] at hchanged
      exact hchanged.trans (ite_keyOf (fun _ => none) rfl (ih hfresh))

/-- The store counts as many records as the pool. -/
theorem size_mirrored (hfit : ∀ i, removals past i < UInt32.size) :
    (mirrored k past).size = (since past).size := by
  induction past with
  | nil => rfl
  | cons a past ih =>
    have hfit' := fun i => Nat.lt_of_le_of_lt (removals_le a i) (hfit i)
    obtain ⟨chain, h⟩ := kept_since past hfit'
    have ih := ih hfit'
    cases a with
    | insert record =>
      obtain ⟨-, -, -, -, hsize, -⟩ := insertWith_cases h.linked record
      exact (congrArg (· + 1) ih).trans hsize.symm
    | modify id f =>
      refine (Store.size_modify f).trans (ih.trans ?_)
      show _ = ((since past).modify id f).size
      cases hid : (since past).get? id with
      | none => rw [modify_none hid]
      | some v => rw [modify_eq hid]
    | remove id =>
      have hfound := get?_mirrored (k := k) h.fresh id
      rw [← h.stored] at hfound
      show ((mirrored k past).remove _).size = ((since past).remove id).2.size
      cases hid : (since past).get? id with
      | none => rw [remove_none hid, Store.size_remove_none (hfound.trans hid), ih]
      | some v =>
        have hsize := Store.size_remove (hfound.trans hid)
        rw [remove_eq hid]
        show _ = (since past).size - 1
        omega

/-- A store with keys that only count simulates a pool: it does the same in every past in which no
    slot has been through all its generations.  Different identities have different keys, which stand
    for them ever after; a new identity has the key that the store hands out; the same is found under
    each; and as many records are counted. -/
theorem store_simulates (k : Kind) (past : List (Action α))
    (hfit : ∀ i, removals past i < UInt32.size) :
    (∀ id, (mirrored k past).get? (keyOf k past id) = (since past).get? id) ∧
    (mirrored k past).size = (since past).size ∧
    (∀ record, keyOf k (.insert record :: past) ((since past).insertWith record).1 =
      (mirrored k past).next) ∧
    ∀ id ∈ handed past, (∀ a, keyOf k (a :: past) id = keyOf k past id) ∧
      ∀ id', keyOf k past id = keyOf k past id' → id = id' := by
  obtain ⟨chain, h⟩ := kept_since past hfit
  refine ⟨fun id => ?_, size_mirrored hfit, fun record => ?_, fun id hid => ⟨?_, fun _ => ?_⟩⟩
  · rw [get?_mirrored h.fresh, h.stored]
  · obtain ⟨_, h'⟩ := h.insert record
    exact keyOf_new h'.fresh
  · exact fun a => keyOf_cons a hid
  · exact keyOf_inj hid

end Pool
end Orchestra
