/-
  A heap gives its entries in order.

  Each operation leaves the entries in order (`Ordered`), and leaves those that it should.  What is
  taken out is the top, which no other entry exceeds.
-/
import Orchestra.Heap

namespace Orchestra.Heap

open List

variable {α : Type} [Ord α] {h rest l r : Heap α} {x y : α}

/-- No entry exceeds one that stands above it. -/
def Ordered : Heap α → Prop
  | nil => True
  | node top left right =>
    (∀ y ∈ left.toList ++ right.toList, (compare y top).isLE) ∧ left.Ordered ∧ right.Ordered

/-! ## What is in a heap -/

theorem perm_push (x : α) (h : Heap α) : (h.push x).toList.Perm (x :: h.toList) := by
  induction h generalizing x with
  | nil => exact .refl _
  | node top left right _ ih =>
    unfold push
    -- what goes down comes to stand on the other side
    have hdown : ∀ y, ((right.push y).toList ++ left.toList).Perm
        (y :: (left.toList ++ right.toList)) := fun y =>
      ((ih y).append_right _).trans (perm_append_comm.cons y)
    split
    · exact (hdown top).cons x
    · exact ((hdown x).cons top).trans (.swap ..)

theorem perm_retain (h : Heap α) (keep : α → Bool) :
    (h.retain keep).toList.Perm (h.toList.filter keep) := by
  unfold retain
  induction h.toList.filter keep with
  | nil => exact .refl _
  | cons x kept ih => exact (perm_push ..).trans (ih.cons x)

theorem pop?_eq_none (hn : h.pop? = none) : h.toList = [] := by
  cases h with
  | nil => rfl
  | node top left right => cases hn

/-! ## Order -/

theorem isLE_of_ne_gt (h : compare x y ≠ .gt) : (compare x y).isLE := by
  cases hc : compare x y <;> simp_all

variable [Std.TransOrd α]

theorem isLE_of_gt (h : compare x y = .gt) : (compare y x).isLE := by
  have hswap : compare y x = (compare x y).swap := Std.OrientedCmp.eq_swap
  rw [hswap, h]
  rfl

/-- What does not exceed the top of a heap in order exceeds nothing above it. -/
theorem Ordered.le_of_top (ho : (node x l r).Ordered) (hxy : (compare x y).isLE) :
    ∀ z ∈ (node x l r).toList, (compare z y).isLE := by
  intro z hz
  rcases mem_cons.1 hz with rfl | hz
  · exact hxy
  · exact Std.TransCmp.isLE_trans (ho.1 z hz) hxy

/-- A new entry goes down on one side, and the greater one always stays above. -/
theorem Ordered.push (ho : h.Ordered) (x : α) : (h.push x).Ordered := by
  induction h generalizing x with
  | nil => exact ⟨nofun, trivial, trivial⟩
  | node top left right _ ih =>
    obtain ⟨htop, hleft, hright⟩ := ho
    unfold Heap.push
    split
    · rename_i hgt
      refine ⟨fun z hz => ?_, ih hright top, hleft⟩
      refine Ordered.le_of_top ⟨htop, hleft, hright⟩ (isLE_of_gt hgt) z ?_
      exact (((perm_push ..).append_right _).trans (perm_append_comm.cons top)).mem_iff.1 hz
    · rename_i hle
      refine ⟨fun z hz => ?_, ih hright x, hleft⟩
      rcases mem_append.1 hz with hz | hz
      · rcases mem_cons.1 ((perm_push ..).mem_iff.1 hz) with rfl | hz
        · exact isLE_of_ne_gt hle
        · exact htop z (mem_append_right _ hz)
      · exact htop z (mem_append_left _ hz)

theorem Ordered.retain (h : Heap α) (keep : α → Bool) : (h.retain keep).Ordered := by
  unfold Heap.retain
  induction h.toList.filter keep with
  | nil => trivial
  | cons x kept ih => exact ih.push x

/-- The greater of the two tops below comes up. -/
theorem Ordered.removeTop (ho : h.Ordered) : h.removeTop.Ordered := by
  fun_induction Heap.removeTop h with
  | case1 => trivial
  | case2 => exact ho.2.2
  | case3 => exact ho.2.1
  | case4 top x l r y l' r' hgt ih =>
    obtain ⟨-, hleft, hright⟩ := ho
    refine ⟨fun z hz => ?_, ih hleft, hright⟩
    rcases mem_append.1 hz with hz | hz
    · exact hleft.1 z ((perm_removeTop _).mem_iff.1 hz)
    · exact hright.le_of_top (isLE_of_gt hgt) z hz
  | case5 top x l r y l' r' hle ih =>
    obtain ⟨-, hleft, hright⟩ := ho
    refine ⟨fun z hz => ?_, hleft, ih hright⟩
    rcases mem_append.1 hz with hz | hz
    · exact hleft.le_of_top (isLE_of_ne_gt hle) z hz
    · exact hright.1 z ((perm_removeTop _).mem_iff.1 hz)

/-- What is taken out is an entry that no other exceeds, and the others stay. -/
theorem Ordered.pop? (ho : h.Ordered) (hp : h.pop? = some (x, rest)) :
    rest.Ordered ∧ h.toList.Perm (x :: rest.toList) ∧ ∀ y ∈ h.toList, (compare y x).isLE := by
  cases h with
  | nil => cases hp
  | node top left right =>
    cases hp
    have hself : (compare x x).isLE := by simp
    exact ⟨ho.removeTop, (perm_removeTop (node x left right)).symm.cons x,
      ho.le_of_top hself⟩

end Orchestra.Heap
