/-
  Heaps.

  A heap is a binary tree in which no entry is greater than the one above it, so a greatest one is
  at the top.  A new entry goes down on the right, and the sides change places on its way, which
  keeps the tree balanced.  When the top is taken out, the greater one of the two below it comes up in
  its stead, and so on down.
-/

namespace Orchestra

/-- A collection of entries from which a greatest one can be taken. -/
inductive Heap (α : Type) where
  | nil
  | node (top : α) (left right : Heap α)

namespace Heap

variable {α : Type} [Ord α]

/-- The entries, the one at the top first. -/
def toList : Heap α → List α
  | nil => []
  | node top left right => top :: (left.toList ++ right.toList)

def size (h : Heap α) : Nat := h.toList.length

/-- Puts an entry in. -/
def push (x : α) : Heap α → Heap α
  | nil => node x nil nil
  | node top left right =>
    if compare x top = .gt then node x (push top right) left else node top (push x right) left

/-- Takes the top out. -/
def removeTop : Heap α → Heap α
  | nil => nil
  | node _ nil right => right
  | node _ left nil => left
  | node _ (node x l r) (node y l' r') =>
    if compare x y = .gt then node x (removeTop (node x l r)) (node y l' r')
    else node y (node x l r) (removeTop (node y l' r'))

/-- Takes a greatest entry out, if there is any. -/
def pop? : Heap α → Option (α × Heap α)
  | nil => none
  | node top left right => some (top, removeTop (node top left right))

/-- Drops the entries that fail `keep`. -/
def retain (h : Heap α) (keep : α → Bool) : Heap α := (h.toList.filter keep).foldr push nil

/-- Taking the top out leaves all others. -/
theorem perm_removeTop (h : Heap α) : h.removeTop.toList.Perm h.toList.tail := by
  fun_induction removeTop h with
  | case1 | case2 => exact .refl _
  | case3 top left => simp [toList]
  | case4 top x l r y l' r' _ ih => exact (ih.append_right _).cons x
  | case5 top x l r y l' r' _ ih =>
    exact ((ih.append_left _).cons y).trans List.perm_middle.symm

theorem size_of_pop? {h rest : Heap α} {x : α} (hp : h.pop? = some (x, rest)) :
    rest.size < h.size := by
  cases h with
  | nil => cases hp
  | node top left right =>
    cases hp
    exact Nat.lt_succ_of_le (Nat.le_of_eq (perm_removeTop _).length_eq)

end Heap
end Orchestra
