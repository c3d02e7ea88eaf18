/-
  Stores: finite maps whose keys are handed out by the map and never used twice.

  The records of a run (tokens, groups, regions, transactions) refer to each other by KEY.  A key
  stays valid as a name after its record is gone: looking it up then finds nothing, whatever has
  been stored since.  That is what lets a late answer for a dead token be ignored.

  Main statements, in the section on the view `get?`:
  * `get?_insert_self`, `get?_insert_of_ne`  a new record is found under the new key only;
  * `get?_next`                              the key to be handed out next names nothing yet;
  * `get?_remove_self`, `get?_remove_of_ne`  removal forgets one key and no other;
  * `get?_modify`                            an update acts on one record.
-/

namespace Orchestra

/-- What a key names. -/
inductive Kind where
  | token
  | group
  | region
  | transaction
deriving DecidableEq, Repr

/-- The name of a record of kind `k`. -/
structure Key (k : Kind) where
  index : Nat
deriving DecidableEq, Repr

abbrev TokenId := Key .token
abbrev GroupId := Key .group
abbrev RegionId := Key .region
abbrev TxnId := Key .transaction

/-- A finite map from keys of kind `k`.  Slot `i` holds the record of the key with index `i`, or
    nothing once it has been removed; slots are only ever added at the end. -/
structure Store (k : Kind) (α : Type) where
  slots : Array (Option α) := #[]
  /-- The number of records, kept so that it need not be counted. -/
  size : Nat := 0
  size_eq : size = slots.countP Option.isSome := by simp

namespace Store

variable {k : Kind} {α : Type}

instance : Inhabited (Store k α) := ⟨{}⟩

/-- The store with no records, all of whose keys are yet to be handed out. -/
def empty : Store k α := {}

/-- The key that the next insertion hands out. -/
def next (s : Store k α) : Key k := ⟨s.slots.size⟩

/-- The record under a key, if it is there. -/
def get? (s : Store k α) (id : Key k) : Option α := (s.slots[id.index]?).join

def contains (s : Store k α) (id : Key k) : Bool := (s.get? id).isSome

/-- Adds a record under the key `s.next`. -/
def insert (s : Store k α) (a : α) : Store k α where
  slots := s.slots.push (some a)
  size := s.size + 1
  size_eq := by simp [s.size_eq]

/-- Applies `f` to the record under a key, if it is there. -/
def modify (s : Store k α) (id : Key k) (f : α → α) : Store k α :=
  if h : id.index < s.slots.size then
    { slots := s.slots.set id.index (s.slots[id.index].map f)
      size := s.size
      size_eq := by
        have := s.size_eq
        by_cases hs : s.slots[id.index].isSome
        · have : 0 < s.slots.countP Option.isSome :=
            Array.countP_pos_iff.2 ⟨_, Array.getElem_mem h, hs⟩
          simp [Array.countP_set, hs]
          omega
        · simpa [Array.countP_set, hs] using this }
  else s

/-- Removes the record under a key, if it is there. -/
def remove (s : Store k α) (id : Key k) : Store k α :=
  if h : id.index < s.slots.size then
    { slots := s.slots.set id.index none
      size := s.size - if s.slots[id.index].isSome then 1 else 0
      size_eq := by simp [Array.countP_set, s.size_eq] }
  else s

/-- The keys of all records, oldest first. -/
def keys (s : Store k α) : List (Key k) :=
  ((List.range s.slots.size).map Key.mk).filter s.contains

/-! ## The view `get?` -/

@[simp] theorem get?_empty (id : Key k) : (empty : Store k α).get? id = none := by
  simp [empty, get?]

/-- The key that is handed out next names nothing yet. -/
@[simp] theorem get?_next (s : Store k α) : s.get? s.next = none := by
  simp [get?, next]

@[simp] theorem get?_insert_self (s : Store k α) (a : α) : (s.insert a).get? s.next = some a := by
  simp [get?, next, insert]

theorem get?_insert_of_ne (s : Store k α) (a : α) {id : Key k} (h : id ≠ s.next) :
    (s.insert a).get? id = s.get? id := by
  have : id.index ≠ s.slots.size := fun e => h (by cases id; simp_all [next])
  simp [get?, insert, Array.getElem?_push, this]

@[simp] theorem get?_remove_self (s : Store k α) (id : Key k) : (s.remove id).get? id = none := by
  unfold remove
  split
  · simp [get?, *]
  · simp [get?, *]

theorem get?_remove_of_ne (s : Store k α) {id id' : Key k} (h : id' ≠ id) :
    (s.remove id).get? id' = s.get? id' := by
  have : id.index ≠ id'.index := fun e => h (by cases id; cases id'; simp_all)
  unfold remove
  split
  · simp [get?, this]
  · rfl

theorem get?_modify (s : Store k α) (id id' : Key k) (f : α → α) :
    (s.modify id f).get? id' = if id' = id then (s.get? id').map f else s.get? id' := by
  unfold modify
  by_cases e : id' = id
  · subst e
    split
    · simp [get?, *]
    · simp [get?, *]
  · have : id.index ≠ id'.index := fun h => e (by cases id; cases id'; simp_all)
    split
    · simp [get?, this]
    · simp

end Store
end Orchestra
