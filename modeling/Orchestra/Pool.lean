/-
  Pools: stores that use the room of removed records again.

  A pool keeps its records in numbered slots.  A removed slot goes onto a chain of free slots,
  the most recently freed first, and is taken from there before a new slot is made.  Each slot
  has a GENERATION, a 32-bit word that goes up when its record is removed; an identity names a
  slot together with a generation, so an identity of a removed record finds nothing even when
  its slot is in use again.

  A pool is the compact counterpart of `Store`: same view, bounded room, and identities that
  repeat only once a slot has been through all its generations.
-/

namespace Orchestra

/-- The identity of a record in a pool. -/
structure PoolId where
  index : Nat
  generation : UInt32
deriving DecidableEq, Repr

def PoolId.text (id : PoolId) : String :=
  "#" ++ toString id.index ++ ":" ++ toString id.generation.toNat

/-- A slot holds a record, or it is free and knows the next free slot. -/
inductive Slot (α : Type) where
  | occupied (value : α) (generation : UInt32)
  | vacant (nextFree : Option Nat) (generation : UInt32)

/-- A pool of records. -/
structure Pool (α : Type) where
  slots : Array (Slot α) := #[]
  /-- The first free slot. -/
  freeHead : Option Nat := none
  /-- The number of records. -/
  size : Nat := 0

namespace Pool

variable {α : Type}

def empty : Pool α := {}

def isEmpty (p : Pool α) : Bool := p.size = 0

/-- The record with an identity, unless it has been removed. -/
def get? (p : Pool α) (id : PoolId) : Option α :=
  match p.slots[id.index]? with
  | some (.occupied value generation) => if generation = id.generation then some value else none
  | _ => none

def contains (p : Pool α) (id : PoolId) : Bool := (p.get? id).isSome

/-- Adds a record made from its own identity, in the first free slot or else in a new one at the
    end. -/
def insertWith (p : Pool α) (record : PoolId → α) : PoolId × Pool α :=
  let fresh : PoolId × Pool α :=
    let id : PoolId := ⟨p.slots.size, 0⟩
    (id, { p with slots := p.slots.push (.occupied (record id) 0), size := p.size + 1 })
  match p.freeHead with
  | none => fresh
  | some index =>
    match p.slots[index]? with
    | some (.vacant nextFree generation) =>
      let id : PoolId := ⟨index, generation⟩
      (id,
        { slots := p.slots.setIfInBounds index (.occupied (record id) generation)
          freeHead := nextFree
          size := p.size + 1 })
    -- the chain of free slots never leads to another slot
    | _ => fresh

/-- Adds a record. -/
def insert (p : Pool α) (a : α) : PoolId × Pool α := p.insertWith fun _ => a

/-- Replaces a record by its image under `f`. -/
def modify (p : Pool α) (id : PoolId) (f : α → α) : Pool α :=
  match p.slots[id.index]? with
  | some (.occupied value generation) =>
    if generation = id.generation then
      { p with slots := p.slots.setIfInBounds id.index (.occupied (f value) generation) }
    else p
  | _ => p

/-- Removes a record; its slot is the first to be used again, under the next generation. -/
def remove (p : Pool α) (id : PoolId) : Option α × Pool α :=
  match p.slots[id.index]? with
  | some (.occupied value generation) =>
    if generation = id.generation then
      (some value,
        { slots := p.slots.setIfInBounds id.index (.vacant p.freeHead (generation + 1))
          freeHead := some id.index
          size := p.size - 1 })
    else (none, p)
  | _ => (none, p)

/-- The identities of all records, by slot. -/
def ids (p : Pool α) : List PoolId :=
  p.slots.toList.zipIdx.filterMap fun (slot, index) =>
    match slot with
    | .occupied _ generation => some ⟨index, generation⟩
    | .vacant .. => none

end Pool
end Orchestra
