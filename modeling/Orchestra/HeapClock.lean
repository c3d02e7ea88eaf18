/-
  Clocks on a heap.

  A clock of this kind keeps its timers in a heap.  Each timer has a sequence number, the number of
  timers that were set before it.  A heap gives the greatest entry first, so timers are compared the
  other way around: one with an earlier deadline is greater and, of two with equal deadlines, the one
  with the smaller sequence number.

  The tick and the sequence number are 64-bit words that are never wrapped: where one would leave
  its range, there is no clock after that.
-/
import Orchestra.Clock
import Orchestra.Heap

namespace Orchestra

/-- A payload to be released at a tick, and the number of its timer. -/
structure Alarm (α : Type) where
  deadline : UInt64
  seq : UInt64
  payload : α

/-- The earlier deadline is the greater one, then the smaller number. -/
instance {α : Type} : Ord (Alarm α) where
  compare a b := (compare b.deadline a.deadline).then (compare b.seq a.seq)

/-- A clock whose pending timers are in a heap. -/
structure HeapClock (α : Type) where
  now : UInt64 := 0
  nextSeq : UInt64 := 0
  timers : Heap (Alarm α) := .nil

namespace HeapClock

variable {α : Type}

/-- A clock without timers that shows the tick `now`. -/
def startingAt (now : UInt64) : HeapClock α := { now }

/-- The number of pending timers. -/
def pending (c : HeapClock α) : Nat := c.timers.size

def isIdle (c : HeapClock α) : Bool := c.pending == 0

/-- The next word, if it is in range. -/
def successor? (n : UInt64) : Option UInt64 :=
  if n = 0xffffffffffffffff then none else some (n + 1)

/-- Sets a timer `delay` ticks from now. -/
def schedule (c : HeapClock α) (delay : UInt64) (payload : α) : Option (HeapClock α) := do
  let nextSeq ← successor? c.nextSeq
  let timer := ⟨Clock.deadlineAfter c.now delay, c.nextSeq, payload⟩
  return { c with nextSeq, timers := c.timers.push timer }

/-- Forgets the timers whose payload fails `keep`. -/
def retain (c : HeapClock α) (keep : α → Bool) : HeapClock α :=
  { c with timers := c.timers.retain fun t => keep t.payload }

/-- Takes timers out of the heap as long as the first one is due. -/
def takeDue (now : UInt64) (timers : Heap (Alarm α)) : List α × Heap (Alarm α) :=
  match _h : timers.pop? with
  | none => ([], timers)
  | some (first, rest) =>
    if first.deadline ≤ now then
      let (due, left) := takeDue now rest
      (first.payload :: due, left)
    else ([], timers)
termination_by timers.size
decreasing_by exact Heap.size_of_pop? _h

/-- Moves one tick forward and releases what has become due. -/
def tick (c : HeapClock α) : Option (List α × HeapClock α) := do
  let now ← successor? c.now
  let (due, timers) := takeDue now c.timers
  return (due, { c with now, timers })

/-- Ticks `n` times and gives everything released on the way, after what is in `acc`. -/
def ticks (acc : List α) (c : HeapClock α) : (n : Nat) → Option (List α × HeapClock α)
  | 0 => some (acc, c)
  | n + 1 => do
    let (due, c) ← c.tick
    ticks (acc ++ due) c n

/-- Ticks until no timer is left, at most `fuel` times, and gives what was released at which
    tick, after what is in `acc`. -/
def drainFrom (acc : List (List α × UInt64)) (c : HeapClock α) :
    (fuel : Nat) → Option (List (List α × UInt64) × HeapClock α)
  | 0 => some (acc, c)
  | fuel + 1 =>
    if c.isIdle then some (acc, c)
    else do
      let (due, c) ← c.tick
      drainFrom (if due.isEmpty then acc else acc ++ [(due, c.now)]) c fuel

/-- Ticks until no timer is left and gives what was released at which tick.  By the last deadline all
    timers have been released. -/
def drain (c : HeapClock α) : Option (List (List α × UInt64) × HeapClock α) :=
  let last := c.timers.toList.foldl (fun last t => max last t.deadline) c.now
  drainFrom [] c ((last - c.now).toNat + 1)

end HeapClock
end Orchestra
