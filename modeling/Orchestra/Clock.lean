/-
  Virtual clocks.

  A virtual clock counts ticks in a 64-bit word and holds timers, each with the tick at which it
  is due.  It stands still until it is told to tick; then every timer that has become due is
  released, the earliest deadline first and, for equal deadlines, in the order in which they
  were set.  The list of timers is kept in that order.
-/

namespace Orchestra

/-- A payload to be released at a tick. -/
structure Timer (α : Type) where
  deadline : UInt64
  payload : α
deriving DecidableEq, Repr

/-- A clock and its pending timers, in the order of their release. -/
structure Clock (α : Type) where
  now : UInt64 := 0
  timers : List (Timer α) := []
deriving Repr

namespace Clock

variable {α : Type}

instance : Inhabited (Clock α) := ⟨{}⟩

/-- A clock without timers that shows the tick `now`. -/
def startingAt (now : UInt64) : Clock α := { now }

/-- The number of pending timers. -/
def pending (c : Clock α) : Nat := c.timers.length

def isIdle (c : Clock α) : Bool := c.timers.isEmpty

/-- The tick `delay` ticks from `now`; the last tick there is if that lies beyond it. -/
def deadlineAfter (now delay : UInt64) : UInt64 :=
  if now.toNat + delay.toNat < UInt64.size then now + delay else 0xffffffffffffffff

/-- Puts a timer behind all that are due no later. -/
def insertTimer (t : Timer α) : List (Timer α) → List (Timer α)
  | [] => [t]
  | u :: us => if u.deadline ≤ t.deadline then u :: insertTimer t us else t :: u :: us

/-- Sets a timer `delay` ticks from now. -/
def schedule (c : Clock α) (delay : UInt64) (payload : α) : Clock α :=
  { c with timers := insertTimer ⟨deadlineAfter c.now delay, payload⟩ c.timers }

/-- Forgets the timers whose payload fails `keep`. -/
def retain (c : Clock α) (keep : α → Bool) : Clock α :=
  { c with timers := c.timers.filter fun t => keep t.payload }

/-- Moves one tick forward and releases what has become due. -/
def tick (c : Clock α) : List α × Clock α :=
  let now := c.now + 1
  let due := c.timers.takeWhile fun t => t.deadline ≤ now
  (due.map Timer.payload, { now, timers := c.timers.dropWhile fun t => t.deadline ≤ now })

/-! ## Examples -/

/-- A timer that is due at once is released by the next tick, like one that is due then. -/
example : ((({} : Clock Nat).schedule 1 10).schedule 0 20).tick.1 = [20, 10] := by decide

end Clock
end Orchestra
