/-
  The schedule of suspended calls.

  A call that does not answer at once becomes a TASK: it sleeps for some milliseconds and then
  sends its message.  Tasks wait in a queue until the engine gives way; then each of them, in
  order, goes to sleep or, if it has no time to sleep, ends.  Time is simulated.  It moves only
  when the engine has nothing else to do and no message has come, and then it moves to the
  moment when the first sleeper wakes.
-/
import Orchestra.Engine.Host

namespace Orchestra

/-- A suspended call. -/
structure Task where
  /-- How many milliseconds it sleeps. -/
  sleep : Nat := 0
  /-- What it sends at its end. -/
  message : Message

/-- A task that sleeps until a moment. -/
structure Sleeper where
  due : Nat
  message : Message

/-- The suspended calls and the simulated time in milliseconds. -/
structure Schedule where
  now : Nat := 0
  /-- The tasks that have not run yet. -/
  queue : List Task := []
  /-- The tasks asleep, in the order in which they went to sleep. -/
  asleep : List Sleeper := []

namespace Schedule

/-- Adds a task to the queue. -/
def add (s : Schedule) (t : Task) : Schedule := { s with queue := s.queue ++ [t] }

/-- Runs every task of the queue up to its sleep or its end, and gives the messages sent. -/
def runQueue (s : Schedule) : List Message × Schedule :=
  let (ended, sleepy) := s.queue.partition fun t => t.sleep = 0
  let asleep := s.asleep ++ sleepy.map fun t => ⟨s.now + t.sleep, t.message⟩
  (ended.map Task.message, { s with queue := [], asleep })

/-- Moves time to the moment when the first sleeper wakes, and gives the messages of all that
    wake then; nothing if nobody sleeps. -/
def jump (s : Schedule) : Option (List Message × Schedule) := do
  let now ← (s.asleep.map Sleeper.due).min?
  let (awake, asleep) := s.asleep.partition fun t => t.due ≤ now
  return (awake.map Sleeper.message, { s with now, asleep })

/-- Runs the queue and, if that sends no message, lets time pass until something does. -/
def await (s : Schedule) : Option (List Message × Schedule) :=
  match s.runQueue with
  | ([], s) => s.jump
  | sent => some sent

/-! ## Examples -/

/-- Time jumps to the first moment at which somebody wakes, and no further. -/
example :
    ((({ asleep := [⟨7, .terminate⟩, ⟨5, .terminate⟩, ⟨5, .terminate⟩] } : Schedule).await).map
      fun (sent, s) => (sent.length, s.now, s.asleep.length)) = some (2, 5, 1) := by
  decide

end Schedule
end Orchestra
