/-
  Operations: what sites do, said as data.

  A site is known to the engine by its name, its identity and the way it is called.  What it
  does is an OPERATION.  Some operations are about COHORTS, which are either containers or
  scripted: the latter hold nothing and vote as they are told to.
-/
import Orchestra.Library.Container
import Orchestra.Library.Primitive

namespace Orchestra

/-! ## Cohorts -/

/-- How a scripted cohort votes. -/
inductive Policy where
  | approve
  | reject
  /-- Drops the vote, which counts as a rejection. -/
  | forget
  /-- Votes after some milliseconds. -/
  | late (millis : Nat) (approves : Bool)
deriving DecidableEq, Repr

/-- A holder of state that takes part in transactions. -/
inductive Cohort where
  | container (c : Container)
  /-- A cohort with nothing to hold, whose votes are laid down and whose part in every
      transaction is an event.  It is named by the site that enlists it. -/
  | scripted (site : String) (policy : Policy)

/-! ## Sites -/

/-- A threaded site: what the suspended call does. -/
inductive Background where
  /-- Sleeps as many milliseconds as its argument says, and publishes a signal. -/
  | sleep
  /-- Publishes its first argument. -/
  | echo
  /-- Sleeps if the first argument says so, and then ends in the given way. -/
  | finish (reply : Reply)

/-- What a site does. -/
inductive Operation where
  | primitive (p : Primitive)
  /-- Writes its argument as a line. -/
  | print
  /-- Makes an empty buffer of a capacity. -/
  | makeBuffer
  /-- Makes a reference to a value. -/
  | makeReference
  /-- Tells the engine to end the run. -/
  | terminate
  | background (b : Background)
  | method (m : Method) (c : CohortId)
  /-- Enlists a cohort. -/
  | join (c : CohortId)
  /-- Asks for the caller's transaction to be aborted; outside of any, this is its answer. -/
  | abort (reply : Reply)
  /-- Tells how deep in transactions the caller is. -/
  | depth
  /-- Waits on a virtual clock of the engine. -/
  | timer (clock : Nat)

/-- How the engine drives a call of the operation. -/
def Operation.mode : Operation → Mode
  | .primitive _ | .print | .makeBuffer | .makeReference | .terminate => .immediate
  | .background _ => .threaded
  | .method .. | .join _ | .abort _ | .depth => .transactional
  | .timer clock => .timer clock

/-! ## Suspended calls -/

/-- The milliseconds that a first argument asks for, if it is a non-negative integer. -/
def millisOf : List Value → Nat
  | .int n :: _ => n.toInt.toNat
  | _ => 0

/-- The milliseconds to sleep and the answer of a suspended call. -/
def Background.plan : Background → List Value → Nat × Reply
  | .sleep, [.int n] =>
    if 0 ≤ n.toInt then (n.toInt.toNat, .publish .signal)
    else (0, .fail (.expected "a non-negative integer" (.int n)))
  | .sleep, [v] => (0, .fail (.expected "a non-negative integer" v))
  | .sleep, args => (0, .fail (.arity 1 args.length))
  | .echo, args => (0, .publish (args.headD .signal))
  | .finish reply, args => (millisOf args, reply)

end Orchestra
