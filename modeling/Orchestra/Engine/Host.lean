/-
  The host: what an engine is embedded in.

  The engine itself only moves tokens.  Everything else is asked of its HOST: the answers of
  sites, the votes of cohorts, the passing of time outside, and where publications and failures
  go.  The host has a state of its own, the WORLD, which the engine hands through.  An answer
  that is not there at once comes later as a MESSAGE.

  The engine assumes nothing about its host.  A statement about all hosts is therefore one about
  all sites, all cohorts and all orders in which answers can arrive.
-/
import Orchestra.Engine.Record

namespace Orchestra

/-- The answer of a site. -/
inductive Reply where
  | publish (v : Value)
  /-- The site declines; the caller ends silently. -/
  | halt
  | fail (e : SiteError)

/-- What reaches an engine from outside. -/
inductive Message where
  /-- The answer to a threaded call, or a vote to commit, which is a `halt`. -/
  | returned (token : TokenId) (reply : Reply)
  /-- A vote to abort. -/
  | vetoed (token : TokenId)
  /-- The run is to end. -/
  | terminate

/-- The answer of a transactional site: what it says to its caller, the cohorts that now take
    part in the caller's transaction, and whether that is to be aborted.  For a caller outside
    of any transaction only the first of these counts. -/
structure Verdict where
  reply : Reply
  enlisted : List CohortId := []
  abort : Bool := false

/-- A value on its way out of the program.  For a closure, `captured` says what each variable
    that it captured stands for at this moment. -/
structure Publication where
  value : Value
  captured : List (Value ⊕ Option Value) := []

/-- What the host answers, the world after it, and the messages that are there at once. -/
structure Effect (ω ρ : Type) where
  answer : ρ
  world : ω
  mail : List Message := []

/-- A host with a world of type `ω`. -/
structure Host (ω : Type) where
  /-- Calls an immediate site. -/
  call : Site → List Value → ω → Effect ω Reply
  /-- Hands the call of a threaded site to a worker; false if there is none to take it. -/
  launch : Site → List Value → TokenId → ω → Effect ω Bool
  /-- Calls a transactional site from inside a transaction or from outside of any. -/
  transact : Site → List Value → Option Scope → ω → Effect ω Verdict
  /-- Asks a cohort for its vote, which is to be sent for the given token. -/
  ready : CohortId → Scope → TokenId → ω → Effect ω Unit
  /-- Tells a cohort that a transaction has committed. -/
  confirm : CohortId → Scope → ω → ω
  /-- Tells a cohort that a transaction has been aborted. -/
  rollback : CohortId → Scope → ω → ω
  /-- Takes a publication of the program. -/
  publish : Publication → ω → ω
  /-- Takes the failure of a token. -/
  report : Failure → ω → ω
  /-- Lets the workers go on, without waiting for any. -/
  yield : ω → Effect ω Unit
  /-- Waits for a worker; nothing if there is nothing to wait for. -/
  await : ω → Option (Effect ω Unit)

end Orchestra
