/-
  The state of an engine, and the small moves that everything else is made of.

  Between two turns an engine is described by its records, two queues (tokens that are ready,
  messages that have arrived), its clocks, and the AGENDA: a stack of chores still to be done
  before anything else happens.  When a token ends, its region may become quiescent, which may
  start a fallback, end a cell, or let a transaction ask for votes, commit and end in turn.
  Instead of calling each other, these reactions put chores on the agenda, and a turn of the
  engine does the topmost one.  So every turn is a bounded piece of work, and the state between
  two turns says all that is left to do.
-/
import Orchestra.Clock
import Orchestra.Engine.Host
import Orchestra.Stats

namespace Orchestra

/-- A piece of a reaction that is still to be done. -/
inductive Chore where
  /-- Ends a token. -/
  | killToken (token : TokenId)
  /-- Reacts to a region that has nothing left. -/
  | quiesce (region : RegionId)
  /-- Reacts to a region if it has nothing left. -/
  | settle (region : RegionId)
  /-- Takes a region that is gone off the count of its parent. -/
  | detach (parent child : RegionId)
  /-- Closes the pending regions and those below, then ends all tokens found there. -/
  | closeRegions (pending : List RegionId) (doomed : List TokenId)
  /-- Kills a group and everything below it. -/
  | killGroup (group : GroupId)
  /-- Forgets a killed group. -/
  | removeGroup (group : GroupId)
  /-- Lets a token go on that waited for a cell. -/
  | wake (token : TokenId)
  /-- Asks the cohorts of a transaction for their votes. -/
  | prepare (txn : TxnId)
  /-- Commits a transaction whose votes are in. -/
  | verify (txn : TxnId)
  /-- Forgets a transaction. -/
  | retire (txn : TxnId)
  /-- Lets a publication of a transaction go on. -/
  | release (continuation : Continuation) (value : Value)
  /-- Aborts a transaction. -/
  | abort (txn : TxnId)
  /-- Tells a cohort that a transaction has been aborted. -/
  | rollback (cohort : CohortId) (scope : Scope)
  /-- Sends a token on to a node. -/
  | proceed (token : TokenId) (node : Nat)
  /-- Puts a token into the queue. -/
  | enqueue (token : TokenId)

/-- An engine with a world of type `ω`. -/
structure Engine (ω : Type) where
  program : Program
  /-- The ceiling on live tokens. -/
  limit : Option Nat
  world : ω
  tokens : Store .token Token := .empty
  groups : Store .group Group := .empty
  regions : Store .region Region := .empty
  transactions : Store .transaction Transaction := .empty
  /-- The cells that have been bound, with their values. -/
  bound : List (GroupId × Value) := []
  /-- The clocks that are in use; there is always a first one. -/
  clocks : List (Clock TokenId) := [{}]
  ready : List TokenId := []
  inbox : List Message := []
  agenda : List Chore := []
  started : Bool := false
  halted : Bool := false
  stats : Stats := {}

namespace Engine

variable {ω ρ : Type}

/-! ## Queues -/

/-- Puts chores on top of the agenda, the first one topmost. -/
def plan (e : Engine ω) (chores : List Chore) : Engine ω :=
  { e with agenda := chores ++ e.agenda }

/-- Puts a token at the end of the queue. -/
def enqueue (e : Engine ω) (t : TokenId) : Engine ω :=
  { e with ready := e.ready ++ [t] }

/-- Takes over what the host did, and gives its answer. -/
def absorb (e : Engine ω) (effect : Effect ω ρ) : ρ × Engine ω :=
  (effect.answer, { e with world := effect.world, inbox := e.inbox ++ effect.mail })

/-! ## Records -/

/-- Changes a token. -/
def onToken (e : Engine ω) (t : TokenId) (f : Token → Token) : Engine ω :=
  { e with tokens := e.tokens.modify t f }

/-- Changes a group. -/
def onGroup (e : Engine ω) (g : GroupId) (f : Group → Group) : Engine ω :=
  { e with groups := e.groups.modify g f }

/-- Changes a region. -/
def onRegion (e : Engine ω) (r : RegionId) (f : Region → Region) : Engine ω :=
  { e with regions := e.regions.modify r f }

/-- Changes a transaction. -/
def onTransaction (e : Engine ω) (t : TxnId) (f : Transaction → Transaction) : Engine ω :=
  { e with transactions := e.transactions.modify t f }

/-- Counts something. -/
def count (e : Engine ω) (f : Stats → Stats) : Engine ω := { e with stats := f e.stats }

/-- Adds a group below another. -/
def newGroup (e : Engine ω) (parent : GroupId) (kind : GroupKind) : GroupId × Engine ω :=
  let id := e.groups.next
  let e := { e with groups := e.groups.insert { parent := some parent, kind } }
  (id, e.onGroup parent fun g => { g with children := joined g.children id })

/-- Adds a region below another. -/
def newRegion (e : Engine ω) (parent : RegionId) (kind : RegionKind) :
    Except Fault (RegionId × Engine ω) :=
  if e.regions.contains parent then
    let id := e.regions.next
    let e := { e with regions := e.regions.insert { parent := some parent, kind } }
    .ok (id, e.onRegion parent fun r =>
      { r with children := joined r.children id, live := r.live + 1 })
  else .error (.missing "parent region")

/-! ## Tokens and their scopes -/

/-- The ceiling on live tokens, if it is reached. -/
def atCapacity (e : Engine ω) : Option Nat :=
  e.limit.filter fun limit => limit ≤ e.tokens.size

/-- Whether a group takes new tokens. -/
def groupAlive (e : Engine ω) (g : GroupId) : Bool :=
  (e.groups.get? g).any fun group => !group.killed

/-- Whether a region takes new tokens. -/
def regionOpen (e : Engine ω) (r : RegionId) : Bool :=
  (e.regions.get? r).any fun region => !region.closed

/-- Adds a token to the run; refused if its group is killed or its region closed. -/
def spawn (e : Engine ω) (t : Token) : Option (TokenId × Engine ω) :=
  if e.groupAlive t.group && e.regionOpen t.region then
    let id := e.tokens.next
    let e := { e with tokens := e.tokens.insert t }
    let e := e.onGroup t.group fun g => { g with members := joined g.members id }
    let e := e.onRegion t.region fun r =>
      { r with tokens := joined r.tokens id, live := r.live + 1 }
    some (id, e.count fun s => { s with peakTokens := max s.peakTokens e.tokens.size })
  else none

/-- Adds a token to the run and to the queue, unless it is refused. -/
def spawnReady (e : Engine ω) (t : Token) : Engine ω :=
  match e.spawn t with
  | some (id, e) => e.enqueue id
  | none => e

/-- Takes a token out of a region, which reacts if nothing is left in it. -/
def leave (e : Engine ω) (r : RegionId) (t : TokenId) : Except Fault (Engine ω) :=
  match e.regions.get? r with
  | none => .error (.missing "region")
  | some region =>
    if t ∈ region.tokens ∧ 0 < region.live then
      let e := e.onRegion r fun region =>
        { region with tokens := region.tokens.erase t, live := region.live - 1 }
      .ok (if region.live = 1 then e.plan [.quiesce r] else e)
    else .error (.scopeMismatch "region")

/-- Moves a token into another region.  It joins the new region before it leaves the old one,
    so the new one does not become quiescent on the way. -/
def move (e : Engine ω) (t : TokenId) (target : RegionId) : Except Fault (Engine ω) :=
  match e.tokens.get? t with
  | none => .error (.missing "token")
  | some token =>
    if e.regions.contains target then
      let e := e.onRegion target fun r => { r with tokens := joined r.tokens t, live := r.live + 1 }
      let e := e.onToken t fun token => { token with region := target }
      e.leave token.region t
    else .error (.missing "region")

/-- Ends a token and reports why. -/
def fail (h : Host ω) (e : Engine ω) (t : TokenId) (error : TokenError) : Engine ω :=
  match e.tokens.get? t with
  | none => e
  | some token =>
    let e := e.count fun s => { s with failures := s.failures + 1 }
    let e := { e with world := h.report { span := token.span, error } e.world }
    e.plan [.killToken t]

/-- Sends a token on to a node. -/
def proceed (e : Engine ω) (t : TokenId) (node : Nat) : Except Fault (Engine ω) :=
  if e.tokens.contains t then
    .ok ((e.onToken t fun token => { token with node }).enqueue t)
  else .error (.missing "token")

end Engine
end Orchestra
