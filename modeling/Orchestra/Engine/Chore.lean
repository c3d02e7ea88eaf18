/-
  Doing chores.

  Each chore changes the records a little and may leave further chores.  They are put on top of
  the agenda in the order in which they are to be done, so a reaction is finished, with all that
  it causes in turn, before what was planned below it.
-/
import Orchestra.Engine.State

namespace Orchestra.Engine

variable {ω : Type}

/-! ## Tokens and regions -/

/-- Ends a token, whether it is done or killed.  A token that is gone is left alone. -/
def killToken (e : Engine ω) (t : TokenId) : Except Fault (Engine ω) :=
  match e.tokens.get? t with
  | none => .ok e
  | some token =>
    let e := { e with tokens := e.tokens.remove t }
    let e := e.onGroup token.group fun g => { g with members := g.members.erase t }
    e.leave token.region t

/-- What the kind of a quiescent region asks for. -/
def react (e : Engine ω) : RegionKind → Engine ω
  | .root => { e with halted := true }
  -- the group of a bound cell is gone already
  | .pruning cell => e.plan [.killGroup cell]
  | .otherwise published fallback =>
    if published then e else e.spawnReady (fallback.resume .signal)
  | .transaction t => e.plan [.prepare t]
  | .votes t => e.plan [.verify t]

/-- Removes a region with nothing left in it, reacts, and then takes it off the count of its
    parent.  The record goes first, so a region is quiescent only once. -/
def quiesce (e : Engine ω) (r : RegionId) : Engine ω :=
  match e.regions.get? r with
  | none => e
  | some region =>
    let e := { e with regions := e.regions.remove r }
    let e := match region.parent with
      | some parent => e.plan [.detach parent r]
      | none => e
    e.react region.kind

/-- Reacts to a region that may have been empty from the start. -/
def settle (e : Engine ω) (r : RegionId) : Engine ω :=
  match e.regions.get? r with
  | some region => if region.live = 0 then e.plan [.quiesce r] else e
  | none => e

/-- Takes a region that is gone off the count of its parent, which reacts if nothing is left
    in it. -/
def detach (e : Engine ω) (parent child : RegionId) : Except Fault (Engine ω) :=
  match e.regions.get? parent with
  | none => .ok e
  | some region =>
    if 0 < region.live then
      let e := e.onRegion parent fun r =>
        { r with children := r.children.erase child, live := r.live - 1 }
      .ok (if region.live = 1 then e.plan [.quiesce parent] else e)
    else .error (.scopeMismatch "region")

/-- Closes the next pending region, the one entered last coming first.  When all are closed the
    tokens found in them are ended. -/
def closeRegions (e : Engine ω) : List RegionId → (doomed : List TokenId) → Engine ω
  | [], doomed => e.plan (doomed.map .killToken)
  | r :: pending, doomed =>
    match e.regions.get? r with
    | none => e.plan [.closeRegions pending doomed]
    | some region =>
      let e := e.onRegion r fun r => { r with closed := true }
      e.plan [.closeRegions (region.children.reverse ++ pending) (doomed ++ region.tokens)]

/-! ## Groups -/

/-- The tokens waiting for a cell that has no value. -/
def orphans (e : Engine ω) (g : GroupId) : GroupKind → List TokenId
  | .cell waiters _ => if (e.bound.lookup g).isNone then waiters else []
  | _ => []

/-- What is left of the kind of a killed group: a cell without a value has lost its waiters. -/
def killedKind (e : Engine ω) (g : GroupId) : GroupKind → GroupKind
  | .cell waiters region => .cell (if (e.bound.lookup g).isNone then [] else waiters) region
  | kind => kind

/-- The abort that comes with killing a group of some kind. -/
def abortFor : GroupKind → List Chore
  | .transaction t => [.abort t]
  | _ => []

/-- Kills a group: its transaction is aborted, its members end, those waiting for a value that
    will not come end too, and the groups below follow, the last one first. -/
def killGroup (e : Engine ω) (g : GroupId) : Engine ω :=
  match e.groups.get? g with
  | none => e
  | some group =>
    if group.killed then e
    else
      let kind := e.killedKind g group.kind
      let orphans := e.orphans g group.kind
      let e := e.onGroup g fun group => { group with killed := true, members := [], kind }
      e.plan <|
        abortFor group.kind ++ (group.members ++ orphans).map .killToken
          ++ .removeGroup g :: group.children.reverse.map .killGroup

/-- Forgets a group; those below it have no parent from then on. -/
def removeGroup (e : Engine ω) (g : GroupId) : Engine ω :=
  match e.groups.get? g with
  | none => e
  | some group =>
    let e := { e with groups := e.groups.remove g }
    let e := match group.parent with
      | some parent => e.onGroup parent fun p => { p with children := p.children.erase g }
      | none => e
    group.children.foldl (fun e child => e.onGroup child fun c => { c with parent := none }) e

/-- Lets a token go on that waited for a cell, if it is still there. -/
def wake (e : Engine ω) (t : TokenId) : Engine ω :=
  if e.tokens.contains t then
    (e.onToken t fun token => { token with phase := .runnable }).enqueue t
  else e

/-! ## Transactions -/

/-- Adds a token for the vote of each cohort and asks for the vote. -/
def askVotes (h : Host ω) (scope : Scope) (vote : Token) (e : Engine ω) :
    List CohortId → Engine ω
  | [] => e
  | c :: cohorts =>
    match e.spawn vote with
    | none => askVotes h scope vote e cohorts
    | some (id, e) => askVotes h scope vote (e.absorb (h.ready c scope id e.world)).2 cohorts

/-- The body of a transaction is done: its cohorts are asked for their votes.  The votes stand
    in a region of their own, which is quiescent when all are in. -/
def prepare (h : Host ω) (e : Engine ω) (t : TxnId) : Except Fault (Engine ω) :=
  match e.transactions.get? t with
  | none => .ok e
  | some txn =>
    if txn.state = .running then do
      let e := e.onTransaction t fun txn => { txn with state := .readying }
      let (region, e) ← e.newRegion txn.continuation.region (.votes t)
      let vote : Token :=
        { txn.continuation.resume .signal with
          node := Code.halt, group := txn.group, region, txn := some t, phase := .voting }
      return (askVotes h txn.scope vote e txn.cohorts).plan [.settle region]
    else .ok (e.plan [.retire t])

/-- All votes are in and none was to abort: the cohorts are told to confirm, they now belong to
    the parent as well, and the publications that were held back go on. -/
def verify (h : Host ω) (e : Engine ω) (t : TxnId) : Engine ω :=
  match e.transactions.get? t with
  | none => e
  | some txn =>
    if txn.state = .readying then
      let world := txn.cohorts.foldl (fun w c => h.confirm c txn.scope w) e.world
      let e := { e with world }
      let e := e.onTransaction t fun txn => { txn with state := .done, publications := [] }
      let e := e.count fun s => { s with commits := s.commits + 1 }
      let e := match txn.parent with
        | some parent => e.onTransaction parent fun p => p.enlist txn.cohorts
        | none => e
      e.plan (.retire t :: txn.publications.map (.release txn.continuation))
    else e.plan [.retire t]

/-- Forgets a transaction and its group. -/
def retire (e : Engine ω) (t : TxnId) : Engine ω :=
  match e.transactions.get? t with
  | none => e
  | some txn =>
    let e := { e with transactions := e.transactions.remove t }
    e.plan [.killGroup txn.group]

/-- Aborts a transaction: its group is killed, then its cohorts are told.  A transaction that is
    decided stays so. -/
def abort (e : Engine ω) (t : TxnId) : Engine ω :=
  match e.transactions.get? t with
  | none => e
  | some txn =>
    if txn.state = .done ∨ txn.state = .aborted then e
    else
      let e := e.onTransaction t fun txn => { txn with state := .aborted, publications := [] }
      let e := e.count fun s => { s with aborts := s.aborts + 1 }
      e.plan (.killGroup txn.group :: txn.cohorts.map fun c => .rollback c txn.scope)

/-! ## The agenda -/

/-- Does a chore. -/
def perform (h : Host ω) (e : Engine ω) : Chore → Except Fault (Engine ω)
  | .killToken t => e.killToken t
  | .quiesce r => .ok (e.quiesce r)
  | .settle r => .ok (e.settle r)
  | .detach parent child => e.detach parent child
  | .closeRegions pending doomed => .ok (e.closeRegions pending doomed)
  | .killGroup g => .ok (e.killGroup g)
  | .removeGroup g => .ok (e.removeGroup g)
  | .wake t => .ok (e.wake t)
  | .prepare t => e.prepare h t
  | .verify t => .ok (e.verify h t)
  | .retire t => .ok (e.retire t)
  | .release k v => .ok (e.spawnReady (k.resume v))
  | .abort t => .ok (e.abort t)
  | .rollback c scope => .ok { e with world := h.rollback c scope e.world }
  | .proceed t node => e.proceed t node
  | .enqueue t => .ok (e.enqueue t)

end Orchestra.Engine
