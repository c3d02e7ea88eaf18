/-
  One step of a token: what the node does at which it stands.

  A token that goes on is put at the end of the queue, so every token gets its turn.  A token
  that reads a variable bound to a cell without a value is PARKED there; once the cell is bound
  it executes its node again from the start.  Nothing that others can see has happened before
  the token is parked, so doing it again is harmless.
-/
import Orchestra.Chain
import Orchestra.Engine.Chore

namespace Orchestra.Engine

variable {ω : Type}

/-! ## Reading -/

/-- What reading a binding gives: a value, or a cell that has none yet. -/
inductive Sight where
  | value (v : Value)
  | pending (cell : GroupId)

/-- The binding that an operand stands for. -/
def bindingOf (env : Env) : Operand → Except Fault Binding
  | .const v => .ok (.value v)
  | .var index =>
    match Chain.lookup? env index with
    | some b => .ok b
    | none => .error (.unboundIndex index env.length)

/-- What a binding stands for now. -/
def sightOf (e : Engine ω) : Binding → Sight
  | .value v => .value v
  | .future cell =>
    match e.bound.lookup cell with
    | some v => .value v
    | none => .pending cell

/-- Reads an operand. -/
def look (e : Engine ω) (env : Env) (o : Operand) : Except Fault Sight :=
  return e.sightOf (← bindingOf env o)

/-- Reads operands from left to right, up to the first one that has no value yet. -/
def lookAll (e : Engine ω) (env : Env) : List Operand → Except Fault (Except GroupId (List Value))
  | [] => .ok (.ok [])
  | o :: os => do
    match ← e.look env o with
    | .pending cell => return .error cell
    | .value v => return (← e.lookAll env os).map (v :: ·)

/-- Parks a token until a cell is bound.  If the cell is gone without a value, none will come,
    and the token ends. -/
def park (e : Engine ω) (t : TokenId) (cell : GroupId) : Engine ω :=
  match e.groups.get? cell with
  | some { killed := false, kind := .cell waiters region, .. } =>
    let e := e.onGroup cell fun g => { g with kind := .cell (waiters ++ [t]) region }
    e.onToken t fun token => { token with phase := .blocked }
  | _ => e.plan [.killToken t]

/-- Gives a token a result and sends it on. -/
def publishTo (e : Engine ω) (t : TokenId) (v : Value) (next : Nat) : Engine ω :=
  (e.onToken t fun token => { token with result := v, node := next }).enqueue t

/-! ## Combinators -/

/-- A copy of the token goes right, before the token itself goes left. -/
def fork (h : Host ω) (e : Engine ω) (t : TokenId) (token : Token) (left right : Nat) :
    Except Fault (Engine ω) :=
  match e.atCapacity with
  | some limit => .ok (e.fail h t (.resourceExhausted limit))
  | none =>
    let e := e.count fun s => { s with forks := s.forks + 1 }
    (e.spawnReady (token.forkAt right)).proceed t left

/-- A copy of the token goes right to compute a new cell; the token goes left and sees the
    cell's future. -/
def subgoal (h : Host ω) (e : Engine ω) (t : TokenId) (token : Token) (left right : Nat) :
    Except Fault (Engine ω) :=
  match e.atCapacity with
  | some limit => .ok (e.fail h t (.resourceExhausted limit))
  | none => do
    let (cell, e) := e.newGroup token.group (.cell [] e.regions.next)
    let (region, e) ← e.newRegion token.region (.pruning cell)
    let e := e.count fun s => { s with forks := s.forks + 1 }
    let copy := { token.forkAt right with group := cell, region }
    let (refused, e) := match e.spawn copy with
      | some (id, e) => (false, e.enqueue id)
      | none => (true, e)
    let e := e.onToken t fun token => { token with env := .future cell :: token.env }
    if refused then return e.plan [.settle region, .proceed t left]
    else e.proceed t left

/-- Binds the cell that the token computes: whatever else computes it is ended, and the tokens
    that wait for it go on. -/
def resolve (e : Engine ω) (token : Token) : Except Fault (Engine ω) :=
  let cell := token.group
  match e.groups.get? cell with
  | none => .error (.missing "cell")
  | some group =>
    match group.kind with
    | .cell waiters region =>
      if (e.bound.lookup cell).isSome then .error .doubleBind
      else
        let e := { e with bound := (cell, token.result) :: e.bound }
        let e := e.onGroup cell fun g => { g with kind := .cell [] region }
        let e := e.count fun s => { s with bindings := s.bindings + 1 }
        .ok (e.plan (.killGroup cell :: .closeRegions [region] [] :: waiters.map .wake))
    | _ => .error .notACell

/-- The token goes left in a region of its own; the right side is kept as its fallback. -/
def enterOtherwise (e : Engine ω) (t : TokenId) (token : Token) (left right : Nat) :
    Except Fault (Engine ω) := do
  let (region, e) ← e.newRegion token.region (.otherwise false (token.continueAt right))
  return (← (e.plan [.proceed t left]).move t region)

/-- A publication leaves the left side of an otherwise, which then needs no fallback. -/
def escape (e : Engine ω) (t : TokenId) (token : Token) (next : Nat) :
    Except Fault (Engine ω) :=
  match e.regions.get? token.region with
  | some { kind := .otherwise _ fallback, parent := some parent, .. } =>
    let e := e.onRegion token.region fun r => { r with kind := .otherwise true fallback }
    (e.plan [.proceed t next]).move t parent
  | _ => .error (.scopeMismatch "otherwise region")

/-- The scope of the token's transaction, if that is still there. -/
def scopeOf (e : Engine ω) (token : Token) : Option Scope :=
  (token.txn.bind e.transactions.get?).map Transaction.scope

/-- The token starts a transaction and goes on inside it. -/
def enterAtomic (e : Engine ω) (t : TokenId) (token : Token) (body next : Nat) :
    Except Fault (Engine ω) := do
  let txn := e.transactions.next
  let scope := match e.scopeOf token with
    | some outer => outer.child txn
    | none => { id := txn }
  let (group, e) := e.newGroup token.group (.transaction txn)
  let record : Transaction :=
    { scope, parent := token.txn, group, continuation := token.continueAt next }
  let e := { e with transactions := e.transactions.insert record }
  let (region, e) ← e.newRegion token.region (.transaction txn)
  let e := e.onGroup token.group fun g => { g with members := g.members.erase t }
  let e := e.onGroup group fun g => { g with members := joined g.members t }
  let e := e.onToken t fun token => { token with group, txn := some txn, node := body }
  (e.plan [.enqueue t]).move t region

/-- A publication of a transaction is held back. -/
def buffer (e : Engine ω) (t : TokenId) (token : Token) : Except Fault (Engine ω) :=
  match token.txn with
  | none => .error (.scopeMismatch "transaction")
  | some txn =>
    let e := e.onTransaction txn fun r =>
      if r.state = .running then { r with publications := r.publications ++ [token.result] } else r
    .ok (e.plan [.killToken t])

/-! ## Calls -/

/-- An environment with the closures of a group, which all capture it as it was. -/
def bindGroup (group : Nat) (defs : List Def) (env : Env) : Env :=
  (List.range defs.length).foldl (fun acc member => .value (.closure group member env) :: acc) env

/-- The group with an index. -/
def groupDefs (e : Engine ω) (group : Nat) : Except Fault (List Def) :=
  match e.program.code.groups[group]? with
  | some defs => .ok defs
  | none => .error (.missing "definition group")

/-- Enters the definition of a closure.  Arguments are passed as they are bound, with or
    without a value. -/
def callClosure (h : Host ω) (e : Engine ω) (t : TokenId) (token : Token)
    (group member : Nat) (captured : Env) (args : List Operand) (next : Nat) (tail : Bool) :
    Except Fault (Engine ω) := do
  let defs ← e.groupDefs group
  match defs[member]? with
  | none => throw (.missing "definition")
  | some d =>
    if d.arity ≠ args.length then
      return e.fail h t (.arityMismatch d.name d.arity args.length)
    else
      let bindings ← args.mapM (bindingOf token.env)
      let env := bindings.reverse ++ bindGroup group defs captured
      let e := e.count fun s =>
        { s with calls := s.calls + 1, tailCalls := s.tailCalls + if tail then 1 else 0 }
      let e := e.onToken t fun token =>
        { token with
          env, stack := if tail then token.stack else ⟨next, token.env⟩ :: token.stack }
      e.proceed t d.entry

/-- The caller of a site gets its answer. -/
def answer (h : Host ω) (e : Engine ω) (t : TokenId) (site : Site) (next : Nat) :
    Reply → Engine ω
  | .publish v => e.publishTo t v next
  | .halt => e.plan [.killToken t]
  | .fail error => e.fail h t (.site site.name error)

/-- Records cohorts with a transaction and those around it. -/
def enlist (e : Engine ω) (scope : Scope) (cohorts : List CohortId) : Engine ω :=
  scope.lineage.foldl (fun e t => e.onTransaction t fun txn => txn.enlist cohorts) e

/-- Sets a timer for a token on a clock.  Clocks come into being at their first use and show
    the tick of the first one. -/
def setTimer (clocks : List (Clock TokenId)) (clock : Nat) (delay : UInt64) (t : TokenId) :
    List (Clock TokenId) :=
  let now := (clocks.head?.map Clock.now).getD 0
  let clocks := clocks ++ List.replicate (clock + 1 - clocks.length) (.startingAt now)
  clocks.modify clock fun c => c.schedule delay t

/-- The token waits on a clock as long as the one argument says. -/
def callTimer (h : Host ω) (e : Engine ω) (t : TokenId) (site : Site) (clock : Nat)
    (values : List Value) (next : Nat) : Engine ω :=
  match values with
  | [.int n] =>
    if 0 ≤ n.toInt then
      let e := { e with clocks := setTimer e.clocks clock n.toInt.toNat.toUInt64 t }
      e.onToken t fun token => { token with phase := .blocked, result := .signal, node := next }
    else e.answer h t site next (.fail (.expected "a non-negative integer" (.int n)))
  | [v] => e.answer h t site next (.fail (.expected "a non-negative integer" v))
  | values => e.answer h t site next (.fail (.arity 1 values.length))

/-- Calls a site that is to be answered from inside the token's transaction.  An abort leaves
    the caller without an answer, since it ends with its transaction. -/
def callTransactional (h : Host ω) (e : Engine ω) (t : TokenId) (token : Token) (site : Site)
    (values : List Value) (next : Nat) : Engine ω :=
  let scope := e.scopeOf token
  let (verdict, e) := e.absorb (h.transact site values scope e.world)
  match scope with
  | none => e.answer h t site next verdict.reply
  | some scope =>
    let e := e.enlist scope verdict.enlisted
    if verdict.abort then e.plan [.abort scope.id] else e.answer h t site next verdict.reply

/-- Calls a site.  All arguments must have a value. -/
def callSite (h : Host ω) (e : Engine ω) (t : TokenId) (token : Token) (site : Site)
    (args : List Operand) (next : Nat) : Except Fault (Engine ω) := do
  match ← e.lookAll token.env args with
  | .error cell => return e.park t cell
  | .ok values =>
    let e := e.count fun s => { s with siteCalls := s.siteCalls + 1 }
    match site.mode with
    | .immediate =>
      let (reply, e) := e.absorb (h.call site values e.world)
      return e.answer h t site next reply
    | .threaded =>
      let (taken, e) := e.absorb (h.launch site values t e.world)
      if taken then
        return e.onToken t fun token => { token with phase := .calling site.name, node := next }
      else return e.answer h t site next (.fail .unspawned)
    | .transactional => return e.callTransactional h t token site values next
    | .timer clock => return e.callTimer h t site clock values next

/-- Calls whatever the target is. -/
def call (h : Host ω) (e : Engine ω) (t : TokenId) (token : Token) (target : Operand)
    (args : List Operand) (next : Nat) (tail : Bool) (span : Span) :
    Except Fault (Engine ω) := do
  let e := e.onToken t fun token => { token with span }
  match ← e.look token.env target with
  | .pending cell => return e.park t cell
  | .value (.closure group member captured) =>
    e.callClosure h t token group member captured args next tail
  | .value (.site site) => e.callSite h t token site args next
  | .value v => return e.fail h t (.uncallable v)

/-! ## Publications -/

/-- What the variables captured by a closure stand for now. -/
def captures (e : Engine ω) : Value → List (Value ⊕ Option Value)
  | .closure _ _ captured => captured.map fun
    | .value v => .inl v
    | .future cell => .inr (e.bound.lookup cell)
  | _ => []

/-- A publication of the whole program; the token is done. -/
def publish (h : Host ω) (e : Engine ω) (t : TokenId) (v : Value) : Engine ω :=
  let e := e.count fun s => { s with publications := s.publications + 1 }
  let e := { e with world := h.publish { value := v, captured := e.captures v } e.world }
  e.plan [.killToken t]

/-! ## Nodes -/

/-- Executes a node for a token that stands there. -/
def execute (h : Host ω) (e : Engine ω) (t : TokenId) (token : Token) :
    Node → Except Fault (Engine ω)
  | .stop => .ok (e.plan [.killToken t])
  | .load operand next => do
    match ← e.look token.env operand with
    | .value v => return e.publishTo t v next
    | .pending cell => return e.park t cell
  | .field target name next => do
    match ← e.look token.env target with
    | .value (.record fields) =>
      match Value.field? fields name with
      | some v => return e.publishTo t v next
      | none => return e.fail h t (.noSuchField name)
    | .value v => return e.fail h t (.notARecord v)
    | .pending cell => return e.park t cell
  | .push next =>
    (e.onToken t fun token => { token with env := .value token.result :: token.env }).proceed t next
  | .unwind count next =>
    match Chain.unwind? count token.env with
    | some env => (e.onToken t fun token => { token with env }).proceed t next
    | none => .error (.envUnderflow count token.env.length)
  | .fork left right => e.fork h t token left right
  | .subgoal left right => e.subgoal h t token left right
  | .resolve => e.resolve token
  | .otherwise left right => e.enterOtherwise t token left right
  | .escape next => e.escape t token next
  | .atomic body next => e.enterAtomic t token body next
  | .buffer => e.buffer t token
  | .declare group next => do
    let defs ← e.groupDefs group
    (e.onToken t fun token => { token with env := bindGroup group defs token.env }).proceed t next
  | .call target args next tail span => e.call h t token target args next tail span
  | .ret =>
    match token.stack with
    | [] => .error .stackUnderflow
    | frame :: stack =>
      (e.onToken t fun token => { token with stack, env := frame.env }).proceed t frame.next
  | .publish => .ok (e.publish h t token.result)

/-- Lets a token from the queue take a step.  A token that is gone or not runnable does not. -/
def dispatch (h : Host ω) (e : Engine ω) (t : TokenId) : Except Fault (Engine ω) :=
  match e.tokens.get? t with
  | none => .ok e
  | some token =>
    if token.phase = .runnable then
      let e := e.count fun s => { s with steps := s.steps + 1 }
      match e.program.code.nodes[token.node]? with
      | some node => e.execute h t token node
      | none => .error (.missing "node")
    else .ok e

end Orchestra.Engine
