/-
  The world that programs run in.

  The world knows what every site does, by the identity of the site; it holds the cohorts, the
  suspended calls, and the events so far.  `World.host` answers the engine from it.
-/
import Orchestra.Library.Event
import Orchestra.Library.Operation
import Orchestra.Library.Schedule

namespace Orchestra

/-- What programs run in. -/
structure World where
  /-- What each site does, by its identity. -/
  operations : Array Operation := #[]
  cohorts : Array Cohort := #[]
  schedule : Schedule := {}
  /-- Whether there is somebody to take threaded calls. -/
  staffed : Bool := true
  events : Array Event := #[]

namespace World

/-- Records an event. -/
def log (w : World) (event : Event) : World := { w with events := w.events.push event }

/-- Adds a site. -/
def addSite (w : World) (name : String) (op : Operation) : Site × World :=
  ({ name, ident := w.operations.size, mode := op.mode },
    { w with operations := w.operations.push op })

/-- Adds the methods of a cohort as sites, under their names. -/
def addMethods (w : World) (c : CohortId) : List Method → List (String × Value) × World
  | [] => ([], w)
  | m :: ms =>
    let (site, w) := w.addSite m.name (.method m c)
    let (fields, w) := addMethods w c ms
    ((m.name, .site site) :: fields, w)

/-- Adds a container and gives the record of its methods. -/
def addContainer (w : World) (c : Container) : Value × World :=
  let id : CohortId := ⟨w.cohorts.size⟩
  let w := { w with cohorts := w.cohorts.push (.container c) }
  let (fields, w) := w.addMethods id c.methods
  (.ofFields fields, w)

/-! ## Calls -/

/-- Writes the one argument as a line. -/
def print (w : World) (args : List Value) : Reply × World :=
  match Primitive.one args with
  | .ok v => (.publish .signal, w.log (.print v.display))
  | .error e => (.fail e, w)

def makeBuffer (w : World) (args : List Value) : Reply × World :=
  match args with
  | [.int n] =>
    if 0 < n.toInt then (w.addContainer (.emptyBuffer n.toInt.toNat)).map .publish id
    else (.fail (.expected "a positive capacity" (.int n)), w)
  | [v] => (.fail (.expected "a positive capacity" v), w)
  | args => (.fail (.arity 1 args.length), w)

def makeReference (w : World) (args : List Value) : Reply × World :=
  match args with
  | [v] => (w.addContainer (.newReference v)).map .publish id
  | args => (.fail (.arity 1 args.length), w)

/-- Calls an immediate site. -/
def call (site : Site) (args : List Value) (w : World) : Effect World Reply :=
  match w.operations[site.ident]? with
  | some (.primitive p) => { answer := p.apply args, world := w }
  | some .print =>
    let (answer, world) := w.print args
    { answer, world }
  | some .makeBuffer =>
    let (answer, world) := w.makeBuffer args
    { answer, world }
  | some .makeReference =>
    let (answer, world) := w.makeReference args
    { answer, world }
  | some .terminate => { answer := .publish .signal, world := w, mail := [.terminate] }
  | _ => { answer := .halt, world := w }

/-- Suspends the call of a threaded site. -/
def launch (site : Site) (args : List Value) (caller : TokenId) (w : World) : Effect World Bool :=
  match w.staffed, w.operations[site.ident]? with
  | true, some (.background b) =>
    let (sleep, reply) := b.plan args
    { answer := true
      world := { w with schedule := w.schedule.add { sleep, message := .returned caller reply } } }
  | _, _ => { answer := false, world := w }

/-- Calls a method of a container. -/
def callMethod (w : World) (m : Method) (c : CohortId) (scope : Option Scope)
    (args : List Value) : Reply × World :=
  match w.cohorts[c.index]? with
  | some (.container container) =>
    let (reply, container) := container.call m scope args
    (reply, { w with cohorts := w.cohorts.setIfInBounds c.index (.container container) })
  | _ => (.halt, w)

/-- Calls a transactional site. -/
def transact (site : Site) (args : List Value) (scope : Option Scope) (w : World) :
    Effect World Verdict :=
  match w.operations[site.ident]? with
  | some (.method m c) =>
    let (reply, world) := w.callMethod m c scope args
    { answer := { reply, enlisted := [c] }, world }
  | some (.join c) => { answer := { reply := .publish .signal, enlisted := [c] }, world := w }
  | some (.abort reply) => { answer := { reply, abort := true }, world := w }
  | some .depth =>
    let depth := match scope with
      | some s => s.lineage.length
      | none => 0
    { answer := { reply := .publish (.int (Int64.ofNat depth)) }, world := w }
  | _ => { answer := { reply := .halt }, world := w }

/-! ## Votes -/

/-- The message that carries a vote. -/
def ballot (voter : TokenId) (approves : Bool) : Message :=
  if approves then .returned voter .halt else .vetoed voter

/-- Records what a cohort is told. -/
def tell (w : World) (stage : Stage) (site : String) (scope : Scope) : World :=
  w.log (.cohort stage site scope.lineage.length)

/-- Asks a cohort for its vote. -/
def ready (c : CohortId) (scope : Scope) (voter : TokenId) (w : World) : Effect World Unit :=
  match w.cohorts[c.index]? with
  | some (.container container) =>
    let (approves, container) := container.ready scope
    { answer := ()
      world := { w with cohorts := w.cohorts.setIfInBounds c.index (.container container) }
      mail := [ballot voter approves] }
  | some (.scripted site policy) =>
    let w := w.tell .ready site scope
    match policy with
    | .approve => { answer := (), world := w, mail := [ballot voter true] }
    | .reject | .forget => { answer := (), world := w, mail := [ballot voter false] }
    | .late sleep approves =>
      let task : Task := { sleep, message := ballot voter approves }
      { answer := (), world := { w with schedule := w.schedule.add task } }
  | none => { answer := (), world := w, mail := [ballot voter false] }

/-- Tells a cohort that a transaction has committed. -/
def confirm (c : CohortId) (scope : Scope) (w : World) : World :=
  match w.cohorts[c.index]? with
  | some (.container container) =>
    { w with cohorts := w.cohorts.setIfInBounds c.index (.container (container.confirm scope)) }
  | some (.scripted site _) => w.tell .confirm site scope
  | none => w

/-- Tells a cohort that a transaction has been aborted. -/
def rollback (c : CohortId) (scope : Scope) (w : World) : World :=
  match w.cohorts[c.index]? with
  | some (.container container) =>
    { w with cohorts := w.cohorts.setIfInBounds c.index (.container (container.rollback scope)) }
  | some (.scripted site _) => w.tell .rollback site scope
  | none => w

/-! ## The host -/

/-- Lets the suspended calls go on. -/
def yield (w : World) : Effect World Unit :=
  let (mail, schedule) := w.schedule.runQueue
  { answer := (), world := { w with schedule }, mail }

/-- Waits for a suspended call. -/
def await (w : World) : Option (Effect World Unit) := do
  let (mail, schedule) ← w.schedule.await
  return { answer := (), world := { w with schedule }, mail }

/-- Answers the engine from the world. -/
def host : Host World where
  call := call
  launch := launch
  transact := transact
  ready := ready
  confirm := confirm
  rollback := rollback
  publish p w := w.log (.publish p)
  report f w := w.log (.fail f)
  yield := yield
  await := await

end World
end Orchestra
