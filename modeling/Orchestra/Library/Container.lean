/-
  Transactional containers: a bounded buffer and a reference.

  A container holds its content as a versioned value, so what a transaction does to it is seen
  by that transaction only, until it commits.  A container is a cohort: it votes to commit if
  the content has not moved on since the transaction first looked.
-/
import Orchestra.Engine.Host

namespace Orchestra

/-- A container. -/
inductive Container where
  /-- A queue that takes no more than `capacity` items. -/
  | buffer (capacity : Nat) (items : Versioned (List Value))
  /-- A value that can be replaced. -/
  | reference (content : Versioned Value)

/-- What can be asked of a container. -/
inductive Method where
  | put
  | get
  | size
  | read
  | write
deriving DecidableEq, Repr

namespace Method

/-- The name under which a container offers the method. -/
def name : Method → String
  | .put => "put"
  | .get => "get"
  | .size => "size"
  | .read => "read"
  | .write => "write"

/-- How many arguments the method takes. -/
def arity : Method → Nat
  | .put | .write => 1
  | .get | .size | .read => 0

end Method

namespace Container

/-- An empty buffer. -/
def emptyBuffer (capacity : Nat) : Container := .buffer capacity (.new [])

/-- A reference to a first value. -/
def newReference (initial : Value) : Container := .reference (.new initial)

/-- The methods of a container, in the order in which it offers them. -/
def methods : Container → List Method
  | .buffer .. => [.put, .get, .size]
  | .reference _ => [.read, .write]

/-! ## Methods -/

/-- The answer after a change: no content found means that the change was declined, or that
    there was nothing to find. -/
def replyOf : Option Value → Reply
  | some v => .publish v
  | none => .halt

/-- Adds an item at the end, unless the buffer is full. -/
def putItem (capacity : Nat) (items : Versioned (List Value)) (scope : Option Scope) (v : Value) :
    Reply × Versioned (List Value) :=
  let (seen, items) := items.read scope
  if capacity ≤ seen.length then (.halt, items)
  else
    let (done, items) := items.update scope fun vs => (vs ++ [v], Value.signal)
    (replyOf done, items)

/-- Takes the first item, unless the buffer is empty. -/
def getItem (items : Versioned (List Value)) (scope : Option Scope) :
    Reply × Versioned (List Value) :=
  let (seen, items) := items.read scope
  if seen.isEmpty then (.halt, items)
  else
    let (taken, items) := items.update scope fun vs => (vs.tail, vs.head?)
    (replyOf taken.join, items)

/-- The number of items. -/
def countItems (items : Versioned (List Value)) (scope : Option Scope) :
    Reply × Versioned (List Value) :=
  let (seen, items) := items.read scope
  (.publish (.int (Int64.ofNat seen.length)), items)

/-- Calls a method from inside a transaction or from outside of any. -/
def call (c : Container) (m : Method) (scope : Option Scope) (args : List Value) :
    Reply × Container :=
  match c, m, args with
  | .buffer capacity items, .put, [v] =>
    (putItem capacity items scope v).map id (.buffer capacity)
  | .buffer capacity items, .get, [] => (getItem items scope).map id (.buffer capacity)
  | .buffer capacity items, .size, [] => (countItems items scope).map id (.buffer capacity)
  | .reference content, .read, [] =>
    let (v, content) := content.read scope
    (.publish v, .reference content)
  | .reference content, .write, [v] =>
    let (done, content) := content.update scope fun _ => (v, Value.signal)
    (replyOf done, .reference content)
  | c, m, args => (.fail (.arity m.arity args.length), c)

/-! ## The cohort -/

/-- The vote for a transaction. -/
def ready (c : Container) (scope : Scope) : Bool × Container :=
  match c with
  | .buffer capacity items => (items.ready scope).map id (.buffer capacity)
  | .reference content => (content.ready scope).map id .reference

def confirm (c : Container) (scope : Scope) : Container :=
  match c with
  | .buffer capacity items => .buffer capacity (items.confirm scope)
  | .reference content => .reference (content.confirm scope)

def rollback (c : Container) (scope : Scope) : Container :=
  match c with
  | .buffer capacity items => .buffer capacity (items.rollback scope)
  | .reference content => .reference (content.rollback scope)

end Container
end Orchestra
