/-
  Code: programs as graphs of nodes.

  A NODE is one step of a token; it knows the nodes that come after it.  Variables are looked up
  in the environment of the token by their distance, so the only data in a node are constants,
  distances and successors.  Definitions are kept in groups beside the nodes; a closure names
  its definition by group and member.

  Five nodes stand at fixed places at the start of every graph: `halt`, where a token ends, and
  the four ways in which a publication leaves a part of the program: `ret` to a caller,
  `publish` out of the program, `resolve` into a pruning cell and `buffer` out of an atomic
  section.
-/
import Orchestra.Location
import Orchestra.Value

namespace Orchestra

/-- What a node reads: a constant, or the binding at a distance in the environment. -/
inductive Operand where
  | const (v : Value)
  | var (index : Nat)

/-- One step of a token. -/
inductive Node where
  /-- The token ends. -/
  | stop
  /-- The result becomes the operand's value. -/
  | load (operand : Operand) (next : Nat)
  /-- The result becomes a field of the operand's value. -/
  | field (target : Operand) (name : String) (next : Nat)
  /-- The result is bound as the innermost variable. -/
  | push (next : Nat)
  /-- The innermost bindings go out of scope. -/
  | unwind (count : Nat) (next : Nat)
  /-- The token goes left and a copy goes right. -/
  | fork (left right : Nat)
  /-- A copy goes right to compute a cell; the token goes left with the cell's future. -/
  | subgoal (left right : Nat)
  /-- The result becomes the value of the cell that the token computes. -/
  | resolve
  /-- The token goes left; the right side starts if the left ends without a publication. -/
  | otherwise (left right : Nat)
  /-- A publication leaves the left side of an `otherwise`. -/
  | escape (next : Nat)
  /-- The token enters a transaction, whose publications go on at `next`. -/
  | atomic (body next : Nat)
  /-- A publication of a transaction is held back until the commit. -/
  | buffer
  /-- The definitions of a group are bound. -/
  | declare (group next : Nat)
  /-- A closure or a site is called; a tail call needs no return frame. -/
  | call (target : Operand) (args : List Operand) (next : Nat) (tail : Bool) (span : Span)
  /-- A publication goes back to the caller. -/
  | ret
  /-- A publication of the whole program. -/
  | publish

/-- A compiled definition. -/
structure Def where
  name : String
  arity : Nat
  entry : Nat
deriving DecidableEq, Repr

/-- A graph of nodes with its groups of definitions. -/
structure Code where
  nodes : Array Node := #[.stop, .ret, .publish, .resolve, .buffer]
  groups : Array (List Def) := #[]

namespace Code

def halt : Nat := 0
def ret : Nat := 1
def publish : Nat := 2
def resolve : Nat := 3
def buffer : Nat := 4

/-- Adds a node at the end and gives its place. -/
def add (c : Code) (n : Node) : Nat × Code :=
  (c.nodes.size, { c with nodes := c.nodes.push n })

/-- Adds a group of definitions at the end and gives its place. -/
def addGroup (c : Code) (defs : List Def) : Nat × Code :=
  (c.groups.size, { c with groups := c.groups.push defs })

/-- Whether from node `i` a publication returns to the caller with nothing on the way but
    bindings going out of scope, within `fuel` steps. -/
def returnsWithin (c : Code) : (fuel i : Nat) → Bool
  | 0, _ => false
  | fuel + 1, i =>
    match c.nodes[i]? with
    | some .ret => true
    | some (.unwind _ next) => c.returnsWithin fuel next
    | _ => false

/-- Whether a call that goes on at node `i` is a tail call.  Nodes lead to earlier nodes only,
    so there are at most `i` steps from node `i`. -/
def isTail (c : Code) (i : Nat) : Bool := c.returnsWithin (i + 1) i

end Code

/-- A graph with the node at which a run starts. -/
structure Program where
  code : Code
  entry : Nat

/-! ## Reachable parts -/

/-- The nodes that a node names as successors. -/
def Node.successors : Node → List Nat
  | .stop | .resolve | .buffer | .ret | .publish => []
  | .load _ next | .field _ _ next | .push next | .unwind _ next | .escape next
  | .declare _ next | .call _ _ next _ _ => [next]
  | .fork left right | .subgoal left right | .otherwise left right => [left, right]
  | .atomic body next => [body, next]

/-- The group of definitions that a node binds. -/
def Node.group? : Node → Option Nat
  | .declare group _ => some group
  | _ => none

namespace Code

/-- The nodes that follow node `i`, the entries of the definitions it binds included. -/
def following (c : Code) (i : Nat) : List Nat :=
  match c.nodes[i]? with
  | none => []
  | some n =>
    n.successors ++
      match n.group?.bind fun g => c.groups[g]? with
      | some defs => defs.map Def.entry
      | none => []

/-- Goes down through the nodes below `i` and collects those in `marked` and all that follow
    them.  Nodes are followed by earlier ones only, so one pass finds all. -/
def sweep (c : Code) : (i : Nat) → (marked found : List Nat) → List Nat
  | 0, _, found => found
  | i + 1, marked, found =>
    if marked.contains i then c.sweep i (c.following i ++ marked.filter (· ≠ i)) (i :: found)
    else c.sweep i marked found

/-- The nodes that can be reached from the given ones, in ascending order. -/
def reachable (c : Code) (starts : List Nat) : List Nat :=
  c.sweep c.nodes.size starts []

/-- The groups that the given nodes bind, in ascending order and each once. -/
def boundGroups (c : Code) (nodes : List Nat) : List Nat :=
  (List.range c.groups.size).filter fun g =>
    nodes.any fun i => (c.nodes[i]?.bind Node.group?) = some g

end Code
end Orchestra
