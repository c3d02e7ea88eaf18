/-
  From expressions to code.

  An expression is lowered against the node at which its publications go on, its CONTINUATION,
  and against the number of bindings in scope.  Parts that come later are lowered first, so a
  node only ever leads to earlier nodes, and no continuation is copied.  On the way every
  variable is checked to be in scope and every site to be known.

  The number of bindings in scope is a 64-bit word, like the indices it is compared with.  It is
  never wrapped: where it would leave the range of the word, lowering breaks off.
-/
import Orchestra.Code
import Orchestra.Expr
import Orchestra.Report

namespace Orchestra

/-! ## Known sites -/

/-- The sites that a program may name, at most one for each name. -/
structure Registry where
  sites : List Site := []

namespace Registry

/-- Makes a site known; it takes the place of one with the same name. -/
def register (r : Registry) (s : Site) : Registry :=
  if r.sites.any (·.name = s.name) then
    { sites := r.sites.map fun t => if t.name = s.name then s else t }
  else { sites := r.sites ++ [s] }

/-- The site with a name. -/
def site? (r : Registry) (name : String) : Option Site := r.sites.find? (·.name = name)

end Registry

/-! ## Errors -/

/-- Why an expression has no code. -/
inductive CompileError where
  | unknownSite (name : String)
  | unboundVariable (index depth : UInt64)
  /-- There are more bindings in scope than a word can count.  The compiler does not report this, it
      crashes. -/
  | scopeOverflow
deriving DecidableEq

namespace CompileError

def message : CompileError → String
  | .unknownSite name => "Site `" ++ name ++ "` is not defined."
  | .unboundVariable index depth =>
    "Variable #" ++ toString index.toNat ++ " is not bound; only " ++ toString depth.toNat
      ++ " binding(s) are in scope."
  | .scopeOverflow => "attempt to add with overflow"

def help? : CompileError → Option String
  | .unknownSite _ => some "register the site before compiling"
  | .unboundVariable .. => some "this is a bug in the front end that produced the program"
  | .scopeOverflow => none

def report (e : CompileError) : Report := { message := e.message, help := e.help? }

/-- The exit code of a command that fails with the error. -/
def exitCode : CompileError → Nat
  | .scopeOverflow => 101
  | _ => 1

end CompileError

/-! ## Lowering -/

def Literal.toValue : Literal → Value
  | .signal => .signal
  | .bool b => .bool b
  | .int n => .int n
  | .string s => .str s

/-- The operand for an argument with `depth` bindings in scope. -/
def Argument.lower (sites : Registry) (depth : UInt64) : Argument → Except CompileError Operand
  | .literal l => .ok (.const l.toValue)
  | .variable i => if i < depth then .ok (.var i.toNat) else .error (.unboundVariable i depth)
  | .site name =>
    match sites.site? name with
    | some s => .ok (.const (.site s))
    | none => .error (.unknownSite name)

/-- The number of bindings in scope under `n` more than `depth`. -/
def deepen (depth : UInt64) (n : Nat) : Except CompileError UInt64 :=
  if depth.toNat + n < UInt64.size then .ok (depth + n.toUInt64) else .error .scopeOverflow

namespace Expr

mutual

/-- Adds the nodes of an expression whose publications go on at `next`, and gives the node at
    which it starts. -/
def lower (sites : Registry) :
    Expr → (next : Nat) → (depth : UInt64) → Code → Except CompileError (Nat × Code)
  | .stop, _, _, c => .ok (Code.halt, c)
  | .value a, next, depth, c => do
    let operand ← a.lower sites depth
    return c.add (.load operand next)
  | .call target args span, next, depth, c => do
    let target ← target.lower sites depth
    let args ← args.mapM (Argument.lower sites depth)
    return c.add (.call target args next (c.isTail next) span)
  | .field target name, next, depth, c => do
    let target ← target.lower sites depth
    return c.add (.field target name next)
  | .parallel left right, next, depth, c => do
    let (left, c) ← lower sites left next depth c
    let (right, c) ← lower sites right next depth c
    return c.add (.fork left right)
  | .sequential left right, next, depth, c => do
    let inner ← deepen depth 1
    let (pop, c) := c.add (.unwind 1 next)
    let (right, c) ← lower sites right pop inner c
    let (push, c) := c.add (.push right)
    lower sites left push depth c
  | .pruning left right, next, depth, c => do
    let inner ← deepen depth 1
    let (pop, c) := c.add (.unwind 1 next)
    let (left, c) ← lower sites left pop inner c
    let (right, c) ← lower sites right Code.resolve depth c
    return c.add (.subgoal left right)
  | .otherwise left right, next, depth, c => do
    let (escape, c) := c.add (.escape next)
    let (left, c) ← lower sites left escape depth c
    let (right, c) ← lower sites right next depth c
    return c.add (.otherwise left right)
  | .declare defs body, next, depth, c => do
    let inner ← deepen depth defs.length
    let (compiled, c) ← lowerDefs sites defs inner c
    let (group, c) := c.addGroup compiled
    let (pop, c) := c.add (.unwind defs.length next)
    let (body, c) ← lower sites body pop inner c
    return c.add (.declare group body)
  | .atomic body, next, depth, c => do
    let (body, c) ← lower sites body Code.buffer depth c
    return c.add (.atomic body next)

/-- Adds the nodes of a definition whose group leaves `inner` bindings in scope. -/
def lowerDef (sites : Registry) :
    Definition → (inner : UInt64) → Code → Except CompileError (Def × Code)
  | .mk name arity body, inner, c => do
    let inner ← deepen inner arity.toNat
    let (entry, c) ← lower sites body Code.ret inner c
    return (⟨name, arity.toNat, entry⟩, c)

/-- Adds the nodes of the definitions of a group, in order. -/
def lowerDefs (sites : Registry) :
    List Definition → (inner : UInt64) → Code → Except CompileError (List Def × Code)
  | [], _, c => .ok ([], c)
  | d :: ds, inner, c => do
    let (d, c) ← lowerDef sites d inner c
    let (ds, c) ← lowerDefs sites ds inner c
    return (d :: ds, c)

end

/-- The program that runs an expression and publishes what it publishes. -/
def compile (e : Expr) (sites : Registry) : Except CompileError Program := do
  let (entry, code) ← e.lower sites Code.publish 0 {}
  return { code, entry }

end Expr
end Orchestra
