/-
  Towers: expressions in which one combinator is nested as deep as one likes.

  They show how lowering and running cope with depth.  Indices are not shifted, so a variable
  of the innermost expression may be captured on the way up.
-/
import Orchestra.Expr

namespace Orchestra

/-- How each floor of a tower is put around the one below. -/
inductive Floor where
  | parallelLeft
  | parallelRight
  | sequentialLeft
  | sequentialRight
  | pruningLeft
  | pruningRight
  | otherwiseLeft
  | otherwiseRight
  | declareBody
  | declareDef
  | atomic
deriving DecidableEq, Repr

namespace Expr

/-- The innermost variable as an expression. -/
def innermost : Expr := .value (.variable 0)

/-- A number as an expression. -/
def number (i : Nat) : Expr := .value (.literal (.int (Int64.ofNat i)))

/-- Floor number `i` around an expression. -/
def floor (kind : Floor) (i : Nat) (e : Expr) : Expr :=
  match kind with
  | .parallelLeft => .parallel e (number i)
  | .parallelRight => .parallel (number i) e
  | .sequentialLeft => .sequential e innermost
  | .sequentialRight => .sequential (number i) e
  | .pruningLeft => .pruning e (number i)
  | .pruningRight => .pruning innermost e
  | .otherwiseLeft => .otherwise e (number i)
  | .otherwiseRight => .otherwise .stop e
  | .declareBody => .declare [.mk "f" 0 (number i)] e
  | .declareDef => .declare [.mk "f" 0 e] (.call (.variable 0) [] .none)
  | .atomic => .atomic e

/-- A tower of the given height around an expression, floor 0 being the innermost. -/
def tower (kind : Floor) (height : Nat) (e : Expr) : Expr :=
  (List.range height).foldl (fun e i => floor kind i e) e

end Expr
end Orchestra
