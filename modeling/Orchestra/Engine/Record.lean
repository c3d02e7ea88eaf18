/-
  The records of a run.

  A TOKEN is one thread of control: where it stands in the code, what it sees, and the last
  value published into it.  Every token belongs to three scopes.

  * Its GROUP is what it is killed with.  Groups form a tree: the root, a cell for every pruning
    that waits for its value, a group for every transaction.
  * Its REGION is what notices when the token is gone.  Regions form a tree as well; a region
    counts its tokens and the regions below it, and when none is left it is quiescent, which
    means something different for each kind of region.
  * Its TRANSACTION, if it runs inside an atomic section, holds back its publications and knows
    the COHORTS, the holders of state that take part in the commit.

  Sets of tokens, groups and regions are lists in the order in which their elements joined.
-/
import Orchestra.Code
import Orchestra.Failure
import Orchestra.Versioned

namespace Orchestra

/-- A holder of state that takes part in transactions. -/
structure CohortId where
  index : Nat
deriving DecidableEq, Repr

/-! ## Tokens -/

/-- What a token is doing. -/
inductive Phase where
  /-- It stands in the queue of ready tokens. -/
  | runnable
  /-- It waits for a cell to be bound or for a clock. -/
  | blocked
  /-- It waits for a threaded call to the named site. -/
  | calling (site : String)
  /-- It stands for the vote of a cohort. -/
  | voting
deriving DecidableEq, Repr

/-- Where a call returns to. -/
structure Frame where
  next : Nat
  env : Env

/-- A thread of control. -/
structure Token where
  /-- The node to execute next; a blocked token executes it again once it is woken. -/
  node : Nat
  env : Env
  stack : List Frame
  /-- The last value published into the token. -/
  result : Value
  group : GroupId
  region : RegionId
  txn : Option TxnId
  /-- The span of the last call entered. -/
  span : Span
  phase : Phase

/-- What is kept of a token so that a new one can go on from there. -/
structure Continuation where
  node : Nat
  env : Env
  stack : List Frame
  group : GroupId
  region : RegionId
  txn : Option TxnId
  span : Span

/-- A token like this one that goes on at `node`. -/
def Token.forkAt (t : Token) (node : Nat) : Token := { t with node, phase := .runnable }

/-- What is kept of a token to go on at `node`. -/
def Token.continueAt (t : Token) (node : Nat) : Continuation :=
  { t with node }

/-- The token that goes on with a value. -/
def Continuation.resume (k : Continuation) (result : Value) : Token :=
  { k with result, phase := .runnable }

/-! ## Groups -/

/-- What a group is for. -/
inductive GroupKind where
  | root
  /-- The computation of a pruning cell in a region, and the tokens waiting for its value. -/
  | cell (waiters : List TokenId) (region : RegionId)
  | transaction (txn : TxnId)

/-- A set of tokens and groups that are killed together. -/
structure Group where
  parent : Option GroupId
  kind : GroupKind
  children : List GroupId := []
  members : List TokenId := []
  /-- A killed group takes no more tokens. -/
  killed : Bool := false

/-! ## Regions -/

/-- What happens when a region is quiescent. -/
inductive RegionKind where
  /-- The run ends. -/
  | root
  /-- The cell, if it has no value, never will have one. -/
  | pruning (cell : GroupId)
  /-- The fallback starts unless something was published. -/
  | otherwise (published : Bool) (fallback : Continuation)
  /-- The body of the transaction is done; the cohorts are asked for their votes. -/
  | transaction (txn : TxnId)
  /-- All votes of the transaction are in. -/
  | votes (txn : TxnId)

/-- A set of tokens and regions whose end is waited for. -/
structure Region where
  parent : Option RegionId
  kind : RegionKind
  children : List RegionId := []
  tokens : List TokenId := []
  /-- The number of tokens and of regions below. -/
  live : Nat := 0
  /-- A closed region takes no more tokens. -/
  closed : Bool := false

/-! ## Transactions -/

/-- How far a transaction has come. -/
inductive TxnState where
  /-- The body runs; publications are held back. -/
  | running
  /-- The votes are out. -/
  | readying
  | done
  | aborted
deriving DecidableEq, Repr

/-- The run of an atomic section. -/
structure Transaction where
  scope : Scope
  /-- The transaction around this one. -/
  parent : Option TxnId
  group : GroupId
  /-- Where the publications go after a commit. -/
  continuation : Continuation
  cohorts : List CohortId := []
  publications : List Value := []
  state : TxnState := .running

/-! ## Sets -/

/-- Adds an element at the end unless it is there. -/
def joined {α : Type} [DecidableEq α] (xs : List α) (x : α) : List α :=
  if x ∈ xs then xs else xs ++ [x]

/-- The transaction with more cohorts, each known once. -/
def Transaction.enlist (t : Transaction) (cohorts : List CohortId) : Transaction :=
  { t with cohorts := cohorts.foldl joined t.cohorts }

end Orchestra
