/-
  Chains: lists used as scopes.

  Environments and call stacks are lists that grow at the head and are addressed from it: entry
  0 is the most recent one.  Extending a chain leaves the old chain as it was, and unwinding
  gives a suffix, so every holder keeps its own view of the shared part.
-/

namespace Orchestra.Chain

variable {α : Type}

/-- The entry at a distance from the head. -/
def lookup? (xs : List α) (index : Nat) : Option α := xs[index]?

/-- The chain without its `n` most recent entries; nothing if it has fewer. -/
def unwind? : (n : Nat) → List α → Option (List α)
  | 0, xs => some xs
  | _ + 1, [] => none
  | n + 1, _ :: xs => unwind? n xs

/-- The entries between square brackets, the most recent first. -/
def text (show' : α → String) (xs : List α) : String :=
  "[" ++ ", ".intercalate (xs.map show') ++ "]"

theorem unwind?_eq (n : Nat) (xs : List α) :
    unwind? n xs = if n ≤ xs.length then some (xs.drop n) else none := by
  induction n generalizing xs with
  | zero => simp [unwind?]
  | succ n ih =>
    cases xs with
    | nil => simp [unwind?]
    | cons x xs => simp [unwind?, ih]

end Orchestra.Chain
