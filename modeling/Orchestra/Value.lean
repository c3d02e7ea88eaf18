/-
  Values, and the bindings that environments hold.

  A value is a signal, a boolean, a 64-bit integer, a string, a tuple, a record with named
  fields in a fixed order, a closure or a site.  A CLOSURE is one member of a group of
  definitions together with the environment in which the group was declared; the group itself is
  bound again at every call, so a closure never contains itself.  A SITE is something outside
  the program that a token can call; two sites are the same only if they have the same identity.

  An environment binds a variable either to a value or to a FUTURE: the value that a pruning
  cell will have, if it is ever bound.

  Three questions about values have their own functions here: when two are equal (`equal`), how
  one is written as a literal (`text`), and how one is printed (`display`).
-/
import Orchestra.Store
import Orchestra.Text.Quoted

namespace Orchestra

/-! ## Sites -/

/-- How the engine drives a call to a site. -/
inductive Mode where
  /-- The answer is there at once. -/
  | immediate
  /-- The call goes on outside the engine and answers by a message. -/
  | threaded
  /-- The answer is there at once and may depend on the caller's transaction. -/
  | transactional
  /-- The caller waits on a virtual clock. -/
  | timer (clock : Nat)
deriving DecidableEq, Repr

/-- A site: its name, its identity, and how it is called. -/
structure Site where
  name : String
  ident : Nat
  mode : Mode
deriving DecidableEq, Repr

/-! ## Values -/

mutual

/-- A value that an expression can publish. -/
inductive Value where
  | signal
  | bool (b : Bool)
  | int (n : Int64)
  | str (s : String)
  | tuple (items : List Value)
  | record (fields : List (String × Value))
  | closure (group member : Nat) (captured : List Binding)
  | site (s : Site)

/-- What a variable stands for. -/
inductive Binding where
  | value (v : Value)
  | future (cell : GroupId)

end

instance : Inhabited Value := ⟨.signal⟩

/-- An environment, the innermost binding first. -/
abbrev Env := List Binding

namespace Value

/-- The kind of a value, as messages name it. -/
def kind : Value → String
  | .signal => "signal"
  | .bool _ => "boolean"
  | .int _ => "integer"
  | .str _ => "string"
  | .tuple _ => "tuple"
  | .record _ => "record"
  | .closure .. => "closure"
  | .site _ => "site"

def asInt : Value → Option Int64
  | .int n => some n
  | _ => none

def asBool : Value → Option Bool
  | .bool b => some b
  | _ => none

/-! ## Records -/

/-- The value of a field. -/
def field? (fields : List (String × Value)) (name : String) : Option Value :=
  (fields.find? (·.1 = name)).map (·.2)

/-- Gives a field a value.  A name that is there already keeps its place. -/
def setField (fields : List (String × Value)) (name : String) (v : Value) :
    List (String × Value) :=
  if fields.any (·.1 = name) then
    fields.map fun f => if f.1 = name then (name, v) else f
  else fields ++ [(name, v)]

/-- The record with the given fields; of a repeated name the last value counts. -/
def ofFields (fields : List (String × Value)) : Value :=
  .record (fields.foldl (fun acc f => setField acc f.1 f.2) [])

/-! ## Equality -/

mutual

/-- Equality as programs see it.  Records are compared field by field, whatever the order;
    closures by the definition they are, sites by their identity. -/
def equal : Value → Value → Bool
  | .signal, .signal => true
  | .bool a, .bool b => a = b
  | .int a, .int b => a = b
  | .str a, .str b => a = b
  | .tuple as, .tuple bs => equalItems as bs
  | .record as, .record bs => as.length = bs.length && equalFields as bs
  | .closure g m _, .closure h n _ => g = h && m = n
  | .site a, .site b => a.ident = b.ident
  | _, _ => false

def equalItems : List Value → List Value → Bool
  | [], [] => true
  | a :: as, b :: bs => equal a b && equalItems as bs
  | _, _ => false

/-- Whether every field on the left has an equal one on the right. -/
def equalFields : List (String × Value) → List (String × Value) → Bool
  | [], _ => true
  | (name, a) :: as, bs =>
    (match field? bs name with
      | some b => equal a b
      | none => false)
    && equalFields as bs

end

/-! ## Texts -/

mutual

/-- A value as a literal: strings are quoted. -/
def text : Value → String
  | .signal => "signal"
  | .bool b => if b then "true" else "false"
  | .int n => toString n.toInt
  | .str s => Text.quoted s
  | .tuple items => "(" ++ ", ".intercalate (itemTexts items) ++ ")"
  | .record fields => "\x7b. " ++ ", ".intercalate (fieldTexts fields) ++ " .\x7d"
  | .closure group member _ => "<closure @" ++ toString group ++ "/" ++ toString member ++ ">"
  | .site s => "<site " ++ s.name ++ ">"

def itemTexts : List Value → List String
  | [] => []
  | v :: vs => text v :: itemTexts vs

def fieldTexts : List (String × Value) → List String
  | [] => []
  | (name, v) :: rest => (name ++ " = " ++ text v) :: fieldTexts rest

end

/-- A value as it is printed: a string stands for itself. -/
def display : Value → String
  | .str s => s
  | v => v.text

end Value
end Orchestra
