/-
  The grammar of program texts.

  A program text is a text of JSON.  This is its grammar for the VALUES that programs are made of:
  truth values, integers, strings, lists and objects.  It says which texts stand for a value, without
  a word on how they are read.

  1. **Strings** (`Spelled`): a character stands for itself, or is escaped in two characters, or by
     its code point in four hexadecimal digits of either case, or as two surrogates.

  2. **Values** (`Written`): blanks may stand around everything but the parts of a word, of a number
     and of a string.  `Items` and `Fields` are what stands between the brackets; their index says
     whether the next one is the first, which has no comma in front of it.

  3. **Nesting** (`Json.depth`): how many brackets are open at once.
-/
import Orchestra.Interchange.Cursor

namespace Orchestra.Interchange

/-- What a text stands for. -/
inductive Json where
  | bool (b : Bool)
  | number (n : Int)
  | string (s : String)
  | list (items : List Json)
  | object (fields : List (String × Json))

mutual

/-- How many brackets are open at once in a text of the value. -/
def Json.depth : Json → Nat
  | .bool _ | .number _ | .string _ => 0
  | .list items => depthOfItems items + 1
  | .object fields => depthOfFields fields + 1

def Json.depthOfItems : List Json → Nat
  | [] => 0
  | j :: items => max j.depth (depthOfItems items)

def Json.depthOfFields : List (String × Json) → Nat
  | [] => 0
  | (_, j) :: fields => max j.depth (depthOfFields fields)

end

namespace Json

/-- An alternative with content. -/
def tagged (name : String) (content : Json) : Json := .object [(name, content)]

theorem depth_lt_list {j : Json} {items : List Json} (h : j ∈ items) :
    j.depth < (list items).depth := by
  rw [depth]
  induction items with
  | nil => cases h
  | cons i items ih => grind [depthOfItems]

theorem depth_lt_object {f : String × Json} {fields : List (String × Json)} (h : f ∈ fields) :
    f.2.depth < (object fields).depth := by
  rw [depth]
  induction fields with
  | nil => cases h
  | cons g fields ih => grind [depthOfFields]

end Json

/-- Only blanks. -/
def Blank (ws : List Char) : Prop := ∀ c ∈ ws, isBlank c = true

/-! ## Strings -/

/-- The value of a hexadecimal digit of either case. -/
def HexDigit (n : Nat) (c : Char) : Prop :=
  ['0', '1', '2', '3', '4', '5', '6', '7', '8', '9', 'a', 'b', 'c', 'd', 'e', 'f'][n]? = some c ∨
    ['0', '1', '2', '3', '4', '5', '6', '7', '8', '9', 'A', 'B', 'C', 'D', 'E', 'F'][n]? = some c

/-- Four hexadecimal digits behind the start of an escape. -/
inductive Escape : Nat → List Char → Prop where
  | intro {w x y z : Nat} {a b c d : Char} (hw : HexDigit w a) (hx : HexDigit x b)
      (hy : HexDigit y c) (hz : HexDigit z d) :
    Escape (0x1000 * w + 0x100 * x + 0x10 * y + z) ['\\', 'u', a, b, c, d]

/-- The characters that are escaped in two characters, with the second one. -/
def shortEscapes : List (Char × Char) :=
  [('"', '"'), ('\\', '\\'), ('/', '/'), ('\x08', 'b'), ('\x0c', 'f'), ('\n', 'n'), ('\r', 'r'),
    ('\t', 't')]

/-- A spelling of some characters between quotes. -/
inductive Spelled : List Char → List Char → Prop where
  | nil : Spelled [] []
  | plain {c : Char} {s t : List Char} (hprintable : 0x20 ≤ c.toNat) (hquote : c ≠ '"')
      (hbackslash : c ≠ '\\') (hrest : Spelled s t) : Spelled (c :: s) (c :: t)
  | short {c e : Char} {s t : List Char} (hescape : (c, e) ∈ shortEscapes) (hrest : Spelled s t) :
    Spelled (c :: s) ('\\' :: e :: t)
  | point {c : Char} {n : Nat} {s t u : List Char} (hpoint : c.toNat = n) (hescape : Escape n u)
      (hrest : Spelled s t) : Spelled (c :: s) (u ++ t)
  | surrogates {c : Char} {i k : Nat} {s t u v : List Char} (hi : i < 0x400) (hk : k < 0x400)
      (hpoint : c.toNat = 0x10000 + 0x400 * i + k) (hhigh : Escape (0xd800 + i) u)
      (hlow : Escape (0xdc00 + k) v) (hrest : Spelled s t) : Spelled (c :: s) (u ++ v ++ t)

/-- A string with its quotes. -/
inductive Quoted (s : String) : List Char → Prop where
  | intro {t : List Char} (h : Spelled s.toList t) : Quoted s ('"' :: t ++ ['"'])

/-! ## Values -/

/-- What stands in front of an item: blanks, with a comma among them if it is not the first. -/
inductive Leads : (first : Bool) → List Char → Prop where
  | first {ws : List Char} (h : Blank ws) : Leads true ws
  | later {ws ws' : List Char} (h : Blank ws) (h' : Blank ws') : Leads false (ws ++ ',' :: ws')

mutual

/-- A text for a value, without blanks around it. -/
inductive Written : Json → List Char → Prop where
  | bool (b : Bool) :
    Written (.bool b) (if b then ['t', 'r', 'u', 'e'] else ['f', 'a', 'l', 's', 'e'])
  | number (n : Int) : Written (.number n) (toString n).toList
  | string {s : String} {t : List Char} (h : Quoted s t) : Written (.string s) t
  | list {items : List Json} {t : List Char} (h : Items true items t) :
    Written (.list items) ('[' :: t ++ [']'])
  | object {fields : List (String × Json)} {t : List Char} (h : Fields true fields t) :
    Written (.object fields) ('\x7b' :: t ++ ['\x7d'])

inductive Items : (first : Bool) → List Json → List Char → Prop where
  | nil {first : Bool} {ws : List Char} (h : Blank ws) : Items first [] ws
  | cons {first : Bool} {j : Json} {items : List Json} {lead t rest : List Char}
      (hlead : Leads first lead) (hitem : Written j t) (hrest : Items false items rest) :
    Items first (j :: items) (lead ++ t ++ rest)

inductive Fields : (first : Bool) → List (String × Json) → List Char → Prop where
  | nil {first : Bool} {ws : List Char} (h : Blank ws) : Fields first [] ws
  | cons {first : Bool} {key : String} {j : Json} {fields : List (String × Json)}
      {lead k ws ws' t rest : List Char} (hlead : Leads first lead) (hkey : Quoted key k)
      (hbefore : Blank ws) (hbehind : Blank ws') (hvalue : Written j t)
      (hrest : Fields false fields rest) :
    Fields first ((key, j) :: fields) (lead ++ k ++ ws ++ ':' :: ws' ++ t ++ rest)

end

/-- What may come behind a value: the end, a blank, a comma or a closing bracket. -/
def Ends (rest : List Char) : Prop :=
  ∀ c, rest.head? = some c → isBlank c = true ∨ c = ',' ∨ c = ']' ∨ c = '\x7d'

end Orchestra.Interchange
