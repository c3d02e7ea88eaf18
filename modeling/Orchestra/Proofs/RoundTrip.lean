/-
  Programs are read back from their texts.

  1. **Forms** (`Encodes`): the values that stand for an expression.  An alternative is its name, or
     an object with its name and its content; two expressions are a list; everything with named
     parts is an object with its fields in any order.  A call may lack an empty list of arguments,
     and a span that is not known.

  2. **Every form is read back** (`Encodes.reads`), by induction on the form.  Each bracket takes a
     level from the nesting that is left, so the form must not be nested deeper than that.

  3. **The printed form is one of them** (`written_print`).
-/
import Orchestra.Interchange.Print
import Orchestra.Proofs.Reading

namespace Orchestra.Interchange

open List

variable {j : Json} {fs : List (String × Json)} {t : List Char} {depth : Nat} {inner : Reader Expr}
  {name : String} {f : String × Json}

open Reader

/-! ## Forms -/

def literalJson : Literal → Json
  | .signal => .string "signal"
  | .bool b => .tagged "bool" (.bool b)
  | .int n => .tagged "int" (.number n.toInt)
  | .string s => .tagged "string" (.string s)

def argumentJson : Argument → Json
  | .literal l => .tagged "literal" (literalJson l)
  | .variable i => .tagged "variable" (.number i.toNat)
  | .site name => .tagged "site" (.string name)

inductive EncodesPoint (p : Point) : Json → Prop where
  | intro {fs : List (String × Json)}
      (h : fs.Perm [("offset", .number p.offset.toNat), ("row", .number p.row.toNat),
        ("column", .number p.column.toNat)]) : EncodesPoint p (.object fs)

inductive EncodesSpan : Span → Json → Prop where
  | none : EncodesSpan .none (.string "none")
  | at {start stop : Point} {file : String} {j k : Json} {fs : List (String × Json)}
      (hstart : EncodesPoint start j) (hstop : EncodesPoint stop k)
      (h : fs.Perm [("start", j), ("end", k), ("file", .string file)]) :
    EncodesSpan (.at start stop file) (.tagged "at" (.object fs))

/-- The fields of an object from one that may be left out if it is `idle`. -/
inductive MayLack (idle : Prop) (f : String × Json) : List (String × Json) → Prop where
  | present : MayLack idle f [f]
  | absent (h : idle) : MayLack idle f []

mutual

/-- The value stands for the expression. -/
inductive Encodes : Expr → Json → Prop where
  | stop : Encodes .stop (.string "stop")
  | value (a : Argument) : Encodes (.value a) (.tagged "value" (argumentJson a))
  | call {target : Argument} {args : List Argument} {span : Span} {j : Json}
      {fs argsPart spanPart : List (String × Json)} (hspan : EncodesSpan span j)
      (hargs : MayLack (args = []) ("args", .list (args.map argumentJson)) argsPart)
      (hplace : MayLack (span = .none) ("span", j) spanPart)
      (h : fs.Perm (("target", argumentJson target) :: argsPart ++ spanPart)) :
    Encodes (.call target args span) (.tagged "call" (.object fs))
  | field {target : Argument} {name : String} {fs : List (String × Json)}
      (h : fs.Perm [("target", argumentJson target), ("field", .string name)]) :
    Encodes (.field target name) (.tagged "field" (.object fs))
  | parallel {left right : Expr} {j k : Json} (hleft : Encodes left j) (hright : Encodes right k) :
    Encodes (.parallel left right) (.tagged "parallel" (.list [j, k]))
  | sequential {left right : Expr} {j k : Json} (hleft : Encodes left j) (hright : Encodes right k) :
    Encodes (.sequential left right) (.tagged "sequential" (.list [j, k]))
  | pruning {left right : Expr} {j k : Json} {fs : List (String × Json)} (hleft : Encodes left j)
      (hright : Encodes right k) (h : fs.Perm [("left", j), ("right", k)]) :
    Encodes (.pruning left right) (.tagged "pruning" (.object fs))
  | otherwise {left right : Expr} {j k : Json} (hleft : Encodes left j) (hright : Encodes right k) :
    Encodes (.otherwise left right) (.tagged "otherwise" (.list [j, k]))
  | declare {defs : List Definition} {body : Expr} {js : List Json} {k : Json}
      {fs : List (String × Json)} (hdefs : EncodesAll defs js) (hbody : Encodes body k)
      (h : fs.Perm [("defs", .list js), ("body", k)]) :
    Encodes (.declare defs body) (.tagged "declare" (.object fs))
  | atomic {body : Expr} {j : Json} (hbody : Encodes body j) :
    Encodes (.atomic body) (.tagged "atomic" j)

/-- The values stand for the definitions, one by one. -/
inductive EncodesAll : List Definition → List Json → Prop where
  | nil : EncodesAll [] []
  | cons {name : String} {arity : UInt64} {body : Expr} {j : Json} {fs : List (String × Json)}
      {defs : List Definition} {js : List Json} (hbody : Encodes body j)
      (h : fs.Perm [("name", .string name), ("arity", .number arity.toNat), ("body", j)])
      (hdefs : EncodesAll defs js) : EncodesAll (.mk name arity body :: defs) (.object fs :: js)

end

/-! ## Reading -/

theorem Reads.literal (l : Literal) (h : (literalJson l).depth < depth) :
    Reads (Reader.literal depth) (literalJson l) l := by
  cases l with
  | signal => exact .alone (by simp [literalNames]) rfl
  | bool b => exact .tagged (by simp [literalNames]) h fun _ => (Reads.boolean b).map Literal.bool
  | int n => exact .tagged (by simp [literalNames]) h fun _ => (Reads.int64 n).map Literal.int
  | string s => exact .tagged (by simp [literalNames]) h fun _ => (Reads.string s).map Literal.string

theorem Reads.argument (a : Argument) (h : (argumentJson a).depth < depth) :
    Reads (Reader.argument depth) (argumentJson a) a := by
  cases a with
  | literal l =>
    exact .tagged (by simp [argumentNames]) h fun hcontent =>
      (Reads.literal l (by omega)).map Argument.literal
  | «variable» i =>
    exact .tagged (by simp [argumentNames]) h fun _ => (Reads.uint64 i).map Argument.variable
  | site name =>
    exact .tagged (by simp [argumentNames]) h fun _ => (Reads.string name).map Argument.site

theorem EncodesPoint.reads {p : Point} (h : EncodesPoint p j) (hdepth : j.depth < depth) :
    Reads (point depth) j p := by
  cases h with
  | intro h =>
    refine .structure (fun seen => ⟨given seen "offset" p.offset, given seen "row" p.row,
      given seen "column" p.column⟩) hdepth (by simp) h (by simp) ?_ ?_
    · simp only [forall_mem_cons, String.reduceEq, reduceIte]
      exact ⟨fun _ seen hseen => .once (Reads.uint32 p.offset) hseen (by simp),
        fun _ seen hseen => .once (Reads.uint32 p.row) hseen (by simp),
        fun _ seen hseen => .once (Reads.uint32 p.column) hseen (by simp), nofun⟩
    · intro seen hseen s
      simp only [forall_mem_cons] at hseen
      simp only [given_of_mem hseen.1, given_of_mem hseen.2.1, given_of_mem hseen.2.2.1]
      exact .pure p s

theorem EncodesSpan.reads {span : Span} (h : EncodesSpan span j) (hdepth : j.depth < depth) :
    Reads (Reader.span depth) j span := by
  cases h with
  | none => exact .alone (by simp [spanNames]) rfl
  | @«at» start stop file j k fs hstart hstop h =>
    refine .tagged (by simp [spanNames]) hdepth fun hcontent => ?_
    refine .structure (fun seen => ⟨given seen "start" start, given seen "end" stop,
      given seen "file" file⟩) (by omega) (by simp) h (by simp) ?_ ?_
    · simp only [forall_mem_cons, String.reduceEq, reduceIte]
      exact ⟨fun hj seen hseen => .once (hstart.reads (by omega)) hseen (by simp),
        fun hk seen hseen => .once (hstop.reads (by omega)) hseen (by simp),
        fun _ seen hseen => .once (Reads.string file) hseen (by simp), nofun⟩
    · intro seen hseen s
      simp only [forall_mem_cons] at hseen
      simp only [given_of_mem hseen.1, given_of_mem hseen.2.1, given_of_mem hseen.2.2.1]
      exact .pure _ s

/-! ### Calls -/

theorem MayLack.eq_of_mem {idle : Prop} {g : String × Json} (h : MayLack idle f fs) (hg : g ∈ fs) :
    g = f := by
  cases h with
  | present => exact mem_singleton.1 hg
  | absent => cases hg

/-- A field that is left out has the value that is put in for it. -/
theorem MayLack.getD_given {α : Type} {a other : α} {key : String}
    (h : MayLack (a = other) (key, j) fs) {seen : List String} (hseen : ∀ f ∈ fs, f.1 ∈ seen) :
    (given seen key a).getD other = a := by
  cases h with
  | present => rw [given_of_mem (hseen _ (mem_singleton_self _))]; rfl
  | absent h =>
    subst h
    unfold given
    split <;> rfl

theorem Reads.arguments (args : List Argument)
    (h : (Json.list (args.map argumentJson)).depth < depth) :
    Reads (Reader.list depth (Reader.argument (depth - 1))) (.list (args.map argumentJson)) args := by
  refine .list h (forall₂_map_left_iff.2 (forall₂_same.2 fun a ha => ?_))
  have := Json.depth_lt_list (mem_map_of_mem (f := argumentJson) ha)
  exact .argument a (by omega)

/-- A call is read back, whether or not its empty parts are written. -/
theorem Reads.call {target : Argument} {args : List Argument} {span : Span} {j : Json}
    {fs argsPart spanPart : List (String × Json)} (hspan : EncodesSpan span j)
    (hargs : MayLack (args = []) ("args", .list (args.map argumentJson)) argsPart)
    (hplace : MayLack (span = .none) ("span", j) spanPart)
    (h : fs.Perm (("target", argumentJson target) :: argsPart ++ spanPart)) {depth : Nat}
    (hdepth : (Json.object fs).depth < depth) :
    Reads (Reader.call depth) (.object fs) (.call target args span) := by
  have hnodup : ((("target", argumentJson target) :: argsPart ++ spanPart).map Prod.fst).Nodup := by
    cases hargs <;> cases hplace <;> simp
  refine .structure (fun seen => ⟨given seen "target" target, given seen "args" args,
    given seen "span" span⟩) hdepth (by simp) h hnodup ?_ ?_
  · intro f hf hdepth seen hseen
    rcases mem_cons.1 hf with rfl | hf
    · exact .once (Reads.argument target (Nat.lt_sub_of_add_lt hdepth)) hseen (by simp)
    · rcases mem_append.1 hf with hf | hf
      · obtain rfl := hargs.eq_of_mem hf
        simp only [String.reduceEq, reduceIte]
        exact .once (Reads.arguments args (Nat.lt_sub_of_add_lt hdepth)) hseen (by simp)
      · obtain rfl := hplace.eq_of_mem hf
        simp only [String.reduceEq, reduceIte]
        exact .once (hspan.reads (Nat.lt_sub_of_add_lt hdepth)) hseen (by simp)
  · intro seen hseen s
    obtain ⟨htarget, hseen⟩ := forall_mem_cons.1 hseen
    obtain ⟨hseen, hseen'⟩ := forall_mem_append.1 hseen
    simp only [given_of_mem htarget, hargs.getD_given hseen, hplace.getD_given hseen']
    exact .pure _ s

/-! ### Expressions -/

theorem Reads.fieldAccess {target : Argument}
    (h : fs.Perm [("target", argumentJson target), ("field", .string name)])
    (hdepth : (Json.object fs).depth < depth) :
    Reads (Reader.fieldAccess depth) (.object fs) (.field target name) := by
  refine .structure (fun seen => ⟨given seen "target" target, given seen "field" name⟩) hdepth
    (by simp) h (by simp) ?_ ?_
  · simp only [forall_mem_cons, String.reduceEq, reduceIte]
    exact ⟨fun ht seen hseen =>
        .once (Reads.argument target (Nat.lt_sub_of_add_lt ht)) hseen (by simp),
      fun _ seen hseen => .once (Reads.string name) hseen (by simp), nofun⟩
  · intro seen hseen s
    simp only [forall_mem_cons] at hseen
    simp only [given_of_mem hseen.1, given_of_mem hseen.2.1]
    exact .pure _ s

theorem Reads.pruning {inner : Reader Expr} {left right : Expr} {j k : Json}
    {fs : List (String × Json)} (h : fs.Perm [("left", j), ("right", k)]) {depth : Nat}
    (hdepth : (Json.object fs).depth < depth) (hleft : j.depth + 1 < depth → Reads inner j left)
    (hright : k.depth + 1 < depth → Reads inner k right) :
    Reads (Reader.pruning depth inner) (.object fs) (.pruning left right) := by
  refine .structure (fun seen => ⟨given seen "left" left, given seen "right" right⟩) hdepth
    (by simp) h (by simp) ?_ ?_
  · simp only [forall_mem_cons, String.reduceEq, reduceIte]
    exact ⟨fun hj seen hseen => .once (hleft hj) hseen (by simp),
      fun hk seen hseen => .once (hright hk) hseen (by simp), nofun⟩
  · intro seen hseen s
    simp only [forall_mem_cons] at hseen
    simp only [given_of_mem hseen.1, given_of_mem hseen.2.1]
    exact .pure _ s

theorem Reads.definition {arity : UInt64} {body : Expr}
    (h : fs.Perm [("name", .string name), ("arity", .number arity.toNat), ("body", j)])
    (hdepth : (Json.object fs).depth < depth) (hbody : j.depth + 1 < depth → Reads inner j body) :
    Reads (Reader.definition depth inner) (.object fs) (.mk name arity body) := by
  refine .structure (fun seen => ⟨given seen "name" name, given seen "arity" arity,
    given seen "body" body⟩) hdepth (by simp) h (by simp) ?_ ?_
  · simp only [forall_mem_cons, String.reduceEq, reduceIte]
    exact ⟨fun _ seen hseen => .once (Reads.string name) hseen (by simp),
      fun _ seen hseen => .once (Reads.uint64 arity) hseen (by simp),
      fun hj seen hseen => .once (hbody hj) hseen (by simp), nofun⟩
  · intro seen hseen s
    simp only [forall_mem_cons] at hseen
    simp only [given_of_mem hseen.1, given_of_mem hseen.2.1, given_of_mem hseen.2.2.1]
    exact .pure _ s

theorem Reads.declare {inner deep : Reader Expr} {defs : List Definition} {body : Expr}
    {js : List Json} {k : Json} {fs : List (String × Json)}
    (h : fs.Perm [("defs", .list js), ("body", k)]) {depth : Nat}
    (hdepth : (Json.object fs).depth < depth)
    (hdefs : (Json.list js).depth + 1 < depth →
      List.Forall₂ (Reads (Reader.definition (depth - 2) deep)) js defs)
    (hbody : k.depth + 1 < depth → Reads inner k body) :
    Reads (Reader.declare depth inner deep) (.object fs) (.declare defs body) := by
  refine .structure (fun seen => ⟨given seen "defs" defs, given seen "body" body⟩) hdepth
    (by simp) h (by simp) ?_ ?_
  · simp only [forall_mem_cons, String.reduceEq, reduceIte]
    exact ⟨fun hj seen hseen =>
        .once (Reads.list (Nat.lt_sub_of_add_lt hj) (hdefs hj)) hseen (by simp),
      fun hk seen hseen => .once (hbody hk) hseen (by simp), nofun⟩
  · intro seen hseen s
    simp only [forall_mem_cons] at hseen
    simp only [given_of_mem hseen.1, given_of_mem hseen.2.1]
    exact .pure _ s

/-- The readers inside that of an expression, as far as there are levels for them. -/
theorem expr_succ (depth : Nat) :
    ∃ inner deep, expr (depth + 1) = exprOf depth (expr depth) inner deep ∧
      (∀ d, depth = d + 1 → inner = expr d) ∧ ∀ d, depth = d + 3 → deep = expr d := by
  match depth with
  | 0 => exact ⟨_, _, rfl, nofun, nofun⟩
  | 1 => exact ⟨_, _, rfl, fun | 0, _ => rfl, nofun⟩
  | 2 => exact ⟨_, _, rfl, fun | 1, _ => rfl, nofun⟩
  | depth + 3 =>
    refine ⟨_, _, rfl, ?_, ?_⟩ <;> rintro d heq <;> cases heq <;> rfl

/-- Two expressions in a list, each with two levels less. -/
theorem Reads.sides (name : String) {k : Json} {left right : Expr}
    (hdepth : (Json.list [j, k]).depth < depth) (hinner : ∀ d, depth = d + 1 → inner = expr d)
    (hleft : ∀ {d}, j.depth < d → Reads (expr d) j left)
    (hright : ∀ {d}, k.depth < d → Reads (expr d) k right) :
    Reads (Reader.pair depth name inner) (.list [j, k]) (left, right) := by
  cases depth with
  | zero => exact absurd hdepth (Nat.not_lt_zero _)
  | succ depth => grind [pair]

mutual

/-- Every form of an expression that is not nested too deep is read back. -/
theorem Encodes.reads {e : Expr} {j : Json} (h : Encodes e j) {depth : Nat}
    (hdepth : j.depth < depth) : Reads (expr depth) j e := by
  cases depth with
  | zero => exact absurd hdepth (Nat.not_lt_zero _)
  | succ depth =>
    obtain ⟨inner, deep, hexpr, hinner, hdeep⟩ := expr_succ depth
    rw [hexpr]
    cases h with
    | stop => exact .alone (by simp [exprNames]) rfl
    | value a =>
      refine .tagged (by simp [exprNames]) hdepth fun hcontent => ?_
      simp only [String.reduceEq, reduceIte]
      exact (Reads.argument a (by omega)).map Expr.value
    | call hspan hargs hplace h =>
      refine .tagged (by simp [exprNames]) hdepth fun hcontent => ?_
      grind [Reads.call]
    | field h =>
      refine .tagged (by simp [exprNames]) hdepth fun hcontent => ?_
      simp only [String.reduceEq, reduceIte]
      exact Reads.fieldAccess h (by omega)
    | parallel hleft hright =>
      refine .tagged (by simp [exprNames]) hdepth fun hcontent => ?_
      simp only [String.reduceEq, reduceIte]
      exact (Reads.sides "Parallel" (by omega) hinner (hleft.reads ·) (hright.reads ·)).map
        (Function.uncurry Expr.parallel)
    | sequential hleft hright =>
      refine .tagged (by simp [exprNames]) hdepth fun hcontent => ?_
      simp only [String.reduceEq, reduceIte]
      exact (Reads.sides "Sequential" (by omega) hinner (hleft.reads ·) (hright.reads ·)).map
        (Function.uncurry Expr.sequential)
    | pruning hleft hright h =>
      refine .tagged (by simp [exprNames]) hdepth fun hcontent => ?_
      simp only [String.reduceEq, reduceIte]
      exact Reads.pruning h (by omega)
        (fun hj => hinner (depth - 1) (by omega) ▸ hleft.reads (by omega))
        fun hk => hinner (depth - 1) (by omega) ▸ hright.reads (by omega)
    | otherwise hleft hright =>
      refine .tagged (by simp [exprNames]) hdepth fun hcontent => ?_
      simp only [String.reduceEq, reduceIte]
      exact (Reads.sides "Otherwise" (by omega) hinner (hleft.reads ·) (hright.reads ·)).map
        (Function.uncurry Expr.otherwise)
    | @declare defs body js k fs hdefs hbody h =>
      refine .tagged (by simp [exprNames]) hdepth fun hcontent => ?_
      simp only [String.reduceEq, reduceIte]
      -- the list of definitions is there even if it is empty, and takes a level
      have hlist := Json.depth_lt_object
        (h.symm.subset (mem_cons_self (a := ("defs", Json.list js))))
      have hlevel : 0 < (Json.list js).depth := by rw [Json.depth]; omega
      obtain ⟨depth, rfl⟩ : ∃ d, depth = d + 3 := ⟨depth - 3, by simp only at hlist; omega⟩
      rw [hinner (depth + 2) rfl, hdeep depth rfl]
      refine Reads.declare h (by omega) (fun hjs => hdefs.reads fun j hj => ?_)
        fun hk => hbody.reads (by omega)
      have := Json.depth_lt_list hj
      omega
    | atomic hbody =>
      refine .tagged (by simp [exprNames]) hdepth fun hcontent => ?_
      simp only [String.reduceEq, if_false]
      exact (hbody.reads (by omega)).map Expr.atomic

theorem EncodesAll.reads {defs : List Definition} {js : List Json} (h : EncodesAll defs js)
    {depth : Nat} (hdepth : ∀ j ∈ js, j.depth < depth + 1) :
    List.Forall₂ (Reads (definition (depth + 1) (expr depth))) js defs := by
  cases h with
  | nil => exact .nil
  | cons hbody h hdefs =>
    obtain ⟨hj, hdepth⟩ := forall_mem_cons.1 hdepth
    exact .cons (Reads.definition h hj fun hd => hbody.reads (by omega)) (hdefs.reads hdepth)

end

theorem Gives.endOfText {ws : List Char} (h : Blank ws) : Gives Reader.endOfText ws () [] := by
  have hpeek := Gives.peekAfterBlanks (s := []) h nofun
  rw [append_nil] at hpeek
  exact hpeek.bind (.pure () [])

theorem parse_of_reads {e : Expr} (h : Reads (expr nesting) j e) {before after : List Char}
    (ht : Written j t) (hbefore : Blank before) (hafter : Blank after) (file : String) :
    parse file (String.ofList (before ++ t ++ after)) = .ok e := by
  have hall : Gives (do let e ← expr nesting; endOfText; return e) (before ++ t ++ after) e [] :=
    (h ht hbefore hafter.ends_self).bind ((Gives.endOfText hafter).bind (.pure e []))
  obtain ⟨offset, hall⟩ := hall 0
  rw [parse, readAll, String.toList_ofList, hall]

/-! ## Printing -/

theorem hexDigit_digitChar : ∀ n < 16, HexDigit n (Nat.digitChar n) := by
  unfold HexDigit
  decide

/-- The escape of a control character. -/
theorem Escape.fourHex {n : Nat} (hn : n < 0x20) :
    Escape n ("\\u" ++ Interchange.fourHex n).toList := by
  have htext : ∀ n < 0x20, ("\\u" ++ Interchange.fourHex n).toList =
    ['\\', 'u', '0', '0', Nat.digitChar (n / 16), Nat.digitChar (n % 16)] := by decide +kernel
  have hvalue : n = 0x1000 * 0 + 0x100 * 0 + 0x10 * (n / 16) + n % 16 := by omega
  rw [htext n hn]
  have hzero := hexDigit_digitChar 0 (by decide)
  have h := Escape.intro hzero hzero (hexDigit_digitChar (n / 16) (by omega))
    (hexDigit_digitChar (n % 16) (by omega))
  rwa [← hvalue] at h

/-- How a character is printed is a spelling of it. -/
theorem Spelled.printChar {s : List Char} (h : Spelled s t) (c : Char) :
    Spelled (c :: s) ((Interchange.printChar c).toList ++ t) := by
  unfold Interchange.printChar
  -- seven characters have an escape of their own
  iterate 7
    split
    case isTrue hc => subst hc; exact .short (by decide) h
  split
  case isTrue hc => exact .point rfl (.fourHex hc) h
  case isFalse hquote hbackslash _ _ _ _ _ hc =>
    rw [Char.toString_eq_singleton, String.toList_singleton]
    exact .plain (Nat.not_lt.1 hc) hquote hbackslash h

theorem Quoted.printString (s : String) : Quoted s (Interchange.printString s).toList := by
  have hspelled : ∀ cs : List Char,
      Spelled cs (cs.flatMap fun c => (Interchange.printChar c).toList) := by
    intro cs
    induction cs with
    | nil => exact .nil
    | cons c cs ih => exact ih.printChar c
  have htext : (Interchange.printString s).toList =
      '"' :: (s.toList.flatMap fun c => (Interchange.printChar c).toList) ++ ['"'] := by
    simp [Interchange.printString, String.toList_append, flatMap_map]
  rw [htext]
  exact .intro (hspelled s.toList)

theorem intercalate_comma (t : List Char) (ts : List (List Char)) :
    [','].intercalate (t :: ts) = t ++ ts.flatMap (',' :: ·) := by
  induction ts generalizing t with
  | nil => simp [List.intercalate]
  | cons u ts ih =>
    rw [intercalate_cons_cons, ih]
    simp

theorem Leads.comma : Leads false [','] := .later Blank.nil Blank.nil

theorem Written.printList {items : List Json} {texts : List String}
    (h : List.Forall₂ (fun j text => Written j text.toList) items texts) :
    Written (.list items) (Interchange.printList texts).toList := by
  have hmore : ∀ {items texts},
      List.Forall₂ (fun j text => Written j (String.toList text)) items texts →
      Items false items ((texts.map String.toList).flatMap (',' :: ·)) := by
    intro items texts h
    induction h with
    | nil => exact .nil Blank.nil
    | cons hitem _ ih => exact .cons Leads.comma hitem ih
  have htext : (Interchange.printList texts).toList =
      '[' :: [','].intercalate (texts.map String.toList) ++ [']'] := by
    simp [Interchange.printList, String.toList_append, String.toList_intercalate]
  rw [htext]
  refine .list ?_
  cases h with
  | nil => exact .nil Blank.nil
  | cons hitem hitems =>
    rw [map_cons, intercalate_comma]
    exact .cons (.first Blank.nil) hitem (hmore hitems)

/-- The text of a field, without what stands in front of it. -/
def fieldText (g : String × String) : List Char :=
  (Interchange.printString g.1).toList ++ ':' :: g.2.toList

theorem Fields.printed {first : Bool} {lead rest : List Char} {g : String × String}
    (hlead : Leads first lead) (hf : f.1 = g.1 ∧ Written f.2 g.2.toList)
    (hrest : Fields false fs rest) : Fields first (f :: fs) (lead ++ fieldText g ++ rest) := by
  obtain ⟨key, j⟩ := f
  obtain ⟨rfl, hvalue⟩ := hf
  have h := Fields.cons hlead (.printString g.1) Blank.nil Blank.nil hvalue hrest
  rw [fieldText]
  simpa only [append_assoc, cons_append, nil_append] using h

/-- An object is printed field by field. -/
theorem Written.printObject {gs : List (String × String)}
    (h : List.Forall₂ (fun f g => f.1 = g.1 ∧ Written f.2 g.2.toList) fs gs) :
    Written (.object fs) (Interchange.printObject gs).toList := by
  have hmore : ∀ {fs gs}, List.Forall₂ (fun (f : String × Json) (g : String × String) =>
      f.1 = g.1 ∧ Written f.2 g.2.toList) fs gs →
      Fields false fs ((gs.map fieldText).flatMap (',' :: ·)) := by
    intro fs gs h
    induction h with
    | nil => exact .nil Blank.nil
    | cons hf _ ih =>
      have hfield := Fields.printed Leads.comma hf ih
      simpa using hfield
  have htext : (Interchange.printObject gs).toList =
      '\x7b' :: [','].intercalate (gs.map fieldText) ++ ['\x7d'] := by
    have hfield : fieldText = String.toList ∘ fun g => Interchange.printString g.1 ++ ":" ++ g.2 := by
      funext g
      simp [fieldText]
    simp [Interchange.printObject, hfield]
  rw [htext]
  refine .object ?_
  cases h with
  | nil => exact .nil Blank.nil
  | cons hf hfs =>
    have hfields := Fields.printed (.first Blank.nil) hf (hmore hfs)
    rwa [nil_append, ← intercalate_comma, ← map_cons] at hfields

theorem Written.printString (s : String) : Written (.string s) (Interchange.printString s).toList :=
  .string (.printString s)

theorem Written.printNat (n : Nat) : Written (.number n) (toString n).toList := .number n

theorem Written.printVariant (name : String) {text : String} (h : Written j text.toList) :
    Written (.tagged name j) (Interchange.printVariant name text).toList :=
  .printObject (.cons ⟨rfl, h⟩ .nil)

theorem Written.printLiteral (l : Literal) :
    Written (literalJson l) (Interchange.printLiteral l).toList := by
  cases l with
  | signal => exact .printString "signal"
  | bool b => exact .printVariant "bool" (by cases b <;> exact .bool _)
  | int n => exact .printVariant "int" (.number n.toInt)
  | string s => exact .printVariant "string" (.printString s)

theorem Written.printArgument (a : Argument) :
    Written (argumentJson a) (Interchange.printArgument a).toList := by
  cases a with
  | literal l => exact .printVariant "literal" (.printLiteral l)
  | «variable» i => exact .printVariant "variable" (.printNat i.toNat)
  | site name => exact .printVariant "site" (.printString name)

theorem written_printPoint (p : Point) : ∃ j, EncodesPoint p j ∧ Written j (printPoint p).toList :=
  ⟨_, .intro (.refl _), .printObject (.cons ⟨rfl, .printNat _⟩ (.cons ⟨rfl, .printNat _⟩
    (.cons ⟨rfl, .printNat _⟩ .nil)))⟩

theorem written_printSpan (span : Span) :
    ∃ j, EncodesSpan span j ∧ Written j (printSpan span).toList := by
  cases span with
  | none => exact ⟨_, .none, .printString "none"⟩
  | «at» start stop file =>
    obtain ⟨j, hstart, hj⟩ := written_printPoint start
    obtain ⟨k, hstop, hk⟩ := written_printPoint stop
    exact ⟨_, .at hstart hstop (.refl _), .printVariant "at" (.printObject (.cons ⟨rfl, hj⟩
      (.cons ⟨rfl, hk⟩ (.cons ⟨rfl, .printString file⟩ .nil))))⟩

theorem Written.printArguments (args : List Argument) :
    Written (.list (args.map argumentJson))
      (Interchange.printList (args.map Interchange.printArgument)).toList := by
  refine .printList (forall₂_map_left_iff.2 (forall₂_map_right_iff.2 ?_))
  exact forall₂_same.2 fun a _ => .printArgument a

mutual

/-- The printed text of an expression stands for one of its forms. -/
theorem written_print (e : Expr) : ∃ j, Encodes e j ∧ Written j (print e).toList := by
  cases e with
  | stop => exact ⟨_, .stop, .printString "stop"⟩
  | value a => exact ⟨_, .value a, .printVariant "value" (.printArgument a)⟩
  | call target args span =>
    obtain ⟨j, hspan, hj⟩ := written_printSpan span
    exact ⟨_, .call hspan .present .present (.refl _), .printVariant "call" (.printObject
      (.cons ⟨rfl, .printArgument target⟩ (.cons ⟨rfl, .printArguments args⟩
        (.cons ⟨rfl, hj⟩ .nil))))⟩
  | field target name =>
    exact ⟨_, .field (.refl _), .printVariant "field" (.printObject
      (.cons ⟨rfl, .printArgument target⟩ (.cons ⟨rfl, .printString name⟩ .nil)))⟩
  | parallel left right =>
    obtain ⟨j, hleft, hj⟩ := written_print left
    obtain ⟨k, hright, hk⟩ := written_print right
    exact ⟨_, .parallel hleft hright,
      .printVariant "parallel" (.printList (.cons hj (.cons hk .nil)))⟩
  | sequential left right =>
    obtain ⟨j, hleft, hj⟩ := written_print left
    obtain ⟨k, hright, hk⟩ := written_print right
    exact ⟨_, .sequential hleft hright,
      .printVariant "sequential" (.printList (.cons hj (.cons hk .nil)))⟩
  | pruning left right =>
    obtain ⟨j, hleft, hj⟩ := written_print left
    obtain ⟨k, hright, hk⟩ := written_print right
    exact ⟨_, .pruning hleft hright (.refl _),
      .printVariant "pruning" (.printObject (.cons ⟨rfl, hj⟩ (.cons ⟨rfl, hk⟩ .nil)))⟩
  | otherwise left right =>
    obtain ⟨j, hleft, hj⟩ := written_print left
    obtain ⟨k, hright, hk⟩ := written_print right
    exact ⟨_, .otherwise hleft hright,
      .printVariant "otherwise" (.printList (.cons hj (.cons hk .nil)))⟩
  | declare defs body =>
    obtain ⟨js, hdefs, hjs⟩ := written_printDefinitions defs
    obtain ⟨k, hbody, hk⟩ := written_print body
    exact ⟨_, .declare hdefs hbody (.refl _),
      .printVariant "declare" (.printObject (.cons ⟨rfl, .printList hjs⟩ (.cons ⟨rfl, hk⟩ .nil)))⟩
  | atomic body =>
    obtain ⟨j, hbody, hj⟩ := written_print body
    exact ⟨_, .atomic hbody, .printVariant "atomic" hj⟩

theorem written_printDefinitions (defs : List Definition) :
    ∃ js, EncodesAll defs js ∧
      List.Forall₂ (fun j text => Written j text.toList) js (printDefinitions defs) := by
  match defs with
  | [] => exact ⟨[], .nil, .nil⟩
  | .mk name arity body :: defs =>
    obtain ⟨j, hbody, hj⟩ := written_print body
    obtain ⟨js, hdefs, hjs⟩ := written_printDefinitions defs
    exact ⟨_, .cons hbody (.refl _) hdefs, .cons (.printObject (.cons ⟨rfl, .printString name⟩
      (.cons ⟨rfl, .printNat _⟩ (.cons ⟨rfl, hj⟩ .nil)))) hjs⟩

end

/-! ## Round trip -/

/-- **Programs are read back from their texts.**  The printed text of an expression stands for one
    of its forms.  And every text for a form of it that opens fewer brackets at once than there are
    levels of nesting is read as that expression, whatever the order of the fields in its objects,
    the spelling of its strings, and the blanks around its parts. -/
theorem expression_round_trips (file : String) (e : Expr) :
    (∃ j, Encodes e j ∧ Written j (print e).toList) ∧
    ∀ j, Encodes e j → j.depth < nesting →
      ∀ before t after, Blank before → Written j t → Blank after →
        parse file (String.ofList (before ++ t ++ after)) = .ok e :=
  ⟨written_print e, fun _ hj hdepth _ _ _ hbefore ht hafter =>
    parse_of_reads (hj.reads hdepth) ht hbefore hafter file⟩

/-- A call whose span comes before its target, whose empty arguments are left out, and whose site
    is spelled with an escape. -/
theorem expression_round_trips_reordered :
    parse "main" ("\x7b\"call\": \x7b\"span\":\"none\"," ++
      "\"target\":\x7b\"site\":\"\\u0049f\"\x7d\x7d\x7d\n") =
      .ok (.call (.site "If") [] .none) := by
  have hspace : Blank [' '] ∧ Blank ['\n'] := by simp [Blank, isBlank]
  have hletter : Spelled ['f'] ['f'] := .plain (by decide) (by decide) (by decide) .nil
  have hescape : Escape 0x49 ['\\', 'u', '0', '0', '4', '9'] :=
    .intro (w := 0) (x := 0) (y := 4) (z := 9) (.inl rfl) (.inl rfl) (.inl rfl) (.inl rfl)
  have hspelled : Spelled "If".toList ['\\', 'u', '0', '0', '4', '9', 'f'] :=
    .point (c := 'I') rfl hescape hletter
  have hsite : Quoted "If" ['"', '\\', 'u', '0', '0', '4', '9', 'f', '"'] := .intro hspelled
  have htarget := Written.object (.cons (.first Blank.nil) (.printString "site") Blank.nil Blank.nil
    (.string hsite) (.nil Blank.nil))
  have hfields := Written.object (.cons (.first Blank.nil) (.printString "span") Blank.nil Blank.nil
    (.printString "none") (.cons Leads.comma (.printString "target") Blank.nil Blank.nil htarget
      (.nil Blank.nil)))
  have hcall := Written.object (.cons (.first Blank.nil) (.printString "call") Blank.nil hspace.1
    hfields (.nil Blank.nil))
  have hencodes : Encodes (.call (.site "If") [] .none) (.tagged "call" (.object
      [("span", .string "none"), ("target", argumentJson (.site "If"))])) :=
    .call .none (.absent rfl) .present (.swap ..)
  have hparse := (expression_round_trips "main" _).2 _ hencodes (by decide) [] _ ['\n'] Blank.nil
    hcall hspace.2
  refine Eq.trans (congrArg (parse "main") ?_) hparse
  decide +kernel

end Orchestra.Interchange
