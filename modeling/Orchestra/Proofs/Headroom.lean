/-
  Headroom: how far the number of bindings in scope can go.

  Lowering counts the bindings in scope in a word, and adds to it: one for a variable, the size of a
  group, the arity of a definition.  An arity is any word that a text names, so a sum may leave the
  range of the word, and lowering breaks off although every variable is bound
  (`vast_scope_overflows`).

  1. **Spread** (`Spread`): how far the numbers at the places of an expression lie above the number
     around it.  One level of expressions inside each other adds 1, or the size of a group with the
     arity of one of its definitions.

  2. **Readers** (`Ensures`): a text has brackets on so many levels only, and each level of
     expressions takes two of them, whatever the order of the fields of an object.

  3. **The statement** (`scope_depths_fit`): what is checked at each place is the number of bindings in
     scope there, and lowering breaks off only where that number does not fit.  A text admits 64
     levels of expressions; so if 64 times the size of a group with one of its arities stays below
     the range of the word, every number fits.
-/
import Orchestra.Proofs.RoundTrip
import Orchestra.Proofs.Scoping

namespace Orchestra

open List

/-! ## Spread -/

/-- The definitions that an expression itself makes. -/
def Expr.definitions : Expr → List Definition
  | .declare defs _ => defs
  | _ => []

/-- No group of definitions at the places has a size that exceeds the limit with an arity of it. -/
def GroupsWithin (limit : Nat) (places : List (Expr × Nat)) : Prop :=
  ∀ p ∈ places, ∀ d ∈ p.1.definitions, p.1.definitions.length + d.arity.toNat ≤ limit

/-- The numbers of bindings at the places of the expression lie above the one around it by no more
    than the limit on groups, once for each level. -/
def Spread (levels : Nat) (e : Expr) : Prop :=
  ∀ limit depth, 0 < limit → GroupsWithin limit (e.places depth) →
    ∀ p ∈ e.places depth, p.2 ≤ depth + levels * limit

section

variable {levels : Nat} {e left right body : Expr}

theorem Spread.raise {levels' : Nat} (h : Spread levels e) (hle : levels ≤ levels') :
    Spread levels' e := by
  intro limit depth hpos hlimit p hp
  have := h limit depth hpos hlimit p hp
  have := Nat.mul_le_mul_right limit hle
  omega

/-- An expression with nothing in it. -/
theorem Spread.leaf (h : ∀ depth, e.places depth = [(e, depth)]) : Spread levels e := by
  intro limit depth _ _ p hp
  rw [h] at hp
  cases mem_singleton.1 hp
  exact Nat.le_add_right ..

/-- An expression with two expressions in it, each behind at most one binding. -/
theorem Spread.binary {n m : Nat} (hleft : Spread levels left) (hright : Spread levels right)
    (hnm : max n m ≤ 1) (hplaces : ∀ depth,
      e.places depth = (e, depth) :: (left.places (depth + n) ++ right.places (depth + m))) :
    Spread (levels + 1) e := by
  intro limit depth hpos hlimit p hp
  rw [hplaces] at hlimit hp
  obtain ⟨-, hlimit⟩ := forall_mem_cons.1 hlimit
  obtain ⟨hfirst, hsecond⟩ := forall_mem_append.1 hlimit
  rw [Nat.succ_mul]
  rcases mem_cons.1 hp with rfl | hp
  · exact Nat.le_add_right ..
  · rcases mem_append.1 hp with hp | hp
    · have := hleft limit _ hpos hfirst p hp
      omega
    · have := hright limit _ hpos hsecond p hp
      omega

theorem Spread.atomic (h : Spread levels body) : Spread levels (.atomic body) := by
  intro limit depth hpos hlimit p hp
  rw [Expr.places] at hlimit hp
  rcases mem_cons.1 hp with rfl | hp
  · exact Nat.le_add_right ..
  · exact h limit depth hpos (forall_mem_cons.1 hlimit).2 p hp

theorem Expr.mem_placesIn {defs : List Definition} {inner : Nat} {p : Expr × Nat} :
    p ∈ placesIn defs inner ↔ ∃ d ∈ defs, p ∈ d.body.places (inner + d.arity.toNat) := by
  induction defs with
  | nil => simp [placesIn]
  | cons d defs ih =>
    cases d
    simp [placesIn, ih, Definition.body, Definition.arity]

/-- Definitions go one level deeper. -/
theorem Spread.declare {defs : List Definition} (hdefs : ∀ d ∈ defs, Spread levels d.body)
    (hbody : Spread levels body) : Spread (levels + 1) (.declare defs body) := by
  intro limit depth hpos hlimit p hp
  rw [Expr.places] at hlimit hp
  obtain ⟨hown, hlimit⟩ := forall_mem_cons.1 hlimit
  obtain ⟨hin, hlast⟩ := forall_mem_append.1 hlimit
  rw [Nat.succ_mul]
  rcases mem_cons.1 hp with rfl | hp
  · exact Nat.le_add_right ..
  · rcases mem_append.1 hp with hp | hp
    · obtain ⟨d, hd, hpd⟩ := Expr.mem_placesIn.1 hp
      have hspread := hdefs d hd limit _ hpos
        (fun q hq => hin q (Expr.mem_placesIn.2 ⟨d, hd, hq⟩)) p hpd
      have hgroup : defs.length + d.arity.toNat ≤ limit := hown d hd
      omega
    · have hsize : defs.length ≤ limit := by
        cases defs with
        | nil => exact Nat.zero_le _
        | cons d ds => exact Nat.le_of_add_right_le (hown d (.head _))
      have := hbody limit _ hpos hlast p hp
      omega

end

/-! ## Readers -/

namespace Interchange

open Reader

variable {α β σ : Type} {r r' : Reader α} {f : α → Reader β} {P : α → Prop} {Q : β → Prop}
  {depth levels : Nat} {cause : Cause} {name wanted : String}

/-- Whatever the reader gives has the property. -/
def Ensures (r : Reader α) (P : α → Prop) : Prop :=
  ∀ ⦃c a c'⦄, r c = .ok a c' → P a

namespace Ensures

theorem mono {P' : α → Prop} (h : Ensures r P) (himp : ∀ a, P a → P' a) : Ensures r P' :=
  fun _ a _ hr => himp a (h hr)

theorem pure {a : α} (h : P a) : Ensures (Pure.pure a) P := by
  rintro c _ _ ⟨⟩
  exact h

theorem bind (h : Ensures r P) (hf : ∀ a, P a → Ensures (f a) Q) : Ensures (r >>= f) Q := by
  intro c b c' hb
  simp only [Bind.bind, EStateM.bind] at hb
  split at hb
  · rename_i a c₁ ha
    exact hf a (h ha) hb
  · cases hb

/-- What comes first may not matter. -/
theorem after (hf : ∀ a, Ensures (f a) Q) : Ensures (r >>= f) Q :=
  bind (P := fun _ => True) (fun _ _ _ _ => trivial) fun a _ => hf a

theorem ite {p : Prop} [Decidable p] (h : Ensures r P) (h' : Ensures r' P) :
    Ensures (if p then r else r') P := by
  split
  · exact h
  · exact h'

theorem failHere : Ensures (failHere cause) P := nofun

theorem failNext : Ensures (failNext cause) P := nofun

theorem failNowhere : Ensures (failNowhere cause) P := nofun

/-- The next character decides how to go on, if there is one. -/
theorem peeked {r : Reader (Option Char)} {f : Option Char → Reader β} (hnone : Ensures (f none) Q)
    (hsome : ∀ c, Ensures (f (some c)) Q) : Ensures (r >>= f) Q :=
  after fun
    | none => hnone
    | some c => hsome c

theorem wrongType : Ensures (wrongType wanted) P := by
  unfold Reader.wrongType
  have hword {γ : Type} {s : Reader Unit} {t : Reader γ} {cause : γ → Cause} :
      Ensures (do s; let x ← t; Reader.failHere (cause x) : Reader α) P :=
    after fun _ => after fun _ => failHere
  exact peeked failNext fun c => .ite hword <| .ite hword <| .ite hword <| .ite hword <|
    .ite (after fun _ => failHere) <| .ite hword <| .ite failHere (.ite failHere failNext)

theorem enclosed {close : Reader Unit} (h : Ensures r P) : Ensures (enclosed close r) P := by
  intro c a c' hr
  unfold Reader.enclosed at hr
  split at hr
  · rename_i a₁ c₁ hbody
    split at hr
    · cases hr
      exact h hbody
    · cases hr
  · cases hr

theorem elements (h : Ensures r P) (fuel : Nat) (first : Bool) :
    Ensures (elements r fuel first) fun as => ∀ a ∈ as, P a := by
  induction fuel generalizing first with
  | zero => exact .pure nofun
  | succ fuel ih =>
    exact after fun _ => .ite (h.bind fun a ha => (ih false).bind fun as has =>
      .pure (forall_mem_cons.2 ⟨ha, has⟩)) (.pure nofun)

theorem list (h : Ensures r P) : Ensures (list depth r) fun as => ∀ a ∈ as, P a :=
  peeked failNext fun _ => .ite (after fun _ => enclosed (after fun _ => elements h ..)) wrongType

theorem elementAt {index : Nat} (h : Ensures r P) : Ensures (elementAt index wanted r) P :=
  after fun _ => .ite h failNowhere

/-- What holds at the start and is kept by every field holds of what is gathered. -/
theorem allFields {field : σ → String → Reader σ} {start : σ} {I : σ → Prop} (hstart : I start)
    (hfield : ∀ s key, I s → Ensures (field s key) I) : Ensures (allFields field start) I := by
  have hfields : ∀ fuel first s, I s → Ensures (fields field fuel first s) I := by
    intro fuel
    induction fuel with
    | zero => exact fun first s hs => .pure hs
    | succ fuel ih =>
      exact fun first s hs => after fun _ => .ite (after fun _ => after fun key =>
        (hfield s key hs).bind (ih false)) (.pure hs)
  exact after fun _ => hfields _ true start hstart

theorem once {old : Option α} (h : Ensures r P) :
    Ensures (once name old r) fun o => ∀ a, o = some a → P a := by
  refine .ite failNowhere (after fun _ => h.bind fun a ha => .pure ?_)
  rintro _ ⟨⟩
  exact ha

/-- A field that is passed over changes nothing. -/
theorem unknown {s : σ} {I : σ → Prop} (h : I s) : Ensures (unknown s) I :=
  after fun _ => after fun _ => .pure h

theorem required {o : Option α} (h : ∀ a, o = some a → P a) : Ensures (required name o) P := by
  cases o with
  | none => exact failNowhere
  | some a => exact .pure (h a rfl)

theorem structure' {ofList ofObject : Reader α} (hlist : Ensures ofList P)
    (hobject : Ensures ofObject P) : Ensures (structure' depth wanted ofList ofObject) P :=
  peeked failNext fun _ => .ite (after fun _ => enclosed hlist)
    (.ite (after fun _ => enclosed hobject) wrongType)

theorem variant {names : List String} {alone content : String → Reader α}
    (halone : ∀ name, Ensures (alone name) P) (hcontent : ∀ name, Ensures (content name) P) :
    Ensures (variant depth names alone content) P := by
  refine peeked failNext fun _ => .ite (after fun _ => after halone) <|
    .ite (after fun _ => after fun name => after fun _ => ?_) failNext
  exact (hcontent name).bind fun a ha => peeked failHere fun _ =>
    .ite (after fun _ => .pure ha) failHere

/-! ## Expressions -/

variable {body inner deep : Reader Expr}

theorem call : Ensures (call depth) (Spread levels) := by
  have hleaf {target args span} : Spread levels (.call target args span) :=
    .leaf fun _ => by rw [Expr.places]
  exact structure' (after fun _ => after fun _ => after fun _ => .pure hleaf)
    (after fun _ => after fun _ => .pure hleaf)

theorem fieldAccess : Ensures (fieldAccess depth) (Spread levels) := by
  have hleaf {target name} : Spread levels (.field target name) :=
    .leaf fun _ => by rw [Expr.places]
  exact structure' (after fun _ => after fun _ => .pure hleaf)
    (after fun _ => after fun _ => after fun _ => .pure hleaf)

/-- An expression made of a pair. -/
theorem paired {make : Expr → Expr → Expr} {n m : Nat} (h : Ensures inner (Spread levels))
    (hnm : max n m ≤ 1) (hplaces : ∀ left right d, (make left right).places d =
      (make left right, d) :: (left.places (d + n) ++ right.places (d + m))) :
    Ensures (do return Function.uncurry make (← Reader.pair depth name inner))
      (Spread (levels + 1)) := by
  have hpair : Ensures (Reader.pair depth name inner) fun p =>
      Spread levels p.1 ∧ Spread levels p.2 :=
    peeked failNext fun _ => .ite (after fun _ => enclosed ((elementAt h).bind fun _ hleft =>
      (elementAt h).bind fun _ hright => .pure ⟨hleft, hright⟩)) wrongType
  exact hpair.bind fun p hp => .pure (.binary hp.1 hp.2 hnm (hplaces p.1 p.2))

theorem pruning (h : Ensures inner (Spread levels)) :
    Ensures (pruning depth inner) (Spread (levels + 1)) := by
  have hjoin {left right : Expr} (hleft : Spread levels left) (hright : Spread levels right) :
      Spread (levels + 1) (.pruning left right) :=
    .binary (n := 1) (m := 0) hleft hright (by decide) fun _ => by rw [Expr.places]; rfl
  refine structure' ((elementAt h).bind fun _ hleft => (elementAt h).bind fun _ hright =>
    .pure (hjoin hleft hright)) ?_
  refine .bind (allFields (I := fun d => (∀ e, d.left = some e → Spread levels e) ∧
    ∀ e, d.right = some e → Spread levels e) ⟨nofun, nofun⟩ fun d key hd => ?_) fun d hd => ?_
  · exact .ite ((once h).bind fun o ho => .pure ⟨ho, hd.2⟩)
      (.ite ((once h).bind fun o ho => .pure ⟨hd.1, ho⟩) (unknown hd))
  · exact (required hd.1).bind fun _ hleft => (required hd.2).bind fun _ hright =>
      .pure (hjoin hleft hright)

theorem definition (h : Ensures inner (Spread levels)) :
    Ensures (definition depth inner) fun d => Spread levels d.body := by
  refine structure' (after fun _ => after fun _ => (elementAt h).bind fun _ hb => .pure hb) ?_
  refine .bind (allFields (I := fun d => ∀ e, d.body = some e → Spread levels e) nofun
    fun d key hd => ?_) fun d hd =>
      after fun _ => after fun _ => (required hd).bind fun _ hb => .pure hb
  exact .ite (after fun _ => .pure hd) <| .ite (after fun _ => .pure hd) <|
    .ite ((once h).bind fun o ho => .pure ho) (unknown hd)

theorem declare (h : Ensures inner (Spread levels)) (hdeep : Ensures deep (Spread levels)) :
    Ensures (declare depth inner deep) (Spread (levels + 1)) := by
  have hdefs {d : Nat} : Ensures (Reader.list d (Reader.definition (d - 1) deep)) _ :=
    list (definition hdeep)
  refine structure' ((elementAt hdefs).bind fun _ hall => (elementAt h).bind fun _ hb =>
    .pure (.declare hall hb)) ?_
  refine .bind (allFields (I := fun s =>
    (∀ defs, s.defs = some defs → ∀ d ∈ defs, Spread levels d.body) ∧
      ∀ e, s.body = some e → Spread levels e) ⟨nofun, nofun⟩ fun d key hd => ?_) fun d hd => ?_
  · exact .ite ((once hdefs).bind fun o ho => .pure ⟨ho, hd.2⟩)
      (.ite ((once h).bind fun o ho => .pure ⟨hd.1, ho⟩) (unknown hd))
  · exact (required hd.1).bind fun _ hall => (required hd.2).bind fun _ hb =>
      .pure (.declare hall hb)

theorem exprOf (hbody : Ensures body (Spread (levels + 1))) (hinner : Ensures inner (Spread levels))
    (hdeep : Ensures deep (Spread levels)) :
    Ensures (exprOf depth body inner deep) (Spread (levels + 1)) := by
  have hstop : Spread (levels + 1) .stop := .leaf fun _ => by rw [Expr.places]
  refine variant (fun _ => .ite (.pure hstop) failNowhere) fun _ => .ite ?_ <| .ite ?_ <|
    .ite call <| .ite fieldAccess <| .ite ?_ <| .ite ?_ <| .ite (pruning hinner) <| .ite ?_ <|
    .ite (declare hinner hdeep) ?_
  · exact after fun _ => .pure hstop
  · exact after fun _ => .pure (.leaf fun _ => by rw [Expr.places])
  · exact paired (n := 0) (m := 0) hinner (by decide) fun _ _ _ => by rw [Expr.places]; rfl
  · exact paired (n := 0) (m := 1) hinner (by decide) fun _ _ _ => by rw [Expr.places]; rfl
  · exact paired (n := 0) (m := 0) hinner (by decide) fun _ _ _ => by rw [Expr.places]; rfl
  · exact hbody.bind fun _ he => .pure he.atomic

theorem raise {levels' : Nat} {r : Reader Expr} (h : Ensures r (Spread levels))
    (hle : levels ≤ levels') : Ensures r (Spread levels') :=
  h.mono fun _ he => he.raise hle

/-- An expression in which `depth` brackets may be opened inside each other has half as many levels
    of expressions. -/
theorem expr : (depth : Nat) → Ensures (expr depth) (Spread ((depth + 1) / 2))
  | 0 => show Ensures (Reader.failNext _) _ from failNext
  | 1 => exprOf ((expr 0).raise (by decide)) failNext failNext
  | 2 => exprOf (expr 1) (expr 0) failNext
  | 3 => exprOf ((expr 2).raise (by decide)) (expr 1) failNext
  | depth + 4 => by
    rw [show (depth + 4 + 1) / 2 = (depth + 3) / 2 + 1 by omega]
    exact exprOf ((expr (depth + 3)).raise (by omega)) (expr (depth + 2))
      ((expr depth).raise (by omega))

end Ensures

theorem spread_of_parse {file source : String} {e : Expr} (h : parse file source = .ok e) :
    Spread 64 e := by
  unfold parse readAll at h
  split at h
  · rename_i e' hread
    cases h
    split at hread
    · rename_i e₁ c hok
      cases hread
      have hends : Ensures (do let a ← Reader.expr nesting; endOfText; return a) (Spread 64) :=
        (Ensures.expr nesting).bind fun _ he => .after fun _ => .pure he
      exact hends hok
    · cases hread
  · cases h

end Interchange

open Interchange

/-- **Scopes have headroom.**  If the expression of a program text has code, then every variable in it
    is bound and the number of bindings at every place, which is every sum that lowering forms, is
    below the range of a word.  If it has none, the error says how many bindings are in scope where it
    is, or lowering broke off and somewhere the number does not fit.  Let 64 times the size of a group
    together with an arity of it stay below the range of a word.  Then every number fits, lowering
    does not break off, and the expression has code if and only if it is well-scoped. -/
theorem scope_depths_fit (file source : String) (e : Expr) (sites : Registry)
    (hparse : parse file source = .ok e) :
    (∀ p, e.compile sites = .ok p →
      e.WellScoped sites ∧ ∀ p ∈ e.places 0, p.2 < UInt64.size) ∧
    (∀ err, e.compile sites = .error err → err.Blames sites e.occurrences ∨
      err = .scopeOverflow ∧ ∃ p ∈ e.places 0, UInt64.size ≤ p.2) ∧
    ∀ limit, 0 < limit → GroupsWithin limit (e.places 0) → 64 * limit < UInt64.size →
      (∀ p ∈ e.places 0, p.2 < UInt64.size) ∧
        ((∃ p, e.compile sites = .ok p) ↔ e.WellScoped sites) ∧
        ∀ err, e.compile sites = .error err →
          err ≠ .scopeOverflow ∧ err.Blames sites e.occurrences := by
  refine ⟨fun p hp => e.scoped_of_compile hp, fun err herr => ?_, fun limit hpos hgroups hroom => ?_⟩
  · have hchecked := e.compile_checked sites
    rw [herr] at hchecked
    refine hchecked.imp_right fun ⟨hover, d, hd, hle⟩ => ⟨hover, ?_⟩
    obtain ⟨p, hp, rfl⟩ := mem_map.1 hd
    exact ⟨p, hp, hle⟩
  have hfit : ∀ p ∈ e.places 0, p.2 < UInt64.size := by
    intro p hp
    have := spread_of_parse hparse limit 0 hpos hgroups p hp
    omega
  have hblames : ∀ err, e.compile sites = .error err → err.Blames sites e.occurrences :=
    fun err herr => e.blames_of_compile herr hfit
  refine ⟨hfit, ⟨fun ⟨p, hp⟩ => (e.scoped_of_compile hp).1, fun hscoped => ?_⟩, fun err herr => ?_⟩
  · cases hcompile : e.compile sites with
    | ok p => exact ⟨p, rfl⟩
    | error err =>
      obtain ⟨o, ho, hbad⟩ := (hblames err hcompile).exists_not_scoped
      exact absurd (hscoped o ho) hbad
  · refine ⟨?_, hblames err herr⟩
    rintro rfl
    exact hblames _ herr

/-! ## Breaking off -/

/-- `def f(..) = (def g(..) = x  g)  stop`, where both have `arity` parameters and `x` is the third
    binding from inside. -/
def nestedScopes (arity : UInt64) : Expr :=
  .declare [.mk "f" arity (.declare [.mk "g" arity (.value (.variable 2))] (.value (.variable 0)))]
    .stop

namespace Interchange

theorem parse_nestedScopes (file : String) (arity : UInt64) :
    parse file (print (nestedScopes arity)) = .ok (nestedScopes arity) := by
  have hg : Encodes (.declare [.mk "g" arity (.value (.variable 2))] (.value (.variable 0))) _ :=
    .declare (.cons (.value _) (.refl _) .nil) (.value _) (.refl _)
  have hf : Encodes (nestedScopes arity) _ := .declare (.cons hg (.refl _) .nil) .stop (.refl _)
  have hwritten := parse_of_reads (t := (print (nestedScopes arity)).toList) (hf.reads (by
    simp [argumentJson, Json.tagged, Json.depth, Json.depthOfItems, Json.depthOfFields, nesting]))
    (.printVariant "declare" (.printObject (.cons ⟨rfl, .printList (.cons (.printObject
      (.cons ⟨rfl, .printString "f"⟩ (.cons ⟨rfl, .printNat _⟩ (.cons ⟨rfl, .printVariant "declare"
        (.printObject (.cons ⟨rfl, .printList (.cons (.printObject (.cons ⟨rfl, .printString "g"⟩
          (.cons ⟨rfl, .printNat _⟩ (.cons ⟨rfl, .printVariant "value" (.printArgument _)⟩ .nil))))
          .nil)⟩ (.cons ⟨rfl, .printVariant "value" (.printArgument _)⟩ .nil)))⟩ .nil)))) .nil)⟩
        (.cons ⟨rfl, .printString "stop"⟩ .nil)))) Blank.nil Blank.nil file
  simpa using hwritten

end Interchange

theorem scope_depths_fit_nested :
    let e := nestedScopes 0x0200000000000000
    parse "main" (print e) = .ok e ∧ GroupsWithin 0x0200000000000001 (e.places 0) ∧
      64 * 0x0200000000000001 < UInt64.size ∧
      (.variable 2, 0x0400000000000002) ∈ e.occurrences ∧ ∃ p, e.compile {} = .ok p ∧
      e.WellScoped {} := by
  intro e
  have hparse := parse_nestedScopes "main" 0x0200000000000000
  have hgroups : GroupsWithin 0x0200000000000001 (e.places 0) := by
    unfold GroupsWithin
    decide +kernel
  have hroom : 64 * 0x0200000000000001 < UInt64.size := by decide
  have hscoped : e.WellScoped {} := by decide +kernel
  obtain ⟨hok, -, hlimit⟩ := scope_depths_fit "main" (print e) e {} hparse
  obtain ⟨p, hp⟩ := (hlimit _ (by decide) hgroups hroom).2.1.2 hscoped
  exact ⟨hparse, hgroups, hroom, by decide +kernel, p, hp, (hok p hp).1⟩

/-- With arities of half the range, the innermost body has 2 bindings beyond the range of the word
    in scope.  Every variable is bound, but lowering breaks off. -/
theorem vast_scope_overflows :
    let e := nestedScopes 0x8000000000000000
    parse "main" (print e) = .ok e ∧ (.variable 2, UInt64.size + 2) ∈ e.occurrences ∧
      e.WellScoped {} ∧ e.compile {} = .error .scopeOverflow :=
  ⟨parse_nestedScopes "main" _, by decide +kernel, by decide +kernel, rfl⟩

end Orchestra
