/-
  Scoping: which expressions have code.

  Lowering checks on its way that every variable is bound and every site is known.  It goes through
  an expression in an order of its own, with code growing under its hands, and stops at the first
  thing that is wrong.  What it checks has nothing to do with that:

  1. **Places**: an expression and all expressions in it, definition bodies included, each with the
     number of bindings in scope there.  The numbers here do not wrap around.

  2. **Well-scoped** means that, at every place, each variable counts less far outward than there are
     bindings, and each site is known.

  3. **The statement** (`compile_checks_scopes`): the well-scoped expressions are those that have code,
     and for any other one the error that comes instead is about an argument that stands in it.

  4. **The crux** (`Checked`): what it means that some arguments have been checked, whatever the check
     gave.  One check after another has checked the arguments of both (`Checked.bind`), so the order
     in which the parts of an expression are lowered does not matter.  The numbers of bindings are
     counted in a word on the way, and are checked to fit.
-/
import Orchestra.Code.Lower

namespace Orchestra

open List

variable {err : CompileError} {as : List (Argument × Nat)} {sites : Registry} {depth : UInt64}

/-! ## Places -/

namespace Expr

mutual

/-- The expression and all expressions in it, with the number of bindings in scope at each. -/
def places : Expr → (depth : Nat) → List (Expr × Nat)
  | .stop, depth => [(.stop, depth)]
  | .value a, depth => [(.value a, depth)]
  | .call target args span, depth => [(.call target args span, depth)]
  | .field target name, depth => [(.field target name, depth)]
  | .parallel left right, depth =>
    (.parallel left right, depth) :: (places left depth ++ places right depth)
  | .sequential left right, depth =>
    (.sequential left right, depth) :: (places left depth ++ places right (depth + 1))
  | .pruning left right, depth =>
    (.pruning left right, depth) :: (places left (depth + 1) ++ places right depth)
  | .otherwise left right, depth =>
    (.otherwise left right, depth) :: (places left depth ++ places right depth)
  | .declare defs body, depth =>
    (.declare defs body, depth) ::
      (placesIn defs (depth + defs.length) ++ places body (depth + defs.length))
  | .atomic body, depth => (.atomic body, depth) :: places body depth

/-- The places in definitions whose group leaves `inner` bindings in scope. -/
def placesIn : List Definition → (inner : Nat) → List (Expr × Nat)
  | [], _ => []
  | .mk _ arity body :: defs, inner => places body (inner + arity.toNat) ++ placesIn defs inner

end

/-- An expression is the first of its places. -/
theorem mem_places_self (e : Expr) (depth : Nat) : (e, depth) ∈ e.places depth := by
  cases e <;> simp [places]

/-- The arguments of an expression itself, without those of the expressions in it. -/
def arguments : Expr → List Argument
  | .value a => [a]
  | .call target args _ => target :: args
  | .field target _ => [target]
  | _ => []

/-- The arguments at some places, with the number of bindings in scope. -/
def argumentsAt (places : List (Expr × Nat)) : List (Argument × Nat) :=
  places.flatMap fun p => p.1.arguments.map fun a => (a, p.2)

@[simp] theorem argumentsAt_nil : argumentsAt [] = [] := rfl

@[simp] theorem argumentsAt_cons (p : Expr × Nat) (places : List (Expr × Nat)) :
    argumentsAt (p :: places) = p.1.arguments.map (fun a => (a, p.2)) ++ argumentsAt places :=
  flatMap_cons

@[simp] theorem argumentsAt_append (ps qs : List (Expr × Nat)) :
    argumentsAt (ps ++ qs) = argumentsAt ps ++ argumentsAt qs :=
  flatMap_append

/-- All arguments in an expression, with the number of bindings in scope. -/
def occurrences (e : Expr) : List (Argument × Nat) := argumentsAt (e.places 0)

end Expr

/-! ## Well-scoped expressions -/

/-- With so many bindings in scope, the argument stands for something. -/
def Argument.Scoped (sites : Registry) (depth : Nat) : Argument → Prop
  | .literal _ => True
  | .variable i => i.toNat < depth
  | .site name => ∃ s ∈ sites.sites, s.name = name

instance (sites : Registry) (depth : Nat) : (a : Argument) → Decidable (a.Scoped sites depth)
  | .literal _ => .isTrue trivial
  | .variable i => inferInstanceAs (Decidable (i.toNat < depth))
  | .site name => inferInstanceAs (Decidable (∃ s ∈ sites.sites, s.name = name))

/-- Every variable is bound and every site is known. -/
def Expr.WellScoped (sites : Registry) (e : Expr) : Prop :=
  ∀ o ∈ e.occurrences, o.1.Scoped sites o.2

instance (sites : Registry) (e : Expr) : Decidable (e.WellScoped sites) :=
  inferInstanceAs (Decidable (∀ o ∈ e.occurrences, o.1.Scoped sites o.2))

/-- The error is about one of the arguments: a variable that is not bound, with the number of
    bindings in scope where it stands, or a site that is not known. -/
def CompileError.Blames (sites : Registry) (arguments : List (Argument × Nat)) :
    CompileError → Prop
  | .unboundVariable index depth =>
    (.variable index, depth.toNat) ∈ arguments ∧ depth.toNat ≤ index.toNat
  | .unknownSite name =>
    (∃ depth, (.site name, depth) ∈ arguments) ∧ ∀ s ∈ sites.sites, s.name ≠ name
  | .scopeOverflow => False

theorem CompileError.Blames.mono {bs : List (Argument × Nat)} (h : err.Blames sites as)
    (hsub : as ⊆ bs) : err.Blames sites bs := by
  cases err with
  | unboundVariable index depth => exact ⟨hsub h.1, h.2⟩
  | unknownSite name => exact ⟨h.1.imp fun _ hm => hsub hm, h.2⟩
  | scopeOverflow => exact h

/-- What is blamed is wrong. -/
theorem CompileError.Blames.exists_not_scoped (h : err.Blames sites as) :
    ∃ o ∈ as, ¬o.1.Scoped sites o.2 := by
  cases err with
  | unboundVariable index depth => exact ⟨_, h.1, Nat.not_lt.2 h.2⟩
  | unknownSite name =>
    obtain ⟨⟨depth, hm⟩, hunknown⟩ := h
    exact ⟨_, hm, fun ⟨s, hs, hname⟩ => hunknown s hs hname⟩
  | scopeOverflow => exact h.elim

/-! ## Checks -/

/-- Some arguments have been checked, and some numbers of bindings been counted.  Nothing is wrong
    with the arguments and the numbers fit, or the error is about one of them. -/
def Checked (sites : Registry) (arguments : List (Argument × Nat)) (depths : List Nat) {β : Type} :
    Except CompileError β → Prop
  | .ok _ => (∀ o ∈ arguments, o.1.Scoped sites o.2) ∧ ∀ d ∈ depths, d < UInt64.size
  | .error err =>
    err.Blames sites arguments ∨ err = .scopeOverflow ∧ ∃ d ∈ depths, UInt64.size ≤ d

namespace Checked

variable {sites : Registry} {as bs : List (Argument × Nat)} {ds es : List Nat} {β γ : Type}

section

variable {r : Except CompileError β} (h : Checked sites as ds r)

include h

/-- Only which arguments and numbers there are counts, not their order; and a number in a word fits
    anyhow. -/
theorem congr (depth : UInt64) (hmem : ∀ o, o ∈ as ↔ o ∈ bs)
    (hdepths : ∀ d, d = depth.toNat ∨ d ∈ ds ↔ d = depth.toNat ∨ d ∈ es) :
    Checked sites bs es r := by
  cases r with
  | ok b =>
    refine ⟨fun o ho => h.1 o ((hmem o).2 ho), fun d hd => ?_⟩
    rcases (hdepths d).2 (.inr hd) with rfl | hd
    · exact depth.toNat_lt
    · exact h.2 d hd
  | error err =>
    refine h.imp (fun hb => hb.mono fun o ho => (hmem o).1 ho) fun ⟨herr, d, hd, hle⟩ => ?_
    rcases (hdepths d).1 (.inr hd) with rfl | hd
    · exact absurd depth.toNat_lt (Nat.not_lt.2 hle)
    · exact ⟨herr, d, hd, hle⟩

/-- One check after another. -/
theorem bind {f : β → Except CompileError γ} (hf : ∀ b, r = .ok b → Checked sites bs es (f b)) :
    Checked sites (as ++ bs) (ds ++ es) (r >>= f) := by
  cases r with
  | error err =>
    refine h.imp (fun hb => hb.mono (subset_append_left ..)) fun ⟨herr, d, hd, hle⟩ => ?_
    exact ⟨herr, d, mem_append_left _ hd, hle⟩
  | ok b =>
    have hb := hf b rfl
    show Checked sites (as ++ bs) (ds ++ es) (f b)
    cases hfb : f b with
    | error err =>
      rw [hfb] at hb
      refine hb.imp (fun hb => hb.mono (subset_append_right ..)) fun ⟨herr, d, hd, hle⟩ => ?_
      exact ⟨herr, d, mem_append_right _ hd, hle⟩
    | ok c =>
      rw [hfb] at hb
      exact ⟨forall_mem_append.2 ⟨h.1, hb.1⟩, forall_mem_append.2 ⟨h.2, hb.2⟩⟩

/-- What is made of the result of a check needs no check. -/
theorem map (f : β → γ) : Checked sites as ds (r >>= fun b => .ok (f b)) := by
  have hnone : ∀ b, r = .ok b → Checked sites [] [] (Except.ok (f b) : Except CompileError γ) :=
    fun _ _ => ⟨nofun, nofun⟩
  simpa using h.bind hnone

end

end Checked

/-! ## Lowering -/

/-- A site is found under its name, if it is known. -/
theorem Registry.site?_eq_none {name : String} :
    sites.site? name = none ↔ ∀ s ∈ sites.sites, s.name ≠ name := by
  simp [Registry.site?]

variable {sites : Registry}

/-- An argument is refused if it is out of scope or names no site. -/
theorem Argument.lower_checked (a : Argument) (depth : UInt64) :
    Checked sites [(a, depth.toNat)] [] (a.lower sites depth) := by
  cases a with
  | literal l => exact ⟨forall_mem_singleton.2 trivial, nofun⟩
  | «variable» i =>
    simp only [Argument.lower]
    split
    · rename_i hlt
      exact ⟨forall_mem_singleton.2 (UInt64.lt_iff_toNat_lt.1 hlt), nofun⟩
    · rename_i hge
      exact .inl ⟨mem_singleton_self _, UInt64.le_iff_toNat_le.1 (UInt64.not_lt.1 hge)⟩
  | site name =>
    simp only [Argument.lower]
    split
    · rename_i s hs
      refine ⟨forall_mem_singleton.2 ?_, nofun⟩
      exact ⟨s, mem_of_find?_eq_some hs, by simpa using find?_some hs⟩
    · rename_i hnone
      exact .inl ⟨⟨_, mem_singleton_self _⟩, Registry.site?_eq_none.1 hnone⟩

theorem Argument.lowerAll_checked (args : List Argument) (depth : UInt64) :
    Checked sites (args.map fun a => (a, depth.toNat)) []
      (args.mapM (Argument.lower sites depth)) := by
  induction args with
  | nil => exact ⟨nofun, nofun⟩
  | cons a args ih =>
    rw [mapM_cons]
    exact (a.lower_checked depth).bind fun o _ => ih.map fun os => o :: os

/-- The word that counts the bindings does not wrap around as long as their number fits. -/
theorem toNat_add_of_lt {n : UInt64} (h : depth.toNat + n.toNat < UInt64.size) :
    (depth + n).toNat = depth.toNat + n.toNat := by
  rw [UInt64.toNat_add]
  exact Nat.mod_eq_of_lt h

theorem toNat_add_length {n : Nat} (h : depth.toNat + n < UInt64.size) :
    (depth + n.toUInt64).toNat = depth.toNat + n := by grind [UInt64.toNat_ofNat', toNat_add_of_lt]

theorem deepen_of_lt {n : Nat} (h : depth.toNat + n < UInt64.size) :
    deepen depth n = .ok (depth + n.toUInt64) :=
  if_pos h

/-- Under more binders the number of bindings is counted; if it is given, it is the true one. -/
theorem deepen_checked (sites : Registry) (depth : UInt64) (n : Nat) :
    Checked sites [] [depth.toNat + n] (deepen depth n) ∧
      ∀ inner, deepen depth n = .ok inner → inner.toNat = depth.toNat + n := by
  by_cases hfit : depth.toNat + n < UInt64.size
  · rw [deepen_of_lt hfit]
    refine ⟨⟨nofun, forall_mem_singleton.2 hfit⟩, ?_⟩
    rintro _ ⟨⟩
    exact toNat_add_length hfit
  · have hover : deepen depth n = .error .scopeOverflow := if_neg hfit
    rw [hover]
    exact ⟨.inr ⟨rfl, _, mem_singleton_self _, Nat.le_of_not_lt hfit⟩, nofun⟩

namespace Expr

mutual

/-- Lowering an expression checks its arguments and counts the bindings at its places. -/
theorem lower_checked : (e : Expr) → (next : Nat) → (depth : UInt64) → (c : Code) →
    Checked sites (argumentsAt (e.places depth.toNat)) ((e.places depth.toNat).map Prod.snd)
      (e.lower sites next depth c)
  | .stop, next, depth, c => by
    unfold lower
    exact ⟨nofun, List.forall_mem_singleton.2 depth.toNat_lt⟩
  | .value a, next, depth, c => by
    unfold lower
    exact ((a.lower_checked depth).map _).congr depth (by simp [places, arguments])
      (by simp [places])
  | .call target args span, next, depth, c => by
    unfold lower
    refine ((target.lower_checked depth).bind fun o _ =>
      (Argument.lowerAll_checked args depth).map _).congr depth ?_ ?_
    · simp [places, arguments]
    · simp [places]
  | .field target name, next, depth, c => by
    unfold lower
    exact ((target.lower_checked depth).map _).congr depth (by simp [places, arguments])
      (by simp [places])
  | .parallel left right, next, depth, c => by
    unfold lower
    refine ((lower_checked left next depth c).bind fun found _ =>
      (lower_checked right next depth found.2).map _).congr depth ?_ ?_
    · simp [places, arguments]
    · simp [places]
  | .sequential left right, next, depth, c => by
    obtain ⟨hcount, hinner⟩ := deepen_checked sites depth 1
    unfold lower
    refine (hcount.bind fun inner h => hinner inner h ▸ (lower_checked right _ inner _).bind
      fun found _ => lower_checked left _ depth _).congr depth ?_ ?_
    · simp [places, arguments, or_comm]
    · grind [places, mem_places_self]
  | .pruning left right, next, depth, c => by
    obtain ⟨hcount, hinner⟩ := deepen_checked sites depth 1
    unfold lower
    refine (hcount.bind fun inner h => hinner inner h ▸ (lower_checked left _ inner _).bind
      fun found _ => (lower_checked right Code.resolve depth found.2).map _).congr depth ?_ ?_
    · simp [places, arguments]
    · grind [places, mem_places_self]
  | .otherwise left right, next, depth, c => by
    unfold lower
    refine ((lower_checked left _ depth _).bind fun found _ =>
      (lower_checked right next depth found.2).map _).congr depth ?_ ?_
    · simp [places, arguments]
    · simp [places]
  | .declare defs body, next, depth, c => by
    obtain ⟨hcount, hinner⟩ := deepen_checked sites depth defs.length
    unfold lower
    refine (hcount.bind fun inner h => hinner inner h ▸ (lowerDefs_checked defs inner c).bind
      fun found _ => (lower_checked body _ inner _).map _).congr depth ?_ ?_
    · simp [places, arguments]
    · grind [places, mem_places_self]
  | .atomic body, next, depth, c => by
    unfold lower
    refine ((lower_checked body _ depth c).map _).congr depth ?_ ?_
    · simp [places, arguments]
    · simp [places]

theorem lowerDefs_checked : (defs : List Definition) → (inner : UInt64) → (c : Code) →
    Checked sites (argumentsAt (placesIn defs inner.toNat))
      ((placesIn defs inner.toNat).map Prod.snd) (lowerDefs sites defs inner c)
  | [], inner, c => by
    unfold lowerDefs
    exact ⟨nofun, nofun⟩
  | .mk name arity body :: defs, inner, c => by
    obtain ⟨hcount, hscope⟩ := deepen_checked sites inner arity.toNat
    have hfirst := hcount.bind fun scope h => hscope scope h ▸
      (lower_checked body Code.ret scope c).map fun found =>
        ((⟨name, arity.toNat, found.1⟩ : Def), found.2)
    unfold lowerDefs lowerDef
    refine (hfirst.bind fun found _ => (lowerDefs_checked defs inner found.2).map _).congr inner ?_ ?_
    · simp [placesIn]
    · grind [placesIn, mem_places_self]

end

/-- Compiling checks the arguments and counts the bindings of the whole expression. -/
theorem compile_checked (e : Expr) (sites : Registry) :
    Checked sites e.occurrences ((e.places 0).map Prod.snd) (e.compile sites) :=
  (lower_checked e Code.publish 0 {}).map _

/-- An expression that has code is well-scoped, and the bindings in it were counted right. -/
theorem scoped_of_compile (e : Expr) {sites : Registry} {p : Program}
    (h : e.compile sites = .ok p) :
    e.WellScoped sites ∧ ∀ p ∈ e.places 0, p.2 < UInt64.size := by
  have hchecked := e.compile_checked sites
  rw [h] at hchecked
  exact ⟨hchecked.1, fun p hp => hchecked.2 _ (mem_map_of_mem hp)⟩

/-- Where the numbers of bindings fit, an error is about an argument. -/
theorem blames_of_compile (e : Expr) {sites : Registry} {err : CompileError}
    (h : e.compile sites = .error err) (hfit : ∀ p ∈ e.places 0, p.2 < UInt64.size) :
    err.Blames sites e.occurrences := by
  have hchecked := e.compile_checked sites
  rw [h] at hchecked
  rcases hchecked with hblames | ⟨-, d, hd, hle⟩
  · exact hblames
  · obtain ⟨p, hp, rfl⟩ := mem_map.1 hd
    exact absurd (hfit p hp) (Nat.not_lt.2 hle)

/-- Exactly the well-scoped expressions have code.  For any other one there is an error instead, which
    names a variable that is not bound, and how many bindings are in scope where it stands, or a site
    that is not known. -/
theorem compile_checks_scopes (e : Expr) (sites : Registry)
    (hfit : ∀ p ∈ e.places 0, p.2 < UInt64.size) :
    ((∃ p, e.compile sites = .ok p) ↔ e.WellScoped sites) ∧
      (¬e.WellScoped sites →
        ∃ err, e.compile sites = .error err ∧ err.Blames sites e.occurrences) := by
  cases hcompile : e.compile sites with
  | ok p =>
    have hscoped := (e.scoped_of_compile hcompile).1
    exact ⟨iff_of_true ⟨p, rfl⟩ hscoped, fun hnot => absurd hscoped hnot⟩
  | error err =>
    have hblames := e.blames_of_compile hcompile hfit
    obtain ⟨o, ho, hbad⟩ := hblames.exists_not_scoped
    refine ⟨iff_of_false (by simp) fun hscoped => hbad (hscoped o ho), fun _ => ⟨err, rfl, hblames⟩⟩

/-- `def f(x) = x >y> z`, where `z` would be the fourth binding from inside: the call of `f` is not
    checked any more. -/
def strayed : Expr :=
  .declare [.mk "f" 1 (.sequential (.value (.variable 0)) (.value (.variable 3)))]
    (.call (.variable 0) [.variable 7] .none)

/-- The expression is not well-scoped, in two ways, and the error is about one of them. -/
theorem compile_checks_scopes_strayed :
    (∀ p ∈ strayed.places 0, p.2 < UInt64.size) ∧ ¬strayed.WellScoped {} ∧
      (.variable 3, 3) ∈ strayed.occurrences ∧ (.variable 7, 1) ∈ strayed.occurrences ∧
      strayed.compile {} = .error (.unboundVariable 3 3) ∧
      ∃ err, strayed.compile {} = .error err ∧ err.Blames {} strayed.occurrences := by
  have hfit : ∀ p ∈ strayed.places 0, p.2 < UInt64.size := by decide
  have hnot : ¬strayed.WellScoped {} := by decide
  exact ⟨hfit, hnot, by decide, by decide, rfl, (compile_checks_scopes strayed {} hfit).2 hnot⟩

end Expr
end Orchestra
