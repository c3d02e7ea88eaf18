/-
  What lowering leaves in the code.

  `Lowered` relates an expression to the node at which its code starts, one rule for each form:
  which nodes stand there, and that the parts are lowered in turn.  It speaks of the finished code
  only, so later proofs need not follow the code as it grows.

  * `lower_lowered` : what `lower` adds is the lowered expression, in the code it gives and in all
    that grows out of it.
-/
import Orchestra.Code.Lower
import Orchestra.Proofs.Records

namespace Orchestra

variable {c c' : Code}

/-- What a node reads. -/
def Node.operands : Node → List Operand
  | .load operand _ => [operand]
  | .field target _ _ => [target]
  | .call target args _ _ _ => target :: args
  | _ => []

namespace Code

/-! ## Growing code -/

/-- What stands in `c` stands at the same place in `c'`. -/
structure Below (c c' : Code) : Prop where
  node : ∀ {i : Nat} {n}, c.nodes[i]? = some n → c'.nodes[i]? = some n
  group : ∀ {g : Nat} {defs}, c.groups[g]? = some defs → c'.groups[g]? = some defs

theorem Below.refl (c : Code) : c.Below c := ⟨id, id⟩

theorem Below.trans {c₁ c₂ c₃ : Code} (h : c₁.Below c₂) (h' : c₂.Below c₃) : c₁.Below c₃ :=
  ⟨fun hn => h'.node (h.node hn), fun hg => h'.group (h.group hg)⟩

theorem below_add (c : Code) (n : Node) : c.Below (c.add n).2 := by
  refine ⟨fun {i n'} hi => ?_, id⟩
  have hlt : i < c.nodes.size := (Array.getElem?_eq_some_iff.1 hi).1
  show (c.nodes.push n)[i]? = some n'
  rw [Array.getElem?_push_lt hlt, ← hi, Array.getElem?_eq_getElem hlt]

theorem below_addGroup (c : Code) (defs : List Def) : c.Below (c.addGroup defs).2 := by
  refine ⟨id, fun {g defs'} hg => ?_⟩
  have hlt : g < c.groups.size := (Array.getElem?_eq_some_iff.1 hg).1
  show (c.groups.push defs)[g]? = some defs'
  rw [Array.getElem?_push_lt hlt, ← hg, Array.getElem?_eq_getElem hlt]

/-- An added node stands at the place that was given. -/
theorem add_node {n : Node} (h : (c.add n).2.Below c') : c'.nodes[(c.add n).1]? = some n :=
  h.node Array.getElem?_push_size

theorem addGroup_group {defs : List Def} (h : (c.addGroup defs).2.Below c') :
    c'.groups[(c.addGroup defs).1]? = some defs :=
  h.group Array.getElem?_push_size

/-- The five fixed nodes are in place. -/
structure Based (c : Code) : Prop where
  halt : c.nodes[halt]? = some .stop
  ret : c.nodes[ret]? = some .ret
  publish : c.nodes[publish]? = some .publish
  resolve : c.nodes[resolve]? = some .resolve
  buffer : c.nodes[buffer]? = some .buffer

theorem based_of_below (h : ({} : Code).Below c) : c.Based :=
  ⟨h.node rfl, h.node rfl, h.node rfl, h.node rfl, h.node rfl⟩

/-! ## Tail positions -/

/-- From node `i` a publication goes back to the caller, and nothing happens on the way but
    bindings going out of scope. -/
inductive Returns (c : Code) : Nat → Prop where
  | ret {i : Nat} (h : c.nodes[i]? = some .ret) : Returns c i
  | unwind {i n next : Nat} (h : c.nodes[i]? = some (.unwind n next)) (hr : Returns c next) :
    Returns c i

theorem returns_of_returnsWithin (hc : c.Below c') {fuel i : Nat}
    (h : c.returnsWithin fuel i = true) : c'.Returns i := by
  induction fuel generalizing i with
  | zero => cases h
  | succ fuel ih =>
    unfold returnsWithin at h
    split at h
    · rename_i hi
      exact .ret (hc.node hi)
    · rename_i hi
      exact .unwind (hc.node hi) (ih h)
    · cases h

end Code

/-! ## Lowered expressions -/

/-- The code of an expression starts at a node: its publications go on at `next`, and `depth`
    counts the bindings in scope. -/
inductive Lowered (sites : Registry) (c : Code) : Expr → (next : Nat) → UInt64 → Nat → Prop where
  | stop {next : Nat} {depth : UInt64} : Lowered sites c .stop next depth Code.halt
  | value {a : Argument} {o : Operand} {next i : Nat} {depth : UInt64}
    (ho : a.lower sites depth = .ok o) (hi : c.nodes[i]? = some (.load o next)) :
    Lowered sites c (.value a) next depth i
  | call {target : Argument} {args : List Argument} {span : Span} {o : Operand}
    {os : List Operand} {next i : Nat} {depth : UInt64} {tail : Bool}
    (ho : target.lower sites depth = .ok o)
    (hos : args.mapM (Argument.lower sites depth) = .ok os)
    (hi : c.nodes[i]? = some (.call o os next tail span)) (htail : tail = true → c.Returns next) :
    Lowered sites c (.call target args span) next depth i
  | field {target : Argument} {name : String} {o : Operand} {next i : Nat} {depth : UInt64}
    (ho : target.lower sites depth = .ok o) (hi : c.nodes[i]? = some (.field o name next)) :
    Lowered sites c (.field target name) next depth i
  | parallel {left right : Expr} {next i l r : Nat} {depth : UInt64}
    (hl : Lowered sites c left next depth l) (hr : Lowered sites c right next depth r)
    (hi : c.nodes[i]? = some (.fork l r)) : Lowered sites c (.parallel left right) next depth i
  | sequential {left right : Expr} {next i pop push r : Nat} {depth : UInt64}
    (hpop : c.nodes[pop]? = some (.unwind 1 next))
    (hr : Lowered sites c right pop (depth + 1) r) (hpush : c.nodes[push]? = some (.push r))
    (hl : Lowered sites c left push depth i) : Lowered sites c (.sequential left right) next depth i
  | pruning {left right : Expr} {next i pop l r : Nat} {depth : UInt64}
    (hpop : c.nodes[pop]? = some (.unwind 1 next))
    (hl : Lowered sites c left pop (depth + 1) l)
    (hr : Lowered sites c right Code.resolve depth r) (hi : c.nodes[i]? = some (.subgoal l r)) :
    Lowered sites c (.pruning left right) next depth i
  | otherwise {left right : Expr} {next i escape l r : Nat} {depth : UInt64}
    (hescape : c.nodes[escape]? = some (.escape next))
    (hl : Lowered sites c left escape depth l) (hr : Lowered sites c right next depth r)
    (hi : c.nodes[i]? = some (.otherwise l r)) :
    Lowered sites c (.otherwise left right) next depth i
  | declare {defs : List Definition} {body : Expr} {next i pop b g : Nat} {depth : UInt64}
    {entry : Nat → Nat}
    (hg : c.groups[g]? = some (defs.mapIdx fun j d => ⟨d.name, d.arity.toNat, entry j⟩))
    (hdefs : ∀ j d, defs[j]? = some d →
      Lowered sites c d.body Code.ret (depth + defs.length.toUInt64 + d.arity) (entry j))
    (hpop : c.nodes[pop]? = some (.unwind defs.length next))
    (hbody : Lowered sites c body pop (depth + defs.length.toUInt64) b)
    (hi : c.nodes[i]? = some (.declare g b)) : Lowered sites c (.declare defs body) next depth i
  | atomic {body : Expr} {next i b : Nat} {depth : UInt64}
    (hbody : Lowered sites c body Code.buffer depth b) (hi : c.nodes[i]? = some (.atomic b next)) :
    Lowered sites c (.atomic body) next depth i

/-- Under more binders, the number of bindings is the sum and fits. -/
theorem deepen_eq_ok {depth inner : UInt64} {n : Nat} (h : deepen depth n = .ok inner) :
    inner = depth + n.toUInt64 ∧ depth.toNat + n < UInt64.size := by
  unfold deepen at h
  split at h
  · rename_i hfit
    cases h
    exact ⟨rfl, hfit⟩
  · cases h

namespace Expr

variable {sites : Registry}

mutual

/-- Lowering adds the code of the expression and keeps what is there. -/
theorem lower_lowered : {e : Expr} → {next : Nat} → {depth : UInt64} → {c c' : Code} → {i : Nat} →
    e.lower sites next depth c = .ok (i, c') →
    c.Below c' ∧ ∀ {c''}, c'.Below c'' → Lowered sites c'' e next depth i
  | .stop, next, depth, c, c', i, h => by
    unfold lower at h
    cases h
    exact ⟨.refl c, fun _ => .stop⟩
  | .value a, next, depth, c, c', i, h => by
    unfold lower at h
    obtain ⟨o, ho, h⟩ := bind_ok h
    cases h
    exact ⟨c.below_add _, fun hc => .value ho (Code.add_node hc)⟩
  | .call target args span, next, depth, c, c', i, h => by
    unfold lower at h
    obtain ⟨o, ho, h⟩ := bind_ok h
    obtain ⟨os, hos, h⟩ := bind_ok h
    cases h
    refine ⟨c.below_add _, fun hc => .call ho hos (Code.add_node hc) fun htail => ?_⟩
    exact Code.returns_of_returnsWithin ((c.below_add _).trans hc) htail
  | .field target name, next, depth, c, c', i, h => by
    unfold lower at h
    obtain ⟨o, ho, h⟩ := bind_ok h
    cases h
    exact ⟨c.below_add _, fun hc => .field ho (Code.add_node hc)⟩
  | .parallel left right, next, depth, c, c', i, h => by
    unfold lower at h
    obtain ⟨⟨l, c₁⟩, hl, h⟩ := bind_ok h
    obtain ⟨⟨r, c₂⟩, hr, h⟩ := bind_ok h
    cases h
    obtain ⟨hc₁, hl⟩ := lower_lowered hl
    obtain ⟨hc₂, hr⟩ := lower_lowered hr
    refine ⟨(hc₁.trans hc₂).trans (c₂.below_add _), fun hc => ?_⟩
    have hc' := (c₂.below_add _).trans hc
    exact .parallel (hl (hc₂.trans hc')) (hr hc') (Code.add_node hc)
  | .sequential left right, next, depth, c, c', i, h => by
    unfold lower at h
    obtain ⟨inner, hinner, h⟩ := bind_ok h
    obtain ⟨rfl, -⟩ := deepen_eq_ok hinner
    -- the right side first, then the push that leads to it, then the left
    obtain ⟨⟨r, c₁⟩, hr, h⟩ := bind_ok h
    obtain ⟨hc₁, hr⟩ := lower_lowered hr
    obtain ⟨hc₂, hl⟩ := lower_lowered h
    have hpush := c₁.below_add (.push r)
    refine ⟨((c.below_add _).trans hc₁).trans (hpush.trans hc₂), fun hc => ?_⟩
    have hc' := hc₂.trans hc
    exact .sequential (Code.add_node (hc₁.trans (hpush.trans hc'))) (hr (hpush.trans hc'))
      (Code.add_node hc') (hl hc)
  | .pruning left right, next, depth, c, c', i, h => by
    unfold lower at h
    obtain ⟨inner, hinner, h⟩ := bind_ok h
    obtain ⟨rfl, -⟩ := deepen_eq_ok hinner
    obtain ⟨⟨l, c₁⟩, hl, h⟩ := bind_ok h
    obtain ⟨⟨r, c₂⟩, hr, h⟩ := bind_ok h
    cases h
    obtain ⟨hc₁, hl⟩ := lower_lowered hl
    obtain ⟨hc₂, hr⟩ := lower_lowered hr
    refine ⟨((c.below_add _).trans (hc₁.trans hc₂)).trans (c₂.below_add _), fun hc => ?_⟩
    have hc' := (c₂.below_add _).trans hc
    exact .pruning (Code.add_node (hc₁.trans (hc₂.trans hc'))) (hl (hc₂.trans hc')) (hr hc')
      (Code.add_node hc)
  | .otherwise left right, next, depth, c, c', i, h => by
    unfold lower at h
    obtain ⟨⟨l, c₁⟩, hl, h⟩ := bind_ok h
    obtain ⟨⟨r, c₂⟩, hr, h⟩ := bind_ok h
    cases h
    obtain ⟨hc₁, hl⟩ := lower_lowered hl
    obtain ⟨hc₂, hr⟩ := lower_lowered hr
    refine ⟨((c.below_add _).trans (hc₁.trans hc₂)).trans (c₂.below_add _), fun hc => ?_⟩
    have hc' := (c₂.below_add _).trans hc
    exact .otherwise (Code.add_node (hc₁.trans (hc₂.trans hc'))) (hl (hc₂.trans hc')) (hr hc')
      (Code.add_node hc)
  | .declare defs body, next, depth, c, c', i, h => by
    unfold lower at h
    obtain ⟨inner, hinner, h⟩ := bind_ok h
    obtain ⟨rfl, -⟩ := deepen_eq_ok hinner
    obtain ⟨⟨compiled, c₁⟩, hdefs, h⟩ := bind_ok h
    obtain ⟨⟨b, c₂⟩, hbody, h⟩ := bind_ok h
    cases h
    obtain ⟨hc₁, entry, hcompiled, hdefs⟩ := lowerDefs_lowered hdefs
    obtain ⟨hc₂, hbody⟩ := lower_lowered hbody
    have hgroup := c₁.below_addGroup compiled
    have hpop := (c₁.addGroup compiled).2.below_add (.unwind defs.length next)
    refine ⟨(hc₁.trans (hgroup.trans (hpop.trans hc₂))).trans (c₂.below_add _), fun hc => ?_⟩
    have hc' := (c₂.below_add _).trans hc
    have hpopped := hc₂.trans hc'
    refine .declare ?_ (hdefs (hgroup.trans (hpop.trans hpopped)))
      (Code.add_node hpopped) (hbody hc') (Code.add_node hc)
    rw [← hcompiled]
    exact Code.addGroup_group (hpop.trans hpopped)
  | .atomic body, next, depth, c, c', i, h => by
    unfold lower at h
    obtain ⟨⟨b, c₁⟩, hbody, h⟩ := bind_ok h
    cases h
    obtain ⟨hc₁, hbody⟩ := lower_lowered hbody
    refine ⟨hc₁.trans (c₁.below_add _), fun hc => ?_⟩
    exact .atomic (hbody ((c₁.below_add _).trans hc)) (Code.add_node hc)

/-- Definitions are lowered one after the other, each to its own entry. -/
theorem lowerDefs_lowered : {ds : List Definition} → {inner : UInt64} → {c c' : Code} →
    {compiled : List Def} → lowerDefs sites ds inner c = .ok (compiled, c') →
    c.Below c' ∧ ∃ entry : Nat → Nat,
      compiled = (ds.mapIdx fun j d => ⟨d.name, d.arity.toNat, entry j⟩) ∧
      ∀ {c''}, c'.Below c'' → ∀ j d, ds[j]? = some d →
        Lowered sites c'' d.body Code.ret (inner + d.arity) (entry j)
  | [], inner, c, c', compiled, h => by
    unfold lowerDefs at h
    cases h
    exact ⟨.refl c, fun _ => 0, rfl, fun _ j d hd => by simp at hd⟩
  | .mk name arity body :: ds, inner, c, c', compiled, h => by
    unfold lowerDefs at h
    obtain ⟨⟨d, c₁⟩, hd, h⟩ := bind_ok h
    obtain ⟨⟨rest, c₂⟩, hrest, h⟩ := bind_ok h
    cases h
    unfold lowerDef at hd
    obtain ⟨scope, hscope, hd⟩ := bind_ok hd
    obtain ⟨rfl, -⟩ := deepen_eq_ok hscope
    rw [Nat.toUInt64_eq, UInt64.ofNat_toNat] at hd
    obtain ⟨⟨first, c₃⟩, hfirst, hd⟩ := bind_ok hd
    cases hd
    obtain ⟨hc₁, hfirst⟩ := lower_lowered hfirst
    obtain ⟨hc₂, entry, hcompiled, hrest⟩ := lowerDefs_lowered hrest
    refine ⟨hc₁.trans hc₂, fun j => if j = 0 then first else entry (j - 1), ?_, ?_⟩
    · rw [hcompiled, List.mapIdx_cons]
      rfl
    · intro c'' hc j d hd
      cases j with
      | zero =>
        cases hd
        exact hfirst (hc₂.trans hc)
      | succ j => exact hrest hc j d hd

end

end Expr
end Orchestra
