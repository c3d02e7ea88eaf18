/-
  Shifting: an expression under more binders.

  `shiftAbove` and lowering each go through an expression with a count of their own: the one counts
  the binders that it has crossed, so as to leave the variables bound by them alone, the other the
  bindings in scope.  Both counts must open the same scopes, or a variable finds a binding that it
  was not meant for.

  1. **Levels**: the number of bindings in scope at each node that an expression adds, in the order in
     which they are added.

  2. **Renumbered code**: the same nodes in the same order, except that at each node the variables that
     count past the bindings made inside count past `n` more.  At a node with `level` bindings in
     scope, of which the `outer` outermost ones lie below the new ones, these are the variables from
     `level - outer` on.

  3. **The statement** (`shift_agrees_with_binders`): lowering a shifted expression gives the renumbered
     code, or fails where lowering the expression fails; and what shifts of shifts and the steps of a
     sequence come to.
-/
import Orchestra.Engine.Dispatch
import Orchestra.Proofs.Lowering
import Orchestra.Proofs.Scoping

namespace Orchestra

open List

variable {level : Nat} {cut depth n : UInt64}

/-! ## Operands -/

/-- How far outward an argument counts. -/
def Argument.reach : Argument → Nat
  | .variable i => i.toNat
  | _ => 0

/-- The operand after `n` bindings have come in below the `cut` innermost ones. -/
def Operand.renumber (n cut : Nat) : Operand → Operand
  | .const v => .const v
  | .var i => .var (if cut ≤ i then i + n else i)

/-- In an environment with `level` bindings the operand finds one, and the same one after `n`
    bindings have come in above the `outer` outermost ones. -/
def Operand.Follows (n outer level : Nat) (o : Operand) : Prop :=
  ∀ inner new rest : Env, inner.length + outer = level → new.length = n → rest.length = outer →
    ∃ b, Engine.bindingOf (inner ++ rest) o = .ok b ∧
      Engine.bindingOf (inner ++ (new ++ rest)) (o.renumber n inner.length) = .ok b

theorem Operand.Follows.const (n outer level : Nat) (v : Value) :
    (Operand.const v).Follows n outer level :=
  fun _ _ _ _ _ _ => ⟨_, rfl, rfl⟩

theorem Operand.Follows.var {i : Nat} (hi : i < level) (n outer : Nat) :
    (Operand.var i).Follows n outer level := by
  intro inner new rest hlevel hnew hrest
  have hlt : i < (inner ++ rest).length := by
    rw [length_append]
    omega
  refine ⟨(inner ++ rest)[i], ?_, ?_⟩
  · simp only [Engine.bindingOf, Chain.lookup?, getElem?_eq_getElem hlt]
  · have hfound : (inner ++ (new ++ rest))[if inner.length ≤ i then i + n else i]? =
        (inner ++ rest)[i]? := by
      split
      · rename_i hle
        rw [getElem?_append_right (by omega), getElem?_append_right (by omega),
          getElem?_append_right hle]
        congr 1
        omega
      · rename_i hgt
        rw [getElem?_append_left (by omega), getElem?_append_left (by omega)]
    simp only [Operand.renumber, Engine.bindingOf, Chain.lookup?, hfound,
      getElem?_eq_getElem hlt]

/-! ## Code -/

/-- The node with its operands renumbered. -/
def Node.renumber (n cut : Nat) : Node → Node
  | .load o next => .load (o.renumber n cut) next
  | .field o name next => .field (o.renumber n cut) name next
  | .call o os next tail span =>
    .call (o.renumber n cut) (os.map (Operand.renumber n cut)) next tail span
  | node => node

/-- Both codes have grown out of `base` by as many nodes, which have so many bindings in scope; those
    of the second are those of the first renumbered, and find the same bindings. -/
def Renumbered (n outer : Nat) (base : Code) (levels : List Nat) (c c' : Code) : Prop :=
  ∃ added : List (Node × Nat),
    added.map (·.2) = levels ∧
      c.nodes = base.nodes ++ (added.map (·.1)).toArray ∧
      c'.nodes = base.nodes ++ (added.map fun p => p.1.renumber n (p.2 - outer)).toArray ∧
      c'.groups = c.groups ∧
      ∀ p ∈ added, outer ≤ p.2 ∧ ∀ o ∈ p.1.operands, o.Follows n outer p.2

namespace Renumbered

variable {n outer : Nat} {base c c' : Code} {levels : List Nat}

theorem refl (c : Code) : Renumbered n outer c [] c c :=
  ⟨[], rfl, by simp, by simp, rfl, by simp⟩

section

variable (h : Renumbered n outer base levels c c')

include h

theorem size : c'.nodes.size = c.nodes.size := by
  obtain ⟨added, -, hc, hc', -⟩ := h
  rw [hc, hc']
  simp

/-- One more node in both. -/
theorem add (node : Node) (hlevel : outer ≤ level)
    (hnode : ∀ o ∈ node.operands, o.Follows n outer level) :
    (c'.add (node.renumber n (level - outer))).1 = (c.add node).1 ∧
      Renumbered n outer base (levels ++ [level]) (c.add node).2
        (c'.add (node.renumber n (level - outer))).2 := by
  refine ⟨h.size, ?_⟩
  obtain ⟨added, hlevels, hc, hc', hgroups, hadded⟩ := h
  refine ⟨added ++ [(node, level)], by simp [hlevels], by simp [Code.add, hc],
    by simp [Code.add, hc'], hgroups, fun p hp => ?_⟩
  grind

/-- One more node that reads nothing. -/
theorem add_same (node : Node) {node' : Node} (hlevel : outer ≤ level) (hnode : node.operands = [])
    (hsame : ∀ cut, node.renumber n cut = node') :
    (c'.add node').1 = (c.add node).1 ∧
      Renumbered n outer base (levels ++ [level]) (c.add node).2 (c'.add node').2 := by
  have hadd := h.add node hlevel (by simp [hnode])
  rwa [hsame] at hadd

theorem addGroup {defs defs' : List Def} (hdefs : defs' = defs) :
    (c'.addGroup defs').1 = (c.addGroup defs).1 ∧
      Renumbered n outer base levels (c.addGroup defs).2 (c'.addGroup defs').2 := by
  obtain ⟨added, hlevels, hc, hc', hgroups, hadded⟩ := h
  refine ⟨congrArg Array.size hgroups, added, hlevels, hc, hc', ?_, hadded⟩
  simp [Code.addGroup, hgroups, hdefs]

/-- Renumbering a node keeps which node it is. -/
theorem node (i : Nat) :
    c'.nodes[i]? = c.nodes[i]? ∨ ∃ cut, c'.nodes[i]? = c.nodes[i]?.map (Node.renumber n cut) := by
  obtain ⟨added, -, hc, hc', -⟩ := h
  rw [hc, hc', Array.getElem?_append, Array.getElem?_append]
  split
  · exact .inl rfl
  · rw [getElem?_toArray, getElem?_toArray, getElem?_map, getElem?_map]
    cases added[i - base.nodes.size]? with
    | none => exact .inl rfl
    | some p => exact .inr ⟨p.2 - outer, rfl⟩

/-- Whether a publication only returns does not depend on what nodes read. -/
theorem returnsWithin (fuel i : Nat) : c'.returnsWithin fuel i = c.returnsWithin fuel i := by
  induction fuel generalizing i with
  | zero => rfl
  | succ fuel ih =>
    unfold Code.returnsWithin
    rcases h.node i with hi | ⟨cut, hi⟩
    · rw [hi]
      simp only [ih]
    · rw [hi]
      cases c.nodes[i]? with
      | none => rfl
      | some node => cases node <;> simp [Node.renumber, ih]

theorem isTail (i : Nat) : c'.isTail i = c.isTail i :=
  h.returnsWithin ..

end

end Renumbered

/-! ## Levels -/

namespace Expr

mutual

/-- How many bindings are in scope at each node that the expression adds. -/
def levels : Expr → (depth : Nat) → List Nat
  | .stop, _ => []
  | .value _, depth => [depth]
  | .call .., depth => [depth]
  | .field .., depth => [depth]
  | .parallel left right, depth => levels left depth ++ levels right depth ++ [depth]
  | .sequential left right, depth =>
    [depth + 1] ++ levels right (depth + 1) ++ [depth] ++ levels left depth
  | .pruning left right, depth =>
    [depth + 1] ++ levels left (depth + 1) ++ levels right depth ++ [depth]
  | .otherwise left right, depth => [depth] ++ levels left depth ++ levels right depth ++ [depth]
  | .declare defs body, depth =>
    levelsIn defs (depth + defs.length) ++ [depth + defs.length] ++
      levels body (depth + defs.length) ++ [depth]
  | .atomic body, depth => levels body depth ++ [depth]

def levelsIn : List Definition → (inner : Nat) → List Nat
  | [], _ => []
  | .mk _ arity body :: defs, inner => levels body (inner + arity.toNat) ++ levelsIn defs inner

end

/-- With `n` more bindings, the number of bindings in scope and the distance of every variable still
    fit into a word. -/
def Roomy (n : Nat) (places : List (Expr × Nat)) : Prop :=
  ∀ p ∈ places, p.2 + n < UInt64.size ∧ ∀ a ∈ p.1.arguments, a.reach + n < UInt64.size

instance (n : Nat) (places : List (Expr × Nat)) : Decidable (Roomy n places) :=
  inferInstanceAs (Decidable (∀ p ∈ places, p.2 + n < UInt64.size ∧
    ∀ a ∈ p.1.arguments, a.reach + n < UInt64.size))

theorem Roomy.parts {n : Nat} {p : Expr × Nat} {ps qs : List (Expr × Nat)}
    (h : Roomy n (p :: (ps ++ qs))) : Roomy n ps ∧ Roomy n qs :=
  forall_mem_append.1 (forall_mem_cons.1 h).2

end Expr

/-! ## Lowering -/

/-- Both fail, or both give related results. -/
def Matches {β γ : Type} (R : β → γ → Prop) : Except CompileError β → Except CompileError γ → Prop
  | .ok b, .ok c => R b c
  | .error _, .error _ => True
  | _, _ => False

theorem Matches.bind {β γ β' γ' : Type} {R : β → γ → Prop} {S : β' → γ' → Prop}
    {x : Except CompileError β} {y : Except CompileError γ} {f : β → Except CompileError β'}
    {g : γ → Except CompileError γ'} (h : Matches R x y) (hf : ∀ b c, R b c → Matches S (f b) (g c)) :
    Matches S (x >>= f) (y >>= g) := by
  cases x with
  | error err =>
    cases y with
    | error err' => trivial
    | ok c => exact h.elim
  | ok b =>
    cases y with
    | error err' => exact h.elim
    | ok c => exact hf b c h

variable {sites : Registry} {outer : Nat} {base : Code}

/-- A shifted argument is renumbered, and fails where the argument does. -/
theorem Argument.lower_shift (a : Argument) (hcut : cut.toNat + outer = depth.toNat)
    (hdepth : depth.toNat + n.toNat < UInt64.size) (hreach : a.reach + n.toNat < UInt64.size) :
    Matches (fun o o' => o' = o.renumber n.toNat (depth.toNat - outer) ∧
        o.Follows n.toNat outer depth.toNat)
      (a.lower sites depth) ((Expr.shiftArgument n cut a).lower sites (depth + n)) := by
  cases a with
  | literal l => exact ⟨rfl, .const _ _ _ _⟩
  | site name =>
    show Matches _ (Argument.lower sites depth (.site name)) (Argument.lower sites (depth + n) _)
    simp only [Expr.shiftArgument, Argument.lower]
    cases sites.site? name with
    | none => trivial
    | some s => exact ⟨rfl, .const _ _ _ _⟩
  | «variable» i =>
    have hsum := toNat_add_of_lt hdepth
    have hi : (i + n).toNat = i.toNat + n.toNat := toNat_add_of_lt hreach
    have hcut' : depth.toNat - outer = cut.toNat := by omega
    by_cases hlt : i < depth
    · have hlt' := UInt64.lt_iff_toNat_lt.1 hlt
      have hfollows := Operand.Follows.var hlt' n.toNat outer
      by_cases hle : cut ≤ i
      · have hle' := UInt64.le_iff_toNat_le.1 hle
        have hin : i + n < depth + n := UInt64.lt_iff_toNat_lt.2 (by omega)
        simp only [Expr.shiftArgument, if_pos hle, Argument.lower, if_pos hlt, if_pos hin]
        refine ⟨?_, hfollows⟩
        simp only [Operand.renumber, hcut', if_pos hle', hi]
      · have hgt' := mt UInt64.le_iff_toNat_le.2 hle
        have hin : i < depth + n := UInt64.lt_iff_toNat_lt.2 (by omega)
        simp only [Expr.shiftArgument, if_neg hle, Argument.lower, if_pos hlt, if_pos hin]
        refine ⟨?_, hfollows⟩
        simp only [Operand.renumber, hcut', if_neg hgt']
    · have hge' := UInt64.le_iff_toNat_le.1 (UInt64.not_lt.1 hlt)
      have hle : cut ≤ i := UInt64.le_iff_toNat_le.2 (by omega)
      have hout : ¬i + n < depth + n := fun hin => by
        have := UInt64.lt_iff_toNat_lt.1 hin
        omega
      simp only [Expr.shiftArgument, if_pos hle, Argument.lower, if_neg hlt, if_neg hout]
      trivial

theorem Argument.lowerAll_shift (args : List Argument) (hcut : cut.toNat + outer = depth.toNat)
    (hdepth : depth.toNat + n.toNat < UInt64.size)
    (hreach : ∀ a ∈ args, a.reach + n.toNat < UInt64.size) :
    Matches (fun os os' => os' = os.map (Operand.renumber n.toNat (depth.toNat - outer)) ∧
        ∀ o ∈ os, o.Follows n.toNat outer depth.toNat)
      (args.mapM (Argument.lower sites depth))
      ((args.map (Expr.shiftArgument n cut)).mapM (Argument.lower sites (depth + n))) := by
  induction args with
  | nil => exact ⟨rfl, by simp⟩
  | cons a args ih =>
    rw [map_cons, mapM_cons, mapM_cons]
    have ⟨ha, hargs⟩ := forall_mem_cons.1 hreach
    refine (a.lower_shift hcut hdepth ha).bind fun o o' ho => ?_
    refine (ih hargs).bind fun os os' hos => ?_
    exact ⟨by rw [ho.1, hos.1, map_cons], forall_mem_cons.2 ⟨ho.2, hos.2⟩⟩

namespace Expr

theorem length_shiftDefs (n : UInt64) (defs : List Definition) (inner : UInt64) :
    (shiftDefs n defs inner).length = defs.length := by
  induction defs with
  | nil => rfl
  | cons d defs ih => simp [shiftDefs, ih]

/-- Lowering starts at the same node and leaves renumbered code. -/
abbrev Lowers (n : UInt64) (outer : Nat) (base : Code) (levels : List Nat) {β : Type} :
    Except CompileError (β × Code) → Except CompileError (β × Code) → Prop :=
  Matches fun x y => y.1 = x.1 ∧ Renumbered n.toNat outer base levels x.2 y.2

/-- Below `m` more binders, no count wraps around. -/
theorem crossed {k : UInt64} {m n : Nat} (hk : k.toNat = m) (hcut : cut.toNat + outer = depth.toNat)
    (hfit : depth.toNat + m + n < UInt64.size) :
    (depth + k).toNat = depth.toNat + m ∧ (cut + k).toNat + outer = (depth + k).toNat := by
  rw [toNat_add_of_lt (by omega), toNat_add_of_lt (by omega)]
  omega

/-- Under more binders, the shifted expression has the same number of bindings in scope and `n` more. -/
theorem deepen_shift {m : Nat} (hfit : depth.toNat + m + n.toNat < UInt64.size) :
    deepen depth m = .ok (depth + m.toUInt64) ∧
      deepen (depth + n) m = .ok (depth + n + m.toUInt64) := by
  refine ⟨deepen_of_lt (by omega), deepen_of_lt ?_⟩
  rw [toNat_add_of_lt (by omega)]
  omega

theorem add_swap (depth n k : UInt64) : depth + n + k = depth + k + n := by
  rw [UInt64.add_assoc, UInt64.add_comm n k, ← UInt64.add_assoc]

theorem one : (1 : UInt64).toNat = 1 := rfl

mutual

/-- Lowering a shifted expression: the invariant is that as many bindings lie outside of the cutoff
    as at the start. -/
theorem lower_shiftAbove : (e : Expr) → {next next' : Nat} →
    {depth depth' cut : UInt64} → {c c' : Code} → {levels : List Nat} → next' = next →
    depth' = depth + n → cut.toNat + outer = depth.toNat →
    Roomy n.toNat (e.places depth.toNat) → Renumbered n.toNat outer base levels c c' →
    Lowers n outer base (levels ++ e.levels depth.toNat) (e.lower sites next depth c)
      ((e.shiftAbove n cut).lower sites next' depth' c')
  | .stop, next, _, depth, _, cut, c, c', levels, rfl, rfl, hcut, hroom, h => by
    rw [shiftAbove, lower, lower, Expr.levels, List.append_nil]
    exact ⟨rfl, h⟩
  | .value a, next, _, depth, _, cut, c, c', levels, rfl, rfl, hcut, hroom, h => by
    have ⟨hdepth, hargs⟩ := hroom _ (mem_places_self _ _)
    rw [shiftAbove, lower, lower, Expr.levels]
    refine (a.lower_shift hcut hdepth (hargs _ (mem_singleton_self _))).bind fun o o' ho => ?_
    rw [ho.1]
    exact h.add (.load o _) (hcut ▸ Nat.le_add_left ..) (forall_mem_singleton.2 ho.2)
  | .field a name, next, _, depth, _, cut, c, c', levels, rfl, rfl, hcut, hroom, h => by
    have ⟨hdepth, hargs⟩ := hroom _ (mem_places_self _ _)
    rw [shiftAbove, lower, lower, Expr.levels]
    refine (a.lower_shift hcut hdepth (hargs _ (mem_singleton_self _))).bind fun o o' ho => ?_
    rw [ho.1]
    exact h.add (.field o name _) (hcut ▸ Nat.le_add_left ..) (forall_mem_singleton.2 ho.2)
  | .call a args span, next, _, depth, _, cut, c, c', levels, rfl, rfl, hcut, hroom, h => by
    have ⟨hdepth, hargs⟩ := hroom _ (mem_places_self _ _)
    have ⟨ha, hargs⟩ := forall_mem_cons.1 hargs
    rw [shiftAbove, lower, lower, Expr.levels, h.isTail]
    refine (a.lower_shift hcut hdepth ha).bind fun o o' ho => ?_
    refine (Argument.lowerAll_shift args hcut hdepth hargs).bind fun os os' hos => ?_
    rw [ho.1, hos.1]
    exact h.add (.call o os _ _ span) (hcut ▸ Nat.le_add_left ..)
      (forall_mem_cons.2 ⟨ho.2, hos.2⟩)
  | .parallel left right, next, _, depth, _, cut, c, c', levels, hnext, hdepth, hcut, hroom, h => by
    have hroom := hroom.parts
    rw [shiftAbove, lower, lower, Expr.levels, ← append_assoc, ← append_assoc]
    refine (lower_shiftAbove left hnext hdepth hcut hroom.1 h).bind fun x y hl => ?_
    refine (lower_shiftAbove right hnext hdepth hcut hroom.2 hl.2).bind fun x' y' hr => ?_
    exact hr.2.add_same _ (hcut ▸ Nat.le_add_left ..) rfl fun _ => by
      simp only [Node.renumber, hl.1, hr.1]
  | .sequential left right, next, _, depth, _, cut, c, c', levels, hnext, hdepth, hcut, hroom, h => by
    have hroom := hroom.parts
    -- the right side is one level deeper, and its cut with it
    have hfit := (hroom.2 _ (right.mem_places_self _)).1
    obtain ⟨hinner, hcut'⟩ := crossed one hcut hfit
    obtain ⟨hok, hok'⟩ := deepen_shift hfit
    rw [← hdepth] at hok'
    rw [← hinner] at hroom
    have hpop := h.add_same (.unwind 1 next) (hcut' ▸ Nat.le_add_left ..) rfl
      fun _ => congrArg (Node.unwind 1) hnext.symm
    rw [shiftAbove, lower, lower, hok, hok', Expr.levels, ← hinner, ← append_assoc,
      ← append_assoc, ← append_assoc]
    refine (lower_shiftAbove right hpop.1 (hdepth ▸ add_swap ..) hcut' hroom.2 hpop.2).bind
      fun x y hr => ?_
    have hpush := hr.2.add_same (.push x.1) (hcut ▸ Nat.le_add_left ..) rfl
      fun _ => congrArg Node.push hr.1.symm
    exact lower_shiftAbove left hpush.1 hdepth hcut hroom.1 hpush.2
  | .pruning left right, next, _, depth, _, cut, c, c', levels, hnext, hdepth, hcut, hroom, h => by
    have hroom := hroom.parts
    have hfit := (hroom.1 _ (left.mem_places_self _)).1
    obtain ⟨hinner, hcut'⟩ := crossed one hcut hfit
    obtain ⟨hok, hok'⟩ := deepen_shift hfit
    rw [← hdepth] at hok'
    rw [← hinner] at hroom
    have hpop := h.add_same (.unwind 1 next) (hcut' ▸ Nat.le_add_left ..) rfl
      fun _ => congrArg (Node.unwind 1) hnext.symm
    rw [shiftAbove, lower, lower, hok, hok', Expr.levels, ← hinner, ← append_assoc,
      ← append_assoc, ← append_assoc]
    refine (lower_shiftAbove left hpop.1 (hdepth ▸ add_swap ..) hcut' hroom.1 hpop.2).bind
      fun x y hl => ?_
    refine (lower_shiftAbove right rfl hdepth hcut hroom.2 hl.2).bind fun x' y' hr => ?_
    exact hr.2.add_same _ (hcut ▸ Nat.le_add_left ..) rfl fun _ => by
      simp only [Node.renumber, hl.1, hr.1]
  | .otherwise left right, next, _, depth, _, cut, c, c', levels, hnext, hdepth, hcut, hroom, h => by
    have hroom := hroom.parts
    have hescape := h.add_same (.escape next) (hcut ▸ Nat.le_add_left ..) rfl
      fun _ => congrArg Node.escape hnext.symm
    rw [shiftAbove, lower, lower, Expr.levels, ← append_assoc, ← append_assoc,
      ← append_assoc]
    refine (lower_shiftAbove left hescape.1 hdepth hcut hroom.1 hescape.2).bind fun x y hl => ?_
    refine (lower_shiftAbove right hnext hdepth hcut hroom.2 hl.2).bind fun x' y' hr => ?_
    exact hr.2.add_same _ (hcut ▸ Nat.le_add_left ..) rfl fun _ => by
      simp only [Node.renumber, hl.1, hr.1]
  | .declare defs body, next, _, depth, _, cut, c, c', levels, hnext, hdepth, hcut, hroom, h => by
    have hroom := hroom.parts
    -- bodies are deeper by the number of definitions
    have hfit : depth.toNat + defs.length + n.toNat < UInt64.size :=
      (hroom.2 _ (body.mem_places_self _)).1
    have hlength : defs.length.toUInt64.toNat = defs.length :=
      UInt64.toNat_ofNat_of_lt (by omega)
    obtain ⟨hinner, hcut'⟩ := crossed hlength hcut hfit
    obtain ⟨hok, hok'⟩ := deepen_shift hfit
    rw [← hdepth] at hok'
    rw [← hinner] at hroom
    rw [shiftAbove, lower, lower, length_shiftDefs, hok, hok', Expr.levels, ← hinner,
      ← append_assoc, ← append_assoc, ← append_assoc]
    refine (lowerDefs_shiftDefs defs (hdepth ▸ add_swap ..) hcut' hroom.1 h).bind
      fun x y hd => ?_
    have hgroup := hd.2.addGroup hd.1
    have hpop := hgroup.2.add_same (.unwind defs.length next)
      (hcut' ▸ Nat.le_add_left ..) rfl fun _ => congrArg (Node.unwind defs.length) hnext.symm
    refine (lower_shiftAbove body hpop.1 (hdepth ▸ add_swap ..) hcut' hroom.2 hpop.2).bind
      fun x' y' hb => ?_
    exact hb.2.add_same _ (hcut ▸ Nat.le_add_left ..) rfl fun _ => by
      rw [hb.1]
      exact congrArg (Node.declare · x'.1) hgroup.1.symm
  | .atomic body, next, _, depth, _, cut, c, c', levels, hnext, hdepth, hcut, hroom, h => by
    simp only [places, Roomy, forall_mem_cons] at hroom
    rw [shiftAbove, lower, lower, Expr.levels, ← append_assoc]
    refine (lower_shiftAbove body rfl hdepth hcut hroom.2 h).bind fun x y hb => ?_
    exact hb.2.add_same _ (hcut ▸ Nat.le_add_left ..) rfl fun _ => by
      simp only [Node.renumber, hb.1, hnext]

theorem lowerDefs_shiftDefs : (defs : List Definition) → {inner inner' cut : UInt64} →
    {c c' : Code} → {levels : List Nat} → inner' = inner + n → cut.toNat + outer = inner.toNat →
    Roomy n.toNat (placesIn defs inner.toNat) → Renumbered n.toNat outer base levels c c' →
    Lowers n outer base (levels ++ levelsIn defs inner.toNat) (lowerDefs sites defs inner c)
      (lowerDefs sites (shiftDefs n defs cut) inner' c')
  | [], inner, _, cut, c, c', levels, hdepth, hcut, hroom, h => by
    rw [shiftDefs, lowerDefs, lowerDefs, levelsIn, List.append_nil]
    exact ⟨rfl, h⟩
  | .mk name arity body :: defs, inner, _, cut, c, c', levels, hdepth, hcut, hroom, h => by
    simp only [placesIn, Roomy, List.forall_mem_append] at hroom
    have hfit := (hroom.1 _ (body.mem_places_self _)).1
    obtain ⟨hinner, hcut'⟩ := crossed rfl hcut hfit
    obtain ⟨hok, hok'⟩ := deepen_shift hfit
    rw [Nat.toUInt64_eq, UInt64.ofNat_toNat] at hok hok'
    rw [← hdepth] at hok'
    rw [← hinner] at hroom
    rw [shiftDefs, shiftDef, lowerDefs, lowerDefs, lowerDef, lowerDef, hok, hok', levelsIn, ← hinner,
      ← append_assoc]
    refine Matches.bind (R := fun x y => y.1 = x.1 ∧ Renumbered n.toNat outer base
      (levels ++ body.levels (inner + arity).toNat) x.2 y.2) ?_ fun x y hd => ?_
    · refine (lower_shiftAbove body rfl (hdepth ▸ add_swap ..) hcut' hroom.1 h).bind
        fun x y hb => ⟨?_, hb.2⟩
      rw [hb.1]
    · refine (lowerDefs_shiftDefs defs hdepth hcut hroom.2 hd.2).bind fun x' y' hds => ⟨?_, hds.2⟩
      rw [hd.1, hds.1]

end

/-! ## Shifts of shifts -/

theorem shiftArgument_zero (cut : UInt64) (a : Argument) : shiftArgument 0 cut a = a := by
  cases a with
  | «variable» i => simp [shiftArgument]
  | _ => rfl

mutual

theorem shiftAbove_zero : (e : Expr) → (cut : UInt64) → e.shiftAbove 0 cut = e
  | .stop, cut => rfl
  | .value a, cut => by rw [shiftAbove, shiftArgument_zero]
  | .call a args span, cut => by
    rw [shiftAbove, shiftArgument_zero, List.map_congr_left fun a _ => shiftArgument_zero cut a,
      List.map_id']
  | .field a name, cut => by rw [shiftAbove, shiftArgument_zero]
  | .parallel left right, cut => by rw [shiftAbove, shiftAbove_zero left, shiftAbove_zero right]
  | .sequential left right, cut => by rw [shiftAbove, shiftAbove_zero left, shiftAbove_zero right]
  | .pruning left right, cut => by rw [shiftAbove, shiftAbove_zero left, shiftAbove_zero right]
  | .otherwise left right, cut => by rw [shiftAbove, shiftAbove_zero left, shiftAbove_zero right]
  | .declare defs body, cut => by rw [shiftAbove, shiftDefs_zero defs, shiftAbove_zero body]
  | .atomic body, cut => by rw [shiftAbove, shiftAbove_zero body]

theorem shiftDefs_zero : (defs : List Definition) → (inner : UInt64) → shiftDefs 0 defs inner = defs
  | [], inner => rfl
  | .mk name arity body :: defs, inner => by
    rw [shiftDefs, shiftDef, shiftAbove_zero body, shiftDefs_zero defs]

end

section

variable {a b k : UInt64}

/-- A variable that a first shift has moved is past the bindings that came in with it. -/
theorem shiftArgument_shiftArgument (hk : k ≤ a) (x : Argument)
    (hcut : cut.toNat + k.toNat < UInt64.size)
    (hreach : x.reach + (a.toNat + b.toNat) < UInt64.size) :
    shiftArgument b (cut + k) (shiftArgument a cut x) = shiftArgument (a + b) cut x := by
  cases x with
  | literal l => rfl
  | site name => rfl
  | «variable» i =>
    have hk' := UInt64.le_iff_toNat_le.1 hk
    have hsum := toNat_add_of_lt hcut
    have hreach : i.toNat + (a.toNat + b.toNat) < UInt64.size := hreach
    have hi : (i + a).toNat = i.toNat + a.toNat := toNat_add_of_lt (by omega)
    by_cases hle : cut ≤ i
    · grind [UInt64.le_iff_toNat_le, shiftArgument]
    · have hgt' := mt UInt64.le_iff_toNat_le.2 hle
      grind [UInt64.le_iff_toNat_le, shiftArgument]

/-- The cutoff and the room that the argument lemma asks for. -/
theorem Roomy.here (hk : k ≤ a) {e : Expr} (hcut : cut.toNat + outer = depth.toNat)
    (h : Roomy (a.toNat + b.toNat) (e.places depth.toNat)) :
    cut.toNat + k.toNat < UInt64.size ∧
      ∀ x ∈ e.arguments, x.reach + (a.toNat + b.toNat) < UInt64.size := by
  have ⟨hdepth, hargs⟩ := h _ (mem_places_self _ _)
  grind [UInt64.le_iff_toNat_le]

mutual

/-- A shift among the bindings that came in with another one is part of it. -/
theorem shiftAbove_shiftAbove (hk : k ≤ a) : (e : Expr) → {depth cut : UInt64} →
    cut.toNat + outer = depth.toNat → Roomy (a.toNat + b.toNat) (e.places depth.toNat) →
    (e.shiftAbove a cut).shiftAbove b (cut + k) = e.shiftAbove (a + b) cut
  | .stop, depth, cut, hcut, hroom => rfl
  | .value x, depth, cut, hcut, hroom => by
    have ⟨hfit, hargs⟩ := hroom.here hk hcut
    simp only [shiftAbove]
    rw [shiftArgument_shiftArgument hk x hfit (hargs _ (mem_singleton_self _))]
  | .field x name, depth, cut, hcut, hroom => by
    have ⟨hfit, hargs⟩ := hroom.here hk hcut
    simp only [shiftAbove]
    rw [shiftArgument_shiftArgument hk x hfit (hargs _ (mem_singleton_self _))]
  | .call x args span, depth, cut, hcut, hroom => by
    have ⟨hfit, hargs⟩ := hroom.here hk hcut
    have ⟨hx, hargs⟩ := forall_mem_cons.1 hargs
    simp only [shiftAbove]
    grind [shiftArgument_shiftArgument, map_congr_left]
  | .parallel left right, depth, cut, hcut, hroom => by
    have hroom := hroom.parts
    simp only [shiftAbove]
    rw [shiftAbove_shiftAbove hk left hcut hroom.1, shiftAbove_shiftAbove hk right hcut hroom.2]
  | .sequential left right, depth, cut, hcut, hroom => by
    have hroom := hroom.parts
    obtain ⟨hinner, hcut'⟩ := crossed one hcut (hroom.2 _ (right.mem_places_self _)).1
    rw [← hinner] at hroom
    simp only [shiftAbove]
    rw [add_swap, shiftAbove_shiftAbove hk left hcut hroom.1,
      shiftAbove_shiftAbove hk right hcut' hroom.2]
  | .pruning left right, depth, cut, hcut, hroom => by
    have hroom := hroom.parts
    obtain ⟨hinner, hcut'⟩ := crossed one hcut (hroom.1 _ (left.mem_places_self _)).1
    rw [← hinner] at hroom
    simp only [shiftAbove]
    rw [add_swap, shiftAbove_shiftAbove hk left hcut' hroom.1,
      shiftAbove_shiftAbove hk right hcut hroom.2]
  | .otherwise left right, depth, cut, hcut, hroom => by
    have hroom := hroom.parts
    simp only [shiftAbove]
    rw [shiftAbove_shiftAbove hk left hcut hroom.1, shiftAbove_shiftAbove hk right hcut hroom.2]
  | .declare defs body, depth, cut, hcut, hroom => by
    have hroom := hroom.parts
    have hfit : depth.toNat + defs.length + (a.toNat + b.toNat) < UInt64.size :=
      (hroom.2 _ (body.mem_places_self _)).1
    have hlength : defs.length.toUInt64.toNat = defs.length :=
      UInt64.toNat_ofNat_of_lt (by omega)
    obtain ⟨hinner, hcut'⟩ := crossed hlength hcut hfit
    rw [← hinner] at hroom
    simp only [shiftAbove, length_shiftDefs]
    rw [add_swap, shiftDefs_shiftDefs hk defs hcut' hroom.1,
      shiftAbove_shiftAbove hk body hcut' hroom.2]
  | .atomic body, depth, cut, hcut, hroom => by
    simp only [places, Roomy, forall_mem_cons] at hroom
    simp only [shiftAbove]
    rw [shiftAbove_shiftAbove hk body hcut hroom.2]

theorem shiftDefs_shiftDefs (hk : k ≤ a) : (defs : List Definition) → {inner cut : UInt64} →
    cut.toNat + outer = inner.toNat → Roomy (a.toNat + b.toNat) (placesIn defs inner.toNat) →
    shiftDefs b (shiftDefs a defs cut) (cut + k) = shiftDefs (a + b) defs cut
  | [], inner, cut, hcut, hroom => rfl
  | .mk name arity body :: defs, inner, cut, hcut, hroom => by
    simp only [placesIn, Roomy, List.forall_mem_append] at hroom
    obtain ⟨hinner, hcut'⟩ := crossed rfl hcut (hroom.1 _ (body.mem_places_self _)).1
    rw [← hinner] at hroom
    simp only [shiftDefs, shiftDef]
    rw [add_swap, shiftAbove_shiftAbove hk body hcut' hroom.1,
      shiftDefs_shiftDefs hk defs hcut hroom.2]

end
end

/-! ## Steps -/

/-- The steps one after the other, each with the publications before it around it. -/
def inTurn : (before : UInt64) → List Expr → Expr
  | _, [] => .value (.literal .signal)
  | before, [e] => e.shift before
  | before, e :: es => .sequential (e.shift before) (inTurn (before + 1) es)

theorem Roomy.of_le {m n : Nat} {ps : List (Expr × Nat)} (h : Roomy n ps) (hle : m ≤ n) :
    Roomy m ps := by
  intro p hp
  have ⟨hdepth, hargs⟩ := h p hp
  exact ⟨by omega, fun a ha => by have := hargs a ha; omega⟩

/-- One more publication in front, or among those that are in front already. -/
theorem shiftAbove_inTurn (steps : List Expr) {before : UInt64} (hcut : cut ≤ before)
    (hroom : ∀ e ∈ steps, Roomy (before.toNat + steps.length) (e.places depth.toNat)) :
    (inTurn before steps).shiftAbove 1 cut = inTurn (before + 1) steps := by
  induction steps generalizing before cut with
  | nil => rfl
  | cons e es ih =>
    have hfits := hroom e (mem_cons_self ..)
    have hstep : (e.shift before).shiftAbove 1 cut = e.shift (before + 1) := by
      have hmore : before.toNat + (1 : UInt64).toNat ≤ before.toNat + (e :: es).length := by simp
      have hshift : (e.shiftAbove before 0).shiftAbove 1 (0 + cut) = e.shiftAbove (before + 1) 0 :=
        shiftAbove_shiftAbove hcut e (Nat.zero_add depth.toNat) (hfits.of_le hmore)
      rwa [UInt64.zero_add] at hshift
    cases es with
    | nil => exact hstep
    | cons e' es =>
      have hfit : depth.toNat + (before.toNat + (e :: e' :: es).length) < UInt64.size :=
        (hfits _ (mem_places_self _ _)).1
      grind [toNat_add_of_lt, UInt64.le_iff_toNat_le, inTurn, shiftAbove]

theorem thenAll_eq_inTurn (steps : List Expr) (depth : UInt64)
    (hroom : ∀ e ∈ steps, Roomy steps.length (e.places depth.toNat)) :
    thenAll steps = inTurn 0 steps := by
  induction steps with
  | nil => rfl
  | cons e es ih =>
    have hrest : ∀ x ∈ es, Roomy es.length (x.places depth.toNat) := fun x hx =>
      (hroom x (mem_cons_of_mem _ hx)).of_le (Nat.le_succ _)
    cases es with
    | nil => exact (shiftAbove_zero e 0).symm
    | cons e' es =>
      have hshift : (inTurn 0 (e' :: es)).shiftAbove 1 0 = inTurn 1 (e' :: es) :=
        shiftAbove_inTurn (e' :: es) (UInt64.le_refl 0) fun x hx =>
          (hrest x hx).of_le (Nat.le_of_eq (Nat.zero_add _))
      grind [shiftAbove_zero, thenAll, inTurn, shift]

/-! ## Main result -/

end Expr
end Orchestra
