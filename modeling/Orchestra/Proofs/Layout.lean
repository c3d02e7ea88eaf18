/-
  The layout of code.

  A graph grows at its end only, and what comes later in an expression is lowered first.  So a node
  leads to earlier nodes, and no cycle can arise:

  1. **Ordered code**: the successors of a node stand before it, and so do the definitions that it
     binds.  Every group that a node names is there, and every definition starts at a node.

  2. **Tail calls**: in ordered code the search for the return comes to its end, so a call is flagged
     exactly if nothing but unwinding stands between it and the return.  Code that grows does not
     change this, as the nodes from which a call goes on are in place when the call is added.

  3. **Size** (`weight`): every expression adds nodes of its own, and a continuation is never copied,
     so the size of the code is a sum over all expressions in the program.
-/
import Orchestra.Proofs.Lowering
import Orchestra.Proofs.Scoping

namespace Orchestra

open List

variable {c : Code} {defs : List Def} {i : Nat}

namespace Code

/-! ## Ordered code -/

/-- Nodes lead to earlier nodes only, and calls are flagged as they should be. -/
structure Ordered (c : Code) : Prop where
  /-- The fixed nodes are there. -/
  fixed : 5 ≤ c.nodes.size
  /-- The successors of a node stand before it. -/
  successor : ∀ {i j : Nat} {n}, c.nodes[i]? = some n → j ∈ n.successors → j < i
  /-- A group that is bound exists, and its definitions start before the node that binds it. -/
  bound : ∀ {i g : Nat} {n}, c.nodes[i]? = some n → n.group? = some g →
    ∃ defs, c.groups[g]? = some defs ∧ ∀ d ∈ defs, d.entry < i
  /-- Every definition starts at a node. -/
  entry : ∀ {g : Nat} {defs}, c.groups[g]? = some defs → ∀ d ∈ defs, d.entry < c.nodes.size
  /-- The tail calls are those that go on to the return. -/
  flagged : ∀ {i next : Nat} {o os tail span},
    c.nodes[i]? = some (.call o os next tail span) → (tail = true ↔ c.Returns next)

/-- An added node is in range. -/
theorem add_lt (c : Code) (n : Node) : (c.add n).1 < (c.add n).2.nodes.size := by
  simp [add]

theorem Below.size_le {c' : Code} (h : c.Below c') : c.nodes.size ≤ c'.nodes.size := by
  refine Nat.le_of_not_lt fun hlt => ?_
  obtain ⟨hlt', -⟩ := Array.getElem?_eq_some_iff.1 (h.node (Array.getElem?_eq_getElem hlt))
  exact Nat.lt_irrefl _ hlt'

/-- A node of grown code is old or new. -/
theorem add_node_cases {n m : Node} (h : (c.add n).2.nodes[i]? = some m) :
    c.nodes[i]? = some m ∨ i = c.nodes.size ∧ m = n := by
  rw [show (c.add n).2.nodes = c.nodes.push n from rfl, Array.getElem?_push] at h
  grind

theorem addGroup_cases {ds : List Def} {g : Nat} (h : (c.addGroup defs).2.groups[g]? = some ds) :
    c.groups[g]? = some ds ∨ ds = defs := by
  rw [show (c.addGroup defs).2.groups = c.groups.push defs from rfl, Array.getElem?_push] at h
  split at h
  · exact .inr (Option.some.inj h).symm
  · exact .inl h

namespace Ordered

variable {c c' : Code}

/-- Nodes that are there lead through nodes that are there, so growth does not change where they
    return. -/
theorem returns_iff (h : c.Ordered) (hc : c.Below c') (hi : i < c.nodes.size) :
    c'.Returns i ↔ c.Returns i := by
  have hold {i : Nat} (hi : i < c.nodes.size) {n : Node} (hn : c'.nodes[i]? = some n) :
      c.nodes[i]? = some n := by
    have hthere := Array.getElem?_eq_getElem hi
    rw [hthere, ← hc.node hthere, hn]
  constructor
  · intro hr
    induction hr with
    | ret hret => exact .ret (hold hi hret)
    | unwind hunwind _ ih =>
      have hunwind := hold hi hunwind
      have hlt := h.successor hunwind (mem_singleton_self _)
      exact .unwind hunwind (ih (Nat.lt_trans hlt hi))
  · intro hr
    induction hr with
    | ret hret => exact .ret (hc.node hret)
    | unwind hunwind _ ih =>
      have hlt := h.successor hunwind (mem_singleton_self _)
      exact .unwind (hc.node hunwind) (ih (Nat.lt_trans hlt hi))

/-- As many steps as there are earlier nodes are enough to find the return. -/
theorem returnsWithin_of_returns (h : c.Ordered) (hr : c.Returns i) {fuel : Nat} (hi : i < fuel) :
    c.returnsWithin fuel i = true := by
  induction hr generalizing fuel with
  | ret hret =>
    obtain ⟨fuel, rfl⟩ := Nat.exists_eq_add_of_lt hi
    simp [returnsWithin, hret]
  | unwind hunwind _ ih =>
    obtain ⟨fuel, rfl⟩ := Nat.exists_eq_add_of_lt hi
    have hlt := h.successor hunwind (mem_singleton_self _)
    simp only [returnsWithin, hunwind]
    exact ih (by omega)

theorem isTail_iff (h : c.Ordered) : c.isTail i = true ↔ c.Returns i :=
  ⟨returns_of_returnsWithin (.refl c), fun hr => h.returnsWithin_of_returns hr (Nat.lt_succ_self i)⟩

/-- All that follows a node stands before it. -/
theorem lt_of_mem_following (h : c.Ordered) {j : Nat} (hj : j ∈ c.following i) : j < i := by
  unfold following at hj
  split at hj
  · cases hj
  · rename_i n hn
    obtain hj | hj := mem_append.1 hj
    · exact h.successor hn hj
    grind [Option.bind_eq_some_iff, bound]

theorem wellFounded_following (h : c.Ordered) : WellFounded fun j i => j ∈ c.following i :=
  Subrelation.wf (fun hj => h.lt_of_mem_following hj) Nat.lt_wfRel.wf

/-! ### Growth keeps the order -/

theorem empty : ({} : Code).Ordered where
  fixed := Nat.le_refl 5
  successor {i j n} hn hj := by
    obtain ⟨hi, rfl⟩ := Array.getElem?_eq_some_iff.1 hn
    match i, hi with
    | 0, _ | 1, _ | 2, _ | 3, _ | 4, _ => cases hj
  bound {i g n} hn hg := by
    obtain ⟨hi, rfl⟩ := Array.getElem?_eq_some_iff.1 hn
    match i, hi with
    | 0, _ | 1, _ | 2, _ | 3, _ | 4, _ => cases hg
  entry hg := by simp at hg
  flagged {i next o os tail span} hn := by grind

/-- A node that leads to earlier ones may be added. -/
theorem add (h : c.Ordered) {n : Node} (hnext : ∀ j ∈ n.successors, j < c.nodes.size)
    (hgroup : ∀ g, n.group? = some g → g < c.groups.size)
    (htail : ∀ o os next tail span, n = .call o os next tail span → tail = c.isTail next) :
    (c.add n).2.Ordered where
  fixed := Nat.le_trans h.fixed (c.below_add n).size_le
  successor hm hj := by
    obtain hm | ⟨rfl, rfl⟩ := add_node_cases hm
    · exact h.successor hm hj
    · exact hnext _ hj
  bound {i g m} hm hg := by
    obtain hm | ⟨rfl, rfl⟩ := add_node_cases hm
    · exact h.bound hm hg
    · have hthere := Array.getElem?_eq_getElem (hgroup g hg)
      exact ⟨_, hthere, h.entry hthere⟩
  entry hg d hd := Nat.lt_of_lt_of_le (h.entry hg d hd) (c.below_add n).size_le
  flagged {i next o os tail span} hm := by
    obtain hm | ⟨rfl, rfl⟩ := add_node_cases hm
    · have hlt : next < c.nodes.size :=
        Nat.lt_trans (h.successor hm (mem_singleton_self next))
          (Array.getElem?_eq_some_iff.1 hm).1
      rw [h.flagged hm, h.returns_iff (c.below_add n) hlt]
    · rw [h.returns_iff (c.below_add _) (hnext next (mem_singleton_self next)), ← h.isTail_iff,
        htail _ _ _ _ _ rfl]

theorem addGroup (h : c.Ordered) (hdefs : ∀ d ∈ defs, d.entry < c.nodes.size) :
    (c.addGroup defs).2.Ordered where
  fixed := h.fixed
  successor := h.successor
  bound hn hg := by
    obtain ⟨ds, hds, hlt⟩ := h.bound hn hg
    exact ⟨ds, (c.below_addGroup defs).group hds, hlt⟩
  entry hg := by
    obtain hg | rfl := addGroup_cases hg
    · exact h.entry hg
    · exact hdefs
  flagged {i next o os tail span} hn := by
    have hlt : next < c.nodes.size :=
      Nat.lt_trans (h.successor hn (mem_singleton_self next))
        (Array.getElem?_eq_some_iff.1 hn).1
    rw [h.flagged hn, h.returns_iff (c.below_addGroup defs) hlt]

end Ordered
end Code

/-! ## Size -/

namespace Expr

/-- The number of nodes that an expression needs for itself. -/
def weight : Expr → Nat
  | .stop => 0
  | .value _ | .call .. | .field .. | .parallel .. | .atomic _ => 1
  | .sequential .. | .pruning .. | .otherwise .. | .declare .. => 2

/-- The number of nodes that the expressions at some places need. -/
def weights : List (Expr × Nat) → Nat
  | [] => 0
  | p :: ps => p.1.weight + weights ps

theorem weights_append (ps qs : List (Expr × Nat)) :
    weights (ps ++ qs) = weights ps + weights qs := by
  induction ps with
  | nil => simp [weights]
  | cons p ps ih => simp only [cons_append, weights, ih]; omega

/-! ## Lowering -/

variable {sites : Registry}

mutual

/-- Lowering keeps the order, starts the expression at a node and adds nodes for its places. -/
theorem lower_ordered : {e : Expr} → {next : Nat} → {depth : UInt64} → {c c' : Code} → {i : Nat} →
    (d : Nat) → e.lower sites next depth c = .ok (i, c') → c.Ordered → next < c.nodes.size →
    c'.Ordered ∧ i < c'.nodes.size ∧ c'.nodes.size = c.nodes.size + weights (e.places d)
  | .stop, next, depth, c, c', i, d, h, hc, hnext => by
    unfold lower at h
    cases h
    exact ⟨hc, Nat.lt_of_lt_of_le (by decide) hc.fixed, rfl⟩
  | .value a, next, depth, c, c', i, d, h, hc, hnext => by
    unfold lower at h
    obtain ⟨o, -, h⟩ := bind_ok h
    cases h
    exact ⟨hc.add (by simpa [Node.successors] using hnext) nofun nofun, Code.add_lt ..,
      by simp [places, weights, weight]⟩
  | .call target args span, next, depth, c, c', i, d, h, hc, hnext => by
    unfold lower at h
    obtain ⟨o, -, h⟩ := bind_ok h
    obtain ⟨os, -, h⟩ := bind_ok h
    cases h
    refine ⟨hc.add (by simpa [Node.successors] using hnext) nofun ?_, Code.add_lt ..,
      by simp [places, weights, weight]⟩
    rintro _ _ _ _ _ ⟨⟩
    rfl
  | .field target name, next, depth, c, c', i, d, h, hc, hnext => by
    unfold lower at h
    obtain ⟨o, -, h⟩ := bind_ok h
    cases h
    exact ⟨hc.add (by simpa [Node.successors] using hnext) nofun nofun, Code.add_lt ..,
      by simp [places, weights, weight]⟩
  | .parallel left right, next, depth, c, c', i, d, h, hc, hnext => by
    unfold lower at h
    obtain ⟨⟨l, c₁⟩, hl, h⟩ := bind_ok h
    obtain ⟨⟨r, c₂⟩, hr, h⟩ := bind_ok h
    cases h
    obtain ⟨hc₁, hl, hsize₁⟩ := lower_ordered d hl hc hnext
    obtain ⟨hc₂, hr, hsize₂⟩ := lower_ordered d hr hc₁ (by omega)
    refine ⟨hc₂.add ?_ nofun nofun, Code.add_lt .., ?_⟩
    · simp only [Node.successors, forall_mem_cons]
      exact ⟨by omega, hr, nofun⟩
    · simp only [Array.size_push, places, weights, weights_append, weight]
      omega
  | .sequential left right, next, depth, c, c', i, d, h, hc, hnext => by
    unfold lower at h
    obtain ⟨inner, -, h⟩ := bind_ok h
    obtain ⟨⟨r, c₁⟩, hr, h⟩ := bind_ok h
    have hpop := hc.add (n := .unwind 1 next) (by simpa [Node.successors] using hnext) nofun nofun
    obtain ⟨hc₁, hr, hsize₁⟩ := lower_ordered (d + 1) hr hpop (Code.add_lt ..)
    have hpush := hc₁.add (n := .push r) (by simpa [Node.successors] using hr) nofun nofun
    obtain ⟨hc₂, hl, hsize₂⟩ := lower_ordered d h hpush (Code.add_lt ..)
    grind [weights_append, places, weights, weight]
  | .pruning left right, next, depth, c, c', i, d, h, hc, hnext => by
    unfold lower at h
    obtain ⟨inner, -, h⟩ := bind_ok h
    obtain ⟨⟨l, c₁⟩, hl, h⟩ := bind_ok h
    obtain ⟨⟨r, c₂⟩, hr, h⟩ := bind_ok h
    cases h
    have hpop := hc.add (n := .unwind 1 next) (by simpa [Node.successors] using hnext) nofun nofun
    obtain ⟨hc₁, hl, hsize₁⟩ := lower_ordered (d + 1) hl hpop (Code.add_lt ..)
    obtain ⟨hc₂, hr, hsize₂⟩ := lower_ordered d hr hc₁ (Nat.lt_of_lt_of_le (by decide) hc₁.fixed)
    simp only [Array.size_push] at hsize₁
    refine ⟨hc₂.add ?_ nofun nofun, Code.add_lt .., ?_⟩
    · simp only [Node.successors, forall_mem_cons]
      exact ⟨by omega, hr, nofun⟩
    · simp only [Array.size_push, places, weights, weights_append, weight]
      omega
  | .otherwise left right, next, depth, c, c', i, d, h, hc, hnext => by
    unfold lower at h
    obtain ⟨⟨l, c₁⟩, hl, h⟩ := bind_ok h
    obtain ⟨⟨r, c₂⟩, hr, h⟩ := bind_ok h
    cases h
    have hescape := hc.add (n := .escape next) (by simpa [Node.successors] using hnext) nofun nofun
    obtain ⟨hc₁, hl, hsize₁⟩ := lower_ordered d hl hescape (Code.add_lt ..)
    simp only [Array.size_push] at hsize₁
    obtain ⟨hc₂, hr, hsize₂⟩ := lower_ordered d hr hc₁ (by omega)
    refine ⟨hc₂.add ?_ nofun nofun, Code.add_lt .., ?_⟩
    · simp only [Node.successors, forall_mem_cons]
      exact ⟨by omega, hr, nofun⟩
    · simp only [Array.size_push, places, weights, weights_append, weight]
      omega
  | .declare defs body, next, depth, c, c', i, d, h, hc, hnext => by
    unfold lower at h
    obtain ⟨inner, -, h⟩ := bind_ok h
    obtain ⟨⟨compiled, c₁⟩, hdefs, h⟩ := bind_ok h
    obtain ⟨⟨b, c₂⟩, hbody, h⟩ := bind_ok h
    cases h
    obtain ⟨hc₁, hentry, hsize₁⟩ := lowerDefs_ordered (d + defs.length) hdefs hc
    have hgroup := hc₁.addGroup hentry
    have hnext : next < (c₁.addGroup compiled).2.nodes.size := by
      show next < c₁.nodes.size
      omega
    have hpop := hgroup.add (n := .unwind defs.length next)
      (by simpa [Node.successors] using hnext) nofun nofun
    have hkept := (lower_lowered hbody).1
    obtain ⟨hc₂, hb, hsize₂⟩ := lower_ordered (d + defs.length) hbody hpop (Code.add_lt ..)
    refine ⟨hc₂.add (by simpa [Node.successors] using hb) ?_ nofun, Code.add_lt .., ?_⟩
    · rintro _ ⟨⟩
      exact (Array.getElem?_eq_some_iff.1 (Code.addGroup_group (.trans (Code.below_add ..) hkept))).1
    · grind [weights_append, places, weights, weight]
  | .atomic body, next, depth, c, c', i, d, h, hc, hnext => by
    unfold lower at h
    obtain ⟨⟨b, c₁⟩, hbody, h⟩ := bind_ok h
    cases h
    obtain ⟨hc₁, hb, hsize⟩ := lower_ordered d hbody hc (Nat.lt_of_lt_of_le (by decide) hc.fixed)
    refine ⟨hc₁.add ?_ nofun nofun, Code.add_lt .., ?_⟩
    · simp only [Node.successors, forall_mem_cons]
      exact ⟨hb, by omega, nofun⟩
    · simp only [Array.size_push, places, weights, weight]
      omega

theorem lowerDefs_ordered : {ds : List Definition} → {inner : UInt64} → {c c' : Code} →
    {compiled : List Def} → (d : Nat) → lowerDefs sites ds inner c = .ok (compiled, c') →
    c.Ordered →
    c'.Ordered ∧ (∀ m ∈ compiled, m.entry < c'.nodes.size) ∧
      c'.nodes.size = c.nodes.size + weights (placesIn ds d)
  | [], inner, c, c', compiled, d, h, hc => by
    unfold lowerDefs at h
    cases h
    exact ⟨hc, nofun, rfl⟩
  | .mk name arity body :: ds, inner, c, c', compiled, d, h, hc => by
    unfold lowerDefs at h
    obtain ⟨⟨first, c₁⟩, hfirst, h⟩ := bind_ok h
    obtain ⟨⟨rest, c₂⟩, hrest, h⟩ := bind_ok h
    cases h
    unfold lowerDef at hfirst
    obtain ⟨scope, -, hfirst⟩ := bind_ok hfirst
    obtain ⟨⟨entry, c₃⟩, hbody, hfirst⟩ := bind_ok hfirst
    cases hfirst
    obtain ⟨hc₁, hentry, hsize₁⟩ :=
      lower_ordered (d + arity.toNat) hbody hc (Nat.lt_of_lt_of_le (by decide) hc.fixed)
    obtain ⟨hc₂, hentries, hsize₂⟩ := lowerDefs_ordered d hrest hc₁
    refine ⟨hc₂, forall_mem_cons.2 ⟨?_, hentries⟩, ?_⟩
    · exact Nat.lt_of_lt_of_le hentry (lowerDefs_lowered hrest).1.size_le
    · simp only [placesIn, weights_append]
      omega

end

theorem compile_ordered {e : Expr} {p : Program} (h : e.compile sites = .ok p) :
    p.code.Ordered ∧ p.entry < p.code.nodes.size ∧
      p.code.nodes.size = 5 + weights (e.places 0) := by
  obtain ⟨⟨entry, code⟩, hlower, h⟩ := bind_ok h
  cases h
  exact lower_ordered 0 hlower .empty (by decide)

/-- Compiled code is closed, acyclic and as large as the program.  Nodes lead to earlier nodes, and
    so do the definitions they bind; hence following nodes comes to an end, and so does the search for
    tail calls, with the right answer.  The size is a sum over all expressions of the program. -/
theorem compile_layout {e : Expr} {p : Program} (h : e.compile sites = .ok p) :
    p.entry < p.code.nodes.size ∧
    (∀ (i : Nat) n, p.code.nodes[i]? = some n →
      (∀ j ∈ n.successors, j < i) ∧
      ∀ g, n.group? = some g → ∃ defs, p.code.groups[g]? = some defs ∧ ∀ d ∈ defs, d.entry < i) ∧
    (∀ (g : Nat) defs, p.code.groups[g]? = some defs → ∀ d ∈ defs, d.entry < p.code.nodes.size) ∧
    WellFounded (fun j i => j ∈ p.code.following i) ∧
    (∀ i, p.code.isTail i = true ↔ p.code.Returns i) ∧
    p.code.nodes.size = 5 + weights (e.places 0) := by
  obtain ⟨hordered, hentry, hsize⟩ := compile_ordered h
  refine ⟨hentry, fun i n hn => ⟨fun j hj => hordered.successor hn hj, fun g hg => hordered.bound hn hg⟩,
    fun g defs hg => hordered.entry hg, hordered.wellFounded_following,
    fun i => hordered.isTail_iff, hsize⟩

/-- `def f(x) = (x | f(x)) ; x` beside a call of `f`. -/
def echoing : Expr :=
  .declare
    [.mk "f" 1 (.otherwise
      (.parallel (.value (.variable 0)) (.call (.variable 1) [.variable 0] .none))
      (.value (.variable 0)))]
    (.parallel (.call (.variable 0) [.literal (.int 1)] .none) .stop)

/-- Its code has the five fixed nodes and ten more. -/
theorem compile_layout_echoing :
    ∃ p, echoing.compile {} = .ok p ∧ p.code.nodes.size = 15 ∧ weights (echoing.places 0) = 10 ∧
      WellFounded fun j i => j ∈ p.code.following i := by
  obtain ⟨p, h⟩ : ∃ p, echoing.compile {} = .ok p := ⟨_, rfl⟩
  obtain ⟨-, -, -, hacyclic, -, hsize⟩ := compile_layout h
  exact ⟨p, h, hsize, by decide, hacyclic⟩

end Expr
end Orchestra
