/-
  Alignment: what a token is killed with and what notices its end are the same scopes.

  Three structures grow and shrink side by side in a run: the tree of groups, the tree of regions,
  and the nesting of transactions.  Going up from a region to the regions around it and reading off
  what each stands for gives a list of scopes (`RegionKind.scope`).  In every state with nothing
  left to do that list is the group with all groups above it, none of them killed, and the
  transactions on the way are the lineage of the innermost one (`InLine`).

  `Core.in_line` shows it for all regions, by going up; tokens and the continuations that are kept
  each belong to a region.
-/
import Orchestra.Proofs.Run

namespace Orchestra

open List

variable {ω : Type} {m : Charter} {e : Engine ω} {reg : Region} {r : RegionId}

/-! ## Scopes -/

/-- A region and those around it, the innermost first. -/
inductive Enclosing (regions : Store .region Region) : RegionId → List Region → Prop where
  | outermost {r : RegionId} {reg : Region} (hr : regions.get? r = some reg)
    (hp : reg.parent = none) : Enclosing regions r [reg]
  | inside {r p : RegionId} {reg : Region} {regs : List Region} (hr : regions.get? r = some reg)
    (hp : reg.parent = some p) (h : Enclosing regions p regs) : Enclosing regions r (reg :: regs)

/-- A group and those above it, the innermost first. -/
inductive Ancestry (groups : Store .group Group) : GroupId → List GroupId → Prop where
  | outermost {g : GroupId} {grp : Group} (hg : groups.get? g = some grp)
    (hp : grp.parent = none) : Ancestry groups g [g]
  | under {g p : GroupId} {grp : Group} {gs : List GroupId} (hg : groups.get? g = some grp)
    (hp : grp.parent = some p) (h : Ancestry groups p gs) : Ancestry groups g (g :: gs)

namespace RegionKind

/-- The group that a region stands for. -/
def scope (transactions : Store .transaction Transaction) : RegionKind → List GroupId
  | .root => [rootGroup]
  | .pruning c => [c]
  | .otherwise _ _ => []
  | .transaction x | .votes x => ((transactions.get? x).map Transaction.group).toList

/-- The transaction that a region stands for. -/
def section? : RegionKind → List TxnId
  | .transaction x | .votes x => [x]
  | _ => []

end RegionKind

/-- The scopes around `region` are `group` with all groups above it, none of which is killed, and
    `txn` is the innermost of the transactions around `region`, which are its lineage. -/
structure InLine (e : Engine ω) (region : RegionId) (group : GroupId) (txn : Option TxnId)
    (regs : List Region) (gs : List GroupId) : Prop where
  enclosing : Enclosing e.regions region regs
  ancestry : Ancestry e.groups group gs
  scopes : regs.flatMap (fun reg => reg.kind.scope e.transactions) = gs
  alive : ∀ g ∈ gs, e.Alive g
  innermost : (regs.flatMap fun reg => reg.kind.section?).head? = txn
  lineage : ∀ x, txn = some x → ∃ record, e.transactions.get? x = some record ∧
    record.scope.lineage = regs.flatMap fun reg => reg.kind.section?

/-! ## Going up -/

namespace Core

/-- The scopes around a region are in line, and the transactions are those of the charter. -/
theorem enclosed (h : Core m e none) (ha : e.agenda = []) (hr : e.regions.get? r = some reg) :
    ∃ regs gs, Enclosing e.regions r regs ∧ Ancestry e.groups (m.group r) gs ∧
      regs.flatMap (fun reg => reg.kind.scope e.transactions) = gs ∧
      (∀ g ∈ gs, e.Alive g) ∧
      (regs.flatMap fun reg => reg.kind.section?) = m.lineage? (m.txn r) := by
  -- go up from region to region
  refine h.census.climb hr fun r reg hr up => ?_
  have hal := h.aligned
  obtain ⟨grp, hg, hk⟩ := h.region_alive (by simp [ha]) (by simp [ha]) (by simp [ha]) hr
  -- a region that stands for the group `m.group r` below `m.group p`
  have founded : ∀ {p gs}, m.above (m.group r) = some (m.group p) →
      Ancestry e.groups (m.group p) gs →
      (∀ g ∈ gs, e.Alive g) →
      Ancestry e.groups (m.group r) (m.group r :: gs) ∧ ∀ g ∈ m.group r :: gs, e.Alive g := by
    intro p gs habove hancestry halive
    refine ⟨.under hg (h.parent_above (by simp [ha]) hg hk habove) hancestry, ?_⟩
    grind
  cases hkind : reg.kind with
  | root =>
    obtain ⟨hparent, hgroup, htxn, -⟩ := hal.root hr hkind
    obtain ⟨rgrp, hroot, hrk, hrparent⟩ := h.kinship.root
    refine ⟨[reg], [rootGroup], .outermost hr hparent, ?_, ?_, ?_, ?_⟩
    · rw [hgroup]
      exact .outermost hroot hrparent
    · simp [hkind, RegionKind.scope]
    · intro g hm
      cases mem_singleton.1 hm
      exact ⟨rgrp, hroot, hrk⟩
    · simp [hkind, RegionKind.section?, htxn, Charter.lineage?]
  | pruning c =>
    obtain ⟨⟨p, hp, htxn, habove⟩, hgroup, -⟩ := hal.pruning hr hkind
    obtain ⟨regs, gs, hregs, hgs, hscopes, halive, hlineage⟩ := up hp
    obtain ⟨hancestry, halive⟩ := founded (hgroup ▸ habove) hgs halive
    refine ⟨reg :: regs, m.group r :: gs, .inside hr hp hregs, hancestry, ?_, halive, ?_⟩
    · rw [flatMap_cons, hscopes, hkind, hgroup]
      rfl
    · rw [flatMap_cons, hlineage, hkind, htxn]
      rfl
  | otherwise published k =>
    obtain ⟨hp, hkept, hgroup, htxn, -⟩ := hal.otherwise hr hkind
    obtain ⟨regs, gs, hregs, hgs, hscopes, halive, hlineage⟩ := up hp
    refine ⟨reg :: regs, gs, .inside hr hp hregs, ?_, ?_, halive, ?_⟩
    · rw [hgroup, ← hkept.group]
      exact hgs
    · rw [flatMap_cons, hscopes, hkind]
      rfl
    · rw [flatMap_cons, hlineage, hkind, htxn, hkept.txn]
      rfl
  | transaction x | votes x =>
    have hatomic : reg.kind.Serves x := by simp [hkind]
    obtain ⟨txn, hx, hp, hgroup, htxn⟩ := hal.atomic hr hatomic
    obtain ⟨hkept, habove, -, hparent, -⟩ := hal.transaction hx
    obtain ⟨regs, gs, hregs, hgs, hscopes, halive, hlineage⟩ := up hp
    obtain ⟨hancestry, halive⟩ := founded (by rw [hgroup, habove, hkept.group]) hgs halive
    refine ⟨reg :: regs, m.group r :: gs, .inside hr hp hregs, hancestry, ?_, halive, ?_⟩
    · rw [flatMap_cons, hscopes, hkind, hgroup]
      simp [RegionKind.scope, hx]
    · rw [flatMap_cons, hlineage, htxn, hkept.txn, ← hparent, hkind]
      exact (hal.scope hx).2.1.symm

/-- The scopes around a region are in line. -/
theorem in_line (h : Core m e none) (ha : e.agenda = []) (hr : e.regions.get? r = some reg) :
    ∃ regs gs, InLine e r (m.group r) (m.txn r) regs gs := by
  obtain ⟨regs, gs, hregs, hgs, hscopes, halive, hlineage⟩ := h.enclosed ha hr
  have hrecord : ∀ x, m.txn r = some x → ∃ record, e.transactions.get? x = some record ∧
      record.scope.lineage = m.lineage x ∧ m.lineage x = x :: m.lineage? record.parent := by
    intro x hx
    obtain ⟨record, hrecord⟩ := h.txn_of_region hr hx
    obtain ⟨hscope, hcons, -⟩ := h.aligned.scope hrecord
    exact ⟨record, hrecord, hscope, hcons⟩
  refine ⟨regs, gs, hregs, hgs, hscopes, halive, ?_, ?_⟩
  · rw [hlineage]
    cases htxn : m.txn r with
    | none => rfl
    | some x =>
      obtain ⟨record, -, -, hcons⟩ := hrecord x htxn
      show (m.lineage x).head? = _
      rw [hcons]
      rfl
  · intro x hx
    obtain ⟨record, hget, hscope, -⟩ := hrecord x hx
    refine ⟨record, hget, ?_⟩
    rw [hlineage, hx]
    exact hscope

end Core

/-- A transaction keeps a continuation in a region that is still there. -/
theorem Sections.continued (h : Sections m e none) (hcore : Core m e none) {x : TxnId}
    {txn : Transaction} (hx : e.transactions.get? x = some txn) :
    ∃ preg, e.regions.get? txn.continuation.region = some preg := by
  obtain ⟨r, reg, hr, hkind⟩ := (h.placed hx).resolve_right (by simp)
  obtain ⟨txn', hx', hp, -⟩ := hcore.aligned.atomic hr hkind
  cases hx.symm.trans hx'
  obtain ⟨preg, hpreg, -⟩ := hcore.census.parent_of hr hp
  exact ⟨preg, hpreg⟩

/-! ## Every state between two steps -/

/-- What a token is killed with and what notices its end stay aligned.  In every state with nothing
    left to do, the scopes around every token are in line, and so are those around the continuation
    of every `otherwise` and of every transaction; and a group has those tokens as members that
    name it.  All that is asked of the world outside is that votes are answered by votes. -/
theorem scopes_aligned (host : Host ω) (program : Program) (limit : Option Nat) (world : ω)
    {past : List (Engine (Logged ω))} {e : Engine (Logged ω)}
    (h : Run host program limit world past e) (hpolite : Polite e.world.log)
    (ha : e.agenda = []) :
    (∀ {t tok}, e.tokens.get? t = some tok →
      ∃ regs gs, InLine e tok.region tok.group tok.txn regs gs) ∧
    (∀ {r reg published k}, e.regions.get? r = some reg → reg.kind = .otherwise published k →
      ∃ regs gs, InLine e k.region k.group k.txn regs gs) ∧
    (∀ {x txn}, e.transactions.get? x = some txn → ∃ regs gs,
      InLine e txn.continuation.region txn.continuation.group txn.continuation.txn regs gs) ∧
    ∀ {g grp}, e.groups.get? g = some grp → grp.members.Nodup ∧
      ∀ t, t ∈ grp.members ↔ ∃ tok, e.tokens.get? t = some tok ∧ tok.group = g := by
  obtain ⟨m, hc, hs, -⟩ := h.sound hpolite
  have hcore := hc.core_of_idle ha
  rw [ha] at hs
  have kept : ∀ {k : Continuation} {preg}, Kept m e.regions k →
      e.regions.get? k.region = some preg → ∃ regs gs, InLine e k.region k.group k.txn regs gs := by
    intro k preg hkept hpreg
    rw [← hkept.group, ← hkept.txn]
    exact hcore.in_line ha hpreg
  refine ⟨?_, ?_, ?_, ?_⟩
  · intro t tok ht
    obtain ⟨reg, hr, -⟩ := hcore.census.region_of ht
    obtain ⟨hgroup, htxn⟩ := hcore.aligned.token ht
    rw [← hgroup, ← htxn]
    exact hcore.in_line ha hr
  · intro r reg published k hr hkind
    obtain ⟨hp, hkept, -⟩ := hcore.aligned.otherwise hr hkind
    obtain ⟨preg, hpreg, -⟩ := hcore.census.parent_of hr hp
    exact kept hkept hpreg
  · intro x txn hx
    obtain ⟨preg, hpreg⟩ := hs.continued hcore hx
    exact kept (hcore.aligned.transaction hx).1 hpreg
  · intro g grp hg
    refine ⟨hcore.kinship.members_nodup hg, fun t => ⟨hcore.kinship.member_of hg, ?_⟩⟩
    rintro ⟨tok, ht, rfl⟩
    obtain ⟨grp', hg', hmem⟩ := hcore.kinship.group_of ht
    cases hg.symm.trans hg'
    refine hmem (Bool.eq_false_iff.2 fun hk => ?_)
    have hdoomed := hcore.kinship.doomed hg hk
    rw [ha] at hdoomed
    cases hdoomed

/-- A run with a token that computes a cell inside a transaction. -/
theorem scopes_aligned_roundTrip : ∃ p past e tok,
    Expr.roundTrip.compile Registry.roundTrip = .ok p ∧ Run Host.echo p none () past e ∧
      Polite e.world.log ∧ e.agenda = [] ∧ e.tokens.get? ⟨2⟩ = some tok ∧ tok.group = ⟨2⟩ ∧
      tok.txn = some ⟨0⟩ ∧ ∃ regs gs, InLine e tok.region tok.group tok.txn regs gs := by
  obtain ⟨p, past, e, hp, hrun, hcheck⟩ := Run.compiled Expr.roundTrip Registry.roundTrip
    Host.echo none () 16 (fun e => decide (Polite e.world.log) && e.agenda.isEmpty &&
      (e.tokens.get? ⟨2⟩).any fun tok => tok.group = ⟨2⟩ && tok.txn = some ⟨0⟩)
    ⟨_, rfl, by decide +kernel⟩
  simp only [Bool.and_eq_true, decide_eq_true_eq, List.isEmpty_iff, Option.any_eq_true] at hcheck
  obtain ⟨⟨hpolite, ha⟩, tok, ht, hgroup, htxn⟩ := hcheck
  exact ⟨p, past, e, tok, hp, hrun, hpolite, ha, ht, hgroup, htxn,
    (scopes_aligned _ _ _ _ hrun hpolite ha).1 ht⟩

end Orchestra
