/-
  Batches: how the publications of a transaction leave it.

  A commit plans to let go what the transaction has held back.  Before that it forgets the
  transaction and kills its group, which is empty by then: `barren` finds no token and no group
  alive below it.  So what is planned in between does nothing (`Lead`), and the publications leave
  in one go, each as a token of its own, unless the group around has been killed (`Delivers`).

  Over a whole run, what is released is what the commits let go, batch after batch, and nothing
  else (`Batches.released`).
-/
import Orchestra.Proofs.Run

namespace Orchestra

open Engine List

variable {ω : Type} {m : Charter} {host : Host ω} {past : List (Engine ω)} {e e' e₁ : Engine ω}
  {a : Chore} {k : Continuation} {grp : Group} {g : GroupId} {agenda lead rest : List Chore}
  {reg : Region} {txn : Transaction} {x : TxnId}

/-! ## An empty group -/

/-- A group that is gone or killed. -/
def Engine.Dead (e : Engine ω) (g : GroupId) : Prop :=
  ∀ grp, e.groups.get? g = some grp → grp.killed = true

namespace Coherent

variable {x : TxnId} {txn : Transaction}

/-- Once the votes on a transaction are in, no region belongs to its group. -/
theorem no_region (h : Coherent m (e.plan [.verify x])) (hx : e.transactions.get? x = some txn)
    (hg : e.groups.get? txn.group = some grp) {r : RegionId} (hr : e.regions.get? r = some reg) :
    m.group r ≠ txn.group := by
  have hcensus : Census e.tokens e.regions _ none := h.core.census
  have hal : Aligned m e.tokens e.groups e.regions e.transactions := h.core.aligned
  have hkind := (hal.transaction hx).2.2.2.2 grp hg
  -- go up from region to region
  refine hcensus.climb hr fun r reg hr up heq => ?_
  cases hrkind : reg.kind with
  | root =>
    rw [(hal.root hr hrkind).2.1] at heq
    exact hal.group_ne_root hx heq
  | pruning c =>
    obtain ⟨-, hgroup, -, -, hcell⟩ := hal.pruning hr hrkind
    grind
  | otherwise published k =>
    obtain ⟨hp, hkept, hgroup, -⟩ := hal.otherwise hr hrkind
    refine up hp ?_
    rw [hkept.group, ← hgroup]
    exact heq
  | transaction y | votes y =>
    have hatomic : reg.kind.Serves y := by simp [hrkind]
    obtain ⟨ytxn, hy, -, hgroup, -⟩ := hal.atomic hr hatomic
    have hykind := (hal.transaction hy).2.2.2.2 grp (by rw [← hgroup, heq]; exact hg)
    rw [hkind] at hykind
    cases hykind
    exact h.cleared (.inr (.inl mem_cons_self)) hr hatomic

/-- So the group has no members, and all groups below it are dead. -/
theorem barren (h : Coherent m (e.plan [.verify x]))
    (hs : Sections m (e.plan [.verify x]) (some (.verify x)))
    (hx : e.transactions.get? x = some txn) (hg : e.groups.get? txn.group = some grp) :
    grp.members = [] ∧ ∀ c ∈ grp.children, e.Dead c := by
  have hcore : Core m (e.plan [.verify x]) none := h.core
  have hal : Aligned m e.tokens e.groups e.regions e.transactions := hcore.aligned
  have hnone : ∀ {r reg}, e.regions.get? r = some reg → m.group r ≠ txn.group := h.no_region hx hg
  constructor
  · rw [eq_nil_iff_forall_not_mem]
    intro t hm
    obtain ⟨tok, ht, hgroup⟩ := hcore.kinship.member_of hg hm
    obtain ⟨reg, hr, -⟩ := hcore.census.region_of ht
    exact hnone hr ((hal.token ht).1.trans hgroup)
  · intro c hc cgrp hcg
    obtain ⟨cgrp', hcg', hparent⟩ := hcore.kinship.child_of hg hc
    cases hcg.symm.trans hcg'
    refine Decidable.byContradiction fun hk => ?_
    have hk : cgrp.killed = false := Bool.eq_false_iff.2 hk
    have habove : m.above c = some txn.group := by grind [Aligned.above]
    have hyoung := hcore.kinship.older hcg hparent
    cases hckind : cgrp.kind with
    | root =>
      obtain ⟨rgrp, hroot, -, hrparent⟩ := hcore.kinship.root
      grind [Sections.rooted]
    | cell ws r =>
      rcases hs.cell hcg hk hckind with ⟨reg, hr⟩ | ⟨p, hm, hpabove, -⟩
      · obtain ⟨⟨p, hp, -, hpabove⟩, -⟩ := hal.pruning hr ((hal.cell hcg hckind).2.2 reg hr)
        obtain ⟨preg, hpreg, -⟩ := hcore.census.parent_of hr hp
        rw [habove] at hpabove
        exact hnone hpreg (Option.some.inj hpabove).symm
      · obtain ⟨-, preg, hpreg, -⟩ := hcore.census.gone (mem_detaches.2 hm)
        rw [habove] at hpabove
        exact hnone hpreg (Option.some.inj hpabove).symm
    | transaction y =>
      obtain ⟨ytxn, hy⟩ := (hs.owned hcg hk hckind).resolve_right (by simp)
      have hygroup := (hal.txn_group hcg hckind).2 ytxn hy
      rcases hs.placed hy with ⟨r, reg, hr, hrkind⟩ | htop
      · obtain ⟨ytxn', hy', hp, -⟩ := hal.atomic hr hrkind
        cases hy.symm.trans hy'
        obtain ⟨preg, hpreg, -⟩ := hcore.census.parent_of hr hp
        obtain ⟨hkept, hyabove, -⟩ := hal.transaction hy
        rw [hygroup, habove] at hyabove
        exact hnone hpreg (hkept.group.trans (Option.some.inj hyabove).symm)
      · -- the transaction on top is not below itself
        have hsame : x = y := by simpa using htop
        subst hsame
        cases hx.symm.trans hy
        rw [hygroup] at hyoung
        exact Nat.lt_irrefl _ hyoung

end Coherent

/-! ## What a commit still has to do before it lets go -/

/-- Chores that end a transaction whose group is barren. -/
inductive Lead (e : Engine ω) (x : TxnId) (g : GroupId) : List Chore → Prop where
  | retire {txn : Transaction} {grp : Group} (hx : e.transactions.get? x = some txn)
    (hgroup : txn.group = g) (hg : e.groups.get? g = some grp) (hk : grp.killed = false)
    (hkind : grp.kind = .transaction x) (hmembers : grp.members = [])
    (hchildren : ∀ c ∈ grp.children, e.Dead c) : Lead e x g [.retire x]
  | kill {grp : Group} (hx : e.transactions.get? x = none) (hg : e.groups.get? g = some grp)
    (hk : grp.killed = false) (hkind : grp.kind = .transaction x) (hmembers : grp.members = [])
    (hchildren : ∀ c ∈ grp.children, e.Dead c) : Lead e x g [.killGroup g]
  | abort (hx : e.transactions.get? x = none) {cs : List GroupId} (hcs : ∀ c ∈ cs, e.Dead c) :
    Lead e x g (.abort x :: .removeGroup g :: cs.map .killGroup)
  | remove {cs : List GroupId} (hcs : ∀ c ∈ cs, e.Dead c) :
    Lead e x g (.removeGroup g :: cs.map .killGroup)
  | children {cs : List GroupId} (hcs : ∀ c ∈ cs, e.Dead c) : Lead e x g (cs.map .killGroup)

/-- The publications that an agenda is to let go. -/
def releases (agenda : List Chore) : List (Continuation × Value) :=
  agenda.filterMap fun
    | .release k v => some (k, v)
    | _ => none

@[simp]
theorem releases_append (new agenda : List Chore) :
    releases (new ++ agenda) = releases new ++ releases agenda := filterMap_append

theorem mem_releases {v : Value} : (k, v) ∈ releases agenda ↔ .release k v ∈ agenda := by
  grind [releases]

theorem releases_eq_nil (h : ∀ k v, .release k v ∉ agenda) : releases agenda = [] := by
  rw [eq_nil_iff_forall_not_mem]
  rintro ⟨k, v⟩ hm
  exact h k v (mem_releases.1 hm)

theorem releases_map (k : Continuation) (vs : List Value) :
    releases (vs.map (.release k)) = vs.map (k, ·) := by
  induction vs with
  | nil => rfl
  | cons v vs ih =>
    rw [map_cons, map_cons, ← ih]
    rfl

/-- Only groups and transactions matter. -/
theorem Lead.congr (h : Lead e x g lead) (hgroups : e'.groups = e.groups)
    (htxns : e'.transactions = e.transactions) : Lead e' x g lead := by
  have hdead : ∀ {c}, e.Dead c → e'.Dead c := fun hc grp hg => hc grp (hgroups ▸ hg)
  cases h with
  | retire hx hgroup hg hk hkind hmembers hchildren =>
    exact .retire (htxns ▸ hx) hgroup (hgroups ▸ hg) hk hkind hmembers fun c hc =>
      hdead (hchildren c hc)
  | kill hx hg hk hkind hmembers hchildren =>
    exact .kill (htxns ▸ hx) (hgroups ▸ hg) hk hkind hmembers fun c hc => hdead (hchildren c hc)
  | abort hx hcs => exact .abort (htxns ▸ hx) fun c hc => hdead (hcs c hc)
  | remove hcs => exact .remove fun c hc => hdead (hcs c hc)
  | children hcs => exact .children fun c hc => hdead (hcs c hc)

theorem Lead.nil (x : TxnId) (g : GroupId) : Lead e x g [] := by
  have hnone : ∀ c ∈ ([] : List GroupId), e.Dead c := by simp
  exact .children hnone

namespace Engine

/-- The publication that the next turn lets go. -/
def releasing (e : Engine ω) : List (Continuation × Value) := releases e.agenda.head?.toList

/-- What the next turn plans to let go: all that a transaction holds, if the turn commits one. -/
def batch (e : Engine ω) : List (Continuation × Value) :=
  match e.agenda with
  | .verify x :: _ =>
    match e.transactions.get? x with
    | some txn =>
      if txn.state = .readying then txn.publications.map (txn.continuation, ·) else []
    | none => []
  | _ => []

theorem batch_of_commits (h : e.Commits x) (hx : e.transactions.get? x = some txn) :
    e.batch = txn.publications.map (txn.continuation, ·) := by
  obtain ⟨txn', rest, hagenda, hx', hstate⟩ := h
  cases hx.symm.trans hx'
  simp only [batch, hagenda, hx, if_pos hstate]

theorem batch_eq_nil (h : ∀ x, e.agenda.head? ≠ some (.verify x)) : e.batch = [] := by grind [batch]

end Engine

/-- What is to be let go stands together, behind chores that end a transaction and do nothing else.
    `rest` is what was to be done after the commit; the region that the publications go to cannot
    be gone before that. -/
structure Delivers (e : Engine ω) (x : TxnId) (g : GroupId) (lead : List Chore) (k : Continuation)
    (vs : List Value) (rest : List Chore) : Prop where
  agenda : e.agenda = lead ++ (vs.map (.release k) ++ rest)
  leads : Lead e x g lead
  seated : ∃ c, .detach k.region c ∈ rest
  last : releases rest = []

/-- A commit of the transaction `x` has planned to let go `vs`, the last of what it held, and
    `rest` was to be done after it. -/
def Origin (past : List (Engine ω)) (x : TxnId) (k : Continuation) (vs : List Value)
    (rest : List Chore) : Prop :=
  ∃ e₁ ∈ past, ∃ txn, e₁.agenda = .verify x :: rest ∧ e₁.transactions.get? x = some txn ∧
    txn.state = .readying ∧ txn.continuation = k ∧ vs <:+ txn.publications

theorem Origin.remember {vs : List Value} (h : Origin past x k vs rest) (e : Engine ω) :
    Origin (past ++ [e]) x k vs rest := by
  obtain ⟨e₁, he₁, hcommit⟩ := h
  exact ⟨e₁, mem_append_left _ he₁, hcommit⟩

/-- What a run has let go so far and still has to is what its commits planned to let go. -/
structure Batches (past : List (Engine ω)) (e : Engine ω) : Prop where
  released : past.flatMap Engine.releasing ++ releases e.agenda = past.flatMap Engine.batch
  /-- What is still to be let go is the rest of one batch. -/
  shape : releases e.agenda ≠ [] → ∃ x g lead k vs rest, Delivers e x g lead k vs rest ∧
    Origin past x k vs rest

namespace Batches

/-- A turn that neither commits nor lets go. -/
theorem remember (h : Batches past e) (hreleasing : e.releasing = []) (hbatch : e.batch = [])
    (hsame : releases e'.agenda = releases e.agenda)
    (hshape : ∀ {x g lead k vs rest}, releases e.agenda ≠ [] → Delivers e x g lead k vs rest →
      ∃ lead', Delivers e' x g lead' k vs rest) : Batches (past ++ [e]) e' := by
  constructor
  · rw [hsame]
    simpa [hreleasing, hbatch] using h.released
  · grind [shape, Origin.remember]

end Batches

/-- Only a commit plans to let something go. -/
theorem Engine.perform_releases (he' : e.perform host a = .ok e')
    (hverify : ∀ x txn, a = .verify x → e.transactions.get? x = some txn → txn.state ≠ .readying) :
    releases e'.agenda = releases e.agenda := by
  have planned : ∀ {new : List Chore}, (∀ k v, .release k v ∉ new) →
      releases (new ++ e.agenda) = releases e.agenda := by
    intro new hnew
    rw [releases_append, releases_eq_nil hnew, nil_append]
  cases performed he' with
  | killToken | detach =>
    refine planned fun k v hm => ?_
    split at hm <;> simp at hm
  | @quiesce r reg =>
    have hdetach : releases (reg.farewell r ++ e.agenda) =
        releases e.agenda := planned (by cases reg.parent <;> simp)
    unfold vacated react
    cases reg.kind with
    | root => exact hdetach
    | pruning c => exact hdetach
    | otherwise published k =>
      dsimp only
      split
      · exact hdetach
      · rw [spawnReady_agenda]
        exact hdetach
    | transaction x => exact hdetach
    | votes x => exact hdetach
  | closed => exact planned (by simp)
  | @killGroup g grp =>
    refine planned fun k v hm => ?_
    cases hkind : grp.kind <;> simp [abortFor, hkind] at hm
  | prepare =>
    show releases (.settle _ :: (askVotes ..).agenda) = _
    rw [askVotes_agenda]
    rfl
  | verify hx hstate => exact absurd hstate (hverify _ _ rfl hx)
  | release =>
    rw [spawnReady_agenda]
  | abort => exact planned (by simp)
  | _ => rfl

namespace Delivers

variable {x : TxnId} {g : GroupId} {lead rest : List Chore} {k : Continuation} {vs : List Value}

/-- Chores that end a transaction do nothing else. -/
theorem perform (h : Delivers (e.plan [a]) x g (a :: lead) k vs rest)
    (he' : e.perform host a = .ok e') : ∃ lead', Delivers e' x g lead' k vs rest ∧
      e'.tokens = e.tokens ∧ e'.ready = e.ready ∧ e'.world = e.world := by
  have hagenda : e.agenda = lead ++ (vs.map (.release k) ++ rest) := (List.cons.inj h.agenda).2
  have hlead := h.leads
  generalize hfull : a :: lead = full at hlead
  cases hlead with
  | retire hx hgroup hg hk hkind hmembers hchildren =>
    cases hfull
    cases Engine.performed he' with
    | retired hx' =>
      rw [show e.transactions.get? x = some _ from hx] at hx'
      cases hx'
    | retire hx' =>
      cases hx.symm.trans hx'
      subst hgroup
      refine ⟨[.killGroup _], ⟨?_, .kill ?_ hg hk hkind hmembers hchildren, h.seated, h.last⟩,
        rfl, rfl, rfl⟩
      · rw [retiring, plan, hagenda]
        rfl
      · exact Store.get?_remove_self ..
  | kill hx hg hk hkind hmembers hchildren =>
    cases hfull
    cases Engine.performed he' with
    | dead hdead =>
      rw [hdead _ hg] at hk
      cases hk
    | killGroup hg' =>
      cases hg.symm.trans hg'
      rename_i grp _
      refine ⟨.abort x :: .removeGroup g :: grp.children.reverse.map .killGroup,
        ⟨?_, .abort ?_ ?_, h.seated, h.last⟩, rfl, rfl, rfl⟩
      · rw [condemned, hkind, hmembers, plan, onGroup, hagenda]
        rfl
      · exact hx
      · intro c hc cgrp (hcg : (e.groups.modify g _).get? c = some cgrp)
        rcases Store.modified hcg with ⟨-, old, -, rfl⟩ | ⟨-, hcg⟩
        · rfl
        · exact hchildren c (mem_reverse.1 hc) cgrp hcg
  | abort hx hcs =>
    cases hfull
    cases Engine.performed he' with
    | abortLate => exact ⟨_, ⟨hagenda, .remove hcs, h.seated, h.last⟩, rfl, rfl, rfl⟩
    | abort hx' =>
      rw [show e.transactions.get? x = none from hx] at hx'
      cases hx'
  | remove hcs =>
    cases hfull
    cases Engine.performed he' with
    | removed => exact ⟨_, ⟨hagenda, .children hcs, h.seated, h.last⟩, rfl, rfl, rfl⟩
    | removeGroup hg =>
      refine ⟨_, ⟨hagenda, .children fun c hc cgrp hcg => ?_, h.seated, h.last⟩, rfl, rfl, rfl⟩
      obtain ⟨-, old, hold, hkindred⟩ := Group.forgotten_from hcg
      rw [hkindred.killed]
      exact hcs c hc old hold
  | @children cs hcs =>
    cases cs with
    | nil => cases hfull
    | cons c cs =>
      cases hfull
      cases Engine.performed he' with
      | dead =>
        refine ⟨_, ⟨hagenda, .children fun c' hc' => ?_, h.seated, h.last⟩, rfl, rfl, rfl⟩
        exact hcs c' (mem_cons_of_mem _ hc')
      | killGroup hg hk =>
        rw [hcs c mem_cons_self _ hg] at hk
        cases hk

/-- The first chore of those before the publications neither commits nor lets go. -/
theorem first (h : Delivers e x g (a :: lead) k vs rest) :
    (∀ y, a ≠ .verify y) ∧ releases [a] = [] := by
  have hlead := h.leads
  generalize hfull : a :: lead = full at hlead
  cases hlead with
  | retire | kill | abort | remove =>
    cases hfull
    exact ⟨by simp, rfl⟩
  | @children cs =>
    cases cs with
    | nil => cases hfull
    | cons c cs =>
      cases hfull
      exact ⟨by simp, rfl⟩

end Delivers

namespace Batches

/-- A commit plans to let go all that the transaction holds. -/
theorem commit (h : Batches past (e.plan [.verify x])) (hnone : releases e.agenda = [])
    (hc : Coherent m (e.plan [.verify x])) (hs : Sections m (e.plan [.verify x]) (some (.verify x)))
    (hx : e.transactions.get? x = some txn) (hstate : txn.state = .readying) :
    Batches (past ++ [e.plan [.verify x]]) (e.concluded host x txn) := by
  have hal : Aligned m e.tokens e.groups e.regions e.transactions := hc.core.aligned
  have hagenda : (e.concluded host x txn).agenda =
      [.retire x] ++ (txn.publications.map (.release txn.continuation) ++ e.agenda) := rfl
  have hplanned : releases (e.concluded host x txn).agenda =
      txn.publications.map (txn.continuation, ·) := by
    rw [hagenda, releases_append, releases_append, releases_map, hnone, append_nil]
    rfl
  refine ⟨?_, fun _ => ⟨x, txn.group, [.retire x], txn.continuation, txn.publications, e.agenda,
    ⟨hagenda, ?_, ?_, hnone⟩, _, mem_append_right _ mem_cons_self, txn, rfl, hx, hstate, rfl,
    suffix_rfl⟩⟩
  · have hreleasing : (e.plan [.verify x]).releasing = [] := rfl
    have hbatch : (e.plan [.verify x]).batch = txn.publications.map (txn.continuation, ·) :=
      batch_of_commits ⟨txn, e.agenda, rfl, hx, hstate⟩ hx
    have hold : past.flatMap releasing = past.flatMap batch := by
      have hreleased := h.released
      have hplan : releases (e.plan [.verify x]).agenda = [] := hnone
      rwa [hplan, append_nil] at hreleased
    grind
  · -- the transaction is done, and nothing is left in its group
    obtain ⟨grp, hg, hk⟩ := (hs.alive hx (.inr hstate)).resolve_right (by simp)
    obtain ⟨hmembers, hchildren⟩ := hc.barren hs hx hg
    obtain ⟨txn', hx'⟩ : ∃ txn', (e.committed host x txn).transactions.get? x = some txn' :=
      committed_kept host hx
    have hself : txn.parent ≠ some x := by
      intro hparent
      exact Nat.lt_irrefl _ ((hal.scope hx).2.2 x hparent)
    have hdone : txn' = { txn with state := .done, publications := [] } := by
      grind [committed_from]
    exact .retire hx' (by rw [hdone]) hg hk ((hal.transaction hx).2.2.2.2 grp hg) hmembers hchildren
  · obtain ⟨c, hm⟩ := hc.seated (.inr mem_cons_self) hx
    exact ⟨c, (mem_cons.1 hm).resolve_left (by simp)⟩

/-- Every chore keeps the batches together. -/
theorem perform (h : Batches past (e.plan [a])) (hc : Coherent m (e.plan [a]))
    (hs : Sections m (e.plan [a]) (some a)) (he' : e.perform host a = .ok e') :
    Batches (past ++ [e.plan [a]]) e' := by
  have hsplit : releases (e.plan [a]).agenda = releases [a] ++ releases e.agenda :=
    releases_append [a] e.agenda
  by_cases hpending : releases (e.plan [a]).agenda = []
  · have hnone : releases e.agenda = [] := (append_eq_nil_iff.1 (hsplit ▸ hpending)).2
    have hfirst : releases [a] = [] := (append_eq_nil_iff.1 (hsplit ▸ hpending)).1
    by_cases hcommit : ∃ x txn, a = .verify x ∧ e.transactions.get? x = some txn ∧
        txn.state = .readying
    · obtain ⟨x, txn, rfl, hx, hstate⟩ := hcommit
      have he' : e' = e.verify host x := (Except.ok.inj he').symm
      rw [he', verify_eq host hx hstate]
      exact h.commit hnone hc hs hx hstate
    · have hsame := perform_releases he' fun x txn ha hx hstate =>
        hcommit ⟨x, txn, ha, hx, hstate⟩
      refine h.remember hfirst ?_ (by rw [hsame, hnone, hpending]) fun hne _ => absurd hpending hne
      unfold batch
      split
      · rename_i x rest hagenda
        cases hagenda
        split
        · rename_i txn hx
          rw [if_neg fun hstate => hcommit ⟨x, txn, rfl, hx, hstate⟩]
        · rfl
      · rfl
  · obtain ⟨x, g, lead, k, vs, rest, hdelivers, horigin⟩ := h.shape hpending
    cases lead with
    | cons b lead =>
      cases (List.cons.inj hdelivers.agenda).1
      obtain ⟨hverify, hfirst⟩ := hdelivers.first
      have hsame := perform_releases he' fun x txn ha _ => absurd ha (hverify x)
      have hsame : releases e'.agenda = releases (e.plan [a]).agenda := by
        rw [hsame, hsplit, hfirst]
        rfl
      obtain ⟨lead', hdelivers', -⟩ := hdelivers.perform he'
      refine ⟨?_, fun _ => ⟨x, g, lead', k, vs, rest, hdelivers', horigin.remember _⟩⟩
      have hbatch : (e.plan [a]).batch = [] :=
        batch_eq_nil fun y hy => hverify y (Option.some.inj hy)
      have hreleasing : (e.plan [a]).releasing = [] := hfirst
      rw [hsame]
      simpa [hreleasing, hbatch] using h.released
    | nil =>
      have hagenda : a :: e.agenda = vs.map (.release k) ++ rest := hdelivers.agenda
      cases vs with
      | nil =>
        refine absurd ?_ hpending
        show releases (a :: e.agenda) = []
        rw [hagenda]
        exact hdelivers.last
      | cons v vs =>
        cases (List.cons.inj hagenda).1
        have hrest : e.agenda = vs.map (.release k) ++ rest := (List.cons.inj hagenda).2
        have he' : e' = e.spawnReady (k.resume v) := (Except.ok.inj he').symm
        have hagenda' : e'.agenda = e.agenda := by rw [he', spawnReady_agenda]
        obtain ⟨e₁, he₁, txn, ha₁, hx₁, hstate, hk, hsuffix⟩ := horigin.remember (e.plan [.release k v])
        refine ⟨?_, fun _ => ⟨x, g, [], k, vs, rest, ⟨by rw [hagenda', hrest]; rfl,
          .nil x g, hdelivers.seated, hdelivers.last⟩, e₁, he₁, txn, ha₁, hx₁, hstate,
          hk, (suffix_cons v vs).trans hsuffix⟩⟩
        grind [released, releasing, batch, plan]

/-- A turn without a chore lets nothing go. -/
theorem calm (h : Batches past e) (ha : e.agenda = []) (hnone : releases e'.agenda = []) :
    Batches (past ++ [e]) e' := by
  refine h.remember (by rw [releasing, ha]; rfl) (batch_eq_nil (by simp [ha])) ?_ ?_
  · rw [hnone, ha]
    rfl
  · intro x g lead k vs rest hne
    rw [ha] at hne
    exact absurd rfl hne

/-- Every turn keeps the batches together. -/
theorem turn (h : Batches past e) (hc : Coherent m e) (hs : Sections m e e.agenda.head?)
    {p : Progress ω} (hp : e.turn host = .ok p) : Batches (past ++ [e]) p.state := by
  cases turned hp with
  | chore he he' =>
    subst he
    exact h.perform hc hs he'
  | done ha => exact h.calm ha (by rw [Progress.state, ha]; rfl)
  | skip ha => exact h.calm ha (by rw [Progress.state, ha]; rfl)
  | step ha hh hready ht hphase hnode he' =>
    rename_i ready _ _
    obtain ⟨mail, notices, hf⟩ := hc.footprint ha ht hphase he'
    exact h.calm ha (releases_eq_nil fun k v hm => hf.follows _ hm)
  | message ha =>
    refine h.calm ha (releases_eq_nil fun k v hm => ?_)
    rcases receive_agenda _ hm with hm | ⟨t, heq⟩ | ⟨x, heq⟩
    · rw [show _ = [] from ha] at hm
      cases hm
    · cases heq
    · cases heq
  | idle ha => exact h.calm ha (by rw [idle_agenda, ha]; rfl)

end Batches

/-! ## What a release does -/

/-- A publication that is let go becomes a token of its own, unless the group around is dead. -/
theorem Engine.turn_release {v : Value} (ha : e.agenda = .release k v :: rest)
    (hr : e.regions.get? k.region = some reg) (hopen : reg.closed = false) :
    ∃ e', e.turn host = .ok (.next e') ∧ (e.Alive k.group →
        e'.tokens = e.tokens.insert (k.resume v) ∧ e'.ready = e.ready ++ [e.tokens.next]) ∧
      (e.Dead k.group → e' = { e with agenda := rest }) := by
  have hturn : e.turn host = .ok (.next ({ e with agenda := rest }.spawnReady (k.resume v))) := by
    unfold turn
    rw [ha]
    rfl
  refine ⟨_, hturn, ?_, ?_⟩
  · rintro ⟨grp, hg, hk⟩
    obtain ⟨e₁, hs⟩ : ∃ e₁, { e with agenda := rest }.spawn (k.resume v) = some (e.tokens.next, e₁) :=
      spawn_isSome hg hk hr hopen
    obtain ⟨-, -, -, he₁⟩ := spawn_eq_some hs
    grind [spawnReady, enqueue]
  · intro hdead
    have hrefused : { e with agenda := rest }.spawn (k.resume v) = none := by
      cases hs : { e with agenda := rest }.spawn (k.resume v) with
      | none => rfl
      | some p =>
        obtain ⟨-, ⟨grp, hg, hk⟩, -⟩ := spawn_eq_some hs
        rw [hdead grp hg] at hk
        cases hk
    unfold spawnReady
    rw [hrefused]

/-! ## Atomic commitment -/

section Commitment

variable {past : History ω} {e : Engine (Logged ω)}

/-- The next turn decides a transaction. -/
def Engine.Decides (x : TxnId) (e : Engine (Logged ω)) : Prop := e.Commits x ∨ e.Aborts x

/-- What the cohorts of a transaction have seen of it. -/
structure Committed (past : History ω) (e : Engine (Logged ω)) (x : TxnId) :
    Prop where
  asked_once : ∀ c, e.world.log.countP (Entry.asks c x) ≤ 1
  decided_once : past.Pairwise fun e₁ e₂ => e₁.Decides x → ¬e₂.Decides x
  undecided : (∀ e₁ ∈ past, ¬e₁.Decides x) → ∀ c,
    e.world.log.countP (Entry.confirms c x) = 0 ∧ e.world.log.countP (Entry.rollsBack c x) = 0
  committed : ∀ e₁ ∈ past, e₁.Commits x → ∀ c, Enlisted e.world.log c x →
    e.world.log.countP (Entry.confirms c x) = 1 ∧ e.world.log.countP (Entry.rollsBack c x) = 0
  /-- The cohorts are told of an abort before anything else happens. -/
  aborted : ∀ e₁ ∈ past, e₁.Aborts x → ∀ c, Enlisted e.world.log c x →
    e.world.log.countP (Entry.confirms c x) = 0 ∧
      e.world.log.countP (Entry.rollsBack c x) ≤ 1 ∧
      (e.agenda = [] → e.world.log.countP (Entry.rollsBack c x) = 1)
  /-- Before any cohort is told of a commit, all have voted for it. -/
  unanimous : ∀ {before after c s}, e.world.log = before ++ .confirmed c s :: after → s.id = x →
    ∀ c', Enlisted e.world.log c' x → ∃ vote, Asked before c' x vote ∧ Answered before vote

/-- What a run has done with the publications that were held back. -/
structure Delivered (host : Host ω) (past : History ω) (e : Engine (Logged ω)) :
    Prop where
  /-- What was let go, and what is about to be, is what the commits planned, batch after batch. -/
  released : past.flatMap Engine.releasing ++ releases e.agenda = past.flatMap Engine.batch
  /-- A commit plans to let go everything that was ever held back, in that order, and has told all
      cohorts by then. -/
  whole : ∀ e₁ ∈ past, ∀ x, e₁.Commits x → ∃ txn, e₁.transactions.get? x = some txn ∧
    e₁.batch = (bufferedFor x past).map (txn.continuation, ·) ∧
      ∀ c, Enlisted e.world.log c x → ∃ s, s.id = x ∧ .confirmed c s ∈ e.world.log
  /-- Until the last of a batch is let go, nothing else happens to any token or to the world. -/
  together : releases e.agenda ≠ [] → ∃ e₁ ∈ past, ∃ x txn lead vs rest,
    e₁.Commits x ∧ e₁.transactions.get? x = some txn ∧ vs <:+ txn.publications ∧
      e₁.agenda = .verify x :: rest ∧
      e.agenda = lead ++ (vs.map (.release txn.continuation) ++ rest) ∧
      (lead ≠ [] → ∃ e', e.turn host.logged = .ok (.next e') ∧ e'.tokens = e.tokens ∧
        e'.ready = e.ready ∧ e'.world = e.world)
  /-- What is let go becomes a token of its own, unless the group around is dead. -/
  each : ∀ {k v rest}, e.agenda = .release k v :: rest → ∃ e', e.turn host.logged = .ok (.next e') ∧
    (e.Alive k.group →
      e'.tokens = e.tokens.insert (k.resume v) ∧ e'.ready = e.ready ++ [e.tokens.next]) ∧
    (e.Dead k.group → e' = { e with agenda := rest })

namespace Ledger

variable {c : CohortId} {x : TxnId}

theorem confirms_zero (h : Ledger past e) (hnone : ∀ e₁ ∈ past, ¬e₁.Commits x) :
    e.world.log.countP (Entry.confirms c x) = 0 := by
  refine countP_eq_zero.2 fun a ha hpa => ?_
  cases a <;> simp only [Entry.confirms, Bool.and_eq_true, decide_eq_true_eq,
    Bool.false_eq_true] at hpa
  obtain ⟨e₁, he₁, hcommit⟩ := h.confirmed ha
  rw [hpa.2] at hcommit
  exact hnone e₁ he₁ hcommit

theorem rollsBack_zero (h : Ledger past e) (hnone : ∀ e₁ ∈ past, ¬e₁.Aborts x) :
    e.world.log.countP (Entry.rollsBack c x) = 0 := by
  refine countP_eq_zero.2 fun a ha hpa => ?_
  cases a <;> simp only [Entry.rollsBack, Bool.and_eq_true, decide_eq_true_eq,
    Bool.false_eq_true] at hpa
  obtain ⟨e₁, he₁, habort⟩ := h.rolledBack (.inl ha)
  rw [hpa.2] at habort
  exact hnone e₁ he₁ habort

/-- The ledger of a run says how every transaction was committed. -/
theorem commitment (h : Ledger past e) (x : TxnId) : Committed past e x where
  asked_once := fun c => h.asked_once c x
  decided_once := h.decided_once.imp fun hpair => hpair x
  undecided := fun hnone c =>
    ⟨h.confirms_zero fun e₁ he₁ hc => hnone e₁ he₁ (.inl hc),
      h.rollsBack_zero fun e₁ he₁ ha => hnone e₁ he₁ (.inr ha)⟩
  committed := by
    intro e₁ he₁ hcommit c hc
    obtain ⟨s, hs, hm⟩ := (h.committed he₁ hcommit).2.2 c hc
    grind [countP_pos_iff, confirmed_once, rollsBack_zero, not_both, Entry.confirms]
  aborted := by
    intro e₁ he₁ habort c hc
    have honce := h.rolledBack_once c x
    refine ⟨h.confirms_zero fun e₂ he₂ hc => h.not_both he₂ he₁ hc habort, by omega, fun ha => ?_⟩
    obtain ⟨s, hs, hm⟩ := (h.aborted he₁ habort).2.2 c hc
    have hm := hm.resolve_right (by simp [ha, rollbacks])
    have hsome : 0 < e.world.log.countP (Entry.rollsBack c x) :=
      countP_pos_iff.2 ⟨_, hm, by simp [Entry.rollsBack, hs]⟩
    omega
  unanimous := by
    rintro before after c s hsplit rfl c' hc'
    exact h.unanimous hsplit c' hc'

end Ledger

namespace Run

variable {program : Program} {limit : Option Nat} {world : ω}

/-- In a polite run the batches stay together. -/
theorem batches (h : Run host program limit world past e) (hpolite : Polite e.world.log) :
    Batches past e := by
  induction h with
  | start =>
    have hagenda : (opening program limit world).agenda = [] :=
      (opening_grown ..).agenda
    constructor
    · rw [hagenda]
      rfl
    · intro hne
      rw [hagenda] at hne
      exact absurd rfl hne
  | turn hrun hp ih =>
    have hbefore := hrun.polite hp hpolite
    obtain ⟨m, hc, hs, -⟩ := hrun.sound hbefore
    exact (ih hbefore).turn hc hs hp
  | arrive hrun message ih =>
    have hbefore := ih (hpolite.mono (prefix_append ..))
    refine ⟨hbefore.released, fun hne => ?_⟩
    obtain ⟨x, g, lead, k, vs, rest, hdelivers, horigin⟩ := hbefore.shape hne
    refine ⟨x, g, lead, k, vs, rest, ⟨hdelivers.agenda, ?_, hdelivers.seated, hdelivers.last⟩,
      horigin⟩
    exact hdelivers.leads.congr rfl rfl

/-- In a polite run what a commit releases is handed over as a whole. -/
theorem delivered (h : Run host program limit world past e) (hpolite : Polite e.world.log) :
    Delivered host past e := by
  obtain ⟨m, hc, hs, hledger⟩ := h.sound hpolite
  have hbatches := h.batches hpolite
  constructor
  case released => exact hbatches.released
  case whole =>
    intro e₁ he₁ x hcommit
    obtain ⟨txn, rest, hagenda, hx, hstate⟩ := hcommit
    have hcommit : e₁.Commits x := ⟨txn, rest, hagenda, hx, hstate⟩
    refine ⟨txn, hx, ?_, (hledger.committed he₁ hcommit).2.2⟩
    rw [batch_of_commits hcommit hx, hledger.complete he₁ hcommit hx]
  case together =>
    intro hne
    obtain ⟨x, g, lead, k, vs, rest, hdelivers, e₁, he₁, txn, ha₁, hx, hstate, rfl, hsuffix⟩ :=
      hbatches.shape hne
    refine ⟨e₁, he₁, x, txn, lead, vs, rest, ⟨txn, rest, ha₁, hx, hstate⟩, hx, hsuffix, ha₁,
      hdelivers.agenda, fun hlead => ?_⟩
    cases lead with
    | nil => exact absurd rfl hlead
    | cons a lead =>
      have he := eq_plan hdelivers.agenda
      rw [he] at hc hdelivers
      obtain ⟨-, e', he', -⟩ := hc.perform host.logged
      obtain ⟨-, -, hsame⟩ := hdelivers.perform he'
      refine ⟨e', ?_, hsame⟩
      rw [he]
      exact turn_plan he'
  case each =>
    intro k v rest ha
    have hne : releases e.agenda ≠ [] := by rw [ha]; simp [releases]
    obtain ⟨x, g, lead, k', vs, rest', hdelivers, -⟩ := hbatches.shape hne
    have hagenda := hdelivers.agenda
    obtain rfl : k = k' := by
      cases lead with
      | cons a lead =>
        obtain ⟨-, hfirst⟩ := hdelivers.first
        rw [ha] at hagenda
        cases (List.cons.inj hagenda).1
        cases hfirst
      | nil =>
        cases vs with
        | nil => exact absurd (hagenda ▸ hdelivers.last) hne
        | cons v' vs =>
          rw [ha] at hagenda
          cases (List.cons.inj hagenda).1
          rfl
    -- the region above the one that is gone stays until that is counted
    obtain ⟨c, hm⟩ := hdelivers.seated
    have hm : .detach k.region c ∈ e.agenda := by
      rw [hagenda]
      exact mem_append_right _ (mem_append_right _ hm)
    obtain ⟨-, reg, hr, -⟩ := hc.core.census.gone (mem_detaches.2 hm)
    exact turn_release ha hr (hs.opened hr)

end Run

/-- Transactions are committed atomically, however deeply they are nested and in whatever order
    votes arrive.  Every cohort of a transaction is asked for its vote at most once.  A transaction
    is decided at most once; then every cohort is told once, and all are told the same: of a commit
    only if all have voted for it.  What a transaction has held back is let go whole, in order and
    in one go after its commit, or never. -/
theorem atomic_commitment (host : Host ω) (program : Program) (limit : Option Nat) (world : ω)
    {past : List (Engine (Logged ω))} {e : Engine (Logged ω)}
    (h : Run host program limit world past e) (hpolite : Polite e.world.log) :
    (∀ x, Committed past e x) ∧ Delivered host past e := by
  obtain ⟨m, -, -, hledger⟩ := h.sound hpolite
  exact ⟨hledger.commitment, h.delivered hpolite⟩

/-- A run in which a transaction with a cohort has been committed. -/
theorem atomic_commitment_roundTrip : ∃ p past e,
    Expr.roundTrip.compile Registry.roundTrip = .ok p ∧ Run Host.echo p none () past e ∧
      Polite e.world.log ∧ e.world.log.countP (Entry.confirms ⟨0⟩ ⟨0⟩) = 1 ∧
      (∀ x, Committed past e x) ∧ Delivered Host.echo past e := by
  obtain ⟨p, past, e, hp, hrun, hcheck⟩ := Run.compiled Expr.roundTrip Registry.roundTrip
    Host.echo none () 46 (fun e => decide (Polite e.world.log) &&
      e.world.log.countP (Entry.confirms ⟨0⟩ ⟨0⟩) = 1) ⟨_, rfl, by decide +kernel⟩
  simp only [Bool.and_eq_true, decide_eq_true_eq] at hcheck
  exact ⟨p, past, e, hp, hrun, hcheck.1, hcheck.2, atomic_commitment _ _ _ _ hrun hcheck.1⟩

end Commitment

end Orchestra
