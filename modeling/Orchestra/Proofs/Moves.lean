/-
  Moves: what a chore and what a turn can do, case by case.

  A statement about all chores starts from `Performed`, one about all turns from `Turned`.  Each
  lists the ways in which a move can go, with what is known on the way and the state it leads to,
  so that neither the chores nor the queues need be opened again.
-/
import Orchestra.Proofs.Coherent

namespace Orchestra

open List

variable {ω : Type} {m : Charter} {e e' : Engine ω} {host : Host ω} {a : Chore}
  {P : Engine ω → Prop} {grp : Group} {g : GroupId} {preg reg : Region} {p r : RegionId}
  {scope : Scope} {tok : Token} {t : TokenId} {txn txn' : Transaction} {x x' : TxnId}

/-! ## Tokens that are added -/

/-- Tokens are added in groups and regions that are there, and nothing else happens to the
    records. -/
structure Engine.Grown (e e' : Engine ω) : Prop where
  next_token : e.tokens.next.index ≤ e'.tokens.next.index
  old : ∀ {t : TokenId}, t.index < e.tokens.next.index → e'.tokens.get? t = e.tokens.get? t
  groups : ∀ g, (e'.groups.get? g).map (fun grp => { grp with members := [] }) =
    (e.groups.get? g).map fun grp => { grp with members := [] }
  next_group : e'.groups.next = e.groups.next
  regions : ∀ r, (e'.regions.get? r).map (fun reg => { reg with tokens := [], live := 0 }) =
    (e.regions.get? r).map fun reg => { reg with tokens := [], live := 0 }
  next_region : e'.regions.next = e.regions.next
  transactions : e'.transactions = e.transactions
  bound : e'.bound = e.bound
  clocks : e'.clocks = e.clocks
  agenda : e'.agenda = e.agenda
  halted : e'.halted = e.halted
  program : e'.program = e.program
  limit : e'.limit = e.limit
  stats : { e'.stats with peakTokens := 0 } = { e.stats with peakTokens := 0 }

/-- What is planned for the parent of a region that goes. -/
abbrev Region.farewell (r : RegionId) (reg : Region) : List Chore :=
  (reg.parent.map fun p => Chore.detach p r).toList

namespace Engine

theorem Grown.refl (e : Engine ω) : e.Grown e :=
  ⟨Nat.le_refl _, fun _ => rfl, fun _ => rfl, rfl, fun _ => rfl, rfl, rfl, rfl, rfl, rfl, rfl, rfl,
    rfl, rfl⟩

theorem Grown.trans {e'' : Engine ω} (h : e.Grown e') (h' : e'.Grown e'') : e.Grown e'' where
  next_token := Nat.le_trans h.next_token h'.next_token
  old := fun ht => (h'.old (Nat.lt_of_lt_of_le ht h.next_token)).trans (h.old ht)
  groups := fun g => (h'.groups g).trans (h.groups g)
  next_group := h'.next_group.trans h.next_group
  regions := fun r => (h'.regions r).trans (h.regions r)
  next_region := h'.next_region.trans h.next_region
  transactions := h'.transactions.trans h.transactions
  bound := h'.bound.trans h.bound
  clocks := h'.clocks.trans h.clocks
  agenda := h'.agenda.trans h.agenda
  halted := h'.halted.trans h.halted
  program := h'.program.trans h.program
  limit := h'.limit.trans h.limit
  stats := h'.stats.trans h.stats

theorem spawn_grown {id : TokenId} (hs : e.spawn tok = some (id, e')) : e.Grown e' := by
  unfold spawn at hs
  split at hs
  · cases hs
    refine ⟨?_, fun ht => ?_, fun g => ?_, Store.next_modify .., fun r => ?_, Store.next_modify ..,
      rfl, rfl, rfl, rfl, rfl, rfl, rfl, rfl⟩
    · grind [count, onRegion, onGroup]
    · grind [count, onRegion, onGroup]
    · grind [Store.map_get?_modify, count, onRegion, onGroup]
    · grind [Store.map_get?_modify, count, onRegion, onGroup]
  · cases hs

theorem spawnReady_grown (e : Engine ω) (tok : Token) : e.Grown (e.spawnReady tok) := by
  unfold spawnReady
  split
  · rename_i hs
    have hgrown := spawn_grown hs
    exact { hgrown with }
  · exact .refl e

theorem spawnReady_agenda : (e.spawnReady tok).agenda = e.agenda :=
  (e.spawnReady_grown tok).agenda

theorem Grown.region (h : e.Grown e') (hr : e.regions.get? r = some reg) :
    ∃ reg', e'.regions.get? r = some reg' ∧
      { reg' with tokens := [], live := 0 } = { reg with tokens := [], live := 0 } := by
  grind [regions, Option.map_eq_some_iff]

theorem Grown.token {t : TokenId} {tok : Token} (h : e.Grown e') (ht : e.tokens.get? t = some tok) :
    e'.tokens.get? t = some tok := (h.old (Store.lt_next ht)).trans ht

theorem Grown.region_from {reg' : Region} (h : e.Grown e') (hr' : e'.regions.get? r = some reg') :
    ∃ reg, e.regions.get? r = some reg ∧
      { reg with tokens := [], live := 0 } = { reg' with tokens := [], live := 0 } := by
  grind [regions, Option.map_eq_some_iff]

/-- What a region asks for when it goes is a token, a chore or the end. -/
theorem react_grown (e : Engine ω) (kind : RegionKind) : ∃ new b,
    Grown { e with agenda := new ++ e.agenda, halted := b } (e.react kind) := by
  cases kind with
  | root => exact ⟨[], true, .refl _⟩
  | pruning c => exact ⟨[.killGroup c], e.halted, .refl _⟩
  | transaction x => exact ⟨[.prepare x], e.halted, .refl _⟩
  | votes x => exact ⟨[.verify x], e.halted, .refl _⟩
  | otherwise published k =>
    unfold react
    dsimp only
    split
    · exact ⟨[], e.halted, .refl _⟩
    · exact ⟨[], e.halted, spawnReady_grown ..⟩

/-- A region is gone, and nothing has come of it yet. -/
abbrev removed (e : Engine ω) (r : RegionId) (reg : Region) : Engine ω :=
  { e with regions := e.regions.remove r }.plan (reg.farewell r)

/-- A region has been removed, and what was to happen then has happened. -/
abbrev vacated (e : Engine ω) (r : RegionId) (reg : Region) : Engine ω :=
  (e.removed r reg).react reg.kind

/-- A region that goes leaves the other records as they are, but for a token. -/
theorem quiesce_grown (e : Engine ω) (r : RegionId) (reg : Region) : ∃ new b,
    Grown { e with regions := e.regions.remove r, agenda := new ++ e.agenda, halted := b }
      (e.vacated r reg) := by
  obtain ⟨new, b, hgrown⟩ := react_grown (e.removed r reg) reg.kind
  grind [plan]

end Engine

/-! ## Chores -/

namespace Engine

theorem leave_eq (hr : e.regions.get? r = some reg) (hmem : t ∈ reg.tokens) (hpos : 0 < reg.live) :
    e.leave r t = .ok ({ e with
      regions := e.regions.modify r (Region.unseat t) }.plan
      (if reg.live = 1 then [.quiesce r] else [])) := by
  unfold leave
  simp only [hr, hmem, hpos, and_self, if_true]
  split <;> rfl

/-- A token has ended, perhaps as the last one of its region. -/
abbrev ended (e : Engine ω) (t : TokenId) (tok : Token) (reg : Region) : Engine ω :=
  { e with
    tokens := e.tokens.remove t
    groups := e.groups.modify tok.group (Group.dismiss t)
    regions := e.regions.modify tok.region (Region.unseat t) }.plan
    (if reg.live = 1 then [.quiesce tok.region] else [])

/-- A region has lost a child, perhaps the last one. -/
abbrev detached (e : Engine ω) (p c : RegionId) (reg : Region) : Engine ω :=
  { e with regions := e.regions.modify p (Region.disown c) }.plan
    (if reg.live = 1 then [.quiesce p] else [])

theorem killToken_eq (ht : e.tokens.get? t = some tok) (hr : e.regions.get? tok.region = some reg)
    (hmem : t ∈ reg.tokens) (hpos : 0 < reg.live) :
    e.killToken t = .ok (e.ended t tok reg) := by
  simp only [killToken, ht]
  exact leave_eq hr hmem hpos

theorem quiesce_eq (hr : e.regions.get? r = some reg) :
    e.quiesce r = e.vacated r reg := by grind [quiesce, plan]

theorem detach_eq {c : RegionId} (hr : e.regions.get? p = some reg) (hpos : 0 < reg.live) :
    e.detach p c = .ok (e.detached p c reg) := by
  unfold detach detached
  simp only [hr, hpos, if_true]
  split <;> rfl

end Engine

/-- The groups after one of them was forgotten. -/
def Group.forgotten (grp : Group) (g : GroupId) (groups : Store .group Group) : Store .group Group :=
  let groups := groups.remove g
  let groups := match grp.parent with
    | some p => groups.modify p fun pgrp => { pgrp with children := pgrp.children.erase g }
    | none => groups
  grp.children.foldl (fun s c => s.modify c fun cgrp => { cgrp with parent := none }) groups

/-- Two records of a group that differ at most in its place among the others, which it may lose. -/
structure Group.Kindred (a b : Group) : Prop where
  killed : b.killed = a.killed
  kind : b.kind = a.kind
  members : b.members = a.members
  parent : b.parent = none ∨ b.parent = a.parent

theorem Group.Kindred.refl (a : Group) : a.Kindred a := ⟨rfl, rfl, rfl, .inr rfl⟩

theorem Group.Kindred.trans {a b c : Group} (h : a.Kindred b) (h' : b.Kindred c) : a.Kindred c :=
  ⟨h'.killed.trans h.killed, h'.kind.trans h.kind, h'.members.trans h.members,
    h'.parent.elim .inl fun hp => h.parent.imp hp.trans hp.trans⟩

/-- The groups that are left differ at most in their place. -/
theorem Group.forgotten_from {cgrp' : Group} {c : GroupId} {groups : Store .group Group}
    (h : (grp.forgotten g groups).get? c = some cgrp') :
    c ≠ g ∧ ∃ cgrp, groups.get? c = some cgrp ∧ cgrp.Kindred cgrp' := by
  have hfold : ∀ (cs : List GroupId) {s : Store .group Group} {b},
      (cs.foldl (fun s c => s.modify c fun cgrp => { cgrp with parent := none }) s).get? c = some b →
        ∃ a, s.get? c = some a ∧ a.Kindred b := by
    intro cs
    induction cs with
    | nil => exact fun hb => ⟨_, hb, .refl _⟩
    | cons c' cs ih =>
      intro s b hb
      obtain ⟨a, ha, hab⟩ := ih hb
      obtain ⟨a', ha', haa⟩ := Store.modify_back (P := Group.Kindred)
        (f := fun cgrp : Group => { cgrp with parent := none }) .refl
        (fun _ => ⟨rfl, rfl, rfl, .inl rfl⟩) ha
      exact ⟨a', ha', haa.trans hab⟩
  have hremoved : ∀ {b}, (groups.remove g).get? c = some b →
      c ≠ g ∧ ∃ a, groups.get? c = some a ∧ a.Kindred b := by
    intro b hb
    obtain ⟨hne, hb⟩ := Store.of_get?_remove hb
    exact ⟨hne, b, hb, .refl b⟩
  obtain ⟨a, ha, hab⟩ := hfold grp.children h
  cases hp : grp.parent with
  | none => grind
  | some p =>
    rw [hp] at ha
    obtain ⟨a₁, ha₁, haa₁⟩ := Store.modify_back (P := Group.Kindred)
      (f := fun pgrp : Group => { pgrp with children := pgrp.children.erase g }) .refl
      (fun _ => ⟨rfl, rfl, rfl, .inr rfl⟩) ha
    grind [Kindred.trans]

/-- What forgetting a group does to the groups around it. -/
theorem Group.get?_forgotten (g : GroupId) (groups : Store .group Group)
    (hnodup : grp.children.Nodup) (hacyclic : ∀ {p}, p ∈ grp.children → grp.parent ≠ some p)
    (g' : GroupId) : (grp.forgotten g groups).get? g' =
      if g' = g then none
      else if g' ∈ grp.children then (groups.get? g').map fun c => { c with parent := none }
      else if some g' = grp.parent then
        (groups.get? g').map fun p => { p with children := p.children.erase g }
      else groups.get? g' := by
  unfold forgotten
  dsimp only
  rw [Store.get?_foldl_modify _ hnodup]
  grind

theorem Group.next_forgotten (grp : Group) (g : GroupId) (groups : Store .group Group) :
    (grp.forgotten g groups).next = groups.next := by
  have hfold : ∀ (gs : List GroupId) (s : Store .group Group),
      (gs.foldl (fun s c => s.modify c fun cgrp => { cgrp with parent := none }) s).next = s.next := by
    intro gs s
    induction gs generalizing s with
    | nil => rfl
    | cons g gs ih => rw [foldl_cons, ih, Store.next_modify]
  grind [forgotten]

theorem Engine.foldl_onGroup (f : Group → Group) (gs : List GroupId) (e : Engine ω) :
    gs.foldl (fun e g => e.onGroup g f) e =
      { e with groups := gs.foldl (fun s g => s.modify g f) e.groups } := by
  induction gs generalizing e with
  | nil => rfl
  | cons g gs ih =>
    rw [foldl_cons, foldl_cons, ih]
    rfl

theorem Engine.removeGroup_forgotten (hg : e.groups.get? g = some grp) :
    e.removeGroup g = { e with groups := grp.forgotten g e.groups } := by
  unfold removeGroup Group.forgotten
  simp only [hg]
  rw [foldl_onGroup]
  cases grp.parent <;> rfl

/-- The token that stands for a vote of a transaction. -/
def Transaction.vote (txn : Transaction) (x : TxnId) (region : RegionId) : Token :=
  { txn.continuation.resume .signal with
    node := Code.halt, group := txn.group, region, txn := some x, phase := .voting }

/-- The state in which a transaction has a region for its votes and no vote yet. -/
def Engine.openVotes (e : Engine ω) (x : TxnId) (txn : Transaction) : Engine ω :=
  { e.onTransaction x fun txn => { txn with state := .readying } with
    regions := (e.regions.insert
      { parent := some txn.continuation.region, kind := .votes x }).modify
        txn.continuation.region (Region.adopt e.regions.next) }

namespace Engine

theorem newRegion_eq (hp : e.regions.get? p = some preg) (kind : RegionKind) :
    e.newRegion p kind = .ok (e.regions.next, { e with
      regions := (e.regions.insert { parent := some p, kind }).modify p (Region.adopt e.regions.next) }) := by
  unfold newRegion
  grind [Store.contains_iff, onRegion]

/-- What holds before the votes are asked for and is kept by every single one holds after. -/
theorem askVotes_induct {h : Host ω} {vote : Token}
    (hstep : ∀ {e e' : Engine ω} {id : TokenId} (c : CohortId), P e →
      e.spawn vote = some (id, e') → P (e'.absorb (h.ready c scope id e'.world)).2) (he : P e)
    (cohorts : List CohortId) : P (askVotes h scope vote e cohorts) := by
  induction cohorts generalizing e with
  | nil => exact he
  | cons c cohorts ih => grind [askVotes]

theorem askVotes_grown (e : Engine ω) (scope : Scope) (vote : Token) (cohorts : List CohortId) :
    e.Grown (askVotes host scope vote e cohorts) := by
  refine askVotes_induct (P := e.Grown) ?_ (.refl e) cohorts
  intro e₁ e₂ id c h hs
  have hgrown := spawn_grown hs
  exact h.trans { hgrown with }

theorem askVotes_agenda {vote : Token} (cohorts : List CohortId) :
    (askVotes host scope vote e cohorts).agenda = e.agenda :=
  (e.askVotes_grown scope vote cohorts).agenda

/-- The state in which the cohorts of a transaction have been asked for their votes. -/
abbrev polled (e : Engine ω) (host : Host ω) (x : TxnId) (txn : Transaction) : Engine ω :=
  (askVotes host txn.scope (txn.vote x e.regions.next) (e.openVotes x txn) txn.cohorts).plan
    [.settle e.regions.next]

theorem prepare_eq (hx : e.transactions.get? x = some txn) (hstate : txn.state = .running)
    (hp : e.regions.get? txn.continuation.region = some preg) :
    e.prepare host x = .ok (e.polled host x txn) := by
  unfold prepare
  simp only [hx, if_pos hstate]
  rw [newRegion_eq (e := e.onTransaction x _) hp]
  rfl

/-- The state in which a transaction has just been committed. -/
def committed (e : Engine ω) (host : Host ω) (x : TxnId) (txn : Transaction) : Engine ω :=
  let done := e.transactions.modify x fun txn => { txn with state := .done, publications := [] }
  { e with
    world := txn.cohorts.foldl (fun w c => host.confirm c txn.scope w) e.world
    transactions := match txn.parent with
      | some p => done.modify p fun ptxn => ptxn.enlist txn.cohorts
      | none => done
    stats := { e.stats with commits := e.stats.commits + 1 } }

/-- A transaction has been committed, and what it held back is to be released. -/
abbrev concluded (e : Engine ω) (host : Host ω) (x : TxnId) (txn : Transaction) : Engine ω :=
  (e.committed host x txn).plan (.retire x :: txn.publications.map (.release txn.continuation))

theorem verify_eq (host : Host ω) (hx : e.transactions.get? x = some txn)
    (hstate : txn.state = .readying) :
    e.verify host x = e.concluded host x txn := by
  unfold verify concluded committed
  simp only [hx, if_pos hstate]
  cases txn.parent <;> rfl

theorem committed_kept (host : Host ω) (hx' : e.transactions.get? x' = some txn') :
    ∃ txn'', (e.committed host x txn).transactions.get? x' = some txn'' := by
  unfold committed
  dsimp only
  cases txn.parent <;> grind

/-- After a commit the transaction is done, and its cohorts take part in the one around it. -/
theorem committed_from (hx : e.transactions.get? x = some txn) (hparent : txn.parent ≠ some x)
    (hx' : (e.committed host x txn).transactions.get? x' = some txn') :
    (x' = x ∧ txn' = { txn with state := .done, publications := [] }) ∨
      (x' ≠ x ∧ ∃ old, e.transactions.get? x' = some old ∧
        (txn' = old ∨ (txn.parent = some x' ∧ txn' = old.enlist txn.cohorts))) := by
  grind [Option.map_eq_some_iff, committed]

/-- A transaction is gone, and its group is to go. -/
abbrev retiring (e : Engine ω) (x : TxnId) (txn : Transaction) : Engine ω :=
  { e with transactions := e.transactions.remove x }.plan [.killGroup txn.group]

/-- A transaction has been aborted; its group is to go, and then its cohorts are to be told. -/
abbrev rescinded (e : Engine ω) (x : TxnId) (txn : Transaction) : Engine ω :=
  ((e.onTransaction x fun txn => { txn with state := .aborted, publications := [] }).count
    fun s => { s with aborts := s.aborts + 1 }).plan
    (.killGroup txn.group :: txn.cohorts.map fun c => .rollback c txn.scope)

/-- A group has been killed, and what belongs to it is to go. -/
abbrev condemned (e : Engine ω) (g : GroupId) (grp : Group) : Engine ω :=
  (e.onGroup g fun group =>
    { group with killed := true, members := [], kind := e.killedKind g grp.kind }).plan <|
    abortFor grp.kind ++ (grp.members ++ e.orphans g grp.kind).map .killToken ++
      .removeGroup g :: grp.children.reverse.map .killGroup

end Engine

/-- What doing a chore in the state `e` can be. -/
inductive Performed (host : Host ω) (e : Engine ω) : Chore → Engine ω → Prop where
  | gone {t : TokenId} (ht : e.tokens.get? t = none) : Performed host e (.killToken t) e
  | killToken {t : TokenId} {tok : Token} {reg : Region} (ht : e.tokens.get? t = some tok)
    (hr : e.regions.get? tok.region = some reg) (hmem : t ∈ reg.tokens) (hpos : 0 < reg.live) :
    Performed host e (.killToken t) (e.ended t tok reg)
  | quiesced {r : RegionId} (hr : e.regions.get? r = none) : Performed host e (.quiesce r) e
  | quiesce {r : RegionId} {reg : Region} (hr : e.regions.get? r = some reg) :
    Performed host e (.quiesce r) (e.vacated r reg)
  | settled {r : RegionId} (hr : ∀ reg, e.regions.get? r = some reg → reg.live ≠ 0) :
    Performed host e (.settle r) e
  | settle {r : RegionId} {reg : Region} (hr : e.regions.get? r = some reg) (hlive : reg.live = 0) :
    Performed host e (.settle r) (e.plan [.quiesce r])
  | detached {p c : RegionId} (hp : e.regions.get? p = none) : Performed host e (.detach p c) e
  | detach {p c : RegionId} {reg : Region} (hp : e.regions.get? p = some reg) (hpos : 0 < reg.live) :
    Performed host e (.detach p c) (e.detached p c reg)
  | closed {doomed : List TokenId} :
    Performed host e (.closeRegions [] doomed) (e.plan (doomed.map .killToken))
  | closeNone {r : RegionId} {pending : List RegionId} {doomed : List TokenId}
    (hr : e.regions.get? r = none) :
    Performed host e (.closeRegions (r :: pending) doomed) (e.plan [.closeRegions pending doomed])
  | close {r : RegionId} {reg : Region} {pending : List RegionId} {doomed : List TokenId}
    (hr : e.regions.get? r = some reg) :
    Performed host e (.closeRegions (r :: pending) doomed)
      ((e.onRegion r fun r => { r with closed := true }).plan
        [.closeRegions (reg.children.reverse ++ pending) (doomed ++ reg.tokens)])
  | dead {g : GroupId} (hg : ∀ grp, e.groups.get? g = some grp → grp.killed = true) :
    Performed host e (.killGroup g) e
  | killGroup {g : GroupId} {grp : Group} (hg : e.groups.get? g = some grp)
    (hk : grp.killed = false) :
    Performed host e (.killGroup g) (e.condemned g grp)
  | removed {g : GroupId} (hg : e.groups.get? g = none) : Performed host e (.removeGroup g) e
  | removeGroup {g : GroupId} {grp : Group} (hg : e.groups.get? g = some grp) :
    Performed host e (.removeGroup g) { e with groups := grp.forgotten g e.groups }
  | asleep {t : TokenId} (ht : e.tokens.get? t = none) : Performed host e (.wake t) e
  | wake {t : TokenId} {tok : Token} (ht : e.tokens.get? t = some tok) :
    Performed host e (.wake t) ((e.onToken t Token.woken).enqueue t)
  | unprepared {x : TxnId} (hx : e.transactions.get? x = none) : Performed host e (.prepare x) e
  | prepareLate {x : TxnId} {txn : Transaction} (hx : e.transactions.get? x = some txn)
    (hstate : txn.state ≠ .running) : Performed host e (.prepare x) (e.plan [.retire x])
  | prepare {x : TxnId} {txn : Transaction} {preg : Region}
    (hx : e.transactions.get? x = some txn) (hstate : txn.state = .running)
    (hp : e.regions.get? txn.continuation.region = some preg) :
    Performed host e (.prepare x) (e.polled host x txn)
  | unverified {x : TxnId} (hx : e.transactions.get? x = none) : Performed host e (.verify x) e
  | verifyLate {x : TxnId} {txn : Transaction} (hx : e.transactions.get? x = some txn)
    (hstate : txn.state ≠ .readying) : Performed host e (.verify x) (e.plan [.retire x])
  | verify {x : TxnId} {txn : Transaction} (hx : e.transactions.get? x = some txn)
    (hstate : txn.state = .readying) :
    Performed host e (.verify x) (e.concluded host x txn)
  | retired {x : TxnId} (hx : e.transactions.get? x = none) : Performed host e (.retire x) e
  | retire {x : TxnId} {txn : Transaction} (hx : e.transactions.get? x = some txn) :
    Performed host e (.retire x) (e.retiring x txn)
  | release {k : Continuation} {v : Value} :
    Performed host e (.release k v) (e.spawnReady (k.resume v))
  | abortLate {x : TxnId} (hx : ∀ txn, e.transactions.get? x = some txn →
      txn.state = .done ∨ txn.state = .aborted) : Performed host e (.abort x) e
  | abort {x : TxnId} {txn : Transaction} (hx : e.transactions.get? x = some txn)
    (hstate : txn.state = .running ∨ txn.state = .readying) :
    Performed host e (.abort x) (e.rescinded x txn)
  | rollback {c : CohortId} {s : Scope} :
    Performed host e (.rollback c s) { e with world := host.rollback c s e.world }
  | proceed {t : TokenId} {n : Nat} {tok : Token} (ht : e.tokens.get? t = some tok) :
    Performed host e (.proceed t n) ((e.onToken t fun token => { token with node := n }).enqueue t)
  | enqueue {t : TokenId} : Performed host e (.enqueue t) (e.enqueue t)

/-- Every chore goes one of these ways. -/
theorem Engine.performed (he' : e.perform host a = .ok e') : Performed host e a e' := by
  cases a with
  | killToken t =>
    unfold perform killToken at he'
    dsimp only at he'
    split at he'
    · cases he'
      exact .gone ‹_›
    · rename_i tok ht
      -- a token outside its region is an error, not a state
      unfold leave at he'
      split at he'
      · cases he'
      · rename_i reg hr
        split at he'
        · rename_i hin
          cases he'
          have hkilled : Performed host e (.killToken t) _ := .killToken ht hr hin.1 hin.2
          unfold ended at hkilled
          split <;> simp_all <;> exact hkilled
        · cases he'
  | quiesce r =>
    cases he'
    cases hr : e.regions.get? r with
    | none =>
      simp only [quiesce, hr]
      exact .quiesced hr
    | some reg =>
      rw [quiesce_eq hr]
      exact .quiesce hr
  | settle r =>
    cases he'
    unfold settle
    split
    · rename_i reg hr
      split
      · exact .settle hr ‹_›
      · refine .settled fun reg' hr' => ?_
        cases hr.symm.trans hr'
        assumption
    · rename_i hr
      exact .settled fun reg' hr' => by rw [hr] at hr'; cases hr'
  | detach p c =>
    have he' : e.detach p c = .ok e' := he'
    cases hp : e.regions.get? p with
    | none =>
      simp only [detach, hp] at he'
      cases he'
      exact .detached hp
    | some reg =>
      by_cases hpos : 0 < reg.live
      · rw [detach_eq hp hpos] at he'
        cases he'
        exact .detach hp hpos
      · grind [detach]
  | closeRegions pending doomed =>
    cases he'
    cases pending with
    | nil => exact .closed
    | cons r pending =>
      simp only [closeRegions]
      split
      · exact .closeNone ‹_›
      · exact .close ‹_›
  | killGroup g =>
    cases he'
    unfold killGroup
    split
    · rename_i hg
      exact .dead fun grp hg' => by rw [hg] at hg'; cases hg'
    · rename_i grp hg
      split
      · refine .dead fun grp' hg' => ?_
        cases hg.symm.trans hg'
        assumption
      · rename_i hk
        exact .killGroup hg (Bool.eq_false_iff.2 hk)
  | removeGroup g =>
    cases he'
    cases hg : e.groups.get? g with
    | none =>
      simp only [removeGroup, hg]
      exact .removed hg
    | some grp =>
      rw [removeGroup_forgotten hg]
      exact .removeGroup hg
  | wake t =>
    cases he'
    unfold wake
    split
    · rename_i ht
      obtain ⟨tok, ht⟩ := Store.contains_iff.1 ht
      exact .wake ht
    · rename_i ht
      refine .asleep ?_
      simpa [Store.contains] using ht
  | prepare x =>
    have he' : e.prepare host x = .ok e' := he'
    cases hx : e.transactions.get? x with
    | none =>
      simp only [prepare, hx] at he'
      cases he'
      exact .unprepared hx
    | some txn =>
      by_cases hstate : txn.state = .running
      · cases hp : e.regions.get? txn.continuation.region with
        | none => simp_all [prepare, newRegion, onTransaction, Store.contains]
        | some preg =>
          rw [prepare_eq hx hstate hp] at he'
          cases he'
          exact .prepare hx hstate hp
      · simp only [prepare, hx, if_neg hstate] at he'
        cases he'
        exact .prepareLate hx hstate
  | verify x =>
    cases he'
    cases hx : e.transactions.get? x with
    | none =>
      simp only [verify, hx]
      exact .unverified hx
    | some txn =>
      by_cases hstate : txn.state = .readying
      · rw [verify_eq host hx hstate]
        exact .verify hx hstate
      · simp only [verify, hx, if_neg hstate]
        exact .verifyLate hx hstate
  | retire x =>
    cases he'
    unfold retire
    split
    · exact .retired ‹_›
    · exact .retire ‹_›
  | release k v =>
    cases he'
    exact .release
  | abort x =>
    cases he'
    unfold abort
    split
    · rename_i hx
      exact .abortLate fun txn hx' => by rw [hx] at hx'; cases hx'
    · rename_i txn hx
      split
      · refine .abortLate fun txn' hx' => ?_
        cases hx.symm.trans hx'
        assumption
      · rename_i hstate
        refine .abort hx ?_
        cases h : txn.state <;> simp_all
  | rollback c s =>
    cases he'
    exact .rollback
  | proceed t n =>
    unfold perform proceed at he'
    dsimp only at he'
    split at he'
    · rename_i ht
      cases he'
      obtain ⟨tok, ht⟩ := Store.contains_iff.1 ht
      exact .proceed ht
    · cases he'
  | enqueue t =>
    cases he'
    exact .enqueue

/-! ## Turns -/

/-- The state that a turn leads to. -/
def Progress.state : Progress ω → Engine ω
  | .next e => e
  | .ended _ e => e

/-- The state in which the first token of the queue takes its step. -/
def Engine.taken (e : Engine ω) (ready : List TokenId) : Engine ω :=
  { e with ready }.count fun s => { s with steps := s.steps + 1 }

/-- What a turn from `e` can be. -/
inductive Turned (host : Host ω) (e : Engine ω) : Progress ω → Prop where
  | chore {e₁ e' : Engine ω} {a : Chore} (he : e = e₁.plan [a])
    (he' : e₁.perform host a = .ok e') : Turned host e (.next e')
  | done (ha : e.agenda = []) (hh : e.halted = true) : Turned host e (.ended .done e)
  /-- A token from the queue that is gone or not runnable does nothing. -/
  | skip {t : TokenId} {ready : List TokenId} (ha : e.agenda = []) (hh : e.halted = false)
    (hready : e.ready = t :: ready)
    (hskip : ∀ tok, e.tokens.get? t = some tok → tok.phase ≠ .runnable) :
    Turned host e (.next { e with ready })
  | step {t : TokenId} {tok : Token} {ready : List TokenId} {node : Node} {e' : Engine ω}
    (ha : e.agenda = []) (hh : e.halted = false) (hready : e.ready = t :: ready)
    (ht : e.tokens.get? t = some tok) (hphase : tok.phase = .runnable)
    (hnode : e.program.code.nodes[tok.node]? = some node)
    (he' : (e.taken ready).execute host t tok node = .ok e') : Turned host e (.next e')
  | message {message : Message} {inbox : List Message} (ha : e.agenda = [])
    (hh : e.halted = false) (hready : e.ready = []) (hinbox : e.inbox = message :: inbox) :
    Turned host e (.next ({ e with inbox }.receive host message))
  | idle (ha : e.agenda = []) (hh : e.halted = false) (hready : e.ready = [])
    (hinbox : e.inbox = []) : Turned host e (e.idle host)

theorem Engine.eq_plan {rest : List Chore} (ha : e.agenda = a :: rest) :
    e = { e with agenda := rest }.plan [a] := by
  cases e
  cases ha
  rfl

/-- A chore on top is done by the next turn. -/
theorem Engine.turn_plan (he' : e.perform host a = .ok e') :
    (e.plan [a]).turn host = .ok (.next e') := by
  show (e.perform host a >>= fun e => pure (Progress.next e)) = _
  rw [he']
  rfl

/-- With nothing to do, the first token of the queue takes its step if it is runnable. -/
theorem Engine.turn_step {ready : List TokenId} {node : Node} (ha : e.agenda = [])
    (hh : e.halted = false) (hready : e.ready = t :: ready) (ht : e.tokens.get? t = some tok)
    (hphase : tok.phase = .runnable) (hnode : e.program.code.nodes[tok.node]? = some node)
    (he' : (e.taken ready).execute host t tok node = .ok e') : e.turn host = .ok (.next e') := by
  have hdispatch : { e with ready }.dispatch host t = .ok e' := by grind [dispatch, taken, count]
  cases e
  cases ha
  cases hh
  cases hready
  show (dispatch host _ t >>= fun e => pure (Progress.next e)) = _
  rw [hdispatch]
  rfl

/-- Every turn is one of these. -/
theorem Engine.turned {p : Progress ω} (hp : e.turn host = .ok p) : Turned host e p := by
  unfold Engine.turn at hp
  split at hp
  · rename_i a rest ha
    obtain ⟨e', he', hp⟩ := bind_ok hp
    cases hp
    exact .chore (eq_plan ha) he'
  · rename_i ha
    split at hp
    · rename_i hh
      cases hp
      exact .done ha hh
    · rename_i hh
      have hh : e.halted = false := Bool.eq_false_iff.2 hh
      split at hp
      · rename_i t ready hready
        obtain ⟨e', he', hp⟩ := bind_ok hp
        cases hp
        unfold Engine.dispatch at he'
        dsimp only at he'
        split at he'
        · rename_i ht
          cases he'
          exact .skip ha hh hready fun tok htok => by rw [ht] at htok; cases htok
        · rename_i tok ht
          split at he'
          · rename_i hphase
            split at he'
            · rename_i node hnode
              exact .step ha hh hready ht hphase hnode he'
            · cases he'
          · rename_i hphase
            cases he'
            refine .skip ha hh hready fun tok' htok => ?_
            cases ht.symm.trans htok
            exact hphase
      · rename_i hready
        split at hp
        · rename_i message inbox hinbox
          cases hp
          exact .message ha hh hready hinbox
        · rename_i hinbox
          cases hp
          exact .idle ha hh hready hinbox

/-! ## Messages -/

/-- What taking a message in the state `e` can be. -/
inductive Received (host : Host ω) (e : Engine ω) : Message → Engine ω → Prop where
  | terminate : Received host e .terminate { e with halted := true }
  | late {t : TokenId} {reply : Reply} (ht : e.tokens.get? t = none) :
    Received host e (.returned t reply) e
  | publish {t : TokenId} {tok : Token} {v : Value} (ht : e.tokens.get? t = some tok) :
    Received host e (.returned t (.publish v))
      ((e.onToken t fun token => { token with result := v, phase := .runnable }).enqueue t)
  | halt {t : TokenId} {tok : Token} (ht : e.tokens.get? t = some tok) :
    Received host e (.returned t .halt) (e.plan [.killToken t])
  | fail {t : TokenId} {tok : Token} {error : SiteError} (ht : e.tokens.get? t = some tok) :
    Received host e (.returned t (.fail error)) ({ e.count fun s =>
        { s with failures := s.failures + 1 } with
      world := host.report { span := tok.span, error := .site tok.phase.answering error }
        e.world }.plan [.killToken t])
  | vetoedLate {t : TokenId} (ht : e.tokens.get? t = none) : Received host e (.vetoed t) e
  | vetoed {t : TokenId} {tok : Token} (ht : e.tokens.get? t = some tok) :
    Received host e (.vetoed t) (e.plan ((tok.txn.map Chore.abort).toList ++ [.killToken t]))

/-- Every message is taken in one of these ways. -/
theorem Engine.received (host : Host ω) (e : Engine ω) (message : Message) :
    Received host e message (e.receive host message) := by
  cases message with
  | terminate => exact .terminate
  | returned t reply =>
    unfold receive
    dsimp only
    split
    · exact .late ‹_›
    · rename_i tok ht
      cases reply with
      | publish v => exact .publish ht
      | halt => exact .halt ht
      | fail error =>
        dsimp only [fail]
        rw [ht]
        exact .fail ht
  | vetoed t =>
    unfold receive
    dsimp only
    split
    · exact .vetoedLate ‹_›
    · exact .vetoed ‹_›

/-- A message ends a token or aborts a transaction, if anything. -/
theorem Engine.receive_agenda (message : Message) (hm : a ∈ (e.receive host message).agenda) :
    a ∈ e.agenda ∨ (∃ t, a = .killToken t) ∨ ∃ x, a = .abort x := by
  have hreceived := e.received host message
  generalize e.receive host message = e' at hreceived hm
  cases hreceived with
  | terminate | late | publish | vetoedLate => exact .inl hm
  | halt | fail => exact (mem_cons.1 hm).elim (fun heq => .inr (.inl ⟨_, heq⟩)) .inl
  | vetoed => grind [Option.map_eq_some_iff, plan]

/-! ## Waiting -/

/-- What a turn with an empty queue and an empty inbox can be. -/
inductive Idled (host : Host ω) (e : Engine ω) : Progress ω → Prop where
  | await {effect : Effect ω Unit} (heffect : host.await e.world = some effect) :
    Idled host e (.next (e.dropDeadTimers.absorb effect).2)
  | stuck (hnone : host.await e.world = none) : Idled host e (.ended .stuck e.dropDeadTimers)
  | tick (hbusy : e.dropDeadTimers.clocks.all Clock.isIdle = false) : Idled host e
    (.next (e.dropDeadTimers.tick.absorb (host.yield e.dropDeadTimers.tick.world)).2)

theorem Engine.idled (host : Host ω) (e : Engine ω) : Idled host e (e.idle host) := by
  unfold idle
  dsimp only
  split
  · split
    · exact .await ‹_›
    · exact .stuck ‹_›
  · rename_i hbusy
    exact .tick (Bool.eq_false_iff.2 hbusy)

namespace Engine

section

variable (e : Engine ω) (ts : List TokenId)

theorem wakeAll_eq : ts.foldl wake e =
    { e with
      tokens := (ts.foldl wake e).tokens
      ready := e.ready ++ ts.filter e.tokens.contains } := by
  induction ts generalizing e with
  | nil => simp_all
  | cons t ts ih =>
    rw [foldl_cons, filter_cons, ih]
    unfold wake
    split
    · -- waking a token does not change who is there
      have hsame : (e.tokens.modify t Token.woken).contains =
          e.tokens.contains := by grind [Store.contains]
      grind [onToken, enqueue]
    · rfl

theorem wakeAll_token (v : TokenId) :
    (ts.foldl wake e).tokens.get? v =
      if v ∈ ts then (e.tokens.get? v).map Token.woken
      else e.tokens.get? v := by
  induction ts generalizing e with
  | nil => rfl
  | cons t ts ih =>
    have hone : (e.wake t).tokens.get? v =
        if v = t then (e.tokens.get? v).map Token.woken
        else e.tokens.get? v := by
      unfold wake
      split
      · exact Store.get?_modify ..
      · simp_all [Store.contains]
    grind [Option.map_map, Function.comp_def]

theorem wakeAll_next : (ts.foldl wake e).tokens.next = e.tokens.next := by
  induction ts generalizing e with
  | nil => rfl
  | cons t ts ih => grind [wake, enqueue, onToken]

end

theorem wakeAll_agenda (ts : List TokenId) : (ts.foldl wake e).agenda = e.agenda := by
  rw [wakeAll_eq]

theorem idle_agenda : (e.idle host).state.agenda = e.agenda := by
  have hidled := e.idled host
  generalize e.idle host = p at hidled
  cases hidled with
  | await | stuck => rfl
  | tick => exact wakeAll_agenda _

/-- What is kept when a token is woken is kept when several are. -/
theorem wakeAll_induct (hwake : ∀ {e : Engine ω} (t : TokenId), P e →
      P ((e.onToken t Token.woken).enqueue t)) (he : P e)
    (ts : List TokenId) : P (ts.foldl wake e) := by
  induction ts generalizing e with
  | nil => exact he
  | cons t ts ih => grind [wake]

/-- What does not look at the clocks is kept by an idle turn if it is kept when a token is woken and
    when the host has its say. -/
theorem idle_induct
    (hclocks : ∀ {e : Engine ω} (clocks : List (Clock TokenId)) (stats : Stats), P e →
      P { e with clocks, stats }) (hwake : ∀ {e : Engine ω} (t : TokenId), P e →
      P ((e.onToken t Token.woken).enqueue t))
    (habsorb : ∀ {e : Engine ω} {effect : Effect ω Unit}, host.await e.world = some effect ∨
      effect = host.yield e.world → P e → P (e.absorb effect).2) (he : P e) :
    P (e.idle host).state := by
  have hdropped : P e.dropDeadTimers := hclocks _ e.stats he
  have hidled := e.idled host
  generalize e.idle host = p at hidled
  cases hidled with
  | await heffect => exact habsorb (.inl heffect) hdropped
  | stuck => exact hdropped
  | tick => exact habsorb (.inr rfl) (wakeAll_induct hwake (hclocks _ _ hdropped) _)

/-- What no turn changes, except for a call of a site, which is counted. -/
def constants (e : Engine ω) : Program × Nat := (e.program, e.stats.siteCalls)

theorem Grown.constants (h : e.Grown e') : e'.constants = e.constants := by
  have hcalls : e'.stats.siteCalls = e.stats.siteCalls := (Stats.mk.injEq .. ▸ h.stats).2.2.2.2.1
  exact Prod.ext h.program hcalls

theorem perform_constants (he' : e.perform host a = .ok e') : e'.constants = e.constants := by
  cases performed he' with
  | @quiesce r reg =>
    obtain ⟨new, b, hgrown⟩ := quiesce_grown e r reg
    exact hgrown.constants
  | prepare => exact (askVotes_grown (e.openVotes _ _) ..).constants
  | release => exact (spawnReady_grown ..).constants
  | _ => rfl

end Engine
end Orchestra
