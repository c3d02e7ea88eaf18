/-
  Steps: what a token does to a coherent state.

  A token takes a step only when the agenda is empty.  Most steps change the token itself, or end
  it; the others found a cell, a region or a transaction, bind a cell, or move the token from one
  region to another.  Each is shown to leave a coherent state behind, provided that it does not
  fault; that it does not is a matter of how the code was made.
-/
import Orchestra.Proofs.Actions
import Orchestra.Proofs.Cascade

namespace Orchestra

open Engine List

variable {ω : Type} {m : Charter} {e e' : Engine ω} {host : Host ω} {t : TokenId} {tok : Token}
  {k : Continuation} {grp : Group} {g : GroupId} {next : Nat} {empty : Option RegionId}
  {reg treg : Region} {target : RegionId} {site : Site} {tok' : Token}

/-! ## Idle states -/

/-- In a state with nothing to do, the group of a token is alive. -/
theorem Kinship.alive {tokens : Store .token Token} {groups : Store .group Group}
    (h : Kinship tokens groups []) (ht : tokens.get? t = some tok) :
    ∃ grp, groups.get? tok.group = some grp ∧ grp.killed = false ∧ t ∈ grp.members := by
  obtain ⟨grp, hg, hmem⟩ := h.group_of ht
  cases hk : grp.killed with
  | false => exact ⟨grp, hg, hk, hmem hk⟩
  | true => cases h.doomed hg hk

/-- The transaction that a region belongs to is there as long as the region is. -/
theorem Core.txn_of_region (h : Core m e empty) {r : RegionId} {x : TxnId}
    (hr : e.regions.get? r = some reg) (hx : m.txn r = some x) :
    ∃ txn, e.transactions.get? x = some txn := by
  -- go up from region to region, until one was founded for the transaction
  revert hx
  refine h.census.climb hr fun r reg hr up hx => ?_
  cases hkind : reg.kind with
  | root =>
    rw [(h.aligned.root hr hkind).2.2.1] at hx
    cases hx
  | pruning c =>
    obtain ⟨⟨p, hp, htxn, -⟩, -⟩ := h.aligned.pruning hr hkind
    exact up hp (htxn ▸ hx)
  | otherwise b k =>
    obtain ⟨hp, hkept, -, htxn, -⟩ := h.aligned.otherwise hr hkind
    exact up hp (by rw [hkept.txn, ← htxn, hx])
  | transaction x' =>
    obtain ⟨txn, htxn, -, -, hx'⟩ := h.aligned.atomic hr (.inl hkind)
    cases hx.symm.trans hx'
    exact ⟨txn, htxn⟩
  | votes x' =>
    obtain ⟨txn, htxn, -, -, hx'⟩ := h.aligned.atomic hr (.inr hkind)
    cases hx.symm.trans hx'
    exact ⟨txn, htxn⟩

namespace Coherent

theorem of_idle (h : Core m e none) (ha : e.agenda = []) : Coherent m e :=
  of_calm h (by simp [ha])

theorem core_of_idle (h : Coherent m e) (ha : e.agenda = []) : Core m e none := by
  have := h.core
  rwa [ha] at this

/-- So it is when the first token is taken from the queue. -/
theorem taken (h : Coherent m e) (ha : e.agenda = []) (ready : List TokenId) :
    Core m (e.taken ready) none :=
  (h.core_of_idle ha).congr rfl

/-- With nothing else to do, nothing urgent is planned. -/
theorem of_planned {new : List Chore} (h : Core m (e.plan new) none) (ha : e.agenda = [])
    (hnew : ∀ b ∈ new, b.calm = true) : Coherent m (e.plan new) := by
  refine of_calm h ?_
  show ∀ b ∈ new ++ e.agenda, b.calm = true
  rw [ha, append_nil]
  exact hnew

theorem endToken (h : Core m e none) (ha : e.agenda = []) (t : TokenId) :
    Coherent m (e.plan [.killToken t]) :=
  of_planned (h.plan_kills [t]) ha (by simp [Chore.calm, Chore.urgent])

theorem failed (h : Core m e none) (ha : e.agenda = []) (host : Host ω) (t : TokenId) (tok : Token)
    (error : TokenError) : Coherent m (e.failed host t tok error) := by
  refine endToken ?_ ?_ t
  · exact h.congr rfl
  · exact ha

end Coherent

/-! ## Steps that change or end the token -/

/-- A token changes but keeps its scopes. -/
theorem Core.becomes (h : Core m e empty) (ht : e.tokens.get? t = some tok)
    (hg : tok'.group = tok.group) (hr : tok'.region = tok.region) (hx : tok'.txn = tok.txn) :
    Core m (e.becomes t tok') empty := by
  have hkept := h.onToken t (f := fun old =>
    { tok' with group := old.group, region := old.region, txn := old.txn }) (fun _ => rfl)
    (fun _ => rfl) fun _ => rfl
  rw [onToken_eq ht, ← hg, ← hr, ← hx] at hkept
  exact hkept

namespace Coherent

/-- A token changes but keeps its scopes, and goes on. -/
theorem goesOn (h : Core m e none) (ha : e.agenda = []) (ht : e.tokens.get? t = some tok)
    (hg : tok'.group = tok.group) (hr : tok'.region = tok.region) (hx : tok'.txn = tok.txn) :
    Coherent m (e.goesOn t tok') := by
  refine of_idle ?_ ha
  exact (h.becomes ht hg hr hx).congr rfl

theorem park (h : Core m e none) (ha : e.agenda = []) (t : TokenId) (cell : GroupId) :
    Coherent m (e.park t cell) := by
  unfold Engine.park
  split
  · rename_i waiters region _ _ hcell
    have hparked : Core m (e.onGroup cell fun g => { g with kind := .cell (waiters ++ [t]) region })
        none := by
      refine { h with
        kinship := h.kinship.onGroup cell _
        aligned := h.aligned.mono_groups ?_ (Store.next_modify ..)
        bound := ?_
        bound_known := fun hb => by simpa [Engine.onGroup] using h.bound_known hb }
      · intro g grp hg
        grind [Engine.onGroup]
      · have := @h.bound
        grind [Engine.onGroup]
    refine of_idle (hparked.onToken t ?_ ?_ ?_) ha <;> exact fun _ => rfl
  · exact endToken h ha t

end Coherent

/-! ## Cells -/

/-- The charter of a state with one more cell, computed below a region. -/
def Charter.withCell (m : Charter) (e : Engine ω) (g : GroupId) (p : RegionId) : Charter :=
  (m.withGroup e.groups.next g).withRegion e.regions.next e.groups.next (m.txn p) (0, .resolve)

theorem Charter.extends_withCell (m : Charter) (e : Engine ω) (g : GroupId) (p : RegionId) :
    m.Extends (m.withCell e g p) e.groups e.regions e.transactions := by
  refine { m.extends_withRegion e.groups e.regions e.transactions e.groups.next (m.txn p)
    (0, .resolve) with above := ?_ }
  intro g' hg'
  refine if_neg ?_
  rintro rfl
  exact Nat.lt_irrefl _ hg'

/-- A cell and the region that computes it are founded. -/
theorem Core.openCell (h : Core m e none) (ha : e.agenda = []) {p : RegionId} {preg : Region}
    (hg : e.groups.get? g = some grp) (hk : grp.killed = false) (hp : e.regions.get? p = some preg)
    (hgp : m.group p = g) : Core (m.withCell e g p) (e.openCell g p) (some e.regions.next) := by
  have hext := m.extends_withCell e g p
  have hal := ((h.extend hext).aligned.insertCell (p := p) (g := g)
    ((hext.group (Store.lt_next hp)).trans hgp) (if_pos rfl) (if_pos rfl)
    ((if_pos rfl).trans (hext.txn (Store.lt_next hp)).symm) (if_pos rfl))
  have hkin : Kinship e.tokens e.groups [] := ha ▸ h.kinship
  constructor
  · exact h.census.grow hp _
  · rw [show (e.openCell g p).agenda = [] from ha]
    exact hkin.found hg hk _
  · refine (hal.mono_groups ?_ (Store.next_modify ..)).mono_regions ?_ (Store.next_modify ..)
    · intro g' grp' hg'
      grind [Engine.openCell, Option.map_eq_some_iff]
    · intro r reg hr
      grind [Engine.openCell, Option.map_eq_some_iff]
  · intro c v grp' hb hg'
    -- a cell that is bound was there before
    have hlt := h.bound_known hb
    have hold := @h.bound c v
    grind [Engine.openCell, Option.map_eq_some_iff]
  · intro c v hb
    have := h.bound_known hb
    simp only [Engine.openCell, Store.next_modify, Store.next_insert]
    omega
  · intro k v hm
    rw [show (e.openCell g p).agenda = [] from ha] at hm
    cases hm

namespace Coherent

theorem subgoal (h : Core m e none) (ha : e.agenda = []) (ht : e.tokens.get? t = some tok)
    {left right : Nat} {e₁ : Engine ω}
    (hs : (e.openCell tok.group tok.region).forked.spawn
      (e.cellToken tok right) = some (e.tokens.next, e₁)) :
    Coherent (m.withCell e tok.group tok.region) ((e₁.enqueue e.tokens.next).goesOn t
      { tok with env := .future e.groups.next :: tok.env, node := left }) := by
  obtain ⟨grp, hg, hk, -⟩ := (ha ▸ h.kinship : Kinship e.tokens e.groups []).alive ht
  obtain ⟨reg, hr, -⟩ := h.census.region_of ht
  have hopen : Core (m.withCell e tok.group tok.region) (e.openCell tok.group tok.region).forked
      (some e.regions.next) :=
    (h.openCell ha hg hk hr (h.aligned.token ht).1).congr rfl
  have hspawned : Core (m.withCell e tok.group tok.region) (e₁.enqueue e.tokens.next) none := by
    refine (hopen.spawn hs (if_pos rfl) ?_ ?_).congr rfl
    · exact (if_pos rfl).trans (h.aligned.token ht).2
    · exact fun r hr => .inl (Option.some.inj hr).symm
  have hgrown := spawn_grown hs
  refine goesOn hspawned (hgrown.agenda.trans ha) (hgrown.token ht) ?_ ?_ ?_ <;>
    rfl

/-- A cell that is bound leaves the rest to chores. -/
theorem resolve (h : Core m e none) (ha : e.agenda = []) {c : GroupId} {grp : Group}
    {waiters : List TokenId} {region : RegionId} (hg : e.groups.get? c = some grp)
    (hkind : grp.kind = .cell waiters region) (value : Value) :
    Coherent m (e.bind c value waiters region) := by
  obtain ⟨habove, -⟩ := h.aligned.cell hg hkind
  have hroot : rootGroup ≠ c := by
    rintro rfl
    exact habove h.aligned.above_root
  have hnew : ∀ b ∈ .killGroup c :: .closeRegions [region] [] :: waiters.map Chore.wake,
      b = .killGroup c ∨ b = .closeRegions [region] [] ∨ ∃ t, b = .wake t := by
    intro b hb
    simp only [mem_cons, mem_map] at hb
    grind
  -- a cell that was bound before is another one
  have hold : ∀ {c' v}, ((c, value) :: e.bound).lookup c' = some v → c' ≠ c →
      e.bound.lookup c' = some v := by grind
  have hbound : Core m (e.bind c value waiters region) none := by
    constructor
    · show Census e.tokens e.regions (detaches (_ ++ e.agenda)) none
      grind [detaches_append, detaches_eq_nil, Core.census]
    · exact (h.kinship.onGroup c _).push (fun g hm => by have := hnew _ hm; grind)
        fun hm => by have := hnew _ hm; grind
    · refine h.aligned.mono_groups ?_ (Store.next_modify ..)
      intro g grp' hg'
      grind [Engine.bind, Engine.plan, Engine.count, Engine.onGroup]
    · intro c' v grp' hb (hg' : (e.groups.modify c _).get? c' = some grp')
      by_cases hc : c' = c
      · subst hc
        exact .inr mem_cons_self
      · rw [Store.get?_modify, if_neg hc] at hg'
        exact (h.bound (hold hb hc) hg').imp_right (mem_append_right _)
    · intro c' v hb
      show c'.index < (e.groups.modify c _).next.index
      rw [Store.next_modify]
      by_cases hc : c' = c
      · subst hc
        exact Store.lt_next hg
      · exact h.bound_known (hold hb hc)
    · intro k v hm
      rcases mem_append.1 hm with hm | hm
      · have := hnew _ hm
        grind
      · exact h.release hm
  refine of_planned hbound ha fun b hb => ?_
  rcases hnew b hb with rfl | rfl | ⟨t, rfl⟩ <;> rfl

end Coherent

/-! ## Regions of an `otherwise` -/

/-- A token is carried over to a region of the same group and transaction. -/
theorem Core.moved (h : Core m e empty) (ht : e.tokens.get? t = some tok)
    (htarget : e.regions.get? target = some treg) (hr : e.regions.get? tok.region = some reg)
    (hne : target ≠ tok.region) (hempty : ∀ r, empty = some r → r = target)
    (hgroup : m.group target = tok.group) (htxn : m.txn target = tok.txn) :
    Core m (e.moved t tok.region target) (if reg.live = 1 then some tok.region else none) where
  census := h.census.move ht hr htarget hne hempty
  kinship := h.kinship.onToken t fun _ => rfl
  aligned := by
    have htokens : Aligned m (e.tokens.modify t fun token => { token with region := target })
        e.groups e.regions e.transactions := by
      refine { h.aligned with token := ?_ }
      intro t' tok' ht'
      have := @h.aligned.token
      grind
    grind [Aligned.mono_regions, Engine.moved]
  bound := h.bound
  bound_known := h.bound_known
  release := fun hm => (h.release hm).mono (by simp [Engine.moved])

/-- The charter of that state. -/
def Charter.withOtherwise (m : Charter) (e : Engine ω) (k : Continuation) : Charter :=
  m.withRegion e.regions.next k.group k.txn ((m.way k.region).1 + 1, (m.way k.region).2)

theorem Core.openOtherwise (h : Core m e none) (hr : e.regions.get? k.region = some reg)
    (hk : Kept m e.regions k) :
    Core (m.withOtherwise e k) (e.openOtherwise k) (some e.regions.next) := by
  have hext : m.Extends (m.withOtherwise e k) e.groups e.regions e.transactions :=
    m.extends_withRegion ..
  have hcore := h.extend hext
  refine hcore.newRegion hr (hcore.aligned.insertOtherwise ?_ (if_pos rfl) (if_pos rfl) ?_)
  · exact ⟨hk.known, (hext.group hk.known).trans hk.group, (hext.txn hk.known).trans hk.txn⟩
  · rw [hext.way hk.known]
    exact if_pos rfl

namespace Coherent

theorem enterOtherwise (h : Core m e none) (ha : e.agenda = []) (ht : e.tokens.get? t = some tok)
    (left right : Nat) : Coherent (m.withOtherwise e (tok.continueAt right))
      (((e.openOtherwise (tok.continueAt right)).moved t tok.region e.regions.next).plan
        [.proceed t left]) := by
  obtain ⟨reg, hr, hmem⟩ := h.census.region_of ht
  obtain ⟨hgroup, htxn⟩ := h.aligned.token ht
  have hopen := h.openOtherwise (k := tok.continueAt right) hr ⟨Store.lt_next hr, hgroup, htxn⟩
  have hmoved := hopen.moved ht (Store.get?_next_insert_modify hr ..)
    (Store.get?_insert_modify hr ..) (Store.ne_next hr).symm
    (fun r hr => (Option.some.inj hr).symm) (if_pos rfl) (if_pos rfl)
  have hpos := h.census.live_pos_of_token hr hmem
  rw [if_neg (by simp; omega)] at hmoved
  have hsent := hmoved.plan [.proceed t left] (by simp) (by simp) (by simp) (by simp)
  have hagenda : (((e.openOtherwise (tok.continueAt right)).moved t tok.region
      e.regions.next).plan [.proceed t left]).agenda = [.proceed t left] :=
    congrArg (_ :: ·) ha
  have htok : (e.tokens.modify t fun token => { token with region := e.regions.next }).get? t =
      some { tok with region := e.regions.next } := by
    rw [Store.get?_modify, if_pos rfl, ht]
    rfl
  refine of_errand ?_ htok (.inl hagenda) ?_
  · rw [hagenda]
    exact hsent
  · rw [hagenda]
    simp

/-- A publication carries its token out of an `otherwise`. -/
theorem escape (h : Core m e none) (ha : e.agenda = []) (ht : e.tokens.get? t = some tok)
    {reg preg : Region} {b : Bool} {k : Continuation} {p : RegionId} (next : Nat)
    (hr : e.regions.get? tok.region = some reg) (hkind : reg.kind = .otherwise b k)
    (hp : reg.parent = some p) (hpreg : e.regions.get? p = some preg) (hne : p ≠ tok.region) :
    Coherent m (((e.published tok.region k).moved t tok.region p).plan
      ((if reg.live = 1 then [.quiesce tok.region] else []) ++ [.proceed t next])) := by
  obtain ⟨hgroup, htxn⟩ := h.aligned.token ht
  obtain ⟨hparent, hkept, hgr, hxr, -⟩ := h.aligned.otherwise hr hkind
  cases hp.symm.trans hparent
  have hpub : Core m (e.published tok.region k) none := by
    refine { h with
      census := h.census.onRegion tok.region (by simp) (by simp) (by simp) (by simp)
      aligned := h.aligned.mono_regions ?_ (Store.next_modify ..)
      release := fun hm => (h.release hm).mono (by simp [published, onRegion]) }
    intro r reg' hr'
    grind [published, onRegion]
  obtain ⟨reg', hr', htokens, hlive, hparent', hkind'⟩ :=
    published_regions tok.region k hr
  obtain ⟨preg', hpreg', -⟩ := published_regions tok.region k hpreg
  have hmoved := hpub.moved ht hpreg' hr' hne (by simp)
    (hkept.group.trans (hgr.symm.trans hgroup)) (hkept.txn.trans (hxr.symm.trans htxn))
  have htok : ((e.published tok.region k).moved t tok.region k.region).tokens.get? t =
      some { tok with region := k.region } := by
    show (e.tokens.modify t _).get? t = _
    rw [Store.get?_modify, if_pos rfl, ht]
    rfl
  have hsent := hmoved.plan
    ((if reg.live = 1 then [.quiesce tok.region] else []) ++ [.proceed t next])
    (by split <;> simp) (by split <;> simp) (by split <;> simp) (by split <;> simp)
  rw [hlive] at hsent
  have hagenda : (((e.published tok.region k).moved t tok.region k.region).plan
      ((if reg.live = 1 then [.quiesce tok.region] else []) ++ [.proceed t next])).agenda =
      (if reg.live = 1 then [.quiesce tok.region] else []) ++ [.proceed t next] := by
    show _ ++ e.agenda = _
    rw [ha, append_nil]
  by_cases hone : reg.live = 1
  · simp only [if_pos hone] at hsent hagenda ⊢
    have hleft : ∃ reg'', ((e.published tok.region k).moved t tok.region k.region).regions.get?
        tok.region = some reg'' ∧ reg''.kind = .otherwise true k ∧
        reg''.parent = some k.region ∧ reg''.live = 0 := by
      show ∃ reg'', (((e.published tok.region k).regions.modify k.region _).modify tok.region
        _).get? tok.region = some reg'' ∧ _
      grind
    obtain ⟨reg'', hr'', hk'', hp'', hl''⟩ := hleft
    refine of_errand ?_ htok (.inr (.inl ⟨tok.region, reg'', k, hagenda, hr'', hk'', hp''⟩)) ?_
    · rw [hagenda]
      exact hsent
    · intro r reg₁ hm hr₁
      rw [hagenda] at hm
      have e₁ : r = tok.region := by simpa using hm
      subst e₁
      cases hr''.symm.trans hr₁
      exact hl''
  · simp only [if_neg hone, nil_append] at hsent hagenda ⊢
    refine of_errand ?_ htok (.inl hagenda) ?_
    · rw [hagenda]
      exact hsent
    · rw [hagenda]
      simp

end Coherent

/-! ## Transactions -/

/-- The charter of a state with one more transaction. -/
def Charter.withAtomic (m : Charter) (e : Engine ω) (k : Continuation) : Charter :=
  ((m.withGroup e.groups.next k.group).withTxn e.transactions.next k.txn).withRegion
    e.regions.next e.groups.next (some e.transactions.next) (0, .buffer)

theorem Charter.extends_withAtomic (m : Charter) (e : Engine ω) (k : Continuation) :
    m.Extends (m.withAtomic e k) e.groups e.regions e.transactions := by
  refine { m.extends_withRegion e.groups e.regions e.transactions e.groups.next
    (some e.transactions.next) (0, .buffer) with above := ?_, lineage := ?_ }
  · intro g hg
    refine if_neg ?_
    rintro rfl
    exact Nat.lt_irrefl _ hg
  · intro x hx
    refine if_neg ?_
    rintro rfl
    exact Nat.lt_irrefl _ hx

/-- The scope of a new transaction names all transactions around it. -/
theorem Core.innerScope_lineage (h : Core m e none) (ht : e.tokens.get? t = some tok) :
    (e.innerScope tok).lineage = e.transactions.next :: m.lineage? tok.txn := by
  obtain ⟨reg, hr, -⟩ := h.census.region_of ht
  obtain ⟨-, htxn⟩ := h.aligned.token ht
  unfold innerScope scopeOf
  cases hx : tok.txn with
  | none => rfl
  | some x =>
    obtain ⟨txn, htxn'⟩ := h.txn_of_region hr (htxn.trans hx)
    simp only [Option.bind_some, htxn', Option.map_some]
    show e.transactions.next :: txn.scope.lineage = _
    rw [(h.aligned.scope htxn').1]
    rfl

/-- A transaction, its group and its region are founded together. -/
theorem Core.openAtomic (h : Core m e none) (ha : e.agenda = []) {scope : Scope}
    (hg : e.groups.get? k.group = some grp) (hk : grp.killed = false)
    (hr : e.regions.get? k.region = some reg) (hkept : Kept m e.regions k)
    (hscope : scope.lineage = e.transactions.next :: m.lineage? k.txn) :
    Core (m.withAtomic e k) (e.openAtomic scope k) (some e.regions.next) := by
  have hext := m.extends_withAtomic e k
  have hkept' : Kept (m.withAtomic e k) e.regions k :=
    ⟨hkept.known, (hext.group hkept.known).trans hkept.group, (hext.txn hkept.known).trans hkept.txn⟩
  have hlineage : (m.withAtomic e k).lineage e.transactions.next =
      e.transactions.next :: m.lineage? k.txn := if_pos rfl
  -- the transaction around the new one is older, so its lineage is as before
  have houter : ∀ x, k.txn = some x → x.index < e.transactions.next.index := by
    intro x hx
    obtain ⟨txn, htxn⟩ := h.txn_of_region hr (hkept.txn.trans hx)
    exact Store.lt_next htxn
  have hsame : (m.withAtomic e k).lineage? k.txn = m.lineage? k.txn := by
    cases hx : k.txn with
    | none => rfl
    | some x => exact hext.lineage (houter x hx)
  have hal := (h.extend hext).aligned.insertTransaction
    { scope, parent := k.txn, group := e.groups.next, continuation := k }
    hkept' rfl rfl (hscope.trans hlineage.symm) (by rw [hlineage, hsame]) houter (if_pos rfl)
    (if_pos rfl) (if_pos rfl) (if_pos rfl)
  have hkin : Kinship e.tokens e.groups [] := ha ▸ h.kinship
  constructor
  · exact h.census.grow hr _
  · rw [show (e.openAtomic scope k).agenda = [] from ha]
    exact hkin.found hg hk _
  · refine (hal.mono_groups ?_ (Store.next_modify ..)).mono_regions ?_ (Store.next_modify ..)
    · intro g' grp' hg'
      grind [Engine.openAtomic, Option.map_eq_some_iff]
    · intro r reg hr
      grind [Engine.openAtomic, Option.map_eq_some_iff]
  · intro c v grp' hb hg'
    have hlt := h.bound_known hb
    have hold := @h.bound c v
    grind [Engine.openAtomic, Option.map_eq_some_iff]
  · intro c v hb
    have := h.bound_known hb
    simp only [Engine.openAtomic, Store.next_modify, Store.next_insert]
    omega
  · intro k' v hm
    rw [show (e.openAtomic scope k).agenda = [] from ha] at hm
    cases hm

/-- The token that starts a transaction is carried over to its group and to its region. -/
theorem Core.enterAtomic (h : Core m e (some target)) {x : TxnId} (ht : e.tokens.get? t = some tok)
    (hr : e.regions.get? tok.region = some reg) (htarget : e.regions.get? target = some treg)
    (hne : target ≠ tok.region) (hg : e.groups.get? g = some grp) (hk : grp.killed = false)
    (hgne : g ≠ tok.group) (hgroup : m.group target = g) (htxn : m.txn target = some x)
    (body : Nat) : Core m ((e.enlistToken t tok.group g x body).moved t tok.region target)
      (if reg.live = 1 then some tok.region else none) := by
  obtain ⟨old, hold, -⟩ := h.kinship.group_of ht
  have htok : (e.enlistToken t tok.group g x body).tokens.get? t =
      some { tok with group := g, txn := some x, node := body } := by
    show (e.tokens.modify t _).get? t = _
    rw [Store.get?_modify, if_pos rfl, ht]
    rfl
  constructor
  · have hcensus : Census (e.enlistToken t tok.group g x body).tokens e.regions
        (detaches e.agenda) (some target) := h.census.onToken t fun _ => rfl
    have hmoved := hcensus.move htok hr htarget hne fun r hr => (Option.some.inj hr).symm
    exact hmoved
  · have hkin : Kinship (e.enlistToken t tok.group g x body).tokens
        (e.enlistToken t tok.group g x body).groups e.agenda :=
      h.kinship.rehome ht hg hk hgne rfl
    exact hkin.onToken t fun _ => rfl
  · have htokens : Aligned m ((e.enlistToken t tok.group g x body).moved t tok.region target).tokens
        e.groups e.regions e.transactions := by
      refine { h.aligned with token := ?_ }
      intro t' tok' ht'
      have := @h.aligned.token
      grind [enlistToken, Engine.moved]
    refine (htokens.mono_groups ?_ ?_).mono_regions ?_ ?_
    · intro g' grp' hg'
      grind [enlistToken, Engine.moved]
    · simp [enlistToken, Engine.moved]
    · intro r reg' hr'
      grind [enlistToken, Engine.moved]
    · simp [enlistToken, Engine.moved]
  · have := @h.bound
    grind [enlistToken, Engine.moved]
  · have := @h.bound_known
    grind [enlistToken, Engine.moved]
  · exact fun hm => (h.release hm).mono (by simp [enlistToken, Engine.moved])

theorem Coherent.enterAtomic (h : Core m e none) (ha : e.agenda = [])
    (ht : e.tokens.get? t = some tok) (body next : Nat) :
    Coherent (m.withAtomic e (tok.continueAt next)) (((e.inAtomic t tok next body).moved t
        tok.region e.regions.next).plan [.enqueue t]) := by
  obtain ⟨reg, hr, hmem⟩ := h.census.region_of ht
  obtain ⟨grp, hg, hk, -⟩ := (ha ▸ h.kinship : Kinship e.tokens e.groups []).alive ht
  obtain ⟨hgroup, htxn⟩ := h.aligned.token ht
  have hopen := h.openAtomic ha (k := tok.continueAt next) hg hk hr
    ⟨Store.lt_next hr, hgroup, htxn⟩ (h.innerScope_lineage ht)
  have hentered := hopen.enterAtomic ht (Store.get?_insert_modify hr ..)
    (Store.get?_next_insert_modify hr ..) (Store.ne_next hr).symm
    (Store.get?_next_insert_modify hg ..) rfl (Store.ne_next hg).symm (if_pos rfl) (if_pos rfl) body
  have hpos := h.census.live_pos_of_token hr hmem
  rw [if_neg (by simp; omega)] at hentered
  refine of_planned (hentered.plan [.enqueue t] (by simp) (by simp) (by simp) (by simp)) ha ?_
  simp [Chore.calm, Chore.urgent]

theorem Core.enlist (h : Core m e none) (scope : Scope) (cohorts : List CohortId) :
    Core m (e.enlist scope cohorts) none := by
  unfold Engine.enlist
  induction scope.lineage generalizing e with
  | nil => exact h
  | cons x xs ih => exact ih (h.onTransaction x (by simp [Transaction.enlist]))

theorem Engine.enlist_agenda (scope : Scope) (cohorts : List CohortId) :
    (e.enlist scope cohorts).agenda = e.agenda := by
  unfold enlist
  induction scope.lineage generalizing e with
  | nil => rfl
  | cons x xs ih => exact ih

/-- A transaction may be aborted at any time. -/
theorem Coherent.planAbort (h : Core m e none) (ha : e.agenda = []) (x : TxnId) {after : List Chore}
    (hafter : ∀ b ∈ after, ∃ t, b = .killToken t) : Coherent m (e.plan (.abort x :: after)) := by
  refine of_urgent (h.plan _ ?_ ?_ ?_ ?_) rfl rfl ?_ (by simp) (by simp) (by simp)
  · grind
  · grind
  · grind
  · grind
  · intro b hb
    rw [ha] at hb
    simp only [append_eq, append_nil] at hb
    obtain ⟨t, rfl⟩ := hafter b hb
    rfl

/-! ## Nodes -/

theorem Replied.coherent {reply : Reply} (hr : Replied host e t tok site next reply e')
    (h : Core m e none) (ha : e.agenda = []) (ht : e.tokens.get? t = some tok) : Coherent m e' := by
  cases hr with
  | publish => refine .goesOn h ha ht ?_ ?_ ?_ <;> rfl
  | halt => exact .endToken h ha t
  | fail => exact .failed h ha ..

theorem Served.coherent {values : List Value} (hs : Served host e t tok site values next e')
    (h : Core m e none) (ha : e.agenda = []) (ht : e.tokens.get? t = some tok) : Coherent m e' := by
  have habsorbed : ∀ {α : Type} (effect : Effect ω α), Core m (e.absorb effect).2 none :=
    fun _ => h.congr rfl
  cases hs with
  | immediate _ hreply | outside _ _ hreply => exact hreply.coherent (habsorbed _) ha ht
  | launched => refine .of_idle ((habsorbed _).becomes ht ?_ ?_ ?_) ha <;> rfl
  | unspawned => exact .failed (habsorbed _) ha ..
  | inside _ _ hreply =>
    refine hreply.coherent ((habsorbed _).enlist ..) ((enlist_agenda ..).trans ha) ?_
    rw [enlist_eq]
    exact ht
  | refused =>
    exact .planAbort ((habsorbed _).enlist ..) ((enlist_agenda ..).trans ha) _ (by simp)
  | @timer clock n =>
    have hset : Core m
        { e with clocks := setTimer e.clocks clock n.toInt.toNat.toUInt64 t } none :=
      h.congr rfl
    refine .of_idle (hset.becomes ht ?_ ?_ ?_) ha <;> rfl
  | timerFailed => exact .failed h ha ..

theorem Called.coherent {target : Operand} {args : List Operand} {tail : Bool}
    (hc : Called host e t tok target args next tail e') (h : Core m e none) (ha : e.agenda = [])
    (ht : e.tokens.get? t = some tok) : Coherent m e' := by
  have hcounted : ∀ f, Core m (e.count f) none := fun _ => h.congr rfl
  cases hc with
  | pending | argPending => exact .park h ha t _
  | uncallable | mismatch => exact .failed h ha ..
  | enter => refine .goesOn (hcounted _) ha ht ?_ ?_ ?_ <;> rfl
  | site _ _ hserved => exact hserved.coherent (hcounted _) ha ht

/-- A step leaves a coherent state behind. -/
theorem Executed.coherent {node : Node} (hx : Executed host e t tok node e') (h : Core m e none)
    (ha : e.agenda = []) (ht : e.tokens.get? t = some tok) :
    ∃ m', m.Extends m' e.groups e.regions e.transactions ∧ Coherent m' e' := by
  have same : Coherent m e' →
      ∃ m', m.Extends m' e.groups e.regions e.transactions ∧ Coherent m' e' :=
    fun hc => ⟨m, .refl .., hc⟩
  cases hx with
  | stop => exact same (.endToken h ha t)
  | load | field | push | unwind | declare | ret =>
    refine same (.goesOn h ha ht ?_ ?_ ?_) <;> rfl
  | loadPending | fieldPending => exact same (.park h ha t _)
  | fieldFailed | forkFull | subgoalFull => exact same (.failed h ha ..)
  | publish =>
    refine same (.endToken ?_ ?_ t)
    · exact h.congr rfl
    · exact ha
  | @fork _ right =>
    obtain ⟨hg, hx⟩ := h.aligned.token ht
    have hcounted : Core m e.forked none := h.congr rfl
    have hgrown := spawnReady_grown e.forked (tok.forkAt right)
    have hforked : Core m (Engine.spawnReady _ (tok.forkAt right)) none := hcounted.spawnReady hg hx
    refine same (.goesOn hforked (hgrown.agenda.trans ha)
      (hgrown.token ht) ?_ ?_ ?_) <;> rfl
  | subgoal _ hs => exact ⟨_, m.extends_withCell .., .subgoal h ha ht hs⟩
  | resolve hg hkind => exact same (.resolve h ha hg hkind _)
  | otherwise => exact ⟨_, m.extends_withRegion .., .enterOtherwise h ha ht ..⟩
  | escape hr hkind hp hpreg hne => exact same (.escape h ha ht _ hr hkind hp hpreg hne)
  | atomic => exact ⟨_, m.extends_withAtomic .., .enterAtomic h ha ht ..⟩
  | buffer =>
    refine same (.endToken (h.onTransaction _ fun txn => ?_) ha t)
    split <;> simp
  | call hcalled =>
    refine same (hcalled.coherent (h.becomes ht ?_ ?_ ?_) ha ?_) <;> try rfl
    rw [get?_becomes ht, if_pos rfl]

/-! ## Messages and clocks -/

theorem Received.coherent {message : Message} (hr : Received host e message e')
    (h : Core m e none) (ha : e.agenda = []) : Coherent m e' := by
  cases hr with
  | terminate => exact .of_idle (h.congr rfl) ha
  | late | vetoedLate => exact .of_idle h ha
  | @publish t =>
    refine .of_idle (Core.congr (h.onToken t ?_ ?_ ?_) rfl) ha <;>
      exact fun _ => rfl
  | halt => exact .endToken h ha _
  | fail => exact .failed h ha ..
  | @vetoed t tok =>
    cases tok.txn with
    | none => exact .endToken h ha t
    | some x => exact .planAbort h ha x (by simp)

namespace Coherent

theorem idle (h : Core m e none) (ha : e.agenda = []) (host : Host ω) :
    Coherent m (e.idle host).state := by
  have hidle : Core m (e.idle host).state none := by
    refine idle_induct (P := fun e => Core m e none) ?_ ?_ ?_ h
    · exact fun _ _ h => h.congr rfl
    · intro e t h
      have hwoken := h.onToken t (f := Token.woken) (fun _ => rfl) (fun _ => rfl) fun _ => rfl
      exact hwoken.congr rfl
    · exact fun _ h => h.congr rfl
  exact of_idle hidle (Engine.idle_agenda.trans ha)

/-! ## Turns -/

/-- A turn that does not fault leaves a coherent state behind. -/
theorem turn (h : Coherent m e) (host : Host ω) {p : Progress ω} (hp : e.turn host = .ok p) :
    ∃ m', m.Extends m' e.groups e.regions e.transactions ∧ Coherent m' p.state := by
  cases turned hp with
  | chore he he' =>
    subst he
    exact h.performed (Engine.performed he')
  | done => exact ⟨m, .refl .., h⟩
  | skip ha => exact ⟨m, .refl .., of_idle ((h.core_of_idle ha).congr rfl) ha⟩
  | @step _ _ ready _ _ ha _ _ ht _ _ he' =>
    have htaken := h.taken ha ready
    exact (executed htaken ht he').coherent htaken ha ht
  | message ha =>
    refine ⟨m, .refl .., (received ..).coherent ?_ ha⟩
    exact (h.core_of_idle ha).congr rfl
  | idle ha => exact ⟨m, .refl .., idle (h.core_of_idle ha) ha host⟩

end Coherent

/-! ## The start of a run -/

/-- The charter of a run that has just begun. -/
def Charter.initial : Charter where
  group := fun _ => rootGroup
  txn := fun _ => none
  way := fun _ => (0, .publish)
  above := fun _ => none
  lineage := fun _ => []

/-- An engine with the root group and the root region and no token. -/
def Engine.bare (program : Program) (limit : Option Nat) (world : ω) : Engine ω :=
  { Engine.new program limit world with
    started := true
    groups := Store.empty.insert { parent := none, kind := .root }
    regions := Store.empty.insert { parent := none, kind := .root } }

/-- The first token of a run. -/
def Program.firstToken (program : Program) : Token :=
  { node := program.entry, env := [], stack := [], result := .signal, group := ⟨0⟩, region := ⟨0⟩,
    txn := none, span := .none, phase := .runnable }

theorem Engine.start_eq (program : Program) (limit : Option Nat) (world : ω) :
    (Engine.new program limit world).start =
      (Engine.bare program limit world).spawnReady program.firstToken := rfl

section Bare

variable {program : Program} {limit : Option Nat} {world : ω}

theorem Engine.bare_token {t : TokenId} {tok : Token}
    (ht : (Engine.bare program limit world).tokens.get? t = some tok) : False := by
  cases (Store.get?_empty t).symm.trans ht

theorem Engine.bare_txn {x : TxnId} {txn : Transaction}
    (hx : (Engine.bare program limit world).transactions.get? x = some txn) : False := by
  cases (Store.get?_empty x).symm.trans hx

theorem Engine.bare_region {r : RegionId} {reg : Region}
    (hr : (Engine.bare program limit world).regions.get? r = some reg) :
    r = ⟨0⟩ ∧ reg = { parent := none, kind := .root } := by
  have hr := (Store.get?_insert ..).symm.trans hr
  rw [Store.get?_empty] at hr
  split at hr
  · cases hr
    exact ⟨‹_›, rfl⟩
  · cases hr

theorem Engine.bare_group {g : GroupId} {grp : Group}
    (hg : (Engine.bare program limit world).groups.get? g = some grp) :
    g = rootGroup ∧ grp = { parent := none, kind := .root } := by
  have hg := (Store.get?_insert ..).symm.trans hg
  rw [Store.get?_empty] at hg
  split at hg
  · cases hg
    exact ⟨‹_›, rfl⟩
  · cases hg

end Bare

theorem Core.bare (program : Program) (limit : Option Nat) (world : ω) :
    Core Charter.initial (Engine.bare program limit world) (some ⟨0⟩) := by
  have hregion := @bare_region _ program limit world
  have hgroup := @bare_group _ program limit world
  have htoken := @bare_token _ program limit world
  have htxn := @bare_txn _ program limit world
  have hroot : (Engine.bare program limit world).groups.get? rootGroup =
      some { parent := none, kind := .root } := Store.get?_insert_self ..
  constructor
  · show Census _ _ [] _
    constructor <;> grind
  · show Kinship _ _ []
    constructor <;> grind
  · constructor <;> grind [Charter.initial]
  · intro c v grp (hb : List.lookup c [] = some v)
    cases hb
  · intro c v (hb : List.lookup c [] = some v)
    cases hb
  · intro k v (hm : Chore.release k v ∈ [])
    cases hm

/-- A run begins in a coherent state. -/
theorem Coherent.start (program : Program) (limit : Option Nat) (world : ω) :
    Coherent Charter.initial (Engine.new program limit world).start := by
  obtain ⟨e₁, hs⟩ : ∃ e₁, (Engine.bare program limit world).spawn program.firstToken = some (_, e₁) :=
    spawn_isSome (Store.get?_insert_self ..) rfl (Store.get?_insert_self ..) rfl
  have hcore : Core Charter.initial e₁ none := (Core.bare program limit world).spawn hs rfl rfl
    fun r hr => .inl (Option.some.inj hr).symm
  have hagenda : e₁.agenda = [] := (spawn_grown hs).agenda
  rw [start_eq]
  unfold Engine.spawnReady
  rw [hs]
  exact of_idle (hcore.congr rfl) hagenda

end Orchestra
