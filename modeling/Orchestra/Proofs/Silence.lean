/-
  Silence: the right side of an `otherwise` runs exactly if nothing comes out of the left side.

  A token that enters an `otherwise` opens a region for the left side, and what is kept of the token
  is the fallback.  A publication of the left side leaves through the escape, which is written down in
  the region.  When the region is quiescent, the fallback starts unless something is written there.

  `Activations` ties what is written down to what has happened: the left side has published exactly if
  a token has passed its escape in the past.  A region goes once and its key is never used again, so a
  fallback cannot start twice; and the region stays as long as something is in it, so the start comes
  in the turn right after the last token or region in it has gone.
-/
import Orchestra.Proofs.Accounts
import Orchestra.Proofs.Actions
import Orchestra.Proofs.Reactions

namespace Orchestra

open Engine List

variable {ω : Type} {m : Charter} {e e' : Engine ω} {host : Host ω} {t : TokenId} {tok : Token}
  {r : RegionId} {node : Node} {k : Continuation} {next : Nat} {p : Option RegionId}
  {kind : RegionKind} {site : Site}

/-! ## What regions are for -/

namespace Engine

theorem setting_eq_some :
    e.setting r = some (p, kind) ↔
      ∃ reg, e.regions.get? r = some reg ∧ reg.parent = p ∧ reg.kind = kind := by
  grind [Option.map_eq_some_iff, setting]

theorem setting_of_regions (h : e'.regions = e.regions) (r : RegionId) :
    e'.setting r = e.setting r := by
  unfold setting
  rw [h]

/-- The key that is handed out next names no region, and neither do those after it. -/
theorem setting_new (hnew : e.regions.next.index ≤ r.index) : e.setting r = none := by
  unfold setting
  cases hr : e.regions.get? r with
  | none => rfl
  | some reg => exact absurd (Store.lt_next hr) (Nat.not_lt.2 hnew)

section grown

variable {reg : Region} {p : RegionId} {f : Region → Region}

/-- When a region is added below another, the others stay what they are. -/
theorem setting_grown (h : e'.regions = (e.regions.insert reg).modify p f)
    (hf : ∀ reg, (f reg).parent = reg.parent ∧ (f reg).kind = reg.kind)
    (hold : r.index < e.regions.next.index) : e'.setting r = e.setting r := by
  rw [setting_of_modify (e := { e with regions := e.regions.insert reg }) h hf r]
  grind [setting]

/-- The one that is added is what it was made for. -/
theorem setting_grown_new {parent : Option RegionId} (hsetting : e'.setting r = some (parent, kind))
    (hnew : e.regions.next.index ≤ r.index) (h : e'.regions = (e.regions.insert reg).modify p f)
    (hf : ∀ reg, (f reg).parent = reg.parent ∧ (f reg).kind = reg.kind) :
    r = e.regions.next ∧ kind = reg.kind := by
  rw [setting_of_modify (e := { e with regions := e.regions.insert reg }) h hf r] at hsetting
  unfold setting at hsetting
  rw [Store.get?_insert] at hsetting
  split at hsetting
  · cases hsetting
    exact ⟨‹_›, rfl⟩
  · change e.setting r = _ at hsetting
    grind [setting_new]

end grown

theorem moved_setting (source target : RegionId) (r : RegionId) :
    (e.moved t source target).setting r = e.setting r := by
  refine (setting_of_modify (e := e.onRegion target _) rfl ?_ r).trans
    (setting_of_modify rfl ?_ r)
  · exact fun _ => ⟨rfl, rfl⟩
  · exact fun _ => ⟨rfl, rfl⟩

/-- A chore founds a region for votes only. -/
theorem perform_founds {a : Chore} (he' : e.perform host a = .ok e')
    (hnew : e.regions.next.index ≤ r.index) {reg' : Region} (hr' : e'.regions.get? r = some reg') :
    ∃ x, a = .prepare x ∧ reg'.kind = .votes x := by
  have old : e'.regions.next = e.regions.next → False := by
    intro hnext
    have hlt := Store.lt_next hr'
    rw [hnext] at hlt
    omega
  cases performed he' with
  | killToken | detach | close => exact (old (Store.next_modify ..)).elim
  | quiesce => grind [react_regions_next, plan]
  | @prepare x txn =>
    refine ⟨x, rfl, ?_⟩
    have hsetting : (e.openVotes x txn).setting r = some (reg'.parent, reg'.kind) := by
      have hasked : (askVotes host txn.scope (txn.vote x e.regions.next) (e.openVotes x txn)
          txn.cohorts).setting r = some (reg'.parent, reg'.kind) :=
        setting_eq_some.2 ⟨reg', hr', rfl, rfl⟩
      rwa [(askVotes_grown ..).setting] at hasked
    exact (setting_grown_new hsetting hnew rfl fun _ => ⟨rfl, rfl⟩).2
  | release => exact (old (spawnReady_grown ..).next_region).elim
  | _ => exact (old rfl).elim

end Engine

section Steps

theorem Replied.regions {reply : Reply} (h : Replied host e t tok site next reply e') :
    e'.regions = e.regions := by
  cases h <;> rfl

theorem Served.regions {values : List Value} (h : Served host e t tok site values next e') :
    e'.regions = e.regions := by
  cases h with
  | immediate hmode hreply => exact hreply.regions
  | outside hmode hscope hreply => exact hreply.regions
  | inside hmode hscope hreply =>
    rw [hreply.regions, enlist_eq]
    rfl
  | refused =>
    rw [enlist_eq]
    rfl
  | launched | unspawned | timer | timerFailed => rfl

theorem Engine.park_regions (t : TokenId) (c : GroupId) : (e.park t c).regions = e.regions := by
  unfold park
  split <;> rfl

theorem Called.regions {target : Operand} {args : List Operand} {tail : Bool}
    (h : Called host e t tok target args next tail e') : e'.regions = e.regions := by
  cases h with
  | pending | argPending => exact park_regions ..
  | site hv hargs hserved => exact hserved.regions
  | uncallable | mismatch | enter => rfl

/-- A step leaves the regions what they are, but for one that a publication escapes from. -/
theorem Executed.setting_kept (h : Executed host e t tok node e')
    (hold : r.index < e.regions.next.index) (hescape : ∀ next, node = .escape next → r ≠ tok.region) :
    e'.setting r = e.setting r := by
  have same : ∀ reg : Region, reg.parent = reg.parent ∧ reg.kind = reg.kind := fun _ => ⟨rfl, rfl⟩
  cases h with
  | loadPending | fieldPending => exact setting_of_regions (park_regions ..) r
  | @fork left right => exact (spawnReady_grown (e.count _) (tok.forkAt right)).setting r
  | @subgoal left right e₁ hcap hs =>
    refine (setting_of_regions rfl r).trans (((spawn_grown hs).setting r).trans ?_)
    exact setting_grown rfl (fun _ => ⟨rfl, rfl⟩) hold
  | otherwise =>
    refine (moved_setting ..).trans ?_
    exact setting_grown rfl (fun _ => ⟨rfl, rfl⟩) hold
  | escape =>
    refine (moved_setting ..).trans ?_
    grind [setting, published, onRegion]
  | atomic =>
    refine (moved_setting ..).trans ?_
    exact setting_grown rfl (fun _ => ⟨rfl, rfl⟩) hold
  | call hcalled => exact setting_of_regions hcalled.regions r
  | _ => rfl

/-- A publication that escapes is written down. -/
theorem Executed.escaped (h : Executed host e t tok (.escape next) e') :
    ∃ p b k, e.setting tok.region = some (p, .otherwise b k) ∧
      e'.setting tok.region = some (p, .otherwise true k) := by
  cases h with
  | @escape _ reg preg b k p hr hkind hp hpreg hne =>
    refine ⟨some p, b, k, setting_eq_some.2 ⟨reg, hr, hp, hkind⟩, ?_⟩
    refine (moved_setting ..).trans (setting_eq_some.2 ?_)
    obtain ⟨reg', hr', -, -, hp', hkind'⟩ := published_regions tok.region k hr
    exact ⟨reg', hr', hp'.trans hp, hkind' rfl⟩

/-- A step that founds the region of a left side is one at an `otherwise`. -/
theorem Executed.founds (h : Executed host e t tok node e') (hnew : e.regions.next.index ≤ r.index)
    {b : Bool} (hsetting : e'.setting r = some (p, .otherwise b k)) :
    r = e.regions.next ∧ b = false ∧
      ∃ left right, node = .otherwise left right ∧ k = tok.continueAt right := by
  have hnone : e.setting r = none := setting_new hnew
  have old : e'.setting r ≠ e.setting r := by
    rw [hnone, hsetting]
    nofun
  cases h with
  | loadPending | fieldPending => exact absurd (setting_of_regions (park_regions ..) r) old
  | @fork left right =>
    exact absurd ((spawnReady_grown (e.count _) (tok.forkAt right)).setting r) old
  | @subgoal left right e₁ hcap hs =>
    have hcell := ((spawn_grown hs).setting r).symm.trans hsetting
    cases (setting_grown_new hcell hnew rfl fun _ => ⟨rfl, rfl⟩).2
  | @otherwise left right =>
    have hopened := (moved_setting ..).symm.trans hsetting
    obtain ⟨rfl, hkind⟩ := setting_grown_new hopened hnew rfl fun _ => ⟨rfl, rfl⟩
    grind
  | escape hr =>
    -- the region that is escaped from is there already
    refine absurd ((moved_setting ..).trans ?_) old
    grind [setting, published, onRegion]
  | atomic =>
    have hopened := (moved_setting ..).symm.trans hsetting
    cases (setting_grown_new hopened hnew rfl fun _ => ⟨rfl, rfl⟩).2
  | call hcalled => exact absurd (setting_of_regions hcalled.regions r) old
  | _ => exact absurd rfl old

/-- A token that enters an `otherwise` stands in a region of its own. -/
theorem Executed.entered {left right : Nat} (h : Executed host e t tok (.otherwise left right) e')
    {preg : Region} (hp : e.regions.get? tok.region = some preg) :
    ∃ reg, e'.regions.get? e.regions.next = some reg ∧ reg.tokens = [t] ∧
      reg.kind = .otherwise false (tok.continueAt right) := by
  have hne := (Store.ne_next hp).symm
  have hr := Store.get?_next_insert_modify hp
    { parent := some tok.region, kind := .otherwise false (tok.continueAt right) }
    (Region.adopt e.regions.next)
  cases h with
  | otherwise =>
    refine ⟨{ parent := some tok.region, kind := .otherwise false (tok.continueAt right),
              tokens := [t], live := 1 }, ?_, rfl, rfl⟩
    show ((e.openOtherwise (tok.continueAt right)).moved t tok.region
      e.regions.next).regions.get? e.regions.next = _
    unfold moved
    rw [Store.get?_modify, if_neg hne, Store.get?_modify, if_pos rfl]
    exact congrArg (Option.map _) hr

end Steps

/-! ## What a turn does to regions -/

namespace Engine

/-- The region `r` has tokens or regions in it. -/
def Occupied (e : Engine ω) (r : RegionId) : Prop :=
  ∃ reg, e.regions.get? r = some reg ∧ ¬(reg.tokens = [] ∧ reg.children = [])

/-- The region `r` has nothing in it. -/
def Vacant (e : Engine ω) (r : RegionId) : Prop :=
  ∃ reg, e.regions.get? r = some reg ∧ reg.tokens = [] ∧ reg.children = []

theorem Occupied.not_vacant (h : e.Occupied r) : ¬e.Vacant r := by
  rintro ⟨reg, hr, hempty⟩
  obtain ⟨reg', hr', hfull⟩ := h
  cases hr.symm.trans hr'
  exact hfull hempty

/-- A token is about to enter an `otherwise`: the left side gets the region `r`, and `k` is what the
    right side would start from. -/
def Enters (r : RegionId) (k : Continuation) (e : Engine ω) : Prop :=
  r = e.regions.next ∧ ∃ t tok left right, e.stepping = some (t, tok, .otherwise left right) ∧
    k = tok.continueAt right

/-- A token is about to pass the escape of the left side in the region `r`. -/
def Escapes (r : RegionId) (e : Engine ω) : Prop :=
  ∃ t tok next, e.stepping = some (t, tok, .escape next) ∧ tok.region = r

theorem Escapes.region (h : e.Escapes r) (hc : Coherent m e) :
    ∃ reg, e.regions.get? r = some reg := by
  obtain ⟨t, tok, next, hstep, rfl⟩ := h
  obtain ⟨-, -, -, ht, -⟩ := stepping_eq_some hstep
  obtain ⟨reg, hr, -⟩ := hc.core.census.region_of ht
  exact ⟨reg, hr⟩

theorem Escapes.known (h : e.Escapes r) (hc : Coherent m e) : r.index < e.regions.next.index := by
  obtain ⟨reg, hr⟩ := h.region hc
  exact Store.lt_next hr

theorem not_escapes (h : e.stepping = none) : ¬e.Escapes r := by
  rintro ⟨t, tok, next, hstep, -⟩
  cases h.symm.trans hstep

theorem not_enters (h : e.stepping = none) : ¬e.Enters r k := by
  rintro ⟨-, t, tok, left, right, hstep, -⟩
  cases h.symm.trans hstep

/-- What a turn may do to what regions are for. -/
structure Resets (e e' : Engine ω) : Prop where
  next : e.regions.next.index ≤ e'.regions.next.index
  /-- A region is left as it is, unless it reacts or a publication escapes from it. -/
  old : ∀ {r}, r.index < e.regions.next.index →
    (¬e.Escapes r ∧ e'.setting r = e.setting r) ∨
      (e.agenda.head? = some (.quiesce r) ∧ e'.setting r = none) ∨
      (e.Escapes r ∧ ∃ p b k, e.setting r = some (p, .otherwise b k) ∧
        e'.setting r = some (p, .otherwise true k))
  reacts : ∀ {r}, e.agenda.head? = some (.quiesce r) → e'.setting r = none
  new : ∀ {r p b k}, e.regions.next.index ≤ r.index → e'.setting r = some (p, .otherwise b k) →
    b = false ∧ e.Enters r k
  entered : ∀ {r k}, e.Enters r k → e'.Occupied r ∧ ∃ p, e'.setting r = some (p, .otherwise false k)

/-- A turn that no region notices. -/
theorem Resets.still (ha : e.agenda = []) (hstep : e.stepping = none)
    (hr : e'.regions = e.regions) : e.Resets e' where
  next := Nat.le_of_eq (by rw [hr])
  old := fun _ => .inl ⟨not_escapes hstep, setting_of_regions hr _⟩
  reacts := by simp [ha]
  new := by grind [setting_new]
  entered := fun h => absurd h (not_enters hstep)

/-- Of the regions, a chore changes at most the one that reacts. -/
theorem Resets.perform {a : Chore} (he' : e.perform host a = .ok e') : (e.plan [a]).Resets e' := by
  have hstep : (e.plan [a]).stepping = none := stepping_of_chore rfl
  have hnext := perform_regions_next he'
  refine ⟨hnext, fun {r} hold => ?_, fun {r} hhead => ?_, fun {r p b k} hnew hsetting => ?_,
    fun h => absurd h (not_enters hstep)⟩
  · by_cases hquiesce : a = .quiesce r
    · subst hquiesce
      rcases perform_setting he' hold with hkept | hgone
      · exact .inl ⟨not_escapes hstep, hkept⟩
      · exact .inr (.inl ⟨rfl, hgone⟩)
    · refine .inl ⟨not_escapes hstep, ?_⟩
      cases performed he' with
      | @quiesce r₀ reg hr =>
        rw [react_setting]
        show ((e.regions.remove r₀).get? r).map _ = _
        rw [Store.get?_remove, if_neg]
        · rfl
        · rintro rfl
          exact hquiesce rfl
      | killToken | detach | close =>
        refine setting_of_modify rfl ?_ r
        exact fun _ => ⟨rfl, rfl⟩
      | prepare =>
        refine ((askVotes_grown ..).setting r).trans ?_
        exact setting_grown rfl (fun _ => ⟨rfl, rfl⟩) hold
      | release => exact (spawnReady_grown ..).setting r
      | _ => rfl
  · obtain rfl : a = .quiesce r := Option.some.inj hhead
    cases performed he' with
    | quiesced hr =>
      unfold setting
      rw [hr]
      rfl
    | quiesce =>
      rw [react_setting]
      show ((e.regions.remove r).get? r).map _ = _
      rw [Store.get?_remove_self]
      rfl
  · grind [setting_eq_some, perform_founds, plan]

theorem Resets.turn (hc : Coherent m e) {p : Progress ω} (hp : e.turn host = .ok p) :
    e.Resets p.state := by
  cases turned hp with
  | chore he he' =>
    subst he
    exact .perform he'
  | done ha hh => exact .still ha (stepping_of_halted hh) rfl
  | skip ha hh hready hskip => exact .still ha (stepping_of_skip hready hskip) rfl
  | message ha hh hready => exact .still ha (stepping_of_empty hready) (receive_regions _)
  | idle ha hh hready => exact .still ha (stepping_of_empty hready) idle_regions
  | @step t tok ready node e' ha hh hready ht hphase hnode he' =>
    have hcore := hc.taken ha ready
    have hstep := stepping_of_step ha hh hready ht hphase hnode
    have hexecuted := executed hcore ht he'
    obtain ⟨mail, notices, hf⟩ := hc.footprint ha ht hphase he'
    refine ⟨hf.next_region, fun {r} hold => ?_, by simp [ha], fun {r p b k} hnew hsetting => ?_, ?_⟩
    · by_cases hescape : e.Escapes r
      · obtain ⟨t', tok', next, hstep', rfl⟩ := hescape
        cases hstep.symm.trans hstep'
        obtain ⟨p, b, k, hbefore, hafter⟩ := hexecuted.escaped
        exact .inr (.inr ⟨⟨t, tok, next, hstep, rfl⟩, p, b, k, hbefore, hafter⟩)
      · refine .inl ⟨hescape, hexecuted.setting_kept hold ?_⟩
        rintro next rfl rfl
        exact hescape ⟨t, tok, next, hstep, rfl⟩
    · obtain ⟨rfl, rfl, left, right, rfl, rfl⟩ := hexecuted.founds hnew hsetting
      exact ⟨rfl, rfl, t, tok, left, right, hstep, rfl⟩
    · rintro r k ⟨rfl, t', tok', left, right, hstep', rfl⟩
      cases hstep.symm.trans hstep'
      obtain ⟨preg, hp, -⟩ := hcore.census.region_of ht
      obtain ⟨reg, hr, htokens, hkind⟩ := hexecuted.entered hp
      exact ⟨⟨reg, hr, by simp [htokens]⟩, reg.parent, setting_eq_some.2 ⟨reg, hr, rfl, hkind⟩⟩

/-! ## Fallbacks -/

/-- The region `r` is about to go. -/
def Goes (r : RegionId) (e : Engine ω) : Prop :=
  e.agenda.head? = some (.quiesce r) ∧ e.setting r ≠ none

/-- In reaction to the region `r`, the token `tok` is about to start. -/
def FallsBack (host : Host ω) (r : RegionId) (tok : Token) (e : Engine ω) : Prop :=
  e.agenda.head? = some (.quiesce r) ∧ ∃ e', e.turn host = .ok (.next e') ∧
    e'.tokens.get? e.tokens.next = some tok ∧ e.tokens.next ∈ e'.ready

theorem spawnReady_started (tok : Token) {tok' : Token}
    (h : (e.spawnReady tok).tokens.get? e.tokens.next = some tok') :
    tok' = tok ∧ e.groupAlive tok.group = true := by
  unfold spawnReady spawn at h
  grind [onGroup, onRegion, count, enqueue]

/-- A token starts only as the fallback of a left side that was silent. -/
theorem FallsBack.silent (h : e.FallsBack host r tok) : ∃ p k,
    e.setting r = some (p, .otherwise false k) ∧ e.groupAlive k.group = true ∧
      tok = k.resume .signal := by
  obtain ⟨hhead, e', hp, htok, -⟩ := h
  have hnone : e.tokens.get? e.tokens.next = none := Store.get?_next ..
  obtain ⟨rest, ha⟩ := head?_eq_some_iff.1 hhead
  cases hr : e.regions.get? r with
  | none =>
    have hquiesced : { e with agenda := rest }.perform host (.quiesce r) = .ok _ := rfl
    rw [eq_plan ha, turn_plan hquiesced] at hp
    grind [quiesce]
  | some reg =>
    rw [turn_quiesce ha hr] at hp
    cases hp
    unfold shut at htok
    cases hkind : reg.kind with
    | otherwise b k =>
      rw [hkind] at htok
      cases b with
      | true => cases hnone.symm.trans htok
      | false =>
        obtain ⟨rfl, halive⟩ := spawnReady_started _ htok
        exact ⟨reg.parent, k, setting_eq_some.2 ⟨reg, hr, rfl, hkind⟩, halive, rfl⟩
    | root | pruning | transaction | votes =>
      rw [hkind] at htok
      cases hnone.symm.trans htok

/-- The fallback of a left side that was silent starts when its region goes, if its group is alive. -/
theorem FallsBack.of_silent (hc : Coherent m e) (hs : Sections m e e.agenda.head?)
    (hhead : e.agenda.head? = some (.quiesce r))
    (hsetting : e.setting r = some (p, .otherwise false k)) (halive : e.groupAlive k.group = true) :
    e.FallsBack host r (k.resume .signal) := by
  obtain ⟨rest, ha⟩ := head?_eq_some_iff.1 hhead
  obtain ⟨reg, hr, -, hkind⟩ := setting_eq_some.1 hsetting
  have hparent := (hc.core.aligned.otherwise hr hkind).1
  obtain ⟨preg, hp, -⟩ := hc.core.census.parent_of hr hparent
  -- the region above is there, and open
  have hne : k.region ≠ r := by
    rintro heq
    have holder := hc.core.census.older hr hparent
    grind
  have hp' : (e.regions.remove r).get? k.region = some preg := by
    rw [Store.get?_remove, if_neg hne]
    exact hp
  obtain ⟨grp, hg, hk⟩ : e.Alive k.group := by
    simpa [groupAlive, Option.any_eq_true] using halive
  obtain ⟨e', hspawn⟩ : ∃ e', ({ e with regions := e.regions.remove r, agenda := rest }.plan
      (reg.farewell r)).spawn (k.resume .signal) = some (e.tokens.next, e') :=
    spawn_isSome hg hk hp' (hs.opened hp)
  refine ⟨hhead, _, turn_quiesce ha hr, ?_⟩
  unfold shut
  rw [hkind]
  dsimp only [react]
  rw [if_neg Bool.false_ne_true]
  unfold spawnReady
  rw [hspawn]
  obtain ⟨-, -, -, he'⟩ := spawn_eq_some hspawn
  grind [enqueue, plan]

end Engine

/-- A region that is about to go has nothing in it. -/
theorem Coherent.vacant (h : Coherent m e) (hhead : e.agenda.head? = some (.quiesce r)) {reg : Region}
    (hr : e.regions.get? r = some reg) : e.Vacant r := by
  have hlive := h.quiet (mem_of_mem_head? hhead) hr
  rw [h.core.census.live_eq hr] at hlive
  refine ⟨reg, hr, eq_nil_of_length_eq_zero ?_, eq_nil_of_length_eq_zero ?_⟩ <;> omega

/-! ## Activations -/

section Activations

variable {e e' e₀ e₁ : Engine (Logged ω)} {past : History ω} {k : Continuation}

/-- What is written down in the regions of left sides is what has happened. -/
structure Activations (past : History ω) (e : Engine (Logged ω)) : Prop where
  /-- The region of a left side is there until it has been seen vacant. -/
  entered : ∀ {e₀ r k}, e₀ ∈ past → e₀.Enters r k → r.index < e.regions.next.index ∧
    ((∃ p b, e.setting r = some (p, .otherwise b k)) ∨
      (e.setting r = none ∧ ∃ e₁ ∈ past, e₁.Vacant r))
  silent : ∀ {r p b k}, e.setting r = some (p, .otherwise b k) →
    (b = true ↔ ∃ e₁ ∈ past, e₁.Escapes r)
  escaped : ∀ {e₁ r}, e₁ ∈ past → e₁.Escapes r → r.index < e.regions.next.index
  gone : ∀ {e₁ r}, e₁ ∈ past → e₁.Goes r → r.index < e.regions.next.index ∧ e.setting r = none
  /-- Only regions for votes may be empty from the start. -/
  settling : ∀ {r p kind}, .settle r ∈ e.agenda → e.setting r = some (p, kind) →
    ∃ x, kind = .votes x

namespace Activations

/-- A turn leaves the regions of left sides true to what has happened. -/
theorem resets (h : Activations past e) (hc : Coherent m e) (hresets : e.Resets e')
    (hsettling : ∀ {r p kind}, .settle r ∈ e'.agenda → e'.setting r = some (p, kind) →
      ∃ x, kind = .votes x) : Activations (past ++ [e]) e' where
  entered := by
    intro e₀ r k he₀ henters
    rcases mem_append.1 he₀ with he₀ | he₀
    · obtain ⟨hknown, hthere⟩ := h.entered he₀ henters
      refine ⟨Nat.lt_of_lt_of_le hknown hresets.next, ?_⟩
      rcases hthere with ⟨p, b, hsetting⟩ | ⟨hnone, e₁, he₁, hvacant⟩
      · rcases hresets.old hknown with ⟨-, hkept⟩ | ⟨hhead, hgone⟩ | ⟨-, p', b', k', hold, hnew⟩
        · exact .inl ⟨p, b, hkept.trans hsetting⟩
        · -- a region that reacts is vacant
          refine .inr ⟨hgone, e, mem_append_right _ mem_cons_self, ?_⟩
          grind [setting_eq_some, Coherent.vacant]
        · grind
      · refine .inr ⟨?_, e₁, mem_append_left _ he₁, hvacant⟩
        rcases hresets.old hknown with ⟨-, hkept⟩ | ⟨-, hgone⟩ | ⟨-, p', b', k', hold, hnew⟩
        · exact hkept.trans hnone
        · exact hgone
        · cases hnone.symm.trans hold
    · rw [mem_singleton.1 he₀] at henters
      obtain ⟨⟨reg, hr, -⟩, p, hsetting⟩ := hresets.entered henters
      simp_all [Store.lt_next]
  silent := by
    intro r p b k hsetting
    by_cases hold : r.index < e.regions.next.index
    · rcases hresets.old hold with ⟨hstays, hkept⟩ | ⟨-, hgone⟩ | ⟨hescapes, p', b', k', -, hnew⟩
      · rw [h.silent (hkept.symm.trans hsetting)]
        grind
      · cases hgone.symm.trans hsetting
      · grind
    · obtain ⟨rfl, -⟩ := hresets.new (Nat.not_lt.1 hold) hsetting
      refine iff_of_false nofun ?_
      rintro ⟨e₁, he₁, hescapes⟩
      rcases mem_append.1 he₁ with he₁ | he₁
      · exact hold (h.escaped he₁ hescapes)
      · rw [mem_singleton.1 he₁] at hescapes
        exact hold (hescapes.known hc)
  escaped := by
    intro e₁ r he₁ hescapes
    refine Nat.lt_of_lt_of_le ?_ hresets.next
    rcases mem_append.1 he₁ with he₁ | he₁
    · exact h.escaped he₁ hescapes
    · rw [mem_singleton.1 he₁] at hescapes
      exact hescapes.known hc
  gone := by
    intro e₁ r he₁ hgoes
    rcases mem_append.1 he₁ with he₁ | he₁
    · obtain ⟨hknown, hnone⟩ := h.gone he₁ hgoes
      refine ⟨Nat.lt_of_lt_of_le hknown hresets.next, ?_⟩
      rcases hresets.old hknown with ⟨-, hkept⟩ | ⟨-, hgone⟩ | ⟨-, p, b, k, hold, -⟩
      · exact hkept.trans hnone
      · exact hgone
      · cases hnone.symm.trans hold
    · rw [mem_singleton.1 he₁] at hgoes
      obtain ⟨⟨p, kind⟩, hsetting⟩ := Option.ne_none_iff_exists'.1 hgoes.2
      obtain ⟨reg, hr, -⟩ := Engine.setting_eq_some.1 hsetting
      exact ⟨Nat.lt_of_lt_of_le (Store.lt_next hr) hresets.next, hresets.reacts hgoes.1⟩
  settling := hsettling

/-- What a turn writes down in the regions of left sides is what happens. -/
theorem turn (h : Activations past e) (hc : Coherent m e) {p : Progress (Logged ω)}
    (hp : e.turn host.logged = .ok p) : Activations (past ++ [e]) p.state := by
  refine h.resets hc (.turn hc hp) fun {r q kind} hm hsetting => ?_
  cases turned hp with
  | @chore e₁ e' a he he' =>
    subst he
    have htail := hc.urgent (.settle r)
    have hm : .settle r ∈ e'.agenda := hm
    obtain ⟨new, hagenda, hnew⟩ := perform_plans he'
    rw [hagenda] at hm
    rcases mem_append.1 hm with hm | hm
    · cases hnew _ hm with
      | settle =>
        obtain ⟨reg', hr', -, rfl⟩ := Engine.setting_eq_some.1 hsetting
        obtain ⟨x, -, hvotes⟩ := perform_founds he' (Nat.le_refl _) hr'
        exact ⟨x, hvotes⟩
    · cases htail hm
  | done ha | skip ha =>
    have hm : .settle r ∈ e.agenda := hm
    rw [ha] at hm
    cases hm
  | @step t tok ready node e' ha hh hready ht hphase hnode he' =>
    obtain ⟨mail, notices, hf⟩ := hc.footprint ha ht hphase he'
    cases hf.follows _ hm
  | message ha =>
    rcases receive_agenda _ hm with hm | ⟨t, heq⟩ | ⟨x, heq⟩
    · have hm : .settle r ∈ e.agenda := hm
      rw [ha] at hm
      cases hm
    · cases heq
    · cases heq
  | idle ha =>
    rw [idle_agenda, ha] at hm
    cases hm

theorem start (program : Program) (limit : Option Nat) (world : ω) :
    Activations [] (Engine.opening program limit world) := by
  unfold opening
  rw [start_eq]
  refine ⟨nofun, fun {r p b k} hsetting => ?_, nofun, nofun, fun hm => ?_⟩
  · rw [(spawnReady_grown ..).setting] at hsetting
    obtain ⟨reg, hr, -, hkind⟩ := Engine.setting_eq_some.1 hsetting
    have hr : (Store.empty.insert _).get? r = some reg := hr
    rcases Store.inserted hr with ⟨-, rfl⟩ | ⟨-, hr⟩
    · cases hkind
    · cases hr
  · rw [spawnReady_agenda] at hm
    cases hm

end Activations

namespace Run

variable {program : Program} {limit : Option Nat} {world : ω}

/-- In every run, what is written down in the regions of left sides is what has happened. -/
theorem activations (h : Run host program limit world past e) : Activations past e := by
  induction h with
  | start => exact .start program limit world
  | turn hrun hp ih =>
    obtain ⟨m, hc⟩ := hrun.coherent
    exact ih.turn hc hp
  | arrive _ message ih => exact ⟨ih.entered, ih.silent, ih.escaped, ih.gone, ih.settling⟩

/-- Every state that a run has been through has a run of its own. -/
theorem earlier (h : Run host program limit world past e) {before after : History ω}
    (hsplit : past ++ [e] = before ++ e₁ :: after) :
    Run host program limit world before e₁ ∧ e₁.world.log <+: e.world.log := by
  induction h generalizing after with
  | start =>
    obtain ⟨rfl, rfl⟩ : before = [] ∧ after = [] := by
      have hlength := congrArg List.length hsplit
      simp at hlength
      exact ⟨eq_nil_of_length_eq_zero (by omega), eq_nil_of_length_eq_zero (by omega)⟩
    cases hsplit
    exact ⟨.start, prefix_refl _⟩
  | @turn past e p hrun hp ih =>
    obtain ⟨m, hc⟩ := hrun.coherent
    rcases eq_nil_or_concat after with rfl | ⟨after, last, rfl⟩
    · obtain ⟨rfl, heq⟩ := append_inj' hsplit rfl
      cases heq
      exact ⟨hrun.turn hp, prefix_refl _⟩
    · grind [append_inj', List.IsPrefix.trans, turn_grows]
  | @arrive past e hrun message ih =>
    rcases eq_nil_or_concat after with rfl | ⟨after, last, rfl⟩
    · obtain ⟨rfl, heq⟩ := append_inj' hsplit rfl
      cases heq
      exact ⟨hrun.arrive message, prefix_refl _⟩
    · grind [append_inj', deliver]

/-- The regions in a state are those that the turn before has left. -/
theorem previous (h : Run host program limit world (past ++ [e₁]) e) :
    ∃ p, e₁.turn host.logged = .ok p ∧ e.regions = p.state.regions := by
  obtain ⟨p, hp, hreaction⟩ := h.reaction (by simp)
  refine ⟨p, hp, ?_⟩
  clear h
  generalize hnone : ([] : History ω) = between at hreaction
  induction hreaction with
  | start => rfl
  | chore => simp at hnone
  | arrive _ message ih => exact ih hnone

end Run

/-- The region of a left side that has become vacant is about to go. -/
theorem Activations.goes (h : Activations past e) (hc : Coherent m e) (he₀ : e₀ ∈ past)
    (henters : e₀.Enters r k) (hvacant : e.Vacant r) :
    e.agenda.head? = some (.quiesce r) ∧ ∃ p b, e.setting r = some (p, .otherwise b k) := by
  obtain ⟨reg, hr, htokens, hchildren⟩ := hvacant
  have hsetting : e.setting r = some (reg.parent, reg.kind) :=
    Engine.setting_eq_some.2 ⟨reg, hr, rfl, rfl⟩
  obtain ⟨p, b, hleft⟩ : ∃ p b, e.setting r = some (p, .otherwise b k) := by
    rcases (h.entered he₀ henters).2 with hleft | ⟨hnone, -⟩
    · exact hleft
    · cases hnone.symm.trans hsetting
  grind [Coherent.attended, settling]

section Runs

variable {program : Program} {limit : Option Nat} {world : ω}

/-- When the region of a left side has become vacant, something has just left it. -/
theorem Run.vacated (h : Run host program limit world (past ++ [e₁]) e) (he₀ : e₀ ∈ past ++ [e₁])
    (henters : e₀.Enters r k) (hvacant : e.Vacant r) : e₁.Occupied r := by
  obtain ⟨hrun₁, -⟩ := h.earlier (append_assoc past [e₁] [e])
  obtain ⟨m, hc⟩ := hrun₁.coherent
  obtain ⟨p, hp, hregions⟩ := h.previous
  have hresets := Engine.Resets.turn hc hp
  obtain ⟨reg, hr, hempty⟩ := hvacant
  rw [hregions] at hr
  have hsetting : p.state.setting r ≠ none := by
    rw [Engine.setting_eq_some.2 ⟨reg, hr, rfl, rfl⟩]
    nofun
  rcases mem_append.1 he₀ with he₀ | he₀
  · have hactivations := hrun₁.activations
    obtain ⟨hknown, hthere⟩ := hactivations.entered he₀ henters
    have hstays : e₁.agenda.head? ≠ some (.quiesce r) := fun hhead => hsetting (hresets.reacts hhead)
    have hpresent : e₁.setting r ≠ none := by
      intro hnone
      rcases hresets.old hknown with ⟨-, hkept⟩ | ⟨hhead, -⟩ | ⟨-, p, b, k, hold, -⟩
      · exact hsetting (hkept.trans hnone)
      · exact hstays hhead
      · cases hnone.symm.trans hold
    obtain ⟨⟨p, kind⟩, hsetting₁⟩ := Option.ne_none_iff_exists'.1 hpresent
    obtain ⟨reg₁, hr₁, -⟩ := Engine.setting_eq_some.1 hsetting₁
    refine ⟨reg₁, hr₁, fun hempty => hstays ?_⟩
    exact (hactivations.goes hc he₀ henters ⟨reg₁, hr₁, hempty⟩).1
  · -- the token that has entered is still there
    rw [mem_singleton.1 he₀] at henters
    exact absurd ⟨reg, hr, hempty⟩ (hresets.entered henters).1.not_vacant

end Runs

/-- The right side of an `otherwise` runs exactly on silence.  A token has entered an `otherwise` in
    `e₀`, and `e₁` is any later state of the run.

    * The fallback is about to start there only if the left side has just lost its last token or region
      and no token ever passes its escape; it does not start again.
    * When nothing is left in the left side, the fallback starts at once if no token has passed the
      escape and its group is not being killed, with all that the token had on entering.
    * As long as that has not come, there is something in the left side. -/
theorem otherwise_falls_back_on_silence (host : Host ω) (program : Program) (limit : Option Nat)
    (world : ω) {past : List (Engine (Logged ω))} {e : Engine (Logged ω)}
    (h : Run host program limit world past e) (hpolite : Polite e.world.log)
    {before after : List (Engine (Logged ω))} {e₀ e₁ : Engine (Logged ω)}
    (hsplit : past ++ [e] = before ++ e₁ :: after) (he₀ : e₀ ∈ before)
    {t : TokenId} {tok : Token} {left right : Nat}
    (henter : e₀.stepping = some (t, tok, .otherwise left right)) :
    (∀ tok', e₁.FallsBack host.logged e₀.regions.next tok' →
      tok' = { tok with node := right, result := .signal, phase := .runnable } ∧
      (∃ earlier e₂, before = earlier ++ [e₂] ∧ e₂.Occupied e₀.regions.next ∧
        e₁.Vacant e₀.regions.next) ∧
      (∀ e₂ ∈ past ++ [e], ¬e₂.Escapes e₀.regions.next) ∧
      ∀ e₂ ∈ after, ∀ tok'', ¬e₂.FallsBack host.logged e₀.regions.next tok'') ∧
    (e₁.Vacant e₀.regions.next →
      (e₁.FallsBack host.logged e₀.regions.next
          { tok with node := right, result := .signal, phase := .runnable } ↔
        (∀ e₂ ∈ before, ¬e₂.Escapes e₀.regions.next) ∧ e₁.groupAlive tok.group = true)) ∧
    (e₁.Occupied e₀.regions.next ∨ ∃ e₂ ∈ before ++ [e₁], e₂.Vacant e₀.regions.next) := by
  obtain ⟨hrun, hlog⟩ := h.earlier hsplit
  obtain ⟨m, hc, hs, -⟩ := hrun.sound (hpolite.mono hlog)
  have hactivations := hrun.activations
  have henters : e₀.Enters e₀.regions.next (tok.continueAt right) :=
    ⟨rfl, t, tok, left, right, henter, rfl⟩
  obtain ⟨hknown, hthere⟩ := hactivations.entered he₀ henters
  refine ⟨fun tok' hfalls => ?_, fun hvacant => ?_, ?_⟩
  · obtain ⟨p, k, hsetting, halive, rfl⟩ := hfalls.silent
    obtain rfl : k = tok.continueAt right := by
      rcases hthere with ⟨p', b', hleft⟩ | ⟨hnone, -⟩
      · cases hsetting.symm.trans hleft
        rfl
      · cases hnone.symm.trans hsetting
    obtain ⟨reg, hr, -⟩ := Engine.setting_eq_some.1 hsetting
    have hvacant := hc.vacant hfalls.1 hr
    -- whatever comes later finds the region gone
    have hgone : ∀ e₂ ∈ after, e₂.regions.get? e₀.regions.next = none ∧ ∃ m, Coherent m e₂ := by
      intro e₂ he₂
      obtain ⟨between, rest, rfl⟩ := append_of_mem he₂
      rw [← cons_append, ← append_assoc] at hsplit
      obtain ⟨hrun₂, -⟩ := h.earlier hsplit
      have hgoes : e₁.Goes e₀.regions.next := ⟨hfalls.1, by rw [hsetting]; nofun⟩
      obtain ⟨-, hnone⟩ := hrun₂.activations.gone
        (mem_append_right _ mem_cons_self) hgoes
      exact ⟨Option.map_eq_none_iff.1 hnone, hrun₂.coherent⟩
    refine ⟨rfl, ?_, ?_, ?_⟩
    · rcases eq_nil_or_concat before with rfl | ⟨earlier, e₂, rfl⟩
      · cases he₀
      · rw [concat_eq_append] at hrun he₀ ⊢
        exact ⟨earlier, e₂, rfl, hrun.vacated he₀ henters hvacant, hvacant⟩
    · intro e₂ he₂ hescapes
      rw [hsplit] at he₂
      rcases mem_append.1 he₂ with he₂ | he₂
      · cases (hactivations.silent hsetting).2 ⟨e₂, he₂, hescapes⟩
      rcases mem_cons.1 he₂ with rfl | he₂
      · obtain ⟨rest, ha⟩ := head?_eq_some_iff.1 hfalls.1
        exact not_escapes (stepping_of_chore ha) hescapes
      · obtain ⟨hnone, m₂, hc₂⟩ := hgone e₂ he₂
        obtain ⟨reg₂, hr₂⟩ := hescapes.region hc₂
        cases hnone.symm.trans hr₂
    · intro e₂ he₂ tok'' hfalls₂
      obtain ⟨p, k, hsetting₂, -⟩ := hfalls₂.silent
      obtain ⟨reg₂, hr₂, -⟩ := Engine.setting_eq_some.1 hsetting₂
      cases (hgone e₂ he₂).1.symm.trans hr₂
  · obtain ⟨hhead, p, b, hsetting⟩ := hactivations.goes hc he₀ henters hvacant
    have hsilent := hactivations.silent hsetting
    constructor
    · intro hfalls
      obtain ⟨p', k, hsetting', halive, heq⟩ := hfalls.silent
      cases hsetting.symm.trans hsetting'
      refine ⟨fun e₂ he₂ hescapes => ?_, halive⟩
      cases hsilent.2 ⟨e₂, he₂, hescapes⟩
    · rintro ⟨hnone, halive⟩
      obtain rfl : b = false := by
        refine Bool.eq_false_iff.2 fun hb => ?_
        obtain ⟨e₂, he₂, hescapes⟩ := hsilent.1 hb
        exact hnone e₂ he₂ hescapes
      exact .of_silent hc hs hhead hsetting halive
  · rcases hthere with ⟨p, b, hsetting⟩ | ⟨-, e₂, he₂, hvacant⟩
    · obtain ⟨reg, hr, -⟩ := Engine.setting_eq_some.1 hsetting
      by_cases hempty : reg.tokens = [] ∧ reg.children = []
      · exact .inr ⟨e₁, by simp, reg, hr, hempty⟩
      · exact .inl ⟨reg, hr, hempty⟩
    · exact .inr ⟨e₂, mem_append_left _ he₂, hvacant⟩

/-- Whether a token is about to enter an `otherwise`. -/
def Engine.entering {ω : Type} (e : Engine ω) : Bool :=
  match e.stepping with
  | some (_, _, .otherwise _ _) => true
  | _ => false

theorem Engine.entering_eq_true (h : e.entering = true) :
    ∃ t tok left right, e.stepping = some (t, tok, .otherwise left right) := by grind [entering]

/-- Whether the fallback of the region `r` is about to start. -/
def Engine.fallsBack {ω : Type} (host : Host ω) (r : RegionId) (e : Engine ω) : Bool :=
  match e.agenda, e.turn host with
  | .quiesce r' :: _, .ok (.next e') =>
    r' = r && (e'.tokens.get? e.tokens.next).isSome && e'.ready.any fun t => t = e.tokens.next
  | _, _ => false

theorem Engine.fallsBack_eq_true {ω : Type} {host : Host ω} {e : Engine ω}
    (h : e.fallsBack host r = true) : ∃ tok, e.FallsBack host r tok := by
  unfold fallsBack at h
  split at h
  · rename_i r' rest e' ha hp
    simp only [Bool.and_eq_true, decide_eq_true_eq, any_eq_true] at h
    obtain ⟨⟨rfl, htok⟩, t, hready, rfl⟩ := h
    obtain ⟨tok, htok⟩ := Option.isSome_iff_exists.1 htok
    exact ⟨tok, by rw [ha]; rfl, e', hp, htok, hready⟩
  · cases h

/-- A run in which the left side of an `otherwise` fails inside a transaction, so that its right side is
    about to start. -/
theorem otherwise_falls_back_on_silence_roundTrip : ∃ p past e e₀ t tok left right,
    Expr.roundTrip.compile Registry.roundTrip = .ok p ∧ Run Host.echo p none () past e ∧
      Polite e.world.log ∧ e₀ ∈ past ∧ e₀.stepping = some (t, tok, .otherwise left right) ∧
      e.FallsBack Host.echo.logged e₀.regions.next
        { tok with node := right, result := .signal, phase := .runnable } ∧
      e.Vacant e₀.regions.next ∧ ∀ e₂ ∈ past ++ [e], ¬e₂.Escapes e₀.regions.next := by
  obtain ⟨p, past, e₀, hp, hrun₀, hcheck₀⟩ := Run.compiled Expr.roundTrip Registry.roundTrip
    Host.echo none () 7 (fun e₀ => e₀.entering &&
      Run.Leads Host.echo.logged e₀ 4 fun e => decide (Polite e.world.log) &&
        e.fallsBack Host.echo.logged e₀.regions.next) ⟨_, rfl, by decide +kernel⟩
  rw [Bool.and_eq_true] at hcheck₀
  obtain ⟨t, tok, left, right, hstep⟩ := entering_eq_true hcheck₀.1
  obtain ⟨between, e, hrun, hcheck, hmem⟩ := hrun₀.of_leads hcheck₀.2
  simp only [Bool.and_eq_true, decide_eq_true_eq] at hcheck
  have he₀ := mem_append_right past (hmem (by decide))
  obtain ⟨tok', hfalls⟩ := fallsBack_eq_true hcheck.2
  obtain ⟨rfl, ⟨-, -, -, -, hvacant⟩, hsilent, -⟩ :=
    (otherwise_falls_back_on_silence _ _ _ _ hrun hcheck.1 rfl he₀ hstep).1 tok' hfalls
  exact ⟨p, _, e, e₀, t, tok, left, right, hp, hrun, hcheck.1, he₀, hstep, hfalls, hvacant, hsilent⟩

end Activations

/-! ## New tokens -/

namespace Engine

variable {ω : Type} {host : Host ω} {e e' : Engine ω} {a : Chore} {t : TokenId} {tok : Token}

theorem spawnReady_from {new : Token} (h : (e.spawnReady new).tokens.get? t = some tok) :
    e.tokens.get? t = some tok ∨ tok = new := by
  unfold spawnReady at h
  split at h
  · rename_i hs
    obtain ⟨-, -, -, he'⟩ := spawn_eq_some hs
    grind [enqueue]
  · exact .inl h

theorem askVotes_from {scope : Scope} {vote : Token} {cohorts : List CohortId}
    (h : (askVotes host scope vote e cohorts).tokens.get? t = some tok) :
    e.tokens.get? t = some tok ∨ tok = vote := by
  refine askVotes_induct (P := fun e' : Engine ω => e'.tokens.get? t = some tok →
    e.tokens.get? t = some tok ∨ tok = vote) ?_ .inl cohorts h
  intro e₁ e₂ id c ih hs h
  obtain ⟨-, -, -, he₂⟩ := spawn_eq_some hs
  rw [he₂] at h
  have h : (e₁.tokens.insert vote).get? t = some tok := h
  grind

/-- A chore starts a token in place of a left side that was silent, with a publication that is let
    go, or for a vote. -/
theorem perform_started (he' : e.perform host a = .ok e') (hnew : e.tokens.next.index ≤ t.index)
    (ht' : e'.tokens.get? t = some tok) :
    (∃ r p k, a = .quiesce r ∧ e.setting r = some (p, .otherwise false k) ∧
        tok = k.resume .signal) ∨
      (∃ k v, a = .release k v ∧ tok = k.resume v) ∨
      ∃ x txn r, a = .prepare x ∧ e.transactions.get? x = some txn ∧ tok = txn.vote x r := by
  have old : e.tokens.get? t ≠ some tok := fun ht => absurd (Store.lt_next ht) (Nat.not_lt.2 hnew)
  have same : e'.tokens.next = e.tokens.next → False := by
    intro hnext
    have hlt := Store.lt_next ht'
    rw [hnext] at hlt
    omega
  cases performed he' with
  | killToken => exact (same (Store.next_remove ..)).elim
  | wake | proceed => exact (same (Store.next_modify ..)).elim
  | @quiesce r reg hr =>
    left
    unfold vacated react at ht'
    split at ht'
    case h_3 b k hkind =>
      split at ht'
      · exact absurd ht' old
      · rename_i hb
        refine ⟨r, reg.parent, k, rfl, setting_eq_some.2 ⟨reg, hr, rfl, ?_⟩, ?_⟩
        · rw [hkind, Bool.eq_false_iff.2 hb]
        · exact (spawnReady_from ht').resolve_left old
    all_goals exact absurd ht' old
  | @prepare x txn preg hx =>
    have hfrom := askVotes_from (e := e.openVotes x txn) ht'
    exact .inr (.inr ⟨x, txn, _, rfl, hx, hfrom.resolve_left old⟩)
  | @release k v => grind [spawnReady_from]
  | _ => exact absurd ht' old

/-- What is let go was held back in a transaction that is committed now. -/
theorem perform_release {v : Value} (he' : e.perform host a = .ok e')
    (hm : .release k v ∈ e'.agenda) : .release k v ∈ e.agenda ∨
      ∃ x txn, e.transactions.get? x = some txn ∧ k = txn.continuation ∧ v ∈ txn.publications := by
  by_cases hverify : ∃ x, a = .verify x
  · obtain ⟨x, rfl⟩ := hverify
    cases performed he' with
    | unverified => exact .inl hm
    | verifyLate => exact .inl ((mem_cons.1 hm).resolve_left nofun)
    | @verify _ txn hx =>
      rcases mem_append.1 hm with hm | hm
      · grind
      · exact .inl hm
  · obtain ⟨new, hagenda, hnew⟩ := perform_plans he'
    rw [hagenda] at hm
    rcases mem_append.1 hm with hm | hm
    · cases hnew _ hm with
      | release => exact absurd ⟨_, rfl⟩ hverify
    · exact .inl hm

end Engine
end Orchestra
