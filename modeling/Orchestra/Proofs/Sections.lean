/-
  Sections: how the atomic sections of a run stand.

  A transaction goes from running to readying to done, or is aborted on the way.  `Sections` says
  how its state agrees with the rest of a run: which region it has, whether its group is alive,
  which tokens stand for votes, and what the agenda still holds for it.  Some clauses speak of a
  transaction in the middle of a change, which the chore on top is about to finish; that chore is
  the parameter `top`.

  Two consequences carry what follows.  As long as nothing is to be killed, the group of every
  region is alive (`Core.region_alive`), so closing a region never finds one.  And a token that
  may take a step belongs to transactions that all run (`Sections.running`).
-/
import Orchestra.Proofs.Footprint

namespace Orchestra

open List

variable {ω : Type} {m m' : Charter} {e e' : Engine ω} {top : Option Chore} {a : Chore}
  {grp : Group} {c g : GroupId} {agenda new : List Chore} {reg : Region} {r : RegionId}
  {tok : Token}

/-! ## The end of the agenda -/

theorem trailing_of_wakes (h : ∀ a ∈ agenda, ∃ t, a = .wake t) : Trailing agenda := by
  induction agenda with
  | nil => trivial
  | cons a agenda ih =>
    obtain ⟨t, rfl⟩ := h a mem_cons_self
    exact ih fun b hb => h b (mem_cons_of_mem _ hb)

theorem Trailing.tail (h : Trailing (a :: agenda)) : Trailing agenda := by
  cases a
  case closeRegions pending doomed => exact trailing_of_wakes h
  all_goals exact h

theorem Trailing.append (h : Trailing agenda)
    (hnew : ∀ pending doomed, .closeRegions pending doomed ∉ new) : Trailing (new ++ agenda) := by
  induction new with
  | nil => exact h
  | cons a new ih =>
    have hrest := ih fun pending doomed hm => hnew pending doomed (mem_cons_of_mem a hm)
    cases a
    case closeRegions pending doomed => exact absurd mem_cons_self (hnew pending doomed)
    all_goals exact hrest

/-- Chores that sections have nothing to say about. -/
def Chore.plain : Chore → Bool
  | .prepare _ | .verify _ | .detach _ _ | .release _ _ | .wake _ | .closeRegions _ _ => false
  | _ => true

/-! ## The invariant -/

/-- Two records of a group that differ at most in its place, its members and its children. -/
structure Group.Same (a b : Group) : Prop where
  killed : b.killed = a.killed
  kind : b.kind = a.kind

theorem Group.Same.refl (a : Group) : a.Same a := ⟨rfl, rfl⟩

/-- A region that holds no votes. -/
def Engine.Common (e : Engine ω) (r : RegionId) : Prop :=
  ∀ ⦃reg x⦄, e.regions.get? r = some reg → reg.kind ≠ .votes x

/-- A token that was there once and does not stand for a vote. -/
def Engine.Voteless (e : Engine ω) (t : TokenId) : Prop :=
  t.index < e.tokens.next.index ∧ ∀ ⦃tok⦄, e.tokens.get? t = some tok → tok.phase ≠ .voting

/-- The transactions of a run agree with their regions, their groups and the agenda. -/
structure Sections (m : Charter) (e : Engine ω) (top : Option Chore) : Prop where
  body : ∀ {r reg x txn}, e.regions.get? r = some reg → reg.kind = .transaction x →
    e.transactions.get? x = some txn → txn.state = .running ∨ txn.state = .aborted
  votes : ∀ {r reg x txn}, e.regions.get? r = some reg → reg.kind = .votes x →
    e.transactions.get? x = some txn → txn.state = .readying ∨ txn.state = .aborted
  prepare : ∀ {x txn}, .prepare x ∈ e.agenda → e.transactions.get? x = some txn →
    txn.state = .running ∨ txn.state = .aborted
  verify : ∀ {x txn}, .verify x ∈ e.agenda → e.transactions.get? x = some txn →
    txn.state = .readying ∨ txn.state = .aborted
  /-- The group of an undecided transaction is alive until it is aborted. -/
  alive : ∀ {x txn}, e.transactions.get? x = some txn →
    txn.state = .running ∨ txn.state = .readying →
    e.Alive txn.group ∨ top = some (.abort x)
  dead : ∀ {x txn}, e.transactions.get? x = some txn → txn.state = .aborted →
    (∀ grp, e.groups.get? txn.group = some grp → grp.killed = true) ∨
      top = some (.killGroup txn.group)
  /-- A transaction has a region unless it goes on to its next stage. -/
  placed : ∀ {x txn}, e.transactions.get? x = some txn →
    (∃ r reg, e.regions.get? r = some reg ∧ reg.kind.Serves x) ∨
      top = some (.prepare x) ∨ top = some (.verify x) ∨ top = some (.retire x)
  owned : ∀ {g grp x}, e.groups.get? g = some grp → grp.killed = false →
    grp.kind = .transaction x → (∃ txn, e.transactions.get? x = some txn) ∨
      top = some (.killGroup g)
  rooted : ∀ {g grp}, e.groups.get? g = some grp → grp.kind = .root → g = rootGroup
  /-- The region of a cell that is alive is there, or its end is still to be counted. -/
  cell : ∀ {c grp ws r}, e.groups.get? c = some grp → grp.killed = false →
    grp.kind = .cell ws r → (∃ reg, e.regions.get? r = some reg) ∨
      ∃ p, .detach p r ∈ e.agenda ∧ m.above c = some (m.group p) ∧
        Precedes (.killGroup c) (.detach p r) e.agenda
  voting : ∀ {t tok}, e.tokens.get? t = some tok → tok.phase = .voting →
    ∃ reg x, e.regions.get? tok.region = some reg ∧ reg.kind = .votes x
  polled : ∀ {t tok reg x}, e.tokens.get? t = some tok → e.regions.get? tok.region = some reg →
    reg.kind = .votes x → tok.phase = .voting
  parent : ∀ {r reg p}, e.regions.get? r = some reg → reg.parent = some p → e.Common p
  continuation : ∀ {x txn}, e.transactions.get? x = some txn → e.Common txn.continuation.region
  release : ∀ {k v}, .release k v ∈ e.agenda → e.Common k.region
  waiter : ∀ {g grp ws r t}, e.groups.get? g = some grp → grp.kind = .cell ws r → t ∈ ws →
    e.Voteless t
  timer : ∀ {t}, t ∈ e.timed → e.Voteless t
  wake : ∀ {t}, .wake t ∈ e.agenda → e.Voteless t
  trailing : Trailing e.agenda
  /-- Only regions of cells that are bound are to be closed. -/
  closing : ∀ {pending doomed}, .closeRegions pending doomed ∈ e.agenda → doomed = [] ∧
    ∀ r ∈ pending, r.index < e.regions.next.index ∧ ∀ reg, e.regions.get? r = some reg →
      ∃ c, reg.kind = .pruning c ∧ (e.bound.lookup c).isSome = true
  opened : ∀ {r reg}, e.regions.get? r = some reg → reg.closed = false

/-! ## Groups that must be alive -/

namespace Core

variable {empty : Option RegionId}

section

variable (h : Core m e empty) (hkill : ∀ g, .killGroup g ∉ e.agenda)
  (hc : e.groups.get? c = some grp) (hk : grp.killed = false) (habove : m.above c = some g)

include h hkill hc hk habove

/-- With nothing to kill, the group above one that is alive is its parent. -/
theorem parent_above : grp.parent = some g := by
  rcases h.aligned.above hc with hnone | hsome
  · rcases h.kinship.orphan hc hnone with rfl | hkilled | hm
    · rw [h.aligned.above_root] at habove
      cases habove
    · rw [hk] at hkilled
      cases hkilled
    · exact absurd hm (hkill c)
  · exact hsome.trans habove

/-- Above a group that is alive there is one that is alive, as long as none is to be killed. -/
theorem above_alive : ∃ grp', e.groups.get? g = some grp' ∧ grp'.killed = false := by
  have hparent := h.parent_above hkill hc hk habove
  obtain ⟨grp', hg, -⟩ := h.kinship.parent_of hc hparent
  refine ⟨grp', hg, Bool.eq_false_iff.2 fun hkilled => ?_⟩
  rcases h.kinship.heir hc hparent hg hkilled with hdead | hm
  · rw [hk] at hdead
    cases hdead
  · exact hkill c hm

end

/-- As long as nothing is to be killed or taken off a count, the group of every region is
    alive. -/
theorem region_alive (h : Core m e none) (hkill : ∀ g, .killGroup g ∉ e.agenda)
    (hremove : ∀ g, .removeGroup g ∉ e.agenda) (hdetach : ∀ p c, .detach p c ∉ e.agenda)
    (hr : e.regions.get? r = some reg) :
    e.Alive (m.group r) := by
  -- go down to a region that has a token; the regions get younger
  induction hn : e.regions.next.index - r.index using Nat.strongRecOn generalizing r reg with
  | _ n ih =>
    subst hn
    have hlive : 0 < reg.live := (h.census.lively hr).resolve_right (by simp)
    rw [h.census.live_eq hr] at hlive
    cases htokens : reg.tokens with
    | cons t ts =>
      obtain ⟨tok, ht, htr⟩ := h.census.token_of hr (htokens ▸ mem_cons_self)
      obtain ⟨grp, hg, -⟩ := h.kinship.group_of ht
      have hgroup := (h.aligned.token ht).1
      rw [htr] at hgroup
      refine ⟨grp, hgroup ▸ hg, Bool.eq_false_iff.2 fun hkilled => ?_⟩
      exact hremove _ (h.kinship.doomed hg hkilled)
    | nil =>
      obtain ⟨c, hc⟩ : ∃ c, c ∈ reg.children := by
        apply exists_mem_of_length_pos
        rw [htokens] at hlive
        simpa using hlive
      rcases h.census.child_of hr hc with ⟨creg, hcreg, hparent⟩ | hpending
      · have hyounger := h.census.older hcreg hparent
        have hbound := Store.lt_next hcreg
        obtain ⟨grp, hg, hk⟩ := ih _ (by omega) hcreg rfl
        cases hkind : creg.kind with
        | root =>
          rw [(h.aligned.root hcreg hkind).1] at hparent
          cases hparent
        | pruning cell =>
          obtain ⟨⟨p, hp, -, habove⟩, hgroup, -⟩ := h.aligned.pruning hcreg hkind
          grind [above_alive]
        | otherwise published k =>
          obtain ⟨hp, hkept, hgroup, -⟩ := h.aligned.otherwise hcreg hkind
          grind [Kept.group]
        | transaction x | votes x =>
          have hatomic : creg.kind.Serves x := by simp [hkind]
          obtain ⟨txn, htxn, hp, hgroup, -⟩ := h.aligned.atomic hcreg hatomic
          cases hp.symm.trans hparent
          obtain ⟨hkept, habove, -⟩ := h.aligned.transaction htxn
          rw [hkept.group]
          exact h.above_alive hkill hg hk (hgroup ▸ habove)
      · exact absurd (mem_detaches.1 hpending) (hdetach _ _)

end Core

namespace Sections

/-! ## Transactions that must run -/

/-- In a state with nothing to do, the transactions around a region without votes all run. -/
theorem region_running (h : Sections m e none) (hcore : Core m e none) (ha : e.agenda = [])
    (hr : e.regions.get? r = some reg) (hcommon : e.Common r) : ∀ x ∈ m.lineage? (m.txn r),
      (∃ txn, e.transactions.get? x = some txn ∧ txn.state = .running) ∧
        ∀ y ∈ m.lineage x, y ∈ m.lineage? (m.txn r) := by
  -- go up from region to region
  revert hcommon
  refine hcore.census.climb hr fun r reg hr above hcommon => ?_
  have up := fun {p} (hp : reg.parent = some p) => above hp (h.parent hr hp)
  cases hkind : reg.kind with
  | root =>
    rw [(hcore.aligned.root hr hkind).2.2.1]
    simp [Charter.lineage?]
  | pruning c =>
    obtain ⟨⟨p, hp, htxn, -⟩, -⟩ := hcore.aligned.pruning hr hkind
    rw [htxn]
    exact up hp
  | otherwise published k =>
    obtain ⟨hp, hkept, -, htxn, -⟩ := hcore.aligned.otherwise hr hkind
    rw [htxn, ← hkept.txn]
    exact up hp
  | votes x => exact absurd hkind (hcommon hr)
  | transaction x =>
    obtain ⟨txn, hx, hp, hgroup, htxn⟩ := hcore.aligned.atomic hr (.inl hkind)
    obtain ⟨grp, hg, hk⟩ := hcore.region_alive (by simp [ha]) (by simp [ha]) (by simp [ha]) hr
    have hrunning : txn.state = .running := by
      -- the group of an aborted transaction is dead
      grind [body, dead]
    obtain ⟨hkept, -, -, hparent, -⟩ := hcore.aligned.transaction hx
    have hlineage : m.lineage x = x :: m.lineage? (m.txn txn.continuation.region) := by
      rw [(hcore.aligned.scope hx).2.1, hparent, hkept.txn]
    rw [htxn]
    intro y hy
    have hy' : y ∈ m.lineage x := hy
    rw [hlineage] at hy'
    rcases mem_cons.1 hy' with rfl | hy'
    · exact ⟨⟨txn, hx, hrunning⟩, fun z hz => hz⟩
    · obtain ⟨hrun, hsub⟩ := up hp y hy'
      refine ⟨hrun, fun z hz => ?_⟩
      show z ∈ m.lineage x
      rw [hlineage]
      exact mem_cons_of_mem x (hsub z hz)

/-- A token that may take a step belongs to transactions that all run. -/
theorem running (h : Sections m e none) (hcore : Core m e none) (ha : e.agenda = []) {t : TokenId}
    (ht : e.tokens.get? t = some tok) (hp : tok.phase ≠ .voting) :
    ∀ x ∈ m.lineage? tok.txn, (∃ txn, e.transactions.get? x = some txn ∧ txn.state = .running) ∧
      ∀ y ∈ m.lineage x, y ∈ m.lineage? tok.txn := by
  obtain ⟨reg, hr, -⟩ := hcore.census.region_of ht
  rw [← (hcore.aligned.token ht).2]
  exact h.region_running hcore ha hr fun _ _ hr hkind => hp (h.polled ht hr hkind)

/-! ## Changes that leave sections alone -/

/-- What is said for a state without a chore on top may be said with one. -/
theorem weaken (h : Sections m e none) (top : Option Chore) : Sections m e top :=
  { h with
    alive := fun hx hs => .inl ((h.alive hx hs).resolve_right (by simp))
    dead := fun hx hs => .inl ((h.dead hx hs).resolve_right (by simp))
    placed := fun hx => .inl ((h.placed hx).resolve_right (by simp))
    owned := fun hg hk hkind => .inl ((h.owned hg hk hkind).resolve_right (by simp)) }

/-- A chore is taken off the agenda. -/
theorem drop (h : Sections m (e.plan [a]) top)
    (hkill : ∀ g grp, a = .killGroup g → e.groups.get? g = some grp → grp.killed = true) :
    Sections m e top := by
  have mem : ∀ {b}, b ∈ e.agenda → b ∈ (e.plan [a]).agenda := fun hb => mem_cons_of_mem a hb
  refine { h with
    prepare := fun hm => h.prepare (mem hm)
    verify := fun hm => h.verify (mem hm)
    cell := ?_
    release := fun hm => h.release (mem hm)
    wake := fun hm => h.wake (mem hm)
    trailing := Trailing.tail (a := a) h.trailing
    closing := fun hm => h.closing (mem hm) }
  intro c grp ws r hg hk hkind
  refine (h.cell hg hk hkind).imp_right ?_
  rintro ⟨p, hm, habove, hpre⟩
  have hne : a ≠ .killGroup c := by
    intro heq
    rw [hkill c grp heq hg] at hk
    cases hk
  exact ⟨p, (mem_cons.1 hm).resolve_left hpre.1.symm, habove, hpre.pop hne⟩

/-- A chore that has nothing to do may be dropped, and one that ends a stage may be followed by
    the retirement of the transaction. -/
theorem pop (h : Sections m (e.plan [a]) (some a))
    (habort : ∀ x txn, a = .abort x → e.transactions.get? x = some txn →
      ¬(txn.state = .running ∨ txn.state = .readying))
    (hkill : ∀ g grp, a = .killGroup g → e.groups.get? g = some grp → grp.killed = true)
    (hstage : ∀ x txn, a = .prepare x ∨ a = .verify x ∨ a = .retire x →
      e.transactions.get? x = some txn → top = some (.retire x)) : Sections m e top := by
  refine { h.drop hkill with alive := ?_, dead := ?_, placed := ?_, owned := ?_ }
  · intro x txn hx hs
    rcases h.alive hx hs with halive | htop
    · exact .inl halive
    · exact absurd hs (habort x txn (Option.some.inj htop) hx)
  · intro x txn hx hs
    rcases h.dead hx hs with hdead | htop
    · exact .inl hdead
    · exact .inl fun grp hg => hkill txn.group grp (Option.some.inj htop) hg
  · intro x txn hx
    rcases h.placed hx with hplaced | htop
    · exact .inl hplaced
    · exact .inr (.inr (.inr (hstage x txn (by simpa using htop) hx)))
  · intro g grp x hg hk hkind
    rcases h.owned hg hk hkind with howned | htop
    · exact .inl howned
    · rw [hkill g grp (Option.some.inj htop) hg] at hk
      cases hk

/-- Records change in ways that no section notices, and plain chores are planned. -/
theorem frame (h : Sections m e top)
    (htoken : ∀ {t tok'}, e'.tokens.get? t = some tok' → ∃ tok, e.tokens.get? t = some tok ∧
      tok'.region = tok.region ∧
      (tok'.phase = tok.phase ∨ (tok'.phase ≠ .voting ∧ tok.phase ≠ .voting)))
    (hnext : e'.tokens.next = e.tokens.next) (hkept : ∀ {r reg}, e.regions.get? r = some reg →
      ∃ reg', e'.regions.get? r = some reg' ∧ reg.Alike reg')
    (hfrom : ∀ {r reg'}, e'.regions.get? r = some reg' →
      ∃ reg, e.regions.get? r = some reg ∧ reg.Alike reg')
    (hnext' : e'.regions.next = e.regions.next)
    (hgroup : ∀ {g grp}, e.groups.get? g = some grp → grp.killed = false →
      ∃ grp', e'.groups.get? g = some grp' ∧ grp.Same grp')
    (hgroup' : ∀ {g grp'}, e'.groups.get? g = some grp' →
      ∃ grp, e.groups.get? g = some grp ∧ grp.Same grp') (hx : e'.transactions = e.transactions)
    (hb : e'.bound = e.bound) (hc : e'.clocks = e.clocks) (ha : e'.agenda = new ++ e.agenda)
    (hnew : ∀ a ∈ new, a.plain = true) : Sections m e' top := by
  have old : ∀ {a : Chore}, a.plain = false → a ∈ e'.agenda → a ∈ e.agenda := by grind
  have hcommon : ∀ {r}, e.Common r → e'.Common r := by
    intro r hr reg' x hreg'
    obtain ⟨reg, hreg, halike⟩ := hfrom hreg'
    exact fun hkind => hr hreg (halike.votes_iff.1 hkind)
  have hvoteless : ∀ {t}, e.Voteless t → e'.Voteless t := by
    intro t ht
    refine ⟨hnext ▸ ht.1, fun tok' htok' => ?_⟩
    obtain ⟨tok, htok, -, hphase⟩ := htoken htok'
    have := ht.2 htok
    grind
  constructor
  case body => grind [body, Region.Alike.transaction_iff]
  case votes => grind [votes, Region.Alike.votes_iff]
  case prepare => exact fun hm hxn => h.prepare (old rfl hm) (hx ▸ hxn)
  case verify => exact fun hm hxn => h.verify (old rfl hm) (hx ▸ hxn)
  case alive => grind [alive, Group.Same.killed]
  case dead => grind [dead, Group.Same.killed]
  case placed => grind [placed, Region.Alike.transaction_iff, Region.Alike.votes_iff]
  case owned => grind [owned, Group.Same.killed, Group.Same.kind]
  case rooted => grind [rooted, Group.Same.kind]
  case cell =>
    intro c grp' ws r hg' hk' hkind'
    obtain ⟨grp, hg, hsame⟩ := hgroup' hg'
    rcases h.cell hg (hsame.killed ▸ hk') (hsame.kind ▸ hkind') with ⟨reg, hr⟩ | ⟨p, hm, habove, hpre⟩
    · obtain ⟨reg', hr', -⟩ := hkept hr
      exact .inl ⟨reg', hr'⟩
    · rw [ha]
      refine .inr ⟨p, mem_append_right new hm, habove, hpre.append fun hm => ?_⟩
      cases hnew _ hm
  case voting => grind [voting, Region.Alike.votes_iff]
  case polled => grind [polled, Region.Alike.votes_iff]
  case parent => grind [parent, Region.Alike.parent]
  case continuation => exact fun hxn => hcommon (h.continuation (hx ▸ hxn))
  case release => exact fun hm => hcommon (h.release (old rfl hm))
  case waiter => grind [waiter, Group.Same.kind]
  case timer => grind [timer, Engine.timed]
  case wake => exact fun hm => hvoteless (h.wake (old rfl hm))
  case trailing =>
    rw [ha]
    refine h.trailing.append fun pending doomed hm => ?_
    cases hnew _ hm
  case closing =>
    intro pending doomed hm
    obtain ⟨hdoomed, hpending⟩ := h.closing (old rfl hm)
    grind [Region.Alike.pruning_iff]
  case opened =>
    intro r reg' hr'
    obtain ⟨reg, hr, halike⟩ := hfrom hr'
    exact halike.closed.trans (h.opened hr)

section

variable (h : Sections m e top)

include h

/-- Only some parts of a state matter. -/
theorem congr (hsame : e'.records = e.records) (hc : e'.clocks = e.clocks) : Sections m e' top := by
  obtain ⟨ht, hg, hr, hx, hb, ha⟩ := Engine.records_eq.1 hsame
  refine h.frame ?_ (by rw [ht]) ?_ ?_ (by rw [hr]) ?_ ?_ hx hb hc
    (ha.trans (nil_append _).symm) (by simp)
  · exact fun ht' => ⟨_, ht ▸ ht', rfl, .inl rfl⟩
  · exact fun hr' => ⟨_, hr ▸ hr', .refl _⟩
  · exact fun hr' => ⟨_, hr ▸ hr', .refl _⟩
  · exact fun hg' _ => ⟨_, hg ▸ hg', .refl _⟩
  · exact fun hg' => ⟨_, hg ▸ hg', .refl _⟩

/-- Chores are planned that sections have something to say about. -/
theorem plan (hprepare : ∀ x txn, .prepare x ∈ new → e.transactions.get? x = some txn →
      txn.state = .running ∨ txn.state = .aborted)
    (hverify : ∀ x txn, .verify x ∈ new → e.transactions.get? x = some txn →
      txn.state = .readying ∨ txn.state = .aborted)
    (hrelease : ∀ k v, .release k v ∈ new → e.Common k.region) (hwake : ∀ t, .wake t ∉ new)
    (hdetach : ∀ p r, .detach p r ∉ new) (htrailing : Trailing (new ++ e.agenda))
    (hclosing : ∀ pending doomed, .closeRegions pending doomed ∈ new → doomed = [] ∧
      ∀ r ∈ pending, r.index < e.regions.next.index ∧ ∀ reg, e.regions.get? r = some reg →
        ∃ c, reg.kind = .pruning c ∧ (e.bound.lookup c).isSome = true) :
    Sections m (e.plan new) top :=
  { h with
    prepare := fun hm => (mem_append.1 hm).elim (hprepare _ _) h.prepare
    verify := fun hm => (mem_append.1 hm).elim (hverify _ _) h.verify
    cell := fun hg hk hkind => (h.cell hg hk hkind).imp_right fun ⟨p, hm, habove, hpre⟩ =>
      ⟨p, mem_append_right new hm, habove, hpre.append (hdetach _ _)⟩
    release := fun hm => (mem_append.1 hm).elim (hrelease _ _) h.release
    wake := fun hm => h.wake ((mem_append.1 hm).resolve_left (hwake _))
    trailing := htrailing
    closing := fun hm => (mem_append.1 hm).elim (hclosing _ _) h.closing }

theorem planPlain (new : List Chore) (hnew : ∀ a ∈ new, a.plain = true) :
    Sections m (e.plan new) top := by
  have hplain : ∀ {a : Chore}, a.plain = false → a ∉ new := by
    intro a ha hm
    rw [hnew a hm] at ha
    cases ha
  refine h.plan ?_ ?_ ?_ ?_ ?_ (h.trailing.append fun _ _ => hplain rfl) ?_
  · exact fun x txn hm => absurd hm (hplain rfl)
  · exact fun x txn hm => absurd hm (hplain rfl)
  · exact fun k v hm => absurd hm (hplain rfl)
  · exact fun t => hplain rfl
  · exact fun p r => hplain rfl
  · exact fun pending doomed hm => absurd hm (hplain rfl)

/-- A record of a token is added, which stands for a vote exactly if its region holds votes. -/
theorem insertToken (hvote : tok.phase = .voting ↔
      ∃ reg x, e.regions.get? tok.region = some reg ∧ reg.kind = .votes x) :
    Sections m { e with tokens := e.tokens.insert tok } top := by
  have hvoteless : ∀ {t}, e.Voteless t →
      Engine.Voteless { e with tokens := e.tokens.insert tok } t := by
    intro t ht
    refine ⟨?_, fun tok' (htok' : (e.tokens.insert tok).get? t = some tok') => ?_⟩
    · show t.index < (e.tokens.insert tok).next.index
      rw [Store.next_insert]
      exact Nat.lt_succ_of_lt ht.1
    · rw [Store.get?_insert, if_neg (by rintro rfl; exact Nat.lt_irrefl _ ht.1)] at htok'
      exact ht.2 htok'
  refine { h with
    voting := ?_, polled := ?_
    waiter := fun hg hkind hm => hvoteless (h.waiter hg hkind hm)
    timer := fun hm => hvoteless (h.timer hm)
    wake := fun hm => hvoteless (h.wake hm) }
  · grind [voting]
  · grind [polled]

/-- A token is added to the run. -/
theorem spawn {id : TokenId} (hs : e.spawn tok = some (id, e')) (hvote : tok.phase = .voting ↔
      ∃ reg x, e.regions.get? tok.region = some reg ∧ reg.kind = .votes x) : Sections m e' top := by
  obtain ⟨-, -, -, he'⟩ := Engine.spawn_eq_some hs
  rw [he']
  refine (h.insertToken hvote).frame ?_ rfl ?_ ?_ ?_ ?_ ?_ rfl rfl rfl (nil_append _).symm (by simp)
  · exact fun ht => ⟨_, ht, rfl, .inl rfl⟩
  · exact Store.modify_forth .refl (fun _ => ⟨rfl, rfl, .inl rfl⟩) e.regions tok.region
  · exact Store.modify_back .refl fun _ => ⟨rfl, rfl, .inl rfl⟩
  · exact Store.next_modify ..
  · exact fun hg _ => Store.modify_forth .refl (fun _ => ⟨rfl, rfl⟩) e.groups tok.group hg
  · exact Store.modify_back .refl fun _ => ⟨rfl, rfl⟩

theorem spawnReady (hp : tok.phase ≠ .voting) (hcommon : e.Common tok.region) :
    Sections m (e.spawnReady tok) top := by
  unfold Engine.spawnReady
  split
  · rename_i hs
    refine (h.spawn hs ⟨fun hv => absurd hv hp, ?_⟩).congr rfl rfl
    rintro ⟨reg, x, hr, hkind⟩
    exact absurd hkind (hcommon hr)
  · exact h

end

end Sections
end Orchestra
