/-
  Remains: what is left when a run is over.

  A run ends by itself when its first region is quiescent.  Every region has one above it, up to the
  first, every token and every transaction has a region, and every group but the root one belongs to
  a cell that is being computed, to a transaction, or is to be forgotten.  So when the first region is
  gone and nothing is left to do, nothing else is left either (`Engine.Cleared`).

  The ACCOUNT of a state is the number of its commits, its aborts and its undecided transactions.  A
  turn adds to it only by entering an atomic section, so that in the end, when no transaction is left,
  every section has been decided.
-/
import Orchestra.Proofs.Accounts
import Orchestra.Proofs.Actions
import Orchestra.Proofs.Attendance
import Orchestra.Proofs.Reactions

namespace Orchestra

open Engine List

variable {ω : Type} {m : Charter} {e e' : Engine ω} {host : Host ω} {a : Chore} {next : Nat}
  {node : Node} {site : Site}

/-! ## Records -/

/-- Without the first region there is none. -/
theorem Core.regions_gone {empty : Option RegionId} (h : Core m e empty) (hrooted : e.Rooted)
    (hroot : e.regions.get? rootRegion = none) (r : RegionId) : e.regions.get? r = none := by
  -- a region is younger than the one above it, so the induction is on its key
  induction hn : r.index using Nat.strongRecOn generalizing r with
  | ind n ih =>
    cases hr : e.regions.get? r with
    | none => rfl
    | some reg =>
      have hkind : reg.kind ≠ .root := by
        intro hkind
        rw [hrooted hr hkind, hroot] at hr
        cases hr
      obtain ⟨p, preg, hp, hpreg⟩ := h.parent_of_kind hr hkind
      have hlt := h.census.older hr hp
      rw [ih p.index (by omega) p rfl] at hpreg
      cases hpreg

/-- Nothing is left of a run but the root group. -/
structure Engine.Cleared (e : Engine ω) : Prop where
  tokens : ∀ t, e.tokens.get? t = none
  regions : ∀ r, e.regions.get? r = none
  transactions : ∀ x, e.transactions.get? x = none
  groups : ∀ g, (∃ grp, e.groups.get? g = some grp) ↔ g = rootGroup
  waiting : e.waiting = []

/-- With nothing to do, a run without its first region is over. -/
theorem Sections.cleared (h : Sections m e none) (hcore : Core m e none) (hrooted : e.Rooted)
    (ha : e.agenda = []) (hroot : e.regions.get? rootRegion = none) : e.Cleared := by
  have hregions := hcore.regions_gone hrooted hroot
  have hnone : ∀ {r reg}, e.regions.get? r ≠ some reg := by
    intro r reg hr
    rw [hregions r] at hr
    cases hr
  have htransactions : ∀ x, e.transactions.get? x = none := by
    intro x
    cases hx : e.transactions.get? x with
    | none => rfl
    | some txn =>
      rcases h.placed hx with ⟨r, reg, hr, -⟩ | htop | htop | htop
      · exact absurd hr hnone
      · cases htop
      · cases htop
      · cases htop
  have hgroups : ∀ {g grp}, e.groups.get? g = some grp → grp.kind = .root ∧ g = rootGroup := by
    intro g grp hg
    have hk : grp.killed = false := by
      cases hk : grp.killed with
      | false => rfl
      | true =>
        have hdoomed := hcore.kinship.doomed hg hk
        rw [ha] at hdoomed
        cases hdoomed
    cases hkind : grp.kind with
    | root => exact ⟨rfl, h.rooted hg hkind⟩
    | cell ws r => grind [cell]
    | transaction x =>
      rcases h.owned hg hk hkind with ⟨txn, hx⟩ | htop
      · rw [htransactions x] at hx
        cases hx
      · cases htop
  refine ⟨fun t => ?_, hregions, htransactions, fun g => ⟨?_, ?_⟩, ?_⟩
  · cases ht : e.tokens.get? t with
    | none => rfl
    | some tok =>
      obtain ⟨reg, hr, -⟩ := hcore.census.region_of ht
      exact absurd hr hnone
  · rintro ⟨grp, hg⟩
    exact (hgroups hg).2
  · rintro rfl
    obtain ⟨grp, hg, -⟩ := hcore.kinship.root
    exact ⟨grp, hg⟩
  · refine eq_nil_iff_forall_not_mem.2 fun t ht => ?_
    obtain ⟨g, grp, hg, hmem⟩ := Store.mem_collect.1 ht
    rw [(hgroups hg).1] at hmem
    cases hmem

/-! ## The end of a run -/

namespace Engine

/-- The reaction of a root region ends the run. -/
theorem react_halted (kind : RegionKind) :
    (e.react kind).halted = true ∨ (kind ≠ .root ∧ (e.react kind).halted = e.halted) := by
  cases kind with
  | root => exact .inl rfl
  | otherwise published k =>
    refine .inr ⟨nofun, ?_⟩
    dsimp only [react]
    split
    · rfl
    · exact (spawnReady_grown ..).halted
  | pruning | transaction | votes => exact .inr ⟨nofun, rfl⟩

theorem perform_halted (he' : e.perform host a = .ok e') (hh : e.halted = true) :
    e'.halted = true := by
  cases performed he' with
  | quiesce =>
    rcases react_halted _ with h | ⟨-, h⟩
    · exact h
    · exact h.trans hh
  | @prepare x txn => exact (askVotes_grown (e.openVotes x txn) ..).halted.trans hh
  | release => exact (spawnReady_grown ..).halted.trans hh
  | _ => exact hh

/-- The first region is a root, and a run without it has halted. -/
structure Anchored (e : Engine ω) : Prop where
  known : rootRegion.index < e.regions.next.index
  root : ∀ {reg}, e.regions.get? rootRegion = some reg → reg.kind = .root
  halted : e.regions.get? rootRegion = none → e.halted = true

/-- The root region goes only when the run halts. -/
theorem Anchored.perform (h : e.Anchored) (he' : e.perform host a = .ok e') : e'.Anchored := by
  constructor
  · exact Nat.lt_of_lt_of_le h.known (perform_regions_next he')
  · intro reg' hr'
    have hsetting : e'.setting rootRegion = some (reg'.parent, reg'.kind) := by
      unfold setting
      rw [hr']
      rfl
    rcases perform_setting he' h.known with hkept | hgone
    · obtain ⟨reg, hr, heq⟩ := Option.map_eq_some_iff.1 (hkept.symm.trans hsetting)
      exact (Prod.mk.inj heq).2.symm.trans (h.root hr)
    · rw [hgone] at hsetting
      cases hsetting
  · intro hgone
    cases hr : e.regions.get? rootRegion with
    | none => exact perform_halted he' (h.halted hr)
    | some reg =>
      by_cases hquiesce : ∃ r, a = .quiesce r
      · obtain ⟨r, rfl⟩ := hquiesce
        cases performed he' with
        | quiesced =>
          rw [hr] at hgone
          cases hgone
        | @quiesce _ reg' hr' =>
          rcases react_halted reg'.kind with hhalted | ⟨hkind, -⟩
          · exact hhalted
          · -- another region goes, so the first one is still there
            have hne : rootRegion ≠ r := by
              rintro rfl
              exact hkind (h.root hr')
            obtain ⟨reg'', hr''⟩ := (react_standing (e := { e with regions := e.regions.remove r }.plan
              (reg'.parent.map fun p => Chore.detach p r).toList) reg'.kind).kept
              (show (e.regions.remove r).get? rootRegion = some reg by
                rw [Store.get?_remove, if_neg hne, hr])
            rw [hr''] at hgone
            cases hgone
      · obtain ⟨reg', hr'⟩ := (perform_standing he' fun r heq => hquiesce ⟨r, heq⟩).kept hr
        rw [hr'] at hgone
        cases hgone

/-- No other turn lets it go. -/
theorem Anchored.turn (h : e.Anchored) (hc : Coherent m e) {p : Progress ω}
    (hp : e.turn host = .ok p) : p.state.Anchored := by
  cases turned hp with
  | @chore e₁ _ a he he' =>
    subst he
    have hbefore : e₁.Anchored := ⟨h.known, h.root, h.halted⟩
    exact hbefore.perform he'
  | done => exact h
  | skip => exact ⟨h.known, h.root, h.halted⟩
  | @step _ _ ready _ _ ha hh _ ht hphase _ he' =>
    obtain ⟨mail, notices, hf⟩ := hc.footprint ha ht hphase he'
    have hthere : ∃ reg, e.regions.get? rootRegion = some reg := by
      cases hr : e.regions.get? rootRegion with
      | some reg => exact ⟨reg, rfl⟩
      | none =>
        rw [h.halted hr] at hh
        cases hh
    obtain ⟨reg, hr⟩ := hthere
    obtain ⟨reg', hr', halike⟩ := hf.region_kept (r := rootRegion) hr
    constructor
    · exact Nat.lt_of_lt_of_le h.known hf.next_region
    · intro reg'' hr''
      cases hr'.symm.trans hr''
      have hkind := h.root hr
      have := halike.kind
      grind
    · intro hgone
      rw [show (Progress.next _).state.regions.get? rootRegion = some reg' from hr'] at hgone
      cases hgone
  | @message message inbox ha hh =>
    have hregions : (Progress.next (receive host { e with inbox } message)).state.regions =
      e.regions := receive_regions message
    constructor
    · rw [hregions]
      exact h.known
    · intro reg hr
      rw [hregions] at hr
      exact h.root hr
    · grind [halted]
  | idle ha hh =>
    constructor
    · rw [idle_regions]
      exact h.known
    · intro reg hr
      rw [idle_regions] at hr
      exact h.root hr
    · grind [idle_regions, halted]

theorem Anchored.start (program : Program) (limit : Option Nat) (world : ω) :
    (Engine.new program limit world).start.Anchored := by
  rw [start_eq]
  have hroot : (Engine.bare program limit world).setting rootRegion = some (none, .root) := rfl
  rw [← (spawnReady_grown _ program.firstToken).setting] at hroot
  obtain ⟨reg, hr, heq⟩ := Option.map_eq_some_iff.1 hroot
  refine ⟨Store.lt_next hr, fun hr' => ?_, fun hgone => ?_⟩
  · cases hr.symm.trans hr'
    exact (Prod.mk.inj heq).2
  · rw [hr] at hgone
    cases hgone

end Engine

/-! ## Decisions -/

/-- Whether a transaction that has come so far is undecided, as a number. -/
def TxnState.undecided : TxnState → Nat
  | .running | .readying => 1
  | .done | .aborted => 0

def Node.isAtomic : Node → Bool
  | .atomic _ _ => true
  | _ => false

namespace Engine

/-- The commits, the aborts and the undecided transactions of a state together. -/
def account (e : Engine ω) : Nat :=
  e.stats.commits + e.stats.aborts + e.transactions.total fun txn => txn.state.undecided

/-- The next turn enters an atomic section. -/
def enters (e : Engine ω) : Bool := e.stepping.any fun found => found.2.2.isAtomic

/-- `n` transactions have been started on the way from `e` to `e'`, and the account has them. -/
structure Tallies (n : Nat) (e e' : Engine ω) : Prop where
  account : e'.account = e.account + n
  next : e'.transactions.next.index = e.transactions.next.index + n

theorem Tallies.refl (e : Engine ω) : e.Tallies 0 e := ⟨rfl, rfl⟩

theorem Tallies.trans {n : Nat} {e₁ : Engine ω} (h : e.Tallies 0 e₁) (h' : e₁.Tallies n e') :
    e.Tallies n e' :=
  ⟨by rw [h'.account, h.account, Nat.add_zero], by rw [h'.next, h.next, Nat.add_zero]⟩

/-- A transaction changes; `done` more of them have been decided. -/
theorem Tallies.of_modify {x : TxnId} {f : Transaction → Transaction} (done : Nat)
    (hx : e'.transactions = e.transactions.modify x f)
    (hstats : e'.stats.commits + e'.stats.aborts = e.stats.commits + e.stats.aborts + done)
    (hf : (e.transactions.modify x f).total (fun txn => txn.state.undecided) + done =
      e.transactions.total fun txn => txn.state.undecided) : e.Tallies 0 e' := by
  constructor
  · unfold Engine.account
    rw [hx]
    omega
  · rw [hx, Store.next_modify]
    rfl

theorem Grown.tallies (h : e.Grown e') : e.Tallies 0 e' := by
  have hcommits := congrArg Stats.commits h.stats
  have haborts := congrArg Stats.aborts h.stats
  refine ⟨?_, by rw [h.transactions]; rfl⟩
  grind [transactions, account]

theorem enlist_tallies (scope : Scope) (cohorts : List CohortId) :
    e.Tallies 0 (e.enlist scope cohorts) := by
  unfold enlist
  induction scope.lineage generalizing e with
  | nil => exact .refl e
  | cons x xs ih =>
    refine Tallies.trans ?_ ih
    exact .of_modify 0 rfl rfl (Store.total_modify_same fun _ => rfl)

/-- A transaction comes to another stage. -/
theorem total_undecided {x : TxnId} {txn : Transaction} (hx : e.transactions.get? x = some txn)
    (f : Transaction → Transaction) {state : TxnState} (hf : (f txn).state = state) :
    (e.transactions.modify x f).total (fun txn => txn.state.undecided) + txn.state.undecided =
      e.transactions.total (fun txn => txn.state.undecided) + state.undecided := by
  rw [← hf]
  exact Store.total_modify hx f

/-- A chore starts no transaction and leaves the account as it is, provided that only decided
    transactions are forgotten. -/
theorem perform_tallies (he' : e.perform host a = .ok e')
    (hretire : ∀ {x txn}, a = .retire x → e.transactions.get? x = some txn →
      txn.state.undecided = 0) : e.Tallies 0 e' := by
  cases performed he' with
  | @quiesce r reg =>
    obtain ⟨_, _, hgrown⟩ := e.quiesce_grown r reg
    exact ⟨hgrown.tallies.account, hgrown.tallies.next⟩
  | @prepare x txn _ hx hstate =>
    have htotal := total_undecided hx (fun txn => { txn with state := .readying }) rfl
    rw [hstate] at htotal
    have hopen : e.Tallies 0 (e.openVotes x txn) :=
      .of_modify 0 rfl rfl (Nat.add_right_cancel htotal)
    have hasked : (e.openVotes x txn).Grown (askVotes host txn.scope
        (txn.vote x e.regions.next) (e.openVotes x txn) txn.cohorts) := askVotes_grown ..
    exact ⟨(hopen.trans hasked.tallies).account, (hopen.trans hasked.tallies).next⟩
  | @verify x txn hx hstate =>
    have htotal := total_undecided hx (fun txn => { txn with state := .done, publications := [] }) rfl
    rw [hstate] at htotal
    unfold concluded committed
    dsimp only
    cases txn.parent with
    | none => exact .of_modify 1 rfl (Nat.add_right_comm ..) htotal
    | some p =>
      have hdone : e.Tallies 0 { e with
          transactions := e.transactions.modify x
            fun txn => { txn with state := .done, publications := [] }
          stats := { e.stats with commits := e.stats.commits + 1 } } :=
        .of_modify 1 rfl (Nat.add_right_comm ..) htotal
      refine hdone.trans ?_
      exact .of_modify 0 rfl rfl (Store.total_modify_same fun _ => rfl)
  | @retire x txn hx =>
    have htotal := Store.total_remove (w := fun txn : Transaction => txn.state.undecided) hx
    have hdecided := hretire rfl hx
    constructor
    · show e.stats.commits + e.stats.aborts + (e.transactions.remove x).total _ = _
      unfold account
      omega
    · show (e.transactions.remove x).next.index = _
      rw [Store.next_remove]
      rfl
  | @abort x txn hx hstate =>
    have htotal :=
      total_undecided hx (fun txn => { txn with state := .aborted, publications := [] }) rfl
    have hone : txn.state.undecided = 1 := by
      rcases hstate with hstate | hstate <;> rw [hstate] <;> rfl
    rw [hone] at htotal
    exact .of_modify 1 rfl rfl htotal
  | release => exact (spawnReady_grown ..).tallies
  | _ => exact ⟨rfl, rfl⟩

theorem park_tallies (t : TokenId) (c : GroupId) : e.Tallies 0 (e.park t c) := by
  unfold park
  split <;> exact ⟨rfl, rfl⟩

end Engine

section Steps

variable {t : TokenId} {tok : Token}

theorem Replied.tallies {reply : Reply} (h : Replied host e t tok site next reply e') :
    e.Tallies 0 e' := by
  cases h <;> exact ⟨rfl, rfl⟩

theorem Served.tallies {values : List Value} (h : Served host e t tok site values next e') :
    e.Tallies 0 e' := by
  cases h with
  | immediate hmode hreply => exact ⟨hreply.tallies.account, hreply.tallies.next⟩
  | outside hmode hscope hreply => exact ⟨hreply.tallies.account, hreply.tallies.next⟩
  | inside hmode hscope hreply =>
    have henlisted := (enlist_tallies ..).trans hreply.tallies
    exact ⟨henlisted.account, henlisted.next⟩
  | @refused scope =>
    have henlisted := enlist_tallies
      (e := (e.absorb (host.transact site values (some scope) e.world)).2) scope
      (host.transact site values (some scope) e.world).answer.enlisted
    exact ⟨henlisted.account, henlisted.next⟩
  | launched | unspawned | timer | timerFailed => exact ⟨rfl, rfl⟩

theorem Called.tallies {target : Operand} {args : List Operand} {tail : Bool}
    (h : Called host e t tok target args next tail e') : e.Tallies 0 e' := by
  cases h with
  | pending | argPending => exact park_tallies ..
  | site hv hargs hserved => exact ⟨hserved.tallies.account, hserved.tallies.next⟩
  | uncallable | mismatch | enter => exact ⟨rfl, rfl⟩

/-- A step starts a transaction if it enters a section. -/
theorem Executed.tallies (h : Executed host e t tok node e') :
    e.Tallies (if node.isAtomic then 1 else 0) e' := by
  cases h with
  | loadPending | fieldPending => exact park_tallies ..
  | @fork left right =>
    have hspawned := (spawnReady_grown e.forked (tok.forkAt right)).tallies
    exact ⟨hspawned.account, hspawned.next⟩
  | subgoal hcap hs =>
    have hspawned := (spawn_grown hs).tallies
    exact ⟨hspawned.account, hspawned.next⟩
  | buffer hx =>
    refine .of_modify 0 rfl rfl (Store.total_modify_same fun txn => ?_)
    split <;> rfl
  | atomic =>
    constructor
    · show e.stats.commits + e.stats.aborts + (e.transactions.insert _).total _ = _
      rw [Store.total_insert]
      rfl
    · exact Store.next_insert ..
  | call hcalled => exact ⟨hcalled.tallies.account, hcalled.tallies.next⟩
  | _ => exact ⟨rfl, rfl⟩

/-- A section that is entered runs. -/
theorem Executed.started (h : Executed host e t tok node e') (hatomic : node.isAtomic = true) :
    ∃ txn, e'.transactions.get? e.transactions.next = some txn ∧ txn.state = .running := by
  cases h with
  | atomic => exact ⟨_, Store.get?_insert_self .., rfl⟩
  | _ => cases hatomic

end Steps

section Decisions

variable {e e' : Engine (Logged ω)} {past : History ω} {x : TxnId}

/-- The transaction `x` is there and undecided. -/
def Engine.Undecided {ω : Type} (e : Engine ω) (x : TxnId) : Prop :=
  ∃ txn, e.transactions.get? x = some txn ∧ (txn.state = .running ∨ txn.state = .readying)

/-- The sections that a run has entered are accounted for: each has been decided or still is to
    be. -/
structure Decisions (past : History ω) (e : Engine (Logged ω)) : Prop where
  account : e.account = past.countP Engine.enters
  next : e.transactions.next.index = past.countP Engine.enters
  decided : ∀ {x}, x.index < e.transactions.next.index →
    e.Undecided x ∨ ∃ e₁ ∈ past, e₁.Commits x ∨ e₁.Aborts x
  retired : ∀ {x txn}, .retire x ∈ e.agenda → e.transactions.get? x = some txn →
    txn.state = .done ∨ txn.state = .aborted

/-- A chore leaves an undecided transaction undecided, or decides it. -/
theorem Engine.Undecided.perform (h : (e.plan [a]).Undecided x) (hc : Coherent m (e.plan [a]))
    (hl : Ledger past (e.plan [a]))
    (hretire : ∀ {txn}, a = .retire x → e.transactions.get? x = some txn →
      txn.state = .done ∨ txn.state = .aborted) (he' : e.perform host.logged a = .ok e') :
    e'.Undecided x ∨ (e.plan [a]).Commits x ∨ (e.plan [a]).Aborts x := by
  obtain ⟨txn, hx, hstate⟩ := h
  by_cases hconcerns : a.concerns x = true
  · cases Engine.performed he' with
    | @prepare y txn' =>
      obtain rfl : y = x := by simpa [Chore.concerns] using hconcerns
      refine .inl ⟨{ txn with state := .readying }, ?_, .inr rfl⟩
      show (askVotes host.logged _ _ (e.openVotes y txn') _).transactions.get? y = _
      rw [(askVotes_grown ..).transactions]
      show (e.transactions.modify y _).get? y = _
      rw [Store.get?_modify, if_pos rfl, show e.transactions.get? y = some txn from hx]
      rfl
    | @verify y txn' hx' hstate' =>
      obtain rfl : y = x := by simpa [Chore.concerns] using hconcerns
      exact .inr (.inl ⟨txn', _, rfl, hx', hstate'⟩)
    | @abort y txn' hx' hstate' =>
      obtain rfl : y = x := by simpa [Chore.concerns] using hconcerns
      exact .inr (.inr ⟨txn', _, rfl, hx', hstate'⟩)
    | @retire y txn' hx' =>
      obtain rfl : y = x := by simpa [Chore.concerns] using hconcerns
      have hdecided := hretire rfl hx
      rcases hstate with hstate | hstate <;> simp [hstate] at hdecided
    | quiesce | release => cases hconcerns
    | _ => exact .inl ⟨txn, hx, hstate⟩
  · have hkept := hl.txn_kept hc he' (Bool.eq_false_iff.2 hconcerns)
    exact .inl ⟨txn, hkept.trans hx, hstate⟩

namespace Decisions

/-- A section that a chore decides is accounted for. -/
theorem perform (h : Decisions past (e.plan [a])) (hc : Coherent m (e.plan [a]))
    (hs : Sections m (e.plan [a]) (some a)) (hl : Ledger past (e.plan [a]))
    (he' : e.perform host.logged a = .ok e') : Decisions (past ++ [e.plan [a]]) e' := by
  have hretire : ∀ {x txn}, a = .retire x → e.transactions.get? x = some txn →
      txn.state = .done ∨ txn.state = .aborted := by
    rintro x txn rfl hx
    exact h.retired mem_cons_self hx
  have htallies := perform_tallies he' fun heq hx => by
    rcases hretire heq hx with hstate | hstate <;> rw [hstate] <;> rfl
  have hcount : (past ++ [e.plan [a]]).countP enters = past.countP enters := by
    refine countP_append_of_none fun e₁ he₁ => ?_
    rw [mem_singleton.1 he₁, enters, stepping_of_chore rfl]
    rfl
  constructor
  · rw [hcount, htallies.account]
    exact h.account
  · rw [hcount, htallies.next]
    exact h.next
  · intro x hlt
    rw [htallies.next] at hlt
    rcases h.decided hlt with hundecided | ⟨e₁, he₁, hdecides⟩
    · grind [Engine.Undecided.perform]
    · exact .inr ⟨e₁, mem_append_left _ he₁, hdecides⟩
  · intro x txn hm hx
    obtain ⟨new, hagenda, hnew⟩ := perform_plans he'
    rw [hagenda] at hm
    rcases mem_append.1 hm with hm | hm
    · -- a transaction is retired after a stage that it has not passed, or after its commit
      cases hnew _ hm with
      | late hx₀ hstate =>
        cases Engine.performed he' with
        | unprepared hnone =>
          rw [hnone] at hx
          cases hx
        | prepareLate =>
          cases hx₀.symm.trans hx
          exact .inr ((hs.prepare mem_cons_self hx₀).resolve_left hstate)
        | prepare hx' hstate' =>
          cases hx₀.symm.trans hx'
          exact absurd hstate' hstate
      | retire =>
        cases Engine.performed he' with
        | unverified hnone =>
          rw [hnone] at hx
          cases hx
        | verifyLate hx' hstate =>
          cases hx'.symm.trans hx
          exact .inr ((hs.verify mem_cons_self hx').resolve_left hstate)
        | verify hx' hstate =>
          have hparent := fun p => (hc.core.aligned.scope hx').2.2 p
          have hx : (e.committed host.logged x _).transactions.get? x = some txn := hx
          rcases committed_from hx' (fun hp => Nat.lt_irrefl _ (hparent x hp)) hx with
            ⟨-, rfl⟩ | ⟨hne, -⟩
          · exact .inl rfl
          · exact absurd rfl hne
    · have hurgent := hc.urgent _ hm
      cases hurgent

/-- A turn that no transaction notices. -/
theorem quiet (h : Decisions past e) {e₀ : Engine (Logged ω)} (hstep : e₀.stepping = none)
    (hx : e'.transactions = e.transactions) (hcommits : e'.stats.commits = e.stats.commits)
    (haborts : e'.stats.aborts = e.stats.aborts)
    (hretire : ∀ {x}, .retire x ∈ e'.agenda → .retire x ∈ e.agenda) :
    Decisions (past ++ [e₀]) e' := by
  have hcount : (past ++ [e₀]).countP enters = past.countP enters := by
    grind [enters]
  constructor
  · rw [hcount, ← h.account, Engine.account, hx, hcommits, haborts]
    rfl
  · rw [hcount, hx]
    exact h.next
  · intro x hlt
    rw [hx] at hlt
    rcases h.decided hlt with ⟨txn, hx', hstate⟩ | ⟨e₁, he₁, hdecides⟩
    · exact .inl ⟨txn, by rwa [hx], hstate⟩
    · exact .inr ⟨e₁, mem_append_left _ he₁, hdecides⟩
  · intro x txn hm hx'
    rw [hx] at hx'
    exact h.retired (hretire hm) hx'

/-- Only a step at an `atomic` enters a section, and only a chore decides one. -/
theorem turn (h : Decisions past e) (hc : Coherent m e) (hs : Sections m e e.agenda.head?)
    (hl : Ledger past e) {p : Progress (Logged ω)} (hp : e.turn host.logged = .ok p) :
    Decisions (past ++ [e]) p.state := by
  cases turned hp with
  | chore he he' =>
    subst he
    exact h.perform hc hs hl he'
  | done ha hh => exact h.quiet (stepping_of_halted hh) rfl rfl rfl id
  | skip ha hh hready hskip => exact h.quiet (stepping_of_skip hready hskip) rfl rfl rfl id
  | @step t tok ready node e' ha hh hready ht hphase hnode he' =>
    have hcore := hc.taken ha ready
    obtain ⟨mail, notices, hf⟩ := hc.footprint ha ht hphase he'
    have htallies := (executed hcore ht he').tallies
    have hcount : (past ++ [e]).countP enters =
        past.countP enters + if node.isAtomic then 1 else 0 := by
      rw [countP_append, countP_singleton, enters,
        stepping_of_step ha hh hready ht hphase hnode]
      rfl
    constructor
    · rw [hcount, ← h.account]
      exact htallies.account
    · rw [hcount, ← h.next]
      exact htallies.next
    · intro x hlt
      by_cases hold : x.index < e.transactions.next.index
      · rcases h.decided hold with ⟨txn, hx, hstate⟩ | ⟨e₁, he₁, hdecides⟩
        · obtain ⟨txn', hx', halike⟩ := hf.txn_kept hx
          exact .inl ⟨txn', hx', halike.state ▸ hstate⟩
        · exact .inr ⟨e₁, mem_append_left _ he₁, hdecides⟩
      · -- only a section that has just been entered is new
        have hnext : e'.transactions.next.index = e.transactions.next.index + _ := htallies.next
        have hlt : x.index < e'.transactions.next.index := hlt
        cases hatomic : node.isAtomic with
        | false =>
          rw [hatomic] at hnext
          simp at hnext
          omega
        | true =>
          rw [hatomic] at hnext
          obtain rfl : x = e.transactions.next := by
            have hindex : x.index = e.transactions.next.index := by
              simp at hnext
              omega
            cases x
            exact congrArg Key.mk hindex
          obtain ⟨txn, hx, hstate⟩ := (executed hcore ht he').started hatomic
          exact .inl ⟨txn, hx, .inl hstate⟩
    · intro x txn hm
      cases hf.follows _ hm
  | @message message inbox ha hh hready =>
    have hreceived := received host.logged { e with inbox } message
    show Decisions (past ++ [e]) (Engine.receive host.logged { e with inbox } message)
    have hretire : ∀ {x}, .retire x ∈ (Engine.receive host.logged { e with inbox } message).agenda →
        .retire x ∈ e.agenda := by
      intro x hm
      rcases receive_agenda message hm with hm | ⟨t, heq⟩ | ⟨y, heq⟩
      · exact hm
      · cases heq
      · cases heq
    generalize Engine.receive host.logged { e with inbox } message = e' at hreceived hretire
    have hstep := stepping_of_empty hready
    cases hreceived <;> exact h.quiet hstep rfl rfl rfl hretire
  | idle ha hh hready =>
    have hidled := e.idled host.logged
    have hagenda : (e.idle host.logged).state.agenda = e.agenda := idle_agenda
    generalize e.idle host.logged = p at hidled hagenda
    have hretire : ∀ {x}, .retire x ∈ p.state.agenda → .retire x ∈ e.agenda := by
      intro x hm
      rwa [hagenda] at hm
    have hstep := stepping_of_empty hready
    cases hidled with
    | await | stuck => exact h.quiet hstep rfl rfl rfl hretire
    | tick =>
      have heq : e.dropDeadTimers.tick = _ := wakeAll_eq _ e.dropDeadTimers.due
      refine h.quiet hstep ?_ ?_ ?_ hretire
      · show e.dropDeadTimers.tick.transactions = _
        rw [heq]
        rfl
      · show e.dropDeadTimers.tick.stats.commits = _
        rw [heq]
        rfl
      · show e.dropDeadTimers.tick.stats.aborts = _
        rw [heq]
        rfl

theorem start (program : Program) (limit : Option Nat) (world : ω) :
    Decisions [] (Engine.opening program limit world) := by
  have htallies := (opening_grown program limit world).tallies
  refine ⟨htallies.account, htallies.next, fun hlt => ?_, fun hm => ?_⟩
  · rw [htallies.next] at hlt
    cases hlt
  · rw [(opening_grown ..).agenda] at hm
    cases hm

end Decisions

/-! ## Runs that are over -/

namespace Run

variable {program : Program} {limit : Option Nat} {world : ω}

section

variable (h : Run host program limit world past e)

include h

theorem rooted : e.Rooted := by
  induction h with
  | start => exact .start program limit _
  | turn hrun hp ih =>
    obtain ⟨m, hc⟩ := hrun.coherent
    exact ih.turn hc hp
  | arrive _ message ih => exact ih

theorem anchored : e.Anchored := by
  induction h with
  | start => exact .start program limit _
  | turn hrun hp ih =>
    obtain ⟨m, hc⟩ := hrun.coherent
    exact ih.turn hc hp
  | arrive _ message ih => exact ⟨ih.known, ih.root, ih.halted⟩

/-- In a polite run the sections are accounted for. -/
theorem decisions (hpolite : Polite e.world.log) : Decisions past e := by
  induction h with
  | start => exact .start program limit world
  | turn hrun hp ih =>
    have hbefore := hrun.polite hp hpolite
    obtain ⟨m, hc, hs, hl⟩ := hrun.sound hbefore
    exact (ih hbefore).turn hc hs hl hp
  | arrive hrun message ih =>
    have hbefore := ih (hpolite.mono (prefix_append ..))
    exact ⟨hbefore.account, hbefore.next, hbefore.decided, hbefore.retired⟩

end

end Run

/-- Nothing leaks when a run ends.  When the first region of a run is gone and nothing is left to do,
    the run has halted; no token, region or transaction is left, no group but the root one, and no
    token waits for a cell.  The commits and the aborts are together as many as the atomic sections
    that have been entered, and the transaction of each of them was decided once. -/
theorem finished_run_leaves_nothing (host : Host ω) (program : Program) (limit : Option Nat)
    (world : ω) {past : List (Engine (Logged ω))} {e : Engine (Logged ω)}
    (h : Run host program limit world past e) (hpolite : Polite e.world.log) (ha : e.agenda = [])
    (hroot : e.regions.get? rootRegion = none) :
    e.halted = true ∧ e.Cleared ∧
      e.stats.commits + e.stats.aborts = past.countP Engine.enters ∧
      (∀ x, x.index < past.countP Engine.enters → ∃ e₁ ∈ past, e₁.Commits x ∨ e₁.Aborts x) ∧
      past.Pairwise fun e₁ e₂ => ∀ x, e₁.Commits x ∨ e₁.Aborts x →
        ¬(e₂.Commits x ∨ e₂.Aborts x) := by
  obtain ⟨m, hc, hs, hl⟩ := h.sound hpolite
  have hdecisions := h.decisions hpolite
  rw [ha] at hs
  have hcleared := hs.cleared (hc.core_of_idle ha) h.rooted ha hroot
  refine ⟨h.anchored.halted hroot, hcleared, ?_, fun x hx => ?_, hl.decided_once⟩
  · have hnone : e.transactions.total (fun txn => txn.state.undecided) = 0 := by
      refine length_eq_zero_iff.2 (eq_nil_iff_forall_not_mem.2 fun u hu => ?_)
      obtain ⟨x, txn, hx, -⟩ := Store.mem_collect.1 hu
      rw [hcleared.transactions x] at hx
      cases hx
    have haccount := hdecisions.account
    unfold Engine.account at haccount
    omega
  · rw [← hdecisions.next] at hx
    rcases hdecisions.decided hx with ⟨txn, hx, -⟩ | hdecided
    · rw [hcleared.transactions x] at hx
      cases hx
    · exact hdecided

/-- A run that has ended by itself, after it has committed a transaction. -/
theorem finished_run_leaves_nothing_roundTrip : ∃ p past e,
    Expr.roundTrip.compile Registry.roundTrip = .ok p ∧ Run Host.echo p none () past e ∧
      Polite e.world.log ∧ e.agenda = [] ∧ e.regions.get? rootRegion = none ∧
      e.stats.commits = 1 ∧ e.halted = true ∧ e.Cleared ∧
      e.stats.commits + e.stats.aborts = past.countP Engine.enters := by
  obtain ⟨p, past, e, hp, hrun, hcheck⟩ := Run.compiled Expr.roundTrip Registry.roundTrip
    Host.echo none () 50 (fun e => decide (Polite e.world.log) && e.agenda.isEmpty &&
      (e.regions.get? rootRegion).isNone && e.stats.commits = 1) ⟨_, rfl, by decide +kernel⟩
  simp only [Bool.and_eq_true, decide_eq_true_eq, List.isEmpty_iff, Option.isNone_iff_eq_none]
    at hcheck
  obtain ⟨⟨⟨hpolite, ha⟩, hroot⟩, hcommits⟩ := hcheck
  obtain ⟨hhalted, hcleared, haccount, -⟩ :=
    finished_run_leaves_nothing _ _ _ _ hrun hpolite ha hroot
  exact ⟨p, past, e, hp, hrun, hpolite, ha, hroot, hcommits, hhalted, hcleared, haccount⟩

end Decisions

end Orchestra
