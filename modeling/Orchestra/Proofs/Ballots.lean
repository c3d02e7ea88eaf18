/-
  Ballots: the ledger stays in order whatever a turn does.

  Most chores change nothing that a cohort sees; `Ledger.chore` says so for all of them.  Four do.
  When the body of a transaction is done its cohorts are asked (`ofPrepare`), when the votes are in
  they are told to confirm (`ofVerify`), and after an abort they are told one by one (`ofAbort`,
  `ofRollback`).  A step of a token may let further cohorts take part or hold something back
  (`step`); it belongs to transactions that all run, so none of them has been decided.
-/
import Orchestra.Proofs.Ledger

namespace Orchestra

open Engine List

variable {ω : Type} {m : Charter} {host : Host ω} {past : History ω}
  {e e' : Engine (Logged ω)} {a : Chore} {c : CohortId} {grp : Group} {empty : Option RegionId}
  {preg reg : Region} {tok : Token} {t : TokenId} {txn : Transaction} {x : TxnId}

/-- A token among the votes of a transaction belongs to it. -/
theorem Core.voter_txn (h : Core m e empty) (ht : e.tokens.get? t = some tok)
    (hr : e.regions.get? tok.region = some reg) (hkind : reg.kind = .votes x) :
    tok.txn = some x := by
  obtain ⟨txn, -, -, -, htxn⟩ := h.aligned.atomic hr (.inr hkind)
  rw [← (h.aligned.token ht).2]
  exact htxn

theorem Core.scope_id (h : Core m e empty) (hx : e.transactions.get? x = some txn) :
    txn.scope.id = x := by
  obtain ⟨hlineage, hown, -⟩ := h.aligned.scope hx
  exact (List.cons.inj (hlineage.trans hown)).1

/-- The scope that a token acts in is that of its transaction. -/
theorem Core.scopeOf_lineage (h : Core m e empty) {s : Scope} (hs : e.scopeOf tok = some s) :
    s.lineage = m.lineage? tok.txn := by
  obtain ⟨txn, htxn, rfl⟩ := Option.map_eq_some_iff.1 hs
  obtain ⟨x, hx, hget⟩ := Option.bind_eq_some_iff.1 htxn
  rw [(h.aligned.scope hget).1, hx]
  rfl

namespace Ledger

/-! ## Chores that no cohort notices -/

/-- A chore that changes neither what cohorts have been told nor what is known of transactions. -/
theorem chore {new : List Chore} (h : Ledger past (e.plan [a])) (hroll : ∀ c s, a ≠ .rollback c s)
    (habort : ∀ {x txn}, a = .abort x → e.transactions.get? x = some txn → txn.state ≠ .readying)
    (hw : e'.world.log = e.world.log) (hi : e'.inbox = e.inbox)
    (htxn : ∀ {x txn}, e'.transactions.get? x = some txn → e.transactions.get? x = some txn)
    (hnext : e'.transactions.next = e.transactions.next) (hagenda : e'.agenda = new ++ e.agenda)
    (hnew : ∀ b ∈ new, (∀ t, b ≠ .killToken t) ∧ ∀ c s, b ≠ .rollback c s)
    (hgrow : e.tokens.next.index ≤ e'.tokens.next.index) (hvotes : e.KeepsVotes e') :
    Ledger past e' := by
  refine h.frame [] [] ?_ ?_ htxn hnext hgrow ⟨hvotes.polled, hvotes.voter⟩ ?_ ?_ ?_
  · rw [hw]
    simp [Engine.plan]
  · grind [Engine.plan]
  · grind [Engine.plan]
  · grind [Engine.plan]
  · have hnone : rollbacks new = [] := by
      rw [eq_nil_iff_forall_not_mem]
      grind [mem_rollbacks]
    have hpop : rollbacks (a :: e.agenda) = rollbacks e.agenda := by
      cases a <;> first | rfl | exact absurd rfl (hroll _ _)
    grind [rollbacks_append, Engine.plan]

/-- A chore that only says what is to be done next. -/
theorem replan (h : Ledger past (e.plan [a])) (new : List Chore) (hroll : ∀ c s, a ≠ .rollback c s)
    (habort : ∀ {x txn}, a = .abort x → e.transactions.get? x = some txn → txn.state ≠ .readying)
    (hnew : ∀ b ∈ new, (∀ t, b ≠ .killToken t) ∧ ∀ c s, b ≠ .rollback c s) :
    Ledger past (e.plan new) := by grind [chore, Engine.KeepsVotes.same, Engine.plan]

theorem pop (h : Ledger past (e.plan [a])) (hroll : ∀ c s, a ≠ .rollback c s)
    (habort : ∀ {x txn}, a = .abort x → e.transactions.get? x = some txn → txn.state ≠ .readying) :
    Ledger past e := h.replan [] hroll habort (by simp)

/-- The ledger stays true when a token ends. -/
theorem killToken (h : Ledger past (e.plan [.killToken t]))
    (hcore : Core m (e.plan [.killToken t]) none)
    (hs : Sections m (e.plan [.killToken t]) (some (.killToken t)))
    (ht : e.tokens.get? t = some tok) : Ledger past (e.ended t tok reg) := by
  refine h.chore (by simp) (by simp) rfl rfl id rfl rfl ?_ ?_ ⟨?_, ?_⟩
  · split <;> simp
  · exact Nat.le_of_eq (congrArg Key.index (Store.next_remove ..)).symm
  · intro t' tok' reg' x txn ht' hr' hkind' hx hstate
    by_cases hne : t' = t
    · -- this vote was in, since there is no abort
      subst hne
      cases ht.symm.trans ht'
      have hphase : tok.phase = .voting := hs.polled ht hr' hkind'
      have hdis := (h.dismissed mem_cons_self).2 tok x txn ht hphase
        (hcore.voter_txn ht hr' hkind') hx hstate
      grind [Engine.plan]
    · obtain ⟨reg'', hr'', halike⟩ := Store.modify_forth (P := Region.Alike) .refl
        (f := Region.unseat t)
        (fun _ => ⟨rfl, rfl, .inl rfl⟩) e.regions tok.region hr'
      grind [Engine.plan]
  · grind [Engine.plan]

/-- A token is added that does not stand for a vote. -/
theorem spawnReady (h : Ledger past e) (hp : tok.phase ≠ .voting) :
    Ledger past (e.spawnReady tok) := by
  unfold Engine.spawnReady
  split
  · rename_i t₁ e₁ hs
    obtain ⟨-, -, -, he₁⟩ := spawn_eq_some hs
    have hadded : Ledger past e₁ := by
      rw [he₁]
      refine h.frame [] [] (by simp) (fun _ => .inl) id rfl ?_ ⟨?_, ?_⟩ (fun hm => .inl hm) .inl rfl
      · grind
      · grind
      · grind
    exact hadded.congr rfl
  · exact h

/-- The ledger stays true when a region goes. -/
theorem quiesce {r : RegionId} (h : Ledger past (e.plan [.quiesce r]))
    (hc : Coherent m (e.plan [.quiesce r])) (hr : e.regions.get? r = some reg) :
    Ledger past (e.vacated r reg) := by
  unfold vacated
  have hcore : Core m (e.plan [.quiesce r]) (some r) := hc.core
  have hlive : reg.live = 0 := hc.quiet mem_cons_self hr
  -- the region that goes is empty, so no vote stands in it
  have htokens : ∀ {t tok}, e.tokens.get? t = some tok → tok.region ≠ r := by
    rintro t tok ht rfl
    obtain ⟨reg', hr', hmem⟩ := hcore.census.region_of ht
    cases hr.symm.trans hr'
    have := hcore.census.live_pos_of_token hr hmem
    omega
  have hshut : ∀ (halted : Bool) (new : List Chore),
      (∀ b ∈ new, (∀ t, b ≠ .killToken t) ∧ ∀ c s, b ≠ .rollback c s) →
      Ledger past ({ e with regions := e.regions.remove r, halted }.plan new) := by
    intro halted new hnew
    refine h.chore (by simp) (by simp) rfl rfl id rfl rfl hnew (Nat.le_refl _) ⟨?_, ?_⟩
    · grind [Engine.plan]
    · exact fun ht hp => ⟨_, ht, hp, rfl⟩
  have hdetach : ∀ b ∈ reg.farewell r,
      (∀ t, b ≠ .killToken t) ∧ ∀ c s, b ≠ .rollback c s := by grind [Option.map_eq_some_iff]
  cases hkind : reg.kind with
  | root => exact hshut true _ hdetach
  | pruning c => exact hshut _ (.killGroup c :: _) (forall_mem_cons.2 ⟨by simp, hdetach⟩)
  | transaction x => exact hshut _ (.prepare x :: _) (forall_mem_cons.2 ⟨by simp, hdetach⟩)
  | votes x => exact hshut _ (.verify x :: _) (forall_mem_cons.2 ⟨by simp, hdetach⟩)
  | otherwise published k => grind [spawnReady, react, Continuation.resume]

theorem detach {p c : RegionId} (h : Ledger past (e.plan [.detach p c])) :
    Ledger past (e.detached p c reg) := by
  refine h.chore (by simp) (by simp) rfl rfl id rfl rfl ?_ (Nat.le_refl _) ⟨?_, ?_⟩
  · split <;> simp
  · intro t tok reg' x txn ht hr' hkind _ _
    obtain ⟨reg'', hr'', halike⟩ := Store.modify_forth (P := Region.Alike) .refl
      (f := (Region.disown c))
      (fun _ => ⟨rfl, rfl, .inl rfl⟩) e.regions p hr'
    grind [Engine.plan]
  · exact fun ht hp => ⟨_, ht, hp, rfl⟩

/-- Killing a group ends the votes of its own transaction only, which is aborted first. -/
theorem killGroup {g : GroupId} (h : Ledger past (e.plan [.killGroup g]))
    (hcore : Core m (e.plan [.killGroup g]) none)
    (hs : Sections m (e.plan [.killGroup g]) (some (.killGroup g)))
    (hg : e.groups.get? g = some grp) : Ledger past (e.condemned g grp) := by
  have habort : ∀ a ∈ abortFor grp.kind, ∃ x, a = .abort x := by
    unfold abortFor
    split <;> simp
  refine h.frame [] [] (by simp [Engine.plan, Engine.onGroup]) (fun _ => .inl) id rfl
    (Nat.le_refl _) (.same rfl rfl) ?_ ?_ ?_
  · intro t hm
    have hm : Chore.killToken t ∈ (abortFor grp.kind ++
        (grp.members ++ e.orphans g grp.kind).map Chore.killToken ++
        .removeGroup g :: grp.children.reverse.map Chore.killGroup) ++ e.agenda := hm
    simp only [mem_append, mem_cons, mem_map, Chore.killToken.injEq,
      exists_eq_right, reduceCtorEq, and_false, exists_false, or_false] at hm
    rcases hm with (hm | hm | hm) | hm
    · grind
    · obtain ⟨tok, ht, rfl⟩ := hcore.kinship.member_of hg hm
      refine .inr ⟨Store.lt_next ht, fun tok' x ht' hp hx => .inr ?_⟩
      cases ht.symm.trans ht'
      obtain ⟨reg, x', hr, hkind⟩ := hs.voting ht hp
      cases hx.symm.trans (hcore.voter_txn ht hr hkind)
      obtain ⟨txn, hxn, -, hgroup, -⟩ := hcore.aligned.atomic hr (.inr hkind)
      have hsame : tok.group = txn.group := (hcore.aligned.token ht).1.symm.trans hgroup
      have hgkind := (hcore.aligned.transaction hxn).2.2.2.2 grp (hsame ▸ hg)
      simp [Engine.plan, abortFor, hgkind]
    · have hvoteless : Voteless (e.plan [.killGroup g]) t := by
        unfold orphans at hm
        split at hm
        · rename_i ws r hkind
          split at hm
          · exact hs.waiter hg hkind hm
          · cases hm
        · cases hm
      exact .inr ⟨hvoteless.1, fun tok x ht hp => absurd hp (hvoteless.2 ht)⟩
    · exact .inl (mem_cons_of_mem _ hm)
  · simp [Engine.plan]
  · have hnone : rollbacks (abortFor grp.kind ++
        (grp.members ++ e.orphans g grp.kind).map Chore.killToken ++
        .removeGroup g :: grp.children.reverse.map Chore.killGroup) = [] := by
      rw [eq_nil_iff_forall_not_mem]
      grind [mem_rollbacks]
    show _ = _ ++ rollbacks (_ ++ e.agenda)
    rw [rollbacks_append, hnone]
    rfl

/-- A token changes and does not become a vote. -/
theorem onToken (h : Ledger past e) {f : Token → Token}
    (hf : ∀ tok, (f tok).region = tok.region ∧ (f tok).txn = tok.txn)
    (hp : ∀ tok, (f tok).phase = tok.phase ∨ (f tok).phase ≠ .voting) :
    Ledger past (e.onToken t f) := by
  refine h.frame [] [] (by simp [Engine.onToken]) (fun _ => .inl) id rfl ?_ ⟨?_, ?_⟩
    (fun hm => .inl hm) .inl rfl
  · exact Nat.le_of_eq (congrArg Key.index (Store.next_modify ..)).symm
  · intro t' tok reg x txn ht' hr hkind _ _
    obtain ⟨tok', htok', hsame⟩ := Store.modify_forth (P := fun a b : Token => b.region = a.region)
      (fun _ => rfl) (fun tok => (hf tok).1) e.tokens t ht'
    grind [Engine.onToken]
  · intro t' tok' (ht' : (e.tokens.modify t f).get? t' = some tok') hv
    rcases Store.modified ht' with ⟨-, tok, htok, rfl⟩ | ⟨-, ht'⟩
    · grind
    · exact ⟨tok', ht', hv, rfl⟩

theorem woken (h : Ledger past e) (t : TokenId) :
    Ledger past ((e.onToken t Token.woken).enqueue t) := by
  have hwoken : Ledger past (e.onToken t Token.woken) :=
    h.onToken (fun _ => ⟨rfl, rfl⟩) fun _ => .inr (by simp)
  exact hwoken.congr rfl

/-! ## Chores that cohorts notice -/

theorem ofRollback {s : Scope} (h : Ledger past (e.plan [.rollback c s])) :
    Ledger past { e with world := host.logged.rollback c s e.world } := by
  refine h.frame [(c, s)] [] (by simp [Engine.plan, Host.logged]) (fun _ => .inl) id rfl
    (Nat.le_refl _) (.same rfl rfl) ?_ (by simp [Engine.plan]) rfl
  exact fun hm => .inl (mem_cons_of_mem _ hm)

theorem retire (h : Ledger past (e.plan [.retire x])) : Ledger past (e.retiring x txn) := by
  refine h.chore (by simp) (by simp) rfl rfl ?_ (Store.next_remove ..) rfl (by simp)
    (Nat.le_refl _) (.same rfl rfl)
  exact fun hx' => (Store.of_get?_remove hx').2

/-- How often a cohort is among those that are told. -/
theorem countP_told {p : CohortId → Bool} {cohorts : List CohortId} (h : cohorts.Nodup)
    (hp : ∀ c', p c' = true → c' = c) : cohorts.countP p ≤ 1 := by
  induction cohorts with
  | nil => simp
  | cons a cohorts ih => grind [countP_eq_zero]

/-- A transaction is decided.  `new` is what its cohorts are told at once, and `pend` who is still
    to be told. -/
theorem decide (h : Ledger past e) (new : List Entry) (pend : List (CohortId × Scope))
    {fate : TxnState} (hx : e.transactions.get? x = some txn)
    (hs : txn.state = .running ∨ txn.state = .readying) (hid : txn.scope.id = x)
    (hfate : fate = .done ∧ e.Commits x ∨ fate = .aborted ∧ e.Aborts x)
    (htxn : ∀ {x' txn'}, e'.transactions.get? x' = some txn' →
      (x' = x ∧ txn' = { txn with state := fate, publications := [] }) ∨
        (x' ≠ x ∧ e.transactions.get? x' = some txn'))
    (hnext : e'.transactions.next = e.transactions.next) (ht : e'.tokens = e.tokens)
    (hr : e'.regions = e.regions) (hi : e'.inbox = e.inbox)
    (hlog : e'.world.log = e.world.log ++ new)
    (hkill : ∀ t, .killToken t ∈ e'.agenda → .killToken t ∈ e.agenda)
    (hpend : rollbacks e'.agenda = pend ++ rollbacks e.agenda)
    (hnew : ∀ a ∈ new, fate = .done ∧ ∃ c, a = .confirmed c txn.scope)
    (hpended : ∀ p ∈ pend, fate = .aborted ∧ p.2 = txn.scope) (htold : ∀ c ∈ txn.cohorts,
      (fate = .done → .confirmed c txn.scope ∈ new) ∧ (fate = .aborted → (c, txn.scope) ∈ pend))
    (honce : ∀ c, new.countP (Entry.confirms c x) ≤ 1 ∧
      pend.countP (fun p => p.1 = c && p.2.id = x) ≤ 1) (hall : fate = .done → ∀ c ∈ txn.cohorts,
      ∃ vote, Asked e.world.log c x vote ∧ Answered e.world.log vote) :
    Ledger (past ++ [e]) e' := by
  have hdecides : e.Commits x ∨ e.Aborts x := hfate.imp And.right And.right
  have hcommits : fate = .done → e.Commits x := by
    rintro rfl
    simpa using hfate
  have haborts : fate = .aborted → e.Aborts x := by
    rintro rfl
    simpa using hfate
  have hw : e.Notes new e' := by
    refine ⟨hlog, Nat.le_of_eq (by rw [hnext]), fun {y txn'} hy _ => ?_⟩
    rcases htxn hy with ⟨rfl, rfl⟩ | ⟨-, hy⟩
    · exact ⟨txn, hx, rfl, by grind, by grind⟩
    · exact ⟨txn', hy, .refl _⟩
  have henlisted : ∀ {c y}, Enlisted e'.world.log c y ↔ Enlisted e.world.log c y :=
    hw.enlisted_iff fun _ _ hm => by simpa using hnew _ hm
  have hcount : ∀ {p : Entry → Bool}, (∀ c s, p (.confirmed c s) = false) →
      e'.world.log.countP p = e.world.log.countP p := by
    refine fun hp => hw.countP_eq fun a ha => ?_
    obtain ⟨-, c, rfl⟩ := hnew a ha
    exact hp c _
  -- what is still open is another transaction
  have hopen : ∀ {y txn'}, e'.transactions.get? y = some txn' →
      txn'.state = .running ∨ txn'.state = .readying → y ≠ x ∧ e.transactions.get? y = some txn' := by
    grind
  have hbuffered : ∀ y, bufferedFor y (past ++ [e]) = bufferedFor y past := by
    intro y
    simp [bufferedFor, buffering_of_decides hdecides, heldFor]
  constructor
  case enlisted =>
    intro y txn' hy c
    rw [henlisted]
    rcases htxn hy with ⟨rfl, rfl⟩ | ⟨-, hy⟩
    · exact h.enlisted hx c
    · exact h.enlisted hy c
  case cohorts_nodup =>
    intro y txn' hy
    rcases htxn hy with ⟨rfl, rfl⟩ | ⟨-, hy⟩
    · show txn.cohorts.Nodup
      exact h.cohorts_nodup hx
    · exact h.cohorts_nodup hy
  case lineage => exact h.lineage_of hw fun hm => by simpa using hnew _ hm
  case asked => exact h.asked_of hw fun hm => by simpa using hnew _ hm
  case asked_once =>
    intro c y
    rw [hcount fun _ _ => rfl]
    exact h.asked_once c y
  case polling =>
    intro y txn' c hy hs' hc
    refine h.polling_of hw (hopen hy (.inr hs')).2 hs' hc fun ht' hr' hkind => .inr ?_
    rw [Polls, ht, hr]
    exact ⟨_, _, ht', hr', hkind⟩
  case voter =>
    intro t tok ht' hp
    obtain ⟨c, s, hm⟩ := h.voter (ht ▸ ht') hp
    exact ⟨c, s, hw.mem hm⟩
  case dismissed =>
    intro t hm
    obtain ⟨hlt, hdis⟩ := h.dismissed (hkill t hm)
    rw [ht]
    refine ⟨hlt, fun tok y txn' htok hp hy hyn hs' => .inl (hw.mem ?_)⟩
    obtain ⟨hne, hold⟩ := hopen hyn (.inr hs')
    refine (hdis tok y txn' htok hp hy hold hs').resolve_right fun hhead => hne ?_
    -- an abort on top is the one of this transaction
    rcases hdecides with ⟨_, _, hagenda, -⟩ | ⟨_, _, hagenda, -⟩ <;> rw [hagenda] at hhead <;>
      cases hhead
    rfl
  case inbox => exact fun message hm => hw.mem (h.inbox message (hi ▸ hm))
  case committed =>
    intro e₁ y he₁ hc
    rcases mem_append.1 he₁ with he₁ | he₁
    · exact h.committed_of hw he₁ hc henlisted.1
    · -- the state that commits this transaction
      cases mem_singleton.1 he₁
      cases decides_one hdecides (.inl hc)
      have hdone : fate = .done := (hfate.resolve_right fun ha => hc.not_aborts ha.2).1
      refine ⟨hnext ▸ Store.lt_next hx, fun txn' hy => ?_, fun c hc' => ⟨txn.scope, hid, ?_⟩⟩
      · rcases htxn hy with ⟨-, rfl⟩ | ⟨hne, -⟩
        · exact hdone
        · exact absurd rfl hne
      · rw [hlog]
        exact mem_append_right _ ((htold c ((h.enlisted hx c).2 (henlisted.1 hc'))).1 hdone)
  case aborted =>
    intro e₁ y he₁ ha
    rcases mem_append.1 he₁ with he₁ | he₁
    · refine h.aborted_of hw he₁ ha henlisted.1 fun hm => .inr ?_
      rw [hpend]
      exact mem_append_right _ hm
    · -- the state that aborts this transaction
      cases mem_singleton.1 he₁
      cases decides_one hdecides (.inr ha)
      have haborted : fate = .aborted := (hfate.resolve_left fun hc => hc.2.not_aborts ha).1
      refine ⟨hnext ▸ Store.lt_next hx, fun txn' hy => ?_, fun c hc' => ⟨txn.scope, hid, .inr ?_⟩⟩
      · rcases htxn hy with ⟨-, rfl⟩ | ⟨hne, -⟩
        · exact haborted
        · exact absurd rfl hne
      · rw [hpend]
        exact mem_append_left _ ((htold c ((h.enlisted hx c).2 (henlisted.1 hc'))).2 haborted)
  case decided_once =>
    refine pairwise_append.2 ⟨h.decided_once, pairwise_singleton .., ?_⟩
    intro e₁ he₁ e₂ he₂ y hy hy'
    -- it was undecided until now
    cases mem_singleton.1 he₂
    cases decides_one hdecides hy'
    exact h.undecided hx hs he₁ hy
  case confirmed =>
    intro c s hm
    rcases hw.mem_or hm with hm | hm
    · obtain ⟨e₁, he₁, hc⟩ := h.confirmed hm
      exact ⟨e₁, mem_append_left _ he₁, hc⟩
    · obtain ⟨hdone, c', heq⟩ := hnew _ hm
      cases heq
      exact ⟨e, by simp, hid ▸ hcommits hdone⟩
  case rolledBack =>
    intro c s hm
    rw [hpend, mem_append] at hm
    have hcases : (.rolledBack c s ∈ e.world.log ∨ (c, s) ∈ rollbacks e.agenda) ∨ (c, s) ∈ pend := by
      have hlogged : .rolledBack c s ∈ e'.world.log → .rolledBack c s ∈ e.world.log := fun hm =>
        (hw.mem_or hm).resolve_right fun hm => by simpa using hnew _ hm
      tauto
    rcases hcases with hm | hm
    · obtain ⟨e₁, he₁, ha⟩ := h.rolledBack hm
      exact ⟨e₁, mem_append_left _ he₁, ha⟩
    · obtain ⟨haborted, rfl⟩ := hpended _ hm
      exact ⟨e, by simp, hid ▸ haborts haborted⟩
  case confirmed_once =>
    intro c y
    rw [hlog, countP_append]
    by_cases hy : y = x
    · -- nobody was told before, and everyone is told once now
      subst hy
      have := h.unconfirmed hx hs c
      have := (honce c).1
      omega
    · have hnone : new.countP (Entry.confirms c y) = 0 := by
        refine countP_eq_zero.2 fun a ha hp => ?_
        obtain ⟨-, c', rfl⟩ := hnew a ha
        simp [Entry.confirms, hid, Ne.symm hy] at hp
      have := h.confirmed_once c y
      omega
  case rolledBack_once =>
    intro c y
    rw [hcount fun _ _ => rfl, hpend, countP_append]
    by_cases hy : y = x
    · subst hy
      have := h.unrolled hx hs c
      have := (honce c).2
      omega
    · have hnone : pend.countP (fun p => p.1 = c && p.2.id = y) = 0 := by
        refine countP_eq_zero.2 fun p hp hpc => ?_
        simp [(hpended p hp).2, hid, Ne.symm hy] at hpc
      have := h.rolledBack_once c y
      omega
  case unanimous =>
    intro before after c s hsplit c' hc'
    rw [hlog] at hsplit
    rcases split_append hsplit with ⟨after', hold⟩ | ⟨hbefore, hm⟩
    · exact h.unanimous hold c' (henlisted.1 hc')
    · -- one of those who are told now; all have voted by then
      obtain ⟨hdone, c'', heq⟩ := hnew _ hm
      cases heq
      rw [hid] at hc' ⊢
      obtain ⟨vote, ⟨s', hs', hasked⟩, hanswered⟩ :=
        hall hdone c' ((h.enlisted hx c').2 (henlisted.1 hc'))
      exact ⟨vote, ⟨s', hs', hbefore.subset hasked⟩, hbefore.subset hanswered⟩
  case buffered =>
    intro y txn' hy hs'
    rw [hbuffered]
    exact h.buffered (hopen hy hs').2 hs'
  case complete =>
    intro e₁ y txn' he₁ hc hy
    rw [hbuffered]
    rcases mem_append.1 he₁ with he₁ | he₁
    · exact h.complete he₁ hc hy
    · -- what is released now is all that was held back
      cases mem_singleton.1 he₁
      cases decides_one hdecides (.inl hc)
      cases hx.symm.trans hy
      exact h.buffered hx hs
  case buffered_known =>
    intro y hy
    rw [hbuffered] at hy
    rw [hnext]
    exact h.buffered_known hy

/-- An abort is a decision, of which the cohorts are yet to be told. -/
theorem ofAbort (h : Ledger past (e.plan [.abort x])) (hcore : Core m (e.plan [.abort x]) none)
    (hx : e.transactions.get? x = some txn) (hs : txn.state = .running ∨ txn.state = .readying) :
    Ledger (past ++ [e.plan [.abort x]]) (e.rescinded x txn) := by
  refine h.decide [] (txn.cohorts.map fun c => (c, txn.scope)) hx hs (hcore.scope_id hx)
    (.inr ⟨rfl, txn, e.agenda, rfl, hx, hs⟩) (fun hx' => Store.of_get?_modify hx hx')
    (Store.next_modify ..) rfl rfl rfl (append_nil _).symm ?_ ?_ (by simp) ?_ ?_ ?_ (by simp)
  · intro t hm
    have hm : Chore.killToken t ∈ (.killGroup txn.group ::
        txn.cohorts.map fun c => .rollback c txn.scope) ++ e.agenda := hm
    simp only [mem_append, mem_cons, mem_map, reduceCtorEq, and_false,
      exists_false, or_false, false_or] at hm
    exact mem_cons_of_mem _ hm
  · show rollbacks ((txn.cohorts.map fun c => Chore.rollback c txn.scope) ++ e.agenda) = _
    rw [rollbacks_append]
    congr 1
    simp_all [rollbacks]
  · grind
  · grind
  · intro c
    rw [countP_map]
    refine ⟨by simp, countP_told (c := c) (h.cohorts_nodup hx) fun c' hc' => ?_⟩
    simpa using (Bool.and_eq_true_iff.1 hc').1

/-- A transaction knows the cohorts of those inside of it. -/
theorem parent_knows (h : Ledger past e) (hcore : Core m e empty) {p : TxnId} {ptxn : Transaction}
    (hx : e.transactions.get? x = some txn) (hp : txn.parent = some p)
    (hptxn : e.transactions.get? p = some ptxn) : ∀ c ∈ txn.cohorts, c ∈ ptxn.cohorts := by
  intro c hc
  obtain ⟨s, cohorts, hm, hxs, hcs⟩ := (h.enlisted hx c).1 hc
  refine (h.enlisted hptxn c).2 ⟨s, cohorts, hm, ?_, hcs⟩
  refine (h.lineage hm hxs).2 txn hx p ?_
  obtain ⟨hlineage, hown, -⟩ := hcore.aligned.scope hx
  rw [hlineage, hown, hp]
  refine mem_cons_of_mem _ ?_
  show p ∈ m.lineage p
  rw [(hcore.aligned.scope hptxn).2.1]
  exact mem_cons_self

/-- A commit is a decision, of which all cohorts are told at once. -/
theorem ofVerify (h : Ledger past (e.plan [.verify x])) (hc : Coherent m (e.plan [.verify x]))
    (hx : e.transactions.get? x = some txn) (hstate : txn.state = .readying) :
    Ledger (past ++ [e.plan [.verify x]]) (e.concluded host.logged x txn) := by
  have hcore : Core m (e.plan [.verify x]) none := hc.core
  have hparent : txn.parent ≠ some x := fun hp =>
    Nat.lt_irrefl _ ((hcore.aligned.scope hx).2.2 x hp)
  refine h.decide (txn.cohorts.map fun c => .confirmed c txn.scope) [] hx (.inr hstate)
    (hcore.scope_id hx) (.inl ⟨rfl, txn, e.agenda, rfl, hx, hstate⟩) ?_ ?_ rfl rfl rfl
    (host.log_confirms txn.scope txn.cohorts e.world) ?_ ?_ ?_ (by simp) ?_ ?_ ?_
  · intro x' txn' (hx' : (e.committed host.logged x txn).transactions.get? x' = some txn')
    rcases committed_from hx hparent hx' with ⟨rfl, rfl⟩ | ⟨hne, old, hold, rfl | ⟨hp, rfl⟩⟩
    · exact .inl ⟨rfl, rfl⟩
    · exact .inr ⟨hne, hold⟩
    · -- the transaction around this one knows these cohorts
      refine .inr ⟨hne, ?_⟩
      grind [Transaction.enlist_of_subset, parent_knows, Engine.plan]
  · grind [Engine.committed, Engine.plan]
  · intro t hm
    have hm : Chore.killToken t ∈
        (.retire x :: txn.publications.map (.release txn.continuation)) ++ e.agenda := hm
    simp only [mem_append, mem_cons, mem_map, reduceCtorEq, and_false,
      exists_false, or_false, false_or] at hm
    exact mem_cons_of_mem _ hm
  · show rollbacks ((.retire x :: txn.publications.map (.release txn.continuation)) ++ e.agenda) = _
    rw [rollbacks_append]
    have hnone : rollbacks (.retire x :: txn.publications.map (.release txn.continuation)) = [] := by
      simp_all [eq_nil_iff_forall_not_mem, mem_rollbacks]
    rw [hnone]
    rfl
  · grind
  · grind
  · intro c
    rw [countP_map]
    refine ⟨countP_told (c := c) (h.cohorts_nodup hx) fun c' hc' => ?_, by simp⟩
    simpa using (Bool.and_eq_true_iff.1 hc').1
  · intro _ c hcohort
    obtain ⟨vote, hasked, hvote⟩ := h.polling hx hstate hcohort
    refine ⟨vote, hasked, hvote.resolve_right ?_⟩
    rintro ⟨tok, reg, -, hr, hkind⟩
    exact hc.cleared (.inr (.inl mem_cons_self)) hr (.inr hkind)

end Ledger

/-! ## Asking for votes -/

/-- What asking the cohorts of a transaction for their votes does on the way from `e` to `e'`.
    `new` is what is written down. -/
structure Polled (scope : Scope) (vote : Token) (cohorts : List CohortId) (new : List Entry)
    (e e' : Engine (Logged ω)) : Prop where
  log : e'.world.log = e.world.log ++ new
  entry : ∀ a ∈ new, (∃ c t, a = .asked c scope t) ∨ ∃ message, a = .sent message
  all : ∀ c ∈ cohorts, ∃ t, .asked c scope t ∈ new ∧ e'.tokens.get? t = some vote
  count : ∀ c x, new.countP (Entry.asks c x) = if scope.id = x then cohorts.count c else 0
  inbox : ∀ message ∈ e'.inbox, message ∈ e.inbox ∨ .sent message ∈ new
  next : e.tokens.next.index ≤ e'.tokens.next.index
  kept : ∀ {t tok}, e.tokens.get? t = some tok → e'.tokens.get? t = some tok
  fresh : ∀ {t tok'}, e'.tokens.get? t = some tok' → e.tokens.get? t = some tok' ∨
    e.tokens.next.index ≤ t.index ∧ ∃ c, .asked c scope t ∈ new
  regions : ∀ {r reg}, e.regions.get? r = some reg →
    ∃ reg', e'.regions.get? r = some reg' ∧ reg.Alike reg'
  transactions : e'.transactions = e.transactions
  agenda : e'.agenda = e.agenda

/-- Every cohort is asked, since there is room for its vote. -/
theorem Engine.askVotes_polled (host : Host ω) (scope : Scope) (vote : Token)
    (cohorts : List CohortId) (hg : e.groups.get? vote.group = some grp) (hk : grp.killed = false)
    (hr : e.regions.get? vote.region = some reg) (hclosed : reg.closed = false) :
    ∃ new, Polled scope vote cohorts new e (askVotes host.logged scope vote e cohorts) := by
  induction cohorts generalizing e grp reg with
  | nil =>
    refine ⟨[], ?_⟩
    constructor
    case log => exact (append_nil _).symm
    case inbox => exact fun _ => .inl
    case next => exact Nat.le_refl _
    case kept => exact id
    case fresh => exact .inl
    case regions => exact fun hr => ⟨_, hr, .refl _⟩
    case transactions => rfl
    case agenda => rfl
    all_goals simp
  | cons c cohorts ih =>
    -- the first cohort is asked, with a token of its own to vote
    obtain ⟨e₁, hs⟩ := spawn_isSome hg hk hr hclosed
    obtain ⟨-, -, -, he₁⟩ := spawn_eq_some hs
    unfold askVotes
    rw [hs]
    dsimp only
    generalize he₂ : (e₁.absorb (host.logged.ready c scope e.tokens.next e₁.world)).2 = e₂
    have htokens : e₂.tokens = e.tokens.insert vote := by rw [← he₂, he₁]; rfl
    have hregions : e₂.regions = e.regions.modify vote.region (Region.seat e.tokens.next) := by
      rw [← he₂, he₁]; rfl
    have hgroups : e₂.groups = e.groups.modify vote.group (Group.enrol e.tokens.next) := by
      rw [← he₂, he₁]; rfl
    generalize hmail : (host.ready c scope e.tokens.next e.world.world).mail = mail
    have hlog : e₂.world.log = e.world.log ++ .asked c scope e.tokens.next :: mail.map .sent := by
      grind [absorb, Host.logged, Effect.logged]
    have hinbox : e₂.inbox = e.inbox ++ mail := by
      rw [← he₂, he₁, ← hmail]
      rfl
    have hg₂ : e₂.groups.get? vote.group =
        some (grp.enrol e.tokens.next) := by grind
    have hr₂ : e₂.regions.get? vote.region =
        some (reg.seat e.tokens.next) := by
      grind
    obtain ⟨new, hrest⟩ := ih hg₂ hk hr₂ hclosed
    refine ⟨.asked c scope e.tokens.next :: mail.map .sent ++ new, ?_⟩
    constructor
    case log => rw [hrest.log, hlog, append_assoc]
    case entry => grind [Polled.entry]
    case all => grind [Polled.kept, Polled.all]
    case count =>
      intro c' x
      have hsent : (mail.map Entry.sent).countP (Entry.asks c' x) = 0 := by
        rw [countP_map]
        exact countP_eq_zero.2 fun _ _ => Bool.false_ne_true
      rw [countP_append, countP_cons, hsent, hrest.count c' x, count_cons]
      grind [Entry.asks]
    case inbox =>
      intro message hm
      rcases hrest.inbox message hm with hm | hm
      · grind
      · exact .inr (mem_append_right _ hm)
    case next =>
      have := hrest.next
      grind
    case kept => grind [Polled.kept]
    case fresh =>
      intro t tok' ht'
      rcases hrest.fresh ht' with ht | ⟨hlt, c', hm⟩
      · grind
      · grind
    case regions =>
      intro r' reg' hr'
      obtain ⟨reg₁, hr₁, halike⟩ := Store.modify_forth (P := Region.Alike) .refl
        (f := Region.seat e.tokens.next)
        (fun _ => ⟨rfl, rfl, .inl rfl⟩) e.regions vote.region hr'
      grind [Polled.regions, Region.Alike.trans]
    case transactions =>
      rw [hrest.transactions, ← he₂, he₁]
      rfl
    case agenda =>
      rw [hrest.agenda, ← he₂, he₁]
      rfl

namespace Ledger

/-- The cohorts of a transaction are asked for their votes. -/
theorem ask (h : Ledger past (e.plan [.prepare x])) (hcore : Core m (e.plan [.prepare x]) none)
    (hs : Sections m (e.plan [.prepare x]) (some (.prepare x)))
    (hnone : e.Unserved x) (hx : e.transactions.get? x = some txn)
    (hstate : txn.state = .running) (hp : e.regions.get? txn.continuation.region = some preg)
    {new : List Entry}
    (hpolled : Polled txn.scope (txn.vote x e.regions.next) txn.cohorts new (e.openVotes x txn) e')
    : Ledger past (e'.plan [.settle e.regions.next]) := by
  have hid : txn.scope.id = x := hcore.scope_id hx
  have htxn : ∀ {y txn'}, e'.transactions.get? y = some txn' →
      (y = x ∧ txn' = { txn with state := .readying }) ∨
        (y ≠ x ∧ e.transactions.get? y = some txn') := by
    intro y txn' hy
    rw [hpolled.transactions] at hy
    exact Store.of_get?_modify hx hy
  have hnext : e'.transactions.next = e.transactions.next := by
    rw [hpolled.transactions]
    exact Store.next_modify ..
  have hw : (e.plan [.prepare x]).Notes new (e'.plan [.settle e.regions.next]) := by
    refine ⟨hpolled.log, Nat.le_of_eq (congrArg Key.index hnext.symm), fun {y txn'} hy _ => ?_⟩
    rcases htxn hy with ⟨rfl, rfl⟩ | ⟨-, hy⟩
    · exact ⟨txn, hx, rfl, nofun, by simp [hstate]⟩
    · exact ⟨txn', hy, .refl _⟩
  have henlisted : ∀ {c y}, Enlisted e'.world.log c y ↔ Enlisted e.world.log c y :=
    hw.enlisted_iff fun _ _ hm => by simpa using hpolled.entry _ hm
  have hcount : ∀ {p : Entry → Bool}, (∀ c s t, p (.asked c s t) = false) →
      (∀ message, p (.sent message) = false) → e'.world.log.countP p = e.world.log.countP p := by
    refine fun hasked hsent => hw.countP_eq fun a ha => ?_
    obtain ⟨c, t, rfl⟩ | ⟨message, rfl⟩ := hpolled.entry a ha
    · exact hasked c _ t
    · exact hsent message
  -- the regions of other votes are still there
  have hregions : ∀ {r reg y}, e.regions.get? r = some reg → reg.kind = .votes y →
      ∃ reg', e'.regions.get? r = some reg' ∧ reg'.kind = .votes y := by
    intro r reg y hr hkind
    obtain ⟨reg₁, hr₁, hkind₁⟩ : ∃ reg₁, (e.openVotes x txn).regions.get? r = some reg₁ ∧
        reg₁.kind = .votes y := by grind [Engine.openVotes]
    obtain ⟨reg', hr', halike⟩ := hpolled.regions hr₁
    exact ⟨reg', hr', halike.votes_iff.2 hkind₁⟩
  have hagenda : (e'.plan [.settle e.regions.next]).agenda =
      .settle e.regions.next :: e.agenda := by
    rw [Engine.plan, hpolled.agenda]
    rfl
  constructor
  case enlisted =>
    intro y txn' hy c
    rw [Engine.plan, henlisted]
    rcases htxn hy with ⟨rfl, rfl⟩ | ⟨-, hy⟩
    · exact h.enlisted hx c
    · exact h.enlisted hy c
  case cohorts_nodup =>
    intro y txn' hy
    rcases htxn hy with ⟨rfl, rfl⟩ | ⟨-, hy⟩
    · show txn.cohorts.Nodup
      exact h.cohorts_nodup hx
    · exact h.cohorts_nodup hy
  case lineage => exact h.lineage_of hw fun hm => by simpa using hpolled.entry _ hm
  case asked =>
    refine h.asked_of hw fun {c s vote} hm => ?_
    obtain ⟨rfl, -⟩ : s = txn.scope ∧ True := by simpa using hpolled.entry _ hm
    rw [hid]
    refine ⟨hnext ▸ Store.lt_next hx, fun txn' hy => ?_⟩
    rcases htxn hy with ⟨-, rfl⟩ | ⟨hne, -⟩
    · simp
    · exact absurd rfl hne
  case asked_once =>
    intro c y
    show e'.world.log.countP _ ≤ 1
    rw [hpolled.log, countP_append, hpolled.count c y, hid]
    by_cases hy : x = y
    · -- nobody was asked while the body was running
      subst hy
      have hnobody : e.world.log.countP (Entry.asks c x) = 0 := h.unasked hx hstate c
      have := nodup_iff_count_le_one.1 (h.cohorts_nodup hx) c
      rw [if_pos rfl]
      show e.world.log.countP _ + _ ≤ 1
      omega
    · rw [if_neg hy]
      exact h.asked_once c y
  case polling =>
    intro y txn' c hy hs' hc
    rcases htxn hy with ⟨rfl, rfl⟩ | ⟨hne, hy⟩
    · -- the votes that are opened now
      obtain ⟨t, hm, ht⟩ := hpolled.all c hc
      refine ⟨t, ⟨txn.scope, hid, hpolled.log ▸ mem_append_right _ hm⟩, .inr ?_⟩
      obtain ⟨reg, hr, halike⟩ := hpolled.regions (r := e.regions.next)
        (Store.get?_next_insert_modify hp ..)
      exact ⟨_, reg, ht, hr, halike.votes_iff.2 rfl⟩
    · refine h.polling_of hw hy hs' hc fun ht hr hkind => .inr ?_
      obtain ⟨reg', hr', hkind'⟩ := hregions hr hkind
      exact ⟨_, reg', hpolled.kept ht, hr', hkind'⟩
  case voter =>
    intro t tok' ht' hphase
    rcases hpolled.fresh ht' with ht | ⟨-, c, hm⟩
    · obtain ⟨c, s, hm⟩ := h.voter ht hphase
      exact ⟨c, s, hw.mem hm⟩
    · exact ⟨c, txn.scope, hpolled.log ▸ mem_append_right _ hm⟩
  case dismissed =>
    intro t hm
    rw [hagenda, mem_cons] at hm
    obtain ⟨hlt, hdis⟩ := h.dismissed (mem_cons_of_mem _ (hm.resolve_left (by simp)))
    refine ⟨Nat.lt_of_lt_of_le hlt hpolled.next, fun tok' y txn' ht' hphase hy hyn hs' => .inl ?_⟩
    have ht : e.tokens.get? t = some tok' := by
      refine (hpolled.fresh ht').resolve_right ?_
      rintro ⟨hle, -⟩
      exact absurd hlt (Nat.not_lt.2 hle)
    rcases htxn hyn with ⟨rfl, -⟩ | ⟨-, hyn⟩
    · -- no vote on this transaction stood before
      obtain ⟨reg, y', hr, hkind⟩ := hs.voting ht hphase
      cases hy.symm.trans (hcore.voter_txn ht hr hkind)
      exact absurd (.inr hkind) (hnone hr)
    · exact hw.mem ((hdis tok' y txn' ht hphase hy hyn hs').resolve_right (by simp [Engine.plan]))
  case inbox =>
    intro message hm
    rcases hpolled.inbox message hm with hm | hm
    · exact hw.mem (h.inbox message hm)
    · exact hpolled.log ▸ mem_append_right _ hm
  case committed => exact fun he₁ hc => h.committed_of hw he₁ hc henlisted.1
  case aborted =>
    refine fun he₁ ha => h.aborted_of hw he₁ ha henlisted.1 fun hm => .inr ?_
    rw [hagenda]
    exact hm
  case decided_once => exact h.decided_once
  case confirmed =>
    exact fun hm => h.confirmed ((hw.mem_or hm).resolve_right fun hm => by
      simpa using hpolled.entry _ hm)
  case rolledBack =>
    intro c s hm
    rw [hagenda] at hm
    refine h.rolledBack (hm.imp_left fun hm => (hw.mem_or hm).resolve_right fun hm => ?_)
    simpa using hpolled.entry _ hm
  case confirmed_once =>
    intro c y
    show e'.world.log.countP _ ≤ 1
    rw [hcount (fun _ _ _ => rfl) fun _ => rfl]
    exact h.confirmed_once c y
  case rolledBack_once =>
    intro c y
    show e'.world.log.countP _ + _ ≤ 1
    rw [hcount (fun _ _ _ => rfl) fun _ => rfl, hagenda]
    exact h.rolledBack_once c y
  case unanimous =>
    intro before after c s hsplit c' hc'
    refine h.unanimous_of hw (fun c s hm => ?_) (fun _ _ => henlisted.1) hsplit hc'
    simpa using hpolled.entry _ hm
  case buffered =>
    intro y txn' hy hs'
    rcases htxn hy with ⟨rfl, rfl⟩ | ⟨-, hy⟩
    · show txn.publications = _
      exact h.buffered hx (.inl hstate)
    · exact h.buffered hy hs'
  case complete => exact h.complete
  case buffered_known => exact fun hy => hnext ▸ h.buffered_known hy

theorem ofPrepare (h : Ledger past (e.plan [.prepare x])) (hc : Coherent m (e.plan [.prepare x]))
    (hs : Sections m (e.plan [.prepare x]) (some (.prepare x)))
    (hx : e.transactions.get? x = some txn) (hstate : txn.state = .running)
    (hp : e.regions.get? txn.continuation.region = some preg) :
    Ledger past (e.polled host.logged x txn) := by
  obtain ⟨grp, hg, hk⟩ := (hs.alive hx (.inl hstate)).resolve_right (by simp)
  obtain ⟨new, hpolled⟩ := askVotes_polled (e := e.openVotes x txn) host txn.scope
    (txn.vote x e.regions.next) txn.cohorts hg hk (Store.get?_next_insert_modify hp ..) rfl
  exact h.ask hc.core hs (hc.cleared (.inl mem_cons_self)) hx hstate hp hpolled

/-! ## All chores -/

/-- Every chore leaves the ledger in order. -/
theorem perform (h : Ledger past (e.plan [a])) (hc : Coherent m (e.plan [a]))
    (hs : Sections m (e.plan [a]) (some a)) (he' : e.perform host.logged a = .ok e') :
    Ledger (past ++ [e.plan [a]]) e' := by
  have hquiet : (∀ x, ¬(e.plan [a]).Commits x) → (∀ x, ¬(e.plan [a]).Aborts x) → Ledger past e' →
      Ledger (past ++ [e.plan [a]]) e' := fun hcommit habort h' =>
    h'.remember hcommit habort (buffering_of_chore rfl)
  have hother : (∀ x, a ≠ .verify x ∧ a ≠ .abort x) → Ledger past e' →
      Ledger (past ++ [e.plan [a]]) e' := by
    refine fun hne => hquiet ?_ ?_
    · rintro x ⟨txn, rest, hagenda, -⟩
      exact (hne x).1 (List.cons.inj hagenda).1
    · rintro x ⟨txn, rest, hagenda, -⟩
      exact (hne x).2 (List.cons.inj hagenda).1
  cases performed he' with
  | verify hx hstate => exact h.ofVerify hc hx hstate
  | abort hx hstate => exact h.ofAbort hc.core hx hstate
  | unverified hx =>
    refine hquiet ?_ (fun x => nofun) (h.pop (by simp) (by simp))
    rintro x' ⟨txn, rest, hagenda, hx', -⟩
    cases hagenda
    cases hx.symm.trans hx'
  | verifyLate hx hstate =>
    refine hquiet ?_ (fun x => nofun) (h.replan _ (by simp) (by simp) (by simp))
    rintro x' ⟨txn, rest, hagenda, hx', hs'⟩
    cases hagenda
    cases hx.symm.trans hx'
    exact hstate hs'
  | abortLate hx =>
    refine hquiet (fun x => nofun) ?_ (h.pop (by simp) ?_)
    · rintro x' ⟨txn, rest, hagenda, hx', hs'⟩
      cases hagenda
      have := hx txn hx'
      grind
    · intro x' txn heq hx'
      cases heq
      have := hx txn hx'
      grind
  | killToken ht => exact hother (by simp) (h.killToken hc.core hs ht)
  | quiesce hr => exact hother (by simp) (h.quiesce hc hr)
  | detach => exact hother (by simp) h.detach
  | closed =>
    obtain ⟨rfl, -⟩ := hs.closing mem_cons_self
    exact hother (by simp) (h.pop (by simp) (by simp))
  | close hr =>
    rw [hs.closing_gone hc.core mem_cons_self] at hr
    cases hr
  | killGroup hg => exact hother (by simp) (h.killGroup hc.core hs hg)
  | removeGroup | enqueue =>
    exact hother (by simp) ((h.pop (by simp) (by simp)).congr rfl)
  | wake => exact hother (by simp) ((h.pop (by simp) (by simp)).woken _)
  | prepare hx hstate hp => exact hother (by simp) (h.ofPrepare hc hs hx hstate hp)
  | retire => exact hother (by simp) h.retire
  | release =>
    refine hother (by simp) ?_
    exact (h.pop (by simp) (by simp)).spawnReady (by simp [Continuation.resume])
  | rollback => exact hother (by simp) h.ofRollback
  | @proceed t n =>
    have hsent : Ledger past (e.onToken t fun token => { token with node := n }) :=
      (h.pop (by simp) (by simp)).onToken (fun _ => ⟨rfl, rfl⟩) fun _ => .inl rfl
    exact hother (by simp) (hsent.congr rfl)
  | settle | closeNone | prepareLate =>
    exact hother (by simp) (h.replan _ (by simp) (by simp) (by simp))
  | gone | quiesced | settled | detached | dead | removed | asleep | unprepared | retired =>
    exact hother (by simp) (h.pop (by simp) (by simp))

end Ledger

/-! ## Steps of tokens -/

section Step

variable {held : Option (TxnId × Value)} {mail : List Message} {notices : List Notice}

namespace Footprint

/-- A step writes down who takes part, which calls were taken and what was sent. -/
theorem writes (hf : Footprint host.logged t tok held mail notices e e') :
    ∃ new, e.Notes new e' ∧ (∀ n ∈ notices, .transacted n.1 n.2 ∈ new) ∧
      (∀ message ∈ mail, .sent message ∈ new) ∧
      ∀ a ∈ new, (∃ n ∈ notices, a = .transacted n.1 n.2) ∨ (∃ t, a = .launched t) ∨
        ∃ message, a = .sent message := by
  obtain ⟨calls, hlog⟩ := hf.asks.log_eq
  refine ⟨_, ⟨hlog, hf.next_txn, fun {x txn'} hx' hlt => ?_⟩, ?_, ?_, ?_⟩
  · rcases hf.txn_from hx' with ⟨txn, hx, halike, -⟩ | ⟨rfl, -⟩
    · refine ⟨txn, hx, halike.scope, fun hrun => ?_, fun _ => halike.state⟩
      exact halike.state.symm.trans hrun
    · exact absurd hlt (Nat.lt_irrefl _)
  · grind
  · grind
  · grind

/-- Who takes part in something takes part in transactions that run, with all that is around
    them, -/
theorem notice_running (hf : Footprint host.logged t tok held mail notices e e')
    (hcore : Core m e none) (hs : Sections m e none) (ha : e.agenda = [])
    (ht : e.tokens.get? t = some tok) (hphase : tok.phase ≠ .voting) {n : Notice} (hn : n ∈ notices)
    (hx : x ∈ n.1.lineage) : ∃ txn, e.transactions.get? x = some txn ∧ txn.state = .running ∧
      ∀ y ∈ txn.scope.lineage, y ∈ n.1.lineage := by
  rw [hcore.scopeOf_lineage (hf.asks.scope_eq hn)] at hx ⊢
  obtain ⟨⟨txn, htxn, hrun⟩, hsub⟩ := hs.running hcore ha ht hphase x hx
  refine ⟨txn, htxn, hrun, fun y hy => hsub y ?_⟩
  rw [(hcore.aligned.scope htxn).1] at hy
  exact hy

/-- and what is held back is held for one that runs. -/
theorem held_running (hf : Footprint host.logged t tok held mail notices e e')
    (hcore : Core m e none) (hs : Sections m e none) (ha : e.agenda = [])
    (ht : e.tokens.get? t = some tok) (hphase : tok.phase ≠ .voting) (hx : heldFor x held ≠ []) :
    ∃ txn, e.transactions.get? x = some txn ∧ txn.state = .running := by
  obtain ⟨v, rfl⟩ : ∃ v, held = some (x, v) := by
    cases held with
    | none => exact absurd rfl hx
    | some p => grind [heldFor]
  have hx := hf.held_txn rfl
  obtain ⟨reg, hr, -⟩ := hcore.census.region_of ht
  obtain ⟨txn, htxn⟩ := hcore.txn_of_region hr ((hcore.aligned.token ht).2.trans hx)
  refine (hs.running hcore ha ht hphase x ?_).1
  rw [hx]
  show x ∈ m.lineage x
  rw [(hcore.aligned.scope htxn).2.1]
  exact mem_cons_self

end Footprint

/-- A step of a token that does not stand for a vote leaves the ledger in order.  `e₀` is the state
    before the step was chosen. -/
theorem Ledger.step {e₀ : Engine (Logged ω)} (h : Ledger past e) (hcore : Core m e none)
    (hs : Sections m e none) (ha : e.agenda = []) (ha₀ : e₀.agenda = [])
    (hbuffering : e₀.buffering = held) (ht : e.tokens.get? t = some tok)
    (hphase : tok.phase ≠ .voting) (hf : Footprint host.logged t tok held mail notices e e') :
    Ledger (past ++ [e₀]) e' := by
  obtain ⟨new, hw, hnotices, hmail, hnew⟩ := hf.writes
  have hrunning : ∀ {n : Notice} {x}, n ∈ notices → x ∈ n.1.lineage → ∃ txn,
      e.transactions.get? x = some txn ∧ txn.state = .running ∧
        ∀ y ∈ txn.scope.lineage, y ∈ n.1.lineage := hf.notice_running hcore hs ha ht hphase
  have hheld : ∀ {x}, heldFor x held ≠ [] →
      ∃ txn, e.transactions.get? x = some txn ∧ txn.state = .running :=
    hf.held_running hcore hs ha ht hphase
  have htransacted : ∀ {s cohorts}, .transacted s cohorts ∈ new → (s, cohorts) ∈ notices := by
    intro s cohorts hm
    simpa using hnew _ hm
  have henlisted : ∀ {c x}, Enlisted e'.world.log c x ↔
      Enlisted e.world.log c x ∨ ∃ n ∈ notices, x ∈ n.1.lineage ∧ c ∈ n.2 := by
    intro c x
    constructor
    · rintro ⟨s, cohorts, hm, hx, hc⟩
      rcases hw.mem_or hm with hm | hm
      · exact .inl ⟨s, cohorts, hm, hx, hc⟩
      · exact .inr ⟨_, htransacted hm, hx, hc⟩
    · rintro (⟨s, cohorts, hm, hx, hc⟩ | ⟨n, hn, hx, hc⟩)
      · exact ⟨s, cohorts, hw.mem hm, hx, hc⟩
      · exact ⟨n.1, n.2, hw.log ▸ mem_append_right _ (hnotices n hn), hx, hc⟩
  -- nobody joins a transaction that is decided
  have hjoined : ∀ {e₁ x c}, e₁ ∈ past → e₁.Commits x ∨ e₁.Aborts x →
      Enlisted e'.world.log c x → Enlisted e.world.log c x := by
    intro e₁ x c he₁ hd hc
    refine (henlisted.1 hc).resolve_right ?_
    rintro ⟨n, hn, hx, -⟩
    obtain ⟨txn, htxn, hrun, -⟩ := hrunning hn hx
    exact h.undecided htxn (.inl hrun) he₁ hd
  have hcount : ∀ {p : Entry → Bool}, (∀ s cohorts, p (.transacted s cohorts) = false) →
      (∀ t, p (.launched t) = false) → (∀ message, p (.sent message) = false) →
      e'.world.log.countP p = e.world.log.countP p := by
    refine fun htransacted hlaunched hsent => hw.countP_eq fun a ha => ?_
    obtain ⟨n, -, rfl⟩ | ⟨t, rfl⟩ | ⟨message, rfl⟩ := hnew a ha
    · exact htransacted _ _
    · exact hlaunched t
    · exact hsent message
  -- a step plans no rollback and decides nothing
  have hrollbacks : rollbacks e'.agenda = rollbacks e.agenda := by
    have hnone : rollbacks e'.agenda = [] := by
      rw [eq_nil_iff_forall_not_mem]
      rintro ⟨c, s⟩ hm
      have hfollows := hf.follows _ (mem_rollbacks.1 hm)
      exact hfollows
    rw [hnone, ha]
    rfl
  have hstill : ∀ {x}, ¬(e₀.Commits x ∨ e₀.Aborts x) := by
    rintro x (⟨_, _, hagenda, -⟩ | ⟨_, _, hagenda, -⟩) <;> rw [ha₀] at hagenda <;> cases hagenda
  have hpast : ∀ {e₁ x}, e₁ ∈ past ++ [e₀] → e₁.Commits x ∨ e₁.Aborts x → e₁ ∈ past := by
    intro e₁ x he₁ hd
    refine (mem_append.1 he₁).resolve_right fun he₁ => ?_
    cases mem_singleton.1 he₁
    exact hstill hd
  have hbuffered : ∀ x, bufferedFor x (past ++ [e₀]) = bufferedFor x past ++ heldFor x held := by
    intro x
    simp [bufferedFor, hbuffering]
  constructor
  case enlisted =>
    intro x txn' hx' c
    rw [henlisted]
    rcases hf.txn_from hx' with ⟨txn, hx, -, -, -, hcohorts⟩ | ⟨rfl, -, hcohorts, -⟩
    · rw [hcohorts c, h.enlisted hx c]
    · -- nobody can have joined before it was there
      rw [hcohorts]
      refine iff_of_false (by simp) ?_
      rintro (⟨s, cohorts, hm, hx, -⟩ | ⟨n, hn, hx, -⟩)
      · exact Nat.lt_irrefl _ (h.lineage hm hx).1
      · obtain ⟨txn, htxn, -⟩ := hrunning hn hx
        exact Nat.lt_irrefl _ (Store.lt_next htxn)
  case cohorts_nodup =>
    intro x txn' hx'
    rcases hf.txn_from hx' with ⟨txn, hx, -, -, hnodup, -⟩ | ⟨-, -, hcohorts, -⟩
    · exact hnodup (h.cohorts_nodup hx)
    · rw [hcohorts]
      exact nodup_nil
  case lineage =>
    refine h.lineage_of hw fun hm hx => ?_
    obtain ⟨txn, htxn, -, hsub⟩ := hrunning (htransacted hm) hx
    refine ⟨Store.lt_next htxn, fun txn' htxn' => ?_⟩
    cases htxn.symm.trans htxn'
    exact hsub
  case asked => exact h.asked_of hw fun hm => by simpa using hnew _ hm
  case asked_once =>
    intro c x
    rw [hcount (fun _ _ => rfl) (fun _ => rfl) fun _ => rfl]
    exact h.asked_once c x
  case polling =>
    intro x txn' c hx' hs' hc
    rcases hf.txn_from hx' with ⟨txn, hx, halike, -, -, hcohorts⟩ | ⟨-, hrun, -⟩
    · have hstate : txn.state = .readying := halike.state.symm.trans hs'
      -- cohorts join only while it runs
      have hc : c ∈ txn.cohorts := by
        refine ((hcohorts c).1 hc).resolve_right ?_
        rintro ⟨n, hn, hxn, -⟩
        obtain ⟨txn₁, htxn₁, hrun, -⟩ := hrunning hn hxn
        cases hx.symm.trans htxn₁
        rw [hstate] at hrun
        cases hrun
      refine h.polling_of hw hx hstate hc fun {v tok₁ reg} hv hr hkind => .inr ?_
      -- the vote is not the token that takes the step
      have hne : v ≠ t := by
        rintro rfl
        cases ht.symm.trans hv
        exact hphase (hs.polled ht hr hkind)
      obtain ⟨reg', hr', halike'⟩ := hf.region_kept hr
      exact ⟨tok₁, reg', (hf.others hne (Store.lt_next hv)).trans hv, hr', halike'.votes_iff.2 hkind⟩
    · rw [hs'] at hrun
      cases hrun
  case voter =>
    intro v tok' hv hp'
    have hne : v ≠ t := fun heq => (hf.mine hv (.inl heq)).1 hp'
    have hlt : v.index < e.tokens.next.index :=
      Nat.lt_of_not_le fun hle => (hf.mine hv (.inr hle)).1 hp'
    obtain ⟨c, s, hm⟩ := h.voter ((hf.others hne hlt).symm.trans hv) hp'
    exact ⟨c, s, hw.mem hm⟩
  case dismissed =>
    intro v hm
    have hv : v = t := hf.follows _ hm
    subst hv
    refine ⟨Nat.lt_of_lt_of_le (Store.lt_next ht) hf.next_token, fun tok' x txn' ht' hp' => ?_⟩
    exact absurd hp' (hf.mine ht' (.inl rfl)).1
  case inbox =>
    intro message hm
    rw [hf.inbox] at hm
    rcases mem_append.1 hm with hm | hm
    · exact hw.mem (h.inbox message hm)
    · exact hw.log ▸ mem_append_right _ (hmail message hm)
  case committed =>
    intro e₁ x he₁ hc
    have he₁ := hpast he₁ (.inl hc)
    exact h.committed_of hw he₁ hc (hjoined he₁ (.inl hc))
  case aborted =>
    intro e₁ x he₁ hx
    have he₁ := hpast he₁ (.inr hx)
    exact h.aborted_of hw he₁ hx (hjoined he₁ (.inr hx)) fun hm => .inr (hrollbacks ▸ hm)
  case decided_once =>
    refine pairwise_append.2 ⟨h.decided_once, pairwise_singleton .., ?_⟩
    intro e₁ he₁ e₂ he₂ x hx hx'
    cases mem_singleton.1 he₂
    exact hstill hx'
  case confirmed =>
    intro c s hm
    have hm := (hw.mem_or hm).resolve_right fun hm => by simpa using hnew _ hm
    obtain ⟨e₁, he₁, hc⟩ := h.confirmed hm
    exact ⟨e₁, mem_append_left _ he₁, hc⟩
  case rolledBack =>
    intro c s hm
    rw [hrollbacks] at hm
    have hm := hm.imp_left fun hm => (hw.mem_or hm).resolve_right fun hm => by simpa using hnew _ hm
    obtain ⟨e₁, he₁, hc⟩ := h.rolledBack hm
    exact ⟨e₁, mem_append_left _ he₁, hc⟩
  case confirmed_once =>
    intro c x
    rw [hcount (fun _ _ => rfl) (fun _ => rfl) fun _ => rfl]
    exact h.confirmed_once c x
  case rolledBack_once =>
    intro c x
    rw [hcount (fun _ _ => rfl) (fun _ => rfl) fun _ => rfl, hrollbacks]
    exact h.rolledBack_once c x
  case unanimous =>
    intro before after c s hsplit c' hc'
    refine h.unanimous_of hw (fun c s hm => ?_) (fun he₁ hc => hjoined he₁ (.inl hc)) hsplit hc'
    simpa using hnew _ hm
  case buffered =>
    intro x txn' hx' hs'
    rw [hbuffered]
    rcases hf.txn_from hx' with ⟨txn, hx, halike, hpubs, -⟩ | ⟨rfl, -, -, hpubs, -⟩
    · have hstate : txn.state = .running ∨ heldFor x held = [] := by
        by_cases hnone : heldFor x held = []
        · exact .inr hnone
        · obtain ⟨txn₁, htxn₁, hrun⟩ := hheld hnone
          cases hx.symm.trans htxn₁
          exact .inl hrun
      rw [hpubs hstate, h.buffered hx (halike.state ▸ hs')]
    · -- nothing was held for a transaction that was not there
      have hpastNone : bufferedFor e.transactions.next past = [] := by
        refine Decidable.byContradiction fun hne => ?_
        exact Nat.lt_irrefl _ (h.buffered_known hne)
      have hheldNone : heldFor e.transactions.next held = [] := by
        refine Decidable.byContradiction fun hne => ?_
        obtain ⟨txn, htxn, -⟩ := hheld hne
        exact Nat.lt_irrefl _ (Store.lt_next htxn)
      rw [hpubs, hpastNone, hheldNone]
      rfl
  case complete =>
    intro e₁ x txn he₁ hc hx
    have he₁ := hpast he₁ (.inl hc)
    -- nothing is held back for a decided transaction
    have hnone : heldFor x held = [] := by
      refine Decidable.byContradiction fun hne => ?_
      obtain ⟨txn, htxn, hrun⟩ := hheld hne
      exact h.undecided htxn (.inl hrun) he₁ (.inl hc)
    rw [hbuffered, hnone, append_nil]
    exact h.complete he₁ hc hx
  case buffered_known =>
    intro x hx
    refine Nat.lt_of_lt_of_le ?_ hf.next_txn
    rw [hbuffered] at hx
    by_cases hnone : heldFor x held = []
    · rw [hnone, append_nil] at hx
      exact h.buffered_known hx
    · obtain ⟨txn, htxn, -⟩ := hheld hnone
      exact Store.lt_next htxn

end Step

namespace Ledger

/-! ## Messages and clocks -/

/-- The engine takes a message that was sent. -/
theorem receive (h : Ledger past e) (ha : e.agenda = []) (message : Message)
    (hsent : .sent message ∈ e.world.log)
    (hvote : ∀ t reply tok, message = .returned t reply → e.tokens.get? t = some tok →
      tok.phase = .voting → reply = .halt) : Ledger past (e.receive host.logged message) := by
  -- ending a token is the only thing to look at
  have hplan : ∀ {t tok} {new : List Chore}, e.tokens.get? t = some tok →
      (∀ tok x, e.tokens.get? t = some tok → tok.phase = .voting → tok.txn = some x →
        Answered e.world.log t ∨ new.head? = some (.abort x)) →
      (∀ b ∈ new, b = .killToken t ∨ ∃ x, b = .abort x) → Ledger past (e.plan new) := by
    intro t tok new htok hvote hnew
    refine h.frame [] [] (by simp [Engine.plan]) (fun _ => .inl) id rfl (Nat.le_refl _)
      (.same rfl rfl) ?_ ?_ ?_
    · intro t' (hm : .killToken t' ∈ new ++ e.agenda)
      rw [ha, append_nil] at hm
      have heq : t' = t := by simpa using hnew _ hm
      subst heq
      refine .inr ⟨Store.lt_next htok, ?_⟩
      grind [Engine.plan]
    · simp [ha]
    · have hnone : rollbacks new = [] := by
        rw [eq_nil_iff_forall_not_mem]
        grind [mem_rollbacks]
      grind [rollbacks_append, Engine.plan]
  have hreceived := e.received host.logged message
  generalize e.receive host.logged message = e' at hreceived ⊢
  cases hreceived with
  | terminate => exact h.congr rfl
  | late | vetoedLate => exact h
  | @publish t tok v =>
    have hset : Ledger past (e.onToken t fun token =>
        { token with result := v, phase := .runnable }) :=
      h.onToken (fun _ => ⟨rfl, rfl⟩) fun _ => .inr (by simp)
    exact hset.congr rfl
  | halt ht => exact hplan ht (fun _ _ _ _ _ => .inl hsent) (by simp)
  | @fail t tok error ht =>
    have hended : Ledger past (e.plan [.killToken t]) := by grind
    exact hended.congr rfl
  | vetoed ht => grind [Option.map_eq_some_iff]

theorem idle (h : Ledger past e) : Ledger past (e.idle host.logged).state := by
  refine idle_induct (P := Ledger past) ?_ (fun t h => h.woken t) ?_ h
  · exact fun _ _ h => h.congr rfl
  · rintro e effect (heffect | rfl) h
    · obtain ⟨effect', -, rfl⟩ := Option.map_eq_some_iff.1 heffect
      exact h.arrive effect'.mail rfl rfl rfl rfl rfl rfl
    · exact h.arrive (host.yield e.world.world).mail rfl rfl rfl rfl rfl rfl

/-! ## The start of a run -/

theorem start (program : Program) (limit : Option Nat) (w : ω) :
    Ledger [] (Engine.new program limit ⟨w, []⟩).start := by
  have hbare : Ledger [] (Engine.bare program limit (⟨w, []⟩ : Logged ω)) := by
    have hagenda : (Engine.bare program limit (⟨w, []⟩ : Logged ω)).agenda = [] := rfl
    have hinbox : (Engine.bare program limit (⟨w, []⟩ : Logged ω)).inbox = [] := rfl
    have hlog : (Engine.bare program limit (⟨w, []⟩ : Logged ω)).world.log = [] := rfl
    constructor
    case enlisted => exact fun hx => (bare_txn hx).elim
    case cohorts_nodup => exact fun hx => (bare_txn hx).elim
    case polling => exact fun hx => (bare_txn hx).elim
    case buffered => exact fun hx => (bare_txn hx).elim
    case voter => exact fun ht => (bare_token ht).elim
    case decided_once => exact List.Pairwise.nil
    case unanimous => simp_all
    case buffered_known => exact fun hne => absurd rfl hne
    all_goals simp [hlog, hagenda, hinbox, rollbacks]
  grind [start_eq, spawnReady, Program.firstToken]

end Ledger
end Orchestra
