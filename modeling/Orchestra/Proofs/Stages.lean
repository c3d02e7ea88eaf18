/-
  Stages: sections stay in order whatever a turn does.

  Every chore and every step of a token keeps the invariant `Sections`.  The chores that take a
  transaction from one stage to the next are the ones to look at: `openVotes` when its body is
  done, `ofVerify` when its votes are in, `abort` and `retire` at its end.  The rest follows
  from the footprint of a step and from changes that no section notices.
-/
import Orchestra.Proofs.Sections

namespace Orchestra

open Engine List

variable {ω : Type} {m m' : Charter} {e e' : Engine ω} {host : Host ω} {top top' : Option Chore}
  {grp : Group} {g : GroupId} {new : List Chore} {reg : Region} {r : RegionId} {t : TokenId}
  {txn : Transaction} {x : TxnId}

namespace Sections

/-! ## Chores on tokens and regions -/

theorem killToken (h : Sections m e none) (t : TokenId) (tok : Token)
    (hnew : ∀ a ∈ new, a.plain = true) :
    Sections m ({ e with
      tokens := e.tokens.remove t
      groups := e.groups.modify tok.group (Group.dismiss t)
      regions := e.regions.modify tok.region (Region.unseat t) }.plan new) none := by
  refine h.frame ?_ ?_ ?_ ?_ ?_ ?_ ?_ rfl rfl rfl rfl hnew
  · grind [Engine.plan]
  · exact Store.next_remove ..
  · exact Store.modify_forth .refl (fun _ => ⟨rfl, rfl, .inl rfl⟩) e.regions tok.region
  · exact Store.modify_back .refl fun _ => ⟨rfl, rfl, .inl rfl⟩
  · exact Store.next_modify ..
  · exact fun hg _ => Store.modify_forth .refl (fun _ => ⟨rfl, rfl⟩) e.groups tok.group hg
  · exact Store.modify_back .refl fun _ => ⟨rfl, rfl⟩

theorem detach (h : Sections m e none) (p c : RegionId) (hnew : ∀ a ∈ new, a.plain = true) :
    Sections m ({ e with
      regions := e.regions.modify p (Region.disown c) }.plan new) none := by
  refine h.frame ?_ rfl ?_ ?_ ?_ ?_ ?_ rfl rfl rfl rfl hnew
  · exact fun ht => ⟨_, ht, rfl, .inl rfl⟩
  · exact Store.modify_forth .refl (fun _ => ⟨rfl, rfl, .inl rfl⟩) e.regions p
  · exact Store.modify_back .refl fun _ => ⟨rfl, rfl, .inl rfl⟩
  · exact Store.next_modify ..
  · exact fun hg _ => ⟨_, hg, .refl _⟩
  · exact fun hg => ⟨_, hg, .refl _⟩

/-- By the time a region is to be closed it is gone. -/
theorem closing_gone {pending : List RegionId} {doomed : List TokenId}
    (h : Sections m (e.plan [.closeRegions pending doomed]) top)
    (hcore : Core m (e.plan [.closeRegions pending doomed]) none) (hr : r ∈ pending) :
    e.regions.get? r = none := by
  have hpopped : Core m e none := hcore.pop (by simp) (by simp) (by simp) (by simp)
  obtain ⟨-, hpending⟩ := h.closing mem_cons_self
  have hwakes : ∀ a ∈ e.agenda, ∃ t, a = .wake t := h.trailing
  have hnone : ∀ a, (∀ t, a ≠ .wake t) → a ∉ e.agenda := fun a ha hm => by grind
  rw [Option.eq_none_iff_forall_ne_some]
  intro reg hreg
  obtain ⟨c, hkind, hbound⟩ := (hpending r hr).2 reg hreg
  obtain ⟨v, hv⟩ := Option.isSome_iff_exists.1 hbound
  obtain ⟨grp, hg, hk⟩ := hpopped.region_alive (fun g => hnone _ (by simp))
    (fun g => hnone _ (by simp)) (fun p c => hnone _ (by simp)) hreg
  rw [(hpopped.aligned.pruning hreg hkind).2.1] at hg
  rcases hpopped.bound hv hg with hkilled | hm
  · rw [hk] at hkilled
    cases hkilled
  · exact hnone _ (by simp) hm

/-- A region goes.  What follows for its cell or its transaction is on top of the agenda. -/
theorem shut (h : Sections m e none) (hal : Aligned m e.tokens e.groups e.regions e.transactions)
    (hr : e.regions.get? r = some reg)
    (htokens : ∀ {t tok}, e.tokens.get? t = some tok → tok.region ≠ r) (new : List Chore)
    (hnew : ∀ a ∈ new, a.plain = true ∨ (∃ x, a = .prepare x ∧ reg.kind = .transaction x) ∨
      (∃ x, a = .verify x ∧ reg.kind = .votes x) ∨ ∃ p, a = .detach p r ∧ reg.parent = some p)
    (hcell : ∀ c p, reg.kind = .pruning c → reg.parent = some p →
      .detach p r ∈ new ∧ Precedes (.killGroup c) (.detach p r) (new ++ e.agenda))
    (hbody : ∀ x, reg.kind = .transaction x → top = some (.prepare x))
    (hvotes : ∀ x, reg.kind = .votes x → top = some (.verify x))
    (hfresh : ∀ p, .detach p r ∉ e.agenda) :
    Sections m ({ e with regions := e.regions.remove r }.plan new) top := by
  have hback : ∀ {r' reg'}, (e.regions.remove r).get? r' = some reg' →
      e.regions.get? r' = some reg' := fun hr' => (Store.of_get?_remove hr').2
  have hforth : ∀ {r' reg'}, r' ≠ r → e.regions.get? r' = some reg' →
      (e.regions.remove r).get? r' = some reg' := by grind
  have hcommon : ∀ {p}, e.Common p →
      Common ({ e with regions := e.regions.remove r }.plan new) p :=
    fun hp reg' x hr' => hp (hback hr')
  -- chores of the other kinds were planned before
  have old : ∀ {a : Chore}, a.plain = false → (∀ x, a ≠ .prepare x) → (∀ x, a ≠ .verify x) →
      (∀ p, a ≠ .detach p r) → a ∈ new ++ e.agenda → a ∈ e.agenda := by grind
  constructor
  case body => grind [body, Engine.plan]
  case votes => grind [votes, Engine.plan]
  case prepare =>
    intro x txn hm hx
    rcases mem_append.1 hm with hm | hm
    · have hkind : reg.kind = .transaction x := by
        have := hnew _ hm
        grind [Chore.plain]
      exact h.body hr hkind hx
    · exact h.prepare hm hx
  case verify =>
    intro x txn hm hx
    rcases mem_append.1 hm with hm | hm
    · have hkind : reg.kind = .votes x := by
        have := hnew _ hm
        grind [Chore.plain]
      exact h.votes hr hkind hx
    · exact h.verify hm hx
  case alive => grind [alive, Engine.plan]
  case dead => grind [dead, Engine.plan]
  case placed => grind [placed, Engine.plan]
  case owned => grind [owned, Engine.plan]
  case cell =>
    intro c grp ws r' hg hk hkind
    rcases h.cell hg hk hkind with ⟨reg', hr'⟩ | ⟨p, hm, habove, hpre⟩
    · by_cases hne : r' = r
      · -- the region that computed the cell
        subst hne
        cases hr.symm.trans hr'
        have hpruning := (hal.cell hg hkind).2.2 reg hr
        obtain ⟨⟨p, hp, -, habove⟩, -⟩ := hal.pruning hr hpruning
        grind [Engine.plan]
      · exact .inl ⟨reg', hforth hne hr'⟩
    · refine .inr ⟨p, mem_append_right new hm, habove, hpre.append fun hm' => ?_⟩
      have heq : r' = r := by
        have := hnew _ hm'
        grind [Chore.plain]
      exact hfresh p (heq ▸ hm)
  case voting => grind [voting, Engine.plan]
  case polled => grind [polled, Engine.plan]
  case parent => grind [parent, Engine.plan]
  case continuation => exact fun hx => hcommon (h.continuation hx)
  case release => exact fun hm => hcommon (h.release (old rfl (by simp) (by simp) (by simp) hm))
  case rooted => exact h.rooted
  case waiter => exact h.waiter
  case timer => exact h.timer
  case wake => exact fun hm => h.wake (old rfl (by simp) (by simp) (by simp) hm)
  case trailing =>
    refine h.trailing.append fun pending doomed hm => ?_
    have := hnew _ hm
    grind [Chore.plain]
  case closing =>
    intro pending doomed hm
    obtain ⟨hdoomed, hpending⟩ := h.closing (old rfl (by simp) (by simp) (by simp) hm)
    grind [Engine.plan]
  grind [opened, Engine.plan]

/-- A section whose region goes is taken to its next stage. -/
theorem quiesce (h : Sections m (e.plan [.quiesce r]) (some (.quiesce r)))
    (hc : Coherent m (e.plan [.quiesce r])) (hr : e.regions.get? r = some reg)
    (he' : e' = e.vacated r reg) : Sections m e' e'.agenda.head? := by
  subst he'
  unfold vacated
  have hpop : Sections m e none := h.pop (by simp) (by simp) (by simp)
  have hcore : Core m (e.plan [.quiesce r]) (some r) := hc.core
  have hal : Aligned m e.tokens e.groups e.regions e.transactions := hcore.aligned
  have hlive : reg.live = 0 := hc.quiet mem_cons_self hr
  have htokens : ∀ {t tok}, e.tokens.get? t = some tok → tok.region ≠ r := by
    rintro t tok ht rfl
    obtain ⟨reg', hr', hmem⟩ := hcore.census.region_of ht
    cases hr.symm.trans hr'
    have := hcore.census.live_pos_of_token hr hmem
    omega
  have hfresh : ∀ p, .detach p r ∉ e.agenda := by
    intro p hm
    have hgone := (hcore.census.gone (mem_detaches.2 (mem_cons_of_mem _ hm))).1
    cases hgone.symm.trans hr
  have hdetach : ∀ a ∈ reg.farewell r,
      ∃ p, a = .detach p r ∧ reg.parent = some p := by grind [Option.map_eq_some_iff]
  -- a region of neither a cell nor a transaction just goes
  have hshut : (∀ c, reg.kind ≠ .pruning c) → (∀ x, reg.kind ≠ .transaction x) →
      (∀ x, reg.kind ≠ .votes x) → Sections m (e.removed r reg) none := by
    intro hpruning htxn hvotes
    exact hpop.shut hal hr htokens _ (fun a ha => .inr (.inr (.inr (hdetach a ha))))
      (fun c _ hc => absurd hc (hpruning c)) (fun x hx => absurd hx (htxn x))
      (fun x hx => absurd hx (hvotes x)) hfresh
  cases hkind : reg.kind with
  | root =>
    refine Sections.weaken ?_ _
    exact (hshut (by simp [hkind]) (by simp [hkind]) (by simp [hkind])).congr rfl rfl
  | pruning c =>
    refine hpop.shut hal hr htokens (.killGroup c :: _) ?_ ?_ (by simp [hkind])
      (by simp [hkind]) hfresh
    · exact forall_mem_cons.2 ⟨.inl rfl, fun a ha => .inr (.inr (.inr (hdetach a ha)))⟩
    · grind [Precedes]
  | otherwise published k =>
    have hshut := hshut (by simp [hkind]) (by simp [hkind]) (by simp [hkind])
    unfold react
    dsimp only
    split
    · exact hshut.weaken _
    · refine (hshut.spawnReady (by simp [Continuation.resume]) ?_).weaken _
      obtain ⟨hp, -⟩ := hal.otherwise hr hkind
      exact fun reg' x hr' => hpop.parent hr hp (Store.of_get?_remove hr').2
  | transaction x =>
    refine hpop.shut hal hr htokens (.prepare x :: _) ?_ (by simp [hkind]) ?_ (by simp [hkind]) hfresh
    · grind
    · intro x' hx'
      cases hkind.symm.trans hx'
      rfl
  | votes x =>
    refine hpop.shut hal hr htokens (.verify x :: _) ?_ (by simp [hkind]) (by simp [hkind]) ?_ hfresh
    · grind
    · intro x' hx'
      cases hkind.symm.trans hx'
      rfl

/-! ## Chores on groups -/

/-- The transaction of a group that is killed is aborted first. -/
theorem killGroup (h : Sections m (e.plan [.killGroup g]) (some (.killGroup g)))
    (hal : Aligned m e.tokens e.groups e.regions e.transactions) (hg : e.groups.get? g = some grp)
    (hplain : ∀ a ∈ new, a.plain = true)
    (htop : ∀ x, grp.kind = .transaction x → new.head? = some (.abort x)) :
    Sections m ((e.onGroup g fun group =>
        { group with killed := true, members := [], kind := e.killedKind g grp.kind }).plan new)
      (new ++ e.agenda).head? := by
  have old : ∀ {a : Chore}, a.plain = false → a ∈ new ++ e.agenda →
      a ∈ (e.plan [.killGroup g]).agenda := by grind [Engine.plan]
  -- the groups that are still alive are the others
  have halive : ∀ {g' grp'}, (e.groups.modify g fun group =>
      { group with killed := true, members := [], kind := e.killedKind g grp.kind }).get? g' =
        some grp' → grp'.killed = false → g' ≠ g ∧ e.groups.get? g' = some grp' := by grind
  refine { h with
    prepare := fun hm => h.prepare (old rfl hm)
    verify := fun hm => h.verify (old rfl hm)
    alive := ?_, dead := ?_
    placed := fun hx => .inl ((h.placed hx).resolve_right (by simp))
    owned := ?_, rooted := ?_, cell := ?_
    release := fun hm => h.release (old rfl hm)
    waiter := ?_
    wake := fun hm => h.wake (old rfl hm)
    trailing := ?_
    closing := fun hm => h.closing (old rfl hm) }
  · intro x txn hx hs
    obtain ⟨grp', hg', hk'⟩ := (h.alive hx hs).resolve_right (by simp)
    by_cases hne : txn.group = g
    · refine .inr ?_
      show (new ++ e.agenda).head? = _
      rw [head?_append, htop x ((hal.transaction hx).2.2.2.2 grp (hne ▸ hg))]
      rfl
    · grind [Engine.plan, onGroup]
  · intro x txn hx hs
    refine .inl fun grp' (hg' : (e.groups.modify g _).get? txn.group = some grp') => ?_
    rcases Store.modified hg' with ⟨-, old, -, rfl⟩ | ⟨hne, hg'⟩
    · rfl
    · refine (h.dead hx hs).resolve_right ?_ grp' hg'
      rintro heq
      cases heq
      exact hne rfl
  · grind [owned, Engine.plan, onGroup]
  · intro g' grp' (hg' : (e.groups.modify g _).get? g' = some grp') hkind
    rcases Store.of_get?_modify hg hg' with ⟨rfl, rfl⟩ | ⟨-, hg'⟩
    · refine h.rooted hg ?_
      unfold killedKind at hkind
      grind
    · exact h.rooted hg' hkind
  · intro c grp' ws r hg' hk' hkind
    obtain ⟨hne, hg'⟩ := halive hg' hk'
    refine (h.cell hg' hk' hkind).imp_right ?_
    rintro ⟨p, hm, habove, hpre⟩
    refine ⟨p, ?_, habove, ?_⟩
    · grind [Engine.plan, onGroup]
    · refine (hpre.pop (by simpa using Ne.symm hne)).append fun hm => ?_
      cases hplain _ hm
  · intro g' grp' ws r t (hg' : (e.groups.modify g _).get? g' = some grp') hkind hm
    rcases Store.of_get?_modify hg hg' with ⟨rfl, rfl⟩ | ⟨-, hg'⟩
    · -- a killed cell has lost its waiters or keeps them
      unfold killedKind at hkind
      split at hkind
      · rename_i ws' r' hkind'
        cases hkind
        split at hm
        · cases hm
        · exact h.waiter hg hkind' hm
      · exact h.waiter hg hkind hm
    · exact h.waiter hg' hkind hm
  · refine Trailing.append h.trailing.tail fun pending doomed hm => ?_
    cases hplain _ hm

theorem removeGroup (h : Sections m e none) (hcore : Core m (e.plan [.removeGroup g]) none)
    (hg : e.groups.get? g = some grp) :
    Sections m { e with groups := grp.forgotten g e.groups } none := by
  have hget := Group.get?_forgotten g e.groups (hcore.kinship.children_nodup hg)
    (hcore.kinship.acyclic hg)
  have hkilled : grp.killed = true := hcore.kinship.marked mem_cons_self hg
  refine h.frame ?_ rfl ?_ ?_ rfl ?_ ?_ rfl rfl rfl (nil_append _).symm (by simp)
  · exact fun ht => ⟨_, ht, rfl, .inl rfl⟩
  · exact fun hr => ⟨_, hr, .refl _⟩
  · exact fun hr => ⟨_, hr, .refl _⟩
  · intro g' grp' hg' hk'
    have hne : g' ≠ g := by grind
    show ∃ grp'', (grp.forgotten g e.groups).get? g' = some grp'' ∧ _
    rw [hget, if_neg hne, hg']
    split
    · exact ⟨_, rfl, rfl, rfl⟩
    · split
      · exact ⟨_, rfl, rfl, rfl⟩
      · exact ⟨_, rfl, .refl _⟩
  · intro g' grp' hg'
    obtain ⟨-, old, hold, hkin⟩ := Group.forgotten_from hg'
    exact ⟨old, hold, hkin.killed, hkin.kind⟩

/-- A token changes, but not whether it stands for a vote. -/
theorem onToken (h : Sections m e top) (t : TokenId) {f : Token → Token}
    (hr : ∀ tok, (f tok).region = tok.region)
    (hp : ∀ tok, e.tokens.get? t = some tok →
      (f tok).phase = tok.phase ∨ ((f tok).phase ≠ .voting ∧ tok.phase ≠ .voting)) :
    Sections m (e.onToken t f) top := by
  refine h.frame ?_ ?_ ?_ ?_ rfl ?_ ?_ rfl rfl rfl (nil_append _).symm (by simp)
  · intro t' tok' (ht' : (e.tokens.modify t f).get? t' = some tok')
    rcases Store.modified ht' with ⟨rfl, tok, htok, rfl⟩ | ⟨-, ht'⟩
    · exact ⟨tok, htok, hr tok, hp tok htok⟩
    · exact ⟨tok', ht', rfl, .inl rfl⟩
  · exact Store.next_modify ..
  · exact fun hr => ⟨_, hr, .refl _⟩
  · exact fun hr => ⟨_, hr, .refl _⟩
  · exact fun hg _ => ⟨_, hg, .refl _⟩
  · exact fun hg => ⟨_, hg, .refl _⟩

theorem wakeOne (h : Sections m e top) (ht : e.Voteless t) : Sections m (e.wake t) top := by
  unfold Engine.wake
  split
  · have hwoken : Sections m (e.onToken t Token.woken) top :=
      h.onToken t (fun _ => rfl) fun tok htok => .inr ⟨by simp, ht.2 htok⟩
    exact hwoken.congr rfl rfl
  · exact h

/-! ## Chores on transactions -/

/-- The records of transactions change in place.  One may go on to its next stage or be decided,
    if that fits with the rest of the state. -/
theorem onTransactions (h : Sections m e top) (transactions : Store .transaction Transaction)
    (htop : ∀ a, top = some a → top' = top ∨ ∃ x, a = .abort x)
    (hkept : ∀ {x txn}, e.transactions.get? x = some txn → ∃ txn', transactions.get? x = some txn')
    (hfrom : ∀ {x txn'}, transactions.get? x = some txn' → ∃ txn, e.transactions.get? x = some txn ∧
      txn'.group = txn.group ∧ txn'.continuation = txn.continuation ∧
      ((txn'.state = txn.state ∧ (top = some (.abort x) → top' = top)) ∨
        (txn'.state = .aborted ∧ top' = some (.killGroup txn.group)) ∨
        ((txn'.state = .done ∨ txn'.state = .readying ∧ e.Alive txn.group) ∧ e.Unserved x ∧
          .prepare x ∉ e.agenda ∧ .verify x ∉ e.agenda))) :
    Sections m { e with transactions } top' := by
  refine { h with
    body := ?_, votes := ?_, prepare := ?_, verify := ?_, alive := ?_, dead := ?_, placed := ?_,
    owned := ?_, continuation := ?_ }
  · grind [body]
  · grind [votes]
  · grind [prepare]
  · grind [verify]
  · grind [alive]
  · grind [dead]
  · grind [placed]
  · grind [owned]
  · intro x txn' hx'
    obtain ⟨txn, hx, -, hcont, -⟩ := hfrom hx'
    rw [hcont]
    exact h.continuation hx

/-- A transaction gets a region for its votes. -/
theorem openVotes (h : Sections m (e.plan [.prepare x]) (some (.prepare x)))
    (hc : Coherent m (e.plan [.prepare x])) (hx : e.transactions.get? x = some txn)
    (hstate : txn.state = .running) {preg : Region}
    (hp : e.regions.get? txn.continuation.region = some preg) :
    Sections m (e.openVotes x txn) none := by
  have hcore := (hc.rest rfl).1
  have hnone : e.Unserved x := hc.cleared (.inl mem_cons_self)
  have hurgent : ∀ {a : Chore}, a.urgent = true → a ∉ e.agenda := by
    intro a ha hm
    rw [hc.urgent a hm] at ha
    cases ha
  -- its state changes first
  have hready : Sections m (e.onTransaction x fun txn => { txn with state := .readying })
      (some (.prepare x)) := by
    refine (h.drop (by simp)).onTransactions _ (fun a _ => .inl rfl) ?_ fun hx' => ?_
    · grind
    · rcases Store.of_get?_modify hx hx' with ⟨rfl, rfl⟩ | ⟨-, hx'⟩
      · exact ⟨txn, hx, rfl, rfl, .inr (.inr ⟨.inr ⟨rfl, (h.alive hx (.inl hstate)).resolve_right
          (by simp)⟩, hnone, hurgent rfl, hurgent rfl⟩)⟩
      · grind
  -- the region of the votes is founded; all others are as they were
  have hnew : (e.openVotes x txn).regions.get? e.regions.next =
      some { parent := some txn.continuation.region, kind := .votes x } :=
    Store.get?_next_insert_modify hp ..
  have hkept : ∀ {r reg}, e.regions.get? r = some reg →
      ∃ reg', (e.openVotes x txn).regions.get? r = some reg' ∧ reg.Alike reg' := by
    intro r reg hr
    grind [Engine.openVotes, Region.Alike]
  have hfrom : ∀ {r reg'}, (e.openVotes x txn).regions.get? r = some reg' →
      (r = e.regions.next ∧ reg' = { parent := some txn.continuation.region, kind := .votes x }) ∨
        ∃ reg, e.regions.get? r = some reg ∧ reg.Alike reg' := by
    intro r reg' hr'
    by_cases hr : r = e.regions.next
    · grind
    · right
      grind [Engine.openVotes, Region.Alike, Option.map_eq_some_iff]
  have hcommon : ∀ {r : RegionId}, r.index < e.regions.next.index → e.Common r →
      (e.openVotes x txn).Common r := by
    intro r hlt hr reg' x' hr'
    rcases hfrom hr' with ⟨rfl, -⟩ | ⟨reg, hreg, halike⟩
    · exact absurd hlt (Nat.lt_irrefl _)
    · exact fun hkind => hr hreg (halike.votes_iff.1 hkind)
  refine { hready with
    body := ?_, votes := ?_, alive := ?_, dead := ?_, placed := ?_, owned := ?_, cell := ?_,
    voting := ?_, polled := ?_, parent := ?_, continuation := ?_, release := ?_, closing := ?_,
    opened := ?_ }
  · intro r reg' x' txn' hr' hkind hx'
    rcases hfrom hr' with ⟨-, rfl⟩ | ⟨reg, hreg, halike⟩
    · cases hkind
    · exact hready.body hreg (halike.transaction_iff.1 hkind) hx'
  · intro r reg' x' txn' hr' hkind hx'
    rcases hfrom hr' with ⟨-, rfl⟩ | ⟨reg, hreg, halike⟩
    · cases hkind
      rcases Store.of_get?_modify hx hx' with ⟨-, rfl⟩ | ⟨hne, -⟩
      · exact .inl rfl
      · exact absurd rfl hne
    · exact hready.votes hreg (halike.votes_iff.1 hkind) hx'
  · exact fun hx' hs => .inl ((hready.alive hx' hs).resolve_right (by simp))
  · exact fun hx' hs => .inl ((hready.dead hx' hs).resolve_right (by simp))
  · intro x' txn' hx'
    rcases hready.placed hx' with ⟨r, reg, hr, hkind⟩ | htop
    · obtain ⟨reg', hr', halike⟩ := hkept hr
      grind [Region.Alike.transaction_iff, Region.Alike.votes_iff]
    · grind
  · exact fun hg hk hkind => .inl ((hready.owned hg hk hkind).resolve_right (by simp))
  · intro c grp ws r hg hk hkind
    refine (hready.cell hg hk hkind).imp_left fun ⟨reg, hr⟩ => ?_
    obtain ⟨reg', hr', -⟩ := hkept hr
    exact ⟨reg', hr'⟩
  · intro t tok ht hphase
    obtain ⟨reg, x', hr, hkind⟩ := hready.voting ht hphase
    obtain ⟨reg', hr', halike⟩ := hkept hr
    grind [Region.Alike.votes_iff]
  · intro t tok reg' x' ht hr' hkind
    obtain ⟨reg, hr, -⟩ := hcore.census.region_of ht
    obtain ⟨reg'', hr'', halike⟩ := hkept hr
    cases hr''.symm.trans hr'
    exact hready.polled ht hr (halike.votes_iff.1 hkind)
  · intro r reg' p hr' hparent
    rcases hfrom hr' with ⟨-, rfl⟩ | ⟨reg, hreg, halike⟩
    · cases hparent
      exact hcommon (Store.lt_next hp) (h.continuation hx)
    · have hparent' := halike.parent ▸ hparent
      obtain ⟨preg', hpreg', -⟩ := hcore.census.parent_of hreg hparent'
      exact hcommon (Store.lt_next hpreg') (hready.parent hreg hparent')
  · intro x' txn' hx'
    rcases Store.of_get?_modify hx hx' with ⟨-, rfl⟩ | ⟨-, hx'⟩
    · have hcont := hcommon (hcore.aligned.transaction hx).1.known (h.continuation hx)
      exact hcont
    · exact hcommon (hcore.aligned.transaction hx').1.known (h.continuation hx')
  · exact fun hm => hcommon (hcore.release hm).known (hready.release hm)
  · intro pending doomed hm
    obtain ⟨hdoomed, hpending⟩ := hready.closing hm
    refine ⟨hdoomed, fun r hr => ?_⟩
    obtain ⟨hlt, hreg⟩ := hpending r hr
    refine ⟨?_, fun reg' hr' => ?_⟩
    · show r.index < ((e.regions.insert _).modify _ _).next.index
      rw [Store.next_modify, Store.next_insert]
      exact Nat.lt_succ_of_lt hlt
    · rcases hfrom hr' with ⟨rfl, -⟩ | ⟨reg, hr, halike⟩
      · exact absurd hlt (Nat.lt_irrefl _)
      · obtain ⟨c, hkind, hbound⟩ := hreg reg hr
        exact ⟨c, halike.pruning_iff.2 hkind, hbound⟩
  · intro r reg' hr'
    rcases hfrom hr' with ⟨-, rfl⟩ | ⟨reg, hreg, halike⟩
    · rfl
    · exact halike.closed.trans (h.opened hreg)

/-- The votes are asked for. -/
theorem askVotes (h : Sections m e top)
    (hr : ∃ reg, e.regions.get? r = some reg ∧ reg.kind = .votes x) (cohorts : List CohortId) :
    Sections m (Engine.askVotes host txn.scope (txn.vote x r) e cohorts) top := by
  refine (askVotes_induct (P := fun e => Sections m e top ∧
    ∃ reg, e.regions.get? r = some reg ∧ reg.kind = .votes x) ?_ ⟨h, hr⟩ cohorts).1
  rintro e₁ e₂ id c ⟨h₁, reg, hr₁, hkind⟩ hs
  have hspawned : Sections m e₂ top := h₁.spawn hs ⟨fun _ => ⟨reg, x, hr₁, hkind⟩, fun _ => rfl⟩
  refine ⟨hspawned.congr rfl rfl, ?_⟩
  obtain ⟨-, -, -, he₂⟩ := spawn_eq_some hs
  show ∃ reg, e₂.regions.get? r = some reg ∧ _
  grind

/-- A section that has all its votes is concluded, and retires next. -/
theorem ofVerify (h : Sections m e (some (.retire x))) (hc : Coherent m (e.plan [.verify x]))
    (hx : e.transactions.get? x = some txn) :
    Sections m (e.concluded host x txn) (some (.retire x)) := by
  have hal : Aligned m e.tokens e.groups e.regions e.transactions := hc.core.aligned
  have hparent : txn.parent ≠ some x := fun hp => Nat.lt_irrefl _ ((hal.scope hx).2.2 x hp)
  have hurgent : ∀ {a : Chore}, a.urgent = true → a ∉ e.agenda := by
    grind [Coherent.urgent, Engine.plan]
  have hcommitted : Sections m (e.committed host x txn) (some (.retire x)) := by
    refine (h.onTransactions (e.committed host x txn).transactions (fun _ _ => .inl rfl) ?_ ?_).congr
      rfl rfl
    · exact fun hx' => committed_kept host hx'
    · intro x' txn' hx'
      rcases committed_from hx hparent hx' with ⟨rfl, rfl⟩ | ⟨-, old, hold, rfl | ⟨-, rfl⟩⟩
      · exact ⟨txn, hx, rfl, rfl, .inr (.inr ⟨.inl rfl, hc.cleared (.inr (.inl mem_cons_self)),
          hurgent rfl, hurgent rfl⟩)⟩
      · grind
      · exact ⟨old, hold, rfl, rfl, .inl ⟨rfl, fun _ => rfl⟩⟩
  refine hcommitted.plan (by simp) (by simp) ?_ (by simp) (by simp)
    (hcommitted.trailing.append (by simp)) (by simp)
  intro k v hm
  simp only [mem_cons, mem_map, reduceCtorEq, Chore.release.injEq, false_or] at hm
  obtain ⟨v', -, rfl, -⟩ := hm
  have hcont := h.continuation hx
  exact hcont

/-- A section that retires has its group killed next. -/
theorem retire (h : Sections m (e.plan [.retire x]) (some (.retire x)))
    (hal : Aligned m e.tokens e.groups e.regions e.transactions)
    (hx : e.transactions.get? x = some txn) :
    Sections m (e.retiring x txn) (some (.killGroup txn.group)) := by
  have hpop := h.drop (by simp)
  suffices hgone : Sections m { e with transactions := e.transactions.remove x }
      (some (.killGroup txn.group)) from hgone.planPlain _ (by simp [Chore.plain])
  refine { hpop with
    body := fun hr hkind hx' => h.body hr hkind (Store.of_get?_remove hx').2
    votes := fun hr hkind hx' => h.votes hr hkind (Store.of_get?_remove hx').2
    prepare := fun hm hx' => hpop.prepare hm (Store.of_get?_remove hx').2
    verify := fun hm hx' => hpop.verify hm (Store.of_get?_remove hx').2
    alive := fun hx' hs => .inl ((h.alive (Store.of_get?_remove hx').2 hs).resolve_right (by simp))
    dead := fun hx' hs => .inl ((h.dead (Store.of_get?_remove hx').2 hs).resolve_right (by simp))
    placed := ?_, owned := ?_
    continuation := fun hx' => h.continuation (Store.of_get?_remove hx').2 }
  · grind [placed]
  · intro g grp x' hg hk hkind
    obtain ⟨txn', hx'⟩ := (h.owned hg hk hkind).resolve_right (by simp)
    by_cases hne : x' = x
    · subst hne
      cases hx.symm.trans hx'
      rw [(hal.txn_group hg hkind).2 txn hx]
      exact .inr rfl
    · grind [Engine.plan]

theorem abort (h : Sections m (e.plan [.abort x]) (some (.abort x)))
    (hx : e.transactions.get? x = some txn) :
    Sections m (e.rescinded x txn) (some (.killGroup txn.group)) := by
  have haborted : Sections m (e.onTransaction x fun txn =>
      { txn with state := .aborted, publications := [] }) (some (.killGroup txn.group)) := by
    refine (h.drop (by simp)).onTransactions _ ?_ ?_ fun hx' => ?_
    · grind
    · grind
    · grind
  refine (haborted.planPlain _ ?_).congr rfl rfl
  simp_all [Chore.plain]

/-! ## All chores -/

/-- A longer charter says the same about what is there. -/
theorem extend (h : Sections m e top) {empty : Option RegionId} (hcore : Core m e empty)
    (hext : m.Extends m' e.groups e.regions e.transactions) : Sections m' e top := by
  refine { h with cell := ?_ }
  intro c grp ws r hg hk hkind
  refine (h.cell hg hk hkind).imp_right ?_
  rintro ⟨p, hm, habove, hpre⟩
  obtain ⟨-, preg, hp, -⟩ := hcore.census.gone (mem_detaches.2 hm)
  grind [Charter.Extends.above, Store.lt_next, Charter.Extends.group]

/-- Every chore leaves the sections in order. -/
theorem performed {a : Chore} (h : Sections m (e.plan [a]) (some a)) (hc : Coherent m (e.plan [a]))
    (hp : Performed host e a e') : Sections m e' e'.agenda.head? := by
  have hal : Aligned m e.tokens e.groups e.regions e.transactions := hc.core.aligned
  cases hp with
  | gone | quiesced | settled | detached | removed | asleep =>
    exact (h.pop (by simp) (by simp) (by simp)).weaken _
  | rollback | enqueue =>
    refine weaken (congr (h.pop (by simp) (by simp) (by simp)) ?_ ?_) _ <;> rfl
  | killToken =>
    refine ((h.pop (by simp) (by simp) (by simp)).killToken _ _ ?_).weaken _
    split <;> simp [Chore.plain]
  | quiesce hr => exact h.quiesce hc hr rfl
  | settle =>
    exact ((h.pop (by simp) (by simp) (by simp)).planPlain _ (by simp [Chore.plain])).weaken _
  | detach =>
    refine ((h.pop (by simp) (by simp) (by simp)).detach _ _ ?_).weaken _
    split <;> simp [Chore.plain]
  | closed =>
    obtain ⟨rfl, -⟩ := h.closing mem_cons_self
    exact ((h.pop (by simp) (by simp) (by simp)).planPlain _ (by simp)).weaken _
  | @closeNone r pending =>
    obtain ⟨rfl, hpending⟩ := h.closing mem_cons_self
    have hpop : Sections m e none := h.pop (by simp) (by simp) (by simp)
    have htrailing : Trailing ([.closeRegions pending []] ++ e.agenda) := h.trailing
    refine (hpop.plan (by simp) (by simp) (by simp) (by simp) (by simp) htrailing ?_).weaken _
    grind [Engine.plan]
  | close hr => cases (h.closing_gone hc.core mem_cons_self).symm.trans hr
  | dead hg =>
    refine Sections.weaken (h.pop (by simp) ?_ (by simp)) _
    grind
  | @killGroup g grp hg hk =>
    refine h.killGroup hal hg ?_ ?_
    · intro a ha
      simp only [mem_append, mem_cons, mem_map] at ha
      rcases ha with (ha | ⟨t, -, rfl⟩) | rfl | ⟨c, -, rfl⟩
      · unfold abortFor at ha
        split at ha
        · cases mem_singleton.1 ha
          rfl
        · cases ha
      · rfl
      · rfl
      · rfl
    · intro x hx
      rw [hx]
      rfl
  | removeGroup hg =>
    exact ((h.pop (by simp) (by simp) (by simp)).removeGroup hc.core hg).weaken _
  | @wake t _ ht =>
    have hpop : Sections m e none := h.pop (by simp) (by simp) (by simp)
    have hwoken := hpop.wakeOne (h.wake mem_cons_self)
    grind [Store.contains_iff, weaken, Engine.wake]
  | unprepared hx | unverified hx | retired hx =>
    refine Sections.weaken (h.pop (by simp) (by simp) ?_) _
    grind
  | prepareLate | verifyLate =>
    refine planPlain (h.pop (by simp) (by simp) ?_) _ (by simp [Chore.plain])
    grind [Engine.plan]
  | @prepare x txn preg hx hstate hp =>
    have hasked : Sections m (Engine.askVotes host txn.scope (txn.vote x e.regions.next)
        (e.openVotes x txn) txn.cohorts) none :=
      (h.openVotes hc hx hstate hp).askVotes ⟨_, Store.get?_next_insert_modify hp .., rfl⟩ txn.cohorts
    grind [weaken, planPlain, Chore.plain]
  | verify hx =>
    refine ofVerify (h.pop (by simp) (by simp) ?_) hc hx
    grind
  | retire hx => exact h.retire hal hx
  | release =>
    have hpop : Sections m e none := h.pop (by simp) (by simp) (by simp)
    refine (hpop.spawnReady (by simp [Continuation.resume]) ?_).weaken _
    exact h.release mem_cons_self
  | abortLate hx =>
    refine Sections.weaken (h.pop ?_ (by simp) (by simp)) _
    grind
  | abort hx => exact h.abort hx
  | @proceed t n =>
    have hpop : Sections m e none := h.pop (by simp) (by simp) (by simp)
    have hsent : Sections m (e.onToken t fun token => { token with node := n }) none :=
      hpop.onToken t (fun _ => rfl) fun _ _ => .inl rfl
    refine weaken (hsent.congr ?_ ?_) _ <;> rfl

theorem perform (host : Host ω) {a : Chore} (h : Sections m (e.plan [a]) (some a))
    (hc : Coherent m (e.plan [a])) (he' : e.perform host a = .ok e') :
    Sections m e' e'.agenda.head? := h.performed hc (Engine.performed he')

/-! ## Steps of tokens -/

/-- A step of a token that does not stand for a vote leaves the sections in order. -/
theorem step {tok : Token} {held : Option (TxnId × Value)} {mail : List Message}
    {notices : List Notice} (h : Sections m e none) (hcore : Core m e none) (ha : e.agenda = [])
    (ht : e.tokens.get? t = some tok) (hphase : tok.phase ≠ .voting)
    (hf : Footprint host t tok held mail notices e e') (m' : Charter) : Sections m' e' none := by
  have hal := hcore.aligned
  obtain ⟨treg, htreg, -⟩ := hcore.census.region_of ht
  -- the token stands in a region without votes, and such regions stay so
  have hhere : e.Common tok.region := by
    intro reg x hr hkind
    exact hphase (h.polled ht hr hkind)
  have hcommon : ∀ {r}, e.Common r → e'.Common r := by
    intro r hr reg' x hr'
    rcases hf.region_from hr' with ⟨reg, hreg, halike⟩ | ⟨-, -, -, hvotes, -⟩
    · exact fun hk => hr hreg (halike.votes_iff.1 hk)
    · exact hvotes x
  have hvoteless : ∀ {v}, e.Voteless v ∨ v = t → e'.Voteless v := by
    intro v hv
    have hknown : v.index < e.tokens.next.index := by
      rcases hv with hv | rfl
      · exact hv.1
      · exact Store.lt_next ht
    refine ⟨Nat.lt_of_lt_of_le hknown hf.next_token, fun tok' hv' => ?_⟩
    by_cases hvt : v = t
    · exact (hf.mine hv' (.inl hvt)).1
    · rw [hf.others hvt hknown] at hv'
      exact (hv.resolve_right hvt).2 hv'
  -- a region that is there belongs to a transaction that was there
  have hold : ∀ {r reg x}, e.regions.get? r = some reg →
      reg.kind.Serves x → x ≠ e.transactions.next := by
    grind [Aligned.atomic]
  -- a step plans only what follows from its node
  have hnotin : ∀ {a : Chore}, ¬a.Follows t e e' → a ∉ e'.agenda := fun hne hm =>
    hne (hf.follows _ hm)
  constructor
  case body =>
    intro r reg' x txn' hr' hk' hx'
    rcases hf.region_from hr' with ⟨reg, hr, halike⟩ | ⟨-, -, -, -, hnew⟩
    · grind [Region.Alike.transaction_iff, Footprint.txn_from, Transaction.Alike.state, body]
    · grind [Footprint.txn_from]
  case votes =>
    intro r reg' x txn' hr' hk' hx'
    rcases hf.region_from hr' with ⟨reg, hr, halike⟩ | ⟨-, -, -, hvotes, -⟩
    · grind [Region.Alike.votes_iff, Footprint.txn_from, Transaction.Alike.state, votes]
    · exact absurd hk' (hvotes x)
  case prepare => exact fun hm => absurd hm (hnotin id)
  case verify => exact fun hm => absurd hm (hnotin id)
  case alive =>
    intro x txn' hx' hs
    rcases hf.txn_from hx' with ⟨txn, hx, hsame, -⟩ | ⟨-, -, -, -, -, -, halive, -⟩
    · obtain ⟨grp, hg, hk⟩ := (h.alive hx (hsame.state ▸ hs)).resolve_right (by simp)
      grind [Footprint.group_kept, Transaction.Alike.group, Group.Alike.killed]
    · exact .inl halive
  case dead =>
    intro x txn' hx' hs
    rcases hf.txn_from hx' with ⟨txn, hx, hsame, -⟩ | ⟨-, hrun, -⟩
    · have hdead := (h.dead hx (hsame.state ▸ hs)).resolve_right (by simp)
      refine .inl fun grp' hg' => ?_
      rw [hsame.group] at hg'
      rcases hf.group_from hg' with ⟨grp, hg, halike⟩ | ⟨hnew, -⟩
      · exact halike.killed.trans (hdead grp hg)
      · -- the group of a transaction that is there is not new
        have := (hal.transaction hx).2.2.1
        grind
    · rw [hrun] at hs
      cases hs
  case placed =>
    intro x txn' hx'
    rcases hf.txn_from hx' with ⟨txn, hx, -⟩ | ⟨-, -, -, -, -, -, -, r, reg', hr', hk'⟩
    · obtain ⟨r, reg, hr, hk⟩ := (h.placed hx).resolve_right (by simp)
      grind [Footprint.region_kept, Region.Alike.transaction_iff, Region.Alike.votes_iff]
    · exact .inl ⟨r, reg', hr', .inl hk'⟩
  case owned =>
    intro g grp' x hg' hk' hgk'
    rcases hf.group_from hg' with ⟨grp, hg, halike⟩ | ⟨-, -, ⟨hcell, -⟩ | ⟨htxn, txn', hx', -⟩⟩
    · have hgk : grp.kind = .transaction x := by
        have := halike.kind
        grind
      obtain ⟨txn, hx⟩ := (h.owned hg (halike.killed ▸ hk') hgk).resolve_right (by simp)
      grind [Footprint.txn_kept]
    · rw [hcell] at hgk'
      cases hgk'
    · grind
  case cell =>
    intro c grp' ws r hg' hk' hgk'
    rcases hf.group_from hg' with ⟨grp, hg, halike⟩ | ⟨-, -, ⟨hcell, reg', hr'⟩ | ⟨htxn, -⟩⟩
    · grind [Group.Alike.kind, cell, Group.Alike.killed, Footprint.region_kept]
    · grind
    · rw [htxn] at hgk'
      cases hgk'
  case voting =>
    grind [Footprint.mine, Footprint.others, voting, Footprint.region_kept, Region.Alike.votes_iff]
  case polled =>
    intro v tok' reg' x hv' hr' hk'
    by_cases hmine : v = t ∨ e.tokens.next.index ≤ v.index
    · -- such a token stands in a region without votes
      exfalso
      obtain ⟨-, hregion | hregion | ⟨reg, hreg, hparent⟩⟩ := hf.mine hv' hmine
      · rw [hregion] at hr'
        exact hcommon hhere hr' hk'
      · rw [hregion] at hr'
        rcases hf.region_from hr' with ⟨reg, hreg, -⟩ | ⟨-, -, -, hvotes, -⟩
        · exact Store.ne_next hreg rfl
        · exact hvotes x hk'
      · exact hcommon (h.parent hreg hparent) hr' hk'
    · rw [not_or, Nat.not_le] at hmine
      rw [hf.others hmine.1 hmine.2] at hv'
      obtain ⟨reg, hr, -⟩ := hcore.census.region_of hv'
      grind [Footprint.region_kept, polled, Region.Alike.votes_iff]
  case parent => grind [Footprint.region_from, parent, Region.Alike.parent]
  case continuation =>
    intro x txn' hx'
    rcases hf.txn_from hx' with ⟨txn, hx, hsame, -⟩ | ⟨-, -, -, -, -, hregion, -⟩
    · rw [hsame.continuation]
      exact hcommon (h.continuation hx)
    · rw [hregion]
      exact hcommon hhere
  case release => exact fun hm => absurd hm (hnotin id)
  case rooted =>
    intro g grp' hg' hkind'
    rcases hf.group_from hg' with ⟨grp, hg, halike⟩ | ⟨-, -, ⟨hcell, -⟩ | ⟨htxn, -⟩⟩
    · grind [Group.Alike.kind, rooted]
    · rw [hcell] at hkind'
      cases hkind'
    · rw [htxn] at hkind'
      cases hkind'
  case waiter =>
    intro g grp' ws r v hg' hgk' hv
    rcases hf.group_from hg' with ⟨grp, hg, halike⟩ | ⟨-, -, ⟨hcell, -⟩ | ⟨htxn, -⟩⟩
    · grind [Group.Alike.kind, waiter]
    · grind
    · rw [htxn] at hgk'
      cases hgk'
  case timer => grind [Footprint.timed, timer]
  case wake =>
    intro v hm
    obtain ⟨g, grp, ws, r, hg, hgk, hv⟩ := hf.follows _ hm
    exact hvoteless (.inl (h.waiter hg hgk hv))
  case trailing => exact hf.trailing
  case closing =>
    intro pending doomed hm
    obtain ⟨hdoomed, hpending⟩ := hf.follows _ hm
    refine ⟨hdoomed, fun r hr => ?_⟩
    obtain ⟨hlt, hreg⟩ := hpending r hr
    refine ⟨Nat.lt_of_lt_of_le hlt hf.next_region, fun reg' hr' => ?_⟩
    rcases hf.region_from hr' with ⟨reg, hr, halike⟩ | ⟨rfl, -⟩
    · grind [Region.Alike.pruning_iff]
    · exact absurd hlt (Nat.lt_irrefl _)
  case opened =>
    intro r reg' hr'
    rcases hf.region_from hr' with ⟨reg, hr, halike⟩ | ⟨-, -, hclosed, -⟩
    · exact halike.closed.trans (h.opened hr)
    · exact hclosed

/-! ## Messages and clocks -/

/-- The engine takes a message; one for a vote says that it is in. -/
theorem receive (h : Sections m e none) (host : Host ω) (message : Message)
    (hvote : ∀ t reply tok, message = .returned t reply → e.tokens.get? t = some tok →
      tok.phase = .voting → reply = .halt) : Sections m (e.receive host message) none := by
  have hreceived := e.received host message
  generalize e.receive host message = e' at hreceived
  cases hreceived with
  | terminate => exact h.congr rfl rfl
  | late | vetoedLate => exact h
  | @publish t tok v ht =>
    have hset : Sections m (e.onToken t fun token =>
        { token with result := v, phase := .runnable }) none := by
      refine h.onToken t (fun _ => rfl) fun tok' ht' => .inr ⟨by simp, fun hp => ?_⟩
      cases hvote t _ tok' rfl ht' hp
    exact hset.congr rfl rfl
  | halt => exact h.planPlain _ (by simp [Chore.plain])
  | fail => refine planPlain (h.congr ?_ ?_) _ (by simp [Chore.plain]) <;> rfl
  | vetoed =>
    refine h.planPlain _ fun a ha => ?_
    rcases mem_append.1 ha with ha | ha
    · obtain ⟨x, -, rfl⟩ := Option.map_eq_some_iff.1 (Option.mem_toList.1 ha)
      rfl
    · cases mem_singleton.1 ha
      rfl

theorem wakeAll (h : Sections m e none) {ts : List TokenId} (hts : ∀ t ∈ ts, e.Voteless t) :
    Sections m (ts.foldl Engine.wake e) none := by
  induction ts generalizing e with
  | nil => exact h
  | cons t ts ih =>
    refine ih (h.wakeOne (hts t mem_cons_self)) fun t' ht' => ?_
    obtain ⟨hlt, hphase⟩ := hts t' (mem_cons_of_mem t ht')
    unfold Engine.wake
    split
    · refine ⟨by simpa [enqueue, Engine.onToken] using hlt, ?_⟩
      intro tok' (htok' : (e.tokens.modify t _).get? t' = some tok')
      rcases Store.modified htok' with ⟨-, tok, -, rfl⟩ | ⟨-, htok'⟩
      · simp
      · exact hphase htok'
    · exact ⟨hlt, hphase⟩

/-- Fewer tokens wait on clocks. -/
theorem onClocks (h : Sections m e top) (clocks : List (Clock TokenId))
    (hclocks : ∀ t ∈ clocks.flatMap fun c => c.timers.map Timer.payload, t ∈ e.timed) :
    Sections m { e with clocks } top :=
  { h with timer := fun ht => h.timer (hclocks _ ht) }

theorem tick (h : Sections m e none) : Sections m e.tick none := by
  have hticked : Sections m { e with clocks := (e.clocks.map Clock.tick).map Prod.snd } none := by
    refine h.onClocks _ ?_
    intro t ht
    simp only [mem_flatMap, mem_map] at ht
    obtain ⟨-, ⟨-, ⟨c, hc, rfl⟩, rfl⟩, u, hu, rfl⟩ := ht
    exact mem_flatMap.2 ⟨c, hc, mem_map_of_mem (dropWhile_subset _ hu)⟩
  unfold Engine.tick
  refine Sections.wakeAll ?_ ?_
  · exact hticked.congr rfl rfl
  · intro t ht
    simp only [mem_flatMap, mem_map] at ht
    obtain ⟨-, ⟨c, hc, rfl⟩, ht⟩ := ht
    obtain ⟨u, hu, rfl⟩ := mem_map.1 ht
    have hdue : u.payload ∈ e.timed :=
      mem_flatMap.2 ⟨c, hc, mem_map_of_mem (takeWhile_subset _ hu)⟩
    exact h.timer hdue

theorem idle (h : Sections m e none) (host : Host ω) : Sections m (e.idle host).state none := by
  have hdropped : Sections m e.dropDeadTimers none := by
    refine h.onClocks _ ?_
    intro t ht
    simp only [mem_flatMap, mem_map] at ht
    obtain ⟨-, ⟨c, hc, rfl⟩, u, hu, rfl⟩ := ht
    exact mem_flatMap.2 ⟨c, hc, mem_map_of_mem (mem_of_mem_filter hu)⟩
  have hidled := e.idled host
  generalize e.idle host = p at hidled
  cases hidled with
  | await => exact hdropped.congr rfl rfl
  | stuck => exact hdropped
  | tick => exact hdropped.tick.congr rfl rfl

/-! ## The start of a run -/

theorem start (program : Program) (limit : Option Nat) (world : ω) :
    Sections Charter.initial (Engine.new program limit world).start none := by
  have hregion : ∀ {r reg}, (bare program limit world).regions.get? r = some reg →
      reg = { parent := none, kind := .root } := by grind [Store.get?_empty, bare]
  have hgroup : ∀ {g grp}, (bare program limit world).groups.get? g = some grp →
      g = rootGroup ∧ grp = { parent := none, kind := .root } := by
    intro g grp (hg : (Store.empty.insert _).get? g = some grp)
    rw [Store.get?_insert, Store.get?_empty] at hg
    split at hg
    · cases hg
      exact ⟨‹_›, rfl⟩
    · cases hg
  have htoken : ∀ {t tok}, (bare program limit world).tokens.get? t = some tok → False := by
    grind [Store.get?_empty, bare, Engine.new]
  have htxn : ∀ {x txn}, (bare program limit world).transactions.get? x = some txn →
      False := by grind [Store.get?_empty, bare, Engine.new]
  have hbare : Sections Charter.initial (bare program limit world) none := by
    have hagenda : (bare program limit world).agenda = [] := rfl
    have htimed : (bare program limit world).timed = [] := rfl
    constructor
    case trailing => trivial
    all_goals
      intros
      grind
  rw [start_eq]
  refine hbare.spawnReady (by simp [Program.firstToken]) ?_
  intro reg x hr
  rw [hregion hr]
  simp

end Sections
end Orchestra

