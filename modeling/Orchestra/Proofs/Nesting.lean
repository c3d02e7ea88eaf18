/-
  Nesting: in which order a cohort hears of sections inside one another.

  A cohort takes part in a section and in all those around it, and is told of each how it ended.
  One would like the inner sections to come first, always.  A section is asked for its votes only
  when those inside of it are gone, and is committed only when a vote comes in, with nothing else
  to do; so for commits this is so.  Aborts differ: who is to be told of one is told when all that
  goes with the section has ended, and on the way the section around it may go on to its votes.
  And a section that ends because a scope around it is killed tells its cohorts first, and then
  those inside of it end.

  * `Canvass`            how the votes on a section come to their end;
  * `Engine.Resigns`     a section is aborted on its own account, not with a scope around it;
  * `Engine.Writes`      what a turn may write down, and when;
  * `Nested`             what a log says about two sections, one inside the other;
  * `callbacks_nested`   the order in which a cohort is called.
-/
import Orchestra.Proofs.Batches
import Orchestra.Proofs.Containers
import Orchestra.Proofs.Remains
import Orchestra.Proofs.Spared
import Orchestra.Proofs.Time

namespace Orchestra

open Engine List

variable {ω : Type} {m : Charter} {top : Option Chore} {empty : Option RegionId} {p x : TxnId}
  {c : CohortId} {next : Nat} {site : Site} {txn : Transaction}

/-! ## Sections around one another -/

section Around

variable {e : Engine ω}

/-- Whatever lies in a section lies in a region that is its body.  The group of that region is
    alive if the group of what lies in it is, unless one is to be killed. -/
theorem Sections.body_around (h : Sections m e top) (hcore : Core m e empty) {r : RegionId}
    {reg : Region} (hr : e.regions.get? r = some reg) (hcommon : e.Common r)
    (hp : p ∈ m.lineage? (m.txn r)) :
    ∃ r' reg', e.regions.get? r' = some reg' ∧ reg'.kind = .transaction p ∧
      ((∀ g, .killGroup g ∉ e.agenda) → e.Alive (m.group r) → e.Alive (m.group r')) := by
  -- go up from region to region
  revert hcommon hp
  refine hcore.census.climb hr fun r reg hr above hcommon hp => ?_
  have up : ∀ {q}, reg.parent = some q → p ∈ m.lineage? (m.txn q) →
      ((∀ g, .killGroup g ∉ e.agenda) → e.Alive (m.group r) → e.Alive (m.group q)) →
      ∃ r' reg', e.regions.get? r' = some reg' ∧ reg'.kind = .transaction p ∧
        ((∀ g, .killGroup g ∉ e.agenda) → e.Alive (m.group r) → e.Alive (m.group r')) := by
    grind [parent]
  cases hkind : reg.kind with
  | root =>
    rw [(hcore.aligned.root hr hkind).2.2.1] at hp
    cases hp
  | pruning c =>
    obtain ⟨⟨q, hq, htxn, habove⟩, hgroup, -⟩ := hcore.aligned.pruning hr hkind
    refine up hq (htxn ▸ hp) fun hkill halive => ?_
    grind [Core.above_alive]
  | otherwise b k =>
    obtain ⟨hq, hkept, hgroup, htxn, -⟩ := hcore.aligned.otherwise hr hkind
    rw [htxn, ← hkept.txn] at hp
    refine up hq hp fun _ halive => ?_
    rwa [hgroup, ← hkept.group] at halive
  | transaction x =>
    obtain ⟨txn, hx, hq, hgroup, htxn⟩ := hcore.aligned.atomic hr (.inl hkind)
    obtain ⟨hkept, habove, -, hparent, -⟩ := hcore.aligned.transaction hx
    have hp : p ∈ m.lineage x := by rwa [htxn] at hp
    rw [(hcore.aligned.scope hx).2.1] at hp
    rcases mem_cons.1 hp with rfl | hp
    · exact ⟨r, reg, hr, hkind, fun _ => id⟩
    · rw [hparent, ← hkept.txn] at hp
      refine up hq hp fun hkill halive => ?_
      grind [Kept.group, Core.above_alive]
  | votes x => exact absurd hkind (hcommon hr)

/-- Where a section goes on afterwards is still there, until it is retired. -/
theorem Sections.seat (h : Sections m e e.agenda.head?) (hc : Coherent m e)
    (hx : e.transactions.get? x = some txn) (hretire : e.agenda.head? ≠ some (.retire x)) :
    ∃ reg, e.regions.get? txn.continuation.region = some reg := by
  have hstage : .prepare x ∈ e.agenda ∨ .verify x ∈ e.agenda →
      ∃ reg, e.regions.get? txn.continuation.region = some reg := by
    intro hm
    obtain ⟨c, hdetach⟩ := hc.seated hm hx
    obtain ⟨-, reg, hr, -⟩ := hc.core.census.gone (mem_detaches.2 hdetach)
    exact ⟨reg, hr⟩
  rcases h.placed hx with ⟨r, reg, hr, hkind⟩ | htop | htop | htop
  · obtain ⟨txn', hx', hparent, -⟩ := hc.core.aligned.atomic hr hkind
    cases hx.symm.trans hx'
    obtain ⟨preg, hp, -⟩ := hc.core.census.parent_of hr hparent
    exact ⟨preg, hp⟩
  · exact hstage (.inl (mem_of_mem_head? htop))
  · exact hstage (.inr (mem_of_mem_head? htop))
  · exact absurd htop hretire

/-- The sections around the place where a section goes on afterwards are those around it. -/
theorem Core.mem_lineage_seat (h : Core m e empty) (hx : e.transactions.get? x = some txn)
    (hp : p ∈ m.lineage x) (hne : p ≠ x) : p ∈ m.lineage? (m.txn txn.continuation.region) := by
  obtain ⟨hkept, -, -, hparent, -⟩ := h.aligned.transaction hx
  rw [(h.aligned.scope hx).2.1] at hp
  grind [Kept.txn]

/-- When a section goes on to its next stage, those inside of it are gone. -/
theorem Sections.inner_gone (h : Sections m e e.agenda.head?) (hc : Coherent m e)
    (hstage : e.agenda.head? = some (.prepare p) ∨ e.agenda.head? = some (.verify p))
    (hp : p ∈ m.lineage x) (hne : p ≠ x) : e.transactions.get? x = none := by
  cases hx : e.transactions.get? x with
  | none => rfl
  | some txn =>
    obtain ⟨reg, hr⟩ := h.seat hc hx (by rcases hstage with htop | htop <;> simp [htop])
    obtain ⟨r', reg', hr', hkind, -⟩ :=
      h.body_around hc.core hr (h.continuation hx) (hc.core.mem_lineage_seat hx hp hne)
    grind [mem_of_mem_head?, Coherent.cleared]

/-- As long as nothing is to be killed, the sections around an undecided one are alive. -/
theorem Sections.outer_alive (h : Sections m e e.agenda.head?) (hc : Coherent m e)
    (hkill : ∀ g, .killGroup g ∉ e.agenda) (habort : e.agenda.head? ≠ some (.abort x))
    (hretire : e.agenda.head? ≠ some (.retire x)) (hx : e.Undecided x) (hp : p ∈ m.lineage x)
    (hne : p ≠ x) : ∃ ptxn grp, e.transactions.get? p = some ptxn ∧
      e.groups.get? ptxn.group = some grp ∧ grp.killed = false := by
  obtain ⟨txn, hx, hstate⟩ := hx
  obtain ⟨grp, hg, hk⟩ := (h.alive hx hstate).resolve_right habort
  obtain ⟨hkept, habove, -⟩ := hc.core.aligned.transaction hx
  obtain ⟨reg, hr⟩ := h.seat hc hx hretire
  obtain ⟨r', reg', hr', hkind, halive⟩ :=
    h.body_around hc.core hr (h.continuation hx) (hc.core.mem_lineage_seat hx hp hne)
  have hseat : e.Alive (m.group txn.continuation.region) :=
    hkept.group ▸ hc.core.above_alive hkill hg hk habove
  obtain ⟨pgrp, hpg, hpk⟩ := halive hkill hseat
  obtain ⟨ptxn, hptxn, -, hgroup, -⟩ := hc.core.aligned.atomic hr' (.inl hkind)
  grind

end Around

/-! ## Votes -/

section Votes

variable {e e' : Engine (Logged ω)} {host : Host ω} {past : History ω} {a : Chore}
  {t : TokenId} {tok : Token}

/-- The last vote on a section has come in, and its region is to react. -/
def Engine.Closing (x : TxnId) (e : Engine ω) : Prop :=
  (∃ t tok, e.agenda = [.killToken t] ∧ e.tokens.get? t = some tok ∧ tok.phase = .voting ∧
    tok.txn = some x) ∨
  (∃ r reg, e.agenda = [.quiesce r] ∧ e.regions.get? r = some reg ∧ reg.kind = .votes x) ∨
  ∃ q r, e.agenda = [.verify x, .detach q r]

/-- Every undecided section waits, for a vote if it has asked its cohorts, or it is being closed with
    nothing else to do. -/
def Canvass (e : Engine ω) : Prop := ∀ ⦃x : TxnId⦄, e.Undecided x → Attended e x ∨ e.Closing x

namespace Canvass

/-- The end of a vote leaves others, or leaves the region of the votes to react. -/
theorem killToken (hc : Coherent m (e.plan [.killToken t]))
    (hs : Sections m (e.plan [.killToken t]) (some (.killToken t))) (ha : e.agenda = [])
    {m' : Charter} (hc' : Coherent m' e') (hs' : Sections m' e' e'.agenda.head?)
    (he' : e.perform host.logged (.killToken t) = .ok e') (ht : e.tokens.get? t = some tok)
    (hvoting : tok.phase = .voting) (htxn : tok.txn = some x) (hx' : e'.Undecided x) :
    Attended e' x ∨ e'.Closing x := by
  obtain ⟨⟨reg, hr, hkind⟩, -⟩ := hs.voter hc.core ht hvoting htxn
  by_cases hidle : e'.agenda = []
  · obtain ⟨txn, hx', -⟩ := hx'
    rw [hidle] at hs'
    exact .inl (Attended.of_idle (hc'.core_of_idle hidle) hs' hidle hx')
  · refine .inr (.inr (.inl ⟨tok.region, reg.unseat t, ?_⟩))
    cases Engine.performed he' with
    | gone => exact absurd ha hidle
    | @killToken _ _ reg' ht' hr' hmem hpos =>
      cases ht.symm.trans ht'
      cases hr.symm.trans hr'
      have hagenda : (e.ended t tok reg).agenda =
          if reg.live = 1 then [Chore.quiesce tok.region] else [] :=
        (congrArg (_ ++ ·) ha).trans (append_nil _)
      rw [hagenda] at hidle ⊢
      refine ⟨if_pos (Decidable.by_contra fun hlast => hidle (if_neg hlast)), ?_, hkind⟩
      show (e.regions.modify tok.region _).get? tok.region = _
      rw [Store.get?_modify, if_pos rfl, hr']
      rfl

/-- A chore leaves a section waiting, closes it, or decides it. -/
theorem perform (h : Canvass (e.plan [a])) (hl : Ledger past (e.plan [a]))
    (hd : Decisions past (e.plan [a])) (hc : Coherent m (e.plan [a]))
    (hs : Sections m (e.plan [a]) (some a)) {m' : Charter} (hc' : Coherent m' e')
    (hs' : Sections m' e' e'.agenda.head?) (hl' : Ledger (past ++ [e.plan [a]]) e')
    (he' : e.perform host.logged a = .ok e') : Canvass e' := by
  intro x hx'
  have hnever : ∀ {e₁}, e₁ ∈ past ++ [e.plan [a]] → ¬(e₁.Commits x ∨ e₁.Aborts x) := by
    obtain ⟨txn, hx', hstate⟩ := hx'
    exact hl'.undecided hx' hstate
  have hnow : ¬((e.plan [a]).Commits x ∨ (e.plan [a]).Aborts x) :=
    hnever (mem_append_right _ mem_cons_self)
  have hx : (e.plan [a]).Undecided x := by
    have hnext : e'.transactions.next.index = e.transactions.next.index :=
      (perform_tallies he' (fun heq hx => by
        subst heq
        rcases hd.retired mem_cons_self hx with hdone | haborted
        · rw [hdone]; rfl
        · rw [haborted]; rfl)).next
    have hknown : x.index < e.transactions.next.index := by
      obtain ⟨txn, hx', -⟩ := hx'
      exact hnext ▸ Store.lt_next hx'
    grind [Decisions.decided, Engine.plan]
  rcases h hx with hattended | hclosing
  · grind [Attended.perform]
  · rcases hclosing with ⟨t, tok, hagenda, ht, hvoting, htxn⟩ | ⟨r, reg, hagenda, hr, hkind⟩ |
      ⟨q, r, hagenda⟩
    · grind [killToken, Engine.plan]
    · obtain ⟨rfl, ha⟩ := List.cons.inj hagenda
      have ha : e.agenda = [] := ha
      cases Engine.performed he' with
      | quiesced hgone => grind [Engine.plan]
      | quiesce hr' =>
        cases hr.symm.trans hr'
        obtain ⟨txn', -, hparent, -⟩ := hc.core.aligned.atomic hr (.inr hkind)
        rw [Engine.vacated, removed, Region.farewell, hkind, hparent]
        refine .inr (.inr (.inr ⟨txn'.continuation.region, r, ?_⟩))
        show .verify x :: .detach _ r :: e.agenda = _
        rw [ha]
    · obtain ⟨rfl, -⟩ := List.cons.inj hagenda
      obtain ⟨txn, hx, hstate⟩ := hx
      refine absurd (.inl ⟨txn, _, rfl, hx, ?_⟩) hnow
      grind [Sections.verify]

/-- With nothing to do, every section waits. -/
theorem of_idle (hc : Coherent m e) (hs : Sections m e e.agenda.head?) (ha : e.agenda = []) :
    Canvass e := by
  rintro x ⟨txn, hx, -⟩
  rw [ha] at hs
  exact .inl (Attended.of_idle (hc.core_of_idle ha) hs ha hx)

theorem step (hcore : Core m e none) (hs : Sections m e none) (ha : e.agenda = [])
    (ht : e.tokens.get? t = some tok) (hphase : tok.phase ≠ .voting)
    {held : Option (TxnId × Value)} {mail : List Message} {notices : List Notice}
    (hf : Footprint host.logged t tok held mail notices e e') : Canvass e' := by
  rintro x ⟨txn', hx', hstate⟩
  have hretire : e'.agenda.head? ≠ some (.retire x) :=
    fun htop => hf.follows _ (mem_of_mem_head? htop)
  refine .inl ⟨⟨txn', hx', hstate⟩, fun {txn} hx hreadying hcohorts => .inl ?_, hretire⟩
  cases hx'.symm.trans hx
  rcases hf.txn_from hx' with ⟨txn, hx, halike, -, -, hcohort⟩ | ⟨-, hrunning, -⟩
  · have hknown : txn.cohorts ≠ [] := by
      obtain ⟨c, hmem⟩ := exists_mem_of_ne_nil _ hcohorts
      rcases (hcohort c).1 hmem with hmem | ⟨n, hn, hlineage, -⟩
      · exact ne_nil_of_mem hmem
      · -- the section that a token has a cohort take part in runs
        have hscope := hf.asks.scope_eq hn
        rw [hcore.scopeOf_lineage hscope] at hlineage
        grind [Sections.running, Transaction.Alike.state]
    obtain ⟨v, vtok, hv, hvoting, htxn, -⟩ := ((Attended.of_idle hcore hs ha hx).votes hx
      (halike.state ▸ hreadying) hknown).resolve_right (by simp [ha])
    have hne : v ≠ t := by grind
    refine ⟨v, vtok, (hf.others hne (Store.lt_next hv)).trans hv, hvoting, htxn, fun hm => ?_⟩
    exact hne (hf.follows _ hm)
  · rw [hrunning] at hreadying
    cases hreadying

/-- The end of one token leaves the others, and with them all sections that it is no vote on. -/
theorem spared (h : Attended e x) (ha : e.agenda = []) (ht : e.tokens.get? t = some tok)
    (hother : ¬(tok.phase = .voting ∧ tok.txn = some x)) (htokens : e'.tokens = e.tokens)
    (htxns : e'.transactions = e.transactions)
    (hagenda : ∀ b ∈ e'.agenda, b = .killToken t ∨ ∃ y, b = .abort y) : Attended e' x where
  undecided := by
    rw [htxns]
    exact h.undecided
  votes {txn} hx hstate hcohorts := by
    rw [htxns] at hx
    obtain ⟨v, vtok, hv, hvoting, htxn, -⟩ :=
      (h.votes hx hstate hcohorts).resolve_right (by simp [ha])
    refine .inl ⟨v, vtok, htokens ▸ hv, hvoting, htxn, fun hm => ?_⟩
    grind
  unretired htop := by
    obtain heq | ⟨y, heq⟩ := hagenda _ (mem_of_mem_head? htop) <;> cases heq

/-- What comes in ends a vote, which closes a section or aborts it. -/
theorem message (hc : Coherent m e) (hs : Sections m e e.agenda.head?) (ha : e.agenda = [])
    {m' : Charter} {message : Message} (hc' : Coherent m' e')
    (hs' : Sections m' e' e'.agenda.head?) (hreceived : Received host.logged e message e') :
    Canvass e' := by
  have hattended : ∀ {x}, e'.transactions = e.transactions → e'.Undecided x → Attended e x := by
    rintro x htxns ⟨txn, hx, -⟩
    rw [htxns] at hx
    rw [ha] at hs
    exact Attended.of_idle (hc.core_of_idle ha) hs ha hx
  have hended : ∀ {t tok}, e.tokens.get? t = some tok → e'.agenda = [.killToken t] →
      e'.tokens = e.tokens → e'.transactions = e.transactions → Canvass e' := by
    intro t tok ht hagenda htokens htxns x hx
    by_cases hmine : tok.phase = .voting ∧ tok.txn = some x
    · exact .inr (.inl ⟨t, tok, hagenda, htokens ▸ ht, hmine⟩)
    · grind [spared]
  cases hreceived with
  | terminate | late | publish | vetoedLate => exact of_idle hc' hs' ha
  | halt ht | fail ht => exact hended ht (congrArg (_ :: ·) ha) rfl rfl
  | @vetoed t tok ht =>
    intro x hx
    have hwaits := hattended rfl hx
    have hagenda : (e.plan ((tok.txn.map Chore.abort).toList ++ [.killToken t])).agenda =
        (tok.txn.map Chore.abort).toList ++ [.killToken t] :=
      (congrArg (_ ++ ·) ha).trans (append_nil _)
    by_cases hmine : tok.phase = .voting ∧ tok.txn = some x
    · refine .inl ⟨hwaits.undecided, fun _ _ _ => .inr ?_, ?_⟩
      · rw [hagenda, hmine.2]
        rfl
      · rw [hagenda, hmine.2]
        exact nofun
    · grind [spared, Option.map_eq_some_iff, Engine.plan]

theorem turn (h : Canvass e) (hl : Ledger past e) (hd : Decisions past e) (hc : Coherent m e)
    (hs : Sections m e e.agenda.head?) {m' : Charter} {p : Progress (Logged ω)}
    (hc' : Coherent m' p.state) (hs' : Sections m' p.state p.state.agenda.head?)
    (hl' : Ledger (past ++ [e]) p.state) (hp : e.turn host.logged = .ok p) : Canvass p.state := by
  cases turned hp with
  | chore he he' =>
    subst he
    exact h.perform hl hd hc hs hc' hs' hl' he'
  | done ha | skip ha => exact of_idle hc' hs' ha
  | @step t tok ready node e' ha hh hready ht hphase hnode he' =>
    rw [ha] at hs
    have hcore := hc.taken ha ready
    have htaken : Sections m (e.taken ready) none := hs.congr rfl rfl
    obtain ⟨mail, notices, hf⟩ := hc.footprint ha ht hphase he'
    exact step hcore htaken ha ht (by simp [hphase]) hf
  | @message sent inbox ha hh hready hinbox =>
    have hpopped : Coherent m { e with inbox } :=
      { hc with core := hc.core.congr rfl }
    refine message hpopped ?_ ha hc' hs' (received host.logged { e with inbox } sent)
    exact hs.congr rfl rfl
  | idle ha => grind [of_idle, idle_agenda]

/-- A section with cohorts is committed with nothing else to do. -/
theorem alone (h : Canvass e) (hc : Coherent m e) (hs : Sections m e e.agenda.head?)
    (hcommits : e.Commits x) (hx : e.transactions.get? x = some txn) (hcohorts : txn.cohorts ≠ []) :
    ∃ q r, e.agenda = [.verify x, .detach q r] := by
  obtain ⟨txn', rest, hagenda, hx', hstate⟩ := hcommits
  cases hx.symm.trans hx'
  rcases h ⟨txn, hx, .inr hstate⟩ with hattended | ⟨t, tok, hshape, -⟩ | ⟨r, reg, hshape, -⟩ | hshape
  · rw [eq_plan hagenda] at hattended hc hs
    grind [Attended.commit, Engine.plan]
  · rw [hagenda] at hshape
    cases hshape
  · rw [hagenda] at hshape
    cases hshape
  · exact hshape

end Canvass

end Votes

/-! ## Aborts -/

/-- The next turn aborts a section on its own account, and not with a scope around it: its group has
    not been killed. -/
def Engine.Resigns (x : TxnId) (e : Engine ω) : Prop :=
  e.Aborts x ∧ ∃ txn grp, e.transactions.get? x = some txn ∧ e.groups.get? txn.group = some grp ∧
    grp.killed = false

section Steps

variable {e e' : Engine ω} {host : Host ω} {t : TokenId} {tok : Token}

/-- An abort that is planned is all that is. -/
def Engine.Curt (e : Engine ω) : Prop := ∀ ⦃x rest⦄, e.agenda = .abort x :: rest → rest = []

theorem Engine.curt_of_idle (ha : e.agenda = []) : e.Curt := by
  intro x rest hagenda
  rw [ha] at hagenda
  cases hagenda

theorem Engine.curt_plan {a : Chore} {new : List Chore} (h : ∀ x, a ≠ .abort x) :
    (e.plan (a :: new)).Curt := by
  intro x rest hagenda
  exact absurd (List.cons.inj hagenda).1 (h x)

theorem Engine.curt_park (ha : e.agenda = []) (c : GroupId) : (e.park t c).Curt := by
  unfold park
  split
  · exact curt_of_idle ha
  · exact curt_plan (by simp)

theorem Replied.curt {reply : Reply} (h : Replied host e t tok site next reply e')
    (ha : e.agenda = []) : e'.Curt := by
  cases h with
  | publish => exact curt_of_idle ha
  | halt | fail => exact curt_plan (by simp)

theorem Served.curt {values : List Value} (h : Served host e t tok site values next e')
    (ha : e.agenda = []) : e'.Curt := by
  cases h with
  | immediate hmode hreply | outside hmode hscope hreply => exact hreply.curt ha
  | inside hmode hscope hreply => exact hreply.curt ((enlist_agenda ..).trans ha)
  | refused =>
    intro x rest hagenda
    have hagenda := (List.cons.inj hagenda).2
    rw [← hagenda]
    exact (enlist_agenda ..).trans ha
  | launched | timer => exact curt_of_idle ha
  | unspawned | timerFailed => exact curt_plan (by simp)

theorem Called.curt {target : Operand} {args : List Operand} {tail : Bool}
    (h : Called host e t tok target args next tail e') (ha : e.agenda = []) : e'.Curt := by
  cases h with
  | pending | argPending => exact curt_park ha _
  | uncallable | mismatch => exact curt_plan (by simp)
  | enter => exact curt_of_idle ha
  | site hv hargs hserved => exact hserved.curt ha

theorem Executed.curt {node : Node} (h : Executed host e t tok node e') (ha : e.agenda = []) :
    e'.Curt := by
  cases h with
  | loadPending | fieldPending => exact curt_park ha _
  | load | field | push | unwind | declare | ret => exact curt_of_idle ha
  | @fork left right =>
    exact curt_of_idle (Engine.spawnReady_agenda.trans ha)
  | subgoal hcap hs =>
    obtain ⟨-, -, -, he₁⟩ := spawn_eq_some hs
    refine curt_of_idle (Eq.trans ?_ ha)
    show agenda _ = _
    rw [he₁]
    rfl
  | call hcalled => exact hcalled.curt ha
  | @escape next reg =>
    intro x rest hagenda
    grind [Engine.plan]
  | _ => exact curt_plan (by simp)

end Steps

/-- A section that is aborted on its own account tells its cohorts last of all. -/
structure Resignations (past : History ω) (e : Engine (Logged ω)) : Prop where
  alone : ∀ {x rest txn grp}, e.agenda = .abort x :: rest → e.transactions.get? x = some txn →
    e.groups.get? txn.group = some grp → grp.killed = false → ∀ b ∈ rest, ∃ t, b = .killToken t
  bottom : ∀ {e₁ x}, e₁ ∈ past → e₁.Resigns x → ∃ upper lower, e.agenda = upper ++ lower ∧
    (∀ b ∈ lower, (∃ c s, b = .rollback c s ∧ s.id = x) ∨ ∃ t, b = .killToken t) ∧
    ∀ c s, .rollback c s ∈ upper → s.id ≠ x

namespace Resignations

variable {e e' : Engine (Logged ω)} {host : Host ω} {past : History ω} {a : Chore}

/-- Nobody is to be told yet. -/
theorem quiet (hagenda : ∀ c s, .rollback c s ∉ e'.agenda)
    (halone : ∀ {x rest}, e'.agenda = .abort x :: rest → ∀ b ∈ rest, ∃ t, b = .killToken t) :
    Resignations past e' where
  alone hagenda _ _ _ := halone hagenda
  bottom _ _ := ⟨e'.agenda, [], (append_nil _).symm, by simp, fun c s hm =>
    absurd hm (hagenda c s)⟩

/-- A chore keeps the rollbacks of a section that has resigned at the bottom of the agenda. -/
theorem perform (h : Resignations past (e.plan [a])) (hl : Ledger past (e.plan [a]))
    (hc : Coherent m (e.plan [a])) (he' : e.perform host.logged a = .ok e') :
    Resignations (past ++ [e.plan [a]]) e' := by
  obtain ⟨new, hagenda, hplans⟩ := perform_plans he'
  constructor
  · intro x rest txn' grp' htop hx' hg' hk'
    cases new with
    | nil =>
      have hhead : e.agenda.head? = some (.abort x) := by grind
      cases hc.urgent (.abort x) (mem_of_mem_head? hhead)
    | cons b new =>
      rw [hagenda] at htop
      obtain ⟨rfl, -⟩ := List.cons.inj htop
      -- it comes with killing its group
      cases hplans _ mem_cons_self with
      | @abort g grp _ hg hkind =>
        obtain ⟨txn, hx, hstays⟩ := perform_txn_from he' hx'
        have hgroup : txn.group = g := (hc.core.aligned.txn_group hg hkind).2 txn hx
        cases Engine.performed he' with
        | dead => cases append_left_eq_self.1 hagenda.symm
        | killGroup hg₀ => grind [Engine.plan, onGroup]
  · intro e₁ x he₁ hresigns
    rcases mem_append.1 he₁ with hold | hnow
    · obtain ⟨upper, lower, hsplit, hlower, hupper⟩ := h.bottom hold hresigns
      have hrolled : ∀ c s, .rollback c s ∈ new → s.id ≠ x := by
        rintro c s hm rfl
        cases hplans _ hm with
        | @rollback y txn hy =>
          -- it has been aborted already, so it is not aborted now
          rw [hc.core.scope_id hy] at hresigns
          have hstate := (hl.aborted hold hresigns.1).2.1 txn hy
          cases Engine.performed he' with
          | abortLate => grind [append_left_eq_self]
          | abort hy' hundecided => grind
      cases upper with
      | nil => grind [Engine.plan]
      | cons b upper => grind [Engine.plan]
    · cases mem_singleton.1 hnow
      obtain ⟨⟨txn, rest, htop, hx, hstate⟩, txn', grp, hx', hg, hk⟩ := hresigns
      cases hx.symm.trans hx'
      obtain ⟨rfl, -⟩ := List.cons.inj htop
      have hrest := h.alone rfl hx hg hk
      cases Engine.performed he' with
      | abortLate hlate =>
        have hdecided := hlate txn hx
        rcases hstate with hstate | hstate <;> simp [hstate] at hdecided
      | abort hx₀ =>
        cases hx.symm.trans hx₀
        refine ⟨[.killGroup txn.group], (txn.cohorts.map fun c => .rollback c txn.scope) ++ e.agenda,
          rfl, fun b hb => ?_, by simp⟩
        rcases mem_append.1 hb with hb | hb
        · obtain ⟨c, -, rfl⟩ := mem_map.1 hb
          exact .inl ⟨c, txn.scope, rfl, hc.core.scope_id hx⟩
        · exact .inr (hrest b hb)

theorem turn (h : Resignations past e) (hl : Ledger past e) (hc : Coherent m e)
    {p : Progress (Logged ω)} (hp : e.turn host.logged = .ok p) :
    Resignations (past ++ [e]) p.state := by
  have idle : p.state.agenda = [] → Resignations (past ++ [e]) p.state := fun ha =>
    quiet (by simp [ha]) (by simp [ha])
  cases turned hp with
  | chore he he' =>
    subst he
    exact h.perform hl hc he'
  | done ha | skip ha => exact idle ha
  | @step t tok ready node e' ha hh hready ht hphase hnode he' =>
    have hcore := hc.taken ha ready
    obtain ⟨mail, notices, hf⟩ := hc.footprint ha ht hphase he'
    refine quiet (fun c s hm => hf.follows _ hm) fun hagenda b hb => ?_
    rw [(executed hcore ht he').curt ha hagenda] at hb
    cases hb
  | @message message inbox ha hh hready hinbox =>
    have hreceived := received host.logged { e with inbox } message
    have hchores : ∀ b ∈ (Engine.receive host.logged { e with inbox } message).agenda,
        (∃ t, b = .killToken t) ∨ ∃ x, b = .abort x := fun b hb =>
      (receive_agenda message hb).resolve_left (by simp [ha])
    refine quiet (fun c s hm => ?_) fun {x rest} hagenda b hb => ?_
    · obtain ⟨_, heq⟩ | ⟨_, heq⟩ := hchores _ hm <;> cases heq
    · change (Engine.receive host.logged { e with inbox } message).agenda = _ at hagenda
      generalize Engine.receive host.logged { e with inbox } message = e' at hreceived hagenda
      cases hreceived with
      | terminate | late | publish | vetoedLate =>
        rw [show e.agenda = .abort x :: rest from hagenda] at ha
        cases ha
      | halt | fail => cases hagenda
      | @vetoed t tok => grind [Engine.plan]
  | idle ha => exact idle (Engine.idle_agenda.trans ha)

/-- When a section that was aborted on its own account tells its cohorts, nothing else is left. -/
theorem last (h : Resignations past e) {e₁ : Engine (Logged ω)} (he₁ : e₁ ∈ past)
    (hresigns : e₁.Resigns x) {s : Scope} {rest : List Chore}
    (htop : e.agenda = .rollback c s :: rest) (hs : s.id = x) :
    ∀ b ∈ e.agenda, (∃ c s, b = .rollback c s ∧ s.id = x) ∨ ∃ t, b = .killToken t := by
  obtain ⟨upper, lower, hsplit, hlower, hupper⟩ := h.bottom he₁ hresigns
  cases upper with
  | nil =>
    rw [hsplit]
    exact hlower
  | cons b upper => grind

end Resignations

/-! ## What is written down -/

section Log

variable {e e' : Engine (Logged ω)} {host : Host ω} {past : History ω} {a : Chore}

/-- What the next turn may write down. -/
def Engine.Writes (m : Charter) (e : Engine (Logged ω)) : Entry → Prop
  | .asked _ s _ => ∃ txn rest, e.agenda = .prepare s.id :: rest ∧
      e.transactions.get? s.id = some txn ∧ txn.state = .running
  | .confirmed c s => e.Commits s.id ∧ ∃ txn, e.transactions.get? s.id = some txn ∧ c ∈ txn.cohorts
  | .rolledBack c s => ∃ rest, e.agenda = .rollback c s :: rest
  | .transacted s _ => e.agenda = [] ∧ ∀ x ∈ s.lineage,
      (∃ txn, e.transactions.get? x = some txn ∧ txn.state = .running) ∧
        ∀ y ∈ m.lineage x, y ∈ s.lineage
  | .launched _ | .sent _ => True

/-- Whoever is asked is asked by a section that goes on to its votes. -/
theorem Engine.askVotes_log (host : Host ω) (scope : Scope) (vote : Token)
    (cohorts : List CohortId) :
    ∃ new, (askVotes host.logged scope vote e cohorts).world.log = e.world.log ++ new ∧
      ∀ a ∈ new, (∃ c t, a = .asked c scope t) ∨ ∃ message, a = .sent message := by
  refine askVotes_induct (P := fun e' : Engine (Logged ω) => ∃ new, e'.world.log =
    e.world.log ++ new ∧ ∀ a ∈ new, (∃ c t, a = .asked c scope t) ∨ ∃ message, a = .sent message)
    ?_ ⟨[], (append_nil _).symm, by simp⟩ cohorts
  rintro e₁ e₂ id c ⟨new, hlog, hnew⟩ hs
  obtain ⟨-, -, -, he₂⟩ := spawn_eq_some hs
  refine ⟨new ++ ([.asked c scope id] ++ (host.ready c scope id e₁.world.world).mail.map .sent),
    ?_, ?_⟩
  · rw [he₂]
    show e₁.world.log ++ [.asked c scope id] ++ _ = _
    rw [hlog]
    simp only [append_assoc]
  · grind

/-- A chore writes down only what it may. -/
theorem Engine.perform_writes (hc : Coherent m (e.plan [a]))
    (he' : e.perform host.logged a = .ok e') :
    ∃ new, e'.world.log = e.world.log ++ new ∧ ∀ b ∈ new, (e.plan [a]).Writes m b := by
  have same : e'.world.log = e.world.log →
      ∃ new, e'.world.log = e.world.log ++ new ∧ ∀ b ∈ new, (e.plan [a]).Writes m b :=
    fun hlog => ⟨[], hlog.trans (append_nil _).symm, by simp⟩
  cases performed he' with
  | @prepare x txn preg hx hstate =>
    obtain ⟨new, hlog, hnew⟩ := askVotes_log (e := e.openVotes x txn) host txn.scope
      (txn.vote x e.regions.next) txn.cohorts
    refine ⟨new, hlog, fun b hb => ?_⟩
    rcases hnew b hb with ⟨c, t, rfl⟩ | ⟨message, rfl⟩
    · refine ⟨txn, e.agenda, ?_, ?_, hstate⟩ <;> rw [hc.core.scope_id hx]
      · rfl
      · exact hx
    · exact trivial
  | @verify x txn hx hstate =>
    refine ⟨txn.cohorts.map fun c => .confirmed c txn.scope, ?_, fun b hb => ?_⟩
    · exact host.log_confirms txn.scope txn.cohorts e.world
    · obtain ⟨c, hmem, rfl⟩ := mem_map.1 hb
      have hid : txn.scope.id = x := hc.core.scope_id hx
      refine ⟨⟨txn, e.agenda, ?_, ?_, hstate⟩, txn, ?_, hmem⟩ <;> rw [hid]
      · rfl
      · exact hx
      · exact hx
  | @rollback c s =>
    refine ⟨[.rolledBack c s], rfl, fun b hb => ?_⟩
    cases mem_singleton.1 hb
    exact ⟨e.agenda, rfl⟩
  | quiesce => exact same (congrArg Logged.log (react_world _))
  | release => grind [spawnReady_world]
  | _ => exact same rfl

/-- So does a turn. -/
theorem Engine.turn_writes (hc : Coherent m e) (hs : Sections m e e.agenda.head?)
    {p : Progress (Logged ω)} (hp : e.turn host.logged = .ok p) :
    ∃ new, p.state.world.log = e.world.log ++ new ∧ ∀ a ∈ new, e.Writes m a := by
  have mail : ∀ mail : List Message, p.state.world.log = e.world.log ++ mail.map .sent →
      ∃ new, p.state.world.log = e.world.log ++ new ∧ ∀ a ∈ new, e.Writes m a := by
    refine fun mail hlog => ⟨_, hlog, fun a hm => ?_⟩
    obtain ⟨message, -, rfl⟩ := mem_map.1 hm
    exact trivial
  cases turned hp with
  | chore he he' =>
    subst he
    exact perform_writes hc he'
  | done | skip => exact mail [] (append_nil _).symm
  | @step t tok ready node e' ha hh hready ht hphase hnode he' =>
    rw [ha] at hs
    have hcore := hc.taken ha ready
    have htaken : Sections m (e.taken ready) none := hs.congr rfl rfl
    obtain ⟨mail, notices, hf⟩ := hc.footprint ha ht hphase he'
    obtain ⟨calls, hlog⟩ := hf.asks.log_eq
    refine ⟨_, hlog, fun a hm => ?_⟩
    simp only [mem_append, mem_map] at hm
    rcases hm with (⟨n, hn, rfl⟩ | ⟨_, -, rfl⟩) | ⟨_, -, rfl⟩
    · refine ⟨ha, fun x hx => ?_⟩
      rw [hcore.scopeOf_lineage (hf.asks.scope_eq hn)] at hx ⊢
      exact htaken.running hcore ha ht (by simp [hphase]) x hx
    · exact trivial
    · exact trivial
  | @message message inbox =>
    refine mail [] (Eq.trans ?_ (append_nil _).symm)
    have hreceived := received host.logged { e with inbox } message
    change (Engine.receive host.logged { e with inbox } message).world.log = _
    generalize Engine.receive host.logged { e with inbox } message = e' at hreceived
    cases hreceived <;> rfl
  | idle =>
    have hidled := e.idled host.logged
    generalize e.idle host.logged = p at hidled mail
    cases hidled with
    | stuck => exact mail [] (append_nil _).symm
    | await heffect =>
      obtain ⟨effect, -, rfl⟩ := Option.map_eq_some_iff.1 heffect
      exact mail effect.mail rfl
    | tick =>
      have hticked : e.dropDeadTimers.tick.world = e.world := wakeAll_world _
      refine mail (host.yield e.dropDeadTimers.tick.world.world).mail ?_
      show e.dropDeadTimers.tick.world.log ++ _ = _
      rw [hticked]

/-- The entry is a call of the cohort about the section. -/
def Entry.Involves (c : CohortId) (x : TxnId) (a : Entry) : Prop :=
  ∃ s, s.id = x ∧ ((∃ vote, a = .asked c s vote) ∨ a = .confirmed c s ∨ a = .rolledBack c s)

/-- A section that a cohort has been called about does not run any more. -/
theorem Ledger.not_running (h : Ledger past e) {a : Entry} (ha : a ∈ e.world.log)
    (hinvolves : a.Involves c x) (hx : e.transactions.get? x = some txn) :
    txn.state ≠ .running := by
  obtain ⟨s, rfl, ⟨vote, rfl⟩ | rfl | rfl⟩ := hinvolves
  · exact (h.asked ha).2 txn hx
  · obtain ⟨e₁, he₁, hcommits⟩ := h.confirmed ha
    rw [(h.committed he₁ hcommits).2.1 txn hx]
    simp
  · obtain ⟨e₁, he₁, haborts⟩ := h.rolledBack (.inl ha)
    rw [(h.aborted he₁ haborts).2.1 txn hx]
    simp

/-- Who takes part in a section that has been decided has been told, or is to be told of its abort. -/
theorem Decisions.told (h : Decisions past e) (hl : Ledger past e) (hc : Enlisted e.world.log c x)
    (hx : ¬e.Undecided x) :
    Told e.world.log c x ∨ ∃ e₁ ∈ past, e₁.Aborts x ∧ ∃ s, s.id = x ∧ .rollback c s ∈ e.agenda := by
  obtain ⟨s, cohorts, hm, hlineage, -⟩ := id hc
  obtain ⟨e₁, he₁, hcommits | haborts⟩ := (h.decided (hl.lineage hm hlineage).1).resolve_left hx
  · obtain ⟨s, hid, hm⟩ := (hl.committed he₁ hcommits).2.2 c hc
    exact .inl ⟨s, hid, .inl hm⟩
  · obtain ⟨s, hid, hm | hm⟩ := (hl.aborted he₁ haborts).2.2 c hc
    · exact .inl ⟨s, hid, .inr hm⟩
    · grind [mem_rollbacks]

end Log

/-! ## The order of the calls -/

/-- Why a cohort may hear of the section `p` before it hears the last of `x`, which is inside of it.
    It is asked for a vote when `x` has been aborted, and is still to be told so.  It is told of an
    abort that `p` has not started itself. -/
def Excuse (past : History ω) (before : List Entry) (x p : TxnId) : Entry → Prop
  | .asked _ _ _ => ∃ e₁ ∈ past, e₁.Aborts x ∧ e₁.world.log <+: before
  | .rolledBack _ _ => ∀ e₁ ∈ past, ¬e₁.Resigns p
  | _ => False

/-- A cohort hears the last of a section before it hears of one around it, or there is an excuse and
    the section is not committed. -/
structure Nested (m : Charter) (past : History ω) (e : Engine (Logged ω)) :
    Prop where
  lineage : ∀ {e₁ x txn}, e₁ ∈ past → e₁.transactions.get? x = some txn →
    x.index < e.transactions.next.index ∧ m.lineage x = txn.scope.lineage
  grown : ∀ {e₁}, e₁ ∈ past → e₁.world.log <+: e.world.log
  order : ∀ {before after a c x p}, e.world.log = before ++ a :: after → a.Involves c p →
    p ∈ m.lineage x → p ≠ x → Enlisted e.world.log c x →
    Told before c x ∨ Excuse past before x p a ∧ ∀ s, s.id = x → .confirmed c s ∉ e.world.log

theorem Told.mono {log log' : List Entry} (h : Told log c x) (hlog : log <+: log') :
    Told log' c x := by
  obtain ⟨s, hid, hm⟩ := h
  exact ⟨s, hid, hm.imp (hlog.subset ·) (hlog.subset ·)⟩

namespace Nested

variable {e : Engine (Logged ω)} {host : Host ω} {past : History ω} {c : CohortId}
  {a : Entry} {before : List Entry}

/-- A section that has been aborted leaves no undecided ones inside of it, as soon as nothing is to be
    killed. -/
theorem outer_dead (hl : Ledger past e) (hc : Coherent m e) (hs : Sections m e e.agenda.head?)
    (hkill : ∀ g, .killGroup g ∉ e.agenda)
    (htop : e.agenda.head? ≠ some (.abort x) ∧ e.agenda.head? ≠ some (.retire x))
    (haborted : ∃ e₁ ∈ past, e₁.Aborts p) (hp : p ∈ m.lineage x) (hne : p ≠ x) :
    ¬e.Undecided x := by
  intro hx
  obtain ⟨e₁, he₁, haborts⟩ := haborted
  obtain ⟨ptxn, grp, hptxn, hg, hk⟩ := hs.outer_alive hc hkill htop.1 htop.2 hx hp hne
  rcases hs.dead hptxn ((hl.aborted he₁ haborts).2.1 ptxn hptxn) with hdead | hkilled
  · rw [hdead grp hg] at hk
    cases hk
  · exact hkill _ (mem_of_mem_head? hkilled)

/-- A call that is made now comes after the last one about a section inside, or is excused. -/
theorem fresh (hcanvass : Canvass e) (hresign : Resignations past e) (hl : Ledger past e)
    (hd : Decisions past e) (hc : Coherent m e) (hs : Sections m e e.agenda.head?)
    (hgrown : ∀ {e₁}, e₁ ∈ past → e₁.world.log <+: before) (hwrites : e.Writes m a)
    (hinvolves : a.Involves c p) (hp : p ∈ m.lineage x) (hne : p ≠ x)
    (hx : Enlisted e.world.log c x) :
    Told e.world.log c x ∨ Excuse (past ++ [e]) before x p a ∧ ¬e.Commits x := by
  obtain ⟨s, rfl, ⟨vote, rfl⟩ | rfl | rfl⟩ := hinvolves
  · obtain ⟨txn, rest, htop, -⟩ := hwrites
    have hgone := hs.inner_gone hc (.inl (congrArg List.head? htop)) hp hne
    refine (hd.told hl hx fun ⟨_, hx, _⟩ => by simp [hgone] at hx).imp_right ?_
    rintro ⟨e₁, he₁, haborts, -⟩
    refine ⟨⟨e₁, mem_append_left _ he₁, haborts, hgrown he₁⟩, ?_⟩
    rintro ⟨_, _, hverify, -⟩
    rw [htop] at hverify
    cases hverify
  · obtain ⟨hcommits, txn, hptxn, hcohort⟩ := hwrites
    obtain ⟨q, r, hagenda⟩ := hcanvass.alone hc hs hcommits hptxn (ne_nil_of_mem hcohort)
    have hgone := hs.inner_gone hc (.inr (congrArg List.head? hagenda)) hp hne
    refine (hd.told hl hx fun ⟨_, hx, _⟩ => by simp [hgone] at hx).imp_right ?_
    grind
  · obtain ⟨rest, htop⟩ := hwrites
    by_cases hresigns : ∃ e₁ ∈ past, e₁.Resigns s.id
    · -- it tells its cohorts last of all, so those inside have been decided, and told
      obtain ⟨e₁, he₁, hresigns⟩ := hresigns
      have hlast := hresign.last he₁ hresigns htop rfl
      have hdecided : ¬e.Undecided x := by
        refine outer_dead hl hc hs (fun g hm => ?_) (by simp [htop]) ⟨e₁, he₁, hresigns.1⟩ hp hne
        grind
      grind [Decisions.told]
    · refine .inr ⟨fun e₁ he₁ => ?_, ?_⟩
      · rcases mem_append.1 he₁ with he₁ | he₁
        · grind
        · cases mem_singleton.1 he₁
          rintro ⟨⟨_, _, habort, -⟩, -⟩
          rw [htop] at habort
          cases habort
      · rintro ⟨_, _, hverify, -⟩
        rw [htop] at hverify
        cases hverify

/-- An excuse stays one, and the section inside is not committed after all. -/
theorem kept (h : Excuse past before x p a) (hcanvass : Canvass e) (hl : Ledger past e)
    (hc : Coherent m e) (hs : Sections m e e.agenda.head?) (ha : a ∈ e.world.log)
    (hinvolves : a.Involves c p) (hp : p ∈ m.lineage x) (hne : p ≠ x)
    (hx : Enlisted e.world.log c x) : Excuse (past ++ [e]) before x p a ∧ ¬e.Commits x := by
  obtain ⟨s, rfl, ⟨vote, rfl⟩ | rfl | rfl⟩ := hinvolves
  · obtain ⟨e₁, he₁, haborts, hbefore⟩ := h
    refine ⟨⟨e₁, mem_append_left _ he₁, haborts, hbefore⟩, ?_⟩
    rintro ⟨txn, _, -, htxn, hstate⟩
    exact hl.undecided htxn (.inr hstate) he₁ (.inr haborts)
  · cases h
  · have haborted := hl.rolledBack (.inl ha)
    refine ⟨fun e₁ he₁ => ?_, fun hcommits => ?_⟩
    · rcases mem_append.1 he₁ with he₁ | he₁
      · exact h e₁ he₁
      · cases mem_singleton.1 he₁
        rintro ⟨⟨txn, _, -, htxn, hstate⟩, -⟩
        obtain ⟨e₁, he₁, haborts⟩ := haborted
        exact hl.undecided htxn hstate he₁ (.inr haborts)
    · obtain ⟨txn, _, -, htxn, hstate⟩ := id hcommits
      have hcohorts := ne_nil_of_mem ((hl.enlisted htxn c).2 hx)
      obtain ⟨q, r, hagenda⟩ := hcanvass.alone hc hs hcommits htxn hcohorts
      refine outer_dead hl hc hs ?_ ?_ haborted hp hne ⟨txn, htxn, .inr hstate⟩
      · simp [hagenda]
      · simp [hagenda]

/-- A turn keeps the order in which a cohort hears of sections. -/
theorem turn (h : Nested m past e) (hcanvass : Canvass e) (hresign : Resignations past e)
    (hl : Ledger past e) (hd : Decisions past e) (hc : Coherent m e)
    (hs : Sections m e e.agenda.head?) {m' : Charter} {p : Progress (Logged ω)}
    (hext : m.Extends m' e.groups e.regions e.transactions)
    (hd' : Decisions (past ++ [e]) p.state) (hp : e.turn host.logged = .ok p) :
    Nested m' (past ++ [e]) p.state := by
  have hnext : e.transactions.next.index ≤ p.state.transactions.next.index := by
    rw [hd.next, hd'.next, countP_append]
    exact Nat.le_add_right ..
  obtain ⟨new, hlog, hwrites⟩ := turn_writes hc hs hp
  constructor
  · intro e₁ x txn he₁ hx
    rcases mem_append.1 he₁ with he₁ | he₁
    · obtain ⟨hknown, hlineage⟩ := h.lineage he₁ hx
      grind [Charter.Extends.lineage]
    · cases mem_singleton.1 he₁
      have hknown := Store.lt_next hx
      refine ⟨Nat.lt_of_lt_of_le hknown hnext, (hext.lineage hknown).trans ?_⟩
      exact (hc.core.aligned.scope hx).1.symm
  · intro e₁ he₁
    have hgrows : e.world.log <+: p.state.world.log := ⟨new, hlog.symm⟩
    rcases mem_append.1 he₁ with he₁ | he₁
    · exact (h.grown he₁).trans hgrows
    · grind
  · intro before after a c x q hsplit hinvolves hq hne hx
    -- a confirmation of a section that is not committed now is an old one
    have hconfirm : ¬e.Commits x → (∀ s, s.id = x → .confirmed c s ∉ e.world.log) →
        ∀ s, s.id = x → .confirmed c s ∉ p.state.world.log := by
      rintro hcommits hold s rfl hm
      rw [hlog] at hm
      rcases mem_append.1 hm with hm | hm
      · exact hold s rfl hm
      · exact hcommits (hwrites _ hm).1
    obtain ⟨s, cohorts, hm, hlineage, hcohort⟩ := hx
    rw [hlog] at hm hsplit
    rcases mem_append.1 hm with hm | hm
    · have hx : Enlisted e.world.log c x := ⟨s, cohorts, hm, hlineage, hcohort⟩
      rw [hext.lineage (hl.lineage hm hlineage).1] at hq
      rcases split_append hsplit with ⟨after', hold⟩ | ⟨hbefore, hfresh⟩
      · grind [order, kept]
      · by_cases htold : Told e.world.log c x
        · exact .inl (htold.mono hbefore)
        · obtain ⟨hexcuse, hcommits⟩ := (fresh hcanvass hresign hl hd hc hs
            (fun he₁ => (h.grown he₁).trans hbefore) (hwrites a hfresh) hinvolves hq hne
            hx).resolve_left htold
          exact .inr ⟨hexcuse, hconfirm hcommits fun s hid hm => htold ⟨s, hid, .inl hm⟩⟩
    · -- who enlists a cohort now runs, and so do the sections around, of which nobody has heard
      obtain ⟨hidle, hruns⟩ := hwrites _ hm
      obtain ⟨⟨txn, hx, -⟩, hsub⟩ := hruns x hlineage
      rw [hext.lineage (Store.lt_next hx)] at hq
      obtain ⟨⟨qtxn, hqtxn, hrunning⟩, -⟩ := hruns q (hsub q hq)
      rcases split_append hsplit with ⟨after', hold⟩ | ⟨-, hfresh⟩
      · have ha : a ∈ e.world.log := hold ▸ mem_append_right _ mem_cons_self
        grind [Ledger.not_running]
      · have hwritten := hwrites a hfresh
        obtain ⟨s', rfl, ⟨vote, rfl⟩ | rfl | rfl⟩ := hinvolves
        · obtain ⟨_, _, hagenda, -⟩ := hwritten
          rw [hidle] at hagenda
          cases hagenda
        · obtain ⟨⟨_, _, hagenda, -⟩, -⟩ := hwritten
          rw [hidle] at hagenda
          cases hagenda
        · obtain ⟨_, hagenda⟩ := hwritten
          rw [hidle] at hagenda
          cases hagenda

theorem arrive (h : Nested m past e) (message : Message) : Nested m past (e.deliver message) where
  lineage := h.lineage
  grown he₁ := (h.grown he₁).trans (prefix_append ..)
  order {before after a c x p} hsplit hinvolves hp hne hx := by
    obtain ⟨s, cohorts, hm, hlineage, hcohort⟩ := hx
    have hx : Enlisted e.world.log c x :=
      ⟨s, cohorts, by simpa [deliver] using hm, hlineage, hcohort⟩
    have hother : a ∉ [Entry.sent message] := by
      obtain ⟨s', -, ⟨vote, rfl⟩ | rfl | rfl⟩ := hinvolves <;> simp
    obtain ⟨after', hold⟩ := split_of_append hother hsplit
    grind [order, deliver]

end Nested

theorem Canvass.arrive {e : Engine (Logged ω)} (h : Canvass e) (message : Message) :
    Canvass (e.deliver message) := by
  intro x hx
  rcases h hx with hattended | hclosing
  · exact .inl ⟨hattended.undecided, hattended.votes, hattended.unretired⟩
  · exact .inr hclosing

section Runs

variable {host : Host ω} {program : Program} {limit : Option Nat} {world : ω}
  {past : History ω} {e : Engine (Logged ω)}

/-- In a polite run the calls are in order. -/
theorem Run.nested (h : Run host program limit world past e) (hpolite : Polite e.world.log) :
    ∃ m, Coherent m e ∧ Sections m e e.agenda.head? ∧ Canvass e ∧ Resignations past e ∧
      Nested m past e := by
  induction h with
  | start =>
    have hagenda : (opening program limit world).agenda = [] :=
      (opening_grown ..).agenda
    have hlog : (opening program limit world).world.log = [] := by
      rw [opening_world]
    have hc := Coherent.start program limit (⟨world, []⟩ : Logged ω)
    have hs := (Sections.start program limit (⟨world, []⟩ : Logged ω)).weaken
      (opening program limit world).agenda.head?
    refine ⟨_, hc, hs, .of_idle hc hs hagenda, .quiet (by simp [hagenda]) (by simp [hagenda]), ?_⟩
    refine ⟨nofun, nofun, fun hsplit => ?_⟩
    rw [hlog] at hsplit
    simp at hsplit
  | turn hrun hp ih =>
    have hbefore := hrun.polite hp hpolite
    obtain ⟨-, -, -, hl⟩ := hrun.sound hbefore
    obtain ⟨-, -, -, hl'⟩ := (hrun.turn hp).sound hpolite
    have hd := hrun.decisions hbefore
    obtain ⟨m, hc, hs, hcanvass, hresign, hnested⟩ := ih hbefore
    obtain ⟨m', hext, hc', hs'⟩ := hs.turn hc hp fun t reply tok hm ht hvoting =>
      hl.votes hbefore hm ht hvoting
    exact ⟨m', hc', hs', hcanvass.turn hl hd hc hs hc' hs' hl' hp, hresign.turn hl hc hp,
      hnested.turn hcanvass hresign hl hd hc hs hext ((hrun.turn hp).decisions hpolite) hp⟩
  | arrive _ message ih =>
    obtain ⟨m, hc, hs, hcanvass, hresign, hnested⟩ :=
      ih (hpolite.mono (prefix_append ..))
    exact ⟨m, { hc with core := hc.core.congr rfl },
      hs.congr rfl rfl, hcanvass.arrive message, ⟨hresign.alone, hresign.bottom⟩,
      hnested.arrive message⟩

end Runs

/-- In one of these states there is the section `x`, with `p` around it. -/
def Inside (states : List (Engine ω)) (x p : TxnId) : Prop :=
  p ≠ x ∧ ∃ e ∈ states, ∃ txn, e.transactions.get? x = some txn ∧ p ∈ txn.scope.lineage

theorem Inside.mem_lineage {past : History ω} {e : Engine (Logged ω)}
    (h : Inside (past ++ [e]) x p) (hc : Coherent m e) (hnested : Nested m past e) :
    p ∈ m.lineage x := by
  obtain ⟨-, e₁, he₁, txn, hx, hp⟩ := h
  rcases mem_append.1 he₁ with he₁ | he₁
  · rwa [(hnested.lineage he₁ hx).2]
  · cases mem_singleton.1 he₁
    rwa [← (hc.core.aligned.scope hx).1]

instance (states : List (Engine ω)) (x p : TxnId) : Decidable (Inside states x p) :=
  decidable_of_iff (p ≠ x ∧ states.any (fun e =>
      (e.transactions.get? x).any fun txn => txn.scope.lineage.contains p) = true) <| by
    grind [Option.any_eq_true, Inside]

section Entries

variable {c : CohortId} {a : Entry}

theorem Entry.asks_iff : a.asks c x = true ↔ ∃ s vote, s.id = x ∧ a = .asked c s vote := by
  cases a <;> simp [Entry.asks, and_comm]

theorem Entry.confirms_iff : a.confirms c x = true ↔ ∃ s, s.id = x ∧ a = .confirmed c s := by
  cases a <;> simp [Entry.confirms, and_comm]

theorem Entry.rollsBack_iff : a.rollsBack c x = true ↔ ∃ s, s.id = x ∧ a = .rolledBack c s := by
  cases a <;> simp [Entry.rollsBack, and_comm]

end Entries

instance (log : List Entry) (c : CohortId) (x : TxnId) : Decidable (Told log c x) :=
  decidable_of_iff (∃ a ∈ log, a.confirms c x = true ∨ a.rollsBack c x = true) <| by
    constructor
    · rintro ⟨a, hm, ha | ha⟩
      · obtain ⟨s, hid, rfl⟩ := Entry.confirms_iff.1 ha
        exact ⟨s, hid, .inl hm⟩
      · obtain ⟨s, hid, rfl⟩ := Entry.rollsBack_iff.1 ha
        exact ⟨s, hid, .inr hm⟩
    · rintro ⟨s, hid, hm | hm⟩
      · grind [Entry.confirms_iff]
      · grind [Entry.rollsBack_iff]

/-- The entry enlists the cohort for the section. -/
def Entry.enlists (c : CohortId) (x : TxnId) : Entry → Bool
  | .transacted s cohorts => x ∈ s.lineage && c ∈ cohorts
  | _ => false

instance (log : List Entry) (c : CohortId) (x : TxnId) : Decidable (Enlisted log c x) :=
  decidable_of_iff (∃ a ∈ log, a.enlists c x = true) <| by
    constructor
    · rintro ⟨a, hm, ha⟩
      cases a <;> simp [Entry.enlists] at ha
      exact ⟨_, _, hm, ha.1, ha.2⟩
    · rintro ⟨s, cohorts, hm, hx, hc⟩
      grind [Entry.enlists]

/-- In every run a cohort that takes part in a section `x`, and so in a section `p` around it, hears
    the last of `x` before it is told that `p` has been committed.  It does so before it is asked for
    its vote on `p`, unless `x` has been aborted by then; and before it is told that `p` has been
    aborted, unless the group of `p` had been killed, with a scope around `p`, when `p` was aborted.
    Then it is never told that `x` has been committed.  And when nothing is left to do, who has heard
    of `p` has heard the last of `x`. -/
theorem callbacks_nested (host : Host ω) (program : Program) (limit : Option Nat) (world : ω)
    {past : List (Engine (Logged ω))} {e : Engine (Logged ω)}
    (h : Run host program limit world past e) (hpolite : Polite e.world.log) {c : CohortId}
    (hinside : Inside (past ++ [e]) x p) (hx : Enlisted e.world.log c x) :
    (∀ {before after s}, e.world.log = before ++ .confirmed c s :: after → s.id = p →
      Told before c x) ∧
    (∀ {before after s vote}, e.world.log = before ++ .asked c s vote :: after → s.id = p →
      Told before c x ∨ (∃ e₁ ∈ past, e₁.Aborts x ∧ e₁.world.log <+: before) ∧
        ∀ s, s.id = x → .confirmed c s ∉ e.world.log) ∧
    (∀ {before after s}, e.world.log = before ++ .rolledBack c s :: after → s.id = p →
      Told before c x ∨ (∀ e₁ ∈ past, ¬e₁.Resigns p) ∧
        ∀ s, s.id = x → .confirmed c s ∉ e.world.log) ∧
    (e.agenda = [] → (∃ a ∈ e.world.log, a.Involves c p) → Told e.world.log c x) := by
  obtain ⟨m, hc, hs, -, -, hnested⟩ := h.nested hpolite
  obtain ⟨-, -, -, hl⟩ := h.sound hpolite
  have hd := h.decisions hpolite
  have hp := hinside.mem_lineage hc hnested
  have hne := hinside.1
  refine ⟨fun hsplit hid => ?_, fun hsplit hid => ?_, fun hsplit hid => ?_, fun ha hheard => ?_⟩
  · exact (hnested.order hsplit ⟨_, hid, .inr (.inl rfl)⟩ hp hne hx).resolve_right (·.1)
  · exact hnested.order hsplit ⟨_, hid, .inl ⟨_, rfl⟩⟩ hp hne hx
  · exact hnested.order hsplit ⟨_, hid, .inr (.inr rfl)⟩ hp hne hx
  · obtain ⟨a, hm, hinvolves⟩ := hheard
    obtain ⟨before, after, hsplit⟩ := append_of_mem hm
    rcases hnested.order hsplit hinvolves hp hne hx with htold | ⟨hexcuse, -⟩
    · exact htold.mono ⟨_, hsplit.symm⟩
    · refine (hd.told hl hx fun hundecided => ?_).resolve_right ?_
      · obtain ⟨s, rfl, ⟨vote, rfl⟩ | rfl | rfl⟩ := hinvolves
        · obtain ⟨txn, hx, hstate⟩ := hundecided
          obtain ⟨e₁, he₁, haborts, -⟩ := hexcuse
          exact hl.undecided hx hstate he₁ (.inr haborts)
        · exact hexcuse
        · exact Nested.outer_dead hl hc hs (by simp [ha]) (by simp [ha]) (hl.rolledBack (.inl hm)) hp
            hne hundecided
      · rintro ⟨e₁, -, -, s, -, hpending⟩
        simp [ha] at hpending

/-- A site that a cohort takes part through, one that has the section aborted too, and one that takes
    its time. -/
def Registry.quits : Registry :=
  ⟨[⟨"touch", 0, .transactional⟩, ⟨"quit", 1, .transactional⟩, ⟨"echo", 2, .threaded⟩]⟩

def Host.quits : Host Unit :=
  { Host.echo with
    transact := fun site args _ _ =>
      ⟨{ reply := args.head?.elim .halt .publish, enlisted := [⟨0⟩], abort := site.ident == 1 },
        (), []⟩ }

/-- A section aborts itself, and nothing else is in the one around it, `atomic (atomic (quit()))`. -/
def Expr.quits : Expr := .atomic (.atomic (.call (.site "quit") [] .none))

/-- Two sections end when a value is found beside them,
    `x <x< (echo(7) | atomic (atomic (touch(1) >> echo(7))))`. -/
def Expr.overtaken : Expr :=
  .pruning (.value (.variable 0))
    (.parallel (.call (.site "echo") [.literal (.int 7)] .none)
      (.atomic (.atomic (.sequential (.call (.site "touch") [.literal (.int 1)] .none)
        (.call (.site "echo") [.literal (.int 7)] .none)))))

/-- Some turns lead to a log with an entry of a kind, after entries that pass a check; by then the
    cohort takes part in two sections, one inside the other. -/
def Run.Splits (program : Program) (n k : Nat) (kind : Entry → Bool) (check : List Entry → Bool) :
    Bool :=
  ((Engine.opening program none ()).trace Host.quits.logged n).any fun (past, e) =>
    decide (Polite e.world.log) && decide (Inside (past ++ [e]) ⟨1⟩ ⟨0⟩) &&
    decide (Enlisted e.world.log ⟨0⟩ ⟨1⟩) && (e.world.log[k]?).any kind && check (e.world.log.take k)

theorem split_at {α : Type} {l : List α} {k : Nat} {kind : α → Bool}
    (h : (l[k]?).any kind = true) : ∃ a, l = l.take k ++ a :: l.drop (k + 1) ∧ kind a = true := by
  grind [Option.any_eq_true, drop_eq_getElem_cons, take_append_drop]

theorem Run.of_splits {program : Program} {n k : Nat} {kind : Entry → Bool}
    {check : List Entry → Bool} (h : Run.Splits program n k kind check = true) :
    ∃ past e before after a, Run Host.quits program none () past e ∧ Polite e.world.log ∧
      Inside (past ++ [e]) ⟨1⟩ ⟨0⟩ ∧ Enlisted e.world.log ⟨0⟩ ⟨1⟩ ∧
      e.world.log = before ++ a :: after ∧ kind a = true ∧ check before = true := by
  obtain ⟨⟨past, e⟩, htrace, hcheck⟩ := Option.any_eq_true .. |>.1 h
  simp only [Bool.and_eq_true, decide_eq_true_eq] at hcheck
  obtain ⟨⟨⟨⟨hpolite, hinside⟩, henlisted⟩, hkind⟩, hcheck⟩ := hcheck
  obtain ⟨a, hsplit, ha⟩ := split_at hkind
  have hrun := Run.start.trace htrace
  grind

/-- Once the section inside has been aborted, the one around it goes on to its votes, and then it is
    committed; the cohort hears of the abort in between. -/
theorem callbacks_nested_quits : ∃ p past e, Expr.quits.compile Registry.quits = .ok p ∧
    Run Host.quits p none () past e ∧ Polite e.world.log ∧ Inside (past ++ [e]) ⟨1⟩ ⟨0⟩ ∧
      Enlisted e.world.log ⟨0⟩ ⟨1⟩ ∧
      (∃ before after s, e.world.log = before ++ .confirmed ⟨0⟩ s :: after ∧ s.id = ⟨0⟩ ∧
        Told before ⟨0⟩ ⟨1⟩) ∧
      ∃ before after s vote, e.world.log = before ++ .asked ⟨0⟩ s vote :: after ∧ s.id = ⟨0⟩ ∧
        (∃ e₁ ∈ past, e₁.Aborts ⟨1⟩ ∧ e₁.world.log <+: before) ∧
          ∀ s, s.id = ⟨1⟩ → .confirmed ⟨0⟩ s ∉ e.world.log := by
  obtain ⟨p, hp, hsplits⟩ : ∃ p, Expr.quits.compile Registry.quits = .ok p ∧
      Run.Splits p 30 4 (Entry.confirms ⟨0⟩ ⟨0⟩) (fun before =>
        (before[1]?).any (Entry.asks ⟨0⟩ ⟨0⟩) && !decide (Told (before.take 1) ⟨0⟩ ⟨1⟩)) = true :=
    ⟨_, rfl, by decide +kernel⟩
  obtain ⟨past, e, before, after, a, hrun, hpolite, hinside, henlisted, hlog, ha, hbefore⟩ :=
    Run.of_splits hsplits
  simp only [Bool.and_eq_true, Bool.not_eq_true', decide_eq_false_iff_not] at hbefore
  obtain ⟨hconfirm, hready, -⟩ :=
    callbacks_nested Host.quits p none () hrun hpolite hinside henlisted
  refine ⟨p, past, e, hp, hrun, hpolite, hinside, henlisted, ?_, ?_⟩
  · obtain ⟨s, hid, rfl⟩ := Entry.confirms_iff.1 ha
    exact ⟨before, after, s, hlog, hid, hconfirm hlog hid⟩
  · obtain ⟨b, hsplit, hasks⟩ := split_at hbefore.1
    obtain ⟨s, vote, hid, rfl⟩ := Entry.asks_iff.1 hasks
    rw [hsplit, append_assoc, cons_append] at hlog
    exact ⟨_, _, s, vote, hlog, hid, (hready hlog hid).resolve_left hbefore.2⟩

/-- In a run of the expression a cohort that takes part in a section and in the one around it is
    called about the outer one, with an entry of some kind, before it hears the last of the inner. -/
def Expr.CallsOuterFirst (x : Expr) (kind : Entry → Bool) : Prop :=
  ∃ p past e before after a, x.compile Registry.quits = .ok p ∧
    Run Host.quits p none () past e ∧ Polite e.world.log ∧ Inside (past ++ [e]) ⟨1⟩ ⟨0⟩ ∧
    Enlisted e.world.log ⟨0⟩ ⟨1⟩ ∧ e.world.log = before ++ a :: after ∧ kind a = true ∧
    ¬Told before ⟨0⟩ ⟨1⟩

theorem Expr.CallsOuterFirst.of_splits {x : Expr} {kind : Entry → Bool} {n k : Nat}
    (h : ∃ p, x.compile Registry.quits = .ok p ∧
      Run.Splits p n k kind (fun before => !decide (Told before ⟨0⟩ ⟨1⟩)) = true) :
    x.CallsOuterFirst kind := by
  obtain ⟨p, hp, hsplits⟩ := h
  obtain ⟨past, e, before, after, a, hrun, hpolite, hinside, henlisted, hlog, ha, hbefore⟩ :=
    Run.of_splits hsplits
  exact ⟨p, past, e, before, after, a, hp, hrun, hpolite, hinside, henlisted, hlog, ha, by
    simpa using hbefore⟩

/-- What a cohort is asked about two sections, and what it is told of them, may come in the wrong
    order: the section around comes first. -/
theorem outer_called_first : Expr.quits.CallsOuterFirst (Entry.asks ⟨0⟩ ⟨0⟩) ∧
    Expr.overtaken.CallsOuterFirst (Entry.rollsBack ⟨0⟩ ⟨0⟩) :=
  ⟨.of_splits (n := 30) (k := 1) ⟨_, rfl, by decide +kernel⟩,
    .of_splits (n := 25) (k := 5) ⟨_, rfl, by decide +kernel⟩⟩

end Orchestra
