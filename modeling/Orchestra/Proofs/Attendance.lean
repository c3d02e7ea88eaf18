/-
  Attendance: a transaction with cohorts is not committed behind their backs.

  While others go, the body of a transaction may be done and its cohorts may be asked for their
  votes.  As long as no message is taken none of these votes is in, and the tokens that stand for them
  end with the transaction only, after it was aborted.  So a transaction that is committed before the
  next message has no cohorts (`Attended.commit`).
-/
import Orchestra.Proofs.Spared

namespace Orchestra

open Engine List

variable {ω : Type} {m : Charter} {host : Host ω} {past : History ω}
  {e e' : Engine (Logged ω)} {a : Chore} {x : TxnId} {txn : Transaction} {tok : Token} {v : TokenId}

/-! ## Chores and transactions -/

/-- The chore is one of those that change the transaction `x`. -/
def Chore.concerns (x : TxnId) : Chore → Bool
  | .prepare y | .verify y | .retire y | .abort y => y = x
  | _ => false

theorem Engine.react_transactions {e : Engine ω} (kind : RegionKind) :
    (e.react kind).transactions = e.transactions := by
  obtain ⟨_, _, hgrown⟩ := e.react_grown kind
  exact hgrown.transactions

/-- All other chores leave the transaction as it is.  When one inside of it is committed, the
    cohorts that it takes over are known to it already. -/
theorem Ledger.txn_kept (h : Ledger past (e.plan [a])) (hc : Coherent m (e.plan [a]))
    (he' : e.perform host.logged a = .ok e') (ha : a.concerns x = false) :
    e'.transactions.get? x = e.transactions.get? x := by
  have hcore := hc.core
  cases Engine.performed he' with
  | quiesce => rw [react_transactions]; rfl
  | release => rw [(spawnReady_grown ..).transactions]
  | @prepare y txn =>
    have hne : x ≠ y := by
      rintro rfl
      exact absurd ha (by simp [Chore.concerns])
    show (Engine.askVotes _ _ _ (e.openVotes y txn) _).transactions.get? x = _
    rw [(askVotes_grown ..).transactions]
    show (e.transactions.modify y _).get? x = _
    rw [Store.get?_modify, if_neg hne]
  | @verify y txn hy hstate =>
    have hne : x ≠ y := by
      rintro rfl
      exact absurd ha (by simp [Chore.concerns])
    have hdone : ∀ f, (e.transactions.modify y f).get? x = e.transactions.get? x := fun f => by
      rw [Store.get?_modify, if_neg hne]
    show (e.committed host.logged y txn).transactions.get? x = _
    unfold Engine.committed
    dsimp only
    split
    · rename_i p hp
      rw [Store.get?_modify, hdone]
      split
      · subst x
        cases hx : e.transactions.get? p with
        | none => rfl
        | some ptxn =>
          exact congrArg some (Transaction.enlist_of_subset (h.parent_knows hcore hy hp hx))
      · rfl
    · exact hdone _
  | @retire y =>
    have hne : x ≠ y := by
      rintro rfl
      exact absurd ha (by simp [Chore.concerns])
    show (e.transactions.remove y).get? x = _
    rw [Store.get?_remove, if_neg hne]
  | @abort y =>
    have hne : x ≠ y := by
      rintro rfl
      exact absurd ha (by simp [Chore.concerns])
    show (e.transactions.modify y _).get? x = _
    rw [Store.get?_modify, if_neg hne]
  | _ => rfl

/-! ## Votes that stand -/

/-- A vote on the transaction `x` that is not in, and is not to end. -/
def Engine.Standing (e : Engine ω) (x : TxnId) (v : TokenId) (tok : Token) : Prop :=
  e.tokens.get? v = some tok ∧ tok.phase = .voting ∧ tok.txn = some x ∧ .killToken v ∉ e.agenda

/-- The transaction `x` is undecided, and if its cohorts have been asked one of their votes stands. -/
structure Attended (e : Engine ω) (x : TxnId) : Prop where
  undecided : ∃ txn, e.transactions.get? x = some txn ∧
    (txn.state = .running ∨ txn.state = .readying)
  votes : ∀ {txn}, e.transactions.get? x = some txn → txn.state = .readying → txn.cohorts ≠ [] →
    (∃ v tok, e.Standing x v tok) ∨ e.agenda.head? = some (.abort x)
  unretired : e.agenda.head? ≠ some (.retire x)

/-- A vote stands in the region of the votes, for the group of the transaction. -/
theorem Sections.voter {top : Option Chore} {empty : Option RegionId} (h : Sections m e top)
    (hcore : Core m e empty) (ht : e.tokens.get? v = some tok) (hphase : tok.phase = .voting)
    (hx : tok.txn = some x) :
    (∃ reg, e.regions.get? tok.region = some reg ∧ reg.kind = .votes x) ∧
      ∃ txn, e.transactions.get? x = some txn ∧ tok.group = txn.group := by
  obtain ⟨reg, y, hr, hkind⟩ := h.voting ht hphase
  cases (hcore.voter_txn ht hr hkind).symm.trans hx
  obtain ⟨txn, hx, -, hgroup, -⟩ := hcore.aligned.atomic hr (.inr hkind)
  exact ⟨⟨reg, hr, hkind⟩, txn, hx, (hcore.aligned.token ht).1.symm.trans hgroup⟩

namespace Attended

/-- With nothing to do, every transaction is undecided, and the votes are not all in. -/
theorem of_idle (hcore : Core m e none) (hs : Sections m e none) (ha : e.agenda = [])
    (hx : e.transactions.get? x = some txn) : Attended e x := by
  obtain ⟨r, reg, hr, hkind⟩ := (hs.placed hx).resolve_right (by simp)
  obtain ⟨txn', hx', -, hgroup, htxn⟩ := hcore.aligned.atomic hr hkind
  cases hx.symm.trans hx'
  have halive : txn.state ≠ .aborted := by grind [Core.region_alive, Sections.dead]
  refine ⟨⟨txn, hx, ?_⟩, ?_, by simp [ha]⟩
  · grind [Sections.body, Sections.votes]
  · intro txn' hx' hstate _
    cases hx.symm.trans hx'
    have hkind : reg.kind = .votes x := by grind [Sections.body]
    -- something is left in the region of the votes, and no region stands in it
    have hlive : 0 < reg.live := (hcore.census.lively hr).resolve_right (by simp)
    rw [hcore.census.live_eq hr] at hlive
    have hchildren : reg.children = [] := by
      rw [eq_nil_iff_forall_not_mem]
      intro c hc
      rcases hcore.census.child_of hr hc with ⟨creg, hcreg, hp⟩ | hpending
      · exact hs.parent hcreg hp hr hkind
      · rw [ha] at hpending
        cases hpending
    obtain ⟨v, hv⟩ : ∃ v, v ∈ reg.tokens := by
      rw [hchildren] at hlive
      exact exists_mem_of_length_pos hlive
    obtain ⟨tok, ht, rfl⟩ := hcore.census.token_of hr hv
    exact .inl ⟨v, tok, ht, hs.polled ht hr hkind, hcore.voter_txn ht hr hkind, by simp [ha]⟩

/-- A transaction that is about to be committed has no cohorts. -/
theorem commit (h : Attended (e.plan [.verify x]) x) (hc : Coherent m (e.plan [.verify x]))
    (hs : Sections m (e.plan [.verify x]) (some (.verify x)))
    (hx : e.transactions.get? x = some txn) (hstate : txn.state = .readying) :
    txn.cohorts = [] := by
  by_contra hcohorts
  rcases h.votes hx hstate hcohorts with ⟨v, tok, ht, hphase, htxn, -⟩ | htop
  · obtain ⟨⟨reg, hr, hkind⟩, -⟩ := hs.voter hc.core ht hphase htxn
    exact hc.cleared (.inr (.inl mem_cons_self)) hr (.inr hkind)
  · cases htop

/-- A vote that stands is ended by no chore, and none plans to unless it kills the group of the
    transaction, which is aborted first. -/
theorem standing (hc : Coherent m (e.plan [a])) (hs : Sections m (e.plan [a]) (some a))
    (he' : e.perform host.logged a = .ok e') (h : (e.plan [a]).Standing x v tok) :
    (∃ tok', e'.Standing x v tok') ∨ e'.agenda.head? = some (.abort x) := by
  obtain ⟨ht, hphase, htxn, hspared⟩ := h
  have ht : e.tokens.get? v = some tok := ht
  have hvote : ∃ tok', e'.tokens.get? v = some tok' ∧ tok'.phase = .voting ∧ tok'.txn = some x := by
    obtain ⟨tok', ht'⟩ := perform_kept he' ht fun heq => hspared (heq ▸ mem_cons_self)
    rcases perform_old he' (Store.lt_next ht) ht' with hsame | ⟨tok₀, ht₀, hchange⟩
    · cases ht.symm.trans hsame
      exact ⟨tok, ht', hphase, htxn⟩
    · cases ht.symm.trans ht₀
      rcases hchange with ⟨rfl, -⟩ | ⟨n, -, rfl⟩
      · exact absurd hphase ((hs.wake mem_cons_self).2 ht)
      · exact ⟨_, ht', hphase, htxn⟩
  obtain ⟨tok', ht', hphase', htxn'⟩ := hvote
  obtain ⟨new, hnew, hplans⟩ := perform_plans he'
  by_cases hm : .killToken v ∈ e'.agenda
  · right
    have hm : .killToken v ∈ new := by
      rw [hnew] at hm
      exact (mem_append.1 hm).resolve_right fun hm => hspared (mem_cons_of_mem _ hm)
    cases hplans _ hm with
    | closed hv =>
      rw [(hs.closing mem_cons_self).1] at hv
      cases hv
    | @member g grp _ hg hk hv =>
      rcases hv with hv | hv
      · -- it is a member of the group that is killed, and that is the group of the transaction
        obtain ⟨tok₀, ht₀, rfl⟩ := hc.core.kinship.member_of hg hv
        cases ht.symm.trans ht₀
        obtain ⟨-, txn, hx, hgroup⟩ := hs.voter hc.core ht hphase htxn
        have hkind := (hc.core.aligned.transaction hx).2.2.2.2 grp (hgroup ▸ hg)
        cases Engine.performed he' with
        | dead hdead =>
          rw [hdead grp hg] at hk
          cases hk
        | killGroup hg' =>
          cases hg.symm.trans hg'
          show (abortFor grp.kind ++ _ ++ _ ++ e.agenda).head? = _
          rw [hkind]
          rfl
      · unfold orphans at hv
        split at hv
        · rename_i hkind
          split at hv
          · exact absurd hphase ((hs.waiter hg hkind hv).2 ht)
          · cases hv
        · cases hv
  · exact .inl ⟨tok', ht', hphase', htxn', hm⟩

/-- When the cohorts have been asked, their votes stand. -/
theorem prepare (hc : Coherent m (e.plan [.prepare x]))
    (hs : Sections m (e.plan [.prepare x]) (some (.prepare x)))
    (hl : Ledger past (e.plan [.prepare x])) (he' : e.perform host.logged (.prepare x) = .ok e')
    (hx : e.transactions.get? x = some txn) (hstate : txn.state = .running) : Attended e' x := by
  cases Engine.performed he' with
  | unprepared hgone =>
    rw [hx] at hgone
    cases hgone
  | prepareLate hx' hlate =>
    cases hx.symm.trans hx'
    exact absurd hstate hlate
  | @prepare _ _ preg hx' _ hp =>
    cases hx.symm.trans hx'
    obtain ⟨grp, hg, hk⟩ := (hs.alive hx (.inl hstate)).resolve_right (by simp)
    obtain ⟨new, hpolled⟩ := askVotes_polled (e := e.openVotes x txn) host txn.scope
      (txn.vote x e.regions.next) txn.cohorts hg hk (Store.get?_next_insert_modify hp ..) rfl
    have hreadying : ((e.openVotes x txn).askVotes host.logged txn.scope
        (txn.vote x e.regions.next) txn.cohorts).transactions.get? x =
          some { txn with state := .readying } := by
      rw [hpolled.transactions]
      show (e.transactions.modify x _).get? x = _
      rw [Store.get?_modify, if_pos rfl, hx]
      rfl
    refine ⟨⟨_, hreadying, .inr rfl⟩, ?_, by simp [Engine.plan]⟩
    intro txn' hx' _ hcohorts
    cases hreadying.symm.trans hx'
    obtain ⟨c, hmem⟩ := exists_mem_of_ne_nil _ hcohorts
    obtain ⟨v, -, hv⟩ := hpolled.all c hmem
    refine .inl ⟨v, _, hv, rfl, rfl, ?_⟩
    -- the token is new, so nobody can have planned to end it
    have hnew : e.tokens.next.index ≤ v.index := by
      rcases hpolled.fresh hv with hold | ⟨hnew, -⟩
      · obtain ⟨reg, hr, -⟩ := hc.core.census.region_of hold
        have hnone : e.regions.get? e.regions.next = none := Store.get?_next _
        rw [show e.regions.get? e.regions.next = some reg from hr] at hnone
        cases hnone
      · exact hnew
    intro hm
    have hm : .killToken v ∈ e.agenda := by
      rw [Engine.polled, Engine.plan, hpolled.agenda] at hm
      exact (mem_cons.1 hm).resolve_left (by simp)
    have hold := (hl.dismissed (mem_cons_of_mem _ hm)).1
    exact absurd hold (Nat.not_lt.2 hnew)

/-- A chore leaves a transaction attended, unless it decides it. -/
theorem perform (h : Attended (e.plan [a]) x) (hc : Coherent m (e.plan [a]))
    (hs : Sections m (e.plan [a]) (some a)) (hl : Ledger past (e.plan [a]))
    (he' : e.perform host.logged a = .ok e') :
    Attended e' x ∨ (e.plan [a]).Aborts x ∨ (e.plan [a]).Commits x := by
  obtain ⟨txn, hx, hstate⟩ := h.undecided
  cases hconcerns : a.concerns x with
  | false =>
    have hsame := hl.txn_kept hc he' hconcerns
    refine .inl ⟨⟨txn, hsame.trans hx, hstate⟩, ?_, ?_⟩
    · intro txn' hx' hreadying hcohorts
      rcases h.votes (hsame.symm.trans hx') hreadying hcohorts with ⟨v, tok, hv⟩ | htop
      · rcases standing hc hs he' hv with ⟨tok', hv'⟩ | htop
        · exact .inl ⟨v, tok', hv'⟩
        · exact .inr htop
      · cases htop
        exact absurd hconcerns (by simp [Chore.concerns])
    · intro htop
      obtain ⟨new, hnew, hplans⟩ := perform_plans he'
      rw [hnew] at htop
      cases new with
      | nil =>
        have hcalm := hc.urgent (.retire x) (mem_of_mem_head? htop)
        cases hcalm
      | cons b new =>
        cases htop
        cases hplans _ mem_cons_self with
        | late | retire => exact absurd hconcerns (by simp [Chore.concerns])
  | true =>
    unfold Chore.concerns at hconcerns
    split at hconcerns
    · cases of_decide_eq_true hconcerns
      refine .inl (prepare hc hs hl he' hx ?_)
      rcases hs.prepare mem_cons_self hx with hrunning | haborted
      · exact hrunning
      · grind
    · cases of_decide_eq_true hconcerns
      refine .inr (.inr ⟨txn, e.agenda, rfl, hx, ?_⟩)
      rcases hs.verify mem_cons_self hx with hreadying | haborted
      · exact hreadying
      · grind
    · cases of_decide_eq_true hconcerns
      exact absurd rfl h.unretired
    · cases of_decide_eq_true hconcerns
      exact .inr (.inl ⟨txn, e.agenda, rfl, hx, hstate⟩)
    · cases hconcerns

end Attended

end Orchestra
