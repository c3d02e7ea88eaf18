/-
  The ledger: what the cohorts of a run get to see.

  A cohort knows a transaction only through the host: it takes part when a transactional site says
  so, is asked for its vote, and is told how it ended.  `Host.logged` is a host that writes all of
  this down, together with every message, and otherwise does what the host it is made from does.

  `Ledger` says how the log, the states that the run has been through and the present state agree.
  A state DECIDES a transaction if the chore on top commits or aborts it.  The clauses follow a
  transaction from the first cohort that takes part to the last one that is told.
-/
import Orchestra.Proofs.Stages

namespace Orchestra

open List

variable {ω : Type} {c : CohortId} {x : TxnId} {α : Type}

/-! ## A host that keeps a log -/

/-- What is written down of a run. -/
inductive Entry where
  /-- A transactional site was called in a scope, and these cohorts take part from then on. -/
  | transacted (scope : Scope) (cohorts : List CohortId)
  /-- A cohort was asked for its vote, to be sent for the given token. -/
  | asked (cohort : CohortId) (scope : Scope) (vote : TokenId)
  /-- A worker has taken the call of a threaded site for a token. -/
  | launched (token : TokenId)
  /-- A message is on its way to the engine. -/
  | sent (message : Message)
  | confirmed (cohort : CohortId) (scope : Scope)
  | rolledBack (cohort : CohortId) (scope : Scope)

/-- A world together with what was written down so far, the oldest first. -/
structure Logged (ω : Type) where
  world : ω
  log : List Entry := []

/-- The effect of a call that is written down. -/
def Effect.logged {ρ : Type} (effect : Effect ω ρ) (log : List Entry) : Effect (Logged ω) ρ where
  answer := effect.answer
  world := ⟨effect.world, log ++ effect.mail.map .sent⟩
  mail := effect.mail

/-- The host that answers like `h` and writes down what concerns transactions, and who is to be
    answered. -/
def Host.logged (h : Host ω) : Host (Logged ω) where
  call site args w := (h.call site args w.world).logged w.log
  launch site args t w :=
    let effect := h.launch site args t w.world
    effect.logged (w.log ++ if effect.answer then [.launched t] else [])
  transact site args scope w :=
    let effect := h.transact site args scope w.world
    effect.logged (w.log ++ (scope.map fun s => .transacted s effect.answer.enlisted).toList)
  ready c s t w := (h.ready c s t w.world).logged (w.log ++ [.asked c s t])
  confirm c s w := ⟨h.confirm c s w.world, w.log ++ [.confirmed c s]⟩
  rollback c s w := ⟨h.rollback c s w.world, w.log ++ [.rolledBack c s]⟩
  publish p w := ⟨h.publish p w.world, w.log⟩
  report f w := ⟨h.report f w.world, w.log⟩
  yield w := (h.yield w.world).logged w.log
  await w := (h.await w.world).map fun effect => effect.logged w.log

/-- Whoever is told of a commit, that is written down. -/
theorem Host.log_confirms (host : Host ω) (s : Scope) (cohorts : List CohortId) (w : Logged ω) :
    (cohorts.foldl (fun w c => host.logged.confirm c s w) w).log =
      w.log ++ cohorts.map fun c => .confirmed c s := by
  induction cohorts generalizing w with
  | nil => exact (append_nil _).symm
  | cons c cohorts ih =>
    rw [foldl_cons, ih, map_cons, append_cons]
    rfl

/-- What a step asks of the host is written down. -/
theorem Asks.log_eq {host : Host ω} {scope : Option Scope} {w w' : Logged ω} {mail : List Message}
    {notices : List Notice} (h : Asks host.logged scope w w' mail notices) :
    ∃ calls : List TokenId, w'.log = w.log ++ ((notices.map fun n => .transacted n.1 n.2) ++
      calls.map .launched ++ mail.map .sent) := by
  induction h with
  | nothing => exact ⟨[], by simp⟩
  | call => exact ⟨[], by simp [Host.logged, Effect.logged]⟩
  | launch site args t =>
    by_cases htaken : (host.launch site args t w.world).answer = true
    · exact ⟨[t], by simp [Host.logged, Effect.logged, htaken]⟩
    · exact ⟨[], by simp [Host.logged, Effect.logged, htaken]⟩
  | outside | inside => exact ⟨[], by simp [Host.logged, Effect.logged]⟩
  | report _ _ ih | publish _ _ ih => exact ih

/-! ## What a log says -/

/-- A cohort takes part in a transaction. -/
def Enlisted (log : List Entry) (c : CohortId) (x : TxnId) : Prop :=
  ∃ s cohorts, .transacted s cohorts ∈ log ∧ x ∈ s.lineage ∧ c ∈ cohorts

/-- A cohort was asked for its vote on a transaction. -/
def Asked (log : List Entry) (c : CohortId) (x : TxnId) (vote : TokenId) : Prop :=
  ∃ s, s.id = x ∧ .asked c s vote ∈ log

/-- A vote to commit was sent. -/
def Answered (log : List Entry) (vote : TokenId) : Prop := .sent (.returned vote .halt) ∈ log

namespace Entry

/-- The entry asks a cohort for its vote on a transaction. -/
def asks (c : CohortId) (x : TxnId) : Entry → Bool
  | .asked c' s _ => c' = c && s.id = x
  | _ => false

/-- The entry tells a cohort that a transaction has committed. -/
def confirms (c : CohortId) (x : TxnId) : Entry → Bool
  | .confirmed c' s => c' = c && s.id = x
  | _ => false

/-- The entry tells a cohort that a transaction has been aborted. -/
def rollsBack (c : CohortId) (x : TxnId) : Entry → Bool
  | .rolledBack c' s => c' = c && s.id = x
  | _ => false

end Entry

/-- The cohorts that are still to be told that a transaction has been aborted. -/
def rollbacks (agenda : List Chore) : List (CohortId × Scope) :=
  agenda.filterMap fun
    | .rollback c s => some (c, s)
    | _ => none

@[simp]
theorem rollbacks_append (new agenda : List Chore) :
    rollbacks (new ++ agenda) = rollbacks new ++ rollbacks agenda := filterMap_append

theorem mem_rollbacks {s : Scope} {agenda : List Chore} :
    (c, s) ∈ rollbacks agenda ↔ .rollback c s ∈ agenda := by grind [rollbacks]

theorem Enlisted.mono {log log' : List Entry}
    (h : ∀ {s cohorts}, .transacted s cohorts ∈ log → .transacted s cohorts ∈ log') :
    Enlisted log c x → Enlisted log' c x :=
  fun ⟨s, cohorts, hm, hx⟩ => ⟨s, cohorts, h hm, hx⟩

/-- An entry stands where it stood, or after all that stood there. -/
theorem split_append {old new before after : List α} {a : α} (h : old ++ new = before ++ a :: after)
    : (∃ after', old = before ++ a :: after') ∨ (old <+: before ∧ a ∈ new) := by
  rcases append_eq_append_iff.1 h with ⟨as, hbefore, hnew⟩ | ⟨bs, hold, hafter⟩
  · grind
  · cases bs with
    | nil => grind
    | cons b bs => grind

/-- An entry that is not among the new ones stands where it stood. -/
theorem split_of_append {old new before after : List α} {a : α} (ha : a ∉ new)
    (h : old ++ new = before ++ a :: after) : ∃ after', old = before ++ a :: after' :=
  (split_append h).resolve_right fun hnew => ha hnew.2

/-- Entries of another kind do not count. -/
theorem countP_append_of_none {p : α → Bool} {old new : List α} (h : ∀ a ∈ new, p a = false) :
    (old ++ new).countP p = old.countP p := by grind [countP_eq_zero]

/-! ## What a run has been through -/

namespace Engine

/-- The next turn commits a transaction. -/
def Commits (x : TxnId) (e : Engine ω) : Prop :=
  ∃ txn rest, e.agenda = .verify x :: rest ∧ e.transactions.get? x = some txn ∧
    txn.state = .readying

/-- The next turn aborts a transaction. -/
def Aborts (x : TxnId) (e : Engine ω) : Prop :=
  ∃ txn rest, e.agenda = .abort x :: rest ∧ e.transactions.get? x = some txn ∧
    (txn.state = .running ∨ txn.state = .readying)

/-- The publication that the next turn holds back, and for which transaction. -/
def buffering (e : Engine ω) : Option (TxnId × Value) :=
  match e.agenda, e.halted, e.ready with
  | [], false, t :: _ =>
    match e.tokens.get? t with
    | some tok =>
      if tok.phase = .runnable then (e.program.code.nodes[tok.node]?).bind tok.holds else none
    | none => none
  | _, _, _ => none

/-- A vote on a transaction is still out. -/
abbrev Polls (x : TxnId) (vote : TokenId) (e : Engine ω) : Prop :=
  ∃ tok reg, e.tokens.get? vote = some tok ∧ e.regions.get? tok.region = some reg ∧
    reg.kind = .votes x

theorem buffering_of_chore {e : Engine ω} {a : Chore} {rest : List Chore}
    (ha : e.agenda = a :: rest) : e.buffering = none := by
  unfold buffering
  rw [ha]

theorem buffering_of_decides {e : Engine ω} (h : e.Commits x ∨ e.Aborts x) : e.buffering = none := by
  rcases h with ⟨_, _, hagenda, -⟩ | ⟨_, _, hagenda, -⟩ <;> exact buffering_of_chore hagenda

/-- The chore on top decides one transaction, -/
theorem decides_one {e : Engine ω} {y : TxnId} (hx : e.Commits x ∨ e.Aborts x)
    (hy : e.Commits y ∨ e.Aborts y) : y = x := by
  rcases hx with ⟨_, _, hagenda, -⟩ | ⟨_, _, hagenda, -⟩ <;>
    rcases hy with ⟨_, _, hagenda', -⟩ | ⟨_, _, hagenda', -⟩ <;>
    rw [hagenda] at hagenda' <;> cases hagenda' <;> rfl

/-- and in one way. -/
theorem Commits.not_aborts {e : Engine ω} {y : TxnId} (hx : e.Commits x) : ¬e.Aborts y := by
  rintro ⟨_, _, habort, -⟩
  obtain ⟨_, _, hverify, -⟩ := hx
  rw [hverify] at habort
  cases habort

end Engine

/-- What was held back for a transaction, the oldest first. -/
def bufferedFor (x : TxnId) (past : List (Engine ω)) : List Value :=
  past.flatMap fun e => heldFor x e.buffering

/-- The states that a run has been through, the oldest first. -/
abbrev History (ω : Type) := List (Engine (Logged ω))

/-- The log, the states that a run has been through and the present one agree. -/
structure Ledger (past : History ω) (e : Engine (Logged ω)) : Prop where
  /-- A transaction knows the cohorts that take part in it. -/
  enlisted : ∀ {x txn}, e.transactions.get? x = some txn →
    ∀ c, c ∈ txn.cohorts ↔ Enlisted e.world.log c x
  cohorts_nodup : ∀ {x txn}, e.transactions.get? x = some txn → txn.cohorts.Nodup
  /-- Who takes part in a transaction takes part in those around it. -/
  lineage : ∀ {s cohorts x}, .transacted s cohorts ∈ e.world.log → x ∈ s.lineage →
    x.index < e.transactions.next.index ∧
      ∀ txn, e.transactions.get? x = some txn → ∀ y ∈ txn.scope.lineage, y ∈ s.lineage
  asked : ∀ {c s vote}, .asked c s vote ∈ e.world.log →
    s.id.index < e.transactions.next.index ∧
      ∀ txn, e.transactions.get? s.id = some txn → txn.state ≠ .running
  asked_once : ∀ c x, e.world.log.countP (Entry.asks c x) ≤ 1
  /-- As long as the votes are out, every cohort has been asked, and its vote is in or stands. -/
  polling : ∀ {x txn c}, e.transactions.get? x = some txn → txn.state = .readying →
    c ∈ txn.cohorts → ∃ vote, Asked e.world.log c x vote ∧
      (Answered e.world.log vote ∨ e.Polls x vote)
  voter : ∀ {t tok}, e.tokens.get? t = some tok → tok.phase = .voting →
    ∃ c s, .asked c s t ∈ e.world.log
  /-- A vote on an undecided transaction ends when it was to commit, or with an abort. -/
  dismissed : ∀ {t}, .killToken t ∈ e.agenda → t.index < e.tokens.next.index ∧
    ∀ tok x txn, e.tokens.get? t = some tok → tok.phase = .voting → tok.txn = some x →
      e.transactions.get? x = some txn → txn.state = .readying →
      Answered e.world.log t ∨ e.agenda.head? = some (.abort x)
  inbox : ∀ message ∈ e.inbox, .sent message ∈ e.world.log
  /-- A transaction that was committed stays so, and its cohorts have been told. -/
  committed : ∀ {e₁ x}, e₁ ∈ past → e₁.Commits x → x.index < e.transactions.next.index ∧
    (∀ txn, e.transactions.get? x = some txn → txn.state = .done) ∧
      ∀ c, Enlisted e.world.log c x → ∃ s, s.id = x ∧ .confirmed c s ∈ e.world.log
  /-- A transaction that was aborted stays so, and its cohorts have been told or will be. -/
  aborted : ∀ {e₁ x}, e₁ ∈ past → e₁.Aborts x → x.index < e.transactions.next.index ∧
    (∀ txn, e.transactions.get? x = some txn → txn.state = .aborted) ∧
      ∀ c, Enlisted e.world.log c x → ∃ s, s.id = x ∧
        (.rolledBack c s ∈ e.world.log ∨ (c, s) ∈ rollbacks e.agenda)
  /-- A transaction is decided once. -/
  decided_once : past.Pairwise fun e₁ e₂ => ∀ x, e₁.Commits x ∨ e₁.Aborts x →
    ¬(e₂.Commits x ∨ e₂.Aborts x)
  confirmed : ∀ {c s}, .confirmed c s ∈ e.world.log → ∃ e₁ ∈ past, e₁.Commits s.id
  rolledBack : ∀ {c s}, .rolledBack c s ∈ e.world.log ∨ (c, s) ∈ rollbacks e.agenda →
    ∃ e₁ ∈ past, e₁.Aborts s.id
  confirmed_once : ∀ c x, e.world.log.countP (Entry.confirms c x) ≤ 1
  rolledBack_once : ∀ c x, e.world.log.countP (Entry.rollsBack c x) +
    (rollbacks e.agenda).countP (fun p => p.1 = c && p.2.id = x) ≤ 1
  /-- Before a cohort is told of a commit, all have voted for it. -/
  unanimous : ∀ {before after c s}, e.world.log = before ++ .confirmed c s :: after →
    ∀ c', Enlisted e.world.log c' s.id →
      ∃ vote, Asked before c' s.id vote ∧ Answered before vote
  /-- An undecided transaction holds what it has been given to hold, -/
  buffered : ∀ {x txn}, e.transactions.get? x = some txn →
    txn.state = .running ∨ txn.state = .readying → txn.publications = bufferedFor x past
  /-- and has held all of it when it was committed. -/
  complete : ∀ {e₁ x txn}, e₁ ∈ past → e₁.Commits x → e₁.transactions.get? x = some txn →
    txn.publications = bufferedFor x past
  buffered_known : ∀ {x}, bufferedFor x past ≠ [] → x.index < e.transactions.next.index

/-- A vote that a transaction waits for stays there until it is in, and none is added. -/
structure Engine.KeepsVotes (e e' : Engine (Logged ω)) : Prop where
  polled : ∀ {t tok reg x txn}, e.tokens.get? t = some tok →
    e.regions.get? tok.region = some reg → reg.kind = .votes x →
    e.transactions.get? x = some txn → txn.state = .readying →
    Answered e.world.log t ∨ e'.Polls x t
  voter : ∀ {t tok'}, e'.tokens.get? t = some tok' → tok'.phase = .voting →
    ∃ tok, e.tokens.get? t = some tok ∧ tok.phase = .voting ∧ tok.txn = tok'.txn

variable {past : History ω} {e e' : Engine (Logged ω)}

theorem Engine.KeepsVotes.same (ht : e'.tokens = e.tokens) (hr : e'.regions = e.regions) :
    e.KeepsVotes e' := by
  refine ⟨fun htok hreg hkind _ _ => .inr ?_, fun htok hp => ?_⟩
  · rw [Polls, ht, hr]
    exact ⟨_, _, htok, hreg, hkind⟩
  · rw [ht] at htok
    exact ⟨_, htok, hp, rfl⟩

/-! ## What is written on the way -/

/-- A transaction keeps its scope, does not run again and stays decided. -/
structure Transaction.Ages (txn txn' : Transaction) : Prop where
  scope : txn'.scope = txn.scope
  running : txn'.state = .running → txn.state = .running
  decided : txn.state = .done ∨ txn.state = .aborted → txn'.state = txn.state

theorem Transaction.Ages.refl (txn : Transaction) : txn.Ages txn := ⟨rfl, id, fun _ => rfl⟩

/-- On the way from `e` to `e'` the entries `new` are written down, and transactions age. -/
structure Engine.Notes (new : List Entry) (e e' : Engine (Logged ω)) : Prop where
  log : e'.world.log = e.world.log ++ new
  next : e.transactions.next.index ≤ e'.transactions.next.index
  ages : ∀ {x txn'}, e'.transactions.get? x = some txn' → x.index < e.transactions.next.index →
    ∃ txn, e.transactions.get? x = some txn ∧ txn.Ages txn'

variable {new : List Entry} {e₁ : Engine (Logged ω)} {txn : Transaction}

namespace Engine.Notes

theorem mem (hw : e.Notes new e') {a : Entry} (hm : a ∈ e.world.log) : a ∈ e'.world.log := by
  rw [hw.log]
  exact mem_append_left _ hm

theorem mem_or (hw : e.Notes new e') {a : Entry} (hm : a ∈ e'.world.log) :
    a ∈ e.world.log ∨ a ∈ new := by
  rw [hw.log] at hm
  exact mem_append.1 hm

theorem enlisted_iff (hw : e.Notes new e') (hnew : ∀ s cohorts, .transacted s cohorts ∉ new) :
    Enlisted e'.world.log c x ↔ Enlisted e.world.log c x :=
  ⟨.mono fun hm => (hw.mem_or hm).resolve_right (hnew _ _), .mono hw.mem⟩

theorem countP_eq (hw : e.Notes new e') {p : Entry → Bool} (hnew : ∀ a ∈ new, p a = false) :
    e'.world.log.countP p = e.world.log.countP p := by
  rw [hw.log]
  exact countP_append_of_none hnew

end Engine.Notes

namespace Ledger

/-! ## Decisions -/

/-- An undecided transaction was never decided. -/
theorem undecided (h : Ledger past e) {txn : Transaction} (hx : e.transactions.get? x = some txn)
    (hs : txn.state = .running ∨ txn.state = .readying) {e₁ : Engine (Logged ω)} (he₁ : e₁ ∈ past) :
    ¬(e₁.Commits x ∨ e₁.Aborts x) := by
  rintro (hc | ha)
  · have := (h.committed he₁ hc).2.1 txn hx
    grind
  · have := (h.aborted he₁ ha).2.1 txn hx
    grind

/-- A transaction that was committed was not aborted. -/
theorem not_both (h : Ledger past e) {e₁ e₂ : Engine (Logged ω)} (he₁ : e₁ ∈ past) (he₂ : e₂ ∈ past)
    (hc : e₁.Commits x) : ¬e₂.Aborts x := by
  intro ha
  obtain ⟨i, hi, rfl⟩ := getElem_of_mem he₁
  obtain ⟨j, hj, rfl⟩ := getElem_of_mem he₂
  have hpair := pairwise_iff_getElem.1 h.decided_once
  rcases Nat.lt_trichotomy i j with hlt | rfl | hlt
  · exact hpair i j hi hj hlt x (.inl hc) (.inr ha)
  · exact hc.not_aborts ha
  · exact hpair j i hj hi hlt x (.inr ha) (.inl hc)

/-- Nobody has been told that an undecided transaction was committed, -/
theorem unconfirmed (h : Ledger past e) (hx : e.transactions.get? x = some txn)
    (hs : txn.state = .running ∨ txn.state = .readying) (c : CohortId) :
    e.world.log.countP (Entry.confirms c x) = 0 := by
  refine countP_eq_zero.2 fun a ha hp => ?_
  cases a <;> simp only [Entry.confirms, Bool.and_eq_true, decide_eq_true_eq,
    Bool.false_eq_true] at hp
  obtain ⟨e₁, he₁, hc⟩ := h.confirmed ha
  exact h.undecided hx hs he₁ (.inl (hp.2 ▸ hc))

/-- and nobody has been told, or will be, that it was aborted. -/
theorem unrolled (h : Ledger past e) (hx : e.transactions.get? x = some txn)
    (hs : txn.state = .running ∨ txn.state = .readying) (c : CohortId) :
    e.world.log.countP (Entry.rollsBack c x) = 0 ∧
      (rollbacks e.agenda).countP (fun p => p.1 = c && p.2.id = x) = 0 := by
  constructor
  · refine countP_eq_zero.2 fun a ha hp => ?_
    cases a <;> simp only [Entry.rollsBack, Bool.and_eq_true, decide_eq_true_eq,
      Bool.false_eq_true] at hp
    obtain ⟨e₁, he₁, hc⟩ := h.rolledBack (.inl ha)
    exact h.undecided hx hs he₁ (.inr (hp.2 ▸ hc))
  · refine countP_eq_zero.2 fun p hp hpc => ?_
    simp only [Bool.and_eq_true, decide_eq_true_eq] at hpc
    obtain ⟨e₁, he₁, hc⟩ := h.rolledBack (.inr hp)
    exact h.undecided hx hs he₁ (.inr (hpc.2 ▸ hc))

/-- Nobody has been asked for a vote on a transaction whose body runs. -/
theorem unasked (h : Ledger past e) (hx : e.transactions.get? x = some txn)
    (hs : txn.state = .running) (c : CohortId) : e.world.log.countP (Entry.asks c x) = 0 := by
  refine countP_eq_zero.2 fun a ha hp => ?_
  cases a <;> simp only [Entry.asks, Bool.and_eq_true, decide_eq_true_eq, Bool.false_eq_true] at hp
  obtain ⟨-, hstate⟩ := h.asked ha
  rw [hp.2] at hstate
  exact hstate txn hx hs

/-! ## Clauses that carry over

  One lemma for each clause that is more than a look at the log.  The hypotheses say what the new
  entries add to it. -/

theorem lineage_of (h : Ledger past e) (hw : e.Notes new e')
    (hnew : ∀ {s cohorts x}, .transacted s cohorts ∈ new → x ∈ s.lineage →
      x.index < e.transactions.next.index ∧
        ∀ txn, e.transactions.get? x = some txn → ∀ y ∈ txn.scope.lineage, y ∈ s.lineage)
    {s : Scope} {cohorts : List CohortId} (hm : .transacted s cohorts ∈ e'.world.log)
    (hx : x ∈ s.lineage) : x.index < e'.transactions.next.index ∧
      ∀ txn, e'.transactions.get? x = some txn → ∀ y ∈ txn.scope.lineage, y ∈ s.lineage := by
  obtain ⟨hlt, hsub⟩ := (hw.mem_or hm).elim (h.lineage · hx) (hnew · hx)
  refine ⟨Nat.lt_of_lt_of_le hlt hw.next, fun txn' hx' => ?_⟩
  obtain ⟨txn, htxn, hages⟩ := hw.ages hx' hlt
  rw [hages.scope]
  exact hsub txn htxn

theorem asked_of (h : Ledger past e) (hw : e.Notes new e')
    (hnew : ∀ {c s vote}, .asked c s vote ∈ new → s.id.index < e'.transactions.next.index ∧
      ∀ txn, e'.transactions.get? s.id = some txn → txn.state ≠ .running)
    {s : Scope} {vote : TokenId} (hm : .asked c s vote ∈ e'.world.log) :
    s.id.index < e'.transactions.next.index ∧
      ∀ txn, e'.transactions.get? s.id = some txn → txn.state ≠ .running := by
  rcases hw.mem_or hm with hm | hm
  · obtain ⟨hlt, hstate⟩ := h.asked hm
    refine ⟨Nat.lt_of_lt_of_le hlt hw.next, fun txn' hx hrun => ?_⟩
    obtain ⟨txn, htxn, hages⟩ := hw.ages hx hlt
    exact hstate txn htxn (hages.running hrun)
  · exact hnew hm

theorem polling_of (h : Ledger past e) (hw : e.Notes new e')
    (hx : e.transactions.get? x = some txn) (hs : txn.state = .readying) (hc : c ∈ txn.cohorts)
    (hvotes : ∀ {t tok reg}, e.tokens.get? t = some tok → e.regions.get? tok.region = some reg →
      reg.kind = .votes x → Answered e.world.log t ∨ e'.Polls x t) :
    ∃ vote, Asked e'.world.log c x vote ∧ (Answered e'.world.log vote ∨ e'.Polls x vote) := by
  obtain ⟨vote, ⟨s, hsx, hm⟩, hvote⟩ := h.polling hx hs hc
  refine ⟨vote, ⟨s, hsx, hw.mem hm⟩, ?_⟩
  rcases hvote with hans | ⟨tok, reg, ht, hr, hkind⟩
  · exact .inl (hw.mem hans)
  · exact (hvotes ht hr hkind).imp_left hw.mem

theorem committed_of (h : Ledger past e) (hw : e.Notes new e') (he₁ : e₁ ∈ past)
    (hx : e₁.Commits x)
    (hjoin : ∀ {c}, Enlisted e'.world.log c x → Enlisted e.world.log c x) :
    x.index < e'.transactions.next.index ∧
      (∀ txn, e'.transactions.get? x = some txn → txn.state = .done) ∧
      ∀ c, Enlisted e'.world.log c x → ∃ s, s.id = x ∧ .confirmed c s ∈ e'.world.log := by
  obtain ⟨hlt, hdone, htold⟩ := h.committed he₁ hx
  refine ⟨Nat.lt_of_lt_of_le hlt hw.next, fun txn' hx' => ?_, fun c hc => ?_⟩
  · obtain ⟨txn, htxn, hages⟩ := hw.ages hx' hlt
    have hstate := hdone txn htxn
    exact (hages.decided (.inl hstate)).trans hstate
  · obtain ⟨s, hs, hm⟩ := htold c (hjoin hc)
    exact ⟨s, hs, hw.mem hm⟩

theorem aborted_of (h : Ledger past e) (hw : e.Notes new e') (he₁ : e₁ ∈ past) (hx : e₁.Aborts x)
    (hjoin : ∀ {c}, Enlisted e'.world.log c x → Enlisted e.world.log c x)
    (hroll : ∀ {c s}, (c, s) ∈ rollbacks e.agenda →
      .rolledBack c s ∈ e'.world.log ∨ (c, s) ∈ rollbacks e'.agenda) :
    x.index < e'.transactions.next.index ∧
      (∀ txn, e'.transactions.get? x = some txn → txn.state = .aborted) ∧
      ∀ c, Enlisted e'.world.log c x → ∃ s, s.id = x ∧
        (.rolledBack c s ∈ e'.world.log ∨ (c, s) ∈ rollbacks e'.agenda) := by
  obtain ⟨hlt, haborted, htold⟩ := h.aborted he₁ hx
  refine ⟨Nat.lt_of_lt_of_le hlt hw.next, fun txn' hx' => ?_, fun c hc => ?_⟩
  · obtain ⟨txn, htxn, hages⟩ := hw.ages hx' hlt
    have hstate := haborted txn htxn
    exact (hages.decided (.inr hstate)).trans hstate
  · obtain ⟨s, hs, hm⟩ := htold c (hjoin hc)
    exact ⟨s, hs, hm.elim (fun hm => .inl (hw.mem hm)) hroll⟩

theorem unanimous_of (h : Ledger past e) (hw : e.Notes new e')
    (hnew : ∀ c s, .confirmed c s ∉ new)
    (hjoin : ∀ {e₁ c x}, e₁ ∈ past → e₁.Commits x →
      Enlisted e'.world.log c x → Enlisted e.world.log c x)
    {before after : List Entry} {s : Scope}
    (hsplit : e'.world.log = before ++ .confirmed c s :: after) {c' : CohortId}
    (hc' : Enlisted e'.world.log c' s.id) :
    ∃ vote, Asked before c' s.id vote ∧ Answered before vote := by
  rw [hw.log] at hsplit
  obtain ⟨after', hold⟩ := split_of_append (hnew c s) hsplit
  obtain ⟨e₁, he₁, hc⟩ := h.confirmed (hold ▸ mem_append_right _ mem_cons_self)
  exact h.unanimous hold c' (hjoin he₁ hc hc')

/-! ## Changes that cohorts do not see -/

/-- A turn that neither decides a transaction nor holds anything back leaves no trace. -/
theorem remember (h : Ledger past e') (hcommit : ∀ x, ¬e.Commits x) (habort : ∀ x, ¬e.Aborts x)
    (hbuffer : e.buffering = none) : Ledger (past ++ [e]) e' := by
  have hin : ∀ {e₁}, e₁ ∈ past → e₁ ∈ past ++ [e] := fun hm => mem_append_left _ hm
  have hold : ∀ {e₁ x}, e₁ ∈ past ++ [e] → e₁.Commits x ∨ e₁.Aborts x → e₁ ∈ past := by grind
  have hbuffered : ∀ x, bufferedFor x (past ++ [e]) = bufferedFor x past := by
    intro x
    simp [bufferedFor, hbuffer, heldFor]
  refine { h with
    committed := fun hm hc => h.committed (hold hm (.inl hc)) hc
    aborted := fun hm ha => h.aborted (hold hm (.inr ha)) ha
    decided_once := ?_, confirmed := ?_, rolledBack := ?_
    buffered := ?_, complete := ?_, buffered_known := ?_ }
  · grind [decided_once]
  · intro c s hm
    obtain ⟨e₁, he₁, hc⟩ := h.confirmed hm
    exact ⟨e₁, hin he₁, hc⟩
  · intro c s hm
    obtain ⟨e₁, he₁, ha⟩ := h.rolledBack hm
    exact ⟨e₁, hin he₁, ha⟩
  · intro x txn hx hs
    rw [hbuffered]
    exact h.buffered hx hs
  · grind [complete]
  · intro x
    rw [hbuffered]
    exact h.buffered_known

/-- Nothing changes but how cohorts are told of aborts, that messages arrive, and what is gone.
    `told` are the cohorts that have been told on the way. -/
theorem frame (h : Ledger past e) (told : List (CohortId × Scope)) (mail : List Message)
    (hlog : e'.world.log = e.world.log ++ (told.map (fun p => .rolledBack p.1 p.2) ++
      mail.map .sent))
    (hinbox : ∀ message ∈ e'.inbox, message ∈ e.inbox ∨ message ∈ mail)
    (htxn : ∀ {x txn}, e'.transactions.get? x = some txn → e.transactions.get? x = some txn)
    (hnext : e'.transactions.next = e.transactions.next)
    (hgrow : e.tokens.next.index ≤ e'.tokens.next.index) (hvotes : e.KeepsVotes e')
    (hkill : ∀ {t}, .killToken t ∈ e'.agenda → .killToken t ∈ e.agenda ∨
      (t.index < e.tokens.next.index ∧ ∀ tok x, e.tokens.get? t = some tok →
        tok.phase = .voting → tok.txn = some x →
        Answered e.world.log t ∨ e'.agenda.head? = some (.abort x)))
    (htop : ∀ {x}, e.agenda.head? = some (.abort x) → e'.agenda.head? = some (.abort x) ∨
      ∀ txn, e'.transactions.get? x = some txn → txn.state ≠ .readying)
    (hroll : rollbacks e.agenda = told ++ rollbacks e'.agenda) : Ledger past e' := by
  have hw : e.Notes _ e' := ⟨hlog, Nat.le_of_eq (by rw [hnext]), fun hx _ => ⟨_, htxn hx, .refl _⟩⟩
  have henlisted : ∀ {c x}, Enlisted e'.world.log c x ↔ Enlisted e.world.log c x :=
    hw.enlisted_iff (by simp)
  have htold : ∀ {c s}, (.rolledBack c s ∈ e'.world.log ∨ (c, s) ∈ rollbacks e'.agenda) ↔
      (.rolledBack c s ∈ e.world.log ∨ (c, s) ∈ rollbacks e.agenda) := by
    intro c s
    rw [hlog, hroll]
    simp [or_assoc]
  constructor
  case enlisted =>
    intro x txn hx c
    rw [henlisted]
    exact h.enlisted (htxn hx) c
  case cohorts_nodup => exact fun hx => h.cohorts_nodup (htxn hx)
  case lineage => exact h.lineage_of hw (by simp)
  case asked => exact h.asked_of hw (by simp)
  case asked_once =>
    intro c x
    rw [hw.countP_eq (by grind [Entry.asks])]
    exact h.asked_once c x
  case polling =>
    exact fun hx hs hc => h.polling_of hw (htxn hx) hs hc fun ht hr hkind =>
      hvotes.polled ht hr hkind (htxn hx) hs
  case voter =>
    intro t tok' ht' hp'
    obtain ⟨tok, ht, hp, -⟩ := hvotes.voter ht' hp'
    obtain ⟨c, s, hm⟩ := h.voter ht hp
    exact ⟨c, s, hw.mem hm⟩
  case dismissed =>
    intro t hm
    rcases hkill hm with hm | ⟨hlt, hdis⟩
    · -- it was to end before
      obtain ⟨hlt, hdis⟩ := h.dismissed hm
      refine ⟨Nat.lt_of_lt_of_le hlt hgrow, fun tok' x txn ht' hp' hx hxn hs => ?_⟩
      obtain ⟨tok, ht, hp, hsame⟩ := hvotes.voter ht' hp'
      rcases hdis tok x txn ht hp (hsame.trans hx) (htxn hxn) hs with hans | hhead
      · exact .inl (hw.mem hans)
      · exact .inr ((htop hhead).resolve_right fun hstate => hstate txn hxn hs)
    · refine ⟨Nat.lt_of_lt_of_le hlt hgrow, fun tok' x txn ht' hp' hx hxn hs => ?_⟩
      obtain ⟨tok, ht, hp, hsame⟩ := hvotes.voter ht' hp'
      exact (hdis tok x ht hp (hsame.trans hx)).imp_left hw.mem
  case inbox =>
    intro message hm
    rcases hinbox message hm with hm | hm
    · exact hw.mem (h.inbox message hm)
    · rw [hlog]
      simp [hm]
  case committed => exact fun he₁ hc => h.committed_of hw he₁ hc henlisted.1
  case aborted =>
    refine fun he₁ ha => h.aborted_of hw he₁ ha henlisted.1 fun hm => htold.2 (.inr hm)
  case decided_once => exact h.decided_once
  case confirmed => exact fun hm => h.confirmed ((hw.mem_or hm).resolve_right (by simp))
  case rolledBack => exact fun hm => h.rolledBack (htold.1 hm)
  case confirmed_once =>
    intro c x
    rw [hw.countP_eq (by grind [Entry.confirms])]
    exact h.confirmed_once c x
  case rolledBack_once =>
    intro c x
    have hbound := h.rolledBack_once c x
    have hsame : (told.map fun p => Entry.rolledBack p.1 p.2).countP (Entry.rollsBack c x) =
        told.countP fun p => p.1 = c && p.2.id = x := countP_map ..
    have hsent : (mail.map Entry.sent).countP (Entry.rollsBack c x) = 0 := by
      rw [countP_map]
      exact countP_eq_zero.2 fun _ _ => Bool.false_ne_true
    rw [hroll, countP_append] at hbound
    rw [hlog, countP_append, countP_append, hsame, hsent]
    omega
  case unanimous =>
    exact fun hsplit _ hc' => h.unanimous_of hw (by simp) (fun _ _ => henlisted.1) hsplit hc'
  case buffered => exact fun hx hs => h.buffered (htxn hx) hs
  case complete => exact h.complete
  case buffered_known => exact fun hx => hnext ▸ h.buffered_known hx

/-- Messages arrive, and it is written down that they were sent. -/
theorem arrive (h : Ledger past e) (mail : List Message)
    (hlog : e'.world.log = e.world.log ++ mail.map .sent) (hi : e'.inbox = e.inbox ++ mail)
    (ht : e'.tokens = e.tokens) (hr : e'.regions = e.regions)
    (hx : e'.transactions = e.transactions) (ha : e'.agenda = e.agenda) : Ledger past e' := by
  refine h.frame [] mail hlog ?_ ?_ ?_ ?_ (.same ht hr) ?_ ?_ ?_
  · intro message hm
    rw [hi] at hm
    exact mem_append.1 hm
  · exact fun hx' => hx ▸ hx'
  · rw [hx]
  · exact Nat.le_of_eq (by rw [ht])
  · intro t hm
    rw [ha] at hm
    exact .inl hm
  · intro x hhead
    rw [ha]
    exact .inl hhead
  · rw [ha]
    rfl

/-- Only some parts of a state matter. -/
theorem congr (h : Ledger past e)
    (hsame : (e'.world.log, e'.tokens, e'.regions, e'.transactions, e'.inbox, e'.agenda) =
      (e.world.log, e.tokens, e.regions, e.transactions, e.inbox, e.agenda)) : Ledger past e' := by
  obtain ⟨hlog, ht, hr, hx, hi, ha⟩ := by simpa only [Prod.mk.injEq] using hsame
  exact h.arrive [] (by simpa using hlog) (by simpa using hi) ht hr hx ha

end Ledger
end Orchestra
