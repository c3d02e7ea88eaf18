/-
  Containers: they keep no trace of a transaction that is over.

  A container has a copy of its content for each transaction that has touched it, and a layer is marked
  for the child that has voted to commit into it.  A mark that stays behind would freeze the layer for
  ever, so the question is whether every copy and every mark is taken away again.

  What a container holds follows from what it was asked, which stands in the log.  `Tended` says how:
  a transaction has a copy only if it has called the container and the container has not been told of
  its end; a layer is marked only for a transaction with a copy that the container was asked to vote
  on.  What the log says of an engine is known (`Ledger`), so the rest is putting the two together
  (`Tended.copy`, `Tended.pending`).
-/
import Orchestra.Proofs.Alignment
import Orchestra.Proofs.Layers
import Orchestra.Proofs.Remains

namespace Orchestra

open Engine List

variable {a : Chore} {c : CohortId} {log : List Entry} {mail : List Message} {limit : Option Nat}
  {program : Program} {voter : TokenId} {x : TxnId}

/-! ## What containers were told -/

/-- The cohort `c` was told how the transaction `x` has ended. -/
def Told (log : List Entry) (c : CohortId) (x : TxnId) : Prop :=
  ∃ s, s.id = x ∧ (.confirmed c s ∈ log ∨ .rolledBack c s ∈ log)

/-- The entry tells a cohort how a transaction has ended. -/
def Entry.tells : Entry → Bool
  | .confirmed _ _ | .rolledBack _ _ => true
  | _ => false

theorem told_append {new : List Entry} (h : ∀ a ∈ new, a.tells = false) :
    Told (log ++ new) c x ↔ Told log c x := by
  have hnew : ∀ {a : Entry}, a.tells = true → a ∈ log ++ new → a ∈ log := by grind
  constructor
  · rintro ⟨s, hid, hm | hm⟩
    · exact ⟨s, hid, .inl (hnew rfl hm)⟩
    · exact ⟨s, hid, .inr (hnew rfl hm)⟩
  · rintro ⟨s, hid, hm | hm⟩
    · exact ⟨s, hid, .inl (mem_append_left _ hm)⟩
    · exact ⟨s, hid, .inr (mem_append_left _ hm)⟩

/-- A cohort that hears of a decision has been told of that transaction. -/
theorem told_settle {c' : CohortId} {s : Scope} {a : Entry}
    (ha : a = .confirmed c s ∨ a = .rolledBack c s) :
    Told (log ++ [a]) c' x ↔ Told log c' x ∨ (c' = c ∧ x = s.id) := by
  constructor
  · rintro ⟨s', rfl, hm⟩
    rcases ha with rfl | rfl
    · simp only [mem_append, mem_singleton, Entry.confirmed.injEq, reduceCtorEq, or_false]
        at hm
      rcases hm with (hm | ⟨rfl, rfl⟩) | hm
      · exact .inl ⟨s', rfl, .inl hm⟩
      · exact .inr ⟨rfl, rfl⟩
      · exact .inl ⟨s', rfl, .inr hm⟩
    · simp only [mem_append, mem_singleton, Entry.rolledBack.injEq, reduceCtorEq, or_false]
        at hm
      rcases hm with hm | hm | ⟨rfl, rfl⟩
      · exact .inl ⟨s', rfl, .inl hm⟩
      · exact .inl ⟨s', rfl, .inr hm⟩
      · exact .inr ⟨rfl, rfl⟩
  · rintro (⟨s', hid, hm⟩ | ⟨rfl, rfl⟩)
    · exact ⟨s', hid, hm.imp (mem_append_left _) (mem_append_left _)⟩
    · refine ⟨s, rfl, ?_⟩
      grind

/-! ## What containers hold -/

/-- What the containers of a world hold is what they were asked for. -/
structure Tended (w : Logged World) : Prop where
  /-- A transaction with a copy has called the container, which gave a copy to all transactions around
      it too, and has not been told of its end. -/
  overlay : ∀ {c t}, w.world.marks c (some t) ≠ none → ¬Told w.log c t ∧
    ∃ s cohorts, .transacted s cohorts ∈ w.log ∧ c ∈ cohorts ∧ t ∈ s.lineage ∧
      ∀ x ∈ s.lineage, w.world.marks c (some x) ≠ none ∨ Told w.log c x
  /-- A mark stands for a vote, of a transaction with a copy. -/
  mark : ∀ {c l t}, w.world.marks c l = some (some t) → w.world.marks c (some t) ≠ none ∧
    ∃ s voter, .asked c s voter ∈ w.log ∧ s.id = t ∧ s.parent = l

namespace Tended

variable {w w' : Logged World} {new : List Entry} {s : Scope} {c : CohortId}

/-- Copies and marks stay, and nobody is told of a decision. -/
theorem frame (h : Tended w) (hlog : w'.log = w.log ++ new) (hnew : ∀ a ∈ new, a.tells = false)
    (hcopy : ∀ c t, w'.world.marks c (some t) = w.world.marks c (some t))
    (hmark : ∀ {c l t}, w'.world.marks c l = some (some t) → w.world.marks c l = some (some t)) :
    Tended w' where
  overlay := by grind [overlay, told_append]
  mark := by grind [mark]

section

variable (h : Tended w) (hlog : w'.log = w.log ++ new) (hnew : ∀ a ∈ new, a.tells = false)

include h hlog hnew

theorem calm (hcalm : w.world.Calm w'.world) : Tended w' := by
  refine h.frame hlog hnew (fun c t => ?_) fun {c l t} hl => ?_
  · rcases hcalm c (some t) with heq | ⟨hnone, -⟩
    · exact heq
    · cases hnone
  · rcases hcalm c l with heq | ⟨-, heq⟩
    · rw [← heq, hl]
    · cases heq.symm.trans hl

/-- A call from inside a transaction touches the containers that are enlisted. -/
theorem transact {cohorts : List CohortId} (hentry : .transacted s cohorts ∈ new)
    (hfree : ∀ x ∈ s.lineage, ∀ c, ¬Told w.log c x)
    (hmarks : ∀ c, w'.world.marks c = w.world.marks c ∨
      (c ∈ cohorts ∧ Touches s.lineage (w.world.marks c) (w'.world.marks c))) : Tended w' := by
  have hgrow : ∀ {c l}, w.world.marks c l ≠ none → w'.world.marks c l = w.world.marks c l := by
    intro c l hl
    rcases hmarks c with heq | ⟨-, htouches⟩
    · rw [heq]
    · exact htouches.old hl
  constructor
  · intro c t ht
    rw [hlog, told_append hnew]
    by_cases hold : w.world.marks c (some t) = none
    · -- the copy is new, and so the whole lineage has one
      rcases hmarks c with heq | ⟨hc, htouches⟩
      · exact absurd (heq ▸ hold) ht
      · rcases htouches.new hold with hnone | ⟨-, x, hx, heq⟩
        · exact absurd hnone ht
        · grind [Touches.all]
    · grind [overlay, told_append]
  · intro c l t hl
    have hold : w.world.marks c l = some (some t) := by
      rcases hmarks c with heq | ⟨-, htouches⟩
      · rwa [heq] at hl
      · by_cases hnone : w.world.marks c l = none
        · rcases htouches.new hnone with hl' | ⟨hl', -⟩ <;> cases hl'.symm.trans hl
        · rwa [htouches.old hnone] at hl
    grind [mark]

/-- A container is asked for its vote. -/
theorem ready (hentry : .asked c s voter ∈ new)
    (hmarks : ∀ c', w'.world.marks c' = w.world.marks c' ∨
      (c' = c ∧ w.world.marks c (some s.id) ≠ none ∧ w.world.marks c s.parent ≠ none ∧
        ∀ l, w'.world.marks c l = if l = s.parent then some (some s.id) else w.world.marks c l)) :
    Tended w' := by
  have hcopy : ∀ {c' l}, w'.world.marks c' l ≠ none ↔ w.world.marks c' l ≠ none := by
    intro c' l
    rcases hmarks c' with heq | ⟨rfl, -, hparent, heq⟩
    · rw [heq]
    · grind
  constructor
  · grind [overlay, told_append]
  · intro c' l t hl
    rw [hcopy, hlog]
    have hold : w.world.marks c' l = some (some t) → w.world.marks c' (some t) ≠ none ∧
        ∃ s voter, .asked c' s voter ∈ w.log ++ new ∧ s.id = t ∧ s.parent = l := by grind [mark]
    rcases hmarks c' with heq | ⟨rfl, hid, -, heq⟩
    · rw [heq] at hl
      exact hold hl
    · grind

end

/-- A container is told how a transaction has ended. -/
theorem settle (h : Tended w) {a : Entry} (hlog : w'.log = w.log ++ [a])
    (ha : a = .confirmed c s ∨ a = .rolledBack c s)
    (hagree : ∀ {s' voter}, .asked c s' voter ∈ w.log → s'.id = s.id → s'.parent = s.parent)
    (hmarks : ∀ c', w'.world.marks c' =
      if c' = c then settled s (w.world.marks c) else w.world.marks c') : Tended w' := by
  -- a copy stays if it is of another transaction or in another container
  have hcopy : ∀ {c' t}, w'.world.marks c' (some t) ≠ none ↔
      w.world.marks c' (some t) ≠ none ∧ ¬(c' = c ∧ t = s.id) := by
    intro c' t
    rw [hmarks]
    grind [settled]
  constructor
  · grind [overlay, told_settle]
  · intro c' l t hl
    rw [hcopy, hlog]
    rw [hmarks] at hl
    -- its own mark is on the layer of its parent, from where it was taken
    grind [mark, settled]

/-! ### The host -/

theorem confirm (h : Tended w)
    (hagree : ∀ {s' voter}, .asked c s' voter ∈ w.log → s'.id = s.id → s'.parent = s.parent) :
    Tended (World.host.logged.confirm c s w) := by
  refine h.settle rfl (.inl rfl) hagree fun c' => ?_
  show (World.host.confirm c s w.world).marks c' = _
  rw [World.marks_confirm]
  by_cases hcopy : w.world.marks c (some s.id) = none
  · -- without a copy there is no mark either
    grind [mark, settled]
  · simp only [hcopy, ne_eq, not_false_eq_true, and_true]

theorem rollback (h : Tended w)
    (hagree : ∀ {s' voter}, .asked c s' voter ∈ w.log → s'.id = s.id → s'.parent = s.parent) :
    Tended (World.host.logged.rollback c s w) :=
  h.settle rfl (.inr rfl) hagree (World.marks_rollback c s w.world)

theorem sent_tells : ∀ a ∈ mail.map Entry.sent, a.tells = false := by
  intro a ha
  obtain ⟨message, -, rfl⟩ := mem_map.1 ha
  rfl

theorem vote (h : Tended w) (voter : TokenId) :
    Tended (World.host.logged.ready c s voter w).world := by
  have hlog : (World.host.logged.ready c s voter w).world.log =
      w.log ++ (.asked c s voter :: (World.host.ready c s voter w.world).mail.map .sent) :=
    append_assoc ..
  exact h.ready hlog (forall_mem_cons.2 ⟨rfl, sent_tells⟩) mem_cons_self
    (World.marks_ready c s voter w.world)

/-- What a step asks for. -/
theorem asks (h : Tended w) {scope : Option Scope} {notices : List Notice}
    (hasks : Asks World.host.logged scope w w' mail notices)
    (hfree : ∀ s, scope = some s → ∀ x ∈ s.lineage, ∀ c, ¬Told w.log c x) : Tended w' := by
  induction hasks with
  | nothing => exact h
  | call site args => exact h.calm rfl sent_tells (World.calm_call site args w.world)
  | launch site args t =>
    refine h.calm (append_assoc ..) ?_ (World.calm_launch site args t w.world)
    refine forall_mem_append.2 ⟨?_, sent_tells⟩
    split <;> simp [Entry.tells]
  | outside site args hs =>
    have hsame : ∀ c, (World.host.transact site args none w.world).world.marks c =
        w.world.marks c := by
      intro c
      rcases World.marks_transact site args none w.world c with heq | ⟨-, htouches⟩
      · exact heq
      · exact htouches.eq_of_nil
    refine h.frame (append_assoc ..) (forall_mem_append.2 ⟨by simp, sent_tells⟩)
      (fun c t => congrFun (hsame c) _) fun {c l t} hl => ?_
    exact (congrFun (hsame c) l).symm.trans hl
  | @inside site args s hs =>
    refine h.transact (append_assoc ..) ?_ ?_ (hfree s hs)
      (World.marks_transact site args (some s) w.world)
    · refine forall_mem_append.2 ⟨?_, sent_tells⟩
      simp [Entry.tells]
    · exact mem_append_left _ mem_cons_self
  | report failure _ ih =>
    exact ih.calm (append_nil _).symm (by simp) (.of_cohorts rfl)
  | publish publication _ ih =>
    exact ih.calm (append_nil _).symm (by simp) (.of_cohorts rfl)

end Tended

/-! ## Scopes in the log -/

section Agreed

variable {ω : Type} {m : Charter} {host : Host ω} {past : History ω}
  {e e' : Engine (Logged ω)}

/-- Cohorts are asked and told in one scope for each transaction. -/
structure Agreed (e : Engine (Logged ω)) : Prop where
  asked : ∀ {c s voter txn}, .asked c s voter ∈ e.world.log →
    e.transactions.get? s.id = some txn → txn.scope = s
  rollback : ∀ {c s voter c' s'}, .asked c s voter ∈ e.world.log → .rollback c' s' ∈ e.agenda →
    s'.id = s.id → s' = s

/-- A cohort is asked for its vote when a body is done, in the scope of the transaction. -/
theorem Engine.perform_asked (he' : e.perform host.logged a = .ok e') {s : Scope}
    (hentry : .asked c s voter ∈ e'.world.log) :
    .asked c s voter ∈ e.world.log ∨ ∃ x txn, a = .prepare x ∧ e.transactions.get? x = some txn ∧
      txn.state = .running ∧ s = txn.scope := by
  cases performed he' with
  | quiesce =>
    rw [react_world] at hentry
    exact .inl hentry
  | release =>
    rw [spawnReady_world] at hentry
    exact .inl hentry
  | @prepare x txn preg hx hstate =>
    let only := fun e₁ : Engine (Logged ω) => .asked c s voter ∈ e₁.world.log →
      .asked c s voter ∈ e.world.log ∨ s = txn.scope
    have hall : only (askVotes host.logged txn.scope (txn.vote x e.regions.next) (e.openVotes x txn)
        txn.cohorts) := by
      have hopen : only (e.openVotes x txn) := .inl
      refine askVotes_induct (P := only) ?_ hopen txn.cohorts
      intro e₁ e₂ id c' h₁ hs hentry
      obtain ⟨-, -, -, he₂⟩ := spawn_eq_some hs
      have hworld : e₂.world = e₁.world := by rw [he₂]
      have hentry : .asked c s voter ∈ e₂.world.log ++ [.asked c' txn.scope id] ++ _ := hentry
      grind
    exact (hall hentry).imp_right fun hs => ⟨x, txn, rfl, hx, hstate, hs⟩
  | @verify x txn =>
    have hentry : .asked c s voter ∈
        (txn.cohorts.foldl (fun w c => host.logged.confirm c txn.scope w) e.world).log := hentry
    rw [host.log_confirms] at hentry
    grind
  | rollback =>
    have hentry : .asked c s voter ∈ e.world.log ++ [_] := hentry
    simpa using hentry
  | _ => exact .inl hentry

namespace Agreed

/-- Nobody is asked, and the transactions that were there keep their scopes. -/
theorem frame (h : Agreed e) (hl : Ledger past e)
    (hentry : ∀ {c s voter}, .asked c s voter ∈ e'.world.log → .asked c s voter ∈ e.world.log)
    (htxn : ∀ {x txn'}, x.index < e.transactions.next.index → e'.transactions.get? x = some txn' →
      ∃ txn, e.transactions.get? x = some txn ∧ txn'.scope = txn.scope)
    (hagenda : ∀ {c s}, .rollback c s ∈ e'.agenda → .rollback c s ∈ e.agenda) : Agreed e' where
  asked := by grind [Ledger.asked, asked]
  rollback := fun hasked hm hid => h.rollback (hentry hasked) (hagenda hm) hid

/-- A turn that transactions do not notice. -/
theorem quiet (h : Agreed e) (hl : Ledger past e)
    (hentry : ∀ {c s voter}, .asked c s voter ∈ e'.world.log → .asked c s voter ∈ e.world.log)
    (hx : e'.transactions = e.transactions)
    (hagenda : ∀ {c s}, .rollback c s ∈ e'.agenda → .rollback c s ∈ e.agenda) : Agreed e' := by
  grind [frame]

theorem perform (h : Agreed (e.plan [a])) (hc : Coherent m (e.plan [a]))
    (hl : Ledger past (e.plan [a])) (he' : e.perform host.logged a = .ok e') : Agreed e' := by
  constructor
  · intro c s voter txn' hasked hx
    obtain ⟨txn, hx, hstays⟩ := perform_txn_from he' hx
    rw [hstays.scope]
    rcases perform_asked he' hasked with hasked | ⟨x, txn₀, rfl, hx₀, -, rfl⟩
    · exact h.asked hasked hx
    · rw [hc.core.scope_id hx₀] at hx
      cases hx₀.symm.trans hx
      rfl
  · intro c s voter c' s' hasked hm hid
    obtain ⟨new, hagenda, hnew⟩ := perform_plans he'
    rw [hagenda] at hm
    rcases perform_asked he' hasked with hasked | ⟨x, txn, rfl, hx, hstate, rfl⟩
    · rcases mem_append.1 hm with hm | hm
      · cases hnew _ hm with
        | rollback hx =>
          have hx' := hx
          rw [← hc.core.scope_id hx, hid] at hx'
          exact h.asked hasked hx'
      · exact h.rollback hasked (mem_cons_of_mem a hm) hid
    · rcases mem_append.1 hm with hm | hm
      · cases hnew _ hm
      · -- a transaction whose cohorts are asked now has not been aborted
        obtain ⟨e₁, he₁, haborts⟩ :=
          hl.rolledBack (.inr (mem_rollbacks.2 (mem_cons_of_mem (.prepare x) hm)))
        rw [hid, hc.core.scope_id hx] at haborts
        exact absurd (.inr haborts) (hl.undecided hx (.inl hstate) he₁)

/-- A turn asks and tells every cohort in the scope of the transaction. -/
theorem turn (h : Agreed e) (hc : Coherent m e) (hl : Ledger past e) {p : Progress (Logged ω)}
    (hp : e.turn host.logged = .ok p) : Agreed p.state := by
  have hsent : ∀ {log : List Entry} {mail : List Message} {c s voter},
      Entry.asked c s voter ∈ log ++ mail.map Entry.sent → Entry.asked c s voter ∈ log := by
    intro log mail c s voter hm
    simpa using hm
  cases turned hp with
  | chore he he' =>
    subst he
    exact h.perform hc hl he'
  | done | skip => exact h.quiet hl id rfl id
  | @step t tok ready node e' ha hh hready ht hphase hnode he' =>
    obtain ⟨mail, notices, hf⟩ := hc.footprint ha ht hphase he'
    obtain ⟨calls, hlog⟩ := hf.asks.log_eq
    refine h.frame hl (fun {c s voter} hm => ?_) (fun {x txn'} hold hx => ?_) fun hm => ?_
    · have hm : Entry.asked c s voter ∈ e'.world.log := hm
      rw [hlog] at hm
      have hm : Entry.asked c s voter ∈ e.world.log ++ _ := hm
      simpa using hm
    · rcases hf.txn_from hx with ⟨txn, hx, halike, -⟩ | ⟨rfl, -⟩
      · exact ⟨txn, hx, halike.scope⟩
      · exact absurd hold (Nat.lt_irrefl _)
    · cases hf.follows _ hm
  | @message message inbox ha hh hready hinbox =>
    have hreceived := received host.logged { e with inbox } message
    show Agreed (Engine.receive host.logged { e with inbox } message)
    have hagenda : ∀ {c s},
        .rollback c s ∈ (Engine.receive host.logged { e with inbox } message).agenda →
          .rollback c s ∈ e.agenda := by
      intro c s hm
      rcases receive_agenda message hm with hm | ⟨t, heq⟩ | ⟨y, heq⟩
      · exact hm
      · cases heq
      · cases heq
    generalize Engine.receive host.logged { e with inbox } message = e' at hreceived hagenda
    cases hreceived <;> exact h.quiet hl id rfl hagenda
  | idle ha hh hready hinbox =>
    have hidled := e.idled host.logged
    have hagenda : ∀ {c s}, .rollback c s ∈ (e.idle host.logged).state.agenda →
        .rollback c s ∈ e.agenda := by
      intro c s hm
      rwa [idle_agenda] at hm
    generalize e.idle host.logged = p at hidled hagenda
    cases hidled with
    | await heffect =>
      obtain ⟨effect, -, rfl⟩ := Option.map_eq_some_iff.1 heffect
      exact h.quiet hl hsent rfl hagenda
    | stuck => exact h.quiet hl id rfl hagenda
    | tick =>
      have heq : e.dropDeadTimers.tick = _ := wakeAll_eq _ e.dropDeadTimers.due
      refine h.quiet hl (fun hm => ?_) ?_ hagenda
      · have hm := hsent hm
        rw [heq] at hm
        exact hm
      · show e.dropDeadTimers.tick.transactions = _
        rw [heq]
        rfl

theorem start (program : Program) (limit : Option Nat) (world : ω) :
    Agreed (Engine.opening program limit world) := by
  have hlog : (opening program limit world).world.log = [] := by
    rw [opening_world]
  constructor
  · intro c s voter txn hasked
    rw [hlog] at hasked
    cases hasked
  · intro c s voter c' s' hasked
    rw [hlog] at hasked
    cases hasked

end Agreed

/-- In a polite run cohorts are asked and told in one scope for each transaction. -/
theorem Run.agreed {world : ω} (h : Run host program limit world past e)
    (hpolite : Polite e.world.log) : Agreed e := by
  induction h with
  | start => exact .start program limit world
  | turn hrun hp ih =>
    have hbefore := hrun.polite hp hpolite
    obtain ⟨m, hc, -, hl⟩ := hrun.sound hbefore
    exact (ih hbefore).turn hc hl hp
  | @arrive past e hrun message ih =>
    have hbefore := hpolite.mono (prefix_append ..)
    obtain ⟨m, -, -, hl⟩ := hrun.sound hbefore
    refine (ih hbefore).quiet hl (fun {c s voter} hm => ?_) rfl id
    have hm : Entry.asked c s voter ∈ e.world.log ++ [_] := hm
    simpa using hm

end Agreed

/-! ## Containers in a run -/

section Runs

variable {m : Charter} {past : List (Engine (Logged World))} {e e' : Engine (Logged World)}

namespace Tended

/-- Chores keep the containers tended. -/
theorem perform (h : Tended (e.plan [a]).world) (hc : Coherent m (e.plan [a]))
    (hagreed : Agreed (e.plan [a])) (he' : e.perform World.host.logged a = .ok e') :
    Tended e'.world := by
  cases Engine.performed he' with
  | quiesce =>
    rw [react_world]
    exact h
  | release =>
    rw [spawnReady_world]
    exact h
  | @prepare x txn =>
    have hopen : Tended (e.openVotes x txn).world := h
    refine askVotes_induct (P := fun e => Tended e.world) ?_ hopen txn.cohorts
    intro e₁ e₂ id c h₁ hs
    obtain ⟨-, -, -, he₂⟩ := spawn_eq_some hs
    have hworld : e₂.world = e₁.world := by rw [he₂]
    show Tended (World.host.logged.ready c txn.scope id e₂.world).world
    rw [hworld]
    exact h₁.vote id
  | @verify x txn hx =>
    -- the cohorts are told one after the other
    have hall : ∀ (cohorts : List CohortId) (w : Logged World), Tended w →
        (∀ {c s voter}, .asked c s voter ∈ w.log → .asked c s voter ∈ e.world.log) →
        Tended (cohorts.foldl (fun w c => World.host.logged.confirm c txn.scope w) w) := by
      intro cohorts
      induction cohorts with
      | nil => exact fun w hw _ => hw
      | cons c cohorts ih =>
        intro w hw hsub
        refine ih _ (hw.confirm fun {s' voter} hasked hid => ?_) fun {c' s' voter} hasked => hsub ?_
        · have hx' := hx
          rw [← hc.core.scope_id hx, ← hid] at hx'
          rw [hagreed.asked (hsub hasked) hx']
        · have hasked : .asked c' s' voter ∈ w.log ++ [_] := hasked
          simpa using hasked
    exact hall txn.cohorts e.world h id
  | @rollback c s =>
    refine h.rollback fun {s' voter} hasked hid => ?_
    rw [hagreed.rollback hasked mem_cons_self hid.symm]
  | _ => exact h

/-- So do turns. -/
theorem turn (h : Tended e.world) (hc : Coherent m e) (hs : Sections m e e.agenda.head?)
    (hl : Ledger past e) (hagreed : Agreed e) {p : Progress (Logged World)}
    (hp : e.turn World.host.logged = .ok p) : Tended p.state.world := by
  cases turned hp with
  | @chore e₁ e' a he he' =>
    subst he
    exact h.perform hc hagreed he'
  | done | skip => exact h
  | @step t tok ready node e' ha hh hready ht hphase hnode he' =>
    have hcore := hc.taken ha ready
    have hphase' : tok.phase ≠ .voting := by simp [hphase]
    obtain ⟨mail, notices, hf⟩ := execute_footprint hcore ht hphase' ha he'
    refine asks (w := (e.taken ready).world) h hf.asks fun s hscope x hx c htold => ?_
    -- the transactions of the caller run, so none of them is over
    rw [hcore.scopeOf_lineage hscope] at hx
    rw [ha] at hs
    obtain ⟨⟨txn, htxn, hstate⟩, -⟩ := hs.running (hc.core_of_idle ha) ha ht hphase' x hx
    obtain ⟨s', rfl, htold | htold⟩ := htold
    · obtain ⟨e₁, he₁, hcommits⟩ := hl.confirmed htold
      exact hl.undecided htxn (.inl hstate) he₁ (.inl hcommits)
    · obtain ⟨e₁, he₁, haborts⟩ := hl.rolledBack (.inl htold)
      exact hl.undecided htxn (.inl hstate) he₁ (.inr haborts)
  | @message message inbox ha hh hready hinbox =>
    have hreceived := received World.host.logged { e with inbox } message
    show Tended (Engine.receive World.host.logged { e with inbox } message).world
    generalize Engine.receive World.host.logged { e with inbox } message = e' at hreceived
    cases hreceived with
    | fail => exact h.calm (append_nil _).symm (by simp) (.of_cohorts rfl)
    | _ => exact h
  | idle ha hh hready hinbox =>
    have hidled := e.idled World.host.logged
    generalize e.idle World.host.logged = p at hidled
    cases hidled with
    | await heffect =>
      obtain ⟨effect, hawait, rfl⟩ := Option.map_eq_some_iff.1 heffect
      exact h.calm rfl sent_tells (World.calm_await hawait)
    | stuck => exact h
    | tick =>
      have heq : e.dropDeadTimers.tick = _ := wakeAll_eq _ e.dropDeadTimers.due
      have hworld : e.dropDeadTimers.tick.world = e.world := by
        rw [heq]
        rfl
      show Tended (World.host.logged.yield e.dropDeadTimers.tick.world).world
      rw [hworld]
      exact h.calm rfl sent_tells (.of_cohorts rfl)

end Tended

/-- A container that no transaction has touched. -/
def Container.Untouched : Container → Prop
  | .buffer _ items => items.overlays = [] ∧ items.committed.pending = none
  | .reference content => content.overlays = [] ∧ content.committed.pending = none

/-- A world in which no container has been touched by a transaction. -/
def World.Untouched (w : World) : Prop :=
  ∀ (c : CohortId) k, w.cohorts[c.index]? = some (.container k) → k.Untouched

theorem Versioned.marks_untouched {α : Type} {v : Versioned α} (hoverlays : v.overlays = [])
    (hpending : v.committed.pending = none) (l : Option TxnId) :
    v.marks l = if l = none then some none else none := by
  unfold marks layer?
  cases l with
  | none => simp [hpending]
  | some t => simp [hoverlays]

theorem World.Untouched.marks {w : World} (h : w.Untouched) (c : CohortId) (l : Option TxnId) :
    w.marks c l = none ∨ w.marks c l = some none ∧ l = none := by
  by_cases hcontainer : ∃ k, w.cohorts[c.index]? = some (.container k)
  · obtain ⟨k, hk⟩ := hcontainer
    have hmarks : k.marks l = if l = none then some none else none := by
      have huntouched := h c k hk
      cases k with
      | buffer capacity items => exact items.marks_untouched huntouched.1 huntouched.2 l
      | reference content => exact content.marks_untouched huntouched.1 huntouched.2 l
    rw [World.marks_of_container hk, hmarks]
    split
    · exact .inr ⟨rfl, ‹_›⟩
    · exact .inl rfl
  · rw [World.marks_of_none fun k hk => hcontainer ⟨k, hk⟩]
    exact .inl rfl

theorem Tended.start {w : World} (h : w.Untouched) : Tended ⟨w, []⟩ := by
  constructor
  · grind [World.Untouched.marks]
  · grind [World.Untouched.marks]

/-- In a polite run the containers hold what they were asked for. -/
theorem Run.tended {world : World} (h : Run World.host program limit world past e)
    (hpolite : Polite e.world.log) (huntouched : world.Untouched) : Tended e.world := by
  induction h with
  | start =>
    rw [opening_world]
    exact .start huntouched
  | turn hrun hp ih =>
    have hbefore := hrun.polite hp hpolite
    obtain ⟨m, hc, hs, hl⟩ := hrun.sound hbefore
    exact (ih hbefore).turn hc hs hl (hrun.agreed hbefore) hp
  | arrive hrun message ih =>
    exact (ih (hpolite.mono (prefix_append ..))).calm rfl (by simp [Entry.tells])
      (.of_cohorts rfl)

/-! ## Nothing is left behind -/

/-- The transactions around one that is there are there too, and run. -/
theorem Sections.around (h : Sections m e none) (hcore : Core m e none) (ha : e.agenda = [])
    {txn : Transaction} (hx : e.transactions.get? x = some txn) {p : TxnId}
    (hp : txn.scope.parent = some p) :
    ∃ ptxn, e.transactions.get? p = some ptxn ∧ ptxn.state = .running := by
  obtain ⟨hlineage, hown, -⟩ := hcore.aligned.scope hx
  obtain ⟨hkept, -, -, hparent, -⟩ := hcore.aligned.transaction hx
  obtain ⟨reg, hr⟩ := h.continued hcore hx
  have hancestors : txn.scope.ancestors = m.lineage? (m.txn txn.continuation.region) := by
    rw [hkept.txn, ← hparent]
    exact (List.cons.inj (hlineage.trans hown)).2
  refine (h.region_running hcore ha hr (h.continuation hx) p ?_).1
  rw [← hancestors]
  exact mem_of_mem_head? hp

/-- Between two steps, whoever has a copy takes part in a transaction that is not over, and so do those
    around it. -/
theorem Tended.copy (h : Tended e.world) (hc : Coherent m e) (hs : Sections m e e.agenda.head?)
    (hl : Ledger past e) (hd : Decisions past e) (ha : e.agenda = []) {t : TxnId}
    (ht : e.world.world.marks c (some t) ≠ none) :
    ∃ txn, e.transactions.get? t = some txn ∧ (txn.state = .running ∨ txn.state = .readying) ∧
      c ∈ txn.cohorts ∧ ∀ p, txn.scope.parent = some p → e.world.world.marks c (some p) ≠ none := by
  obtain ⟨htold, s, cohorts, hentry, hmem, hts, hall⟩ := h.overlay ht
  have henlisted : Enlisted e.world.log c t := ⟨s, cohorts, hentry, hts, hmem⟩
  obtain ⟨hknown, hwithin⟩ := hl.lineage hentry hts
  rcases hd.decided hknown with ⟨txn, hx, hstate⟩ | ⟨e₁, he₁, hcommits | haborts⟩
  · refine ⟨txn, hx, hstate, (hl.enlisted hx c).2 henlisted, fun p hp => ?_⟩
    have hps : p ∈ s.lineage := hwithin txn hx p (mem_cons_of_mem _ (mem_of_mem_head? hp))
    refine (hall p hps).resolve_right ?_
    rw [ha] at hs
    obtain ⟨ptxn, hpx, hrunning⟩ := hs.around (hc.core_of_idle ha) ha hx hp
    rintro ⟨s', rfl, htold | htold⟩
    · obtain ⟨e₁, he₁, hcommits⟩ := hl.confirmed htold
      exact hl.undecided hpx (.inl hrunning) he₁ (.inl hcommits)
    · obtain ⟨e₁, he₁, haborts⟩ := hl.rolledBack (.inl htold)
      exact hl.undecided hpx (.inl hrunning) he₁ (.inr haborts)
  · obtain ⟨s', hid, hconfirmed⟩ := (hl.committed he₁ hcommits).2.2 c henlisted
    exact absurd ⟨s', hid, .inl hconfirmed⟩ htold
  · obtain ⟨s', hid, hrolled | hpending⟩ := (hl.aborted he₁ haborts).2.2 c henlisted
    · exact absurd ⟨s', hid, .inr hrolled⟩ htold
    · rw [ha] at hpending
      cases hpending

/-- Between two steps, a mark stands for a transaction whose votes are out. -/
theorem Tended.pending (h : Tended e.world) (hc : Coherent m e) (hs : Sections m e e.agenda.head?)
    (hl : Ledger past e) (hd : Decisions past e) (hagreed : Agreed e) (ha : e.agenda = [])
    {l : Option TxnId} {t : TxnId} (ht : e.world.world.marks c l = some (some t)) :
    ∃ txn, e.transactions.get? t = some txn ∧ txn.state = .readying ∧ txn.scope.parent = l := by
  obtain ⟨hcopy, s, voter, hasked, rfl, rfl⟩ := h.mark ht
  obtain ⟨txn, hx, hstate, -⟩ := h.copy hc hs hl hd ha hcopy
  refine ⟨txn, hx, hstate.resolve_left ((hl.asked hasked).2 txn hx), ?_⟩
  rw [hagreed.asked hasked hx]

/-- What is left of transactions in a value that belongs to the cohort `c`: nothing of those that are
    over. -/
structure Versioned.Kempt {ω α : Type} (past : List (Engine ω)) (e : Engine ω) (c : CohortId)
    (v : Versioned α) : Prop where
  /-- Who has a copy is a transaction of the run in which the cohort takes part, and the transaction
      around it has a copy too. -/
  overlay : ∀ {t layer}, v.layer? (some t) = some layer → ∃ txn, e.transactions.get? t = some txn ∧
    (txn.state = .running ∨ txn.state = .readying) ∧ c ∈ txn.cohorts ∧
      ∀ p, txn.scope.parent = some p → ∃ outer, v.layer? (some p) = some outer
  /-- A layer awaits a transaction whose votes are out and whose parent the layer belongs to. -/
  pending : ∀ {l layer t}, v.layer? l = some layer → layer.pending = some t →
    ∃ txn, e.transactions.get? t = some txn ∧ txn.state = .readying ∧ txn.scope.parent = l
  finished : ∀ {e₁ x}, e₁ ∈ past → e₁.Commits x ∨ e₁.Aborts x → v.layer? (some x) = none ∧
    ∀ {l layer}, v.layer? l = some layer → layer.pending ≠ some x

def Container.Kempt {ω : Type} (past : List (Engine ω)) (e : Engine ω) (c : CohortId) : Container → Prop
  | .buffer _ items => items.Kempt past e c
  | .reference content => content.Kempt past e c

/-- No container stays frozen or keeps traces of a transaction that is over.  In every state of a run
    with nothing left to do, the copies in a container belong to transactions that are not over, and
    the marks to those whose votes are out. -/
theorem containers_keep_no_trace (program : Program) (limit : Option Nat) (world : World)
    {past : List (Engine (Logged World))} {e : Engine (Logged World)}
    (h : Run World.host program limit world past e) (hpolite : Polite e.world.log)
    (huntouched : world.Untouched) (ha : e.agenda = []) {c : CohortId} {k : Container}
    (hk : e.world.world.cohorts[c.index]? = some (.container k)) : k.Kempt past e c := by
  obtain ⟨m, hc, hs, hl⟩ := h.sound hpolite
  have htended := h.tended hpolite huntouched
  have hd := h.decisions hpolite
  have hagreed := h.agreed hpolite
  have hkempt : ∀ {α : Type} {v : Versioned α}, v.marks = e.world.world.marks c →
      v.Kempt past e c := by
    intro α v hv
    have hcopy : ∀ {l}, (∃ layer, v.layer? l = some layer) ↔ e.world.world.marks c l ≠ none := by
      intro l
      rw [← hv, ← Option.ne_none_iff_exists', Versioned.marks, Ne, Ne, Option.map_eq_none_iff]
    have hmark : ∀ {l layer t}, v.layer? l = some layer → layer.pending = some t →
        e.world.world.marks c l = some (some t) := by
      intro l layer t hl hpending
      rw [← hv, Versioned.marks, hl, ← hpending]
      rfl
    refine ⟨fun {t layer} hlayer => ?_, fun {l layer t} hlayer hpending => ?_,
      fun {e₁ x} he₁ hover => ⟨?_, fun {l layer} hlayer hpending => ?_⟩⟩
    · obtain ⟨txn, hx, hstate, hmem, hparent⟩ :=
        htended.copy hc hs hl hd ha (hcopy.1 ⟨layer, hlayer⟩)
      exact ⟨txn, hx, hstate, hmem, fun p hp => hcopy.2 (hparent p hp)⟩
    · exact htended.pending hc hs hl hd hagreed ha (hmark hlayer hpending)
    · by_contra hne
      obtain ⟨layer, hlayer⟩ := Option.ne_none_iff_exists'.1 hne
      obtain ⟨txn, hx, hstate, -⟩ := htended.copy hc hs hl hd ha (hcopy.1 ⟨layer, hlayer⟩)
      exact hl.undecided hx hstate he₁ hover
    · obtain ⟨txn, hx, hstate, -⟩ :=
        htended.pending hc hs hl hd hagreed ha (hmark hlayer hpending)
      exact hl.undecided hx (.inr hstate) he₁ hover
  have hmarks := World.marks_of_container hk
  cases k with
  | buffer capacity items => exact hkempt hmarks.symm
  | reference content => exact hkempt hmarks.symm

/-- `Ref(0) >r> atomic (atomic (r.write(1)))`: an inner transaction commits into an outer one. -/
def Expr.nestedWrite : Expr :=
  .sequential (.call (.site "Ref") [.literal (.int 0)] .none)
    (.atomic (.atomic (.sequential (.field (.variable 0) "write")
      (.call (.variable 0) [.literal (.int 1)] .none))))

/-- Its only site, -/
def Registry.nestedWrite : Registry := ⟨[⟨"Ref", 0, .immediate⟩]⟩

/-- and what that does. -/
def World.nestedWrite : World := { operations := #[.makeReference] }

/-- A run in which the layer of the outer transaction awaits the commit of the inner one. -/
theorem containers_keep_no_trace_nestedWrite : ∃ p past e k,
    Expr.nestedWrite.compile Registry.nestedWrite = .ok p ∧
      Run World.host p none World.nestedWrite past e ∧ Polite e.world.log ∧
      World.nestedWrite.Untouched ∧ e.agenda = [] ∧
      e.world.world.cohorts[0]? = some (.container k) ∧ k.marks (some ⟨0⟩) = some (some ⟨1⟩) ∧
      k.Kempt past e ⟨0⟩ := by
  obtain ⟨p, past, e, hp, hrun, hcheck⟩ := Run.compiled Expr.nestedWrite Registry.nestedWrite
    World.host none World.nestedWrite 16 (fun e => decide (Polite e.world.log) &&
      e.agenda.isEmpty && e.world.world.marks ⟨0⟩ (some ⟨0⟩) = some (some ⟨1⟩))
    ⟨_, rfl, by decide +kernel⟩
  simp only [Bool.and_eq_true, decide_eq_true_eq, List.isEmpty_iff] at hcheck
  obtain ⟨⟨hpolite, ha⟩, hmark⟩ := hcheck
  obtain ⟨k, hk⟩ : ∃ k, e.world.world.cohorts[0]? = some (.container k) := by
    by_contra hnone
    rw [World.marks_of_none fun k hk => hnone ⟨k, hk⟩] at hmark
    cases hmark
  have huntouched : World.nestedWrite.Untouched := by
    intro c k hk
    simp [World.nestedWrite] at hk
  rw [World.marks_of_container hk] at hmark
  exact ⟨p, past, e, k, hp, hrun, hpolite, huntouched, ha, hk, hmark,
    containers_keep_no_trace _ _ _ hrun hpolite huntouched ha hk⟩

end Runs

end Orchestra
