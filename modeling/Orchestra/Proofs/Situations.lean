/-
  Situations: between two steps every token is in one place, and dead names are harmless.

  A wake-up is lost when a token waits for something and is written down nowhere, and it is given
  twice when the token is written down in two places.  `Stations` counts the places; here the counts
  are turned into what they mean when nothing is left to do:

  * a RUNNABLE token stands once in the queue;
  * a BLOCKED one stands once with one cell, which is alive and has no value, or on one clock;
  * a CALLING one has one call out, or one answer to it is in the inbox;
  * a VOTING one has one vote out, or this vote is in the inbox.

  A name may stay behind when its token ends.  Such a name is dropped where it comes up, and since
  no key is given out twice it never comes to mean another token.
-/
import Orchestra.Proofs.Stations

namespace Orchestra

open Engine List

variable {ω : Type} {m : Charter} {host : Host ω} {e e₁ e₂ e' : Engine (Logged ω)} {t v : TokenId}
  {past : History ω} {tok : Token}

/-! ## Tokens that were there before -/

/-- No token comes back, and none starts or ceases to stand for a vote. -/
theorem Engine.turn_old {e : Engine ω} {p : Progress ω} (hc : Coherent m e)
    (hs : Sections m e e.agenda.head?)
    (hvote : ∀ t reply tok, .returned t reply ∈ e.inbox → e.tokens.get? t = some tok →
      tok.phase = .voting → reply = .halt) (hp : e.turn host = .ok p) :
    e.tokens.next.index ≤ p.state.tokens.next.index ∧
      ∀ {v tok'}, v.index < e.tokens.next.index → p.state.tokens.get? v = some tok' →
        ∃ tok, e.tokens.get? v = some tok ∧ (tok'.phase = .voting ↔ tok.phase = .voting) := by
  have same : ∀ {e' : Engine ω}, e'.tokens = e.tokens →
      e.tokens.next.index ≤ e'.tokens.next.index ∧
      ∀ {v tok'}, v.index < e.tokens.next.index → e'.tokens.get? v = some tok' →
        ∃ tok, e.tokens.get? v = some tok ∧ (tok'.phase = .voting ↔ tok.phase = .voting) := by grind
  cases turned hp with
  | chore he he' =>
    subst he
    have hnext := perform_next he'
    refine ⟨hnext, fun hv ht' => ?_⟩
    rcases perform_old he' hv ht' with ht | ⟨tok, ht, ⟨rfl, rfl⟩ | ⟨n, -, rfl⟩⟩
    · exact ⟨_, ht, .rfl⟩
    · have hvoteless := (hs.wake mem_cons_self).2 ht
      exact ⟨tok, ht, ⟨by rintro ⟨⟩, fun hphase => absurd hphase hvoteless⟩⟩
    · exact ⟨tok, ht, .rfl⟩
  | done => exact same rfl
  | skip => exact same rfl
  | step ha hh hready ht hphase hnode he' =>
    rename_i t tok ready _ e'
    obtain ⟨mail, notices, hf⟩ := hc.footprint ha ht hphase he'
    refine ⟨hf.next_token, fun {v tok'} hv ht' => ?_⟩
    by_cases hvt : v = t
    · subst hvt
      have hmine := (hf.mine ht' (.inl rfl)).1
      grind
    · exact ⟨tok', (hf.others hvt hv).symm.trans ht', .rfl⟩
  | message ha hh hready hinbox =>
    rename_i message inbox
    have hreceived := ({ e with inbox } : Engine ω).received host message
    unfold Progress.state
    dsimp only
    generalize ({ e with inbox } : Engine ω).receive host message = e' at hreceived ⊢
    cases hreceived with
    | @publish t tok value ht =>
      refine ⟨Nat.le_of_eq (congrArg Key.index (Store.next_modify ..).symm), ?_⟩
      intro v tok' hv (ht' : (e.tokens.modify t _).get? v = some tok')
      grind
    | _ => exact same rfl
  | idle ha =>
    have hidled := e.idled host
    generalize e.idle host = p at hidled
    cases hidled with
    | await | stuck => exact same rfl
    | tick =>
      show _ ≤ e.dropDeadTimers.tick.tokens.next.index ∧ ∀ {v tok'}, _ →
        e.dropDeadTimers.tick.tokens.get? v = some tok' → _
      rw [tick_next]
      refine ⟨Nat.le_refl _, fun {v tok'} hv ht' => ?_⟩
      rw [tick_token] at ht'
      split at ht'
      · rename_i hdue
        obtain ⟨tok, ht, rfl⟩ := Option.map_eq_some_iff.1 ht'
        have htimed := timed_of_dropDeadTimers (timed_of_due hdue)
        have hvoteless := (hs.timer htimed).2 ht
        exact ⟨tok, ht, ⟨by rintro ⟨⟩, fun h => absurd h hvoteless⟩⟩
      · exact ⟨tok', ht', .rfl⟩

/-! ## Calls and votes -/

/-- A token that was there once and stands for a vote. -/
def Engine.Voter (e : Engine ω) (t : TokenId) : Prop :=
  t.index < e.tokens.next.index ∧ ∀ ⦃tok⦄, e.tokens.get? t = some tok → tok.phase = .voting

/-- Votes are asked for from those who stand for votes, and calls are made by the others. -/
structure Callers (e : Engine (Logged ω)) : Prop where
  asked : ∀ {c s t}, .asked c s t ∈ e.world.log → e.Voter t
  launched : ∀ {t}, .launched t ∈ e.world.log → e.Voteless t

/-- What is new in the log of `e'` was asked for by the right ones. -/
structure Requests (e e' : Engine (Logged ω)) : Prop where
  asked : ∀ {c s t}, .asked c s t ∈ e'.world.log → .asked c s t ∈ e.world.log ∨ e'.Voter t
  launched : ∀ {t}, .launched t ∈ e'.world.log → .launched t ∈ e.world.log ∨ e'.Voteless t

namespace Requests

/-- Nothing is asked for. -/
theorem of_log (h : ∀ entry ∈ e'.world.log, entry ∈ e.world.log ∨
    (∀ c s t, entry ≠ .asked c s t) ∧ ∀ t, entry ≠ .launched t) : Requests e e' where
  asked hm := .inl ((h _ hm).resolve_right fun hother => hother.1 _ _ _ rfl)
  launched hm := .inl ((h _ hm).resolve_right fun hother => hother.2 _ rfl)

/-- Only messages are new in the log. -/
theorem of_mail (mail : List Message) (h : e'.world.log = e.world.log ++ mail.map .sent) :
    Requests e e' := by grind [of_log]

/-- Those who are asked are voters. -/
theorem askVotes (scope : Scope) {vote : Token} (hp : vote.phase = .voting)
    (cohorts : List CohortId) : Requests e (Engine.askVotes host.logged scope vote e cohorts) := by
  refine askVotes_induct (P := fun e' => Requests e e') ?_ (.of_log fun _ hm => .inl hm)
    cohorts
  intro e₁ e₂ id c h hs
  have hold : ∀ {t}, t.index < e₁.tokens.next.index → e₂.tokens.get? t = e₁.tokens.get? t :=
    (spawn_grown hs).old
  have hnext := (spawn_grown hs).next_token
  obtain ⟨rfl, -, -, he₂⟩ := spawn_eq_some hs
  have htokens : e₂.tokens = e₁.tokens.insert vote := by rw [he₂]
  have hworld : e₂.world = e₁.world := by rw [he₂]
  have hlog : ∀ entry ∈ (e₂.absorb (host.logged.ready c scope e₁.tokens.next e₂.world)).2.world.log,
      entry ∈ e₁.world.log ∨ entry = .asked c scope e₁.tokens.next ∨
        ∃ message, entry = .sent message := by
    intro entry hm
    rw [hworld] at hm
    rcases mem_append.1 hm with hm | hm
    · exact (mem_append.1 hm).imp_right fun hm => .inl (mem_singleton.1 hm)
    · grind
  refine ⟨fun hm => ?_, fun hm => ?_⟩
  · rcases hlog _ hm with hm | heq | ⟨message, heq⟩
    · refine (h.asked hm).imp_right fun ⟨hlt, hvoting⟩ => ⟨Nat.lt_of_lt_of_le hlt hnext, ?_⟩
      exact fun tok ht => hvoting ((hold hlt).symm.trans ht)
    · cases heq
      refine .inr ⟨?_, fun tok (ht : e₂.tokens.get? _ = some tok) => ?_⟩
      · show _ < e₂.tokens.next.index
        rw [htokens, Store.next_insert]
        exact Nat.lt_succ_self _
      · grind
    · cases heq
  · rcases hlog _ hm with hm | heq | ⟨message, heq⟩
    · refine (h.launched hm).imp_right fun ⟨hlt, hvoteless⟩ => ⟨Nat.lt_of_lt_of_le hlt hnext, ?_⟩
      exact fun tok ht => hvoteless ((hold hlt).symm.trans ht)
    · cases heq
    · cases heq

/-- A chore asks for votes only. -/
theorem perform {a : Chore} (he' : e.perform host.logged a = .ok e') : Requests e e' := by
  cases performed he' with
  | @prepare x txn =>
    have hvotes : Requests (e.openVotes x txn) (Engine.askVotes host.logged txn.scope
      (txn.vote x e.regions.next) (e.openVotes x txn) txn.cohorts) := askVotes txn.scope rfl _
    exact ⟨hvotes.asked, hvotes.launched⟩
  | @verify x txn =>
    refine of_log fun entry hm => ?_
    have hm : entry ∈ (txn.cohorts.foldl (fun w c => host.logged.confirm c txn.scope w) e.world).log := hm
    rw [host.log_confirms] at hm
    grind
  | @rollback c s =>
    refine of_log fun entry hm => (mem_append.1 hm).imp_right fun hm => ?_
    cases mem_singleton.1 hm
    simp
  | quiesce =>
    refine of_log fun entry hm => .inl ?_
    rwa [react_world] at hm
  | release =>
    refine of_log fun entry hm => .inl ?_
    rwa [spawnReady_world] at hm
  | _ => exact of_log fun entry hm => .inl hm

/-- In a step only the token that takes it makes a call. -/
theorem step (hc : Core m e none) (hs : Sections m e none) (ha : e.agenda = [])
    (ht : e.tokens.get? t = some tok) (hp : tok.phase = .runnable) {node : Node}
    (he' : e.execute host.logged t tok node = .ok e') : Requests e e' := by
  have hlands : Lands t e e' := execute_lands hc hs ha ht hp he'
  obtain ⟨mail, notices, hf⟩ := execute_footprint hc ht (by simp [hp]) ha he'
  obtain ⟨calls, hlog⟩ := hf.asks.log_eq
  -- who is owed no more answers than before has not made a call
  have hcalls : ∀ {v}, Shifts e e' v 0 0 0 → v ∉ calls := by
    intro v hshift hm
    have howed := hshift.owed
    have hpos : 0 < (calls.map Entry.launched).countP (Entry.calls v) :=
      countP_pos_iff.2 ⟨.launched v, mem_map_of_mem hm, decide_eq_true rfl⟩
    have hnotices : ∀ f : Entry → Bool, (∀ s cs, f (.transacted s cs) = false) →
        (notices.map fun n => Entry.transacted n.1 n.2).countP f = 0 := by
      intro f hf
      rw [countP_map, countP_eq_zero]
      simp [hf]
    have hlaunches : (calls.map Entry.launched).countP (Entry.answers v) = 0 := by
      rw [countP_map, countP_eq_zero]
      simp [Entry.answers]
    unfold Engine.owed at howed
    rw [hlog, hf.inbox] at howed
    grind [Entry.countP_answers_sent, Entry.answers]
  refine ⟨fun {c s v} hm => ?_, fun {v} hm => ?_⟩
  · grind
  · rw [hlog] at hm
    simp only [mem_append, mem_map, reduceCtorEq, and_false, exists_false, or_false,
      false_or, Entry.launched.injEq, exists_eq_right] at hm
    refine hm.imp_right fun hm => ⟨?_, fun tok' ht' => ?_⟩
    · by_contra hle
      exact hcalls (hlands.unborn (Nat.not_lt.1 hle)) hm
    · by_cases hnew : v = t ∨ e.tokens.next.index ≤ v.index
      · exact (hf.mine ht' hnew).1
      · grind [Lands.others]

theorem receive (host : Host ω) (message : Message) :
    Requests e (e.receive host.logged message) := by
  refine of_log fun entry hm => .inl ?_
  have hreceived := e.received host.logged message
  generalize e.receive host.logged message = e' at hreceived hm
  cases hreceived <;> exact hm

theorem idle : Requests e (e.idle host.logged).state := by
  have hidled := e.idled host.logged
  generalize e.idle host.logged = p at hidled
  cases hidled with
  | await heffect =>
    obtain ⟨effect, -, rfl⟩ := Option.map_eq_some_iff.1 heffect
    exact of_mail effect.mail rfl
  | stuck => exact of_log fun entry hm => .inl hm
  | tick =>
    have hticked : e.dropDeadTimers.tick.world = e.world := wakeAll_world _
    refine of_mail (host.yield e.dropDeadTimers.tick.world.world).mail ?_
    show e.dropDeadTimers.tick.world.log ++ _ = _
    rw [hticked]

end Requests

/-- In every run calls are made by those who do not stand for votes. -/
theorem Run.callers {program : Program} {limit : Option Nat} {world : ω}
    (h : Run host program limit world past e) (hpolite : Polite e.world.log) : Callers e := by
  induction h with
  | start =>
    have hlog : (opening program limit world).world.log = [] := by
      rw [opening_world]
    refine ⟨?_, ?_⟩
    · rw [hlog]
      exact fun hm => nomatch hm
    · rw [hlog]
      exact fun hm => nomatch hm
  | @turn past e p hrun hp ih =>
    have hbefore := hrun.polite hp hpolite
    obtain ⟨m, hc, hs, hl⟩ := hrun.sound hbefore
    have hcallers := ih hbefore
    obtain ⟨hnext, hold⟩ :=
      turn_old hc hs (fun _ _ _ hm ht hv => hl.votes hbefore hm ht hv) hp
    have hrequests : Requests e p.state := by
      cases turned hp with
      | chore he he' =>
        subst he
        have hasked := Requests.perform he'
        exact ⟨hasked.asked, hasked.launched⟩
      | done => exact .of_log fun _ hm => .inl hm
      | skip => exact .of_log fun _ hm => .inl hm
      | @step _ _ ready _ _ ha _ _ ht hphase _ he' =>
        rw [ha] at hs
        have hcore := hc.taken ha ready
        have hasked := Requests.step hcore (hs.congr rfl rfl) ha ht hphase he'
        exact ⟨hasked.asked, hasked.launched⟩
      | @message message inbox =>
        have hasked := Requests.receive (e := { e with inbox }) host message
        exact ⟨hasked.asked, hasked.launched⟩
      | idle => exact .idle
    refine ⟨fun hm => ?_, fun hm => ?_⟩
    · rcases hrequests.asked hm with hm | hvoter
      · obtain ⟨hlt, hvoting⟩ := hcallers.asked hm
        refine ⟨Nat.lt_of_lt_of_le hlt hnext, fun tok' ht' => ?_⟩
        obtain ⟨tok, ht, hsame⟩ := hold hlt ht'
        exact hsame.2 (hvoting ht)
      · exact hvoter
    · rcases hrequests.launched hm with hm | hvoteless
      · obtain ⟨hlt, hvoteless⟩ := hcallers.launched hm
        refine ⟨Nat.lt_of_lt_of_le hlt hnext, fun tok' ht' hphase => ?_⟩
        grind
      · exact hvoteless
  | @arrive past e hrun message ih =>
    have hcallers := ih (hpolite.mono (prefix_append ..))
    have hasked : Requests e (e.deliver message) := .of_mail [message] rfl
    refine ⟨fun hm => ?_, fun hm => ?_⟩
    · exact (hasked.asked hm).elim hcallers.asked id
    · exact (hasked.launched hm).elim hcallers.launched id

/-! ## Situations -/

namespace Entry

/-- The entry is a call that a worker has taken for a token. -/
def launches (t : TokenId) : Entry → Bool
  | .launched t' => t' = t
  | _ => false

/-- The entry asks for the vote that a token stands for. -/
def polls (t : TokenId) : Entry → Bool
  | .asked _ _ t' => t' = t
  | _ => false

theorem countP_calls (t : TokenId) (log : List Entry) :
    log.countP (calls t) = log.countP (launches t) + log.countP (polls t) := by
  induction log with
  | nil => rfl
  | cons entry log ih =>
    rw [countP_cons, countP_cons, countP_cons, ih]
    cases entry <;> grind [calls, launches, polls]

end Entry

namespace Engine

/-- A token waits for one cell, which is alive and has no value, and is written down there once. -/
def AtCell (e : Engine ω) (t : TokenId) : Prop :=
  ∃ c grp ws r, e.groups.get? c = some grp ∧ grp.kind = .cell ws r ∧ grp.killed = false ∧
    e.bound.lookup c = none ∧ ws.count t = 1 ∧
      ∀ c' grp', e.groups.get? c' = some grp' → t ∈ grp'.kind.waiters → c' = c

/-- A token waits on one clock, and is written down there once. -/
def OnClock (e : Engine ω) (t : TokenId) : Prop :=
  ∃ (i : Nat) (clock : Clock TokenId), e.clocks[i]? = some clock ∧
    (clock.timers.map Timer.payload).count t = 1 ∧
      ∀ (j : Nat) (clock' : Clock TokenId), e.clocks[j]? = some clock' →
        t ∈ clock'.timers.map Timer.payload → j = i

/-- Of the entries that `asks` tells apart one has no answer yet, or else they all have one and the
    last of these answers is in the inbox. -/
def Expects (e : Engine (Logged ω)) (t : TokenId) (asks : Entry → Bool) : Prop :=
  (e.world.log.countP asks = e.world.log.countP (Entry.answers t) + 1 ∧
      e.inbox.countP (Message.isFor t) = 0) ∨
    (e.world.log.countP asks = e.world.log.countP (Entry.answers t) ∧
      e.inbox.countP (Message.isFor t) = 1)

/-- A token has asked for nothing that has no answer yet, and there is no message for it. -/
def Unowed (e : Engine (Logged ω)) (t : TokenId) : Prop :=
  e.world.log.countP (Entry.calls t) = e.world.log.countP (Entry.answers t) ∧
    e.inbox.countP (Message.isFor t) = 0

/-- The one place in which a token in a phase is found. -/
def Situated (e : Engine (Logged ω)) (t : TokenId) : Phase → Prop
  | .runnable => e.ready.count t = 1 ∧ t ∉ e.waiting ∧ t ∉ e.timed ∧ e.Unowed t
  | .blocked => t ∉ e.ready ∧ (e.AtCell t ∧ t ∉ e.timed ∨ e.OnClock t ∧ t ∉ e.waiting) ∧ e.Unowed t
  | .calling _ => t ∉ e.ready ∧ t ∉ e.waiting ∧ t ∉ e.timed ∧ e.Expects t (Entry.launches t) ∧
    ∀ message ∈ e.inbox, message.isFor t = true → ∃ reply, message = .returned t reply
  | .voting => t ∉ e.ready ∧ t ∉ e.waiting ∧ t ∉ e.timed ∧ e.Expects t (Entry.polls t) ∧
    ∀ message ∈ e.inbox, message.isFor t = true →
      message = .returned t .halt ∨ message = .vetoed t

end Engine

/-- Only who was asked for a vote sends a veto. -/
def Entitled (log : List Entry) : Prop :=
  ∀ ⦃t⦄, .sent (.vetoed t) ∈ log → ∃ c s, .asked c s t ∈ log

/-- Whether the entry is a veto only if somebody was asked for it. -/
def Entry.entitled (log : List Entry) : Entry → Bool
  | .sent (.vetoed t) => log.any (Entry.polls t)
  | _ => true

instance (log : List Entry) : Decidable (Entitled log) :=
  decidable_of_iff (∀ entry ∈ log, entry.entitled log = true) <| by
    constructor
    · intro h t hm
      obtain ⟨entry, hentry, hpolls⟩ := List.any_eq_true.1 (h _ hm)
      cases entry <;> simp only [Entry.polls, Bool.false_eq_true] at hpolls
      grind
    · intro h entry hm
      unfold Entry.entitled
      split
      · obtain ⟨c, s, hasked⟩ := h hm
        exact List.any_eq_true.2 ⟨_, hasked, decide_eq_true rfl⟩
      · rfl

/-- A token that is counted once with the cells waits for one of them. -/
theorem Stations.at_cell (h : Stations e) (hcount : e.waiting.count t = 1) : e.AtCell t := by
  obtain ⟨c, grp, hg, hone, hsole⟩ := Store.sole_of_count_collect hcount
  cases hkind : grp.kind with
  | cell ws r =>
    rw [hkind] at hone
    have hwaits : grp.kind.waiters ≠ [] := by
      rw [hkind]
      rintro hnil
      rw [hnil] at hone
      cases hone
    obtain ⟨hk, hpending⟩ := h.tidy hg hwaits
    exact ⟨c, grp, ws, r, hg, hkind, hk, hpending, hone, hsole⟩
  | root | transaction x =>
    rw [hkind] at hone
    cases hone

/-- What the counts of a token say about where it is. -/
theorem Stationed.situated (h : Stationed e t tok.phase) (hs : Stations e) (ha : e.agenda = [])
    (ht : e.tokens.get? t = some tok) (hcallers : Callers e) (hl : Ledger past e)
    (hpolite : Polite e.world.log)
    (hsingle : e.world.log.countP (Entry.answers t) ≤ e.world.log.countP (Entry.calls t))
    (hveto : Entitled e.world.log) : e.Situated t tok.phase := by
  obtain ⟨hqueued, hparked, howed⟩ := h
  unfold Engine.queued at hqueued
  unfold Engine.parked at hparked
  unfold Engine.owed at howed
  rw [ha] at hqueued hparked
  have hnoerrand : (errands []).count t = 0 := rfl
  have hnowake : (wakes []).count t = 0 := rfl
  cases hphase : tok.phase with
  | runnable =>
    simp only [hphase, Phase.queued, Phase.parked, Phase.owed] at hqueued hparked howed
    refine ⟨by omega, count_eq_zero.1 (by omega), count_eq_zero.1 (by omega), ?_, ?_⟩
    · omega
    · omega
  | blocked =>
    simp only [hphase, Phase.queued, Phase.parked, Phase.owed] at hqueued hparked howed
    refine ⟨count_eq_zero.1 (by omega), ?_, by omega, by omega⟩
    by_cases hcell : e.waiting.count t = 1
    · exact .inl ⟨hs.at_cell hcell, count_eq_zero.1 (by omega)⟩
    · have htimed : e.timed.count t = 1 := by omega
      exact .inr ⟨sole_of_count_flatMap htimed, count_eq_zero.1 (by omega)⟩
  | calling site =>
    simp only [hphase, Phase.queued, Phase.parked, Phase.owed] at hqueued hparked howed
    have hasked : ∀ c s, .asked c s t ∉ e.world.log := fun c s hm => by
      have hvoting := (hcallers.asked hm).2 ht
      rw [hphase] at hvoting
      cases hvoting
    have hpolls : e.world.log.countP (Entry.polls t) = 0 := by
      rw [countP_eq_zero]
      intro entry hm
      cases entry <;> simp only [Entry.polls, Bool.false_eq_true, not_false_eq_true]
      grind
    have hcalls := Entry.countP_calls t e.world.log
    refine ⟨count_eq_zero.1 (by omega), count_eq_zero.1 (by omega),
      count_eq_zero.1 (by omega), ?_, ?_⟩
    · unfold Expects
      omega
    · intro message hm hfor
      cases message with
      | returned t' reply => exact ⟨reply, by rw [of_decide_eq_true hfor]⟩
      | vetoed t' =>
        have hsent := hl.inbox _ hm
        rw [of_decide_eq_true hfor] at hsent
        obtain ⟨c, s, hm⟩ := hveto hsent
        exact absurd hm (hasked c s)
      | terminate => cases hfor
  | voting =>
    simp only [hphase, Phase.queued, Phase.parked, Phase.owed] at hqueued hparked howed
    have hlaunches : e.world.log.countP (Entry.launches t) = 0 := by
      rw [countP_eq_zero]
      intro entry hm
      cases entry <;> simp only [Entry.launches, Bool.false_eq_true, not_false_eq_true]
      rename_i t'
      rintro heq
      exact (hcallers.launched (of_decide_eq_true heq ▸ hm)).2 ht hphase
    have hcalls := Entry.countP_calls t e.world.log
    refine ⟨count_eq_zero.1 (by omega), count_eq_zero.1 (by omega),
      count_eq_zero.1 (by omega), ?_, ?_⟩
    · unfold Expects
      omega
    · intro message hm hfor
      cases message with
      | returned t' reply =>
        obtain rfl := of_decide_eq_true hfor
        rw [hl.votes hpolite hm ht hphase]
        exact .inl rfl
      | vetoed t' => exact .inr (by rw [of_decide_eq_true hfor])
      | terminate => cases hfor

/-! ## Names of tokens that are gone -/

namespace Engine

variable {ω : Type} {host : Host ω} {e : Engine ω} {t : TokenId}

/-- The token that the next turn takes up. -/
def takes (e : Engine ω) : Option TokenId :=
  match e.agenda with
  | .wake t :: _ | .killToken t :: _ => some t
  | _ :: _ => none
  | [] =>
    if e.halted then none
    else
      match e.ready with
      | t :: _ => some t
      | [] =>
        match e.inbox with
        | .returned t _ :: _ | .vetoed t :: _ => some t
        | _ => none

/-- The state without what comes up next. -/
def dropped (e : Engine ω) : Engine ω :=
  match e.agenda with
  | _ :: agenda => { e with agenda }
  | [] =>
    match e.ready with
    | _ :: ready => { e with ready }
    | [] => { e with inbox := e.inbox.tail }

/-- The state without the timers of a token. -/
def untimed (e : Engine ω) (t : TokenId) : Engine ω :=
  { e with clocks := e.clocks.map fun c => c.retain (· ≠ t) }

/-- A turn that takes up a token that is gone does nothing else but drop its name. -/
theorem turn_of_gone (ht : e.tokens.get? t = none) (htakes : e.takes = some t) :
    e.turn host = .ok (.next e.dropped) := by
  have hgone : e.tokens.contains t = false := by
    rw [Store.contains, ht]
    rfl
  unfold takes at htakes
  unfold turn dropped
  cases ha : e.agenda with
  | cons a agenda =>
    rw [ha] at htakes
    dsimp only at htakes ⊢
    split at htakes
    · rename_i hcons
      cases hcons
      cases htakes
      show Except.ok (Progress.next (wake { e with agenda } t)) = _
      rw [wake, if_neg (by simp [hgone])]
    · rename_i hcons
      cases hcons
      cases htakes
      show (killToken { e with agenda } t >>= fun e => pure (Progress.next e)) = _
      rw [killToken, ht]
      rfl
    · cases htakes
    · rename_i hnil
      cases hnil
  | nil =>
    rw [ha] at htakes
    dsimp only at htakes ⊢
    split at htakes
    · cases htakes
    · rename_i hh
      rw [if_neg hh]
      cases hready : e.ready with
      | cons v ready =>
        rw [hready] at htakes
        cases htakes
        dsimp only [dispatch]
        rw [ht]
        rfl
      | nil => grind [receive]

theorem idle_untimed (ht : e.tokens.get? t = none) : (e.untimed t).idle host = e.idle host := by
  have hdrop : (e.untimed t).dropDeadTimers = e.dropDeadTimers := by
    unfold untimed dropDeadTimers
    rw [map_map]
    congr 1
    refine map_congr_left fun c _ => ?_
    show Clock.mk c.now _ = Clock.mk c.now _
    congr 1
    dsimp only [Clock.retain]
    rw [filter_filter]
    grind [Store.contains]
  unfold idle
  rw [hdrop]

end Engine

/-! ## Every token in its place -/

end Orchestra
