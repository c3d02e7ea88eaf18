/-
  Runs: what holds of every state that a run comes to.

  A run takes turn after turn while messages arrive from outside at any moment.  Its host keeps a
  log, and a run is given with the states that it has been through, so that a statement about the
  past is one about these.

  * `Polite`     who is asked for a vote answers with a vote.  The engine cannot see to that.
  * `Run.sound`  in a polite run scopes are coherent, sections in order and the ledger true.
-/
import Orchestra.Proofs.Ballots
import Orchestra.Proofs.Moves
import Orchestra.Proofs.Safety

namespace Orchestra

open Engine List

variable {ω : Type} {m m' : Charter} {e e' : Engine ω} {host : Host ω}
  {check : Engine (Logged ω) → Bool} {n : Nat} {p : Progress ω}

/-! ## Sections -/

/-- A longer charter does not spoil coherence. -/
theorem Coherent.extend (h : Coherent m e) (hext : m.Extends m' e.groups e.regions e.transactions) :
    Coherent m' e :=
  { h with core := h.core.extend hext }

/-- A turn leaves the sections in order, provided that votes are answered by votes. -/
theorem Sections.turn (h : Sections m e e.agenda.head?) (hc : Coherent m e)
    (hp : e.turn host = .ok p)
    (hvote : ∀ t reply tok, .returned t reply ∈ e.inbox → e.tokens.get? t = some tok →
      tok.phase = .voting → reply = .halt) :
    ∃ m', m.Extends m' e.groups e.regions e.transactions ∧ Coherent m' p.state ∧
      Sections m' p.state p.state.agenda.head? := by
  obtain ⟨m', hext, hc'⟩ := hc.turn host hp
  refine ⟨m', hext, hc', ?_⟩
  have h' : Sections m' e e.agenda.head? := h.extend hc.core hext
  have hcm' : Coherent m' e := hc.extend hext
  cases turned hp with
  | chore he he' =>
    subst he
    exact h'.perform host hcm' he'
  | done => exact h'
  | skip => exact h'.congr rfl rfl
  | step ha hh hready ht hphase hnode he' =>
    rename_i ready _ _
    rw [ha] at h'
    have hcore := hcm'.taken ha ready
    have htaken : Sections m' (e.taken ready) none := h'.congr rfl rfl
    obtain ⟨mail, notices, hf⟩ := hcm'.footprint ha ht hphase he'
    exact (htaken.step hcore ha ht (by simp [hphase]) hf m').weaken _
  | message ha hh hready hinbox =>
    rename_i message inbox
    rw [ha] at h'
    have hpopped : Sections m' { e with inbox } none := h'.congr rfl rfl
    refine Sections.weaken (hpopped.receive host message ?_) _
    grind
  | idle ha =>
    rw [ha] at h'
    exact (h'.idle host).weaken _

/-! ## The program and calls of sites -/

/-- A turn keeps the program, and counts the call of a site if it is a step that calls one. -/
theorem Engine.turn_constants (hc : Coherent m e) (hp : e.turn host = .ok p) :
    p.state.constants = e.constants ∨ ∃ t tok ready node site values,
      e.stepping = some (t, tok, node) ∧ e.ready = t :: ready ∧
        Invoked host (e.taken ready) t tok site values node p.state ∧
          p.state.constants = (e.program, e.stats.siteCalls + 1) := by
  cases turned hp with
  | chore he he' =>
    subst he
    have hsame := perform_constants he'
    exact .inl hsame
  | done | skip => exact .inl rfl
  | @step t tok ready node e' ha hh hready ht hphase hnode he' =>
    have hcore := hc.taken ha ready
    rcases (executed hcore ht he').constants with hsame | ⟨site, values, hinvoked, hcounted⟩
    · exact .inl hsame
    · exact .inr ⟨t, tok, ready, node, site, values,
        stepping_of_step ha hh hready ht hphase hnode, hready, hinvoked, hcounted⟩
  | @message message inbox =>
    refine .inl ?_
    have hreceived := ({ e with inbox } : Engine ω).received host message
    show (({ e with inbox } : Engine ω).receive host message).constants = _
    generalize ({ e with inbox } : Engine ω).receive host message = e' at hreceived
    cases hreceived <;> rfl
  | idle =>
    refine .inl ?_
    have hidled := e.idled host
    generalize e.idle host = p at hidled
    cases hidled with
    | await | stuck => rfl
    | tick =>
      show e.dropDeadTimers.tick.constants = _
      unfold tick
      rw [wakeAll_eq]
      rfl

theorem Engine.turn_program (hc : Coherent m e) (hp : e.turn host = .ok p) :
    p.state.program = e.program := by
  rcases turn_constants hc hp with hsame | ⟨_, _, _, _, _, _, -, -, -, hcounted⟩
  · exact congrArg Prod.fst hsame
  · exact congrArg Prod.fst hcounted

/-! ## The log -/

/-- Whoever was asked for a vote answers with a vote: a `halt` to commit, or a veto. -/
def Polite (log : List Entry) : Prop :=
  ∀ ⦃t reply c s⦄, .sent (.returned t reply) ∈ log → .asked c s t ∈ log → reply = .halt

/-- Whether two entries agree: one that answers a vote, and one that has asked for it. -/
def Entry.agrees : Entry → Entry → Bool
  | .sent (.returned t (.publish _)), .asked _ _ vote => t ≠ vote
  | .sent (.returned t (.fail _)), .asked _ _ vote => t ≠ vote
  | _, _ => true

instance (log : List Entry) : Decidable (Polite log) :=
  decidable_of_iff (∀ a ∈ log, ∀ b ∈ log, a.agrees b = true) <| by
    constructor
    · intro h t reply c s hsent hasked
      have hagrees := h _ hsent _ hasked
      cases reply <;> simp_all [Entry.agrees]
    · intro h a ha b hb
      unfold Entry.agrees
      split
      · refine decide_eq_true fun heq => ?_
        subst heq
        cases h ha hb
      · refine decide_eq_true fun heq => ?_
        subst heq
        cases h ha hb
      · rfl

theorem Polite.mono {log log' : List Entry} (h : Polite log') (hsub : log <+: log') : Polite log :=
  fun _ _ _ _ hsent hasked => h (hsub.subset hsent) (hsub.subset hasked)

section Growth

variable {e e' : Engine (Logged ω)}

theorem Engine.askVotes_grows (scope : Scope) (vote : Token) (cohorts : List CohortId) :
    e.world.log <+: (askVotes host.logged scope vote e cohorts).world.log := by
  refine askVotes_induct (P := fun e' : Engine (Logged ω) => e.world.log <+: e'.world.log) ?_
    prefix_rfl cohorts
  intro e₁ e₂ id c hgrows hs
  obtain ⟨-, -, -, he₂⟩ := spawn_eq_some hs
  rw [he₂]
  refine hgrows.trans ?_
  show _ <+: e₁.world.log ++ [.asked c scope id] ++ _
  rw [append_assoc]
  exact prefix_append ..

theorem Engine.confirm_grows (s : Scope) (cohorts : List CohortId) (w : Logged ω) :
    w.log <+: (cohorts.foldl (fun w c => host.logged.confirm c s w) w).log := by
  induction cohorts generalizing w with
  | nil => exact prefix_rfl
  | cons c cohorts ih =>
    rw [foldl_cons]
    refine List.IsPrefix.trans ?_ (ih _)
    exact prefix_append ..

theorem Engine.spawnReady_world (tok : Token) : (e.spawnReady tok).world = e.world := by
  unfold spawnReady
  split
  · rename_i hs
    obtain ⟨-, -, -, he'⟩ := spawn_eq_some hs
    rw [he']
    rfl
  · rfl

theorem Engine.react_world (kind : RegionKind) : (e.react kind).world = e.world := by
  unfold react
  split <;> try rfl
  split
  · rfl
  · exact spawnReady_world _

theorem Engine.wakeAll_world (ts : List TokenId) : (ts.foldl wake e).world = e.world := by
  rw [wakeAll_eq]

/-- A chore adds to the log. -/
theorem Engine.perform_grows {a : Chore} (he' : e.perform host.logged a = .ok e') :
    e.world.log <+: e'.world.log := by
  cases performed he' with
  | prepare => exact askVotes_grows (e := e.openVotes _ _) ..
  | verify => exact confirm_grows ..
  | rollback => exact prefix_append ..
  | quiesce hr => exact ⟨[], by rw [react_world, append_nil]; rfl⟩
  | release => exact ⟨[], by rw [spawnReady_world, append_nil]⟩
  | _ => exact prefix_rfl

/-- Every turn adds to the log. -/
theorem Engine.turn_grows (hc : Coherent m e) {p : Progress (Logged ω)}
    (hp : e.turn host.logged = .ok p) : e.world.log <+: p.state.world.log := by
  cases turned hp with
  | chore he he' =>
    subst he
    have hgrows := perform_grows he'
    exact hgrows
  | done => exact prefix_rfl
  | skip => exact prefix_rfl
  | step ha hh hready ht hphase hnode he' =>
    rename_i ready _ _
    obtain ⟨mail, notices, hf⟩ := hc.footprint ha ht hphase he'
    obtain ⟨calls, hlog⟩ := hf.asks.log_eq
    exact ⟨_, hlog.symm⟩
  | message ha hh hready hinbox =>
    rename_i message inbox
    have hreceived := ({ e with inbox } : Engine (Logged ω)).received host.logged message
    show e.world.log <+: (({ e with inbox } : Engine (Logged ω)).receive _ message).world.log
    generalize ({ e with inbox } : Engine (Logged ω)).receive host.logged message = e' at hreceived
    cases hreceived <;> exact prefix_rfl
  | idle ha hh hready hinbox =>
    have hidled := e.idled host.logged
    generalize e.idle host.logged = p at hidled
    cases hidled with
    | await heffect =>
      obtain ⟨effect, -, rfl⟩ := Option.map_eq_some_iff.1 heffect
      exact prefix_append ..
    | stuck => exact prefix_rfl
    | tick =>
      have hticked : e.dropDeadTimers.tick.world = e.world := wakeAll_world _
      show e.world.log <+: e.dropDeadTimers.tick.world.log ++ _
      rw [hticked]
      exact prefix_append ..

end Growth

/-! ## Runs -/

section Runs

variable {e : Engine (Logged ω)} {past : History ω}

/-- Votes that have arrived are votes. -/
theorem Ledger.votes (h : Ledger past e) (hpolite : Polite e.world.log) {t : TokenId}
    {reply : Reply} {tok : Token} (hm : .returned t reply ∈ e.inbox)
    (ht : e.tokens.get? t = some tok) (hphase : tok.phase = .voting) : reply = .halt := by
  obtain ⟨c, s, hasked⟩ := h.voter ht hphase
  exact hpolite (h.inbox _ hm) hasked

/-- A turn leaves the ledger true. -/
theorem Ledger.turn (h : Ledger past e) (hc : Coherent m e) (hs : Sections m e e.agenda.head?)
    (hpolite : Polite e.world.log) {p : Progress (Logged ω)} (hp : e.turn host.logged = .ok p) :
    Ledger (past ++ [e]) p.state := by
  -- without a chore nothing is decided, and without a step nothing is held back
  have quiet : ∀ {e'}, e.agenda = [] → e.buffering = none → Ledger past e' →
      Ledger (past ++ [e]) e' := by
    intro e' ha hbuffer h'
    refine h'.remember ?_ ?_ hbuffer
    · rintro x ⟨txn, rest, hagenda, -⟩
      rw [ha] at hagenda
      cases hagenda
    · rintro x ⟨txn, rest, hagenda, -⟩
      rw [ha] at hagenda
      cases hagenda
  cases turned hp with
  | chore he he' =>
    subst he
    exact h.perform hc hs he'
  | done ha hh => exact quiet ha (by simp [buffering, hh]) h
  | skip ha hh hready hskip =>
    refine quiet ha ?_ (h.congr rfl)
    grind [buffering]
  | step ha hh hready ht hphase hnode he' =>
    rename_i t tok ready node e'
    rw [ha] at hs
    have hcore := hc.taken ha ready
    have hstaken : Sections m (e.taken ready) none := hs.congr rfl rfl
    have htaken : Ledger past (e.taken ready) := h.congr rfl
    obtain ⟨mail, notices, hf⟩ := hc.footprint ha ht hphase he'
    refine htaken.step hcore hstaken ha ha ?_ ht (by simp [hphase]) hf
    simp [buffering, ha, hh, hready, ht, hphase, hnode]
  | message ha hh hready hinbox =>
    rename_i message inbox
    have hpopped : Ledger past { e with inbox } := by
      refine { h with inbox := fun message hm => h.inbox message ?_ }
      rw [hinbox]
      exact mem_cons_of_mem _ hm
    refine quiet ha (by simp [buffering, ha, hready]) (hpopped.receive ha message ?_ ?_)
    · exact h.inbox message (hinbox ▸ mem_cons_self)
    · grind [votes]
  | idle ha hh hready => exact quiet ha (by simp [buffering, ha, hready]) h.idle

/-- A run of a program is about to begin. -/
def Engine.opening (program : Program) (limit : Option Nat) (world : ω) : Engine (Logged ω) :=
  (Engine.new program limit ⟨world, []⟩).start

theorem Engine.opening_grown (program : Program) (limit : Option Nat) (world : ω) :
    (Engine.bare program limit ⟨world, []⟩).Grown (Engine.opening program limit world) := by
  unfold opening
  rw [start_eq]
  exact spawnReady_grown ..

theorem Engine.opening_world (program : Program) (limit : Option Nat) (world : ω) :
    (Engine.opening program limit world).world = ⟨world, []⟩ := by
  unfold opening
  rw [start_eq]
  exact spawnReady_world _

/-- A message arrives from outside, and it is written down that it was sent. -/
def Engine.deliver (e : Engine (Logged ω)) (message : Message) : Engine (Logged ω) :=
  { e with
    inbox := e.inbox ++ [message]
    world := { e.world with log := e.world.log ++ [.sent message] } }

/-- The runs of a program: the states that they have been through before their turns, the oldest
    first, and the present one. -/
inductive Run (host : Host ω) (program : Program) (limit : Option Nat) (world : ω) :
    History ω → Engine (Logged ω) → Prop where
  | start : Run host program limit world [] (Engine.opening program limit world)
  | turn {past : History ω} {e : Engine (Logged ω)} {p : Progress (Logged ω)}
    (h : Run host program limit world past e) (hp : e.turn host.logged = .ok p) :
    Run host program limit world (past ++ [e]) p.state
  | arrive {past : History ω} {e : Engine (Logged ω)}
    (h : Run host program limit world past e) (message : Message) :
    Run host program limit world past (e.deliver message)

namespace Run

variable {program : Program} {limit : Option Nat} {world : ω}

section

variable (h : Run host program limit world past e)

include h

/-- In every run scopes are coherent. -/
theorem coherent : ∃ m, Coherent m e := by
  induction h with
  | start => exact ⟨_, Coherent.start program limit _⟩
  | turn _ hp ih =>
    obtain ⟨m, hc⟩ := ih
    obtain ⟨m', -, hc'⟩ := hc.turn host.logged hp
    exact ⟨m', hc'⟩
  | arrive _ message ih =>
    obtain ⟨m, hc⟩ := ih
    exact ⟨m, { hc with core := hc.core.congr rfl }⟩

/-- What is polite after a turn was so before it. -/
theorem polite {p : Progress (Logged ω)} (hp : e.turn host.logged = .ok p)
    (hpolite : Polite p.state.world.log) : Polite e.world.log := by
  obtain ⟨m, hc⟩ := h.coherent
  exact hpolite.mono (turn_grows hc hp)

/-- In a polite run sections are in order and the ledger is true. -/
theorem sound (hpolite : Polite e.world.log) :
    ∃ m, Coherent m e ∧ Sections m e e.agenda.head? ∧ Ledger past e := by
  induction h with
  | start =>
    refine ⟨_, Coherent.start program limit _, ?_, Ledger.start program limit world⟩
    exact (Sections.start program limit _).weaken _
  | turn hrun hp ih =>
    have hbefore := hrun.polite hp hpolite
    obtain ⟨m, hc, hs, hl⟩ := ih hbefore
    obtain ⟨m', -, hc', hs'⟩ := hs.turn hc hp fun _ _ _ => hl.votes hbefore
    exact ⟨m', hc', hs', hl.turn hc hs hbefore hp⟩
  | arrive _ message ih =>
    obtain ⟨m, hc, hs, hl⟩ := ih (hpolite.mono (prefix_append ..))
    refine ⟨m, { hc with core := hc.core.congr rfl }, ?_, ?_⟩
    · exact hs.congr rfl rfl
    · exact hl.arrive [message] rfl rfl rfl rfl rfl rfl

/-- A run goes on with as many turns as are taken. -/
theorem turns {e' : Engine (Logged ω)} (hn : e.turns host.logged n = .ok (.unfinished, e')) :
    ∃ between, Run host program limit world (past ++ between) e' ∧ (0 < n → e ∈ between) := by
  induction n generalizing past e with
  | zero =>
    cases hn
    exact ⟨[], by rwa [append_nil], nofun⟩
  | succ n ih =>
    unfold Engine.turns at hn
    split at hn
    · cases hn
    · rename_i how e₁ hp
      cases hn
      exact ⟨[e], h.turn hp, fun _ => mem_cons_self⟩
    · rename_i e₁ hp
      obtain ⟨between, hrun, -⟩ := ih (h.turn hp) hn
      grind

end

/-- Some turns lead to a state that passes a check. -/
def Leads {ω : Type} (host : Host ω) (e : Engine ω) (n : Nat) (check : Engine ω → Bool) : Bool :=
  match e.turns host n with
  | .ok (.unfinished, e) => check e
  | _ => false

/-- Some turns of a program lead to a state that passes a check. -/
def Comes (host : Host ω) (program : Program) (limit : Option Nat) (world : ω) (n : Nat)
    (check : Engine (Logged ω) → Bool) : Bool :=
  Leads host.logged (Engine.opening program limit world) n check

theorem of_leads (h : Run host program limit world past e)
    (hleads : Leads host.logged e n check = true) :
    ∃ between e', Run host program limit world (past ++ between) e' ∧ check e' = true ∧
      (0 < n → e ∈ between) := by
  unfold Leads at hleads
  split at hleads
  · rename_i e' hturns
    obtain ⟨between, hrun, hmem⟩ := h.turns hturns
    exact ⟨between, e', hrun, hleads, hmem⟩
  · cases hleads

theorem of_comes (h : Comes host program limit world n check = true) :
    ∃ past e, Run host program limit world past e ∧ check e = true := by
  obtain ⟨past, e, hrun, hcheck, -⟩ := Run.start.of_leads h
  exact ⟨_, e, hrun, hcheck⟩

/-- Some turns of what an expression compiles to lead to a state that passes a check. -/
theorem compiled (x : Expr) (sites : Registry) (host : Host ω) (limit : Option Nat) (world : ω)
    (n : Nat) (check : Engine (Logged ω) → Bool)
    (h : ∃ p, x.compile sites = .ok p ∧ Comes host p limit world n check = true) :
    ∃ p past e, x.compile sites = .ok p ∧ Run host p limit world past e ∧ check e = true := by
  obtain ⟨p, hp, hcomes⟩ := h
  obtain ⟨past, e, hrun, hcheck⟩ := of_comes hcomes
  exact ⟨p, past, e, hp, hrun, hcheck⟩

end Run
end Runs
end Orchestra
