/-
  Parking: waiting for a cell leaves no trace.

  A token that finds no value in a cell is written down there, and once it is woken it starts its node
  again from the beginning.  So a node may do nothing that can be seen before it has read all that it
  needs.

  1. **The frame** (`Executed.parks`): a step after which the token waits for a cell has changed the
     token, the list of those who wait for the cell, and nothing else.

  2. **Visits**: a token calls a site at most once while it stands at a node.  A call sends the token
     on to a node that stands before the one of the call, or dooms it (`Invoked.leaves`), and who is
     doomed is gone before any token takes a step (`Run.leaves`).

  3. **The statement** (`parking_leaves_no_trace`).
-/
import Orchestra.Proofs.Layout
import Orchestra.Proofs.Situations

namespace Orchestra

open Engine List

variable {ω : Type} {m : Charter} {host : Host ω} {t : TokenId} {tok tok' : Token} {node : Node}
  {values : List Value} {site : Site}

/-! ## The frame -/

section Frame

variable {e e' : Engine ω} {c : GroupId}

namespace Engine

/-- Those who wait for a cell. -/
def waitersOf (e : Engine ω) (c : GroupId) : List TokenId :=
  ((e.groups.get? c).map fun grp => grp.kind.waiters).getD []

/-- In `e'` the token `t` is blocked and written down at the cell `c`, after those who wait there
    already, and all the rest is as in `e`, except for the span of the token. -/
def Parked (e : Engine ω) (t : TokenId) (c : GroupId) (e' : Engine ω) : Prop :=
  ∃ tok span grp waiters region, e.tokens.get? t = some tok ∧ e.groups.get? c = some grp ∧
    grp.kind = .cell waiters region ∧
    e' = { e with
      tokens := e.tokens.modify t fun _ => { tok with span, phase := .blocked }
      groups := e.groups.modify c fun g => { g with kind := .cell (waiters ++ [t]) region } }

/-- A token is parked, or it is to end since the cell is gone. -/
theorem park_cases (ht : e.tokens.get? t = some tok) (c : GroupId) :
    e.Parked t c (e.park t c) ∨ (e.park t c).tokens.get? t = some tok := by
  unfold park
  split
  · rename_i grp hg
    refine .inl ⟨tok, tok.span, _, _, _, ht, hg, rfl, ?_⟩
    exact congrArg (fun tokens => ({ e with tokens, groups := _ } : Engine ω)) (Store.modify_eq ht _)
  · exact .inr ht

/-- Whoever has been given a span before is parked all the same. -/
theorem Parked.of_span (ht : e.tokens.get? t = some tok) {span : Span}
    (h : (e.becomes t { tok with span }).Parked t c e') : e.Parked t c e' := by
  obtain ⟨tok₁, span₁, grp, waiters, region, ht₁, hg, hkind, rfl⟩ := h
  rw [get?_becomes ht, if_pos rfl] at ht₁
  cases ht₁
  refine ⟨tok, span₁, grp, waiters, region, ht, hg, hkind, ?_⟩
  unfold becomes onToken
  rw [Store.modify_modify]

/-- Where a token is parked, it is written down. -/
theorem Parked.waiters (h : e.Parked t c e') (c' : GroupId) :
    e'.waitersOf c' = if c' = c then e.waitersOf c ++ [t] else e.waitersOf c' := by
  obtain ⟨tok, span, grp, waiters, region, ht, hg, hkind, rfl⟩ := h
  unfold waitersOf
  rw [Store.get?_modify]
  split
  · rename_i heq
    rw [heq, hg]
    simp [GroupKind.waiters, hkind]
  · rfl

end Engine

/-- A site that is called leaves the caller blocked only if it is a timer. -/
theorem Served.groups_of_blocked {next : Nat} (h : Served host e t tok site values next e')
    (ht : e.tokens.get? t = some tok) (hphase : tok.phase = .runnable)
    (ht' : e'.tokens.get? t = some tok') (hblocked : tok'.phase = .blocked) :
    e'.groups = e.groups := by
  have same : ∀ {e₁ : Engine ω}, e₁.tokens = e.tokens → e₁.tokens.get? t ≠ some tok' := by grind
  have replied : ∀ {e₁ e' : Engine ω} {reply : Reply}, Replied host e₁ t tok site next reply e' →
      e₁.tokens = e.tokens → e'.tokens.get? t ≠ some tok' := by
    rintro e₁ e' reply hreply htokens ht'
    cases hreply with
    | publish =>
      have ht₁ : e₁.tokens.get? t = some tok := htokens ▸ ht
      cases ((get?_becomes ht₁ _ t).trans (if_pos rfl)).symm.trans ht'
      rw [hphase] at hblocked
      cases hblocked
    | halt | fail => exact same htokens ht'
  cases h with
  | immediate _ hreply | outside _ _ hreply => exact absurd ht' (replied hreply rfl)
  | inside _ _ hreply =>
    rw [enlist_eq] at hreply
    exact absurd ht' (replied hreply rfl)
  | refused =>
    rw [enlist_eq] at ht'
    exact absurd ht' (same rfl)
  | unspawned | timerFailed => exact absurd ht' (same rfl)
  | launched =>
    cases ((get?_becomes ht _ t).trans (if_pos rfl)).symm.trans ht'
    cases hblocked
  | timer => rfl

/-- A step that leaves the token blocked parks it, or sets a timer. -/
theorem Executed.parks (h : Executed host e t tok node e') (ht : e.tokens.get? t = some tok)
    (hphase : tok.phase = .runnable) (ht' : e'.tokens.get? t = some tok')
    (hblocked : tok'.phase = .blocked) : (∃ c, e.Parked t c e') ∨ e'.groups = e.groups := by
  -- in all other cases the token is runnable still
  have awake : ∀ {e₁ : Engine ω} {tok₁ : Token}, e₁.tokens.get? t = some tok₁ →
      tok₁.phase = .runnable → e₁.tokens.get? t ≠ some tok' := by grind
  have went : ∀ {e₁ : Engine ω} {tok₁ tok₂ : Token}, e₁.tokens.get? t = some tok₁ →
      tok₂.phase = .runnable → (e₁.goesOn t tok₂).tokens.get? t ≠ some tok' := by
    intro e₁ tok₁ tok₂ ht₁ hrunnable
    exact awake ((get?_becomes ht₁ tok₂ t).trans (if_pos rfl)) hrunnable
  have parked : ∀ {e₁ : Engine ω} {tok₁ : Token} {c : GroupId}, e₁.tokens.get? t = some tok₁ →
      tok₁.phase = .runnable → (e₁.park t c).tokens.get? t = some tok' →
      e₁.Parked t c (e₁.park t c) := by grind [park_cases]
  have moved : ∀ {tokens : Store .token Token} {tok₁ : Token} {f : Token → Token},
      tokens.get? t = some tok₁ → (f tok₁).phase = .runnable →
      (tokens.modify t f).get? t ≠ some tok' := by grind
  cases h with
  | stop | fieldFailed | publish | forkFull | subgoalFull | resolve | buffer =>
    exact absurd ht' (awake ht hphase)
  | loadPending | fieldPending => exact .inl ⟨_, parked ht hphase ht'⟩
  | load | field | push | unwind | declare | ret => exact absurd ht' (went ht hphase)
  | fork => exact absurd ht' (went ((spawnReady_grown ..).token ht) hphase)
  | subgoal hcap hs =>
    have hgrown := spawn_grown hs
    exact absurd ht' (went (hgrown.token ht) hphase)
  | «otherwise» | escape => exact absurd ht' (moved ht hphase)
  | atomic =>
    have htwice : ((e.tokens.modify t _).modify t _).get? t = some tok' := ht'
    rw [Store.modify_modify] at htwice
    exact absurd htwice (moved ht hphase)
  | @call target args next tail span e' hcalled =>
    have ht₁ : (e.becomes t { tok with span }).tokens.get? t = some { tok with span } :=
      (get?_becomes ht _ t).trans (if_pos rfl)
    cases hcalled with
    | pending | argPending => exact .inl ⟨_, (parked ht₁ hphase ht').of_span ht⟩
    | uncallable | mismatch => exact absurd ht' (awake ht₁ hphase)
    | enter => exact absurd ht' (went ht₁ hphase)
    | site hv hargs hserved =>
      have hsame := hserved.groups_of_blocked ht₁ hphase ht' hblocked
      exact .inr hsame

end Frame

/-! ## Visits -/

section Visits

variable {e e' : Engine ω}

namespace Engine

/-- The token stands at a node. -/
def StandsAt (e : Engine ω) (t : TokenId) (n : Nat) : Prop :=
  ∃ tok, e.tokens.get? t = some tok ∧ tok.node = n

/-- The next turn calls a site. -/
def Invokes (host : Host ω) (e : Engine ω) : Prop :=
  ∃ p, e.turn host = .ok p ∧ p.state.stats.siteCalls ≠ e.stats.siteCalls

end Engine

/-- A call of a site sends the token on or dooms it. -/
theorem Invoked.leaves (h : Invoked host e t tok site values node e')
    (ht : e.tokens.get? t = some tok) (hdooms : AbortDooms t tok e) :
    ∃ tok', e'.tokens.get? t = some tok' ∧
      (tok'.node ∈ node.successors ∨ Doomed e' t tok') := by
  obtain @⟨target, args, next, tail, span, e', -, hserved⟩ := h
  have ht₁ : (e.becomes t { tok with span }).tokens.get? t = some { tok with span } :=
    (get?_becomes ht _ t).trans (if_pos rfl)
  have ended : ∀ {e₁ : Engine ω}, e₁.tokens.get? t = some { tok with span } →
      ∃ tok', (e₁.plan [.killToken t]).tokens.get? t = some tok' ∧
        (tok'.node ∈ [next] ∨ Doomed (e₁.plan [.killToken t]) t tok') :=
    fun ht => ⟨_, ht, .inr (.inl mem_cons_self)⟩
  have sent : ∀ {e₁ : Engine ω} {tok₁ : Token}, e₁.tokens.get? t = some { tok with span } →
      tok₁.node = next → ∃ tok', (e₁.becomes t tok₁).tokens.get? t = some tok' ∧
        (tok'.node ∈ [next] ∨ Doomed (e₁.becomes t tok₁) t tok') :=
    fun ht hnext => ⟨_, (get?_becomes ht _ t).trans (if_pos rfl), .inl (by simp [hnext])⟩
  have replied : ∀ {e₁ e' : Engine ω} {reply : Reply},
      Replied host e₁ t { tok with span } site next reply e' →
      e₁.tokens.get? t = some { tok with span } →
      ∃ tok', e'.tokens.get? t = some tok' ∧ (tok'.node ∈ [next] ∨ Doomed e' t tok') := by
    intro e₁ e' reply hreply ht
    cases hreply with
    | publish => exact ⟨_, (get?_becomes ht _ t).trans (if_pos rfl), .inl (by simp)⟩
    | halt | fail => exact ended ht
  cases hserved with
  | immediate _ hreply | outside _ _ hreply => exact replied hreply ht₁
  | inside _ _ hreply =>
    rw [enlist_eq] at hreply
    exact replied hreply ht₁
  | launched => exact sent ht₁ rfl
  | timer => exact sent ht₁ rfl
  | unspawned | timerFailed => exact ended ht₁
  | @refused scope hmode hscope =>
    refine ⟨{ tok with span }, ?_, .inr ?_⟩
    · rw [enlist_eq]
      exact ht₁
    · show Doomed _ t tok
      refine hdooms hscope ?_ (fun x txn hx => ?_) rfl ht
      · rw [enlist_eq]
        rfl
      · show ∃ txn', (enlist _ _ _).transactions.get? x = some txn' ∧ _
        rw [get?_enlist]
        generalize hfound : Store.get? _ x = found
        cases hfound.symm.trans hx
        split <;> exact ⟨_, rfl, rfl, rfl⟩

end Visits

section Runs

variable {program : Program} {limit : Option Nat} {world : ω} {past : History ω}
  {e : Engine (Logged ω)}

theorem Run.same_program (h : Run host program limit world past e) : e.program = program := by
  induction h with
  | start => exact (opening_grown ..).program
  | turn hrun hp ih =>
    obtain ⟨m, hc⟩ := hrun.coherent
    exact (turn_program hc hp).trans ih
  | arrive _ message ih => exact ih

/-- Who is doomed or gone is so after the next turn. -/
theorem Doomed.turn (hc : Coherent m e) (hs : Sections m e e.agenda.head?) (hl : Ledger past e)
    (hpolite : Polite e.world.log) {p : Progress (Logged ω)} (hp : e.turn host.logged = .ok p)
    (hold : t.index < e.tokens.next.index)
    (h : ∀ {tok}, e.tokens.get? t = some tok → Doomed e t tok) :
    t.index < p.state.tokens.next.index ∧
      ∀ {tok}, p.state.tokens.get? t = some tok → Doomed p.state t tok := by
  obtain ⟨hnext, hkept⟩ :=
    turn_old hc hs (fun _ _ _ hm ht hv => hl.votes hpolite hm ht hv) hp
  refine ⟨Nat.lt_of_lt_of_le hold hnext, fun {tok'} ht' => ?_⟩
  obtain ⟨tok, ht, -⟩ := hkept hold ht'
  have hdoomed := h ht
  have hbusy : e.agenda ≠ [] := fun ha => hdoomed.busy (hc.core_of_idle ha) ha
  obtain ⟨m', hext, hc'⟩ := hc.turn _ hp
  cases turned hp with
  | chore he he' =>
    subst he
    refine hdoomed.perform (hc.extend hext) hc'.core he' ht' ?_
    rcases perform_old he' hold ht' with hsame | ⟨tok₁, ht₁, ⟨-, rfl⟩ | ⟨n, -, rfl⟩⟩
    · cases ht.symm.trans hsame
      rfl
    · cases ht.symm.trans ht₁
      rfl
    · cases ht.symm.trans ht₁
      rfl
  | done ha | skip ha | step ha | message ha | idle ha => exact absurd ha hbusy

/-- After a call of a site the token leaves the node, or is doomed or gone. -/
theorem Run.leaves (h : Run host program limit world past e) (hcode : program.code.Ordered)
    (hpolite : Polite e.world.log) {before after : History ω} {a : Engine (Logged ω)}
    (hpast : past = before ++ a :: after) (hstep : a.stepping = some (t, tok, node))
    (hinvokes : a.Invokes host.logged) :
    (∃ s ∈ after ++ [e], ¬s.StandsAt t tok.node) ∨ t.index < e.tokens.next.index ∧
      ∀ {tok'}, e.tokens.get? t = some tok' → Doomed e t tok' := by
  induction h generalizing after with
  | start => simp at hpast
  | @arrive past e hrun message ih =>
    rcases ih (hpolite.mono (prefix_append ..)) hpast with ⟨s, hs, hgone⟩ | ⟨hold, hdoomed⟩
    · rcases mem_append.1 hs with hs | hs
      · exact .inl ⟨s, mem_append_left _ hs, hgone⟩
      · cases mem_singleton.1 hs
        exact .inl ⟨e.deliver message, mem_append_right _ (mem_singleton_self _), hgone⟩
    · exact .inr ⟨hold, fun ht => (hdoomed ht).congr rfl rfl rfl⟩
  | @turn past e p hrun hp ih =>
    have hbefore := hrun.polite hp hpolite
    obtain ⟨m, hc, hs, hl⟩ := hrun.sound hbefore
    rcases after.eq_nil_or_concat with rfl | ⟨after, b, rfl⟩
    · -- the call itself
      obtain ⟨-, heq⟩ := append_inj' hpast rfl
      cases heq
      obtain ⟨p', hp', hcalls⟩ := hinvokes
      cases hp.symm.trans hp'
      rcases turn_constants hc hp with hsame |
        ⟨t', tok', ready, node', site, values, hstep', hready, hinvoked, -⟩
      · exact absurd (congrArg Prod.snd hsame) hcalls
      · cases hstep.symm.trans hstep'
        obtain ⟨ha, -, -, ht, hphase, hnode⟩ := stepping_eq_some hstep
        have hcore : Core m (a.taken ready) none := (hc.core_of_idle ha).congr rfl
        rw [ha] at hs
        have hstaken : Sections m (a.taken ready) none := hs.congr rfl rfl
        have hdooms := hstaken.abort_dooms hcore ha ht (by simp [hphase])
        obtain ⟨tok₁, ht₁, hleft | hdoomed⟩ := hinvoked.leaves ht hdooms
        · refine .inl ⟨p.state, by simp, ?_⟩
          rintro ⟨tok₂, ht₂, hnode₂⟩
          cases ht₁.symm.trans ht₂
          rw [hrun.same_program] at hnode
          exact absurd hnode₂ (Nat.ne_of_lt (hcode.successor hnode hleft))
        · obtain ⟨hnext, -⟩ :=
            turn_old hc (ha ▸ hs) (fun _ _ _ hm ht hv => hl.votes hbefore hm ht hv) hp
          grind [Store.lt_next]
    · rw [concat_eq_append] at hpast ⊢
      rw [← cons_append, ← append_assoc] at hpast
      obtain ⟨hold, heq⟩ := append_inj' hpast rfl
      cases heq
      rcases ih hbefore hold with ⟨s, hs, hgone⟩ | ⟨hold, hdoomed⟩
      · exact .inl ⟨s, mem_append_left _ hs, hgone⟩
      · exact .inr (Doomed.turn hc hs hl hbefore hp hold hdoomed)

/-- Waiting for a cell leaves no trace.  A step after which the token waits for a cell has taken the
    token from the queue and counted itself, has blocked the token and written it down at the cell,
    and has changed nothing else but the span of the token.  A turn that calls a site is a step at a
    call, and what the site gets are the values that the operands of the call have then.  And a token
    that has called a site does not take another step in the same visit of the node, however often it
    was parked there before. -/
theorem parking_leaves_no_trace (host : Host ω) {expr : Expr} {sites : Registry} {program : Program}
    (hcompile : expr.compile sites = .ok program) (limit : Option Nat) (world : ω)
    {past : List (Engine (Logged ω))} {e : Engine (Logged ω)}
    (h : Run host program limit world past e) :
    (∀ {t tok node p tok' c}, e.stepping = some (t, tok, node) → e.turn host.logged = .ok p →
      p.state.tokens.get? t = some tok' → tok'.phase = .blocked → t ∉ e.waitersOf c →
      t ∈ p.state.waitersOf c → ∃ ready, e.ready = t :: ready ∧
        (e.taken ready).Parked t c p.state) ∧
    (∀ {p}, e.turn host.logged = .ok p → p.state.stats.siteCalls ≠ e.stats.siteCalls →
      ∃ t tok ready node site values, e.stepping = some (t, tok, node) ∧ e.ready = t :: ready ∧
        Invoked host.logged (e.taken ready) t tok site values node p.state ∧
        p.state.stats.siteCalls = e.stats.siteCalls + 1) ∧
    (Polite e.world.log → ∀ {before a between t tok node tok' node'},
      past = before ++ a :: between → a.stepping = some (t, tok, node) → a.Invokes host.logged →
      e.stepping = some (t, tok', node') → ¬∀ s ∈ between ++ [e], s.StandsAt t tok.node) := by
  obtain ⟨m, hc⟩ := h.coherent
  obtain ⟨hcode, -⟩ := Expr.compile_ordered hcompile
  refine ⟨?_, ?_, ?_⟩
  · intro t tok node p tok' c hstep hp ht' hblocked hout hin
    cases turned hp with
    | chore he =>
      subst he
      cases (stepping_eq_some hstep).1
    | done ha hh =>
      rw [stepping_of_halted hh] at hstep
      cases hstep
    | skip ha hh hready hskip =>
      rw [stepping_of_skip hready hskip] at hstep
      cases hstep
    | message ha hh hready | idle ha hh hready =>
      rw [stepping_of_empty hready] at hstep
      cases hstep
    | @step t₁ tok₁ ready node₁ e' ha hh hready ht hphase hnode he' =>
      cases (stepping_of_step ha hh hready ht hphase hnode).symm.trans hstep
      have hcore := hc.taken ha ready
      refine ⟨ready, hready, ?_⟩
      rcases (executed hcore ht he').parks ht hphase ht' hblocked with ⟨c', hparked⟩ | hgroups
      · have hwaiters := hparked.waiters c
        split at hwaiters
        · rename_i heq
          exact heq ▸ hparked
        · exact absurd (hwaiters ▸ hin) hout
      · have hsame : e'.waitersOf c = e.waitersOf c := by
          unfold waitersOf
          rw [hgroups]
          rfl
        exact absurd (hsame ▸ hin) hout
  · intro p hp hcalls
    rcases turn_constants hc hp with hsame |
      ⟨t, tok, ready, node, site, values, hstep, hready, hinvoked, hcounted⟩
    · exact absurd (congrArg Prod.snd hsame) hcalls
    · exact ⟨t, tok, ready, node, site, values, hstep, hready, hinvoked, congrArg Prod.snd hcounted⟩
  · intro hpolite before a between t tok node tok' node' hpast hstep hinvokes hstep' hstays
    obtain ⟨ha, -, -, ht, -, -⟩ := stepping_eq_some hstep'
    rcases h.leaves hcode hpolite hpast hstep hinvokes with ⟨s, hs, hgone⟩ | ⟨-, hdoomed⟩
    · exact hgone (hstays s hs)
    · exact (hdoomed ht).busy (hc.core_of_idle ha) ha

theorem ok_of_toOption {ε α : Type} {x : Except ε α} {a : α} (h : x.toOption = some a) :
    x = .ok a := by
  cases x with
  | error err => cases h
  | ok b =>
    cases h
    rfl

/-- A token waits for the argument of a call, and the call is made once it is there.  When the token
    takes its next step, it has left the call. -/
theorem parking_leaves_no_trace_argument :
    let expr : Expr := .pruning (.call (.site "echo") [.variable 0] .none) (.value (.literal (.int 7)))
    ∃ p, expr.compile Registry.roundTrip = .ok p ∧
      (∃ past e ready q, Run Host.echo p none () past e ∧ e.ready = ⟨0⟩ :: ready ∧
        e.turn Host.echo.logged = .ok q ∧ (e.taken ready).Parked ⟨0⟩ ⟨1⟩ q.state) ∧
      ∃ before a between e tok, Run Host.echo p none () (before ++ a :: between) e ∧
        a.tokens.get? ⟨0⟩ = some tok ∧ a.Invokes Host.echo.logged ∧
        ¬∀ s ∈ between ++ [e], s.StandsAt ⟨0⟩ tok.node := by
  intro expr
  obtain ⟨p, hcompile, hparks, hcalls⟩ : ∃ p, expr.compile Registry.roundTrip = .ok p ∧
      Run.Comes Host.echo p none () 2 (fun e =>
        e.stepping.any (·.1 = ⟨0⟩) && (e.turn Host.echo.logged).toOption.any fun q =>
          (q.state.tokens.get? ⟨0⟩).any (·.phase = .blocked) &&
            !(e.waitersOf ⟨1⟩).contains ⟨0⟩ && (q.state.waitersOf ⟨1⟩).contains ⟨0⟩) = true ∧
      Run.Comes Host.echo p none () 13 (fun a =>
        a.stepping.any (·.1 = ⟨0⟩) && ((a.turn Host.echo.logged).toOption.any fun q =>
          q.state.stats.siteCalls ≠ a.stats.siteCalls) &&
            Run.Leads Host.echo.logged a 2 fun e =>
              decide (Polite e.world.log) && e.stepping.any (·.1 = ⟨0⟩)) = true :=
    ⟨_, rfl, by decide +kernel, by decide +kernel⟩
  refine ⟨p, hcompile, ?_, ?_⟩
  · obtain ⟨past, e, hrun, hcheck⟩ := Run.of_comes hparks
    simp only [Bool.and_eq_true, decide_eq_true_eq, Option.any_eq_true, Bool.not_eq_true',
      contains_eq_mem, decide_eq_false_iff_not] at hcheck
    obtain ⟨⟨⟨t, tok, node⟩, hstep, rfl⟩, q, hq, ⟨⟨tok', ht', hblocked⟩, hout⟩, hin⟩ := hcheck
    have hturn := ok_of_toOption hq
    obtain ⟨ready, hready, hparked⟩ := (parking_leaves_no_trace Host.echo hcompile none () hrun).1
      hstep hturn ht' hblocked hout hin
    exact ⟨past, e, ready, q, hrun, hready, hturn, hparked⟩
  · obtain ⟨past, a, hrun, hcheck⟩ := Run.of_comes hcalls
    simp only [Bool.and_eq_true, decide_eq_true_eq, Option.any_eq_true] at hcheck
    obtain ⟨⟨⟨⟨t, tok, node⟩, hstep, rfl⟩, q, hq, hcounted⟩, hleads⟩ := hcheck
    obtain ⟨between, e, hrun', hcheck, hmem⟩ := hrun.of_leads hleads
    simp only [Bool.and_eq_true, decide_eq_true_eq, Option.any_eq_true] at hcheck
    obtain ⟨hpolite, ⟨t', tok', node'⟩, hstep', rfl⟩ := hcheck
    obtain ⟨before, between, rfl⟩ := append_of_mem (hmem (by decide))
    rw [← append_assoc] at hrun'
    have hinvokes : a.Invokes Host.echo.logged := ⟨q, ok_of_toOption hq, hcounted⟩
    obtain ⟨-, -, -, ht, -⟩ := stepping_eq_some hstep
    exact ⟨past ++ before, a, between, e, tok, hrun', ht, hinvokes,
      (parking_leaves_no_trace Host.echo hcompile none () hrun').2.2 hpolite rfl hstep hinvokes
        hstep'⟩

end Runs
end Orchestra
