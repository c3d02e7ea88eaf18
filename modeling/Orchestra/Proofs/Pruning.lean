/-
  Pruning: a cell is bound once, and binding it ends its computation and nothing else.

  When a token publishes for a cell, the cell gets this value, its group is killed with all that is
  below, and those who wait for the value go on.  The reaction runs through groups, regions and
  transactions, each of which can set off the others.  When it has come to its end:

  * nothing is left of the COMPUTATION of the cell, which is its group, its region and all that was
    below them, also what the reaction itself has added there;
  * its transactions are over.  They were aborted and their cohorts told so; only one without cohorts
    may have been committed, since those who held up its body may go before it does;
  * whoever waited for the cell outside of its computation is ready, and whoever did not wait for any
    cell is as before.

  The crux is that danger does not spread: `Spared` says that nobody outside gets into it, and
  `Attendance` that a transaction with cohorts is not committed on the way.
-/
import Orchestra.Proofs.Actions
import Orchestra.Proofs.Reactions
import Orchestra.Proofs.Stations

namespace Orchestra

open Engine List

variable {ω : Type} {m : Charter} {host : Host ω} {past between : History ω}
  {e e₁ e₂ e' : Engine (Logged ω)} {a : Chore} {v : TokenId} {tok : Token} {c : GroupId}
  {region : RegionId} {waiters : List TokenId} {value : Value}

/-! ## Bindings -/

/-- A turn binds at most one cell, and one that has no value. -/
theorem Engine.turn_bound {ω : Type} {host : Host ω} {e : Engine ω} (hc : Coherent m e)
    {p : Progress ω} (hp : e.turn host = .ok p) : p.state.bound = e.bound ∨
      ∃ c v, e.bound.lookup c = none ∧ p.state.bound = (c, v) :: e.bound := by
  cases turned hp with
  | chore he he' =>
    subst he
    have hbound := perform_bound he'
    exact .inl hbound
  | done | skip => exact .inl rfl
  | step ha hh hready ht hphase hnode he' =>
    rename_i ready _ _
    obtain ⟨mail, notices, hf⟩ := hc.footprint ha ht hphase he'
    exact hf.bound
  | @message message inbox =>
    left
    have hreceived := { e with inbox }.received host message
    show (receive host { e with inbox } message).bound = e.bound
    generalize receive host { e with inbox } message = e' at hreceived
    cases hreceived <;> rfl
  | idle =>
    left
    have hidled := e.idled host
    generalize e.idle host = p at hidled
    cases hidled with
    | await | stuck => rfl
    | tick =>
      have heq : e.dropDeadTimers.tick = _ := wakeAll_eq _ e.dropDeadTimers.due
      show e.dropDeadTimers.tick.bound = _
      rw [heq]
      rfl

/-- In a run every cell is bound at most once, and keeps its value. -/
theorem Run.bound {program : Program} {limit : Option Nat} {world : ω}
    (h : Run host program limit world past e) : (e.bound.map Prod.fst).Nodup ∧
      ∀ e₁ ∈ past, ∀ c value, e₁.bound.lookup c = some value → e.bound.lookup c = some value := by
  induction h with
  | start =>
    have hnone : (opening program limit world).bound = [] := (opening_grown ..).bound
    grind
  | @turn past e p hrun hp ih => grind [coherent, turn_bound]
  | arrive _ _ ih => exact ih

/-! ## Computations -/

/-- The next turn lets a token bind its cell: the cell, the value, those who wait for it, and the
    region in which it is computed. -/
def Engine.resolving (e : Engine ω) : Option (GroupId × Value × List TokenId × RegionId) :=
  match e.agenda, e.halted, e.ready with
  | [], false, t :: _ =>
    match e.tokens.get? t with
    | some tok =>
      match tok.phase, e.program.code.nodes[tok.node]?, (e.groups.get? tok.group).map Group.kind with
      | .runnable, some .resolve, some (.cell waiters region) =>
        some (tok.group, tok.result, waiters, region)
      | _, _, _ => none
    | none => none
  | _, _, _ => none

theorem Engine.resolving_eq_some (h : e.resolving = some (c, value, waiters, region)) :
    e.agenda = [] ∧ e.halted = false ∧
      (∃ t ready tok, e.ready = t :: ready ∧ e.tokens.get? t = some tok ∧ tok.phase = .runnable ∧
        e.program.code.nodes[tok.node]? = some .resolve ∧ tok.group = c ∧ tok.result = value) ∧
      ∃ grp, e.groups.get? c = some grp ∧ grp.kind = .cell waiters region := by
  grind [Option.map_eq_some_iff, resolving]

/-- The token takes part in the computation of a cell. -/
def Engine.Computes (e : Engine ω) (c : GroupId) (region : RegionId) (tok : Token) : Prop :=
  Under e.groups Group.parent c tok.group ∨ Under e.regions Region.parent region tok.region

/-- A cell that is to be bound has no value, so that nothing prevents it. -/
theorem Engine.turn_of_resolving (host : Host ω)
    (h : e.resolving = some (c, value, waiters, region)) (hcore : Core m e none) :
    e.bound.lookup c = none ∧ ∃ ready, e.turn host.logged = .ok (.next ((e.taken ready).bind c value waiters region)) := by
  obtain ⟨ha, hh, ⟨t, ready, tok, hready, ht, hphase, hnode, rfl, rfl⟩, grp, hg, hkind⟩ :=
    resolving_eq_some h
  have hfree : e.bound.lookup tok.group = none := by
    rw [Option.eq_none_iff_forall_ne_some]
    intro value hvalue
    rcases hcore.bound hvalue hg with hk | hm
    · have hdoomed := hcore.kinship.doomed hg hk
      rw [ha] at hdoomed
      cases hdoomed
    · rw [ha] at hm
      cases hm
  refine ⟨hfree, ready, ?_⟩
  have hresolve : (e.taken ready).resolve tok =
      .ok ((e.taken ready).bind tok.group tok.result waiters region) := by
    unfold resolve
    simp only [show (e.taken ready).groups.get? tok.group = some grp from hg, hkind,
      show (e.taken ready).bound.lookup tok.group = none from hfree]
    rfl
  exact turn_step ha hh hready ht hphase hnode hresolve

namespace Engine

variable {ω : Type} {e : Engine ω}

/-- The groups of a state in which a cell has just been bound stand where they stood. -/
theorem under_bind {g : GroupId} : Under (e.bind c value waiters region).groups Group.parent c g ↔
    Under e.groups Group.parent c g := by
  have same : ∀ grp : Group, { grp with kind := .cell [] region }.parent = grp.parent :=
    fun _ => rfl
  constructor
  · intro hu
    induction hu with
    | self => exact .self
    | down hg hp _ ih =>
      obtain ⟨grp, hg, hparent⟩ := Store.modify_back
        (P := fun a b : Group => b.parent = a.parent) (fun _ => rfl) same hg
      exact .down hg (hparent.symm.trans hp) ih
  · intro hu
    induction hu with
    | self => exact .self
    | down hg hp _ ih =>
      obtain ⟨grp, hg, hparent⟩ := Store.modify_forth
        (P := fun a b : Group => b.parent = a.parent) (fun _ => rfl) same e.groups c hg
      exact .down hg (hparent.trans hp) ih

theorem condemned_bind {grp : Group} (hg : e.groups.get? c = some grp) :
    Condemned (e.bind c value waiters region) c := by
  obtain ⟨grp', hg', -⟩ := Store.modify_forth (P := fun _ _ => True) (by simp)
    (f := fun grp : Group => { grp with kind := .cell [] region }) (by simp) e.groups c hg
  exact .planned hg' (mem_append_left _ mem_cons_self)

theorem bind_agenda (ha : e.agenda = []) : (e.bind c value waiters region).agenda =
    .killGroup c :: .closeRegions [region] [] :: waiters.map .wake := by
  show _ ++ e.agenda = _
  rw [ha, append_nil]

/-- When a cell has just been bound, only those who compute it are in danger. -/
theorem under_of_condemned (hcore : Core m e none) (ha : e.agenda = []) {g : GroupId}
    (h : Condemned (e.bind c value waiters region) g) : Under e.groups Group.parent c g := by
  rw [← @under_bind c region waiters value]
  induction h with
  | killed hg' hk' =>
    obtain ⟨grp, hg, hk⟩ := Store.modify_back (P := fun a b : Group => b.killed = a.killed)
      (fun _ => rfl) (f := fun grp : Group => { grp with kind := .cell [] region })
      (fun _ => rfl) hg'
    have hdoomed := hcore.kinship.doomed hg (hk.symm.trans hk')
    rw [ha] at hdoomed
    cases hdoomed
  | @planned g _ _ hm =>
    rw [bind_agenda ha] at hm
    have heq : g = c := by simpa using hm
    subst heq
    exact .self
  | aborted _ _ htop =>
    rw [bind_agenda ha] at htop
    cases htop
  | under hg hp _ ih => exact .down hg hp ih

/-- Nobody has come to wait for a cell. -/
theorem waiting_of_bind (h : v ∈ (e.bind c value waiters region).waiting) : v ∈ e.waiting := by
  obtain ⟨g, grp', hg', hw'⟩ := Store.mem_collect.1 h
  obtain ⟨grp, hg, hw⟩ := Store.modify_back
    (P := fun a b : Group => ∀ t ∈ b.kind.waiters, t ∈ a.kind.waiters) (fun _ _ => id)
    (f := fun grp : Group => { grp with kind := .cell [] region }) (by simp [GroupKind.waiters]) hg'
  exact Store.mem_collect.2 ⟨g, grp, hg, hw v hw'⟩

end Engine

/-! ## What goes -/

/-- Below a group that is condemned or gone there are none but such. -/
theorem Condemned.of_under {empty : Option RegionId} (hcore : Core m e empty)
    (hc : e.groups.get? c = none ∨ Condemned e c) {g : GroupId}
    (hu : Under e.groups Group.parent c g) : e.groups.get? g = none ∨ Condemned e g := by
  induction hu with
  | self => exact hc
  | down hg hp _ ih =>
    obtain ⟨pgrp, hpgrp, -⟩ := hcore.kinship.parent_of hg hp
    refine .inr (.under hg hp (ih.resolve_left ?_))
    rw [hpgrp]
    simp

namespace Amid

variable {r : RegionId} {reg : Region} {g : GroupId}

section

variable (h : Amid e₁ e₂ e') (hcore : Core m e₂ none) (hidle : e₂.agenda = []) (hc : Condemned e₁ c)

include h hcore hidle hc

/-- No group is left below one that was condemned. -/
theorem group_gone (hu : Under e'.groups Group.parent c g) : e₂.groups.get? g = none := by
  obtain ⟨m', past', hsound⟩ := h.sound
  rcases Condemned.of_under hsound.coherent.core (h.after.condemned hc) hu with hgone | hcondemned
  · exact h.before.group hgone
  · refine (h.before.condemned hcondemned).resolve_right fun hcondemned => ?_
    exact hcondemned.busy hcore hidle

/-- No region is left below that of a cell whose group was condemned. -/
theorem region_gone (hreg : e₁.regions.get? region = some reg) (hkind : reg.kind = .pruning c)
    (hu : Under e'.regions Region.parent region r) : e₂.regions.get? r = none := by
  have hlater := h.after.trans h.before
  rw [Option.eq_none_iff_forall_ne_some]
  induction hu with
  | self =>
    intro reg₂ hreg₂
    have hkind₂ := (hlater.region_from hreg hreg₂).2.trans hkind
    obtain ⟨grp, hg, -⟩ := hcore.region_alive (by simp [hidle]) (by simp [hidle]) (by simp [hidle])
      hreg₂
    rw [(hcore.aligned.pruning hreg₂ hkind₂).2.1] at hg
    grind [Later.condemned, Condemned.busy]
  | down hr hp _ ih =>
    intro reg₂ hreg₂
    have hparent := (h.before.region_from hr hreg₂).1.trans hp
    obtain ⟨preg, hpreg, -⟩ := hcore.census.parent_of hreg₂ hparent
    exact ih preg hpreg

/-- No token is left that has computed the cell. -/
theorem token_gone (hreg : e₁.regions.get? region = some reg) (hkind : reg.kind = .pruning c)
    (ht : e'.tokens.get? v = some tok) (hcomputes : e'.Computes c region tok) :
    e₂.tokens.get? v = none := by
  rw [Option.eq_none_iff_forall_ne_some]
  intro tok₂ ht₂
  obtain ⟨tok', ht', hgroup, hregion⟩ := h.before.token (Store.lt_next ht) ht₂
  cases ht.symm.trans ht'
  rcases hcomputes with hu | hu
  · grind [Kinship.group_of, Core.kinship, group_gone]
  · obtain ⟨reg₂, hr, -⟩ := hcore.census.region_of ht₂
    grind [region_gone]

end

/-- No transaction is left whose group was below the cell. -/
theorem transaction_gone (h : Amid e₁ e₂ e') (hcore : Core m e₂ none)
    (hs : Sections m e₂ none) (hidle : e₂.agenda = []) (hc : Condemned e₁ c) {x : TxnId}
    {txn : Transaction} (hx : e'.transactions.get? x = some txn)
    (hu : Under e'.groups Group.parent c txn.group) : e₂.transactions.get? x = none := by
  rw [Option.eq_none_iff_forall_ne_some]
  intro txn₂ hx₂
  obtain ⟨txn', hx', hgroup⟩ := h.before.transaction hx₂
  cases hx.symm.trans hx'
  -- a transaction that is left has a region, and the group of a region is there
  obtain ⟨r, reg, hr, hkind⟩ := (hs.placed hx₂).resolve_right (by simp)
  obtain ⟨txn₃, hx₃, -, hrgroup, -⟩ := hcore.aligned.atomic hr hkind
  grind [Core.region_alive, group_gone]

end Amid

/-! ## How transactions end -/

theorem Attended.bind {x : TxnId} (h : Attended e x) (ha : e.agenda = []) :
    Attended (e.bind c value waiters region) x := by
  refine ⟨h.undecided, fun hx hstate hcohorts => ?_, ?_⟩
  · rcases h.votes hx hstate hcohorts with ⟨v, tok, ht, hphase, htxn, -⟩ | htop
    · refine .inl ⟨v, tok, ht, hphase, htxn, ?_⟩
      rw [bind_agenda ha]
      simp
    · rw [ha] at htop
      cases htop
  · rw [bind_agenda ha]
    simp

theorem Attended.deliver {x : TxnId} (h : Attended e x) (message : Message) :
    Attended (e.deliver message) x := ⟨h.undecided, h.votes, h.unretired⟩

/-- A transaction that is undecided before a reaction is so afterwards, or was aborted, or had no
    cohorts and was committed. -/
theorem Reaction.decided (h : Reaction host e₁ between e₂) (hsound : Sound m past e₁) {x : TxnId}
    (hx : Attended e₁ x) {cohorts : List CohortId}
    (hcohorts : ∀ cohort ∈ cohorts, Enlisted e₁.world.log cohort x) :
    Attended e₂ x ∨ (∃ e' ∈ between, e'.Aborts x) ∨
      cohorts = [] ∧ ∃ e' ∈ between, e'.Commits x := by
  refine (h.induct hsound (P := fun between e => e₁.world.log <+: e.world.log ∧
    (Attended e x ∨ (∃ e' ∈ between, e'.Aborts x) ∨ cohorts = [] ∧ ∃ e' ∈ between, e'.Commits x))
    ⟨prefix_rfl, .inl hx⟩ ?_ ?_).2.2
  · rintro m between a e e' ⟨hc, hs, hl⟩ he' ⟨hlog, hstate⟩
    refine ⟨hlog.trans (Later.perform hc he').log, ?_⟩
    rcases hstate with hattended | ⟨b, hb, haborts⟩ | ⟨hnone, b, hb, hcommits⟩
    · rcases hattended.perform hc hs hl he' with hattended' | haborts | hcommits
      · exact .inl hattended'
      · grind
      · refine .inr (.inr ⟨?_, _, mem_append_right _ mem_cons_self, hcommits⟩)
        obtain ⟨txn, rest, hagenda, hx, hreadying⟩ := hcommits
        obtain rfl : a = .verify x := (List.cons.inj hagenda).1
        rw [eq_nil_iff_forall_not_mem]
        intro cohort hcohort
        have hmem := (hl.enlisted hx cohort).2 (.mono (hlog.subset ·) (hcohorts cohort hcohort))
        grind [Attended.commit, plan]
    · grind
    · grind
  · grind [List.IsPrefix.trans, Later.log, Later.deliver, Attended.deliver]

/-! ## Who stays -/

/-- A token that is in no danger, waits for no cell and is not being sent on. -/
structure Aloof (e : Engine (Logged ω)) (v : TokenId) (tok : Token) : Prop where
  there : e.tokens.get? v = some tok
  safe : ¬Doomed e v tok
  free : v ∉ e.waiting
  settled : ∀ n, .proceed v n ∉ e.agenda

namespace Aloof

/-- A chore does nothing to such a token but wake it. -/
theorem perform (h : Aloof (e.plan [a]) v tok) (hc : Coherent m (e.plan [a]))
    (hs : Sections m (e.plan [a]) (some a)) (he' : e.perform host.logged a = .ok e') :
    ∃ tok', Aloof e' v tok' ∧
      (tok' = tok ∨ a = .wake v ∧ tok' = tok.woken) := by
  have ht : e.tokens.get? v = some tok := h.there
  have hkept : ∃ tok', e'.tokens.get? v = some tok' ∧
      (tok' = tok ∨ a = .wake v ∧ tok' = tok.woken) := by
    obtain ⟨tok', ht'⟩ := perform_kept he' ht fun heq =>
      h.safe (.inl (heq ▸ mem_cons_self))
    refine ⟨tok', ht', ?_⟩
    rcases perform_old he' (Store.lt_next ht) ht' with hsame | ⟨tok₀, ht₀, hchange⟩
    · grind
    · cases ht.symm.trans ht₀
      rcases hchange with ⟨heq, rfl⟩ | ⟨n, rfl, -⟩
      · exact .inr ⟨heq, rfl⟩
      · exact absurd mem_cons_self (h.settled n)
  obtain ⟨tok', ht', hchange⟩ := hkept
  have hgroup : tok'.group = tok.group := by
    rcases hchange with rfl | ⟨-, rfl⟩ <;> rfl
  refine ⟨tok', ⟨ht', fun hd => h.safe (hd.back hc hs he' ht h.free hgroup), ?_, ?_⟩, hchange⟩
  · intro hwaits
    obtain ⟨g, grp', hg', hw'⟩ := Store.mem_collect.1 hwaits
    obtain ⟨grp, hg, -, -, hw⟩ := perform_group_from he' hg'
    exact h.free (Store.mem_collect.2 ⟨g, grp, hg, hw v hw'⟩)
  · intro n hm
    obtain ⟨new, hnew, hplans⟩ := perform_plans he'
    rw [hnew] at hm
    rcases mem_append.1 hm with hm | hm
    · cases hplans _ hm
    · exact h.settled n (mem_cons_of_mem _ hm)

theorem deliver (h : Aloof e v tok) (message : Message) : Aloof (e.deliver message) v tok :=
  ⟨h.there, fun hd => h.safe (hd.congr rfl rfl rfl), h.free, h.settled⟩

/-- Nobody is woken who was not to be. -/
theorem no_wake (he' : e.perform host.logged a = .ok e') (h : .wake v ∉ (e.plan [a]).agenda) :
    .wake v ∉ e'.agenda := by
  intro hm
  obtain ⟨new, hnew, hplans⟩ := perform_plans he'
  rw [hnew] at hm
  rcases mem_append.1 hm with hm | hm
  · cases hplans _ hm
  · exact h (mem_cons_of_mem _ hm)

/-- A token that is not to be woken is left as it is. -/
theorem spared (h : Aloof e₁ v tok) (hreaction : Reaction host e₁ between e₂)
    (hsound : Sound m past e₁) (hwake : .wake v ∉ e₁.agenda) : e₂.tokens.get? v = some tok := by
  refine ((hreaction.induct hsound (P := fun _ e => Aloof e v tok ∧ .wake v ∉ e.agenda)
    ⟨h, hwake⟩ ?_ ?_).2.1).there
  · rintro m between a e e' ⟨hc, hs, -⟩ he' ⟨haloof, hwake⟩
    grind [perform, no_wake, plan]
  · grind [deliver, Engine.deliver]

/-- The token is as it was and is to be woken, or it has been. -/
def Waking (e : Engine (Logged ω)) (v : TokenId) (tok : Token) : Prop :=
  Aloof e v tok ∧ .wake v ∈ e.agenda ∨
    Aloof e v tok.woken ∧ v ∈ e.ready

/-- A token that is to be woken stays so until it is. -/
theorem Waking.perform (h : Waking (e.plan [a]) v tok) (hc : Coherent m (e.plan [a]))
    (hs : Sections m (e.plan [a]) (some a)) (he' : e.perform host.logged a = .ok e') :
    Waking e' v tok := by
  rcases h with ⟨haloof, hwake⟩ | ⟨haloof, hready⟩
  · obtain ⟨tok', haloof', hchange⟩ := haloof.perform hc hs he'
    by_cases ha : a = .wake v
    · subst ha
      have ht : e.tokens.get? v = some tok := haloof.there
      cases performed he' with
      | asleep hgone =>
        rw [ht] at hgone
        cases hgone
      | wake =>
        have ht' : (e.tokens.modify v Token.woken).get? v = some tok' := haloof'.there
        rw [Store.get?_modify, if_pos rfl, ht] at ht'
        cases ht'
        exact .inr ⟨haloof', mem_append_right _ mem_cons_self⟩
    · obtain rfl := hchange.resolve_right fun hwoken => ha hwoken.1
      obtain ⟨new, hnew, -⟩ := perform_plans he'
      refine .inl ⟨haloof', ?_⟩
      rw [hnew]
      exact mem_append_right _ ((mem_cons.1 hwake).resolve_left fun heq => ha heq.symm)
  · obtain ⟨tok', haloof', hchange⟩ := haloof.perform hc hs he'
    have hsame : tok' = tok.woken := by
      rcases hchange with rfl | ⟨-, rfl⟩ <;> rfl
    subst hsame
    exact .inr ⟨haloof', (perform_ready he').subset hready⟩

/-- A token that is to be woken is ready in the end. -/
theorem woken (h : Aloof e₁ v tok) (hreaction : Reaction host e₁ between e₂)
    (hsound : Sound m past e₁) (hidle : e₂.agenda = []) (hwake : .wake v ∈ e₁.agenda) :
    e₂.tokens.get? v = some tok.woken ∧ v ∈ e₂.ready := by
  have hwaking : Waking e₂ v tok := by
    refine (hreaction.induct hsound (P := fun _ e => Waking e v tok) (.inl ⟨h, hwake⟩) ?_ ?_).2
    · exact fun hsound he' h => h.perform hsound.coherent hsound.sections he'
    · intro between e message h
      exact h.imp (.imp_left (·.deliver message)) (.imp_left (·.deliver message))
  rcases hwaking with ⟨-, hwake⟩ | ⟨haloof, hready⟩
  · rw [hidle] at hwake
    cases hwake
  · exact ⟨haloof.there, hready⟩

end Aloof

/-! ## A cell is bound -/

/-- Between the states `e` and `e₂` the cell `c` was bound to `value`, and no more than that has
    happened.  `between` are the states on the way, `region` is the region of the cell and `waiters`
    are those who waited for it. -/
structure Cancelled (e : Engine (Logged ω)) (c : GroupId) (value : Value) (waiters : List TokenId)
    (region : RegionId) (between : History ω) (e₂ : Engine (Logged ω)) : Prop where
  slot : e.bound.lookup c = none ∧ e₂.bound.lookup c = some value
  groups : ∀ {e' g}, e' ∈ e :: between → Under e'.groups Group.parent c g →
    e₂.groups.get? g = none
  regions : ∀ {e' r}, e' ∈ e :: between → Under e'.regions Region.parent region r →
    e₂.regions.get? r = none
  tokens : ∀ {e' t tok}, e' ∈ e :: between → e'.tokens.get? t = some tok →
    e'.Computes c region tok → e₂.tokens.get? t = none
  /-- Transactions of the computation were aborted and their cohorts were told, or there was no
      cohort. -/
  transactions : ∀ {x txn}, e.transactions.get? x = some txn →
    Under e.groups Group.parent c txn.group → e₂.transactions.get? x = none ∧
      ((∃ e' ∈ between, e'.Aborts x) ∧
          (∀ cohort ∈ txn.cohorts, ∃ s, s.id = x ∧ .rolledBack cohort s ∈ e₂.world.log) ∨
        txn.cohorts = [] ∧ ∃ e' ∈ between, e'.Commits x)
  /-- When the region of the cell is to be closed it is gone. -/
  closing : ∀ {e' pending doomed rest}, e' ∈ between →
    e'.agenda = .closeRegions pending doomed :: rest →
      doomed = [] ∧ ∀ r ∈ pending, e'.regions.get? r = none
  woken : ∀ {t tok}, t ∈ waiters → e.tokens.get? t = some tok → ¬e.Computes c region tok →
    e₂.tokens.get? t = some { tok with phase := .runnable } ∧ t ∈ e₂.ready
  spared : ∀ {t tok}, t ∉ e.waiting → e.tokens.get? t = some tok → ¬e.Computes c region tok →
    e₂.tokens.get? t = some tok

/-- A run that has been through `past` goes on from `e` and comes to `e₂`, with something to do on
    the way and nothing left in the end. -/
structure Settles (host : Host ω) (program : Program) (limit : Option Nat) (world : ω)
    (past : History ω) (e : Engine (Logged ω)) (between : History ω)
    (e₂ : Engine (Logged ω)) : Prop where
  run : Run host program limit world (past ++ e :: between) e₂
  busy : ∀ e' ∈ between, e'.agenda ≠ []
  idle : e₂.agenda = []

theorem Reaction.busy (h : Reaction host e₁ between e) : ∀ e' ∈ between, e'.agenda ≠ [] := by
  induction h with
  | start => simp
  | chore _ _ ih =>
    intro b hb
    rcases mem_append.1 hb with hb | hb
    · exact ih b hb
    · cases mem_singleton.1 hb
      exact cons_ne_nil _ _
  | arrive _ _ ih => exact ih

/-- The reaction to the binding of a cell ends its computation and spares the rest. -/
theorem Reaction.cancels {m₁ : Charter} {past₁ : History ω} {ready : List TokenId}
    (h : e.resolving = some (c, value, waiters, region)) (hfree : e.bound.lookup c = none)
    (hsound : Sound m past e)
    (hsound₁ : Sound m₁ past₁ ((e.taken ready).bind c value waiters region))
    (hstations : Stations ((e.taken ready).bind c value waiters region))
    (hreaction : Reaction host ((e.taken ready).bind c value waiters region) between e₂)
    (hidle : e₂.agenda = []) : Cancelled e c value waiters region between e₂ := by
  obtain ⟨ha, -, -, grp, hg, hkind⟩ := resolving_eq_some h
  have hcore : Core m e none := hsound.coherent.core_of_idle ha
  have hs : Sections m e none := by
    have hs := hsound.sections
    rwa [ha] at hs
  -- the cell is alive, so that its region is there
  have hk : grp.killed = false := by
    rw [Bool.eq_false_iff]
    intro hk
    have hdoomed := hcore.kinship.doomed hg hk
    rw [ha] at hdoomed
    cases hdoomed
  obtain ⟨reg, hreg⟩ : ∃ reg, e.regions.get? region = some reg := by grind [Sections.cell]
  have hregkind := (hcore.aligned.cell hg hkind).2.2 reg hreg
  have hcondemned : Condemned ((e.taken ready).bind c value waiters region) c :=
    condemned_bind hg
  have htodo : ((e.taken ready).bind c value waiters region).agenda =
      .killGroup c :: .closeRegions [region] [] :: waiters.map .wake := bind_agenda ha
  -- the end of the reaction, and the states on the way
  obtain ⟨⟨m₂, hsound₂⟩, -⟩ := hreaction.induct hsound₁ (P := fun _ _ => True) trivial
    (fun _ _ _ => trivial) fun _ _ => trivial
  have hcore₂ : Core m₂ e₂ none := hsound₂.coherent.core_of_idle hidle
  have hs₂ : Sections m₂ e₂ none := by
    have hs₂ := hsound₂.sections
    rwa [hidle] at hs₂
  obtain ⟨hend, hamid⟩ := hreaction.amid hsound₁
  have hstart : Amid ((e.taken ready).bind c value waiters region) e₂
      ((e.taken ready).bind c value waiters region) :=
    ⟨⟨m₁, past₁, hsound₁⟩, .refl _, hend.after⟩
  -- outside of the computation nobody is in danger
  have hsafe : ∀ {t tok}, ¬e.Computes c region tok →
      ¬Doomed ((e.taken ready).bind c value waiters region) t tok := by
    rintro t tok hout (hm | hdoomed)
    · rw [htodo] at hm
      simp at hm
    · have htaken : Core m (e.taken ready) none := hcore.congr rfl
      exact hout (.inl (under_of_condemned htaken ha hdoomed))
  have hsettled : ∀ t n, .proceed t n ∉ ((e.taken ready).bind c value waiters region).agenda := by
    rw [htodo]
    simp
  constructor
  case slot =>
    refine ⟨hfree, ?_⟩
    rw [hend.after.bound]
    show List.lookup c ((c, value) :: e.bound) = _
    rw [lookup_cons, beq_self_eq_true]
  case groups => grind [Amid.group_gone, under_bind, taken, Engine.count]
  case regions =>
    intro e' r he' hu
    rcases mem_cons.1 he' with rfl | he'
    · exact hstart.region_gone hcore₂ hidle hcondemned hreg hregkind hu
    · exact (hamid e' he').region_gone hcore₂ hidle hcondemned hreg hregkind hu
  case tokens =>
    intro e' t tok he' ht hcomputes
    rcases mem_cons.1 he' with rfl | he'
    · exact hstart.token_gone hcore₂ hidle hcondemned hreg hregkind ht
        (hcomputes.imp_left Engine.under_bind.2)
    · exact (hamid e' he').token_gone hcore₂ hidle hcondemned hreg hregkind ht hcomputes
  case transactions =>
    intro x txn hx hu
    have hgone := hstart.transaction_gone hcore₂ hs₂ hidle hcondemned hx (Engine.under_bind.2 hu)
    have henlisted : ∀ cohort ∈ txn.cohorts, Enlisted e.world.log cohort x :=
      fun cohort hm => (hsound.ledger.enlisted hx cohort).1 hm
    have hattended : Attended (e.taken ready) x :=
      .of_idle (hcore.congr rfl) (hs.congr rfl rfl) ha hx
    refine ⟨hgone, ?_⟩
    rcases hreaction.decided hsound₁ (hattended.bind ha) henlisted with
      hattended | ⟨b, hb, haborts⟩ | hcommits
    · grind [Attended.undecided]
    · refine .inl ⟨⟨b, hb, haborts⟩, fun cohort hm => ?_⟩
      obtain ⟨s, hid, htold | hpending⟩ := (hsound₂.ledger.aborted (mem_append_right _ hb)
        haborts).2.2 cohort (.mono (hend.after.log.subset ·) (henlisted cohort hm))
      · exact ⟨s, hid, htold⟩
      · rw [hidle] at hpending
        cases hpending
    · exact .inr hcommits
  case closing =>
    intro e' pending doomed rest he' hagenda
    obtain ⟨m', past', hsound'⟩ := (hamid e' he').sound
    have hplan := eq_plan hagenda
    generalize { e' with agenda := rest } = e₀ at hplan
    subst hplan
    exact ⟨(hsound'.sections.closing mem_cons_self).1,
      fun r hr => hsound'.sections.closing_gone hsound'.coherent.core hr⟩
  case woken =>
    intro t tok hwaits ht hout
    have hwake : .wake t ∈ ((e.taken ready).bind c value waiters region).agenda := by
      rw [htodo]
      simpa using hwaits
    have hgrounded : t ∉ ((e.taken ready).bind c value waiters region).waiting := by
      -- it is in one place, and is about to leave it
      have hparked := ((hstations.live ht).resolve_left (hsafe hout)).parked
      have hwoken := count_pos_iff.2 (mem_wakes.2 hwake)
      unfold parked at hparked
      have hone : tok.phase.parked ≤ 1 := by cases tok.phase <;> simp [Phase.parked]
      exact count_eq_zero.1 (by omega)
    have haloof : Aloof ((e.taken ready).bind c value waiters region) t tok :=
      ⟨ht, hsafe hout, hgrounded, hsettled t⟩
    grind [Aloof.woken]
  case spared =>
    intro t tok hfree ht hout
    have hgrounded : t ∉ ((e.taken ready).bind c value waiters region).waiting := by
      intro hw
      have hwaits := waiting_of_bind hw
      exact hfree hwaits
    have haloof : Aloof ((e.taken ready).bind c value waiters region) t tok :=
      ⟨ht, hsafe hout, hgrounded, hsettled t⟩
    refine haloof.spared hreaction hsound₁ ?_
    rw [htodo]
    intro hm
    have hwaits : t ∈ waiters := by simpa using hm
    refine hfree (Store.mem_collect.2 ⟨c, grp, hg, ?_⟩)
    rw [hkind]
    exact hwaits

/-- Pruning binds once and cancels the loser.  In a run every cell is bound at most once, and keeps
    its value.  When a token binds a cell the reaction to it comes to an end, and whatever messages
    arrive in the meantime, it has cancelled the computation of the cell and spared the rest.  Asked
    of the world outside is that votes are answered by votes, and calls at most once. -/
theorem binding_cancels_computation (host : Host ω) (program : Program) (limit : Option Nat)
    (world : ω) {past : List (Engine (Logged ω))} {e : Engine (Logged ω)}
    (h : Run host program limit world past e) :
    ((e.bound.map Prod.fst).Nodup ∧ ∀ e₁ ∈ past, ∀ c value,
      e₁.bound.lookup c = some value → e.bound.lookup c = some value) ∧
    (Polite e.world.log → Single e.world.log →
      ∀ {c value waiters region}, e.resolving = some (c, value, waiters, region) →
        (∃ between e₂, Settles host program limit world past e between e₂) ∧
        ∀ {between e₂}, Settles host program limit world past e between e₂ →
          Cancelled e c value waiters region between e₂) := by
  refine ⟨h.bound, fun hpolite hsingle {c value waiters region} hresolves => ?_⟩
  obtain ⟨m, hc, hs, hl⟩ := h.sound hpolite
  have ha := (resolving_eq_some hresolves).1
  obtain ⟨hfree, ready, hp⟩ := turn_of_resolving host hresolves (hc.core_of_idle ha)
  have hrun := h.turn hp
  obtain ⟨m₁, hc₁, hs₁, hl₁⟩ := hrun.sound hpolite
  refine ⟨?_, fun {between e₂} hsettles => ?_⟩
  · obtain ⟨between, e₂, hreaction, hidle⟩ := Reaction.ends host hc₁ hs₁
    refine ⟨between, e₂, ?_, hreaction.busy, hidle⟩
    have hwhole := hreaction.run hrun
    rwa [append_assoc] at hwhole
  · obtain ⟨p, hp', hreaction⟩ := hsettles.run.reaction hsettles.busy
    cases hp.symm.trans hp'
    exact hreaction.cancels hresolves hfree ⟨hc, hs, hl⟩ ⟨hc₁, hs₁, hl₁⟩
      (hrun.stations hpolite hsingle) hsettles.idle

/-- A run in which one token waits, inside a transaction, for a cell that another one binds. -/
theorem binding_cancels_computation_roundTrip : ∃ p past e between e₂ c value waiters region,
    Expr.roundTrip.compile Registry.roundTrip = .ok p ∧ Run Host.echo p none () past e ∧
      Polite e.world.log ∧ Single e.world.log ∧
      e.resolving = some (c, value, waiters, region) ∧ waiters = [⟨1⟩] ∧
      Settles Host.echo p none () past e between e₂ ∧
      Cancelled e c value waiters region between e₂ := by
  obtain ⟨p, past, e, hp, hrun, hcheck⟩ := Run.compiled Expr.roundTrip Registry.roundTrip
    Host.echo none () 18 (fun e => decide (Polite e.world.log) &&
      decide (Single e.world.log) && e.resolving.any fun found => found.2.2.1 = [⟨1⟩])
    ⟨_, rfl, by decide +kernel⟩
  simp only [Bool.and_eq_true, decide_eq_true_eq, Option.any_eq_true] at hcheck
  obtain ⟨⟨hpolite, hsingle⟩, ⟨c, value, waiters, region⟩, hresolving, hwaiters⟩ := hcheck
  obtain ⟨⟨between, e₂, hsettles⟩, hcancelled⟩ :=
    (binding_cancels_computation _ _ _ _ hrun).2 hpolite hsingle hresolving
  exact ⟨p, past, e, between, e₂, c, value, waiters, region, hp, hrun, hpolite, hsingle, hresolving,
    hwaiters, hsettles, hcancelled hsettles⟩

/-! ## A transaction that commits on the way -/

/-- A host that keeps one value: site 0 puts it there and any other immediate site gives it back.
    Its threaded sites never answer. -/
def Host.shelf : Host (Option Value) where
  call site args kept :=
    match site.ident, args with
    | 0, [v] => { answer := .publish .signal, world := some v }
    | _, _ => { answer := (kept.map Reply.publish).getD .halt, world := kept }
  launch _ _ _ kept := { answer := true, world := kept }
  transact _ _ _ kept := { answer := { reply := .halt }, world := kept }
  ready _ _ _ kept := { answer := (), world := kept }
  confirm _ _ kept := kept
  rollback _ _ kept := kept
  publish _ kept := kept
  report _ kept := kept
  yield kept := { answer := (), world := kept }
  await _ := none

/-- Its sites, and a clock. -/
def Registry.shelf : Registry :=
  ⟨[⟨"put", 0, .immediate⟩, ⟨"get", 1, .immediate⟩, ⟨"never", 2, .threaded⟩,
    ⟨"sleep", 3, .timer 0⟩]⟩

/-- The computation of a cell with a transaction, `atomic (sleep(1) >> get() >g> g())`, with a
    younger cell, `def f() = y; put(f) >> stop <y< never()`, and with `sleep(2) >> 7`.  The
    transaction gets `f` and comes to wait for the younger cell. -/
def Expr.entangled : Expr :=
  .pruning (.value (.variable 0))
    (.parallel
      (.atomic (.sequential (.call (.site "sleep") [.literal (.int 1)] .none)
        (.sequential (.call (.site "get") [] .none) (.call (.variable 0) [] .none))))
      (.parallel
        (.pruning
          (.declare [.mk "f" 0 (.value (.variable 1))]
            (.sequential (.call (.site "put") [.variable 0] .none) .stop))
          (.call (.site "never") [] .none))
        (.sequential (.call (.site "sleep") [.literal (.int 2)] .none)
          (.value (.literal (.int 7))))))

/-- The busy states that follow a turn and the idle one that ends them, if it comes within so many
    turns. -/
def Engine.reaction {ω : Type} (host : Host ω) :
    Nat → Engine ω → Option (List (Engine ω) × Engine ω)
  | 0, _ => none
  | n + 1, e =>
    match e.turn host with
    | .ok (.next e') =>
      if e'.agenda.isEmpty then some ([], e')
      else (reaction host n e').map fun rest => (e' :: rest.1, rest.2)
    | _ => none

theorem Run.settles {program : Program} {limit : Option Nat} {world : ω} {n : Nat}
    (h : Run host program limit world past e)
    (hn : e.reaction host.logged n = some (between, e₂)) :
    Settles host program limit world past e between e₂ := by
  induction n generalizing past e between with
  | zero => cases hn
  | succ n ih =>
    unfold Engine.reaction at hn
    split at hn
    · rename_i e' hp
      split at hn
      · rename_i hidle
        cases hn
        exact ⟨h.turn hp, by simp, List.isEmpty_iff.1 hidle⟩
      · rename_i hbusy
        obtain ⟨⟨rest, e₃⟩, hrest, heq⟩ := Option.map_eq_some_iff.1 hn
        cases heq
        obtain ⟨hrun, hrest, hidle⟩ := ih (h.turn hp) hrest
        refine ⟨by rwa [append_assoc] at hrun, ?_, hidle⟩
        grind
    · cases hn

/-- Whether the next turn aborts a transaction. -/
def Engine.aborting (x : TxnId) (e : Engine ω) : Bool :=
  match e.agenda with
  | .abort y :: _ => y = x && (e.transactions.get? x).any fun txn =>
      txn.state = .running || txn.state = .readying
  | _ => false

theorem Engine.aborting_of_aborts {x : TxnId} {e : Engine ω} (h : e.Aborts x) :
    e.aborting x = true := by
  obtain ⟨txn, rest, hagenda, hx, hstate⟩ := h
  grind [aborting]

/-- Binding a cell need not abort the transactions of its computation: when a younger cell goes
    first, with the only token of a transaction waiting for it, the transaction commits. -/
theorem transaction_commits_amid_binding : ∃ p past e between e₂ c value waiters region x txn,
    Expr.entangled.compile Registry.shelf = .ok p ∧
      Settles Host.shelf p none none past e between e₂ ∧
      Polite e.world.log ∧ Single e.world.log ∧
      e.resolving = some (c, value, waiters, region) ∧ e.transactions.get? x = some txn ∧
      Under e.groups Group.parent c txn.group ∧ ¬∃ e' ∈ between, e'.Aborts x := by
  obtain ⟨p, past, e, hp, hrun, hcheck⟩ := Run.compiled Expr.entangled Registry.shelf
    Host.shelf none none 25 (fun e =>
      decide (Polite e.world.log) && decide (Single e.world.log) &&
      (e.resolving.any fun found => found.1 = ⟨1⟩) &&
      ((e.transactions.get? ⟨0⟩).any fun txn => txn.group = ⟨2⟩) &&
      ((e.groups.get? ⟨2⟩).any fun grp => grp.parent = some ⟨1⟩) &&
      (e.reaction Host.shelf.logged 29).any fun found =>
        found.1.all fun e' => !e'.aborting ⟨0⟩) ⟨_, rfl, by decide +kernel⟩
  simp only [Bool.and_eq_true, decide_eq_true_eq, Option.any_eq_true] at hcheck
  obtain ⟨⟨⟨⟨⟨hpolite, hsingle⟩, ⟨c, value, waiters, region⟩, hresolving, rfl⟩, txn, htxn, hgroup⟩,
    grp, hgrp, hparent⟩, ⟨between, e₂⟩, hreaction, hall⟩ := hcheck
  refine ⟨p, past, e, between, e₂, ⟨1⟩, value, waiters, region, ⟨0⟩, txn, hp,
    hrun.settles hreaction, hpolite, hsingle, hresolving, htxn, ?_, ?_⟩
  · exact .down (hgroup ▸ hgrp) hparent .self
  · rintro ⟨e', he', haborts⟩
    have hnot := all_eq_true.1 hall e' he'
    simp [aborting_of_aborts haborts] at hnot

end Orchestra
