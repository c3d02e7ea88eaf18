/-
  Accounts: every region counts exactly what is in it, and reacts exactly when nothing is.

  Between two turns of tokens the accounts of all regions are in order (`Region.Accounted`): the
  count is the number of tokens and of regions below, both lists are what the tokens and the
  regions below say themselves, and nothing is empty.  In the middle of a reaction one region may
  be empty, and then the chore on top is to look at it.  So a region goes when, and only when, its
  last token or the last region below has gone, and what its kind asks for is done in the same
  turn (`Engine.shut`).
-/
import Orchestra.Proofs.Run
import Orchestra.Proofs.Safety

namespace Orchestra

open Engine

variable {ω : Type} {m : Charter} {e e' : Engine ω} {host : Host ω} {rest : List Chore}
  {limit : Option Nat} {program : Program} {p : Progress ω} {reg : Region} {r : RegionId}
  {world : ω}

/-! ## States that can be reached -/

/-- The states that a program can come to in a host, whatever messages arrive. -/
def Reachable (host : Host ω) (program : Program) (limit : Option Nat) (world : ω)
    (e : Engine ω) : Prop :=
  Reaches host (fun _ _ => True) (Engine.new program limit world).start e

theorem Reaches.coherent {holds : ω → Value → Prop} {e₀ : Engine ω} {m₀ : Charter}
    (h : Reaches host holds e₀ e) (h₀ : Coherent m₀ e₀) : ∃ m, Coherent m e := by
  induction h with
  | refl => exact ⟨m₀, h₀⟩
  | turn _ hp ih =>
    obtain ⟨m, hc⟩ := ih
    obtain ⟨m', -, hc'⟩ := hc.turn host hp
    exact ⟨m', hc'⟩
  | arrive _ message _ ih =>
    obtain ⟨m, hc⟩ := ih
    exact ⟨m, { hc with core := hc.core.congr rfl }⟩

/-- Some turns of a program that lead to a state that passes a check reach such a state. -/
theorem Reachable.of_leads {n : Nat} {check : Engine ω → Bool}
    (h : Run.Leads host (Engine.new program limit world).start n check = true) :
    ∃ e, Reachable host program limit world e ∧ check e = true := by
  unfold Run.Leads at h
  split at h
  · rename_i e hturns
    exact ⟨e, Reaches.of_turns .refl hturns, h⟩
  · cases h

/-! ## Regions that stand -/

/-- The region that is there from the start. -/
def rootRegion : RegionId := ⟨0⟩

/-- No region has gone, and none has become a root. -/
structure Standing (regions regions' : Store .region Region) : Prop where
  kept : ∀ {r reg}, regions.get? r = some reg → ∃ reg', regions'.get? r = some reg'
  root : ∀ {r reg'}, regions'.get? r = some reg' → reg'.kind = .root →
    ∃ reg, regions.get? r = some reg ∧ reg.kind = .root

namespace Standing

variable {regions regions' regions'' : Store .region Region}

theorem refl (regions : Store .region Region) : Standing regions regions :=
  ⟨fun hr => ⟨_, hr⟩, fun hr hkind => ⟨_, hr, hkind⟩⟩

theorem trans (h : Standing regions regions') (h' : Standing regions' regions'') :
    Standing regions regions'' := by
  constructor
  · intro r reg hr
    obtain ⟨reg', hr'⟩ := h.kept hr
    exact h'.kept hr'
  · grind [root]

theorem modify (h : Standing regions regions') (r : RegionId) {f : Region → Region}
    (hf : ∀ reg, (f reg).kind = reg.kind) : Standing regions (regions'.modify r f) := by
  refine h.trans ⟨?_, ?_⟩
  · grind
  · intro r' reg' hr' hkind
    rcases Store.modified hr' with ⟨-, reg, hr, rfl⟩ | ⟨-, hr'⟩
    · exact ⟨reg, hr, (hf reg).symm.trans hkind⟩
    · exact ⟨reg', hr', hkind⟩

theorem insert (h : Standing regions regions') (hkind : reg.kind ≠ .root) :
    Standing regions (regions'.insert reg) := by
  refine h.trans ⟨?_, ?_⟩
  · grind
  · grind

end Standing

namespace Engine

theorem Grown.standing (h : e.Grown e') : Standing e.regions e'.regions := by
  refine ⟨fun hr => ?_, fun hr' hkind => ?_⟩
  · obtain ⟨reg', hr', -⟩ := h.region hr
    exact ⟨reg', hr'⟩
  · grind [region_from]

/-- A reaction removes no region. -/
theorem react_standing (kind : RegionKind) : Standing e.regions (e.react kind).regions := by
  obtain ⟨_, _, hgrown⟩ := e.react_grown kind
  exact hgrown.standing

theorem react_gone (kind : RegionKind) (hr : e.regions.get? r = none) :
    (e.react kind).regions.get? r = none := by
  obtain ⟨_, _, hgrown⟩ := e.react_grown kind
  simpa [hr] using hgrown.regions r

/-- A chore other than the reaction of a region leaves all regions standing. -/
theorem perform_standing {a : Chore} (he' : e.perform host a = .ok e')
    (hquiesce : ∀ r, a ≠ .quiesce r) : Standing e.regions e'.regions := by
  cases performed he' with
  | quiesce | quiesced => exact absurd rfl (hquiesce _)
  | killToken | detach | close => exact (Standing.refl _).modify _ fun _ => rfl
  | @prepare x txn =>
    have hopened : Standing e.regions (e.openVotes x txn).regions :=
      ((Standing.refl _).insert (by simp)).modify _ fun _ => rfl
    exact hopened.trans (askVotes_grown ..).standing
  | release => exact (spawnReady_grown ..).standing
  | _ => exact .refl _

theorem receive_regions (message : Message) : (e.receive host message).regions = e.regions := by
  have hreceived := e.received host message
  generalize e.receive host message = e' at hreceived
  cases hreceived <;> rfl

theorem wakeAll_regions (ts : List TokenId) : (ts.foldl wake e).regions = e.regions := by
  rw [wakeAll_eq]

theorem idle_regions : (e.idle host).state.regions = e.regions := by
  have hidled := e.idled host
  generalize e.idle host = p at hidled
  cases hidled with
  | await | stuck => rfl
  | tick => exact wakeAll_regions _

/-! ## How a region goes -/

/-- A region with nothing left in it goes, and what its kind asks for is done.  `rest` is what was
    to be done after that. -/
def shut (e : Engine ω) (r : RegionId) (reg : Region) (rest : List Chore) : Engine ω :=
  ({ e with regions := e.regions.remove r, agenda := rest }.plan (reg.farewell r)).react reg.kind

theorem shut_gone (e : Engine ω) (r : RegionId) (reg : Region) (rest : List Chore) :
    (e.shut r reg rest).regions.get? r = none := by
  refine react_gone reg.kind ?_
  exact Store.get?_remove_self ..

/-- What is left to be done when a region has gone: it is taken off the count of the region around
    it, before anything else that was planned. -/
def leftover (r : RegionId) (reg : Region) (rest : List Chore) : List Chore := reg.farewell r ++ rest

/-- What a region that goes brings about, by its kind.  The last one halts the run; that of a cell has
    the group of the cell killed; an `otherwise` without a publication puts its fallback in the queue,
    if the scope of the fallback takes tokens, and one with a publication does nothing; and a
    transaction goes on to its votes, and from there to its verdict. -/
def Fired (e e' : Engine ω) (after : List Chore) : RegionKind → Prop
  | .root => e'.halted = true ∧ e'.agenda = after ∧ e'.tokens = e.tokens
  | .pruning cell => e'.agenda = .killGroup cell :: after ∧ e'.tokens = e.tokens
  | .otherwise true _ => e'.agenda = after ∧ e'.tokens = e.tokens ∧ e'.ready = e.ready
  | .otherwise false fallback => e'.agenda = after ∧
    if e.groupAlive fallback.group ∧ e.regionOpen fallback.region then
      e'.tokens = e.tokens.insert (fallback.resume .signal) ∧ e'.ready = e.ready ++ [e.tokens.next]
    else e'.tokens = e.tokens ∧ e'.ready = e.ready
  | .transaction x => e'.agenda = .prepare x :: after ∧ e'.tokens = e.tokens
  | .votes x => e'.agenda = .verify x :: after ∧ e'.tokens = e.tokens

/-- A region that goes brings about what its kind says. -/
theorem shut_fired (hfallback : ∀ {published k}, reg.kind = .otherwise published k → k.region ≠ r) :
    e.Fired (e.shut r reg rest) (leftover r reg rest) reg.kind := by
  unfold shut
  cases hkind : reg.kind with
  | root => exact ⟨rfl, rfl, rfl⟩
  | pruning cell | transaction x | votes x => exact ⟨rfl, rfl⟩
  | otherwise published k =>
    cases published with
    | true => exact ⟨rfl, rfl, rfl⟩
    | false =>
      refine ⟨spawnReady_agenda, ?_⟩
      have hsame : (e.regions.remove r).get? k.region = e.regions.get? k.region :=
        Store.get?_remove_of_ne _ (hfallback hkind)
      -- the region around is still there, so it takes the fallback if it did before
      simp only [react, spawnReady, spawn, Bool.false_eq_true, if_false, Continuation.resume,
        groupAlive, regionOpen, plan, hsame, Bool.and_eq_true]
      split
      · exact ⟨rfl, rfl⟩
      · exact ⟨rfl, rfl⟩

theorem turn_quiesce (ha : e.agenda = .quiesce r :: rest) (hr : e.regions.get? r = some reg) :
    e.turn host = .ok (.next (e.shut r reg rest)) := by
  have hquiesce := quiesce_eq (e := { e with agenda := rest }) hr
  unfold turn
  rw [ha]
  show Except.ok (Progress.next ({ e with agenda := rest }.quiesce r)) = _
  rw [hquiesce]
  rfl

theorem turn_settle (ha : e.agenda = .settle r :: rest) (hr : e.regions.get? r = some reg)
    (hlive : reg.live = 0) : e.turn host = .ok (.next { e with agenda := .quiesce r :: rest }) := by
  unfold turn
  rw [ha]
  show Except.ok (Progress.next ({ e with agenda := rest }.settle r)) = _
  unfold settle
  simp only [hr, hlive, if_true]
  rfl

/-- All regions stand after a turn but the one that the turn lets react. -/
theorem turn_standing (hc : Coherent m e) (hp : e.turn host = .ok p) :
    Standing e.regions p.state.regions ∨
      ∃ r, e.agenda.head? = some (.quiesce r) ∧ Standing (e.regions.remove r) p.state.regions := by
  cases turned hp with
  | @chore e₁ _ a he he' =>
    subst he
    by_cases hquiesce : ∃ r, a = .quiesce r
    · obtain ⟨r, rfl⟩ := hquiesce
      cases performed he' with
      | quiesced => exact .inl (.refl _)
      | @quiesce _ reg =>
        have hstanding := react_standing (e := e₁.removed r reg) reg.kind
        exact .inr ⟨r, rfl, hstanding⟩
    · have hstanding := perform_standing he' fun r heq => hquiesce ⟨r, heq⟩
      exact .inl hstanding
  | done => exact .inl (.refl _)
  | skip => exact .inl (.refl _)
  | step ha hh hready ht hphase hnode he' =>
    rename_i ready _ _
    obtain ⟨mail, notices, hf⟩ := hc.footprint ha ht hphase he'
    refine .inl ⟨?_, ?_⟩
    · intro r reg hr
      obtain ⟨reg', hr', -⟩ := hf.region_kept hr
      exact ⟨reg', hr'⟩
    · intro r reg' hr' hkind
      rcases hf.region_from hr' with ⟨reg, hr, halike⟩ | ⟨-, hparent, -⟩
      · have := halike.kind
        exact ⟨reg, hr, by grind⟩
      · -- a root has nothing above it
        obtain ⟨m', -, hc'⟩ := hc.turn host hp
        rw [(hc'.core.aligned.root hr' hkind).1] at hparent
        cases hparent
  | message =>
    refine .inl ?_
    show Standing _ (receive host _ _).regions
    rw [receive_regions]
    exact .refl _
  | idle =>
    rw [idle_regions]
    exact .inl (.refl _)

/-- Only the first region is a root. -/
def Rooted (e : Engine ω) : Prop :=
  ∀ ⦃r reg⦄, e.regions.get? r = some reg → reg.kind = .root → r = rootRegion

theorem Rooted.turn (h : e.Rooted) (hc : Coherent m e) (hp : e.turn host = .ok p) :
    p.state.Rooted := by
  intro r reg' hr' hkind
  rcases turn_standing hc hp with hstanding | ⟨r₀, -, hstanding⟩
  · obtain ⟨reg, hr, hkind'⟩ := hstanding.root hr' hkind
    exact h hr hkind'
  · obtain ⟨reg, hr, hkind'⟩ := hstanding.root hr' hkind
    obtain ⟨-, hr⟩ := Store.of_get?_remove hr
    exact h hr hkind'

end Engine

/-! ## The accounts of a region -/

/-- The accounts of the region `r`, whose record is `reg`, are in order. -/
structure Region.Accounted (e : Engine ω) (r : RegionId) (reg : Region) : Prop where
  live : reg.live = reg.tokens.length + reg.children.length
  lively : 0 < reg.live
  tokens : ∀ t, t ∈ reg.tokens ↔ ∃ tok, e.tokens.get? t = some tok ∧ tok.region = r
  tokens_nodup : reg.tokens.Nodup
  children : ∀ c, c ∈ reg.children ↔ ∃ creg, e.regions.get? c = some creg ∧ creg.parent = some r
  children_nodup : reg.children.Nodup
  parent : r ≠ rootRegion → ∃ p preg, reg.parent = some p ∧ e.regions.get? p = some preg

/-- A region other than a root lies below another. -/
theorem Core.parent_of_kind {empty : Option RegionId} (h : Core m e empty)
    (hr : e.regions.get? r = some reg) (hkind : reg.kind ≠ .root) :
    ∃ p preg, reg.parent = some p ∧ e.regions.get? p = some preg := by
  obtain ⟨p, hp⟩ : ∃ p, reg.parent = some p := by
    cases hk : reg.kind with
    | root => exact absurd hk hkind
    | pruning c =>
      obtain ⟨⟨p, hp, -⟩, -⟩ := h.aligned.pruning hr hk
      exact ⟨p, hp⟩
    | otherwise published k => exact ⟨_, (h.aligned.otherwise hr hk).1⟩
    | transaction x =>
      obtain ⟨txn, -, hp, -⟩ := h.aligned.atomic hr (.inl hk)
      exact ⟨_, hp⟩
    | votes x =>
      obtain ⟨txn, -, hp, -⟩ := h.aligned.atomic hr (.inr hk)
      exact ⟨_, hp⟩
  obtain ⟨preg, hpreg, -⟩ := h.census.parent_of hr hp
  exact ⟨p, preg, hp, hpreg⟩

/-- With nothing left to do, the accounts of all regions are in order. -/
theorem Coherent.accounted (h : Coherent m e) (hrooted : e.Rooted) (ha : e.agenda = [])
    (hr : e.regions.get? r = some reg) : reg.Accounted e r := by
  have hcore := h.core_of_idle ha
  have hcensus := hcore.census
  constructor
  case live => exact hcensus.live_eq hr
  case lively => exact (hcensus.lively hr).resolve_right (by simp)
  case tokens => grind [Census.token_of, Census.region_of]
  case tokens_nodup => exact hcensus.tokens_nodup hr
  case children =>
    intro c
    constructor
    · intro hc
      refine (hcensus.child_of hr hc).resolve_right ?_
      simp [ha, detaches]
    · grind [Census.parent_of]
  case children_nodup => exact hcensus.children_nodup hr
  case parent =>
    intro hne
    exact hcore.parent_of_kind hr fun hkind => hne (hrooted hr hkind)

/-- A region with nothing in it is looked at next. -/
theorem Coherent.attended (h : Coherent m e) (hr : e.regions.get? r = some reg)
    (htokens : reg.tokens = []) (hchildren : reg.children = []) :
    ∃ rest, e.agenda = .quiesce r :: rest ∨ e.agenda = .settle r :: rest := by
  have hlive : reg.live = 0 := by rw [h.core.census.live_eq hr, htokens, hchildren]; rfl
  have hhollow : hollow e.agenda = some r :=
    (h.core.census.lively hr).resolve_left (by omega)
  cases hagenda : e.agenda with
  | nil => rw [hagenda] at hhollow; cases hhollow
  | cons a rest =>
    refine ⟨rest, ?_⟩
    rw [hagenda] at hhollow
    cases a <;> cases hhollow
    · exact .inl rfl
    · exact .inr rfl

/-- A region of a coherent state that goes brings about what its kind asks for. -/
theorem Coherent.fired (h : Coherent m e) (hr : e.regions.get? r = some reg) (rest : List Chore) :
    e.Fired (e.shut r reg rest) (Engine.leftover r reg rest) reg.kind := by
  refine shut_fired fun hkind heq => ?_
  have hparent := (h.core.aligned.otherwise hr hkind).1
  -- the region around is older than the one that goes
  exact absurd (h.core.census.older hr hparent) (heq ▸ Nat.lt_irrefl _)

/-- A region that a turn removes has nothing in it, and has just been asked to react. -/
theorem Coherent.removed (h : Coherent m e) (hp : e.turn host = .ok p)
    (hr : e.regions.get? r = some reg) (hgone : p.state.regions.get? r = none) :
    ∃ rest, e.agenda = .quiesce r :: rest ∧ reg.tokens = [] ∧ reg.children = [] := by
  have kept : ∀ {regions : Store .region Region}, Standing regions p.state.regions →
      regions.get? r ≠ some reg := by grind [Standing.kept]
  rcases turn_standing h hp with hstanding | ⟨r₀, hhead, hstanding⟩
  · exact absurd hr (kept hstanding)
  · have hsame : r = r₀ := by grind
    subst hsame
    obtain ⟨rest, ha⟩ : ∃ rest, e.agenda = .quiesce r :: rest := by
      cases hagenda : e.agenda with
      | nil => rw [hagenda] at hhead; cases hhead
      | cons a rest =>
        rw [hagenda] at hhead
        cases hhead
        exact ⟨rest, rfl⟩
    have hlive := h.quiet (ha ▸ List.mem_cons_self) hr
    rw [h.core.census.live_eq hr] at hlive
    refine ⟨rest, ha, List.eq_nil_of_length_eq_zero ?_, List.eq_nil_of_length_eq_zero ?_⟩ <;> omega

theorem Reachable.coherent (h : Reachable host program limit world e) : ∃ m, Coherent m e :=
  Reaches.coherent h (Coherent.start program limit world)

theorem Engine.Rooted.start (program : Program) (limit : Option Nat) (world : ω) :
    (Engine.new program limit world).start.Rooted := by
  intro r reg hr hkind
  rw [start_eq] at hr
  obtain ⟨reg₀, hr₀, -⟩ := (spawnReady_grown _ program.firstToken).standing.root hr hkind
  have hr₀ : (Store.empty.insert _).get? r = some reg₀ := hr₀
  rw [Store.get?_insert, Store.get?_empty] at hr₀
  split at hr₀
  · assumption
  · cases hr₀

theorem Reachable.rooted (h : Reachable host program limit world e) : e.Rooted := by
  unfold Reachable at h
  induction h with
  | refl => exact .start program limit world
  | turn hreach hp ih =>
    obtain ⟨m, hc⟩ := Reaches.coherent hreach (Coherent.start program limit world)
    exact ih.turn hc hp
  | arrive _ message _ ih => exact ih

/-- The accounts of all regions are exact.  In every state that can be reached, with nothing left
    to do, every region counts its tokens and the regions below it, which are those that name it,
    and none is empty.  So a region goes when, and only when, its last token or the last region
    below it is gone: a turn that removes it finds it empty and brings about what its kind asks for,
    and as soon as it is empty, letting it go is the next thing to do. -/
theorem region_accounts_exact (host : Host ω) (program : Program) (limit : Option Nat) (world : ω)
    {e : Engine ω} (h : Reachable host program limit world e) :
    (e.agenda = [] → ∀ {r reg}, e.regions.get? r = some reg → reg.Accounted e r) ∧
      (∀ {r reg p}, e.regions.get? r = some reg → e.turn host = .ok p →
        p.state.regions.get? r = none → reg.tokens = [] ∧ reg.children = [] ∧
          ∃ rest, e.agenda = .quiesce r :: rest ∧ p = .next (e.shut r reg rest) ∧
            e.Fired p.state (Engine.leftover r reg rest) reg.kind) ∧
      ∀ {r reg}, e.regions.get? r = some reg → reg.tokens = [] → reg.children = [] →
        ∃ rest, (e.shut r reg rest).regions.get? r = none ∧
          e.Fired (e.shut r reg rest) (Engine.leftover r reg rest) reg.kind ∧
          ((e.agenda = .quiesce r :: rest ∧ e.turn host = .ok (.next (e.shut r reg rest))) ∨
            (e.agenda = .settle r :: rest ∧
              e.turn host = .ok (.next { e with agenda := .quiesce r :: rest }))) := by
  obtain ⟨m, hc⟩ := h.coherent
  refine ⟨fun ha _ _ hr => hc.accounted h.rooted ha hr, ?_, ?_⟩
  · intro r reg p hr hp hgone
    obtain ⟨rest, ha, htokens, hchildren⟩ := hc.removed hp hr hgone
    rw [turn_quiesce ha hr] at hp
    cases hp
    exact ⟨htokens, hchildren, rest, ha, rfl, hc.fired hr rest⟩
  · intro r reg hr htokens hchildren
    have hlive : reg.live = 0 := by rw [hc.core.census.live_eq hr, htokens, hchildren]; rfl
    obtain ⟨rest, ha⟩ := hc.attended hr htokens hchildren
    refine ⟨rest, shut_gone e r reg rest, hc.fired hr rest,
      ha.imp (fun ha => ⟨ha, ?_⟩) fun ha => ⟨ha, ?_⟩⟩
    · exact turn_quiesce ha hr
    · exact turn_settle ha hr hlive

/-- Whether the region belongs to an `otherwise` that has published nothing. -/
def RegionKind.isSilent : RegionKind → Bool
  | .otherwise false _ => true
  | _ => false

/-- Two states of a run.  In the one, a region inside a transaction computes a cell: the region around
    it counts it, next to a token of its own.  In the other, the left side of an `otherwise` has just
    ended without a publication: the next turn removes its region, and its fallback takes over. -/
theorem region_accounts_exact_roundTrip : ∃ p,
    Expr.roundTrip.compile Registry.roundTrip = .ok p ∧
    (∃ e reg, Reachable Host.echo p none () e ∧ e.agenda = [] ∧ e.regions.get? ⟨1⟩ = some reg ∧
      reg.tokens = [⟨1⟩] ∧ reg.children = [⟨3⟩] ∧ reg.Accounted e ⟨1⟩) ∧
    ∃ e reg q, Reachable Host.echo p none () e ∧ e.regions.get? ⟨2⟩ = some reg ∧
      reg.kind.isSilent = true ∧ reg.parent = some ⟨1⟩ ∧ e.turn Host.echo = .ok q ∧
      q.state.regions.get? ⟨2⟩ = none ∧ q.state.tokens.size = e.tokens.size + 1 ∧
      (reg.tokens = [] ∧ reg.children = [] ∧
        ∃ rest, e.agenda = .quiesce ⟨2⟩ :: rest ∧ q = .next (e.shut ⟨2⟩ reg rest) ∧
          e.Fired q.state (Engine.leftover ⟨2⟩ reg rest) reg.kind) ∧
      ∃ rest, (e.shut ⟨2⟩ reg rest).regions.get? ⟨2⟩ = none ∧
        e.Fired (e.shut ⟨2⟩ reg rest) (Engine.leftover ⟨2⟩ reg rest) reg.kind := by
  obtain ⟨p, hp, hinside, hends⟩ : ∃ p, Expr.roundTrip.compile Registry.roundTrip = .ok p ∧
      Run.Leads Host.echo (Engine.new p none ()).start 14 (fun e => e.agenda.isEmpty &&
        (e.regions.get? ⟨1⟩).any fun reg => reg.tokens = [⟨1⟩] && reg.children = [⟨3⟩]) = true ∧
      Run.Leads Host.echo (Engine.new p none ()).start 11 (fun e =>
        ((e.regions.get? ⟨2⟩).any fun reg => reg.kind.isSilent && reg.parent = some ⟨1⟩) &&
        (e.turn Host.echo).toOption.any fun q => (q.state.regions.get? ⟨2⟩).isNone &&
          q.state.tokens.size = e.tokens.size + 1) = true :=
    ⟨_, rfl, by decide +kernel, by decide +kernel⟩
  refine ⟨p, hp, ?_, ?_⟩
  · obtain ⟨e, he, hcheck⟩ := Reachable.of_leads hinside
    simp only [Bool.and_eq_true, decide_eq_true_eq, List.isEmpty_iff, Option.any_eq_true] at hcheck
    obtain ⟨ha, reg, hr, htokens, hchildren⟩ := hcheck
    have hexact := (region_accounts_exact Host.echo p none () he).1 ha hr
    exact ⟨e, reg, he, ha, hr, htokens, hchildren, hexact⟩
  · obtain ⟨e, he, hcheck⟩ := Reachable.of_leads hends
    simp only [Bool.and_eq_true, decide_eq_true_eq, Option.isNone_iff_eq_none,
      Option.any_eq_true] at hcheck
    obtain ⟨⟨reg, hr, hkind, hparent⟩, q, hturn, hgone, hsize⟩ := hcheck
    have hq : e.turn Host.echo = .ok q := by
      cases hp : e.turn Host.echo with
      | error fault => simp [hp, Except.toOption] at hturn
      | ok q' => simpa [hp, Except.toOption] using hturn
    obtain ⟨-, hremoved, hempty⟩ := region_accounts_exact Host.echo p none () he
    have hleft := hremoved hr hq hgone
    obtain ⟨rest, hshut, hfired, -⟩ := hempty hr hleft.1 hleft.2.1
    exact ⟨e, reg, q, he, hr, hkind, hparent, hq, hgone, hsize, hleft, rest, hshut, hfired⟩

end Orchestra
