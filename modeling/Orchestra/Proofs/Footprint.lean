/-
  Footprints: what a step of a token can leave behind.

  A step changes the token itself, may found a cell, a region or a transaction, may add a token
  beside itself, and may ask the host one thing.  Everything else stays as it was.  `Footprint`
  says so once for all nodes: which records there are afterwards and where each comes from, what
  is planned, and what the host was asked.  A theory that wants to know how steps affect some part
  of a state starts from here and never opens the nodes again.

  The first sections build footprints move by move; `execute_footprint` puts them together.
-/
import Orchestra.Proofs.Steps

namespace Orchestra

open Engine List

variable {ω : Type} {m : Charter} {e e' e'' : Engine ω} {host : Host ω} {t : TokenId} {tok : Token}
  {grp : Group} {c : GroupId} {next : Nat} {node : Node} {a b reg : Region} {site : Site}
  {tok' tok₁ : Token} {x : TxnId}

/-! ## Records that stay what they are -/

/-- Two records of a region that differ at most in what is counted and in whether something was
    published. -/
structure Region.Alike (a b : Region) : Prop where
  parent : b.parent = a.parent
  closed : b.closed = a.closed
  kind : b.kind = a.kind ∨ ∃ p q k, a.kind = .otherwise p k ∧ b.kind = .otherwise q k

/-- Two records of a group that differ at most in its members and children, and by the token `t`
    in those waiting for its value. -/
structure Group.Alike (t : TokenId) (a b : Group) : Prop where
  killed : b.killed = a.killed
  kind : b.kind = a.kind ∨ ∃ ws ws' r, a.kind = .cell ws r ∧ b.kind = .cell ws' r ∧
    ∀ v ∈ ws', v ∈ ws ∨ v = t

/-- Two records of a transaction that differ at most in its cohorts and publications. -/
structure Transaction.Alike (a b : Transaction) : Prop where
  scope : b.scope = a.scope
  parent : b.parent = a.parent
  group : b.group = a.group
  continuation : b.continuation = a.continuation
  state : b.state = a.state

theorem Region.Alike.refl (a : Region) : a.Alike a := ⟨rfl, rfl, .inl rfl⟩

theorem Region.Alike.trans {c : Region} (h : a.Alike b) (h' : b.Alike c) : a.Alike c := by
  refine ⟨h'.parent.trans h.parent, h'.closed.trans h.closed, ?_⟩
  have h₁ := h.kind
  have h₂ := h'.kind
  grind

theorem Region.Alike.votes_iff (h : a.Alike b) : b.kind = .votes x ↔ a.kind = .votes x := by
  have := h.kind
  grind

theorem Region.Alike.transaction_iff (h : a.Alike b) :
    b.kind = .transaction x ↔ a.kind = .transaction x := by
  have := h.kind
  grind

theorem Region.Alike.pruning_iff (h : a.Alike b) : b.kind = .pruning c ↔ a.kind = .pruning c := by
  have := h.kind
  grind

theorem Group.Alike.refl (t : TokenId) (a : Group) : a.Alike t a := ⟨rfl, .inl rfl⟩

theorem Group.Alike.trans {a b c : Group} (h : a.Alike t b) (h' : b.Alike t c) : a.Alike t c := by
  refine ⟨h'.killed.trans h.killed, ?_⟩
  have h₁ := h.kind
  have h₂ := h'.kind
  grind

theorem Transaction.Alike.refl (a : Transaction) : a.Alike a := ⟨rfl, rfl, rfl, rfl, rfl⟩

/-! ## What a step asks of the host -/

/-- Cohorts that take part in the transaction of a scope and in those around it. -/
abbrev Notice := Scope × List CohortId

/-- A step asks the host at most one thing, and may then report a failure or publish something.
    `mail` are the messages that are there at once, `notices` says who takes part from now on. -/
inductive Asks (host : Host ω) (scope : Option Scope) (w : ω) :
    ω → List Message → List Notice → Prop where
  | nothing : Asks host scope w w [] []
  | call (site : Site) (args : List Value) :
    Asks host scope w (host.call site args w).world (host.call site args w).mail []
  | launch (site : Site) (args : List Value) (t : TokenId) :
    Asks host scope w (host.launch site args t w).world (host.launch site args t w).mail []
  | outside (site : Site) (args : List Value) (hs : scope = none) :
    Asks host scope w (host.transact site args none w).world (host.transact site args none w).mail []
  | inside (site : Site) (args : List Value) {s : Scope} (hs : scope = some s) :
    Asks host scope w (host.transact site args (some s) w).world
      (host.transact site args (some s) w).mail
      [(s, (host.transact site args (some s) w).answer.enlisted)]
  | report {w' : ω} {mail : List Message} {notices : List Notice} (failure : Failure)
    (h : Asks host scope w w' mail notices) :
    Asks host scope w (host.report failure w') mail notices
  | publish {w' : ω} {mail : List Message} {notices : List Notice} (publication : Publication)
    (h : Asks host scope w w' mail notices) :
    Asks host scope w (host.publish publication w') mail notices

/-- A notice speaks of the scope that the step was taken in. -/
theorem Asks.scope_eq {scope : Option Scope} {w w' : ω} {mail : List Message}
    {notices : List Notice} (h : Asks host scope w w' mail notices) {n : Notice}
    (hn : n ∈ notices) : scope = some n.1 := by
  induction h with
  | nothing | call | launch | outside => cases hn
  | inside site args hs =>
    cases mem_singleton.1 hn
    exact hs
  | report _ _ ih | publish _ _ ih => exact ih hn

/-! ## What a step plans -/

/-- The chores after the closing of a region only wake tokens. -/
def Trailing : List Chore → Prop
  | [] => True
  | .closeRegions _ _ :: agenda => ∀ a ∈ agenda, ∃ t, a = .wake t
  | _ :: agenda => Trailing agenda

/-- The chores that a step of the token `t` from `e` to `e'` may plan. -/
def Chore.Follows (t : TokenId) (e e' : Engine ω) : Chore → Prop
  | .killToken v => v = t
  | .wake v => ∃ g grp ws r, e.groups.get? g = some grp ∧ grp.kind = .cell ws r ∧ v ∈ ws
  | .closeRegions pending doomed => doomed = [] ∧ ∀ r ∈ pending, r.index < e.regions.next.index ∧
      ∀ reg, e.regions.get? r = some reg →
        ∃ c, reg.kind = .pruning c ∧ (e'.bound.lookup c).isSome = true
  | .settle _ | .prepare _ | .verify _ | .retire _ | .release _ _ | .rollback _ _ | .detach _ _
  | .removeGroup _ => False
  | _ => True

/-- The tokens that wait on a clock. -/
def Engine.timed (e : Engine ω) : List TokenId :=
  e.clocks.flatMap fun c => c.timers.map Timer.payload

/-! ## Footprints -/

/-- What is held back for a transaction, if anything. -/
def heldFor (x : TxnId) : Option (TxnId × Value) → List Value
  | some (y, v) => if y = x then [v] else []
  | none => []

/-- What a step of the token `t`, whose record is `tok`, does on the way from `e` to `e'`.  `held`
    is a publication that is held back. -/
structure Footprint (host : Host ω) (t : TokenId) (tok : Token) (held : Option (TxnId × Value))
    (mail : List Message) (notices : List Notice) (e e' : Engine ω) : Prop where
  next_token : e.tokens.next.index ≤ e'.tokens.next.index
  others : ∀ {v}, v ≠ t → v.index < e.tokens.next.index → e'.tokens.get? v = e.tokens.get? v
  /-- The token and those it adds stand in its region, in a new one or in the one above. -/
  mine : ∀ {v tok'}, e'.tokens.get? v = some tok' → v = t ∨ e.tokens.next.index ≤ v.index →
    tok'.phase ≠ .voting ∧ (tok'.region = tok.region ∨ tok'.region = e.regions.next ∨
      ∃ reg, e.regions.get? tok.region = some reg ∧ reg.parent = some tok'.region)
  next_region : e.regions.next.index ≤ e'.regions.next.index
  region_kept : ∀ {r reg}, e.regions.get? r = some reg →
    ∃ reg', e'.regions.get? r = some reg' ∧ reg.Alike reg'
  region_from : ∀ {r reg'}, e'.regions.get? r = some reg' →
    (∃ reg, e.regions.get? r = some reg ∧ reg.Alike reg') ∨
      (r = e.regions.next ∧ reg'.parent = some tok.region ∧ reg'.closed = false ∧
        (∀ x, reg'.kind ≠ .votes x) ∧ ∀ x, reg'.kind = .transaction x → x = e.transactions.next)
  group_kept : ∀ {g grp}, e.groups.get? g = some grp →
    ∃ grp', e'.groups.get? g = some grp' ∧ grp.Alike t grp'
  group_from : ∀ {g grp'}, e'.groups.get? g = some grp' →
    (∃ grp, e.groups.get? g = some grp ∧ grp.Alike t grp') ∨
      (g = e.groups.next ∧ grp'.killed = false ∧
        ((grp'.kind = .cell [] e.regions.next ∧ ∃ reg', e'.regions.get? e.regions.next = some reg') ∨
          (grp'.kind = .transaction e.transactions.next ∧
            ∃ txn', e'.transactions.get? e.transactions.next = some txn' ∧ txn'.group = g)))
  next_txn : e.transactions.next.index ≤ e'.transactions.next.index
  txn_kept : ∀ {x txn}, e.transactions.get? x = some txn →
    ∃ txn', e'.transactions.get? x = some txn' ∧ txn.Alike txn'
  txn_from : ∀ {x txn'}, e'.transactions.get? x = some txn' →
    (∃ txn, e.transactions.get? x = some txn ∧ txn.Alike txn' ∧
      (txn.state = .running ∨ heldFor x held = [] →
        txn'.publications = txn.publications ++ heldFor x held) ∧
      (txn.cohorts.Nodup → txn'.cohorts.Nodup) ∧
      ∀ c, c ∈ txn'.cohorts ↔ c ∈ txn.cohorts ∨ ∃ n ∈ notices, x ∈ n.1.lineage ∧ c ∈ n.2) ∨
    (x = e.transactions.next ∧ txn'.state = .running ∧ txn'.cohorts = [] ∧ txn'.publications = [] ∧
      txn'.group = e.groups.next ∧ txn'.continuation.region = tok.region ∧
      (∃ grp', e'.groups.get? txn'.group = some grp' ∧ grp'.killed = false) ∧
      ∃ r reg', e'.regions.get? r = some reg' ∧ reg'.kind = .transaction x)
  held_txn : ∀ {x v}, held = some (x, v) → tok.txn = some x
  /-- At most one cell gets a value, and one that has none. -/
  bound : e'.bound = e.bound ∨ ∃ c v, e.bound.lookup c = none ∧ e'.bound = (c, v) :: e.bound
  timed : ∀ v ∈ e'.timed, v ∈ e.timed ∨ v = t
  trailing : Trailing e'.agenda
  follows : ∀ a ∈ e'.agenda, a.Follows t e e'
  asks : Asks host (e.scopeOf tok) e.world e'.world mail notices
  inbox : e'.inbox = e.inbox ++ mail

namespace Footprint

variable {held : Option (TxnId × Value)} {mail : List Message} {notices : List Notice}

/-- A token that does nothing leaves everything as it is. -/
theorem still (ht : e.tokens.get? t = some tok) (hp : tok.phase ≠ .voting) (ha : e.agenda = []) :
    Footprint host t tok none [] [] e e where
  next_token := Nat.le_refl _
  others := fun _ _ => rfl
  mine := by
    rintro v tok' hv (rfl | hlt)
    · grind
    · exact absurd (Store.lt_next hv) (Nat.not_lt.2 hlt)
  next_region := Nat.le_refl _
  region_kept := fun hr => ⟨_, hr, .refl _⟩
  region_from := fun hr => .inl ⟨_, hr, .refl _⟩
  group_kept := fun hg => ⟨_, hg, .refl _ _⟩
  group_from := fun hg => .inl ⟨_, hg, .refl _ _⟩
  next_txn := Nat.le_refl _
  txn_kept := fun hx => ⟨_, hx, .refl _⟩
  txn_from := fun hx => .inl ⟨_, hx, .refl _, by simp [heldFor], id, by simp⟩
  held_txn := by simp
  bound := .inl rfl
  timed := fun _ => .inl
  trailing := by rw [ha]; trivial
  follows := by simp [ha]
  asks := .nothing
  inbox := (append_nil _).symm

/-- Only some parts of a state matter. -/
theorem congr (h : Footprint host t tok held mail notices e e')
    (hsame : (e''.records, e''.clocks, e''.world, e''.inbox) =
      (e'.records, e'.clocks, e'.world, e'.inbox)) :
    Footprint host t tok held mail notices e e'' := by
  obtain ⟨hsame, hc, hw, hi⟩ := by simpa only [Prod.mk.injEq] using hsame
  obtain ⟨ht, hg, hr, hx, hb, ha⟩ := Engine.records_eq.1 hsame
  have htimed : e''.timed = e'.timed := by unfold Engine.timed; rw [hc]
  have hfollows : ∀ a : Chore, a.Follows t e e' → a.Follows t e e'' := by
    intro a
    cases a <;> simp [Chore.Follows, hb]
  constructor
  case follows => grind [follows]
  case next_token => rw [ht]; exact h.next_token
  case others => rw [ht]; exact h.others
  case mine => rw [ht]; exact h.mine
  case next_region => rw [hr]; exact h.next_region
  case region_kept => rw [hr]; exact h.region_kept
  case region_from => rw [hr]; exact h.region_from
  case group_kept => rw [hg]; exact h.group_kept
  case group_from => rw [hg, hr, hx]; exact h.group_from
  case next_txn => rw [hx]; exact h.next_txn
  case txn_kept => rw [hx]; exact h.txn_kept
  case txn_from => rw [hx, hg, hr]; exact h.txn_from
  case held_txn => exact h.held_txn
  case bound => rw [hb]; exact h.bound
  case timed => rw [htimed]; exact h.timed
  case trailing => rw [ha]; exact h.trailing
  case asks => rw [hw]; exact h.asks
  case inbox => rw [hi]; exact h.inbox

/-! ### Tokens -/

section

variable (h : Footprint host t tok held mail notices e e')

include h

/-- The token changes, and stands where a step can take it. -/
theorem onToken {f : Token → Token}
    (hf : ∀ old, e'.tokens.get? t = some old → (f old).phase ≠ .voting ∧
      ((f old).region = tok.region ∨ (f old).region = e.regions.next ∨
        ∃ reg, e.regions.get? tok.region = some reg ∧ reg.parent = some (f old).region)) :
    Footprint host t tok held mail notices e (e'.onToken t f) := by
  refine { h with next_token := ?_, others := ?_, mine := ?_ }
  · show _ ≤ (e'.tokens.modify t f).next.index
    rw [Store.next_modify]
    exact h.next_token
  · grind [others, Engine.onToken]
  · intro v tok' (hv : (e'.tokens.modify t f).get? v = some tok') hmine
    rcases Store.modified hv with ⟨rfl, old, hold, rfl⟩ | ⟨-, hv⟩
    · exact hf old hold
    · exact h.mine hv hmine

theorem becomes (hr : tok'.region = tok.region) (hp : tok'.phase ≠ .voting) :
    Footprint host t tok held mail notices e (e'.becomes t tok') :=
  h.onToken fun _ _ => ⟨hp, .inl hr⟩

/-- A record of a token is added, beside this one or in the new region. -/
theorem insertToken (hp : tok₁.phase ≠ .voting)
    (hr : tok₁.region = tok.region ∨ tok₁.region = e.regions.next) :
    Footprint host t tok held mail notices e { e' with tokens := e'.tokens.insert tok₁ } := by
  have hnext := h.next_token
  refine { h with next_token := ?_, others := ?_, mine := ?_ }
  · grind
  · grind [others]
  · grind [mine]

end

/-! ### Regions and groups -/

section

variable (h : Footprint host t tok held mail notices e e')

include h

/-- What is counted in a region changes, or something was published. -/
theorem onRegion (r : RegionId) {f : Region → Region}
    (hf : ∀ reg, e'.regions.get? r = some reg → reg.Alike (f reg)) :
    Footprint host t tok held mail notices e (e'.onRegion r f) := by
  have hkeep : ∀ {r' reg}, e'.regions.get? r' = some reg →
      ∃ reg', (e'.onRegion r f).regions.get? r' = some reg' ∧ reg.Alike reg' := by
    intro r' reg hr'
    show ∃ reg', (e'.regions.modify r f).get? r' = some reg' ∧ _
    rw [Store.get?_modify, hr']
    split
    · exact ⟨_, rfl, hf reg (‹r' = r› ▸ hr')⟩
    · exact ⟨_, rfl, .refl reg⟩
  refine { h with
    next_region := ?_, region_kept := ?_, region_from := ?_, group_from := ?_, txn_from := ?_ }
  · show _ ≤ (e'.regions.modify r f).next.index
    rw [Store.next_modify]
    exact h.next_region
  · grind [region_kept, Region.Alike.trans]
  · intro r' reg' (hr' : (e'.regions.modify r f).get? r' = some reg')
    obtain ⟨reg₁, hreg₁, halike⟩ : ∃ reg₁, e'.regions.get? r' = some reg₁ ∧ reg₁.Alike reg' := by
      rcases Store.modified hr' with ⟨rfl, reg₁, hreg₁, rfl⟩ | ⟨-, hr'⟩
      · exact ⟨reg₁, hreg₁, hf reg₁ hreg₁⟩
      · exact ⟨reg', hr', .refl reg'⟩
    rcases h.region_from hreg₁ with ⟨reg, hreg, halike'⟩ | ⟨rfl, hparent, hclosed, hvotes, htxn⟩
    · exact .inl ⟨reg, hreg, halike'.trans halike⟩
    · grind [Region.Alike.parent, Region.Alike.closed, Region.Alike.kind]
  · grind [group_from, Engine.onRegion]
  · intro x txn' hx'
    refine (h.txn_from hx').imp_right ?_
    rintro ⟨hx, hstate, hcohorts, hpubs, hgroup, hregion, halive, r', reg', hr', hkind⟩
    obtain ⟨reg'', hr'', halike⟩ := hkeep hr'
    refine ⟨hx, hstate, hcohorts, hpubs, hgroup, hregion, halive, r', reg'', hr'', ?_⟩
    have := halike.kind
    grind

/-- The members or the children of a group change, or this token is added to those that wait. -/
theorem onGroup (g : GroupId) {f : Group → Group}
    (hf : ∀ grp, e'.groups.get? g = some grp → grp.Alike t (f grp))
    (hnew : g = e.groups.next → ∀ grp, (f grp).kind = grp.kind) :
    Footprint host t tok held mail notices e (e'.onGroup g f) := by
  have hkeep : ∀ {g' grp}, e'.groups.get? g' = some grp →
      ∃ grp', (e'.onGroup g f).groups.get? g' = some grp' ∧ grp.Alike t grp' := by
    intro g' grp hg'
    show ∃ grp', (e'.groups.modify g f).get? g' = some grp' ∧ _
    rw [Store.get?_modify, hg']
    split
    · exact ⟨_, rfl, hf grp (‹g' = g› ▸ hg')⟩
    · exact ⟨_, rfl, .refl t grp⟩
  refine { h with group_kept := ?_, group_from := ?_, txn_from := ?_ }
  · grind [group_kept, Group.Alike.trans]
  · intro g' grp' (hg' : (e'.groups.modify g f).get? g' = some grp')
    obtain ⟨grp₁, hgrp₁, halike, hsame⟩ : ∃ grp₁, e'.groups.get? g' = some grp₁ ∧
        grp₁.Alike t grp' ∧ (g' = e.groups.next → grp'.kind = grp₁.kind) := by
      rcases Store.modified hg' with ⟨rfl, grp₁, hgrp₁, rfl⟩ | ⟨-, hg'⟩
      · grind
      · simp_all [Group.Alike.refl]
    rcases h.group_from hgrp₁ with ⟨grp, hgrp, halike'⟩ | ⟨heq, hk, hkind⟩
    · exact .inl ⟨grp, hgrp, halike'.trans halike⟩
    · grind [Group.Alike.killed, Engine.onGroup]
  · intro x txn' hx'
    refine (h.txn_from hx').imp_right ?_
    rintro ⟨hx, hstate, hcohorts, hpubs, hgroup, hregion, ⟨grp, hg, hk⟩, hr⟩
    obtain ⟨grp', hg', halike⟩ := hkeep hg
    exact ⟨hx, hstate, hcohorts, hpubs, hgroup, hregion, ⟨grp', hg', halike.killed.trans hk⟩, hr⟩

/-- A token is added to the run. -/
theorem spawn {id : TokenId} (hs : e'.spawn tok₁ = some (id, e'')) (hp : tok₁.phase ≠ .voting)
    (hr : tok₁.region = tok.region ∨ tok₁.region = e.regions.next) :
    Footprint host t tok held mail notices e e'' := by
  obtain ⟨-, -, -, he''⟩ := spawn_eq_some hs
  have hadded := ((h.insertToken hp hr).onGroup tok₁.group (f := Group.enrol e'.tokens.next)
    (fun _ _ => ⟨rfl, .inl rfl⟩) fun _ _ => rfl).onRegion tok₁.region
      (f := Region.seat e'.tokens.next) fun _ _ => ⟨rfl, rfl, .inl rfl⟩
  rw [he'']
  exact hadded.congr rfl

theorem spawnReady (hp : tok₁.phase ≠ .voting)
    (hr : tok₁.region = tok.region ∨ tok₁.region = e.regions.next) :
    Footprint host t tok held mail notices e (e'.spawnReady tok₁) := by
  unfold Engine.spawnReady
  split
  · rename_i hs
    exact (h.spawn hs hp hr).congr rfl
  · exact h

end

/-! ### Ending, failing, going on -/

section

variable (h : Footprint host t tok held mail notices e e')

include h

/-- Chores are planned. -/
theorem plan (ha : e'.agenda = []) {new : List Chore} (htrailing : Trailing new)
    (hfollows : ∀ a ∈ new, a.Follows t e e') :
    Footprint host t tok held mail notices e (e'.plan new) := by
  have hagenda : (e'.plan new).agenda = new := by simp [Engine.plan, ha]
  refine { h with trailing := ?_, follows := ?_ } <;> rw [hagenda]
  · exact htrailing
  · exact hfollows

/-- The token ends. -/
theorem kill (ha : e'.agenda = []) :
    Footprint host t tok held mail notices e (e'.plan [.killToken t]) :=
  h.plan ha trivial (by simp [Chore.Follows])

theorem failed (ha : e'.agenda = []) (tok' : Token) (error : TokenError) :
    Footprint host t tok held mail notices e (e'.failed host t tok' error) := by
  have hcounted : Footprint host t tok held mail notices e
      (e'.count fun s => { s with failures := s.failures + 1 }) :=
    h.congr rfl
  have hreported : Footprint host t tok held mail notices e
      { e'.count fun s => { s with failures := s.failures + 1 } with
        world := host.report { span := tok'.span, error } e'.world } :=
    { hcounted with asks := .report _ h.asks }
  exact hreported.kill ha

/-- The token goes on. -/
theorem goesOn (hr : tok'.region = tok.region) (hp : tok'.phase ≠ .voting) :
    Footprint host t tok held mail notices e (e'.goesOn t tok') :=
  (h.becomes hr hp).congr rfl

/-- The token waits for a cell. -/
theorem park (ha : e'.agenda = []) (hgroups : e'.groups = e.groups) (cell : GroupId) :
    Footprint host t tok held mail notices e (e'.park t cell) := by
  unfold Engine.park
  split
  · rename_i waiters region _ _ hcell
    refine onToken (onGroup h cell ?_ ?_) fun old hold => ⟨by simp, (h.mine hold (.inl rfl)).2⟩
    · intro grp hg
      cases hcell.symm.trans hg
      exact ⟨rfl, .inr ⟨_, _, _, rfl, rfl, by simp⟩⟩
    · grind
  · exact h.kill ha

end

/-! ### The host -/

/-- The host is asked something. -/
theorem absorb {ρ : Type} {effect : Effect ω ρ} (h : Footprint host t tok held [] [] e e')
    (hasks : Asks host (e.scopeOf tok) e.world effect.world effect.mail []) :
    Footprint host t tok held effect.mail [] e (e'.absorb effect).2 := by
  refine { h with asks := hasks, inbox := ?_ }
  show e'.inbox ++ effect.mail = _
  rw [h.inbox, append_nil]

section

variable (h : Footprint host t tok none [] [] e e') (htxns : e'.transactions = e.transactions)

include h htxns

/-- The records of transactions change in place. -/
theorem retouch (transactions : Store .transaction Transaction)
    (hnext : transactions.next = e.transactions.next)
    (hkept : ∀ {x txn}, e.transactions.get? x = some txn →
      ∃ txn', transactions.get? x = some txn' ∧ txn.Alike txn')
    (hfrom : ∀ {x txn'}, transactions.get? x = some txn' →
      ∃ txn, e.transactions.get? x = some txn ∧ txn.Alike txn' ∧
        (txn.state = .running ∨ heldFor x held = [] →
          txn'.publications = txn.publications ++ heldFor x held) ∧
        (txn.cohorts.Nodup → txn'.cohorts.Nodup) ∧
        ∀ c, c ∈ txn'.cohorts ↔ c ∈ txn.cohorts ∨ ∃ n ∈ notices, x ∈ n.1.lineage ∧ c ∈ n.2)
    (hheld : ∀ {x v}, held = some (x, v) → tok.txn = some x) {w : ω}
    (hasks : Asks host (e.scopeOf tok) e.world w mail notices) :
    Footprint host t tok held mail notices e
      { e' with transactions := transactions, world := w, inbox := e'.inbox ++ mail } := by
  refine { h with
    group_from := ?_, next_txn := Nat.le_of_eq (by rw [hnext]), txn_kept := hkept,
    txn_from := fun hx => .inl (hfrom hx), held_txn := hheld, asks := hasks, inbox := ?_ }
  · -- no transaction was founded
    grind [group_from]
  · rw [h.inbox, append_nil]

/-- A transactional site is asked, and cohorts take part from now on. -/
theorem enlist {ρ : Type} {effect : Effect ω ρ} {s : Scope} {cohorts : List CohortId}
    (hasks : Asks host (e.scopeOf tok) e.world effect.world effect.mail [(s, cohorts)]) :
    Footprint host t tok none effect.mail [(s, cohorts)] e
      ((e'.absorb effect).2.enlist s cohorts) := by
  have hget : ∀ x, ((e'.absorb effect).2.enlist s cohorts).transactions.get? x =
      if x ∈ s.lineage then (e.transactions.get? x).map fun txn => txn.enlist cohorts
      else e.transactions.get? x := by
    intro x
    rw [get?_enlist]
    show (if _ then Option.map _ (e'.transactions.get? x) else e'.transactions.get? x) = _
    rw [htxns]
  have halike : ∀ txn : Transaction, txn.Alike (txn.enlist cohorts) :=
    fun _ => ⟨rfl, rfl, rfl, rfl, rfl⟩
  rw [enlist_eq]
  refine h.retouch htxns _ ?_ ?_ ?_ (by simp) hasks
  · rw [next_enlist]
    show e'.transactions.next = _
    rw [htxns]
  · intro x txn hx
    rw [hget, hx]
    split
    · exact ⟨_, rfl, halike txn⟩
    · exact ⟨_, rfl, .refl txn⟩
  · intro x txn' hx'
    rw [hget] at hx'
    split at hx'
    · rename_i hmem
      obtain ⟨txn, hx, rfl⟩ := Option.map_eq_some_iff.1 hx'
      simp_all [nodup_foldl_joined, mem_foldl_joined, heldFor, Transaction.enlist]
    · simp_all [Transaction.Alike.refl, heldFor]

/-- A publication is held back. -/
theorem hold (hworld : e'.world = e.world) (hx : tok.txn = some x) (v : Value) :
    Footprint host t tok (some (x, v)) [] [] e (e'.onTransaction x fun r =>
      if r.state = .running then { r with publications := r.publications ++ [v] } else r) := by
  have halike : ∀ txn : Transaction, txn.Alike (if txn.state = .running then
      { txn with publications := txn.publications ++ [v] } else txn) := by
    intro txn
    split
    · exact ⟨rfl, rfl, rfl, rfl, rfl⟩
    · exact .refl txn
  have hasks : Asks host (e.scopeOf tok) e.world e'.world [] [] := hworld ▸ .nothing
  refine (h.retouch htxns (e'.transactions.modify x fun r =>
    if r.state = .running then { r with publications := r.publications ++ [v] } else r) ?_ ?_ ?_ ?_
      hasks).congr (by simp [records, onTransaction])
  · rw [Store.next_modify, htxns]
  · intro y txn hy
    rw [Store.get?_modify, htxns, hy]
    split
    · exact ⟨_, rfl, halike txn⟩
    · exact ⟨_, rfl, .refl txn⟩
  · intro y txn' hy'
    rw [Store.get?_modify, htxns] at hy'
    split at hy'
    · rename_i hyx
      obtain ⟨txn, hy, rfl⟩ := Option.map_eq_some_iff.1 hy'
      grind [heldFor]
    · rename_i hyx
      exact ⟨txn', hy', .refl txn', by simp [heldFor, Ne.symm hyx], id, by simp⟩
  · intro y v' hyv
    cases hyv
    exact hx

end

/-! ### Cells, regions and transactions that are founded -/

section

variable (ht : e.tokens.get? t = some tok) (hp : tok.phase ≠ .voting) (ha : e.agenda = [])
  (hr : e.regions.get? tok.region = some reg)

include ht hp ha hr

theorem openCell : Footprint host t tok none [] [] e (e.openCell tok.group tok.region) := by
  have hstill : Footprint host t tok none [] [] e e := still ht hp ha
  refine { hstill with
    next_region := ?_, region_kept := ?_, region_from := ?_, group_kept := ?_, group_from := ?_,
    txn_from := fun hx => .inl ⟨_, hx, .refl _, by simp [heldFor], id, by simp⟩ }
  · simp [Engine.openCell]
  · intro r reg' hr'
    grind [Engine.openCell, Region.Alike]
  · intro r reg' hr'
    grind [Engine.openCell, Region.Alike, Option.map_eq_some_iff]
  · intro g grp hg
    grind [Engine.openCell, Group.Alike]
  · intro g grp' hg'
    grind [Engine.openCell, Group.Alike, Option.map_eq_some_iff]

theorem openOtherwise (right : Nat) :
    Footprint host t tok none [] [] e (e.openOtherwise (tok.continueAt right)) := by
  have hstill : Footprint host t tok none [] [] e e := still ht hp ha
  refine { hstill with
    next_region := ?_, region_kept := ?_, region_from := ?_,
    group_from := fun hg => .inl ⟨_, hg, .refl _ _⟩
    txn_from := fun hx => .inl ⟨_, hx, .refl _, by simp [heldFor], id, by simp⟩ }
  · simp [Engine.openOtherwise]
  · intro r reg' hr'
    grind [Engine.openOtherwise, Region.Alike]
  · intro r reg' hr'
    grind [Engine.openOtherwise, Region.Alike, Option.map_eq_some_iff, Token.continueAt]

theorem openAtomic (hg : e.groups.get? tok.group = some grp) (scope : Scope) (next : Nat) :
    Footprint host t tok none [] [] e (e.openAtomic scope (tok.continueAt next)) := by
  have hstill : Footprint host t tok none [] [] e e := still ht hp ha
  have hgroup : (e.openAtomic scope (tok.continueAt next)).groups.get? e.groups.next =
      some { parent := some tok.group, kind := .transaction e.transactions.next } :=
    Store.get?_next_insert_modify hg ..
  have hregion : (e.openAtomic scope (tok.continueAt next)).regions.get? e.regions.next =
      some { parent := some tok.region, kind := .transaction e.transactions.next } :=
    Store.get?_next_insert_modify hr ..
  have htxn : (e.openAtomic scope (tok.continueAt next)).transactions.get? e.transactions.next =
      some { scope, parent := tok.txn, group := e.groups.next, continuation := tok.continueAt next } :=
    Store.get?_insert_self ..
  refine { hstill with
    next_region := ?_, region_kept := ?_, region_from := ?_, group_kept := ?_, group_from := ?_,
    next_txn := ?_, txn_kept := ?_, txn_from := ?_ }
  · simp [Engine.openAtomic]
  · intro r reg' hr'
    grind [Engine.openAtomic, Region.Alike]
  · intro r reg' hr'
    grind [Engine.openAtomic, Region.Alike, Option.map_eq_some_iff, Token.continueAt]
  · intro g grp hg
    grind [Engine.openAtomic, Group.Alike]
  · intro g grp' hg'
    by_cases hnew : g = e.groups.next
    · grind
    · grind [Engine.openAtomic, Group.Alike, Option.map_eq_some_iff]
  · simp [Engine.openAtomic]
  · intro x txn hx
    grind [Engine.openAtomic, Transaction.Alike]
  · intro x txn' hx'
    by_cases hnew : x = e.transactions.next
    · subst hnew
      cases htxn.symm.trans hx'
      exact .inr ⟨rfl, rfl, rfl, rfl, rfl, rfl, ⟨_, hgroup, rfl⟩, _, _, hregion, rfl⟩
    · have hold : e.transactions.get? x = some txn' :=
        (Store.get?_insert_of_ne _ _ hnew).symm.trans hx'
      simp_all [Transaction.Alike.refl, heldFor]

end

/-- The token is carried over to the new region or to the one above. -/
theorem moved (h : Footprint host t tok held mail notices e e') {source target : RegionId}
    (htarget : target = e.regions.next ∨
      ∃ reg, e.regions.get? tok.region = some reg ∧ reg.parent = some target) :
    Footprint host t tok held mail notices e (e'.moved t source target) := by
  have hcounted := (h.onRegion target (f := Region.seat t) fun _ _ => ⟨rfl, rfl, .inl rfl⟩).onRegion
      source (f := Region.unseat t)
      fun _ _ => ⟨rfl, rfl, .inl rfl⟩
  exact hcounted.onToken (f := fun token => { token with region := target })
    fun old hold => ⟨(h.mine hold (.inl rfl)).1, .inr htarget⟩

/-- The token belongs to another group and another transaction from now on. -/
theorem enlistToken (h : Footprint host t tok held mail notices e e') (old new : GroupId)
    (x : TxnId) (body : Nat) :
    Footprint host t tok held mail notices e (e'.enlistToken t old new x body) := by
  have hleft := h.onGroup old (f := Group.dismiss t) (fun _ _ => ⟨rfl, .inl rfl⟩) fun _ _ => rfl
  have hgroups := hleft.onGroup new (f := Group.enrol t) (fun _ _ => ⟨rfl, .inl rfl⟩) fun _ _ => rfl
  refine hgroups.onToken (f := fun token =>
    { token with group := new, txn := some x, node := body }) fun old hold => ?_
  grind [mine]

/-! ### Nodes -/

/-- A token that binds a cell touches nothing else. -/
theorem resolve (hcore : Core m e none) (ht : e.tokens.get? t = some tok) (hp : tok.phase ≠ .voting)
    (ha : e.agenda = []) {waiters : List TokenId} {region : RegionId}
    (hg : e.groups.get? c = some grp) (hkind : grp.kind = .cell waiters region)
    (hfree : e.bound.lookup c = none) (value : Value) :
    Footprint host t tok none [] [] e (e.bind c value waiters region) := by
  obtain ⟨-, hknown, hregion⟩ := hcore.aligned.cell hg hkind
  have hstill : Footprint host t tok none [] [] e e := still ht hp ha
  have hbound : Footprint host t tok none [] [] e { e with bound := (c, value) :: e.bound } :=
    { hstill with bound := .inr ⟨c, value, hfree, rfl⟩, follows := by simp [ha] }
  have hwoken := hbound.onGroup c (f := fun g => { g with kind := .cell [] region })
    (fun grp' hg' => by
      cases hg.symm.trans hg'
      exact ⟨rfl, .inr ⟨_, _, _, hkind, rfl, by simp⟩⟩)
    (fun heq => absurd heq (Store.ne_next hg))
  have hcounted : Footprint host t tok none [] [] e (({ e with bound := (c, value) :: e.bound }.onGroup
      c fun g => { g with kind := .cell [] region }).count
        fun s => { s with bindings := s.bindings + 1 }) :=
    hwoken.congr rfl
  refine hcounted.plan ha ?_ ?_
  · simp [Trailing]
  · intro a hm
    rcases mem_cons.1 hm with rfl | hm
    · trivial
    rcases mem_cons.1 hm with rfl | hm
    · refine ⟨rfl, fun r hr => ?_⟩
      grind [Engine.count, Engine.onGroup]
    · obtain ⟨v, hv, rfl⟩ := mem_map.1 hm
      exact ⟨c, grp, waiters, region, hg, hkind, hv⟩

theorem escape (ht : e.tokens.get? t = some tok) (hp : tok.phase ≠ .voting) (ha : e.agenda = [])
    {b : Bool} {k : Continuation} {p : RegionId} (next : Nat)
    (hr : e.regions.get? tok.region = some reg) (hkind : reg.kind = .otherwise b k)
    (hparent : reg.parent = some p) :
    Footprint host t tok none [] [] e (((e.published tok.region k).moved t tok.region p).plan
      ((if reg.live = 1 then [.quiesce tok.region] else []) ++ [.proceed t next])) := by
  have hpublished : Footprint host t tok none [] [] e (e.published tok.region k) := by
    refine (still ht hp ha).onRegion tok.region fun reg' hr' => ?_
    cases hr.symm.trans hr'
    exact ⟨rfl, rfl, .inr ⟨_, _, _, hkind, rfl⟩⟩
  refine (hpublished.moved (.inr ⟨reg, hr, hparent⟩)).plan ha ?_ ?_
  · split <;> trivial
  · split <;> simp [Chore.Follows]

/-! ### Calls -/

theorem mem_insertTimer {α : Type} {u t : Timer α} {ts : List (Timer α)} :
    u ∈ Clock.insertTimer t ts ↔ u = t ∨ u ∈ ts := by
  induction ts with
  | nil => simp [Clock.insertTimer]
  | cons v vs ih => grind [Clock.insertTimer]

/-- Only the token that sets a timer waits longer. -/
theorem timed_setTimer {clocks : List (Clock TokenId)} {clock : Nat} {delay : UInt64} {v : TokenId}
    (hv : v ∈ (Engine.setTimer clocks clock delay t).flatMap fun c => c.timers.map Timer.payload) :
    v ∈ (clocks.flatMap fun c => c.timers.map Timer.payload) ∨ v = t := by
  have hclock : ∀ {c : Clock TokenId} {u : Timer TokenId}, u ∈ c.timers → c ∈ clocks ++
      List.replicate (clock + 1 - clocks.length)
        (.startingAt ((clocks.head?.map Clock.now).getD 0)) →
      u.payload ∈ clocks.flatMap fun c => c.timers.map Timer.payload := by
    intro c u hu hc
    rcases mem_append.1 hc with hc | hc
    · grind
    · rw [eq_of_mem_replicate hc] at hu
      cases hu
  unfold setTimer at hv
  obtain ⟨c, hc, hv⟩ := mem_flatMap.1 hv
  obtain ⟨u, hu, rfl⟩ := mem_map.1 hv
  obtain ⟨i, hi, rfl⟩ := mem_iff_getElem.1 hc
  rw [getElem_modify] at hu
  split at hu
  · rcases mem_insertTimer.1 hu with rfl | hu
    · exact .inr rfl
    · exact .inl (hclock hu (getElem_mem _))
  · exact .inl (hclock hu (getElem_mem _))

end Footprint

/-! ## Every step -/

section Calls

variable {e₁ : Engine ω} {tok₁ : Token} {held : Option (TxnId × Value)} {mail : List Message}
  {notices : List Notice}

theorem Replied.footprint {reply : Reply} (hr : Replied host e₁ t tok₁ site next reply e')
    (h : Footprint host t tok held mail notices e e₁) (ha : e₁.agenda = [])
    (hregion : tok₁.region = tok.region) (hp : tok₁.phase ≠ .voting) :
    Footprint host t tok held mail notices e e' := by
  cases hr with
  | publish => exact h.goesOn hregion hp
  | halt => exact h.kill ha
  | fail => exact h.failed ha ..

/-- Whatever a site answers, its caller leaves a footprint. -/
theorem Served.footprint {values : List Value} (hs : Served host e₁ t tok₁ site values next e')
    (h : Footprint host t tok none [] [] e e₁) (ha : e₁.agenda = [])
    (htxns : e₁.transactions = e.transactions) (hworld : e₁.world = e.world)
    (hregion : tok₁.region = tok.region) (htxn : tok₁.txn = tok.txn) (hp : tok₁.phase ≠ .voting) :
    ∃ mail notices, Footprint host t tok none mail notices e e' := by
  have hscope : e₁.scopeOf tok₁ = e.scopeOf tok := by
    unfold scopeOf
    rw [htxns, htxn]
  cases hs with
  | immediate _ hreply =>
    rw [hworld] at hreply
    exact ⟨_, _, hreply.footprint (h.absorb (.call site values)) ha hregion hp⟩
  | launched =>
    rw [hworld]
    exact ⟨_, _, (h.absorb (.launch site values t)).becomes hregion (by simp)⟩
  | unspawned =>
    rw [hworld]
    exact ⟨_, _, (h.absorb (.launch site values t)).failed ha ..⟩
  | outside _ hs hreply =>
    rw [hworld] at hreply
    exact ⟨_, _, hreply.footprint (h.absorb (.outside site values (hscope.symm.trans hs))) ha hregion hp⟩
  | inside _ hs hreply =>
    rw [hworld] at hreply
    have henlisted := h.enlist htxns (.inside site values (hscope.symm.trans hs))
    exact ⟨_, _, hreply.footprint henlisted ((enlist_agenda ..).trans ha) hregion hp⟩
  | refused _ hs =>
    rw [hworld]
    have henlisted := h.enlist htxns (.inside site values (hscope.symm.trans hs))
    exact ⟨_, _, henlisted.plan ((enlist_agenda ..).trans ha) trivial (by simp [Chore.Follows])⟩
  | @timer clock n =>
    have htimed : Footprint host t tok none [] [] e
        { e₁ with clocks := setTimer e₁.clocks clock n.toInt.toNat.toUInt64 t } :=
      { h with timed := fun v hv => (Footprint.timed_setTimer hv).elim (h.timed v) .inr }
    exact ⟨_, _, htimed.becomes hregion (by simp)⟩
  | timerFailed => exact ⟨_, _, h.failed ha ..⟩

theorem Called.footprint {target : Operand} {args : List Operand} {tail : Bool}
    (hc : Called host e₁ t tok₁ target args next tail e') (h : Footprint host t tok none [] [] e e₁)
    (ha : e₁.agenda = []) (hgroups : e₁.groups = e.groups)
    (htxns : e₁.transactions = e.transactions) (hworld : e₁.world = e.world)
    (hregion : tok₁.region = tok.region) (htxn : tok₁.txn = tok.txn) (hp : tok₁.phase ≠ .voting) :
    ∃ mail notices, Footprint host t tok none mail notices e e' := by
  have hcounted : ∀ f, Footprint host t tok none [] [] e (e₁.count f) := fun _ =>
    h.congr rfl
  cases hc with
  | pending | argPending => exact ⟨_, _, h.park ha hgroups _⟩
  | uncallable | mismatch => exact ⟨_, _, h.failed ha ..⟩
  | enter => exact ⟨_, _, (hcounted _).goesOn hregion hp⟩
  | site _ _ hserved => grind [Served.footprint, Engine.count]

end Calls

/-- The publication that a step holds back. -/
def Token.holds (tok : Token) : Node → Option (TxnId × Value)
  | .buffer => tok.txn.map fun x => (x, tok.result)
  | _ => none

/-- Whatever node a token executes, the step has a footprint. -/
theorem Executed.footprint (hx : Executed host e t tok node e') (hcore : Core m e none)
    (ht : e.tokens.get? t = some tok) (hp : tok.phase ≠ .voting) (ha : e.agenda = []) :
    ∃ mail notices, Footprint host t tok (tok.holds node) mail notices e e' := by
  have hstill : Footprint host t tok none [] [] e e := .still ht hp ha
  have hcounted : ∀ f, Footprint host t tok none [] [] e (e.count f) := fun _ =>
    hstill.congr rfl
  obtain ⟨reg, hreg, -⟩ := hcore.census.region_of ht
  cases hx with
  | stop => exact ⟨_, _, hstill.kill ha⟩
  | load | field | push | unwind | declare | ret => exact ⟨_, _, hstill.goesOn rfl hp⟩
  | loadPending | fieldPending => exact ⟨_, _, hstill.park ha rfl _⟩
  | fieldFailed | forkFull | subgoalFull => exact ⟨_, _, hstill.failed ha ..⟩
  | publish =>
    have hpublished : ∀ p, Footprint host t tok none [] [] e
        { e.count fun s => { s with publications := s.publications + 1 } with
          world := host.publish p e.world } :=
      fun _ => { hcounted fun s => { s with publications := s.publications + 1 } with
        asks := .publish _ hstill.asks }
    exact ⟨_, _, (hpublished _).kill ha⟩
  | @fork _ right =>
    have hforked : Footprint host t tok none [] [] e
        (e.forked.spawnReady (tok.forkAt right)) :=
      (hcounted _).spawnReady (by simp [Token.forkAt]) (.inl rfl)
    exact ⟨_, _, hforked.goesOn rfl hp⟩
  | subgoal _ hs =>
    have hopen : Footprint host t tok none [] [] e
        (e.openCell tok.group tok.region).forked :=
      (Footprint.openCell ht hp ha hreg).congr rfl
    have hspawned := hopen.spawn hs (by simp [cellToken, Token.forkAt]) (.inr rfl)
    have hqueued : Footprint host t tok none [] [] e (enqueue _ e.tokens.next) := hspawned.congr rfl
    exact ⟨_, _, hqueued.goesOn rfl hp⟩
  | resolve hg hkind hfree => exact ⟨_, _, .resolve hcore ht hp ha hg hkind hfree _⟩
  | otherwise =>
    exact ⟨_, _, ((Footprint.openOtherwise ht hp ha hreg _).moved (.inl rfl)).plan ha trivial
      (by simp [Chore.Follows])⟩
  | escape hr hkind hparent => exact ⟨_, _, .escape ht hp ha _ hr hkind hparent⟩
  | atomic =>
    obtain ⟨grp, hg, -⟩ := hcore.kinship.group_of ht
    exact ⟨_, _, (((Footprint.openAtomic ht hp ha hreg hg _ _).enlistToken _ _ _ _).moved
      (.inl rfl)).plan ha trivial (by simp [Chore.Follows])⟩
  | @buffer x hx =>
    have hheld : tok.holds .buffer = some (x, tok.result) := by
      unfold Token.holds
      rw [hx]
      rfl
    rw [hheld]
    exact ⟨_, _, (hstill.hold rfl rfl hx tok.result).kill ha⟩
  | call hcalled =>
    exact hcalled.footprint (hstill.becomes rfl hp) ha rfl rfl rfl rfl rfl hp

theorem Engine.execute_footprint (hcore : Core m e none) (ht : e.tokens.get? t = some tok)
    (hp : tok.phase ≠ .voting) (ha : e.agenda = []) (he' : e.execute host t tok node = .ok e') :
    ∃ mail notices, Footprint host t tok (tok.holds node) mail notices e e' :=
  (executed hcore ht he').footprint hcore ht hp ha

/-- The step that the next turn takes leaves a footprint. -/
theorem Coherent.footprint (h : Coherent m e) {ready : List TokenId} (ha : e.agenda = [])
    (ht : e.tokens.get? t = some tok) (hphase : tok.phase = .runnable)
    (he' : (e.taken ready).execute host t tok node = .ok e') :
    ∃ mail notices, Footprint host t tok (tok.holds node) mail notices (e.taken ready) e' :=
  execute_footprint (h.taken ha ready) ht (by simp [hphase]) ha he'

end Orchestra
