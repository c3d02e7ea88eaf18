/-
  Reactions: the agenda is worked off.

  A step leaves chores, these leave others, and nothing else is done until none is left.  Such a
  stretch of a run is a REACTION.  Messages may arrive in the meantime, but none is taken.

  * `Later`          what a reaction cannot undo: no record comes back, scopes stay what they are,
    who is condemned goes or stays condemned, and no cell is bound.
  * `Reaction.ends`  every reaction comes to an end.  A chore takes a transaction to its next stage,
    or else kills a group, or else removes a region, or else ends a token or closes a region, or else
    leaves less to do; only the first of these can add to the others.
-/
import Mathlib.Algebra.BigOperators.Group.List.Basic
import Mathlib.Algebra.GroupWithZero.Nat
import Orchestra.Proofs.Attendance

namespace Orchestra

open Engine List

variable {ω : Type} {m : Charter} {host : Host ω} {past between : History ω}
  {e e₁ e₂ e' e'' : Engine (Logged ω)} {a : Chore}

/-! ## Reactions -/

/-- What is to be done in `e₁` has led to `e`, with a chore done in each of the states `between`. -/
inductive Reaction (host : Host ω) (e₁ : Engine (Logged ω)) :
    History ω → Engine (Logged ω) → Prop where
  | start : Reaction host e₁ [] e₁
  | chore {between : History ω} {e e' : Engine (Logged ω)} {a : Chore}
    (h : Reaction host e₁ between (e.plan [a])) (he' : e.perform host.logged a = .ok e') :
    Reaction host e₁ (between ++ [e.plan [a]]) e'
  | arrive {between : History ω} {e : Engine (Logged ω)}
    (h : Reaction host e₁ between e) (message : Message) :
    Reaction host e₁ between (e.deliver message)

/-- A chore comes before a reaction. -/
theorem Reaction.cons (h : Reaction host e' between e₂) (he' : e.perform host.logged a = .ok e') :
    Reaction host (e.plan [a]) (e.plan [a] :: between) e₂ := by
  induction h with
  | start => exact .chore .start he'
  | chore _ hchore ih => exact .chore ih hchore
  | arrive _ message ih => exact .arrive ih message

section Runs

variable {program : Program} {limit : Option Nat} {world : ω}

/-- A run goes on with a reaction. -/
theorem Reaction.run (h : Reaction host e₁ between e₂)
    (hrun : Run host program limit world past e₁) :
    Run host program limit world (past ++ between) e₂ := by
  induction h with
  | start => rwa [append_nil]
  | chore _ he' ih =>
    rw [← append_assoc]
    exact ih.turn (turn_plan he')
  | arrive _ message ih => exact ih.arrive message

/-- A run in which there is always something to do after the state `e` is a reaction there. -/
theorem Run.reaction (h : Run host program limit world (past ++ e :: between) e₂)
    (hbusy : ∀ e' ∈ between, e'.agenda ≠ []) :
    ∃ p, e.turn host.logged = .ok p ∧ Reaction host p.state between e₂ := by
  generalize hwhole : past ++ e :: between = whole at h
  induction h generalizing between with
  | start => exact absurd hwhole (by simp)
  | @turn past' e' p _ hp ih =>
    rcases eq_nil_or_concat between with rfl | ⟨between, last, rfl⟩
    · obtain ⟨-, heq⟩ := append_inj' hwhole rfl
      cases heq
      exact ⟨p, hp, .start⟩
    · rw [concat_eq_append] at hbusy hwhole ⊢
      rw [← cons_append, ← append_assoc] at hwhole
      obtain ⟨hpast, heq⟩ := append_inj' hwhole rfl
      cases heq
      obtain ⟨p', hp', hreaction⟩ := ih (fun e' he' => hbusy e' (mem_append_left _ he')) hpast
      refine ⟨p', hp', ?_⟩
      have hlast := hbusy e' (mem_append_right _ mem_cons_self)
      cases turned hp with
      | chore he he' =>
        subst he
        exact .chore hreaction he'
      | done ha | skip ha | step ha | message ha | idle ha => exact absurd ha hlast
  | arrive _ message ih =>
    obtain ⟨p, hp, hreaction⟩ := ih hbusy hwhole
    exact ⟨p, hp, .arrive hreaction message⟩

end Runs

/-- What is known of every state of a run. -/
structure Sound (m : Charter) (past : History ω) (e : Engine (Logged ω)) : Prop where
  coherent : Coherent m e
  sections : Sections m e e.agenda.head?
  ledger : Ledger past e

namespace Sound

theorem perform (h : Sound m past (e.plan [a])) (he' : e.perform host.logged a = .ok e') :
    ∃ m', Sound m' (past ++ [e.plan [a]]) e' := by
  obtain ⟨m', hext, hc'⟩ := h.coherent.turn _ (turn_plan he')
  have hs : Sections m' (e.plan [a]) (some a) := h.sections.extend h.coherent.core hext
  exact ⟨m', hc', hs.perform _ (h.coherent.extend hext) he',
    h.ledger.perform h.coherent h.sections he'⟩

theorem deliver (h : Sound m past e) (message : Message) : Sound m past (e.deliver message) where
  coherent := { h.coherent with core := h.coherent.core.congr rfl }
  sections := h.sections.congr rfl rfl
  ledger := h.ledger.arrive [message] rfl rfl rfl rfl rfl rfl

end Sound

/-- What holds at the beginning of a reaction and is kept by chores holds at its end. -/
theorem Reaction.induct {P : History ω → Engine (Logged ω) → Prop}
    (h : Reaction host e₁ between e) (hsound : Sound m past e₁) (start : P [] e₁)
    (chore : ∀ {m between a} {e e' : Engine (Logged ω)}, Sound m (past ++ between) (e.plan [a]) →
      e.perform host.logged a = .ok e' → P between (e.plan [a]) → P (between ++ [e.plan [a]]) e')
    (arrive : ∀ {between} {e : Engine (Logged ω)} message, P between e →
      P between (e.deliver message)) : (∃ m, Sound m (past ++ between) e) ∧ P between e := by
  induction h with
  | start => exact ⟨⟨m, by rwa [append_nil]⟩, start⟩
  | chore _ he' ih =>
    obtain ⟨⟨m', hsound'⟩, hP⟩ := ih
    rw [← append_assoc]
    exact ⟨hsound'.perform he', chore hsound' he' hP⟩
  | arrive _ message ih =>
    obtain ⟨⟨m', hsound'⟩, hP⟩ := ih
    exact ⟨⟨m', hsound'.deliver message⟩, arrive message hP⟩

/-! ## Regions and transactions that were there before -/

/-- A later record of a transaction: it is where it was, and nothing new is held back. -/
structure Transaction.Stays (a b : Transaction) : Prop where
  group : b.group = a.group
  scope : b.scope = a.scope
  continuation : b.continuation = a.continuation
  publications : ∀ v ∈ b.publications, v ∈ a.publications

theorem Transaction.Stays.refl (a : Transaction) : a.Stays a := ⟨rfl, rfl, rfl, fun _ hv => hv⟩

theorem Transaction.Stays.trans {a b c : Transaction} (h : a.Stays b) (h' : b.Stays c) : a.Stays c where
  group := h'.group.trans h.group
  scope := h'.scope.trans h.scope
  continuation := h'.continuation.trans h.continuation
  publications v hv := h.publications v (h'.publications v hv)

theorem Transaction.Stays.enlist (a : Transaction) (cohorts : List CohortId) :
    a.Stays (a.enlist cohorts) := ⟨rfl, rfl, rfl, fun _ hv => hv⟩

namespace Engine

variable {ω : Type} {host : Host ω} {e e' : Engine ω} {r : RegionId}

/-- What stands above a region, and what it is for. -/
def setting (e : Engine ω) (r : RegionId) : Option (Option RegionId × RegionKind) :=
  (e.regions.get? r).map fun reg => (reg.parent, reg.kind)

theorem setting_of_modify {r₀ : RegionId} {f : Region → Region}
    (h : e'.regions = e.regions.modify r₀ f)
    (hf : ∀ reg, (f reg).parent = reg.parent ∧ (f reg).kind = reg.kind) (r : RegionId) :
    e'.setting r = e.setting r := by grind [Store.map_get?_modify, setting]

theorem Grown.setting (h : e.Grown e') (r : RegionId) : e'.setting r = e.setting r := by
  have hsame := congrArg (Option.map fun reg : Region => (reg.parent, reg.kind)) (h.regions r)
  rwa [Option.map_map, Option.map_map] at hsame

theorem react_setting (kind : RegionKind) (r : RegionId) :
    (e.react kind).setting r = e.setting r := by
  obtain ⟨_, _, hgrown⟩ := e.react_grown kind
  exact hgrown.setting r

/-- A chore may remove a region, and leaves the others in their setting. -/
theorem perform_setting (he' : e.perform host a = .ok e') (hr : r.index < e.regions.next.index) :
    e'.setting r = e.setting r ∨ e'.setting r = none := by
  cases performed he' with
  | killToken | detach | close =>
    refine .inl (setting_of_modify rfl ?_ r)
    exact fun _ => ⟨rfl, rfl⟩
  | @quiesce r₀ reg =>
    rw [react_setting]
    show ((e.regions.remove r₀).get? r).map _ = _ ∨ ((e.regions.remove r₀).get? r).map _ = _
    rw [Store.get?_remove]
    split
    · exact .inr rfl
    · exact .inl rfl
  | @prepare x txn preg =>
    left
    show (askVotes host _ _ (e.openVotes x txn) _).setting r = _
    rw [(askVotes_grown ..).setting]
    refine (setting_of_modify (e := { e with regions := e.regions.insert _ }) rfl ?_ r).trans ?_
    · exact fun _ => ⟨rfl, rfl⟩
    · grind [setting]
  | release => exact .inl ((spawnReady_grown ..).setting r)
  | _ => exact .inl rfl

theorem react_regions_next (kind : RegionKind) : (e.react kind).regions.next = e.regions.next := by
  obtain ⟨_, _, hgrown⟩ := e.react_grown kind
  exact hgrown.next_region

/-- Keys of regions are not given back. -/
theorem perform_regions_next (he' : e.perform host a = .ok e') :
    e.regions.next.index ≤ e'.regions.next.index := by
  have same : ∀ {r : RegionId}, r = e.regions.next → e.regions.next.index ≤ r.index := by
    rintro r rfl
    exact Nat.le_refl _
  cases performed he' with
  | killToken | detach | close => exact same (Store.next_modify ..)
  | quiesce => exact same ((react_regions_next _).trans (Store.next_remove ..))
  | @prepare x txn preg =>
    show _ ≤ (askVotes host _ _ (e.openVotes x txn) _).regions.next.index
    rw [(askVotes_grown ..).next_region]
    show _ ≤ ((e.regions.insert _).modify _ _).next.index
    rw [Store.next_modify, Store.next_insert]
    exact Nat.le_succ _
  | release => exact same (spawnReady_grown ..).next_region
  | _ => exact Nat.le_refl _

/-- A chore leaves a transaction where it is. -/
theorem perform_txn_from (he' : e.perform host a = .ok e') {x : TxnId} {txn' : Transaction}
    (hx' : e'.transactions.get? x = some txn') :
    ∃ txn, e.transactions.get? x = some txn ∧ txn.Stays txn' := by
  have modified : ∀ {s : Store .transaction Transaction} {y : TxnId} {f : Transaction → Transaction}
      {txn'}, (∀ txn : Transaction, txn.Stays (f txn)) → (s.modify y f).get? x = some txn' →
        ∃ txn, s.get? x = some txn ∧ txn.Stays txn' :=
    fun hf hx => Store.modify_back (P := Transaction.Stays) .refl hf hx
  have emptied : ∀ (txn : Transaction) (state : TxnState),
      txn.Stays { txn with state, publications := [] } := fun _ _ => ⟨rfl, rfl, rfl, nofun⟩
  cases performed he' with
  | quiesce =>
    rw [react_transactions] at hx'
    exact ⟨txn', hx', .refl _⟩
  | release =>
    rw [(spawnReady_grown ..).transactions] at hx'
    exact ⟨txn', hx', .refl _⟩
  | @prepare y txn =>
    have hx' : (askVotes host _ _ (e.openVotes y txn) _).transactions.get? x = some txn' := hx'
    rw [(askVotes_grown ..).transactions] at hx'
    refine modified ?_ hx'
    exact fun _ => ⟨rfl, rfl, rfl, fun _ hv => hv⟩
  | @verify y txn =>
    have hx' : (e.committed host y txn).transactions.get? x = some txn' := hx'
    unfold committed at hx'
    dsimp only at hx'
    split at hx'
    · obtain ⟨txn₁, hx₁, hstays₁⟩ :=
        modified (f := fun ptxn => ptxn.enlist txn.cohorts) (.enlist · _) hx'
      grind [Transaction.Stays.trans]
    · exact modified (emptied · .done) hx'
  | @retire y =>
    have hx' : (e.transactions.remove y).get? x = some txn' := hx'
    obtain ⟨-, hx'⟩ := Store.of_get?_remove hx'
    exact ⟨txn', hx', .refl _⟩
  | abort => exact modified (emptied · .aborted) hx'
  | _ => exact ⟨txn', hx', .refl _⟩

/-- No chore binds a cell. -/
theorem perform_bound (he' : e.perform host a = .ok e') : e'.bound = e.bound := by
  cases performed he' with
  | @quiesce r reg =>
    obtain ⟨_, _, hgrown⟩ := e.quiesce_grown r reg
    exact hgrown.bound
  | prepare => exact (askVotes_grown (e.openVotes _ _) ..).bound
  | release => exact (spawnReady_grown ..).bound
  | _ => rfl

/-- Who is ready stays so. -/
theorem perform_ready (he' : e.perform host a = .ok e') : e.ready <+: e'.ready := by
  have spawnReady_ready : ∀ (e : Engine ω) tok, e.ready <+: (e.spawnReady tok).ready := by
    intro e tok
    unfold spawnReady
    split
    · rename_i hs
      obtain ⟨-, -, -, he'⟩ := spawn_eq_some hs
      rw [he']
      exact prefix_append ..
    · exact prefix_rfl
  cases performed he' with
  | quiesce =>
    unfold vacated react
    split <;> try exact prefix_rfl
    split
    · exact prefix_rfl
    · refine List.IsPrefix.trans ?_ (spawnReady_ready ..)
      exact prefix_rfl
  | @prepare x txn preg =>
    refine askVotes_induct (e := e.openVotes x txn) (P := fun e' : Engine ω => e.ready <+: e'.ready)
      ?_ prefix_rfl _
    intro e₁ e₂ id c h hs
    obtain ⟨-, -, -, he₂⟩ := spawn_eq_some hs
    rw [he₂]
    exact h
  | release => exact spawnReady_ready ..
  | wake | proceed | enqueue => exact prefix_append ..
  | _ => exact prefix_rfl

end Engine

/-! ## What comes later in a reaction -/

/-- `e'` comes after `e` in a reaction. -/
structure Later (e e' : Engine (Logged ω)) : Prop where
  next_token : e.tokens.next.index ≤ e'.tokens.next.index
  next_region : e.regions.next.index ≤ e'.regions.next.index
  token : ∀ {v tok'}, v.index < e.tokens.next.index → e'.tokens.get? v = some tok' →
    ∃ tok, e.tokens.get? v = some tok ∧ tok'.group = tok.group ∧ tok'.region = tok.region
  region : ∀ {r}, r.index < e.regions.next.index → e'.setting r = e.setting r ∨ e'.setting r = none
  transaction : ∀ {x txn'}, e'.transactions.get? x = some txn' →
    ∃ txn, e.transactions.get? x = some txn ∧ txn'.group = txn.group
  group : ∀ {g}, e.groups.get? g = none → e'.groups.get? g = none
  condemned : ∀ {g}, Condemned e g → e'.groups.get? g = none ∨ Condemned e' g
  bound : e'.bound = e.bound
  log : e.world.log <+: e'.world.log

namespace Later

theorem refl (e : Engine (Logged ω)) : Later e e where
  next_token := Nat.le_refl _
  next_region := Nat.le_refl _
  token := fun _ ht => ⟨_, ht, rfl, rfl⟩
  region := fun _ => .inl rfl
  transaction := fun hx => ⟨_, hx, rfl⟩
  group := id
  condemned := .inr
  bound := rfl
  log := prefix_rfl

theorem trans (h : Later e e') (h' : Later e' e'') : Later e e'' where
  next_token := Nat.le_trans h.next_token h'.next_token
  next_region := Nat.le_trans h.next_region h'.next_region
  token := by
    intro v tok'' hv ht''
    obtain ⟨tok', ht', hgroup', hregion'⟩ := h'.token (Nat.lt_of_lt_of_le hv h.next_token) ht''
    grind [token]
  region := by
    intro r hr
    rcases h'.region (Nat.lt_of_lt_of_le hr h.next_region) with hsame | hnone
    · rw [hsame]
      exact h.region hr
    · exact .inr hnone
  transaction := by grind [transaction]
  group := fun hg => h'.group (h.group hg)
  condemned := fun hg => (h.condemned hg).elim (fun hgone => .inl (h'.group hgone)) h'.condemned
  bound := h'.bound.trans h.bound
  log := h.log.trans h'.log

/-- What is gone or condemned stays so in a chore. -/
theorem perform (hc : Coherent m (e.plan [a])) (he' : e.perform host.logged a = .ok e') :
    Later (e.plan [a]) e' := by
  have htokens := perform_next he'
  have hregions := perform_regions_next he'
  have hgroup : ∀ {x txn'}, e'.transactions.get? x = some txn' →
      ∃ txn, e.transactions.get? x = some txn ∧ txn'.group = txn.group := by
    grind [perform_txn_from, Transaction.Stays.group]
  have hsetting := fun r => perform_setting (r := r) he'
  have hbound := perform_bound he'
  have hgrows := perform_grows he'
  refine ⟨htokens, hregions, ?_, fun hr => hsetting _ hr, fun hx => hgroup hx, ?_, ?_, hbound,
    hgrows⟩
  · intro v tok' hv ht'
    rcases perform_old he' hv ht' with ht | ⟨tok, ht, ⟨-, rfl⟩ | ⟨n, -, rfl⟩⟩
    · exact ⟨tok', ht, rfl, rfl⟩
    · exact ⟨tok, ht, rfl, rfl⟩
    · exact ⟨tok, ht, rfl, rfl⟩
  · intro g hg
    rw [Option.eq_none_iff_forall_ne_some]
    intro grp' hg'
    obtain ⟨grp, hg₀, -⟩ := perform_group_from he' hg'
    have hthere : (e.plan [a]).groups.get? g = some grp := hg₀
    rw [hg] at hthere
    cases hthere
  · intro g hg
    cases hg' : e'.groups.get? g with
    | none => exact .inl rfl
    | some grp' => exact .inr (hg.perform hc he' ⟨grp', hg'⟩)

theorem deliver (e : Engine (Logged ω)) (message : Message) : Later e (e.deliver message) :=
  { refl e with
    condemned := fun hg => .inr <| hg.mono (.of_eq rfl) (fun hg hm => .planned hg hm)
      (fun hx hstate htop hg => .aborted hx hstate htop hg)
    log := prefix_append .. }

/-- A region that is left stands where it stood. -/
theorem region_from (h : Later e e') {r : RegionId} {reg reg' : Region}
    (hr : e.regions.get? r = some reg) (hr' : e'.regions.get? r = some reg') :
    reg'.parent = reg.parent ∧ reg'.kind = reg.kind := by
  have hsetting := h.region (Store.lt_next hr)
  grind [Engine.setting]

end Later

/-- A state of a reaction from `e₁` to `e`. -/
structure Amid (e₁ e e' : Engine (Logged ω)) : Prop where
  sound : ∃ m past, Sound m past e'
  after : Later e₁ e'
  before : Later e' e

/-- The states of a reaction come one after the other. -/
theorem Reaction.amid (h : Reaction host e₁ between e) (hsound : Sound m past e₁) :
    Amid e₁ e e ∧ ∀ e' ∈ between, Amid e₁ e e' := by
  obtain ⟨⟨m', hsound'⟩, hlater, hbetween⟩ := h.induct hsound
    (P := fun between e => Later e₁ e ∧ ∀ e' ∈ between, Amid e₁ e e') ⟨.refl _, by simp⟩
    (by
      rintro m between a e e' hsound he' ⟨hlater, hbetween⟩
      have hnext := Later.perform hsound.coherent he'
      refine ⟨hlater.trans hnext, fun b hb => ?_⟩
      rcases mem_append.1 hb with hb | hb
      · exact { hbetween b hb with before := (hbetween b hb).before.trans hnext }
      · cases mem_singleton.1 hb
        exact ⟨⟨m, _, hsound⟩, hlater, hnext⟩)
    (by
      rintro between e message ⟨hlater, hbetween⟩
      have hnext := Later.deliver e message
      refine ⟨hlater.trans hnext, fun b hb => ?_⟩
      exact { hbetween b hb with before := (hbetween b hb).before.trans hnext })
  exact ⟨⟨⟨m', _, hsound'⟩, hlater, .refl _⟩, hbetween⟩

/-! ## Every reaction ends -/

/-- The stages that a transaction has ahead of it. -/
def TxnState.ahead : TxnState → Nat
  | .running => 3
  | .readying => 2
  | .done | .aborted => 1

/-- How often something is to be done for a chore, unless a record changes. -/
def Chore.cost : Chore → Nat
  | .settle _ | .detach _ _ | .prepare _ | .verify _ => 2
  | _ => 1

/-- The weight of a region that is to be closed, which halves from each region to the next. -/
def Region.weight (next : Nat) (r : RegionId) : Nat := 2 ^ (next - r.index)

/-- What a chore is still going to add.  A publication that is let go becomes a token, and in the
    place of a region that is closed come those below. -/
def Chore.dues (next : Nat) : Chore → Nat
  | .release _ _ => 2
  | .closeRegions pending _ => 1 + (pending.map (Region.weight next)).sum
  | _ => 0

namespace Engine

variable {ω : Type} {host : Host ω} {e e' : Engine ω} {a : Chore}

/-- The stages that all transactions have ahead of them. -/
def stages (e : Engine ω) : Nat := e.transactions.total fun txn => txn.state.ahead

/-- The number of groups that are alive. -/
def alive (e : Engine ω) : Nat := e.groups.total fun grp => if grp.killed then 0 else 1

/-- The number of regions. -/
def extent (e : Engine ω) : Nat := e.regions.total fun _ => 1

/-- The number of tokens. -/
def population (e : Engine ω) : Nat := e.tokens.total fun _ => 1

/-- What there is to do, as long as no record changes. -/
def load (e : Engine ω) : Nat := (e.agenda.map Chore.cost).sum

/-- What the chores are still going to add. -/
def dues (e : Engine ω) : Nat := (e.agenda.map (Chore.dues e.regions.next.index)).sum

/-- What a reaction has ahead of it, the weightiest first. -/
def toil (e : Engine ω) : Nat × Nat × Nat × Nat × Nat :=
  (e.stages, e.alive, e.extent, e.population + e.dues, e.load)

/-- `e'` has less ahead of it than `e`. -/
inductive Eases (e' e : Engine ω) : Prop where
  | stage (h : e'.stages < e.stages)
  | group (hx : e'.stages = e.stages) (h : e'.alive < e.alive)
  | region (hx : e'.stages = e.stages) (hg : e'.alive = e.alive) (h : e'.extent < e.extent)
  | token (hx : e'.stages = e.stages) (hg : e'.alive = e.alive) (hr : e'.extent = e.extent)
    (h : e'.population + e'.dues < e.population + e.dues)
  | chore (hx : e'.stages = e.stages) (hg : e'.alive ≤ e.alive) (hr : e'.extent = e.extent)
    (ht : e'.population = e.population) (ha : e'.dues = e.dues) (h : e'.load < e.load)

theorem Eases.lex (h : Eases e' e) : WellFoundedRelation.rel e'.toil e.toil := by
  show Prod.Lex (· < ·) (Prod.Lex (· < ·) (Prod.Lex (· < ·) (Prod.Lex (· < ·) (· < ·)))) _ _
  simp only [Prod.lex_def, toil]
  cases h <;> omega

theorem dues_of_agenda (new : List Chore) (hagenda : e'.agenda = new ++ e.agenda)
    (hnext : e'.regions.next = e.regions.next) :
    e'.dues = (new.map (Chore.dues e.regions.next.index)).sum + e.dues := by
  rw [dues, dues, hagenda, hnext, map_append, sum_append]

theorem dues_plan (e : Engine ω) (new : List Chore) :
    (e.plan new).dues = (new.map (Chore.dues e.regions.next.index)).sum + e.dues :=
  dues_of_agenda new rfl rfl

/-- A chore that leaves less to do and changes nothing that counts. -/
theorem Eases.pop (hx : e'.stages = e.stages) (hg : e'.alive ≤ e.alive) (hr : e'.extent = e.extent)
    (ht : e'.population = e.population) (hnext : e'.regions.next = e.regions.next)
    {new : List Chore} (hagenda : e'.agenda = new ++ e.agenda)
    (hnone : ((a :: new).map (Chore.dues e.regions.next.index)).sum = 0)
    (hcost : (new.map Chore.cost).sum < a.cost) : Eases e' (e.plan [a]) := by
  refine .chore hx hg hr ht ?_ ?_
  · grind [dues_of_agenda, dues_plan]
  · unfold load
    rw [hagenda]
    show ((new ++ e.agenda).map _).sum < (([a] ++ e.agenda).map _).sum
    grind

/-- Where a token is added, nothing else is. -/
theorem spawn_toil {tok : Token} {id : TokenId} (hs : e.spawn tok = some (id, e')) :
    e'.alive = e.alive ∧ e'.extent = e.extent ∧ e'.population = e.population + 1 := by
  obtain ⟨-, -, -, he'⟩ := spawn_eq_some hs
  rw [he']
  exact ⟨Store.total_modify_same fun _ => rfl, Store.total_modify_same fun _ => rfl,
    Store.total_insert⟩

theorem spawnReady_toil (e : Engine ω) (tok : Token) :
    (e.spawnReady tok).alive = e.alive ∧ (e.spawnReady tok).extent = e.extent ∧
      (e.spawnReady tok).population ≤ e.population + 1 := by
  unfold spawnReady
  split
  · rename_i hs
    obtain ⟨hg, hr, ht⟩ := spawn_toil hs
    exact ⟨hg, hr, Nat.le_of_eq ht⟩
  · exact ⟨rfl, rfl, Nat.le_succ _⟩

theorem react_toil (e : Engine ω) (kind : RegionKind) :
    (e.react kind).alive = e.alive ∧ (e.react kind).extent = e.extent := by
  unfold react
  split <;> try exact ⟨rfl, rfl⟩
  grind [spawnReady_toil]

theorem forgotten_alive {g : GroupId} {grp : Group} (hg : e.groups.get? g = some grp) :
    { e with groups := grp.forgotten g e.groups }.alive ≤ e.alive := by
  have fold : ∀ (cs : List GroupId) (s : Store .group Group),
      (cs.foldl (fun s c => s.modify c fun cgrp => { cgrp with parent := none }) s).total
        (fun grp => if grp.killed then 0 else 1) =
          s.total fun grp => if grp.killed then 0 else 1 := by
    intro cs
    induction cs with
    | nil => exact fun _ => rfl
    | cons c cs ih => grind [Store.total_modify_same]
  have hremoved := Store.total_remove (w := fun grp : Group => if grp.killed then 0 else 1) hg
  show (grp.forgotten g e.groups).total _ ≤ e.groups.total _
  unfold Group.forgotten
  rw [fold]
  split
  · refine Nat.le_trans (Nat.le_of_eq (Store.total_modify_same ?_)) (by omega)
    exact fun _ => rfl
  · omega

/-- A transaction has come to a later stage. -/
theorem stages_modify {x : TxnId} {txn : Transaction} (hx : e.transactions.get? x = some txn)
    {f : Transaction → Transaction} (hf : (f txn).state.ahead < txn.state.ahead) :
    (e.transactions.modify x f).total (fun txn => txn.state.ahead) < e.stages := by
  have hmodified := Store.total_modify (w := fun txn : Transaction => txn.state.ahead) hx f
  show _ < e.transactions.total _
  omega

/-- A chore leaves less ahead, if those below a region that is closed weigh less than it. -/
theorem perform_eases (he' : e.perform host a = .ok e')
    (hclosed : ∀ {r reg pending doomed}, a = .closeRegions (r :: pending) doomed →
      e.regions.get? r = some reg → (reg.children.map (Region.weight e.regions.next.index)).sum <
        Region.weight e.regions.next.index r) : Eases e' (e.plan [a]) := by
  cases performed he' with
  -- nothing is planned: the agenda is one chore shorter
  | gone | quiesced | settled | detached | dead | removed | asleep | unprepared | unverified | retired
  | abortLate | rollback | enqueue =>
    exact .pop rfl (Nat.le_refl _) rfl rfl rfl (nil_append _).symm rfl (by simp [Chore.cost])
  | settle | prepareLate | verifyLate =>
    exact .pop rfl (Nat.le_refl _) rfl rfl rfl rfl rfl (by simp [Chore.cost])
  | wake | proceed =>
    refine .pop rfl (Nat.le_refl _) rfl ?_ rfl (nil_append _).symm rfl (by simp [Chore.cost])
    exact Store.total_modify_same fun _ => rfl
  | removeGroup hg =>
    have hforgotten := forgotten_alive hg
    exact .pop rfl hforgotten rfl rfl rfl (nil_append _).symm rfl (by simp [Chore.cost])
  | @detach p c reg =>
    refine .pop rfl (Nat.le_refl _) ?_ rfl (Store.next_modify ..) rfl ?_ ?_
    · exact Store.total_modify_same fun _ => rfl
    · split <;> rfl
    · split <;> simp [Chore.cost]
  -- the dues of a closed region pass to its children, which weigh less
  | closed =>
    refine .token rfl rfl rfl (Nat.add_lt_add_left ?_ _)
    grind [dues_plan, sum_eq_zero, Chore.dues]
  | @closeNone r =>
    have hpos : 0 < Region.weight e.regions.next.index r := Nat.two_pow_pos _
    refine .token rfl rfl rfl (Nat.add_lt_add_left ?_ _)
    grind [dues_plan, Chore.dues]
  | @close r reg pending doomed hr =>
    have hnext : (e.onRegion r fun r => { r with closed := true }).regions.next = e.regions.next :=
      Store.next_modify ..
    have hdues : (e.onRegion r fun r => { r with closed := true }).dues = e.dues := by
      rw [dues, dues, hnext]
      rfl
    have hless := hclosed rfl hr
    refine .token rfl rfl (Store.total_modify_same fun _ => rfl) (Nat.add_lt_add_left ?_ _)
    grind [dues_plan, map_reverse, Chore.dues]
  | @killToken t tok reg ht =>
    have hremoved := Store.total_remove (w := fun _ => 1) ht
    refine .token rfl (Store.total_modify_same fun _ => rfl) (Store.total_modify_same fun _ => rfl) ?_
    show (e.tokens.remove t).total _ + _ < e.tokens.total _ + _
    grind [dues_of_agenda, dues_plan, Chore.dues]
  | @quiesce r reg hr =>
    obtain ⟨hg, hextent⟩ := react_toil (e.removed r reg) reg.kind
    refine .region ?_ hg ?_
    · unfold stages
      rw [react_transactions]
      rfl
    · rw [hextent]
      have hremoved := Store.total_remove (w := fun _ => 1) hr
      show (e.regions.remove r).total _ < e.regions.total _
      omega
  | @killGroup g grp hg hk =>
    refine .group rfl ?_
    have hmodified := Store.total_modify (w := fun grp : Group => if grp.killed then 0 else 1) hg
      fun group => { group with killed := true, members := [], kind := e.killedKind g grp.kind }
    show (e.groups.modify g _).total _ < e.groups.total _
    simp [hk] at hmodified
    omega
  -- a transaction goes on to its next stage
  | @prepare x txn preg hx hstate =>
    refine .stage ?_
    show (askVotes host _ _ (e.openVotes x txn) _).transactions.total _ < _
    rw [(askVotes_grown ..).transactions]
    exact stages_modify hx (by simp [hstate, TxnState.ahead])
  | @verify x txn hx hstate =>
    refine .stage ?_
    show (e.committed host x txn).transactions.total _ < _
    unfold committed
    dsimp only
    have hlt : (e.transactions.modify x
        fun txn => { txn with state := .done, publications := [] }).total
          (fun txn => txn.state.ahead) < e.stages :=
      stages_modify hx (by simp [hstate, TxnState.ahead])
    split
    · refine Nat.lt_of_le_of_lt (Nat.le_of_eq (Store.total_modify_same ?_)) hlt
      exact fun _ => rfl
    · exact hlt
  | @retire x txn hx =>
    refine .stage ?_
    have hremoved := Store.total_remove (w := fun txn : Transaction => txn.state.ahead) hx
    have hpos : 0 < txn.state.ahead := by cases txn.state <;> decide
    show (e.transactions.remove x).total _ < e.transactions.total _
    omega
  | @abort x txn hx hstate =>
    refine .stage (stages_modify hx ?_)
    rcases hstate with hstate | hstate <;> simp [hstate, TxnState.ahead]
  | @release k v =>
    obtain ⟨hg, hr, ht⟩ := spawnReady_toil e (k.resume v)
    refine .token ?_ hg hr ?_
    · unfold stages
      rw [(spawnReady_grown ..).transactions]
      rfl
    · show _ < e.population + _
      grind [spawnReady_agenda, dues_plan, dues_of_agenda, Grown.next_region, spawnReady_grown,
        Chore.dues]

end Engine

/-- As long as there is something to do a chore can be done, and leaves less ahead. -/
theorem Sections.chore (host : Host ω) (hs : Sections m e e.agenda.head?) (hc : Coherent m e)
    (ha : e.agenda ≠ []) :
    ∃ (e₀ : Engine (Logged ω)) (a : Chore) (e' : Engine (Logged ω)) (m' : Charter),
      e = e₀.plan [a] ∧ e₀.perform host.logged a = .ok e' ∧
        Coherent m' e' ∧ Sections m' e' e'.agenda.head? ∧ e'.Eases e := by
  obtain ⟨a, rest, ha⟩ := exists_cons_of_ne_nil ha
  have hplan := eq_plan ha
  generalize { e with agenda := rest } = e₀ at hplan
  subst hplan
  obtain ⟨m', e', he', hext, hc'⟩ := hc.perform host.logged
  have hs' := (hs.extend hc.core hext).perform host.logged (hc.extend hext) he'
  refine ⟨e₀, a, e', m', rfl, he', hc', hs', perform_eases he' ?_⟩
  -- what the engine closes by itself is gone
  rintro r reg pending doomed rfl hr
  cases (hs.closing_gone hc.core mem_cons_self).symm.trans hr

/-- Every reaction comes to an end. -/
theorem Reaction.ends {ω : Type} (host : Host ω) {m : Charter} {e : Engine (Logged ω)}
    (hc : Coherent m e) (hs : Sections m e e.agenda.head?) :
    ∃ between e₂, Reaction host e between e₂ ∧ e₂.agenda = [] := by
  by_cases ha : e.agenda = []
  · exact ⟨[], e, .start, ha⟩
  · obtain ⟨e₀, a, e', m', he, he', hc', hs', heases⟩ := hs.chore host hc ha
    obtain ⟨between, e₂, hreaction, hidle⟩ := Reaction.ends host hc' hs'
    exact ⟨e₀.plan [a] :: between, e₂, he ▸ hreaction.cons he', hidle⟩
termination_by e.toil
decreasing_by exact heases.lex

end Orchestra
