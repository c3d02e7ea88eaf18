/-
  Stations: every token is where its phase says, once and nowhere else.

  A runnable token stands in the queue, a blocked one with a cell or a clock, a calling or voting
  one waits for an answer.  Were it in no place it would be forgotten; were it in two, it would be
  sent on twice.  `Stations` says this for all tokens that are not doomed, and that a key which
  names no token yet is in no place either, so that a new token starts afresh.

  A step takes its token from the queue and puts it somewhere else.  In between the token is POISED:
  it may change, others may be added beside it, the host may be asked; and then it LANDS.  A chore
  moves nobody, apart from those whom it wakes, adds or dooms.
-/
import Orchestra.Proofs.Tally

namespace Orchestra

open Engine List

variable {ω : Type} {m : Charter} {host : Host ω} {e e₁ e₂ e' : Engine (Logged ω)} {t v : TokenId}
  {tok : Token} {grp : Group} {c cell g : GroupId} {new : List Chore} {log : List Entry}
  {ready waiters : List TokenId} {next : Nat} {node : Node} {phase : Phase} {region : RegionId}
  {site : Site} {tok₁ : Token} {f : Token → Token}

/-! ## Stations -/

namespace Phase

/-- How often a token in a phase stands in the queue. -/
def queued : Phase → Int
  | .runnable => 1
  | _ => 0

/-- How often it waits for a cell or a clock. -/
def parked : Phase → Int
  | .blocked => 1
  | _ => 0

/-- How many answers it is owed. -/
def owed : Phase → Int
  | .calling _ | .voting => 1
  | _ => 0

end Phase

/-- A token is where its phase says. -/
structure Stationed (e : Engine (Logged ω)) (t : TokenId) (phase : Phase) : Prop where
  queued : e.queued t = phase.queued
  parked : e.parked t = phase.parked
  owed : e.owed t = phase.owed

/-- A token is in no place. -/
structure Absent (e : Engine (Logged ω)) (t : TokenId) : Prop where
  queued : e.queued t = 0
  parked : e.parked t = 0
  owed : e.owed t = 0

/-- Tokens wait only for cells that are alive and have no value. -/
def Engine.Tidy (e : Engine ω) : Prop :=
  ∀ ⦃g grp⦄, e.groups.get? g = some grp → grp.kind.waiters ≠ [] →
    grp.killed = false ∧ e.bound.lookup g = none

/-- Every token is where it should be. -/
structure Stations (e : Engine (Logged ω)) : Prop where
  live : ∀ {t tok}, e.tokens.get? t = some tok → Doomed e t tok ∨ Stationed e t tok.phase
  unborn : ∀ {t : TokenId}, e.tokens.next.index ≤ t.index → Absent e t
  tidy : e.Tidy

theorem Absent.shift (h : Absent e t) (hs : Shifts e e' t 0 0 0) : Absent e' t :=
  ⟨by rw [hs.queued, h.queued]; rfl, by rw [hs.parked, h.parked]; rfl, by rw [hs.owed, h.owed]; rfl⟩

theorem Stationed.shift (h : Stationed e t phase) (hs : Shifts e e' t 0 0 0) :
    Stationed e' t phase :=
  ⟨by rw [hs.queued, h.queued, Int.add_zero], by rw [hs.parked, h.parked, Int.add_zero],
    by rw [hs.owed, h.owed, Int.add_zero]⟩

/-- A token that was in no place is where it was put. -/
theorem Absent.settle (h : Absent e t) (hs : Shifts e e' t phase.queued phase.parked phase.owed) :
    Stationed e' t phase :=
  ⟨by rw [hs.queued, h.queued, Int.zero_add], by rw [hs.parked, h.parked, Int.zero_add],
    by rw [hs.owed, h.owed, Int.zero_add]⟩

/-- A token that waits is blocked. -/
theorem Stationed.blocked (h : Stationed e t phase) (hpos : 0 < e.parked t) : phase = .blocked := by
  rw [h.parked] at hpos
  cases phase <;> first | rfl | exact absurd hpos (Int.lt_irrefl 0)

/-- Once it waits no longer it is runnable. -/
theorem Stationed.woken (h : Stationed e t phase) (hpos : 0 < e.parked t)
    (hs : Shifts e e' t 1 (-1) 0) : Stationed e' t .runnable := by
  obtain rfl := h.blocked hpos
  exact ⟨by rw [hs.queued, h.queued]; rfl, by rw [hs.parked, h.parked]; rfl,
    by rw [hs.owed, h.owed]; rfl⟩

/-- Once a token that was owed an answer has it, it is runnable. -/
theorem Stationed.answered (h : Stationed e t phase) (hpos : 0 < e.owed t)
    (hs : Shifts e e' t 1 0 (-1)) : Stationed e' t .runnable := by
  have howed : phase.queued = 0 ∧ phase.parked = 0 ∧ phase.owed = 1 := by
    rw [h.owed] at hpos
    cases phase <;> first | exact ⟨rfl, rfl, rfl⟩ | exact absurd hpos (Int.lt_irrefl 0)
  obtain ⟨hq, hp, ho⟩ := howed
  exact ⟨by rw [hs.queued, h.queued, hq]; rfl, by rw [hs.parked, h.parked, hp]; rfl,
    by rw [hs.owed, h.owed, ho]; rfl⟩

/-! ## Groups and those who wait for them -/

/-- Two states of the groups in which the same tokens wait for the same cells. -/
structure SameWaits (groups groups' : Store .group Group) : Prop where
  count : ∀ v, (groups'.collect fun grp => grp.kind.waiters).count v =
    (groups.collect fun grp => grp.kind.waiters).count v
  back : ∀ {g grp'}, groups'.get? g = some grp' → grp'.kind.waiters ≠ [] →
    ∃ grp, groups.get? g = some grp ∧ grp.kind.waiters ≠ [] ∧ grp.killed = grp'.killed

namespace SameWaits

variable {groups groups' groups'' : Store .group Group}

theorem refl (groups : Store .group Group) : SameWaits groups groups :=
  ⟨fun _ => rfl, fun hg hw => ⟨_, hg, hw, rfl⟩⟩

theorem trans (h : SameWaits groups groups') (h' : SameWaits groups' groups'') :
    SameWaits groups groups'' := by
  refine ⟨fun v => (h'.count v).trans (h.count v), fun hg hw => ?_⟩
  obtain ⟨grp', hg', hw', hk'⟩ := h'.back hg hw
  obtain ⟨grp, hg, hw, hk⟩ := h.back hg' hw'
  exact ⟨grp, hg, hw, hk.trans hk'⟩

theorem modify (groups : Store .group Group) (g : GroupId) {f : Group → Group}
    (hf : ∀ grp, (f grp).kind = grp.kind ∧ (f grp).killed = grp.killed) :
    SameWaits groups (groups.modify g f) := by
  refine ⟨Store.count_collect_modify_same fun grp _ => by rw [(hf grp).1], fun hg hw => ?_⟩
  obtain ⟨grp, hgrp, hkind, hk⟩ := Store.modify_back
    (P := fun a b : Group => b.kind = a.kind ∧ b.killed = a.killed) (fun _ => ⟨rfl, rfl⟩) hf hg
  exact ⟨grp, hgrp, hkind ▸ hw, hk.symm⟩

/-- A group that is added has nobody who waits for it. -/
theorem insert (groups : Store .group Group) (hw : grp.kind.waiters = []) :
    SameWaits groups (groups.insert grp) := by
  refine ⟨fun v => by rw [Store.collect_insert, hw, append_nil], fun hg hw' => ?_⟩
  grind

/-- A group that nobody waits for may go. -/
theorem remove (groups : Store .group Group)
    (hw : ∀ grp, groups.get? g = some grp → grp.kind.waiters = []) :
    SameWaits groups (groups.remove g) := by
  refine ⟨fun v => ?_, fun hg hw' => ?_⟩
  · cases hg : groups.get? g with
    | some grp => grind [Store.count_collect_remove]
    | none => grind [Array.set_getElem_self, Store.remove, Store.get?, Store.collect]
  · grind

theorem forgotten (grp : Group) (g : GroupId) (groups : Store .group Group)
    (hw : ∀ grp, groups.get? g = some grp → grp.kind.waiters = []) :
    SameWaits groups (grp.forgotten g groups) := by
  have hfold : ∀ (cs : List GroupId) (s : Store .group Group), SameWaits s
      (cs.foldl (fun s c => s.modify c fun cgrp => { cgrp with parent := none }) s) := by
    intro cs
    induction cs with
    | nil => exact refl
    | cons c cs ih => grind [trans, modify]
  grind [remove, trans, modify, Group.forgotten]

end SameWaits

theorem Engine.Tidy.of_groups {e e' : Engine ω} (h : e.Tidy)
    (hgroups : SameWaits e.groups e'.groups) (hbound : e'.bound = e.bound) : e'.Tidy := by
  intro g grp' hg' hw'
  obtain ⟨grp, hg, hw, hk⟩ := hgroups.back hg' hw'
  rw [hbound, ← hk]
  exact h hg hw

/-- Nothing moves as long as the places stay what they are. -/
theorem Shifts.of_places (hready : e'.ready = e.ready) (hagenda : e'.agenda = e.agenda)
    (hclocks : e'.clocks = e.clocks) (hgroups : SameWaits e.groups e'.groups)
    (howed : e'.owed v = e.owed v) : Shifts e e' v 0 0 0 := by
  grind [still, SameWaits.count, Engine.queued, Engine.parked, timed, waiting]

/-! ## Steps -/

/-- The phase of a token that is there. -/
def Engine.phase? (e : Engine ω) (v : TokenId) : Option Phase := (e.tokens.get? v).map Token.phase

theorem Engine.phase?_modify {e : Engine ω} (hf : ∀ tok, (f tok).phase = tok.phase) (t v : TokenId)
    : ((e.tokens.modify t f).get? v).map Token.phase = e.phase? v := by
  rw [Store.get?_modify, phase?]
  split
  · rw [Option.map_map]
    congr 1
    funext tok
    exact hf tok
  · rfl

/-- In `e₁` there may be more tokens than in `e`, each where its phase says, and nobody else has
    moved. -/
structure Grown (e e₁ : Engine (Logged ω)) : Prop where
  next : e.tokens.next.index ≤ e₁.tokens.next.index
  known : ∀ {v : TokenId}, v.index < e.tokens.next.index → Shifts e e₁ v 0 0 0
  fresh : ∀ {v : TokenId} {phase}, e.tokens.next.index ≤ v.index → e₁.phase? v = some phase →
    Shifts e e₁ v phase.queued phase.parked phase.owed
  unborn : ∀ {v : TokenId}, e₁.tokens.next.index ≤ v.index → Shifts e e₁ v 0 0 0
  tidy : e.Tidy → e₁.Tidy

namespace Grown

theorem refl (e : Engine (Logged ω)) : Grown e e where
  next := Nat.le_refl _
  known := fun _ => .still rfl rfl rfl
  fresh := by
    intro v phase hv hphase
    obtain ⟨tok', ht', -⟩ := Option.map_eq_some_iff.1 hphase
    exact absurd (Store.lt_next ht') (Nat.not_lt.2 hv)
  unborn := fun _ => .still rfl rfl rfl
  tidy := id

/-- Nobody moves, and there are no other tokens than before. -/
theorem after (h : Grown e e₁) (hstill : ∀ v, Shifts e₁ e₂ v 0 0 0)
    (hnext : e₂.tokens.next = e₁.tokens.next)
    (hphase : ∀ {v phase}, e₂.phase? v = some phase → e₁.phase? v = some phase)
    (htidy : e₁.Tidy → e₂.Tidy) : Grown e e₂ where
  next := hnext ▸ h.next
  known := fun hv => (h.known hv).stays (hstill _)
  fresh := fun hv hp => (h.fresh hv (hphase hp)).stays (hstill _)
  unborn := fun hv => (h.unborn (hnext ▸ hv)).stays (hstill _)
  tidy := htidy ∘ h.tidy

/-- Much may change without moving anybody. -/
theorem congr (h : Grown e e₁) (hready : e₂.ready = e₁.ready) (hagenda : e₂.agenda = e₁.agenda)
    (hclocks : e₂.clocks = e₁.clocks) (hbound : e₂.bound = e₁.bound)
    (hgroups : SameWaits e₁.groups e₂.groups) (howed : ∀ v, e₂.owed v = e₁.owed v)
    (hnext : e₂.tokens.next = e₁.tokens.next)
    (hphase : ∀ {v phase}, e₂.phase? v = some phase → e₁.phase? v = some phase) : Grown e e₂ :=
  h.after (fun v => .of_places hready hagenda hclocks hgroups (howed v)) hnext hphase
    fun ht => ht.of_groups hgroups hbound

/-- A token is added and put where its phase says. -/
theorem spawn (h : Grown e e₁) {id : TokenId} {e₃ : Engine (Logged ω)}
    (hs : e₁.spawn tok₁ = some (id, e₂)) (htokens : e₃.tokens = e₂.tokens)
    (hgroups : e₃.groups = e₂.groups) (hbound : e₃.bound = e₂.bound)
    (hothers : ∀ v, v ≠ id → Shifts e₂ e₃ v 0 0 0)
    (hmine : Shifts e₂ e₃ id tok₁.phase.queued tok₁.phase.parked tok₁.phase.owed) : Grown e e₃ := by
  obtain ⟨rfl, -, -, he₂⟩ := spawn_eq_some hs
  have hinsert : e₃.tokens = e₁.tokens.insert tok₁ := by rw [htokens, he₂]
  have hold : ∀ {v}, v ≠ e₁.tokens.next → Shifts e₁ e₃ v 0 0 0 := fun hv =>
    (Shifts.spawn hs _).after (hothers _ hv)
  have hnext := h.next
  refine ⟨?_, ?_, ?_, ?_, ?_⟩
  · rw [hinsert, Store.next_insert]
    omega
  · intro v hv
    refine (h.known hv).stays (hold ?_)
    rintro rfl
    omega
  · intro v phase hv hphase
    rw [phase?, hinsert, Store.get?_insert] at hphase
    split at hphase
    · rename_i hnew
      cases hphase
      subst hnew
      exact (h.unborn (Nat.le_refl _)).after ((Shifts.spawn hs _).after hmine)
    · rename_i hne
      exact (h.fresh hv hphase).stays (hold hne)
  · intro v hv
    rw [hinsert, Store.next_insert] at hv
    refine (h.unborn (by omega)).stays (hold ?_)
    rintro rfl
    omega
  · intro ht
    refine (h.tidy ht).of_groups ?_ ?_
    · grind [SameWaits.modify]
    · rw [hbound, he₂]

/-- A token may be added to the queue. -/
theorem spawnReady (h : Grown e e₁) (hp : tok₁.phase = .runnable) :
    Grown e (e₁.spawnReady tok₁) := by
  unfold Engine.spawnReady
  split
  · rename_i id e₂ hs
    refine h.spawn hs rfl rfl rfl ?_ ?_
    · grind [Shifts.enqueue]
    · have hin := Shifts.enqueue e₂ id id
      rw [if_pos rfl] at hin
      rw [hp]
      exact hin
  · exact h

end Grown

/-- The token `t` has been taken from the queue and is still to be put somewhere. -/
structure Poised (t : TokenId) (e e₁ : Engine (Logged ω)) : Prop extends Grown e e₁ where
  agenda : e₁.agenda = []
  mine : e₁.phase? t = some .runnable

/-- A step of the token `t` moves no other token and puts `t` where its phase says, or dooms it. -/
structure Lands (t : TokenId) (e e' : Engine (Logged ω)) : Prop where
  next : e.tokens.next.index ≤ e'.tokens.next.index
  others : ∀ {v}, v ≠ t → v.index < e.tokens.next.index → Shifts e e' v 0 0 0
  fresh : ∀ {v : TokenId} {phase}, e.tokens.next.index ≤ v.index → e'.phase? v = some phase →
    Shifts e e' v phase.queued phase.parked phase.owed
  unborn : ∀ {v : TokenId}, e'.tokens.next.index ≤ v.index → Shifts e e' v 0 0 0
  mine : ∀ {tok'}, e'.tokens.get? t = some tok' → Doomed e' t tok' ∨
    Shifts e e' t tok'.phase.queued tok'.phase.parked tok'.phase.owed
  tidy : e.Tidy → e'.Tidy

/-- Aborting the transaction of a scope that `tok` is in dooms the token `t`. -/
def AbortDooms (t : TokenId) (tok : Token) (e : Engine ω) : Prop :=
  ∀ ⦃scope : Scope⦄ ⦃e' : Engine ω⦄, e.scopeOf tok = some scope → e'.groups = e.groups →
    (∀ ⦃x txn⦄, e.transactions.get? x = some txn → ∃ txn', e'.transactions.get? x = some txn' ∧
      txn'.group = txn.group ∧ txn'.state = txn.state) →
    e'.agenda.head? = some (.abort scope.id) → ∀ ⦃tok'⦄, e.tokens.get? t = some tok' →
      Doomed e' t tok'

/-- A token that takes a step goes with its transaction. -/
theorem Sections.abort_dooms (h : Sections m e none) (hcore : Core m e none)
    (ha : e.agenda = []) (ht : e.tokens.get? t = some tok) (hp : tok.phase ≠ .voting) :
    AbortDooms t tok e := by
  intro scope e' hscope hgroups htxns htop tok' ht'
  cases ht.symm.trans ht'
  obtain ⟨txn, htxn, rfl⟩ := Option.map_eq_some_iff.1 hscope
  obtain ⟨x, hx, hrecord⟩ := Option.bind_eq_some_iff.1 htxn
  obtain ⟨hgroup, hown⟩ := hcore.aligned.token ht
  obtain ⟨reg, hr, -⟩ := hcore.census.region_of ht
  have hlineage : x ∈ m.lineage? tok.txn := by
    rw [hx]
    show x ∈ m.lineage x
    rw [(hcore.aligned.scope hrecord).2.1]
    exact mem_cons_self
  obtain ⟨⟨txn', hrecord', hrunning⟩, -⟩ := h.running hcore ha ht hp x hlineage
  cases hrecord.symm.trans hrecord'
  obtain ⟨txn', hx', hgroup', hstate'⟩ := htxns hrecord
  obtain ⟨r, rreg, hrreg, hkind⟩ := (h.placed hrecord).resolve_right (by simp)
  obtain ⟨_, hsame, -, hregion, -⟩ := hcore.aligned.atomic hrreg hkind
  cases hrecord.symm.trans hsame
  obtain ⟨grp, hg, -⟩ := hcore.region_alive (by simp [ha]) (by simp [ha]) (by simp [ha]) hrreg
  have hcondemned : Condemned e' txn.group := by
    rw [← hgroup']
    refine .aborted hx' (.inl (hstate'.trans hrunning)) ?_ (hgroups ▸ hgroup' ▸ hregion ▸ hg)
    rw [htop, hcore.scope_id hrecord]
  exact .inr (hgroup ▸ hcondemned.of_txn hcore ha hgroups hr (hown.trans hx) hrecord)

namespace Poised

theorem refl (ha : e.agenda = []) (ht : e.tokens.get? t = some tok) (hp : tok.phase = .runnable) :
    Poised t e e :=
  { Grown.refl e with
    agenda := ha
    mine := by rw [phase?, ht, Option.map_some, hp] }

section

variable (h : Poised t e e₁)

include h

theorem congr (hready : e₂.ready = e₁.ready) (hagenda : e₂.agenda = e₁.agenda)
    (hclocks : e₂.clocks = e₁.clocks) (hbound : e₂.bound = e₁.bound)
    (hgroups : SameWaits e₁.groups e₂.groups) (howed : ∀ v, e₂.owed v = e₁.owed v)
    (hnext : e₂.tokens.next = e₁.tokens.next) (hphase : ∀ v, e₂.phase? v = e₁.phase? v) :
    Poised t e e₂ :=
  { h.toGrown.congr hready hagenda hclocks hbound hgroups howed hnext fun hp => hphase _ ▸ hp with
    agenda := hagenda.trans h.agenda
    mine := (hphase t).trans h.mine }

/-- The token itself may change, as long as it stays runnable. -/
theorem becomes (hp : tok.phase = .runnable) : Poised t e (e₁.becomes t tok) := by
  refine h.congr rfl rfl rfl rfl (.refl _) (fun _ => rfl) (Store.next_modify ..) fun v => ?_
  show ((e₁.tokens.modify t _).get? v).map Token.phase = _
  rw [Store.get?_modify]
  split
  · rename_i hv
    obtain ⟨old, hold, -⟩ := Option.map_eq_some_iff.1 h.mine
    rw [hv, h.mine, hold]
    exact congrArg some hp
  · rfl

theorem moved (source target : RegionId) : Poised t e (e₁.moved t source target) :=
  h.congr rfl rfl rfl rfl (.refl _) (fun _ => rfl) (Store.next_modify ..)
    (phase?_modify (e := e₁) (f := fun token => { token with region := target })
      (fun _ => rfl) t)

theorem enlistToken (old new : GroupId) (x : TxnId) (body : Nat) :
    Poised t e (e₁.enlistToken t old new x body) := by
  refine h.congr rfl rfl rfl rfl (.trans (.modify _ old ?_) (.modify _ new ?_)) (fun _ => rfl)
    (Store.next_modify ..) (phase?_modify (e := e₁)
      (f := fun token => { token with group := new, txn := some x, node := body }) (fun _ => rfl) t)
  · exact fun _ => ⟨rfl, rfl⟩
  · exact fun _ => ⟨rfl, rfl⟩

theorem openCell (g : GroupId) (p : RegionId) : Poised t e (e₁.openCell g p) :=
  h.congr rfl rfl rfl rfl ((SameWaits.insert e₁.groups rfl).trans (.modify _ g fun _ => ⟨rfl, rfl⟩))
    (fun _ => rfl) rfl fun _ => rfl

theorem openAtomic (scope : Scope) (k : Continuation) : Poised t e (e₁.openAtomic scope k) :=
  h.congr rfl rfl rfl rfl
    ((SameWaits.insert e₁.groups rfl).trans (.modify _ k.group fun _ => ⟨rfl, rfl⟩))
    (fun _ => rfl) rfl fun _ => rfl

/-- The host may be asked, if nobody is to be answered later. -/
theorem absorb {ρ : Type} (effect : Effect ω ρ) (extra : List Entry)
    (hlog : log = e₁.world.log ++ extra)
    (hextra : ∀ v, extra.countP (Entry.calls v) = 0 ∧ extra.countP (Entry.answers v) = 0) :
    Poised t e (e₁.absorb (effect.logged log)).2 := by
  refine h.congr rfl rfl rfl rfl (.refl _) (fun v => ?_) rfl fun _ => rfl
  have howed := (Shifts.absorb e₁ effect extra hlog v).owed
  grind

theorem enlist (scope : Scope) (cohorts : List CohortId) :
    Poised t e (e₁.enlist scope cohorts) := by
  rw [enlist_eq]
  exact h.congr rfl rfl rfl rfl (.refl _) (fun _ => rfl) rfl fun _ => rfl

/-- A token may be added beside this one. -/
theorem spawnReady (hlt : t.index < e.tokens.next.index) (hp : tok₁.phase = .runnable) :
    Poised t e (e₁.spawnReady tok₁) := by
  refine { h.toGrown.spawnReady hp with
    agenda := Engine.spawnReady_agenda.trans h.agenda
    mine := ?_ }
  unfold Engine.spawnReady
  split
  · rename_i id e₂ hs
    obtain ⟨-, -, -, he₂⟩ := spawn_eq_some hs
    show (e₂.tokens.get? t).map Token.phase = _
    rw [he₂]
    show ((e₁.tokens.insert tok₁).get? t).map Token.phase = _
    rw [Store.get?_insert, if_neg]
    · exact h.mine
    · rintro rfl
      exact Nat.lt_irrefl _ (Nat.lt_of_lt_of_le hlt h.next)
  · exact h.mine

end

/-! ### Landing -/

section

variable (h : Poised t e e₁) (hlt : t.index < e.tokens.next.index)

include h hlt

/-- The token is put somewhere. -/
theorem land (hnext : e'.tokens.next = e₁.tokens.next)
    (hphase : ∀ v, v ≠ t → e'.phase? v = e₁.phase? v) (hothers : ∀ v, v ≠ t → Shifts e₁ e' v 0 0 0)
    (hmine : ∀ tok', e'.tokens.get? t = some tok' → Doomed e' t tok' ∨
      Shifts e₁ e' t tok'.phase.queued tok'.phase.parked tok'.phase.owed)
    (htidy : e₁.Tidy → e'.Tidy) : Lands t e e' := by
  have hne : ∀ {v : TokenId}, e.tokens.next.index ≤ v.index → v ≠ t := by
    rintro v hv rfl
    omega
  refine ⟨hnext ▸ h.next, ?_, ?_, ?_, ?_, htidy ∘ h.tidy⟩
  · exact fun hv hvlt => (h.known hvlt).stays (hothers _ hv)
  · intro v phase hv hp
    rw [hphase v (hne hv)] at hp
    exact (h.fresh hv hp).stays (hothers v (hne hv))
  · intro v hv
    rw [hnext] at hv
    exact (h.unborn hv).stays (hothers v (hne (Nat.le_trans h.next hv)))
  · exact fun ht' => (hmine _ ht').imp_right (h.known hlt).after

/-- The token ends, or something is done that dooms it. -/
theorem doom (hnew : ∀ a ∈ new, a.aside = true)
    (hdoomed : ∀ tok', e₁.tokens.get? t = some tok' → Doomed (e₁.plan new) t tok') :
    Lands t e (e₁.plan new) :=
  h.land hlt rfl (fun _ _ => rfl) (fun v _ => .planAside e₁ hnew v)
    (fun tok' ht' => .inl (hdoomed tok' ht')) id

theorem kill : Lands t e (e₁.plan [.killToken t]) :=
  h.doom hlt (by simp [Chore.aside]) fun _ _ => .inl mem_cons_self

/-- The token goes on. -/
theorem enqueue : Lands t e (e₁.enqueue t) := by
  refine h.land hlt rfl (fun _ _ => rfl) ?_ ?_ id
  · grind [Shifts.enqueue]
  · intro tok' (ht' : e₁.tokens.get? t = some tok')
    have hrunnable : tok'.phase = .runnable := by
      have hmine := h.mine
      grind [phase?]
    rw [hrunnable]
    have hin := Shifts.enqueue e₁ t t
    rw [if_pos rfl] at hin
    exact .inr hin

theorem goesOn (hp : tok.phase = .runnable) : Lands t e (e₁.goesOn t tok) :=
  (h.becomes hp).enqueue hlt

/-- The token is to be put into the queue. -/
theorem errand (herrands : errands new = [t]) (hwakes : wakes new = []) :
    Lands t e (e₁.plan new) := by
  have hplan := fun v => Shifts.plan e₁ new v
  simp only [herrands, hwakes, count_nil] at hplan
  refine h.land hlt rfl (fun _ _ => rfl) ?_ ?_ id
  · intro v hv
    have hin := hplan v
    grind
  · intro tok' (ht' : e₁.tokens.get? t = some tok')
    have hrunnable : tok'.phase = .runnable := by
      have hmine := h.mine
      grind [phase?]
    rw [hrunnable]
    have hin := hplan t
    rw [count_singleton, if_pos (by simp)] at hin
    exact .inr hin

theorem failed {error : TokenError} : Lands t e (e₁.failed host.logged t tok error) := by
  refine Poised.kill ?_ hlt
  exact h.congr rfl rfl rfl rfl (.refl _) (fun _ => rfl) rfl fun _ => rfl

/-- The token goes over to another phase. -/
theorem rephase (phase : Phase) (hf : ∀ tok, (f tok).phase = phase)
    (htokens : e'.tokens = e₁.tokens.modify t f) (hothers : ∀ v, v ≠ t → Shifts e₁ e' v 0 0 0)
    (hmine : Shifts e₁ e' t phase.queued phase.parked phase.owed) (htidy : e₁.Tidy → e'.Tidy) :
    Lands t e e' := by grind [land, Option.map_eq_some_iff, phase?]

/-- The token waits for a cell without a value. -/
theorem park (hpending : e₁.bound.lookup cell = none) : Lands t e (e₁.park t cell) := by
  unfold Engine.park
  split
  · rename_i parent waiters region children members hg
    have hparked := fun v => Shifts.park hg rfl t v
    refine h.rephase hlt .blocked (fun _ => rfl) rfl ?_ ?_ ?_
    · intro v hv
      have hshift := hparked v
      rw [if_neg hv] at hshift
      exact hshift.stays (.still rfl rfl rfl)
    · have hshift := hparked t
      rw [if_pos rfl] at hshift
      exact hshift.stays (.still rfl rfl rfl)
    · intro htidy g grp' (hg' : (e₁.groups.modify cell _).get? g = some grp') hw'
      rcases Store.of_get?_modify hg hg' with ⟨rfl, rfl⟩ | ⟨-, hg'⟩
      · exact ⟨rfl, hpending⟩
      · exact htidy hg' hw'
  · exact h.kill hlt

end

/-! ### Calls -/

theorem replied (h : Poised t e e₁) (hlt : t.index < e.tokens.next.index)
    (hp : tok.phase = .runnable) {reply : Reply}
    (hreply : Replied host.logged e₁ t tok site next reply e') : Lands t e e' := by
  cases hreply with
  | publish => exact h.goesOn hlt hp
  | halt => exact h.kill hlt
  | fail => exact h.failed hlt

/-- A worker that takes a call owes nobody but the caller an answer. -/
theorem launch_others (host : Host ω) (site : Site) (values : List Value) (hv : v ≠ t) :
    Shifts e₁ (e₁.absorb (host.logged.launch site values t e₁.world)).2 v 0 0 0 := by
  generalize heffect : host.launch site values t e₁.world.world = effect
  have hshift := Shifts.absorb e₁ effect (if effect.answer then [.launched t] else []) rfl v
  have hnone : (if effect.answer then [Entry.launched t] else []).countP (Entry.calls v) = 0 ∧
      (if effect.answer then [Entry.launched t] else []).countP (Entry.answers v) = 0 := by
    split <;> simp [Entry.calls, Entry.answers, Ne.symm hv]
  rw [hnone.1, hnone.2] at hshift
  rw [← heffect] at hshift
  exact hshift

/-- A call from inside a transaction may abort it, which dooms the caller. -/
theorem served (h : Poised t e e₁) (hlt : t.index < e.tokens.next.index)
    (hp : tok.phase = .runnable) (hdooms : AbortDooms t tok e₁) {values : List Value}
    (hserved : Served host.logged e₁ t tok site values next e') : Lands t e e' := by
  have transacted : ∀ scope : Scope, Poised t e (Engine.enlist
      (e₁.absorb (host.logged.transact site values (some scope) e₁.world)).2 scope
      (host.logged.transact site values (some scope) e₁.world).answer.enlisted) := fun scope =>
    (h.absorb (host.transact site values (some scope) e₁.world.world) _ rfl
      (by simp [Entry.calls, Entry.answers])).enlist scope _
  cases hserved with
  | immediate _ hreply =>
    refine replied ?_ hlt hp hreply
    exact h.absorb (host.call site values e₁.world.world) [] (append_nil _).symm (by simp)
  | launched _ htaken =>
    refine h.rephase hlt (.calling site.name) (fun _ => rfl) rfl ?_ ?_ id
    · exact fun v hv => (launch_others host site values hv).stays (.still rfl rfl rfl)
    · have htaken : (host.launch site values t e₁.world.world).answer = true := htaken
      have hlog : (e₁.world.log ++ if (host.launch site values t e₁.world.world).answer then
          [Entry.launched t] else []) = e₁.world.log ++ [.launched t] := by
        rw [if_pos htaken]
      have hasked := Shifts.absorb e₁ (host.launch site values t e₁.world.world) _ hlog t
      simp only [countP_singleton, Entry.calls, Entry.answers, decide_true, if_true] at hasked
      exact hasked.stays (.still rfl rfl rfl)
  | unspawned =>
    refine h.land hlt rfl (fun _ _ => rfl) ?_ (fun _ _ => .inl (.inl mem_cons_self)) id
    intro v hv
    have hkill : ∀ a ∈ [Chore.killToken t], a.aside = true := by simp [Chore.aside]
    have hplan := Shifts.planAside (e₁.absorb (host.logged.launch site values t e₁.world)).2 hkill v
    exact (launch_others host site values hv).stays ⟨hplan.queued, hplan.parked, hplan.owed⟩
  | outside _ _ hreply =>
    refine replied ?_ hlt hp hreply
    exact h.absorb (host.transact site values none e₁.world.world) [] rfl (by simp)
  | inside _ _ hreply => exact replied (transacted _) hlt hp hreply
  | @refused scope _ hscope =>
    refine (transacted scope).doom hlt (by simp [Chore.aside]) ?_
    intro tok' ht'
    rw [enlist_eq] at ht'
    refine hdooms hscope ?_ ?_ rfl ht'
    · rw [enlist_eq]
      rfl
    · intro x txn (hx : (e₁.absorb (host.logged.transact site values (some scope)
        e₁.world)).2.transactions.get? x = some txn)
      show ∃ txn', (Engine.enlist _ _ _).transactions.get? x = some txn' ∧ _
      rw [get?_enlist, hx]
      split
      · exact ⟨_, rfl, rfl, rfl⟩
      · exact ⟨_, rfl, rfl, rfl⟩
  | @timer clock n =>
    have htimed := fun v => Shifts.setTimer e₁ clock n.toInt.toNat.toUInt64 t v
    refine h.rephase hlt .blocked (fun _ => rfl) rfl ?_ ?_ id
    · intro v hv
      have hshift := htimed v
      rw [if_neg hv] at hshift
      exact hshift.stays (.still rfl rfl rfl)
    · have hshift := htimed t
      rw [if_pos rfl] at hshift
      exact hshift.stays (.still rfl rfl rfl)
  | timerFailed => exact h.failed hlt

theorem lookup_of_pending {e : Engine ω} {env : Env} {o : Operand}
    (h : e.look env o = .ok (.pending cell)) : e.bound.lookup cell = none := by
  obtain ⟨b, -, h⟩ := bind_ok h
  cases b with
  | value v => cases h
  | future c =>
    simp only [sightOf] at h
    split at h
    · cases h
    · cases h
      assumption

theorem lookup_of_lookAll {e : Engine ω} {env : Env} {os : List Operand}
    (h : e.lookAll env os = .ok (.error cell)) : e.bound.lookup cell = none := by
  induction os with
  | nil => cases h
  | cons o os ih =>
    obtain ⟨seen, hseen, h⟩ := bind_ok h
    cases seen with
    | pending c =>
      cases h
      exact lookup_of_pending hseen
    | value v =>
      obtain ⟨rest, hrest, h⟩ := bind_ok h
      cases rest with
      | error c =>
        cases h
        exact ih hrest
      | ok vs => cases h

theorem called (h : Poised t e e₁) (hlt : t.index < e.tokens.next.index)
    (hp : tok.phase = .runnable) (hdooms : AbortDooms t tok e₁) {target : Operand}
    {args : List Operand} {tail : Bool}
    (hcalled : Called host.logged e₁ t tok target args next tail e') : Lands t e e' := by
  have counted : ∀ f, Poised t e (e₁.count f) := fun _ =>
    h.congr rfl rfl rfl rfl (.refl _) (fun _ => rfl) rfl fun _ => rfl
  cases hcalled with
  | pending hc => exact h.park hlt (lookup_of_pending hc)
  | argPending _ hargs => exact h.park hlt (lookup_of_lookAll hargs)
  | uncallable | mismatch => exact h.failed hlt
  | enter => exact (counted _).goesOn hlt hp
  | site _ _ hserved => exact (counted _).served hlt hp hdooms hserved

end Poised

/-! ### Nodes -/

/-- Binding a cell moves nobody: those who waited are about to be woken. -/
theorem Shifts.bind (hg : e.groups.get? c = some grp) (hkind : grp.kind = .cell waiters region)
    (value : Value) (v : TokenId) : Shifts e (e.bind c value waiters region) v 0 0 0 := by
  have hmodify := Store.count_collect_modify (f := fun grp : Group => grp.kind.waiters) hg
    (fun g => { g with kind := .cell [] region }) v
  have hwoken : wakes (.killGroup c :: .closeRegions [region] [] :: waiters.map .wake) =
      waiters := by
    simp [wakes, filterMap_map]
  have herrands : errands (.killGroup c :: .closeRegions [region] [] :: waiters.map .wake) =
      [] := by
    simp [errands, filterMap_map]
  simp only [hkind, GroupKind.waiters.eq_1, count_nil, Nat.add_zero] at hmodify
  refine .still ?_ ?_ rfl
  · show (e.ready.count v : Int) + (errands (_ ++ e.agenda)).count v = _
    rw [errands_append, herrands]
    rfl
  · show (((e.groups.modify c _).collect fun grp => grp.kind.waiters).count v : Int) +
      e.timed.count v + (wakes (_ ++ e.agenda)).count v =
      (e.groups.collect fun grp => grp.kind.waiters).count v + e.timed.count v +
        (wakes e.agenda).count v
    rw [wakes_append, hwoken, count_append]
    omega

theorem Engine.Tidy.bind {value : Value} (h : e.Tidy) : (e.bind c value waiters region).Tidy := by
  intro g grp' (hg' : (e.groups.modify c _).get? g = some grp') hw'
  rcases Store.modified hg' with ⟨-, grp, -, rfl⟩ | ⟨hne, hg'⟩
  · exact absurd rfl hw'
  · obtain ⟨hk, hlookup⟩ := h hg' hw'
    refine ⟨hk, ?_⟩
    show List.lookup g ((c, value) :: e.bound) = none
    grind

/-- Whatever a token does, it lands. -/
theorem Executed.lands (h : Executed host.logged e t tok node e') (hdooms : AbortDooms t tok e)
    (ha : e.agenda = []) (ht : e.tokens.get? t = some tok) (hp : tok.phase = .runnable) :
    Lands t e e' := by
  have hlt := Store.lt_next ht
  have still : Poised t e e := .refl ha ht hp
  cases h with
  | stop => exact still.kill hlt
  | load | field | push | unwind | declare | ret => exact still.goesOn hlt hp
  | loadPending hc | fieldPending hc => exact still.park hlt (Poised.lookup_of_pending hc)
  | fieldFailed | forkFull | subgoalFull => exact still.failed hlt
  | publish =>
    refine Poised.kill ?_ hlt
    exact still.congr rfl rfl rfl rfl (.refl _) (fun _ => rfl) rfl fun _ => rfl
  | fork =>
    have hcounted : Poised t e e.forked :=
      still.congr rfl rfl rfl rfl (.refl _) (fun _ => rfl) rfl fun _ => rfl
    exact (hcounted.spawnReady hlt rfl).goesOn hlt hp
  | @subgoal left right e₁ hcap hs =>
    have hopen : Poised t e
        (e.openCell tok.group tok.region).forked :=
      (still.openCell tok.group tok.region).congr rfl rfl rfl rfl (.refl _) (fun _ => rfl) rfl
        fun _ => rfl
    have hspawned : Poised t e (Engine.spawnReady _ (e.cellToken tok right)) :=
      hopen.spawnReady hlt rfl
    grind [Poised.goesOn, Engine.spawnReady]
  | @resolve grp waiters region hg hkind =>
    refine still.land hlt rfl (fun _ _ => rfl) (fun v _ => .bind hg hkind _ v) ?_ .bind
    intro tok' (ht' : e.tokens.get? t = some tok')
    cases ht.symm.trans ht'
    have hemptied : (e.groups.modify tok.group fun g => { g with kind := .cell [] region }).get?
        tok.group = some { grp with kind := .cell [] region } := by
      rw [Store.get?_modify, if_pos rfl, hg]
      rfl
    exact .inl (.inr (.planned hemptied (mem_append_left _ mem_cons_self)))
  | @otherwise left right =>
    have hopen : Poised t e (e.openOtherwise (tok.continueAt right)) :=
      still.congr rfl rfl rfl rfl (.refl _) (fun _ => rfl) rfl fun _ => rfl
    exact (hopen.moved _ _).errand hlt rfl rfl
  | @escape next reg preg b k p =>
    have hpublished : Poised t e (e.published tok.region k) :=
      still.congr rfl rfl rfl rfl (.refl _) (fun _ => rfl) rfl fun _ => rfl
    refine (hpublished.moved _ _).errand hlt ?_ ?_
    · split <;> rfl
    · split <;> rfl
  | atomic =>
    exact (((still.openAtomic _ _).enlistToken _ _ _ _).moved _ _).errand hlt rfl rfl
  | buffer =>
    refine Poised.kill ?_ hlt
    exact still.congr rfl rfl rfl rfl (.refl _) (fun _ => rfl) rfl fun _ => rfl
  | @call target args next tail span e' hcalled =>
    have hp : ({ tok with span } : Token).phase = .runnable := hp
    refine (still.becomes hp).called hlt hp ?_ hcalled
    intro scope e₂ hscope hgroups htxns htop tok' ht'
    rw [get?_becomes ht, if_pos rfl] at ht'
    cases ht'
    have hdoomed := hdooms hscope hgroups htxns htop ht
    exact hdoomed

theorem Engine.execute_lands (hcore : Core m e none) (hs : Sections m e none) (ha : e.agenda = [])
    (ht : e.tokens.get? t = some tok) (hp : tok.phase = .runnable)
    (he' : e.execute host.logged t tok node = .ok e') : Lands t e e' :=
  (executed hcore ht he').lands (hs.abort_dooms hcore ha ht (by simp [hp])) ha ht hp

/-! ## Chores -/

namespace Grown

variable {a : Chore}

/-- A chore that puts no token anywhere is taken from the agenda. -/
theorem pop (e : Engine (Logged ω)) (ha : a.aside = true) : Grown (e.plan [a]) e :=
  (refl _).after (fun v => .pop e ha v) rfl id id

/-- Chores that put no token anywhere are planned. -/
theorem plan (h : Grown e e₁) (hnew : ∀ a ∈ new, a.aside = true) : Grown e (e₁.plan new) :=
  h.after (fun v => .planAside e₁ hnew v) rfl id id

theorem react (h : Grown e e₁) (kind : RegionKind) : Grown e (e₁.react kind) := by
  unfold Engine.react
  split
  · exact h.congr rfl rfl rfl rfl (.refl _) (fun _ => rfl) rfl id
  · exact h.plan (by simp [Chore.aside])
  · split
    · exact h
    · exact h.spawnReady rfl
  · exact h.plan (by simp [Chore.aside])
  · exact h.plan (by simp [Chore.aside])

/-- Every token that is to vote is owed an answer. -/
theorem askVotes (h : Grown e e₁) (scope : Scope) {vote : Token} (hp : vote.phase = .voting)
    (cohorts : List CohortId) : Grown e (Engine.askVotes host.logged scope vote e₁ cohorts) := by
  refine askVotes_induct (P := fun e' => Grown e e') ?_ h cohorts
  intro e₂ e₃ id c h₂ hs
  have hshift := fun v => Shifts.absorb e₃ (host.ready c scope id e₃.world.world)
    [.asked c scope id] rfl v
  refine h₂.spawn hs rfl rfl rfl ?_ ?_
  · intro v hv
    have hasked := hshift v
    simp only [countP_singleton, Entry.calls, Entry.answers, decide_eq_true_eq,
      if_neg (Ne.symm hv)] at hasked
    exact hasked
  · have hasked := hshift id
    simp only [countP_singleton, Entry.calls, Entry.answers, decide_true, if_true] at hasked
    rw [hp]
    exact hasked

/-- What is told to cohorts concerns no token. -/
theorem tell (h : Grown e e₁) (h₂ : e₂.ready = e₁.ready ∧ e₂.agenda = e₁.agenda ∧
      e₂.clocks = e₁.clocks ∧ e₂.bound = e₁.bound ∧ e₂.groups = e₁.groups ∧ e₂.tokens = e₁.tokens ∧
      e₂.inbox = e₁.inbox) (told : List Entry) (hlog : e₂.world.log = e₁.world.log ++ told)
    (htold : ∀ entry ∈ told, ∀ v, entry.calls v = false ∧ entry.answers v = false) :
    Grown e e₂ := by grind [congr, SameWaits.refl, countP_eq_zero, Engine.owed, phase?]

/-- Most chores move nobody. -/
theorem perform (hc : Coherent m (e.plan [a])) (htidy : (e.plan [a]).Tidy)
    (he' : e.perform host.logged a = .ok e') (hwake : ∀ t, a ≠ .wake t)
    (hkill : ∀ g grp, a = .killGroup g → e.groups.get? g = some grp → grp.killed = true) :
    Grown (e.plan [a]) e' := by
  cases Engine.performed he' with
  | gone | quiesced | settled | detached | dead | removed | unprepared | unverified | retired
  | abortLate => exact pop e rfl
  | @killToken t tok reg =>
    refine plan ?_ ?_
    · refine (pop e rfl).congr rfl rfl rfl rfl (.modify _ tok.group ?_) (fun _ => rfl)
        (Store.next_remove ..) ?_
      · exact fun _ => ⟨rfl, rfl⟩
      · intro v phase (hp : ((e.tokens.remove t).get? v).map Token.phase = some phase)
        rw [Store.get?_remove] at hp
        split at hp
        · cases hp
        · exact hp
    · intro a ha
      split at ha
      · cases mem_singleton.1 ha
        rfl
      · cases ha
  | @quiesce r reg =>
    have hshut : Grown (e.plan [.quiesce r]) { e with regions := e.regions.remove r } :=
      (pop e rfl).congr rfl rfl rfl rfl (.refl _) (fun _ => rfl) rfl id
    refine (hshut.plan ?_).react _
    intro a ha
    obtain ⟨p, -, rfl⟩ := Option.map_eq_some_iff.1 (Option.mem_toList.1 ha)
    rfl
  | settle => exact (pop e rfl).plan (by simp [Chore.aside])
  | @detach p c reg =>
    refine plan ?_ ?_
    · exact (pop e rfl).congr rfl rfl rfl rfl (.refl _) (fun _ => rfl) rfl id
    · intro a ha
      split at ha
      · cases mem_singleton.1 ha
        rfl
      · cases ha
  | closed =>
    refine (pop e rfl).plan fun a ha => ?_
    obtain ⟨t, -, rfl⟩ := mem_map.1 ha
    rfl
  | closeNone => exact (pop e rfl).plan (by simp [Chore.aside])
  | close =>
    refine plan ?_ (by simp [Chore.aside])
    exact (pop e rfl).congr rfl rfl rfl rfl (.refl _) (fun _ => rfl) rfl id
  | @killGroup g grp hg hk =>
    rw [hkill g grp rfl hg] at hk
    cases hk
  | @removeGroup g grp hg =>
    refine (pop e rfl).congr rfl rfl rfl rfl (.forgotten grp g e.groups ?_)
      (fun _ => rfl) rfl id
    -- nobody waits for a group that is killed
    intro grp' hg'
    by_contra hw
    have hkilled := hc.core.kinship.marked mem_cons_self hg'
    rw [(htidy hg' hw).1] at hkilled
    cases hkilled
  | @asleep t => exact absurd rfl (hwake t)
  | @wake t => exact absurd rfl (hwake t)
  | prepareLate => exact (pop e rfl).plan (by simp [Chore.aside])
  | @prepare x txn =>
    have hopen : Grown (e.plan [.prepare x]) (e.openVotes x txn) :=
      (pop e rfl).congr rfl rfl rfl rfl (.refl _) (fun _ => rfl) rfl id
    exact (hopen.askVotes _ rfl _).plan (by simp [Chore.aside])
  | verifyLate => exact (pop e rfl).plan (by simp [Chore.aside])
  | @verify x txn =>
    refine plan ?_ ?_
    · refine (pop e rfl).tell ⟨rfl, rfl, rfl, rfl, rfl, rfl, rfl⟩ _
        (host.log_confirms txn.scope txn.cohorts e.world) ?_
      intro entry hm v
      obtain ⟨c, -, rfl⟩ := mem_map.1 hm
      exact ⟨rfl, rfl⟩
    · intro a ha
      rcases mem_cons.1 ha with rfl | ha
      · rfl
      · obtain ⟨value, -, rfl⟩ := mem_map.1 ha
        rfl
  | retire =>
    refine plan ?_ (by simp [Chore.aside])
    exact (pop e rfl).congr rfl rfl rfl rfl (.refl _) (fun _ => rfl) rfl id
  | release => exact (pop e rfl).spawnReady rfl
  | abort =>
    refine plan ?_ ?_
    · exact (pop e rfl).congr rfl rfl rfl rfl (.refl _) (fun _ => rfl) rfl id
    · intro a ha
      rcases mem_cons.1 ha with rfl | ha
      · rfl
      · obtain ⟨c, -, rfl⟩ := mem_map.1 ha
        rfl
  | @rollback c s =>
    refine (pop e rfl).tell ⟨rfl, rfl, rfl, rfl, rfl, rfl, rfl⟩
      [.rolledBack c s] rfl ?_
    intro entry hm v
    cases mem_singleton.1 hm
    exact ⟨rfl, rfl⟩
  | @proceed t n tok =>
    refine (refl _).after (fun v => ?_) (Store.next_modify ..) ?_ id
    · exact (Shifts.requeue e rfl rfl v).stays (.still rfl rfl rfl)
    · intro v phase hp
      exact (phase?_modify (f := fun token => { token with node := n }) (fun _ => rfl)
        t v).symm.trans hp
  | enqueue => exact (refl _).after (fun v => .requeue e rfl rfl v) rfl id id

end Grown

/-- Killing a group moves only those who wait for it. -/
theorem Shifts.killGroup (hg : e.groups.get? g = some grp)
    (hnone : (e.killedKind g grp.kind).waiters = []) (hv : v ∉ grp.kind.waiters) :
    Shifts (e.plan [.killGroup g]) (e.condemned g grp) v 0 0 0 := by
  have hcount := Store.count_collect_modify (f := fun grp : Group => grp.kind.waiters) hg
    (fun group => { group with killed := true, members := [], kind := e.killedKind g grp.kind }) v
  simp only [hnone, count_eq_zero.2 hv, count_nil, Nat.add_zero] at hcount
  refine (Shifts.pop e rfl v).after (.after (Shifts.onGroups e hcount) (.planAside _ ?_ v))
  intro a ha
  rcases mem_append.1 ha with ha | ha
  · rcases mem_append.1 ha with ha | ha
    · unfold abortFor at ha
      split at ha
      · cases mem_singleton.1 ha
        rfl
      · cases ha
    · obtain ⟨t, -, rfl⟩ := mem_map.1 ha
      rfl
  · rcases mem_cons.1 ha with rfl | ha
    · rfl
    · obtain ⟨c, -, rfl⟩ := mem_map.1 ha
      rfl

namespace Stations

variable {a : Chore}

/-- Who is not doomed stays where it is, and who is added is where it should be. -/
theorem grown (h : Stations e) (hg : Grown e e')
    (hold : ∀ {v tok'}, v.index < e.tokens.next.index → e'.tokens.get? v = some tok' →
      ∃ tok, e.tokens.get? v = some tok ∧ tok'.phase = tok.phase ∧
        (Doomed e v tok → Doomed e' v tok')) : Stations e' where
  live := by
    intro v tok' ht'
    by_cases hv : v.index < e.tokens.next.index
    · grind [live, Stationed.shift, Grown.known]
    · refine .inr ((h.unborn (Nat.not_lt.1 hv)).settle (hg.fresh (Nat.not_lt.1 hv) ?_))
      rw [phase?, ht']
      rfl
  unborn := fun hv => (h.unborn (Nat.le_trans hg.next hv)).shift (hg.unborn hv)
  tidy := hg.tidy h.tidy

/-- A token that waited goes on. -/
theorem wake (h : Stations (e.plan [.wake t])) (hc : Coherent m (e.plan [.wake t]))
    (hc' : Core m e' (hollow e'.agenda)) (he' : e.perform host.logged (.wake t) = .ok e') :
    Stations e' := by
  have hpos : 0 < (e.plan [.wake t]).parked t :=
    parked_pos (.inr (.inr (mem_wakes.2 mem_cons_self)))
  have hborn : t.index < e.tokens.next.index := by grind [Absent.parked, unborn, Engine.plan]
  cases Engine.performed he' with
  | asleep ht =>
    refine ⟨?_, ?_, h.tidy⟩
    · intro v tok' ht'
      have hv : v ≠ t := by
        rintro rfl
        rw [ht] at ht'
        cases ht'
      rcases h.live ht' with hdoomed | hs
      · exact .inl (hdoomed.perform hc hc' he' ht' rfl)
      · exact .inr (hs.shift (.popWake e hv))
    · intro v hv
      refine (h.unborn hv).shift (.popWake e ?_)
      rintro rfl
      exact Nat.not_lt.2 hv hborn
  | @wake _ tok ht =>
    have hothers : ∀ {v}, v ≠ t →
        Shifts (e.plan [.wake t]) ((e.onToken t Token.woken).enqueue t) v 0 0 0 := by
      intro v hv
      have hin := Shifts.enqueue e t v
      rw [if_neg hv] at hin
      exact (Shifts.popWake e hv).after (hin.stays (.still rfl rfl rfl))
    refine ⟨?_, ?_, h.tidy⟩
    · intro v tok' (ht' : (e.tokens.modify t _).get? v = some tok')
      have hthere := ht'
      rcases Store.of_get?_modify ht ht' with ⟨rfl, rfl⟩ | ⟨hv, ht'⟩
      · rcases h.live ht with hdoomed | hs
        · exact .inl (hdoomed.perform hc hc' he' hthere rfl)
        · exact .inr (hs.woken hpos ((Shifts.wake e v).stays (.still rfl rfl rfl)))
      · rcases h.live ht' with hdoomed | hs
        · exact .inl (hdoomed.perform hc hc' he' hthere rfl)
        · exact .inr (hs.shift (hothers hv))
    · intro v (hv : (e.tokens.modify t _).next.index ≤ v.index)
      rw [Store.next_modify] at hv
      refine (h.unborn hv).shift (hothers ?_)
      rintro rfl
      exact Nat.not_lt.2 hv hborn

/-- Killing a cell without a value dooms those who wait for it. -/
theorem killGroup (h : Stations (e.plan [.killGroup g])) (hc : Coherent m (e.plan [.killGroup g]))
    (hc' : Core m e' (hollow e'.agenda)) (he' : e.perform host.logged (.killGroup g) = .ok e')
    (hg : e.groups.get? g = some grp) (hk : grp.killed = false) : Stations e' := by
  cases Engine.performed he' with
  | dead hdead =>
    rw [hdead grp hg] at hk
    cases hk
  | @killGroup _ grp₀ hg₀ hk₀ =>
    cases hg.symm.trans hg₀
    -- a cell with a value has nobody who waits for it
    have hwaiters : (e.killedKind g grp.kind).waiters = [] ∧
        e.orphans g grp.kind = grp.kind.waiters := by
      cases hkind : grp.kind with
      | root | transaction x => exact ⟨rfl, rfl⟩
      | cell ws r =>
        unfold killedKind orphans
        dsimp only
        split
        · exact ⟨rfl, rfl⟩
        · rename_i hbound
          have hempty : ws = [] := by
            by_contra hw
            have hlookup := (h.tidy hg (by rw [hkind]; exact hw)).2
            grind [Engine.plan]
          subst hempty
          exact ⟨rfl, rfl⟩
    obtain ⟨hnone, horphans⟩ := hwaiters
    have hstill : ∀ {v}, v ∉ grp.kind.waiters → Shifts (e.plan [.killGroup g]) _ v 0 0 0 :=
      fun hv => .killGroup hg hnone hv
    refine ⟨?_, ?_, ?_⟩
    · intro v tok' (ht' : e.tokens.get? v = some tok')
      by_cases hv : v ∈ grp.kind.waiters
      · refine .inl (.inl (mem_append_left _ (mem_append_left _ ?_)))
        grind
      · rcases h.live ht' with hdoomed | hs
        · exact .inl (hdoomed.perform hc hc' he' ht' rfl)
        · exact .inr (hs.shift (hstill hv))
    · intro v hv
      refine (h.unborn hv).shift (hstill fun hm => ?_)
      have hpos := parked_pos (e := e.plan [.killGroup g])
        (.inl (Store.mem_collect.2 ⟨g, grp, hg, hm⟩))
      rw [(h.unborn hv).parked] at hpos
      cases hpos
    · intro g' grp' (hg' : (e.groups.modify g _).get? g' = some grp') hw'
      rcases Store.of_get?_modify hg hg' with ⟨rfl, rfl⟩ | ⟨-, hg'⟩
      · exact absurd hnone hw'
      · exact h.tidy hg' hw'

/-- Doing a chore leaves every token where it should be. -/
theorem perform (h : Stations (e.plan [a])) (hc : Coherent m (e.plan [a]))
    (hc' : Core m e' (hollow e'.agenda)) (he' : e.perform host.logged a = .ok e') :
    Stations e' := by
  grind [wake, killGroup, Grown.perform, tidy, grown, perform_old, Doomed.perform,
    Engine.plan]

/-! ## Turns -/

/-- With nothing to do, every token is where its phase says. -/
theorem settled (h : Stations e) (hc : Core m e none) (ha : e.agenda = [])
    (ht : e.tokens.get? t = some tok) : Stationed e t tok.phase :=
  (h.live ht).resolve_left fun hdoomed => hdoomed.busy hc ha

/-- A step puts its token where it should be. -/
theorem step (h : Stations e) (hc : Core m e none) (hs : Sections m e none) (ha : e.agenda = [])
    (hready : e.ready = t :: ready) (ht : e.tokens.get? t = some tok) (hp : tok.phase = .runnable)
    (he' : (e.taken ready).execute host.logged t tok node = .ok e') : Stations e' := by
  have hcore : Core m (e.taken ready) none := hc.congr rfl
  have hlands : Lands t (e.taken ready) e' :=
    execute_lands hcore (hs.congr rfl rfl) ha ht hp he'
  obtain ⟨mail, notices, hf⟩ := execute_footprint hcore ht (by simp [hp]) ha he'
  have hborn := Store.lt_next ht
  -- the token is taken from the queue, and nobody else is
  have htaken : ∀ {v}, v ≠ t → Shifts e (e.taken ready) v 0 0 0 := by
    intro v hv
    refine .still ?_ rfl rfl
    show (ready.count v : Int) + (errands e.agenda).count v =
      e.ready.count v + (errands e.agenda).count v
    rw [hready, count_cons_of_ne (Ne.symm hv)]
  have habsent : Absent (e.taken ready) t := by
    have hstation := h.settled hc ha ht
    rw [hp] at hstation
    refine ⟨?_, hstation.parked, hstation.owed⟩
    have hqueued : (e.ready.count t : Int) + (errands e.agenda).count t = 1 := hstation.queued
    show (ready.count t : Int) + (errands e.agenda).count t = 0
    rw [hready, count_cons_self] at hqueued
    omega
  have hne : ∀ {v : TokenId}, e.tokens.next.index ≤ v.index → v ≠ t := by
    rintro v hv rfl
    omega
  refine ⟨?_, ?_, hlands.tidy h.tidy⟩
  · intro v tok' ht'
    by_cases hv : v = t
    · grind [Lands.mine, Absent.settle]
    · by_cases hlt : v.index < e.tokens.next.index
      · have hsame : e.tokens.get? v = some tok' := (hf.others hv hlt).symm.trans ht'
        exact .inr ((h.settled hc ha hsame).shift ((htaken hv).after (hlands.others hv hlt)))
      · have hle := Nat.not_lt.1 hlt
        refine .inr (((h.unborn hle).shift (htaken hv)).settle (hlands.fresh hle ?_))
        rw [phase?, ht']
        rfl
  · intro v hv
    have hle := Nat.le_trans hlands.next hv
    exact ((h.unborn hle).shift (htaken (hne hle))).shift (hlands.unborn hv)

/-- Only one token moves. -/
theorem alter (h : Stations e) (hc : Core m e none) (ha : e.agenda = [])
    (hborn : t.index < e.tokens.next.index) (hnext : e'.tokens.next = e.tokens.next)
    (hothers : ∀ {v}, v ≠ t → e'.tokens.get? v = e.tokens.get? v ∧ Shifts e e' v 0 0 0)
    (hmine : ∀ {tok'}, e'.tokens.get? t = some tok' → Doomed e' t tok' ∨ Stationed e' t tok'.phase)
    (htidy : e'.Tidy) : Stations e' := by
  refine ⟨?_, ?_, htidy⟩
  · intro v tok' ht'
    by_cases hv : v = t
    · subst hv
      exact hmine ht'
    · rw [(hothers hv).1] at ht'
      exact .inr ((h.settled hc ha ht').shift (hothers hv).2)
  · intro v hv
    rw [hnext] at hv
    refine (h.unborn hv).shift (hothers ?_).2
    rintro rfl
    omega

/-- Nobody moves. -/
theorem quiet (h : Stations e) (hc : Core m e none) (ha : e.agenda = [])
    (hstill : ∀ v, Shifts e e' v 0 0 0) (htokens : e'.tokens = e.tokens) (htidy : e'.Tidy) :
    Stations e' := by
  refine ⟨?_, ?_, htidy⟩
  · intro v tok ht
    rw [htokens] at ht
    exact .inr ((h.settled hc ha ht).shift (hstill v))
  · intro v hv
    rw [htokens] at hv
    exact (h.unborn hv).shift (hstill v)

/-- A name in the queue that takes no step names no token any more. -/
theorem skip (h : Stations e) (hc : Core m e none) (ha : e.agenda = [])
    (hready : e.ready = t :: ready)
    (hskip : ∀ tok, e.tokens.get? t = some tok → tok.phase ≠ .runnable) :
    Stations { e with ready } := by
  have hqueued : 0 < e.queued t := by grind [Engine.queued]
  refine h.alter hc ha (t := t) ?_ rfl ?_ ?_ h.tidy
  · grind [Absent.queued, unborn]
  · intro v hv
    refine ⟨rfl, .still ?_ rfl rfl⟩
    show (ready.count v : Int) + _ = (e.ready.count v : Int) + _
    rw [hready, count_cons_of_ne (Ne.symm hv)]
  · intro tok ht
    rw [(h.settled hc ha ht).queued] at hqueued
    grind [Phase.queued]

section

variable (h : Stations e) (hc : Core m e none) (ha : e.agenda = [])

include h hc ha

/-- An answer goes to a token that is owed one. -/
theorem receive {message : Message} {inbox : List Message} (hinbox : e.inbox = message :: inbox)
    (hsingle : ∀ t, e.world.log.countP (Entry.answers t) ≤ e.world.log.countP (Entry.calls t)) :
    Stations ({ e with inbox }.receive host.logged message) := by
  have htake := fun v => Shifts.take (e := e) hinbox v
  -- whoever the message is for is owed an answer
  have howed : ∀ {t}, message.isFor t = true → 0 < e.owed t := by grind [Engine.owed]
  have hborn : ∀ {t}, message.isFor t = true → t.index < e.tokens.next.index := by
    grind [Absent.owed, unborn]
  have hothers : ∀ {v}, message.isFor v = false → Shifts e { e with inbox } v 0 0 0 := by grind
  have hpopped : ∀ {t v}, (∀ u, message.isFor u = decide (t = u)) → v ≠ t →
      Shifts e { e with inbox } v 0 0 0 := fun hisFor hv =>
    hothers ((hisFor _).trans (decide_eq_false (Ne.symm hv)))
  have hreceived := ({ e with inbox } : Engine (Logged ω)).received host.logged message
  generalize ({ e with inbox } : Engine (Logged ω)).receive host.logged message = e' at hreceived ⊢
  cases hreceived with
  | terminate =>
    exact h.quiet hc ha (fun v => (hothers rfl).stays (.still rfl rfl rfl)) rfl h.tidy
  | late ht | vetoedLate ht =>
    refine h.alter hc ha (hborn (decide_eq_true rfl)) rfl (fun hv => ⟨rfl, ?_⟩) ?_ h.tidy
    · exact hpopped (fun _ => rfl) hv
    · intro tok' ht'
      cases ht.symm.trans ht'
  | @publish t tok value ht =>
    have hfor : (Message.returned t (.publish value)).isFor t = true := decide_eq_true rfl
    refine h.alter hc ha (hborn hfor) (Store.next_modify ..) ?_ ?_ h.tidy
    · intro v hv
      have hin := Shifts.enqueue { e with inbox } t v
      rw [if_neg hv] at hin
      refine ⟨?_, (hpopped (fun _ => rfl) hv).after (hin.stays (.still rfl rfl rfl))⟩
      grind [Engine.enqueue, Engine.onToken]
    · intro tok' (ht' : (e.tokens.modify t _).get? t = some tok')
      rw [Store.get?_modify, if_pos rfl, ht] at ht'
      cases ht'
      have hin := Shifts.enqueue { e with inbox } t t
      rw [if_pos rfl] at hin
      have hshift := (htake t).trans hin
      rw [if_pos hfor] at hshift
      exact .inr ((h.settled hc ha ht).answered (howed hfor) (hshift.stays (.still rfl rfl rfl)))
  | halt =>
    refine h.alter hc ha (hborn (decide_eq_true rfl)) rfl ?_
      (fun _ => .inl (.inl mem_cons_self)) h.tidy
    exact fun hv => ⟨rfl, (hpopped (fun _ => rfl) hv).stays (.planAside _ (by simp [Chore.aside]) _)⟩
  | fail =>
    refine h.alter hc ha (hborn (decide_eq_true rfl)) rfl ?_
      (fun _ => .inl (.inl mem_cons_self)) h.tidy
    refine fun hv => ⟨rfl, (hpopped (fun _ => rfl) hv).stays ?_⟩
    refine Shifts.after ?_ (.planAside _ (by simp [Chore.aside]) _)
    exact .still rfl rfl rfl
  | vetoed =>
    refine h.alter hc ha (hborn (decide_eq_true rfl)) rfl ?_ (fun _ => .inl (.inl ?_)) h.tidy
    · refine fun hv => ⟨rfl, (hpopped (fun _ => rfl) hv).stays (.planAside _ ?_ _)⟩
      intro a hm
      rcases mem_append.1 hm with hm | hm
      · obtain ⟨x, -, rfl⟩ := Option.map_eq_some_iff.1 (Option.mem_toList.1 hm)
        rfl
      · cases mem_singleton.1 hm
        rfl
    · grind [Engine.plan]

/-- Dropping the timers of tokens that are gone moves nobody who is there. -/
theorem dropDeadTimers : Stations e.dropDeadTimers := by
  have hparked : ∀ v, e.dropDeadTimers.parked v = e.waiting.count v +
      (if e.tokens.contains v = true then e.timed.count v else 0 : Nat) +
        (wakes e.agenda).count v := by
    intro v
    show (e.waiting.count v : Int) +
      (payloads (e.clocks.map fun c => c.retain e.tokens.contains)).count v +
        (wakes e.agenda).count v = _
    rw [count_retain]
    rfl
  refine ⟨?_, ?_, h.tidy⟩
  · intro v tok (ht : e.tokens.get? v = some tok)
    refine .inr ((h.settled hc ha ht).shift (.still rfl ?_ rfl))
    rw [hparked, if_pos (by simp [Store.contains, ht])]
    rfl
  · intro v hv
    have habsent := h.unborn hv
    refine ⟨habsent.queued, ?_, habsent.owed⟩
    have hnone : (e.waiting.count v : Int) + e.timed.count v + (wakes e.agenda).count v = 0 :=
      habsent.parked
    rw [hparked]
    split <;> omega

/-- The tokens whose timers are due go on. -/
theorem tick : Stations e.tick := by
  have hdue : ∀ v, (e.due.count v : Int) ≤ e.parked v := by
    intro v
    have hleft := (Shifts.tick e v).parked
    have hpos := e.tick.parked_nonneg v
    omega
  refine ⟨?_, ?_, ?_⟩
  · intro v tok' ht'
    rw [tick_token] at ht'
    split at ht'
    · rename_i hmem
      obtain ⟨tok, ht, rfl⟩ := Option.map_eq_some_iff.1 ht'
      have hstation := h.settled hc ha ht
      have hpos := count_pos_iff.2 hmem
      have hle := hdue v
      have hparked : 0 < e.parked v := by omega
      have hone : e.due.count v = 1 := by
        rw [hstation.parked, hstation.blocked hparked] at hle
        exact Nat.le_antisymm (Int.ofNat_le.1 hle) hpos
      have hwoken := Shifts.tick e v
      grind [Stationed.woken, Store.contains]
    · rename_i hmem
      exact .inr ((h.settled hc ha ht').shift (.tick_of_not_due hmem))
  · intro v hv
    rw [tick_next] at hv
    refine (h.unborn hv).shift (.tick_of_not_due fun hmem => ?_)
    have hpos := count_pos_iff.2 hmem
    grind [Absent.parked, unborn]
  · have heq : e.tick = _ := wakeAll_eq _ e.due
    rw [heq]
    exact h.tidy

/-- Waiting leaves every token where it should be. -/
theorem idle : Stations (e.idle host.logged).state := by
  have hdropped : Stations e.dropDeadTimers := h.dropDeadTimers hc ha
  have hcore : Core m e.dropDeadTimers none := hc.congr rfl
  have habsorb : ∀ (effect : Effect ω Unit) (e₁ : Engine (Logged ω)) (v : TokenId),
      Shifts e₁ (e₁.absorb (effect.logged e₁.world.log)).2 v 0 0 0 := by
    intro effect e₁ v
    exact Shifts.absorb e₁ effect [] (append_nil _).symm v
  have hidled := e.idled host.logged
  generalize e.idle host.logged = p at hidled
  cases hidled with
  | await heffect =>
    obtain ⟨effect, -, rfl⟩ := Option.map_eq_some_iff.1 heffect
    exact hdropped.quiet hcore ha (habsorb effect e.dropDeadTimers) rfl hdropped.tidy
  | stuck => exact hdropped
  | tick =>
    have hticked := hdropped.tick hcore ha
    have ha' : e.dropDeadTimers.tick.agenda = [] := (wakeAll_agenda _).trans ha
    have hcore' : Core m e.dropDeadTimers.tick none := by
      refine wakeAll_induct (P := fun e => Core m e none) (fun t h => ?_) ?_ _
      · refine Core.congr (h.onToken t ?_ ?_ ?_) rfl <;> exact fun _ => rfl
      · exact hcore.congr rfl
    exact hticked.quiet hcore' ha' (habsorb _ e.dropDeadTimers.tick) rfl hticked.tidy

end

/-- A turn leaves every token where it should be, if nobody is answered more often than it asks. -/
theorem turn (h : Stations e) (hc : Coherent m e) (hs : Sections m e e.agenda.head?)
    (hsingle : ∀ t, e.world.log.countP (Entry.answers t) ≤ e.world.log.countP (Entry.calls t))
    {p : Progress (Logged ω)} (hp : e.turn host.logged = .ok p) : Stations p.state := by
  cases turned hp with
  | chore he he' =>
    subst he
    obtain ⟨m', hext, hc'⟩ := hc.turn _ hp
    exact h.perform (hc.extend hext) hc'.core he'
  | done => exact h
  | skip ha _ hready hskip => exact h.skip (hc.core_of_idle ha) ha hready hskip
  | step ha _ hready ht hphase _ he' =>
    rw [ha] at hs
    exact h.step (hc.core_of_idle ha) hs ha hready ht hphase he'
  | message ha _ _ hinbox => exact h.receive (hc.core_of_idle ha) ha hinbox hsingle
  | idle ha => exact h.idle (hc.core_of_idle ha) ha

/-- At the beginning there is one token, and it is in the queue. -/
theorem start (program : Program) (limit : Option Nat) (world : ω) :
    Stations (Engine.opening program limit world) := by
  have hbare : Stations (bare program limit (⟨world, []⟩ : Logged ω)) := by
    refine ⟨?_, fun _ => ⟨rfl, rfl, rfl⟩, ?_⟩
    · grind [Store.get?_empty, bare, Engine.new]
    · intro g grp (hg : (Store.empty.insert _).get? g = some grp) hw
      grind [Store.get?_empty, bare, Engine.new]
  unfold opening
  rw [start_eq]
  exact hbare.grown ((Grown.refl _).spawnReady rfl) fun hv => absurd hv (Nat.not_lt_zero _)

/-- A message that arrives moves nobody. -/
theorem deliver (h : Stations e) (message : Message) : Stations (e.deliver message) := by
  refine h.grown ((Grown.refl e).after (fun v => .deliver e message v) rfl id id) ?_
  exact fun _ ht => ⟨_, ht, rfl, fun hdoomed => hdoomed.congr rfl rfl rfl⟩

end Stations

/-! ## Runs -/

/-- Nobody is answered more often than it has asked. -/
def Single (log : List Entry) : Prop :=
  ∀ before, before <+: log → ∀ t,
    before.countP (Entry.answers t) ≤ before.countP (Entry.calls t)

/-- Whether the entry is an answer only to somebody who has asked often enough. -/
def Entry.earned (log : List Entry) : Entry → Bool
  | .sent (.returned t _) | .sent (.vetoed t) => log.countP (answers t) ≤ log.countP (calls t)
  | _ => true

instance (log : List Entry) : Decidable (Single log) :=
  decidable_of_iff (∀ n < log.length + 1, ∀ entry ∈ log.take n,
    entry.earned (log.take n) = true) <| by
    constructor
    · intro h before hbefore t
      have hearned := h _ (Nat.lt_succ_of_le hbefore.length_le)
      rw [← List.prefix_iff_eq_take.1 hbefore] at hearned
      by_cases hanswered : ∃ entry ∈ before, entry.answers t = true
      · obtain ⟨entry, hm, hanswers⟩ := hanswered
        have hle := hearned entry hm
        unfold Entry.answers Message.isFor at hanswers
        grind [Entry.earned]
      · grind [List.countP_eq_zero]
    · intro h n _ entry _
      have hfewer := h _ (List.take_prefix n log)
      unfold Entry.earned
      grind

theorem Single.mono {log' : List Entry} (h : Single log') (hsub : log <+: log') : Single log :=
  fun before hbefore => h before (hbefore.trans hsub)

/-- In every state of a run each token is where it should be. -/
theorem Run.stations {program : Program} {limit : Option Nat} {world : ω}
    {past : History ω} (h : Run host program limit world past e)
    (hpolite : Polite e.world.log) (hsingle : Single e.world.log) : Stations e := by
  induction h with
  | start => exact .start program limit world
  | turn hrun hp ih =>
    obtain ⟨m₀, hc₀⟩ := hrun.coherent
    have hgrows := turn_grows hc₀ hp
    obtain ⟨m, hc, hs, -⟩ := hrun.sound (hpolite.mono hgrows)
    exact (ih (hpolite.mono hgrows) (hsingle.mono hgrows)).turn hc hs (hsingle _ hgrows) hp
  | @arrive past e hrun message ih =>
    grind [Stations.deliver, Polite.mono, Single.mono, Engine.deliver]

end Orchestra
