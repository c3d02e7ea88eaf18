/-
  Coherence: the invariant of a run.

  `Core` puts together what the three theories of scopes say about a state: the census of its
  regions, the kinship of its groups, and their alignment with a charter.  `Coherent` adds what
  can stand on the agenda.  Some chores are URGENT: they speak of something that the chore before
  has just brought about, and are done at once, so they stand on top or nowhere.

  Every chore leaves a coherent state coherent and does not fault (`perform_coherent`).
-/
import Orchestra.Proofs.Census
import Orchestra.Proofs.Charter

namespace Orchestra

open List

variable {agenda : List Chore} {c p r : RegionId} {tok : Token} {id : TokenId}

/-! ## What stands on the agenda -/

/-- The regions that are still to be taken off the count of their parent. -/
def detaches (agenda : List Chore) : List (RegionId × RegionId) :=
  agenda.filterMap fun
    | .detach p c => some (p, c)
    | _ => none

@[simp]
theorem detaches_append (new agenda : List Chore) :
    detaches (new ++ agenda) = detaches new ++ detaches agenda := filterMap_append

theorem mem_detaches : (p, c) ∈ detaches agenda ↔ .detach p c ∈ agenda := by grind [detaches]

theorem detaches_eq_nil (h : ∀ p c, .detach p c ∉ agenda) : detaches agenda = [] := by
  rw [eq_nil_iff_forall_not_mem]
  rintro ⟨p, c⟩ hm
  exact h p c (mem_detaches.1 hm)

/-- The region that may be empty, since the chore on top is to look at it. -/
def hollow : List Chore → Option RegionId
  | .quiesce r :: _ => some r
  | .settle r :: _ => some r
  | _ => none

namespace Chore

/-- Chores that are done as soon as they are planned. -/
def urgent : Chore → Bool
  | .quiesce _ | .settle _ | .prepare _ | .verify _ | .retire _ | .abort _ => true
  | _ => false

/-- Chores that can stand anywhere on the agenda. -/
def calm : Chore → Bool
  | .proceed _ _ => false
  | a => !a.urgent

theorem calm_of_not_urgent {a : Chore} (h : a.urgent = false) (hp : ∀ t n, a ≠ .proceed t n) :
    a.calm = true := by
  cases a with
  | proceed t n => exact absurd rfl (hp t n)
  | _ => simp_all [calm, urgent]

theorem urgent_of_calm {a : Chore} (h : a.calm = true) : a.urgent = false := by
  cases a <;> first | rfl | exact absurd h Bool.false_ne_true

end Chore

theorem hollow_of_calm (h : ∀ a ∈ agenda, a.calm = true) : hollow agenda = none := by
  cases agenda with
  | nil => rfl
  | cons a agenda =>
    have ha := h a mem_cons_self
    cases a <;> first | rfl | exact absurd ha Bool.false_ne_true

/-! ## The invariant -/

variable {ω : Type}

/-- The group is there and has not been killed. -/
abbrev Engine.Alive (e : Engine ω) (g : GroupId) : Prop :=
  ∃ grp, e.groups.get? g = some grp ∧ grp.killed = false

/-- The transaction has no region. -/
abbrev Engine.Unserved (e : Engine ω) (x : TxnId) : Prop :=
  ∀ {r reg}, e.regions.get? r = some reg → ¬reg.kind.Serves x

/-- What a state records of its tokens and scopes. -/
def Engine.records (e : Engine ω) :=
  (e.tokens, e.groups, e.regions, e.transactions, e.bound, e.agenda)

theorem Engine.records_eq {e e' : Engine ω} : e'.records = e.records ↔ e'.tokens = e.tokens ∧
    e'.groups = e.groups ∧ e'.regions = e.regions ∧ e'.transactions = e.transactions ∧
    e'.bound = e.bound ∧ e'.agenda = e.agenda := by
  simp only [records, Prod.mk.injEq]

/-- The theories of regions, groups and charters hold of a state. -/
structure Core (m : Charter) (e : Engine ω) (empty : Option RegionId) : Prop where
  census : Census e.tokens e.regions (detaches e.agenda) empty
  kinship : Kinship e.tokens e.groups e.agenda
  aligned : Aligned m e.tokens e.groups e.regions e.transactions
  /-- A cell that is bound is killed or about to be. -/
  bound : ∀ {c v grp}, e.bound.lookup c = some v → e.groups.get? c = some grp →
    grp.killed = true ∨ .killGroup c ∈ e.agenda
  bound_known : ∀ {c v}, e.bound.lookup c = some v → c.index < e.groups.next.index
  release : ∀ {k v}, .release k v ∈ e.agenda → Kept m e.regions k

/-- The invariant of a run. -/
structure Coherent (m : Charter) (e : Engine ω) : Prop where
  core : Core m e (hollow e.agenda)
  urgent : ∀ a ∈ e.agenda.tail, a.urgent = false
  /-- A region that is to react is empty. -/
  quiet : ∀ {r reg}, .quiesce r ∈ e.agenda → e.regions.get? r = some reg → reg.live = 0
  /-- The region of a transaction that goes on to its next stage is gone, -/
  cleared : ∀ {x}, .prepare x ∈ e.agenda ∨ .verify x ∈ e.agenda ∨ .retire x ∈ e.agenda → e.Unserved x
  /-- but still counts in the region around it. -/
  seated : ∀ {x txn}, .prepare x ∈ e.agenda ∨ .verify x ∈ e.agenda →
    e.transactions.get? x = some txn →
    ∃ c, .detach txn.continuation.region c ∈ e.agenda
  /-- A token that is to be sent on is there, and nothing before that ends it. -/
  errand : ∀ {t n}, .proceed t n ∈ e.agenda → ∃ tok, e.tokens.get? t = some tok ∧
    (e.agenda = [.proceed t n] ∨
      (∃ r reg k, e.agenda = [.quiesce r, .proceed t n] ∧ e.regions.get? r = some reg ∧
        reg.kind = .otherwise true k ∧ reg.parent = some tok.region) ∨
      ∃ r, e.agenda = [.detach tok.region r, .proceed t n])

/-! ## Moves on the core -/

namespace Engine

/-- What an accepted token does to the state. -/
theorem spawn_eq_some {e e' : Engine ω} (h : e.spawn tok = some (id, e')) :
    id = e.tokens.next ∧ e.Alive tok.group ∧
      (∃ reg, e.regions.get? tok.region = some reg ∧ reg.closed = false) ∧
      e' = { e with
        tokens := e.tokens.insert tok
        groups := e.groups.modify tok.group (Group.enrol e.tokens.next)
        regions := e.regions.modify tok.region (Region.seat e.tokens.next)
        stats := e'.stats } := by
  unfold spawn at h
  split at h
  · rename_i hok
    cases h
    simp only [groupAlive, regionOpen, Bool.and_eq_true, Option.any_eq_true,
      Bool.not_eq_true'] at hok
    exact ⟨rfl, hok.1, hok.2, rfl⟩
  · cases h

/-- A token is accepted by a group that is alive and a region that is open. -/
theorem spawn_isSome {e : Engine ω} {grp : Group} {reg : Region}
    (hg : e.groups.get? tok.group = some grp) (hk : grp.killed = false)
    (hr : e.regions.get? tok.region = some reg) (hc : reg.closed = false) :
    ∃ e', e.spawn tok = some (e.tokens.next, e') := by
  unfold spawn
  rw [if_pos (by simp [groupAlive, regionOpen, hg, hk, hr, hc])]
  exact ⟨_, rfl⟩

end Engine

theorem Kept.mono {m : Charter} {regions regions' : Store .region Region} {k : Continuation}
    (h : Kept m regions k) (hn : regions.next.index ≤ regions'.next.index) : Kept m regions' k :=
  ⟨Nat.lt_of_lt_of_le h.known hn, h.group, h.txn⟩

namespace Core

variable {m m' : Charter} {e e' : Engine ω} {empty empty' : Option RegionId} {a : Chore}
  {rest : List Chore}

/-- Only some parts of a state matter. -/
theorem congr (h : Core m e empty) (hsame : e'.records = e.records) : Core m e' empty := by
  obtain ⟨ht, hg, hr, hx, hb, ha⟩ := Engine.records_eq.1 hsame
  constructor
  · rw [ht, hr, ha]
    exact h.census
  · rw [ht, hg, ha]
    exact h.kinship
  · rw [ht, hg, hr, hx]
    exact h.aligned
  · rw [hb, hg, ha]
    exact h.bound
  · rw [hb, hg]
    exact h.bound_known
  · rw [ha, hr]
    exact h.release

/-- What is there already agrees with a longer charter too. -/
theorem extend (h : Core m e empty) (he : m.Extends m' e.groups e.regions e.transactions) :
    Core m' e empty where
  census := h.census
  kinship := h.kinship
  aligned := by
    refine h.aligned.extend he ?_ ?_ ?_
    · intro t tok ht
      obtain ⟨reg, hr, -⟩ := h.census.region_of ht
      exact Store.lt_next hr
    · intro r reg p hr hp
      exact Nat.lt_trans (h.census.older hr hp) (Store.lt_next hr)
    · obtain ⟨grp, hg, -⟩ := h.kinship.root
      exact Store.lt_next hg
  bound := h.bound
  bound_known := h.bound_known
  release := fun hm =>
    have hk := h.release hm
    ⟨hk.known, (he.group hk.known).trans hk.group, (he.txn hk.known).trans hk.txn⟩

/-- A region that is gone, or has something in it, is not empty. -/
theorem fill (h : Core m e (some r)) (hr : ∀ {reg}, e.regions.get? r = some reg → 0 < reg.live) :
    Core m e none := by
  refine { h with census := { h.census with lively := ?_ } }
  intro r' reg hr'
  rcases h.census.lively hr' with hpos | e
  · exact .inl hpos
  · cases e
    exact .inl (hr hr')

/-! ### The agenda -/

/-- A chore that has nothing to do may be dropped. -/
theorem pop (h : Core m (e.plan [a]) empty)
    (hdetach : ∀ p c, a ≠ .detach p c)
    (htoken : ∀ t, a = .killToken t → e.tokens.get? t = none)
    (hkill : ∀ g grp, a = .killGroup g → e.groups.get? g = some grp → grp.killed = true)
    (hremove : ∀ g, a = .removeGroup g → e.groups.get? g = none) : Core m e empty := by
  have hdet : detaches e.agenda = detaches (a :: e.agenda) := by
    cases a <;> first | rfl | exact absurd rfl (hdetach _ _)
  constructor
  · rw [hdet]
    exact h.census
  · exact h.kinship.pop htoken hkill hremove
  · exact h.aligned
  · intro c v grp hb hg
    refine (h.bound hb hg).elim .inl fun hm => ?_
    exact (mem_cons.1 hm).elim (fun e => .inl (hkill c grp e.symm hg)) .inr
  · exact h.bound_known
  · exact fun hm => h.release (mem_cons_of_mem _ hm)

/-- Chores may be planned that detach no region, forget no group and do not kill the root. -/
theorem plan (h : Core m e empty) (new : List Chore) (hdetach : ∀ p c, .detach p c ∉ new)
    (hremove : ∀ g, .removeGroup g ∉ new) (hroot : .killGroup rootGroup ∉ new)
    (hrelease : ∀ k v, .release k v ∈ new → Kept m e.regions k) : Core m (e.plan new) empty := by
  refine { h with census := ?_, kinship := ?_, bound := ?_, release := ?_ }
  · show Census e.tokens e.regions (detaches (new ++ e.agenda)) empty
    rw [detaches_append, detaches_eq_nil hdetach]
    exact h.census
  · exact h.kinship.push hremove hroot
  · exact fun hb hg => (h.bound hb hg).imp_right (mem_append_right _)
  · exact fun hm => (mem_append.1 hm).elim (hrelease _ _) h.release

/-- Planning to end tokens is always possible. -/
theorem plan_kills (h : Core m e empty) (ts : List TokenId) :
    Core m (e.plan (ts.map .killToken)) empty := by
  apply h.plan <;> simp

/-! ### Tokens -/

/-- A token changes but keeps its scopes. -/
theorem onToken (h : Core m e empty) (t : TokenId) {f : Token → Token}
    (hg : ∀ tok, (f tok).group = tok.group) (hr : ∀ tok, (f tok).region = tok.region)
    (hx : ∀ tok, (f tok).txn = tok.txn) : Core m (e.onToken t f) empty := by
  refine { h with
    census := h.census.onToken t hr
    kinship := h.kinship.onToken t hg
    aligned := h.aligned.mono_tokens ?_ }
  grind [Option.map_eq_some_iff, Engine.onToken]

/-- A token is added where the charter has it. -/
theorem spawn (h : Core m e empty) (hs : e.spawn tok = some (id, e'))
    (hg : m.group tok.region = tok.group) (hx : m.txn tok.region = tok.txn)
    (hh : ∀ r, empty = some r → r = tok.region ∨ empty' = some r) : Core m e' empty' := by
  obtain ⟨-, ⟨grp, hgrp, hk⟩, ⟨reg, hreg, -⟩, he'⟩ := Engine.spawn_eq_some hs
  rw [he']
  constructor
  · exact h.census.join hreg hh
  · exact h.kinship.join hgrp hk
  · refine ((h.aligned.insertToken hg hx).mono_groups ?_ (Store.next_modify ..)).mono_regions ?_
      (Store.next_modify ..)
    · intro g grp' hg'
      grind
    · intro r reg' hr'
      grind
  · have := @h.bound
    grind
  · have := @h.bound_known
    grind
  · exact fun hm => (h.release hm).mono (by simp)

/-- A token is added where the charter has it, or is refused. -/
theorem spawnReady (h : Core m e empty) (hg : m.group tok.region = tok.group)
    (hx : m.txn tok.region = tok.txn) : Core m (e.spawnReady tok) empty := by
  unfold Engine.spawnReady
  split
  · rename_i hs
    exact (h.spawn hs hg hx fun r hr => .inr hr).congr rfl
  · exact h

end Core

namespace Coherent

variable {m : Charter} {e : Engine ω} {a : Chore} {rest : List Chore}

/-- A state with nothing urgent to do. -/
theorem of_calm (h : Core m e none) (hcalm : ∀ a ∈ e.agenda, a.calm = true) : Coherent m e where
  core := by rw [hollow_of_calm hcalm]; exact h
  urgent := fun a ha => Chore.urgent_of_calm (hcalm a (mem_of_mem_tail ha))
  quiet := fun hm => absurd (hcalm _ hm) Bool.false_ne_true
  cleared := by
    rintro x (hm | hm | hm) <;> exact absurd (hcalm _ hm) Bool.false_ne_true
  seated := by
    rintro x txn (hm | hm) <;> exact absurd (hcalm _ hm) Bool.false_ne_true
  errand := fun hm => absurd (hcalm _ hm) Bool.false_ne_true

/-- A state with one urgent thing to do. -/
theorem of_urgent (h : Core m e (hollow e.agenda)) (ha : e.agenda = a :: rest)
    (hurgent : a.urgent = true) (hcalm : ∀ b ∈ rest, b.calm = true)
    (hquiet : ∀ {r reg}, a = .quiesce r → e.regions.get? r = some reg → reg.live = 0)
    (hcleared : ∀ {x}, a = .prepare x ∨ a = .verify x ∨ a = .retire x → e.Unserved x)
    (hseated : ∀ {x txn}, a = .prepare x ∨ a = .verify x → e.transactions.get? x = some txn →
      ∃ c, .detach txn.continuation.region c ∈ rest) : Coherent m e where
  core := h
  urgent := by
    intro b hb
    rw [ha] at hb
    exact Chore.urgent_of_calm (hcalm b hb)
  quiet := by
    intro r reg hm hr
    rw [ha, mem_cons] at hm
    exact hm.elim (fun e => hquiet e.symm hr) fun hm => absurd (hcalm _ hm) Bool.false_ne_true
  cleared := by
    intro x hm r reg hr
    simp only [ha, mem_cons] at hm
    refine hcleared ?_ hr
    rcases hm with (hm | hm) | (hm | hm) | (hm | hm)
    · exact .inl hm.symm
    · exact absurd (hcalm _ hm) Bool.false_ne_true
    · exact .inr (.inl hm.symm)
    · exact absurd (hcalm _ hm) Bool.false_ne_true
    · exact .inr (.inr hm.symm)
    · exact absurd (hcalm _ hm) Bool.false_ne_true
  seated := by
    intro x txn hm hx
    have htop : a = .prepare x ∨ a = .verify x := by
      simp only [ha, mem_cons] at hm
      rcases hm with (hm | hm) | (hm | hm)
      · exact .inl hm.symm
      · exact absurd (hcalm _ hm) Bool.false_ne_true
      · exact .inr hm.symm
      · exact absurd (hcalm _ hm) Bool.false_ne_true
    grind
  errand := by
    intro t n hm
    rw [ha, mem_cons] at hm
    rcases hm with hm | hm
    · rw [← hm] at hurgent
      cases hurgent
    · exact absurd (hcalm _ hm) Bool.false_ne_true

/-- A state in which a token is to be sent on. -/
theorem of_errand (h : Core m e (hollow e.agenda)) {t : TokenId} {n : Nat}
    (ht : e.tokens.get? t = some tok) (hform : e.agenda = [.proceed t n] ∨
      (∃ r reg k, e.agenda = [.quiesce r, .proceed t n] ∧ e.regions.get? r = some reg ∧
        reg.kind = .otherwise true k ∧ reg.parent = some tok.region) ∨
      ∃ r, e.agenda = [.detach tok.region r, .proceed t n])
    (hquiet : ∀ {r reg}, .quiesce r ∈ e.agenda → e.regions.get? r = some reg → reg.live = 0) :
    Coherent m e := by
  have hmem : ∀ b ∈ e.agenda, b = .proceed t n ∨ (∃ r, b = .quiesce r) ∨
      ∃ p c, b = .detach p c := by
    rcases hform with ha | ⟨r, reg, k, ha, -⟩ | ⟨r, ha⟩ <;> rw [ha] <;> simp
  refine ⟨h, ?_, hquiet, ?_, ?_, ?_⟩
  · grind [Chore.urgent]
  · rintro x (hm | hm | hm) <;> have := hmem _ hm <;> simp at this
  · rintro x txn (hm | hm) <;> have := hmem _ hm <;> simp at this
  · grind

/-- What stands below the top is calm, or sends a token on. -/
theorem rest_calm_or (h : Coherent m (e.plan [a])) :
    (∀ b ∈ e.agenda, b.calm = true) ∨ ∃ t n, .proceed t n ∈ e.agenda := by
  by_cases hp : ∃ t n, .proceed t n ∈ e.agenda
  · exact .inr hp
  · refine .inl fun b hb => Chore.calm_of_not_urgent (h.urgent b hb) ?_
    rintro t n rfl
    exact hp ⟨t, n, hb⟩

/-- What stands below the top is calm, unless a token is to be sent on after it. -/
theorem rest_calm (h : Coherent m (e.plan [a])) (hq : ∀ r, a ≠ .quiesce r)
    (hd : ∀ p c, a ≠ .detach p c) : ∀ b ∈ e.agenda, b.calm = true := by
  refine h.rest_calm_or.resolve_right fun ⟨t, n, hm⟩ => ?_
  obtain ⟨tok, -, hform⟩ := h.errand (mem_cons_of_mem _ hm)
  rcases hform with ha | ⟨r, reg, k, ha, -⟩ | ⟨r, ha⟩ <;> obtain ⟨rfl, hrest⟩ := List.cons.inj ha
  · rw [show e.agenda = [] from hrest] at hm
    cases hm
  · exact hq r rfl
  · exact hd _ _ rfl

/-- What stands below a reaction is calm, or sends on a token that has just left the region. -/
theorem rest_of_quiesce (h : Coherent m (e.plan [.quiesce r])) :
    (∀ b ∈ e.agenda, b.calm = true) ∨
      ∃ t n tok reg k, e.agenda = [.proceed t n] ∧ e.tokens.get? t = some tok ∧
        e.regions.get? r = some reg ∧ reg.kind = .otherwise true k ∧
        reg.parent = some tok.region := by
  refine h.rest_calm_or.imp_right fun ⟨t, n, hm⟩ => ?_
  obtain ⟨tok, ht, hform⟩ := h.errand (mem_cons_of_mem _ hm)
  rcases hform with ha | ⟨r, reg, k, ha, hr⟩ | ⟨r, ha⟩ <;>
    obtain ⟨e₁, hrest⟩ := List.cons.inj ha <;> cases e₁
  exact ⟨t, n, tok, reg, k, hrest, ht, hr⟩

/-- What stands below a detachment is calm, or sends on a token of the region. -/
theorem rest_of_detach (h : Coherent m (e.plan [.detach p c])) :
    (∀ b ∈ e.agenda, b.calm = true) ∨
      ∃ t n tok, e.agenda = [.proceed t n] ∧ e.tokens.get? t = some tok ∧ tok.region = p := by
  refine h.rest_calm_or.imp_right fun ⟨t, n, hm⟩ => ?_
  obtain ⟨tok, ht, hform⟩ := h.errand (mem_cons_of_mem _ hm)
  rcases hform with ha | ⟨r, reg, k, ha, -⟩ | ⟨r, ha⟩ <;>
    obtain ⟨e₁, hrest⟩ := List.cons.inj ha <;> cases e₁
  exact ⟨t, n, tok, hrest, ht, rfl⟩

end Coherent
end Orchestra
