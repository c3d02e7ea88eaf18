/-
  Cascades: what chores do to a coherent state.

  One chore leads to the next: the last token of a region ends, the region reacts, its cell is
  killed, and so on.  Here every single chore is shown to find the records it needs and to leave
  a coherent state behind, so a cascade of any length does.
-/
import Orchestra.Proofs.Moves

namespace Orchestra

open Engine List

variable {ω : Type} {m : Charter} {e e' : Engine ω} {host : Host ω} {a : Chore} {grp : Group}
  {g : GroupId} {preg reg : Region} {c p r : RegionId} {tok : Token} {t : TokenId}
  {txn : Transaction} {x : TxnId}

/-! ## What a chore leaves behind -/

/-- Chores that the core of a state takes no notice of. -/
def Chore.slight : Chore → Bool
  | .killToken _ | .quiesce _ | .settle _ | .detach _ _ | .killGroup _ | .removeGroup _ => false
  | _ => true

namespace Coherent

/-- Below a chore that matters to nobody else stands a state with nothing urgent to do. -/
theorem rest (h : Coherent m (e.plan [a])) (ha : a.slight = true) :
    Core m e none ∧ ∀ b ∈ e.agenda, b.calm = true := by
  have hcore : Core m (e.plan [a]) none := by
    have hnone : hollow (e.plan [a]).agenda = none := by
      cases a <;> first | rfl | cases ha
    rw [← hnone]
    exact h.core
  refine ⟨hcore.pop ?_ ?_ ?_ ?_, h.rest_calm ?_ ?_⟩ <;> intros <;> grind [Chore.slight]

/-- A region from which something was taken reacts if nothing is left in it. -/
theorem of_less {n : Nat} (h : Core m e (if n = 1 then some r else none))
    (hcalm : ∀ b ∈ e.agenda, b.calm = true) (hr : e.regions.get? r = some reg)
    (hlive : reg.live = n - 1) : Coherent m (e.plan (if n = 1 then [.quiesce r] else [])) := by
  by_cases hone : n = 1
  · simp only [if_pos hone] at h ⊢
    refine of_urgent (h.plan [.quiesce r] (by simp) (by simp) (by simp) (by simp)) rfl rfl hcalm ?_
      (by simp) (by simp)
    intro r' reg' heq hr'
    cases heq
    cases hr.symm.trans hr'
    omega
  · simp only [if_neg hone] at h ⊢
    exact of_calm h hcalm

end Coherent

/-! ## Tokens -/

/-- A token ends, and its region may be left empty. -/
theorem Core.killToken (h : Core m (e.plan [.killToken t]) none) (ht : e.tokens.get? t = some tok)
    (hr : e.regions.get? tok.region = some reg) :
    Core m { e with
      tokens := e.tokens.remove t
      groups := e.groups.modify tok.group (Group.dismiss t)
      regions := e.regions.modify tok.region (Region.unseat t) }
      (if reg.live = 1 then some tok.region else none) := by
  obtain ⟨grp, hgrp, -⟩ := h.kinship.group_of ht
  have hal : Aligned m e.tokens e.groups e.regions e.transactions := h.aligned
  constructor
  · exact h.census.leave ht hr
  · exact (h.kinship.quit ht).pop (by simp) (by simp) (by simp)
  · refine ((hal.mono_tokens ?_).mono_groups ?_ (Store.next_modify ..)).mono_regions ?_
      (Store.next_modify ..)
    · intro t' tok' ht'
      grind
    · intro g grp' hg'
      grind [Engine.plan]
    · intro r reg' hr'
      grind
  · have := @h.bound
    grind [Engine.plan]
  · have := @h.bound_known
    grind [Engine.plan]
  · exact fun hm => (h.release (mem_cons_of_mem _ hm)).mono (by simp [Engine.plan])

theorem Coherent.killToken (h : Coherent m (e.plan [.killToken t]))
    (ht : e.tokens.get? t = some tok) (hr : e.regions.get? tok.region = some reg) :
    Coherent m (e.ended t tok reg) := by
  have hleft : (e.regions.modify tok.region (Region.unseat t)).get? tok.region =
      some (reg.unseat t) := by
    rw [Store.get?_modify, if_pos rfl, hr]
    rfl
  exact of_less (Core.killToken h.core ht hr) (h.rest_calm (by simp) (by simp)) hleft rfl

/-! ## Regions -/

/-- An empty region goes. -/
theorem Core.shut (h : Core m (e.plan [.quiesce r]) (some r)) (hr : e.regions.get? r = some reg)
    (hlive : reg.live = 0) : Core m (e.removed r reg) none := by
  have hpop := h.pop (by simp) (by simp) (by simp) (by simp)
  have hnew : ∀ b ∈ reg.farewell r, ∃ p, b = .detach p r := by
    grind [Option.map_eq_some_iff]
  constructor
  · have hc := hpop.census.shut hr hlive (by simp)
    show Census e.tokens (e.regions.remove r) (detaches (reg.farewell r ++ e.agenda)) none
    unfold Region.farewell
    rw [detaches_append]
    cases hp : reg.parent <;> rw [hp] at hc <;> exact hc
  · refine hpop.kinship.push ?_ ?_
    · intro g hm
      obtain ⟨p, e⟩ := hnew _ hm
      cases e
    · intro hm
      obtain ⟨p, e⟩ := hnew _ hm
      cases e
  · refine hpop.aligned.mono_regions ?_ (Store.next_remove ..)
    intro r' reg' hr'
    grind [Engine.plan]
  · exact fun hb hg => (hpop.bound hb hg).imp_right (mem_append_right _)
  · exact hpop.bound_known
  · intro k v hm
    refine (hpop.release ((mem_append.1 hm).resolve_left fun hm => ?_)).mono ?_
    · obtain ⟨p, e⟩ := hnew _ hm
      cases e
    · simp [Engine.plan]

namespace Coherent

/-- A region that goes leaves a coherent state, whatever its kind brings about. -/
theorem quiesce (h : Coherent m (e.plan [.quiesce r])) (hr : e.regions.get? r = some reg) :
    Coherent m (e.vacated r reg) := by
  unfold vacated
  have hcore : Core m (e.plan [.quiesce r]) (some r) := h.core
  have hal : Aligned m e.tokens e.groups e.regions e.transactions := hcore.aligned
  have hshut := hcore.shut hr (h.quiet mem_cons_self hr)
  have hcalm : (∀ b ∈ e.agenda, b.calm = true) → ∀ b ∈
      reg.farewell r ++ e.agenda, b.calm = true := by
    refine fun hcalm => forall_mem_append.2 ⟨fun b hb => ?_, hcalm⟩
    obtain ⟨p, -, rfl⟩ := Option.map_eq_some_iff.1 (Option.mem_toList.1 hb)
    rfl
  -- the next stage of a transaction whose region goes
  have hstage : ∀ {x b}, reg.kind.Serves x →
      b = .prepare x ∨ b = .verify x → Coherent m ((e.removed r reg).plan [b]) := by
    intro x b hkind hb
    have hcalm := hcalm (h.rest_of_quiesce.resolve_right (by grind))
    obtain ⟨txn, htxn, hparent, -⟩ := hal.atomic hr hkind
    have hx : ∀ {x'}, b = .prepare x' ∨ b = .verify x' ∨ b = .retire x' → x' = x := by grind
    refine of_urgent (a := b) ?_ rfl ?_ hcalm ?_ ?_ ?_
    · have hplan := hshut.plan [b] (by grind) (by grind) (by grind) (by grind)
      rcases hb with rfl | rfl <;> exact hplan
    · rcases hb with rfl | rfl <;> rfl
    · grind
    · intro x' hx' r' reg' hr' hkind'
      cases hx hx'
      have := @hal.sole
      grind [Engine.plan]
    · intro x' txn' hx' htxn'
      cases hx (hx'.imp_right .inl)
      cases htxn.symm.trans htxn'
      exact ⟨r, by simp [Engine.plan, hparent]⟩
  cases hkind : reg.kind with
  | root =>
    have hcalm := hcalm (h.rest_of_quiesce.resolve_right (by grind))
    exact of_calm (hshut.congr rfl) hcalm
  | pruning c =>
    have hcalm := hcalm (h.rest_of_quiesce.resolve_right (by grind))
    obtain ⟨⟨p, -, -, habove⟩, -⟩ := hal.pruning hr hkind
    -- the root has nothing above it, so it is not the cell
    have hne : rootGroup ≠ c := by
      rintro rfl
      rw [hal.above_root] at habove
      cases habove
    refine of_calm (hshut.plan [.killGroup c] (by simp) (by simp) (by simpa using hne) (by simp)) ?_
    exact forall_mem_cons.2 ⟨rfl, hcalm⟩
  | transaction x => exact hstage (.inl hkind) (.inl rfl)
  | votes x => exact hstage (.inr hkind) (.inr rfl)
  | otherwise published fallback =>
    obtain ⟨-, hkept, -⟩ := hal.otherwise hr hkind
    rcases h.rest_of_quiesce with hrest | ⟨t, n, tok, reg', k, hagenda, ht, hr', hkind', hp'⟩
    · have hcalm := hcalm hrest
      unfold react
      dsimp only
      split
      · exact of_calm hshut hcalm
      · refine of_calm (hshut.spawnReady hkept.group hkept.txn) ?_
        rw [spawnReady_agenda]
        exact hcalm
    · -- the region was left by a publication, so there is no fallback
      cases hr.symm.trans hr'
      cases hkind.symm.trans hkind'
      simp only [react, if_true]
      have hagenda' : (e.removed r reg).agenda = [.detach tok.region r, .proceed t n] := by
        simp [Engine.plan, Region.farewell, hp', hagenda]
      refine of_errand (t := t) (n := n) ?_ ht (.inr (.inr ⟨r, hagenda'⟩)) ?_
      · rw [hagenda']
        exact hshut
      · rw [hagenda']
        simp

end Coherent

/-- A region is taken off the count of its parent, which may be left empty. -/
theorem Core.detach (h : Core m (e.plan [.detach p c]) none) (hr : e.regions.get? p = some reg) :
    Core m { e with
      regions := e.regions.modify p (Region.disown c) }
      (if reg.live = 1 then some p else none) := by
  have hal : Aligned m e.tokens e.groups e.regions e.transactions := h.aligned
  constructor
  · exact h.census.detach hr
  · exact h.kinship.pop (by simp) (by simp) (by simp)
  · refine hal.mono_regions ?_ (Store.next_modify ..)
    intro r reg' hr'
    grind
  · have := @h.bound
    grind [Engine.plan]
  · exact h.bound_known
  · exact fun hm => (h.release (mem_cons_of_mem _ hm)).mono (by simp [Engine.plan])

/-- A region forgets one below it that is gone. -/
theorem Coherent.detach (h : Coherent m (e.plan [.detach p c])) (hr : e.regions.get? p = some reg) :
    Coherent m (e.detached p c reg) := by
  unfold detached
  have hcore : Core m (e.plan [.detach p c]) none := h.core
  have hdone := hcore.detach hr
  rcases h.rest_of_detach with hcalm | ⟨t, n, tok, hagenda, ht, rfl⟩
  · have hleft : (e.regions.modify p (Region.disown c)).get? p =
        some (reg.disown c) := by
      rw [Store.get?_modify, if_pos rfl, hr]
      rfl
    exact of_less hdone hcalm hleft rfl
  · -- the token to be sent on is in the region, too
    have hone : reg.live ≠ 1 := by
      obtain ⟨-, reg₁, hr₁, hmem⟩ := hcore.census.gone (mem_detaches.2 mem_cons_self)
      obtain ⟨reg₂, hr₂, hmem'⟩ := hcore.census.region_of ht
      cases hr.symm.trans hr₁
      cases hr.symm.trans hr₂
      have h₁ := length_pos_of_mem hmem
      have h₂ := length_pos_of_mem hmem'
      have := hcore.census.live_eq hr
      omega
    simp only [if_neg hone] at hdone ⊢
    have hagenda' : ({ e with regions := e.regions.modify tok.region (Region.disown c) }.plan []).agenda =
        [.proceed t n] := hagenda
    refine of_errand (t := t) (n := n) ?_ ht (.inl hagenda') ?_
    · rw [hagenda']
      exact hdone
    · rw [hagenda']
      simp

/-- A region is closed to new tokens. -/
theorem Core.close (h : Core m e none) (r : RegionId) :
    Core m (e.onRegion r fun r => { r with closed := true }) none := by
  refine { h with
    census := h.census.onRegion r (by simp) (by simp) (by simp) (by simp)
    aligned := h.aligned.mono_regions ?_ (Store.next_modify ..)
    release := fun hm => (h.release hm).mono (by simp [onRegion]) }
  intro r' reg' hr'
  grind [onRegion, Option.map_eq_some_iff]

/-! ## Groups -/

/-- A group is killed, and what follows from that is planned. -/
theorem Core.killGroup (h : Core m (e.plan [.killGroup g]) none) (hg : e.groups.get? g = some grp)
    (hk : grp.killed = false) (kills : List Chore)
    (hmembers : ∀ t ∈ grp.members, .killToken t ∈ kills)
    (hcalm : ∀ b ∈ kills, (∃ t, b = .killToken t) ∨ ∃ x, b = .abort x) :
    Core m ((e.onGroup g fun group =>
        { group with killed := true, members := [], kind := e.killedKind g grp.kind }).plan
      (kills ++ .removeGroup g :: grp.children.reverse.map .killGroup)) none := by
  have hal : Aligned m e.tokens e.groups e.regions e.transactions := h.aligned
  have hpop : ∀ {b}, b ∈ (e.plan [.killGroup g]).agenda → b ≠ .killGroup g → b ∈ e.agenda :=
    fun hb hne => (mem_cons.1 hb).resolve_left hne
  constructor
  · have hdet : detaches (kills ++ .removeGroup g :: grp.children.reverse.map .killGroup) = [] := by
      apply detaches_eq_nil
      intro p c hm
      grind
    show Census e.tokens e.regions (detaches (_ ++ e.agenda)) none
    rw [detaches_append, hdet]
    exact h.census
  · refine h.kinship.kill hg hk _ hmembers ?_ ?_
    · intro g' hm
      grind
    · intro g' hm
      grind
  · refine hal.mono_groups ?_ (Store.next_modify ..)
    intro g' grp' (hg' : (e.groups.modify g _).get? g' = some grp')
    rcases Store.of_get?_modify hg hg' with ⟨rfl, rfl⟩ | ⟨-, hg'⟩
    · refine ⟨grp, hg, .inr rfl, ?_⟩
      unfold killedKind
      split
      · exact .inr ⟨_, _, _, ‹_›, rfl⟩
      · exact .inl rfl
    · exact ⟨grp', hg', .inr rfl, .inl rfl⟩
  · intro c v grp' hb (hg' : (e.groups.modify g _).get? c = some grp')
    rcases Store.of_get?_modify hg hg' with ⟨-, rfl⟩ | ⟨hne, hg'⟩
    · exact .inl rfl
    · refine (h.bound hb hg').imp_right fun hm => mem_append_right _ (hpop hm ?_)
      simpa using hne
  · intro c v hb
    have := h.bound_known hb
    simpa [Engine.plan, onGroup] using this
  · intro k v hm
    rcases mem_append.1 hm with hm | hm
    · grind
    · exact h.release (mem_cons_of_mem _ hm)

/-- A group is forgotten. -/
theorem Core.removeGroup (h : Core m (e.plan [.removeGroup g]) none)
    (hg : e.groups.get? g = some grp) :
    Core m { e with groups := grp.forgotten g e.groups } none := by
  have hal : Aligned m e.tokens e.groups e.regions e.transactions := h.aligned
  have hget := Group.get?_forgotten g e.groups (h.kinship.children_nodup hg) (h.kinship.acyclic hg)
  have hnext := grp.next_forgotten g e.groups
  refine ⟨h.census, h.kinship.forget hg hget, hal.mono_groups ?_ hnext, ?_, ?_, ?_⟩
  · grind [Group.forgotten_from]
  · intro c v grp' hb hg'
    obtain ⟨-, old, hold, hkin⟩ := Group.forgotten_from hg'
    rw [hkin.killed]
    exact (h.bound hb hold).imp_right fun hm => (mem_cons.1 hm).resolve_left (by simp)
  · intro c v hb
    rw [hnext]
    exact h.bound_known hb
  · exact fun hm => h.release (mem_cons_of_mem _ hm)

namespace Coherent

/-- A group that is killed leaves its members and the groups below it to chores. -/
theorem killGroup (h : Coherent m (e.plan [.killGroup g])) (hg : e.groups.get? g = some grp)
    (hk : grp.killed = false) :
    Coherent m (e.condemned g grp) := by
  unfold condemned
  have hcalm := h.rest_calm (by simp) (by simp)
  have hkills : ∀ b ∈ (grp.members ++ e.orphans g grp.kind).map Chore.killToken,
      ∃ t, b = .killToken t := by
    intro b hb
    obtain ⟨t, -, rfl⟩ := mem_map.1 hb
    exact ⟨t, rfl⟩
  have hdone := Core.killGroup h.core hg hk
    (abortFor grp.kind ++ (grp.members ++ e.orphans g grp.kind).map .killToken)
    (by grind)
    (by
      intro b hb
      rcases mem_append.1 hb with hb | hb
      · unfold abortFor at hb
        grind
      · exact .inl (hkills b hb))
  have hrest : ∀ b ∈ (grp.members ++ e.orphans g grp.kind).map Chore.killToken ++
      (.removeGroup g :: grp.children.reverse.map .killGroup) ++ e.agenda, b.calm = true := by
    refine forall_mem_append.2 ⟨forall_mem_append.2 ⟨?_, ?_⟩, hcalm⟩
    · intro b hb
      obtain ⟨t, rfl⟩ := hkills b hb
      rfl
    · refine forall_mem_cons.2 ⟨rfl, fun b hb => ?_⟩
      obtain ⟨c, -, rfl⟩ := mem_map.1 hb
      rfl
  cases hkind : grp.kind with
  | transaction x =>
    rw [hkind] at hdone hrest
    simp only [abortFor] at hdone ⊢
    exact of_urgent hdone rfl rfl hrest (by simp) (by simp) (by simp)
  | root | cell ws r =>
    rw [hkind] at hdone hrest
    simp only [abortFor, nil_append] at hdone ⊢
    exact of_calm hdone hrest

end Coherent

/-! ## Transactions -/

namespace Core

/-- A region is founded below another. -/
theorem newRegion (h : Core m e none) {kind : RegionKind} (hp : e.regions.get? p = some preg)
    (hal : Aligned m e.tokens e.groups (e.regions.insert { parent := some p, kind })
      e.transactions) :
    Core m { e with
      regions := (e.regions.insert { parent := some p, kind }).modify p (Region.adopt e.regions.next) }
      (some e.regions.next) where
  census := h.census.grow hp kind
  kinship := h.kinship
  aligned := by grind [Aligned.mono_regions]
  bound := h.bound
  bound_known := h.bound_known
  release := fun hm => (h.release hm).mono (by simp)

/-- A transaction changes but keeps its scopes. -/
theorem onTransaction {empty : Option RegionId} (h : Core m e empty) (x : TxnId)
    {f : Transaction → Transaction}
    (hf : ∀ txn, (f txn).scope = txn.scope ∧ (f txn).parent = txn.parent ∧
      (f txn).group = txn.group ∧ (f txn).continuation = txn.continuation) :
    Core m (e.onTransaction x f) empty := by
  refine { h with aligned := h.aligned.mono_transactions ?_ ?_ (Store.next_modify ..) }
  · intro x' txn' (hx' : (e.transactions.modify x f).get? x' = some txn')
    rcases Store.modified hx' with ⟨-, txn, hx, rfl⟩ | ⟨-, hx'⟩
    · exact ⟨txn, hx, hf txn⟩
    · exact ⟨txn', hx', rfl, rfl, rfl, rfl⟩
  · intro x' txn r reg hx _ _
    show ∃ txn', (e.transactions.modify x f).get? x' = some txn'
    grind

end Core

/-- A longer charter for a state with one more region. -/
theorem Charter.extends_withRegion (m : Charter) (groups : Store .group Group)
    (regions : Store .region Region) (transactions : Store .transaction Transaction)
    (group : GroupId) (txn : Option TxnId) (way : Nat × Exit) :
    m.Extends (m.withRegion regions.next group txn way) groups regions transactions := by
  have hne : ∀ {r : RegionId}, r.index < regions.next.index → r ≠ regions.next := by
    rintro r hr rfl
    exact Nat.lt_irrefl _ hr
  exact ⟨fun hr => if_neg (hne hr), fun hr => if_neg (hne hr), fun hr => if_neg (hne hr),
    fun _ => rfl, fun _ => rfl⟩

/-- The charter of a state in which a transaction has a region for its votes. -/
def Charter.withVotes (m : Charter) (e : Engine ω) (x : TxnId) (txn : Transaction) : Charter :=
  m.withRegion e.regions.next txn.group (some x) (0, .publish)

namespace Core

theorem openVotes (h : Core m e none) (hx : e.transactions.get? x = some txn)
    (hp : e.regions.get? txn.continuation.region = some preg)
    (hnone : e.Unserved x) :
    Core (m.withVotes e x txn) (e.openVotes x txn) (some e.regions.next) := by
  have hext := m.extends_withRegion e.groups e.regions e.transactions txn.group (some x) (0, .publish)
  have hready := (h.extend hext).onTransaction x
    (f := fun txn => { txn with state := .readying }) (by simp)
  refine hready.newRegion hp ?_
  have hx' : (e.onTransaction x fun txn => { txn with state := .readying }).transactions.get? x =
      some { txn with state := .readying } := by
    simp [Engine.onTransaction, Store.get?_modify, hx]
  exact hready.aligned.insertVotes hx' rfl hnone (if_pos rfl) (if_pos rfl) (if_pos rfl)

theorem askVotes (h : Core m e (some r)) (hgroup : m.group r = txn.group) (htxn : m.txn r = some x)
    (cohorts : List CohortId) :
    Core m (Engine.askVotes host txn.scope (txn.vote x r) e cohorts) (some r) := by
  refine askVotes_induct (P := fun e => Core m e (some r)) ?_ h cohorts
  intro e₁ e₂ id c h₁ hs
  exact (h₁.spawn hs hgroup htxn fun _ hr => .inr hr).congr rfl

end Core

theorem Charter.Extends.refl (m : Charter) (groups : Store .group Group)
    (regions : Store .region Region) (transactions : Store .transaction Transaction) :
    m.Extends m groups regions transactions :=
  ⟨fun _ => rfl, fun _ => rfl, fun _ => rfl, fun _ => rfl, fun _ => rfl⟩

namespace Coherent

/-- A transaction whose region is gone may be retired. -/
theorem planRetire (h : Core m e none) (hcalm : ∀ b ∈ e.agenda, b.calm = true)
    (hnone : e.Unserved x) (releases : List Chore)
    (hreleases : ∀ b ∈ releases, ∃ k v, b = .release k v ∧ Kept m e.regions k) :
    Coherent m (e.plan (.retire x :: releases)) := by
  have hnew : ∀ b ∈ Chore.retire x :: releases, b = .retire x ∨
      ∃ k v, b = .release k v ∧ Kept m e.regions k := fun b hb =>
    (mem_cons.1 hb).imp_right (hreleases b)
  refine of_urgent (h.plan _ ?_ ?_ ?_ ?_) rfl rfl ?_ (by simp) ?_ (by simp)
  · intro p c hm
    have := hnew _ hm
    grind
  · intro g hm
    have := hnew _ hm
    grind
  · intro hm
    have := hnew _ hm
    grind
  · intro k v hm
    have := hnew _ hm
    grind
  · refine forall_mem_append.2 ⟨?_, hcalm⟩
    intro b hb
    obtain ⟨k, v, rfl, -⟩ := hreleases b hb
    rfl
  · intro x' hx'
    simp only [reduceCtorEq, Chore.retire.injEq, false_or] at hx'
    subst hx'
    exact hnone

theorem prepare (h : Coherent m (e.plan [.prepare x])) (hx : e.transactions.get? x = some txn)
    (hp : e.regions.get? txn.continuation.region = some preg) :
    Coherent (m.withVotes e x txn) (e.polled host x txn) := by
  obtain ⟨hcore, hcalm⟩ := h.rest rfl
  have hopen := hcore.openVotes hx hp (h.cleared (.inl mem_cons_self))
  have hasked : Core _ (Engine.askVotes host txn.scope (txn.vote x e.regions.next) (e.openVotes x txn)
      txn.cohorts) _ := hopen.askVotes (if_pos rfl) (if_pos rfl) txn.cohorts
  refine of_urgent (hasked.plan [.settle e.regions.next] (by simp) (by simp) (by simp) (by simp))
    rfl rfl ?_ (by simp) (by simp) (by simp)
  rw [askVotes_agenda]
  exact hcalm

theorem verify (h : Coherent m (e.plan [.verify x])) (hx : e.transactions.get? x = some txn) :
    Coherent m (e.concluded host x txn) := by
  obtain ⟨hcore, hcalm⟩ := h.rest rfl
  have hdone := hcore.onTransaction x
    (f := fun txn => { txn with state := .done, publications := [] }) (by simp)
  have hcommitted : Core m (e.committed host x txn) none := by
    unfold committed
    cases txn.parent with
    | none => exact hdone.congr rfl
    | some p =>
      have hmerged := hdone.onTransaction p (f := fun p => p.enlist txn.cohorts)
        (by simp [Transaction.enlist])
      exact hmerged.congr rfl
  refine planRetire hcommitted hcalm (h.cleared (.inr (.inl mem_cons_self))) _ fun b hb => ?_
  obtain ⟨v, -, rfl⟩ := mem_map.1 hb
  exact ⟨_, v, rfl, (hcore.aligned.transaction hx).1⟩

theorem retire (h : Coherent m (e.plan [.retire x])) (hx : e.transactions.get? x = some txn) :
    Coherent m (e.retiring x txn) := by
  obtain ⟨hcore, hcalm⟩ := h.rest rfl
  have hnone : e.Unserved x :=
    h.cleared (.inr (.inr mem_cons_self))
  have hgone : Core m { e with transactions := e.transactions.remove x } none := by
    refine { hcore with aligned := hcore.aligned.mono_transactions ?_ ?_ (Store.next_remove ..) }
    · intro x' txn' hx'
      grind
    · intro x' txn' r reg hx' hr hkind
      have := @hnone r reg hr
      grind
  have hroot := hcore.aligned.group_ne_root hx
  refine of_calm (hgone.plan [.killGroup txn.group] (by simp) (by simp) (by simpa using hroot)
    (by simp)) ?_
  exact forall_mem_cons.2 ⟨rfl, hcalm⟩

theorem abort (h : Coherent m (e.plan [.abort x])) (hx : e.transactions.get? x = some txn) :
    Coherent m (e.rescinded x txn) := by
  obtain ⟨hcore, hcalm⟩ := h.rest rfl
  have haborted := hcore.onTransaction x
    (f := fun txn => { txn with state := .aborted, publications := [] }) (by simp)
  have hroot := hcore.aligned.group_ne_root hx
  have hplan := haborted.plan
    (.killGroup txn.group :: txn.cohorts.map fun c => .rollback c txn.scope)
    (by simp) (by simp) (by simpa using hroot) (by simp)
  refine of_calm (hplan.congr rfl) ?_
  refine forall_mem_cons.2 ⟨rfl, forall_mem_append.2 ⟨?_, hcalm⟩⟩
  intro b hb
  obtain ⟨c, -, rfl⟩ := mem_map.1 hb
  rfl

/-! ## All chores -/

/-- Every chore leaves a coherent state behind. -/
theorem performed (h : Coherent m (e.plan [a])) (hp : Performed host e a e') :
    ∃ m', m.Extends m' e.groups e.regions e.transactions ∧ Coherent m' e' := by
  -- all chores but one found no region
  have same : Coherent m e' →
      ∃ m', m.Extends m' e.groups e.regions e.transactions ∧ Coherent m' e' :=
    fun hc => ⟨m, .refl .., hc⟩
  -- most leave nothing urgent to do
  have calm : a.slight = true → (Core m e none → Core m e' none) → e'.agenda = e.agenda →
      ∃ m', m.Extends m' e.groups e.regions e.transactions ∧ Coherent m' e' := by
    grind [rest, of_calm]
  cases hp with
  | gone ht =>
    have hcore : Core m (e.plan [.killToken _]) none := h.core
    refine same (of_calm (hcore.pop (by simp) ?_ (by simp) (by simp)) (h.rest_calm (by simp) (by simp)))
    intro t heq
    cases heq
    exact ht
  | killToken ht hr => exact same (h.killToken ht hr)
  | quiesced hr =>
    have hcore : Core m (e.plan [.quiesce _]) (some _) := h.core
    have hcalm := h.rest_of_quiesce.resolve_right (by grind)
    refine same (of_calm (Core.fill (hcore.pop (by simp) (by simp) (by simp) (by simp)) ?_) hcalm)
    intro reg hr'
    rw [hr] at hr'
    cases hr'
  | quiesce hr => exact same (h.quiesce hr)
  | settled hr =>
    have hcore : Core m (e.plan [.settle _]) (some _) := h.core
    have hfull := (hcore.pop (by simp) (by simp) (by simp) (by simp)).fill fun hr' =>
      Nat.pos_of_ne_zero (hr _ hr')
    exact same (of_calm hfull (h.rest_calm (by simp) (by simp)))
  | @settle r reg hr hlive =>
    have hcore : Core m (e.plan [.settle r]) (some r) := h.core
    have hpop := hcore.pop (by simp) (by simp) (by simp) (by simp)
    refine same (of_urgent (hpop.plan [.quiesce r] (by simp) (by simp) (by simp) (by simp)) rfl rfl
      (h.rest_calm (by simp) (by simp)) ?_ (by simp) (by simp))
    intro r' reg' heq hr'
    cases heq
    cases hr.symm.trans hr'
    exact hlive
  | detached hp =>
    have hcore : Core m (e.plan [.detach _ _]) none := h.core
    obtain ⟨-, reg, hr, -⟩ := hcore.census.gone (mem_detaches.2 mem_cons_self)
    cases hr.symm.trans hp
  | detach hr => exact same (h.detach hr)
  | closed =>
    obtain ⟨hcore, hcalm⟩ := h.rest rfl
    refine same (of_calm (hcore.plan_kills _) (forall_mem_append.2 ⟨?_, hcalm⟩))
    intro b hb
    obtain ⟨t, -, rfl⟩ := mem_map.1 hb
    rfl
  | closeNone =>
    obtain ⟨hcore, hcalm⟩ := h.rest rfl
    refine same (of_calm (hcore.plan _ (by simp) (by simp) (by simp) (by simp)) ?_)
    exact forall_mem_cons.2 ⟨rfl, hcalm⟩
  | @close r =>
    obtain ⟨hcore, hcalm⟩ := h.rest rfl
    refine same (of_calm ((hcore.close r).plan _ (by simp) (by simp) (by simp) (by simp)) ?_)
    exact forall_mem_cons.2 ⟨rfl, hcalm⟩
  | dead hg =>
    have hcore : Core m (e.plan [.killGroup _]) none := h.core
    refine same (of_calm (hcore.pop (by simp) (by simp) ?_ (by simp)) (h.rest_calm (by simp) (by simp)))
    intro g grp heq hg'
    cases heq
    exact hg grp hg'
  | killGroup hg hk => exact same (h.killGroup hg hk)
  | removed hg =>
    have hcore : Core m (e.plan [.removeGroup _]) none := h.core
    refine same (of_calm (hcore.pop (by simp) (by simp) (by simp) ?_) (h.rest_calm (by simp) (by simp)))
    intro g heq
    cases heq
    exact hg
  | removeGroup hg =>
    exact same (of_calm (Core.removeGroup h.core hg) (h.rest_calm (by simp) (by simp)))
  | asleep | unprepared | unverified | retired | abortLate => exact calm rfl id rfl
  | rollback | enqueue => exact calm rfl (fun hcore => hcore.congr rfl) rfl
  | @wake t | @proceed t =>
    refine calm rfl (fun hcore => Core.congr (hcore.onToken t ?_ ?_ ?_) rfl) rfl <;>
      exact fun _ => rfl
  | prepareLate =>
    obtain ⟨hcore, hcalm⟩ := h.rest rfl
    exact same (planRetire hcore hcalm (h.cleared (.inl mem_cons_self)) [] (by simp))
  | prepare hx _ hp => exact ⟨_, m.extends_withRegion .., h.prepare hx hp⟩
  | verifyLate =>
    obtain ⟨hcore, hcalm⟩ := h.rest rfl
    exact same (planRetire hcore hcalm (h.cleared (.inr (.inl mem_cons_self))) [] (by simp))
  | verify hx => exact same (h.verify hx)
  | retire hx => exact same (h.retire hx)
  | release =>
    have hkept := h.core.release mem_cons_self
    exact calm rfl (fun hcore => hcore.spawnReady hkept.group hkept.txn) spawnReady_agenda
  | abort hx => exact same (h.abort hx)

/-- Every chore finds the records it needs. -/
theorem exists_perform (host : Host ω) (h : Coherent m (e.plan [a])) :
    ∃ e', e.perform host a = .ok e' := by
  cases a with
  | killToken t =>
    show ∃ e', e.killToken t = .ok e'
    cases ht : e.tokens.get? t with
    | none => exact ⟨e, by simp [Engine.killToken, ht]⟩
    | some tok =>
      obtain ⟨reg, hr, hmem⟩ := h.core.census.region_of ht
      exact ⟨_, killToken_eq ht hr hmem (h.core.census.live_pos_of_token hr hmem)⟩
  | detach p c =>
    obtain ⟨-, reg, hr, hmem⟩ := h.core.census.gone (mem_detaches.2 mem_cons_self)
    exact ⟨_, detach_eq hr (h.core.census.live_pos_of_child hr hmem)⟩
  | prepare x =>
    show ∃ e', e.prepare host x = .ok e'
    cases hx : e.transactions.get? x with
    | none => exact ⟨e, by simp [Engine.prepare, hx]⟩
    | some txn =>
      by_cases hstate : txn.state = .running
      · -- the region around the transaction still counts the region that is gone
        obtain ⟨c, hc⟩ := h.seated (.inl mem_cons_self) hx
        obtain ⟨-, preg, hp, -⟩ := h.core.census.gone (mem_detaches.2 hc)
        exact ⟨_, prepare_eq hx hstate hp⟩
      · exact ⟨e.plan [.retire x], by simp [Engine.prepare, hx, hstate]⟩
  | proceed t n =>
    obtain ⟨tok, ht, -⟩ := h.errand mem_cons_self
    exact ⟨_, if_pos (Store.contains_iff.2 ⟨tok, ht⟩)⟩
  | _ => exact ⟨_, rfl⟩

/-- Every chore finds the records it needs and leaves a coherent state behind. -/
theorem perform (host : Host ω) (h : Coherent m (e.plan [a])) :
    ∃ m' e', e.perform host a = .ok e' ∧
      m.Extends m' e.groups e.regions e.transactions ∧ Coherent m' e' := by
  obtain ⟨e', he'⟩ := h.exists_perform host
  obtain ⟨m', hext, hc⟩ := h.performed (Engine.performed he')
  exact ⟨m', e', he', hext, hc⟩

end Coherent
end Orchestra
