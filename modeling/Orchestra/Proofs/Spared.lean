/-
  Spared: who survives while others go.

  `Doom` says that nobody who is about to end is saved.  Here is the converse: nobody else gets into
  danger.  A group comes to be condemned when a region has become quiescent or a transaction is over,
  and then nobody is left in it.  The crux is `Core.founder`: going up from the region of a token one
  passes the region of every group above that of the token, so that a region with nobody in it is not
  among them.  Only those who wait for a cell that goes without a value end with it.
-/
import Orchestra.Proofs.Tally

namespace Orchestra

open Engine List

variable {ω : Type} {m : Charter} {e e' : Engine ω} {host : Host ω} {a : Chore} {v : TokenId}
  {tok tok' : Token} {empty : Option RegionId} {d g : GroupId}

/-! ## Up and down -/

/-- The record under a key is that of `top`, or below it. -/
inductive Under {k : Kind} {α : Type} (s : Store k α) (parent : α → Option (Key k)) (top : Key k) :
    Key k → Prop where
  | self : Under s parent top top
  | down {id p : Key k} {a : α} (h : s.get? id = some a) (hp : parent a = some p)
    (hu : Under s parent top p) : Under s parent top id

/-- What is not the top itself is below a child of the top. -/
theorem Under.child {k : Kind} {α : Type} {s : Store k α} {parent : α → Option (Key k)}
    {top id : Key k} (h : Under s parent top id) (hne : id ≠ top) :
    ∃ c a, s.get? c = some a ∧ parent a = some top := by
  induction h with
  | self => exact absurd rfl hne
  | @down id p a ha hp hu ih =>
    by_cases hpt : p = top
    · exact ⟨id, a, ha, hpt ▸ hp⟩
    · exact ih hpt

/-- The group `d` is `g` or stands above it. -/
inductive Charter.Over (m : Charter) (d : GroupId) : GroupId → Prop where
  | self : m.Over d d
  | above {g p : GroupId} (h : m.above g = some p) (hp : m.Over d p) : m.Over d g

theorem Charter.Over.up {p : GroupId} (h : m.Over d g) (hp : m.above d = some p) : m.Over p g := by
  induction h with
  | self => exact .above hp .self
  | above habove _ ih => exact .above habove ih

/-- Going up from a region one comes by the region of every group above. -/
theorem Core.founder (h : Core m e empty) {r : RegionId} {reg : Region}
    (hr : e.regions.get? r = some reg) (hover : m.Over d (m.group r)) (hd : d ≠ rootGroup) :
    ∃ s sreg, e.regions.get? s = some sreg ∧
      Under e.regions Region.parent s r ∧ (sreg.kind = .pruning d ∨ ∃ x txn, sreg.kind.Serves x ∧
          e.transactions.get? x = some txn ∧ txn.group = d) := by
  revert hover
  refine h.census.climb hr fun r reg hr above hover => ?_
  have up : ∀ {p}, reg.parent = some p → m.Over d (m.group p) →
      ∃ s sreg, e.regions.get? s = some sreg ∧ Under e.regions Region.parent s r ∧
        (sreg.kind = .pruning d ∨ ∃ x txn, sreg.kind.Serves x ∧
          e.transactions.get? x = some txn ∧ txn.group = d) := by
    intro p hp hover
    obtain ⟨s, sreg, hs, hu, hfound⟩ := above hp hover
    exact ⟨s, sreg, hs, .down hr hp hu, hfound⟩
  cases hkind : reg.kind with
  | root =>
    rw [(h.aligned.root hr hkind).2.1] at hover
    cases hover with
    | self => exact absurd rfl hd
    | above habove =>
      rw [h.aligned.above_root] at habove
      cases habove
  | pruning c =>
    obtain ⟨⟨p, hp, -, habove⟩, hgroup, -⟩ := h.aligned.pruning hr hkind
    rw [hgroup] at hover
    cases hover with
    | self => exact ⟨r, reg, hr, .self, .inl hkind⟩
    | above habove' hover =>
      cases habove.symm.trans habove'
      exact up hp hover
  | otherwise published k =>
    obtain ⟨hp, hkept, hgroup, -⟩ := h.aligned.otherwise hr hkind
    rw [hgroup, ← hkept.group] at hover
    exact up hp hover
  | transaction x | votes x =>
    have hatomic : reg.kind.Serves x := by simp [hkind]
    obtain ⟨txn, hx, hp, hgroup, -⟩ := h.aligned.atomic hr hatomic
    obtain ⟨hkept, habove, -⟩ := h.aligned.transaction hx
    rw [hgroup] at hover
    cases hover with
    | self => exact ⟨r, reg, hr, .self, .inr ⟨x, txn, hatomic, hx, rfl⟩⟩
    | above habove' hover =>
      cases habove.symm.trans habove'
      exact up hp (hkept.group ▸ hover)

/-- In and below a region with nothing in it there is no token. -/
theorem Core.deserted (h : Core m e empty) {s : RegionId} {sreg : Region}
    (hs : e.regions.get? s = some sreg) (hlive : sreg.live = 0)
    (ht : e.tokens.get? v = some tok) : ¬Under e.regions Region.parent s tok.region := by
  intro hu
  by_cases heq : tok.region = s
  · obtain ⟨reg, hr, hmem⟩ := h.census.region_of ht
    rw [heq] at hr
    cases hs.symm.trans hr
    have hpos := h.census.live_pos_of_token hs hmem
    omega
  · obtain ⟨c, creg, hc, hp⟩ := hu.child heq
    obtain ⟨sreg', hs', hmem⟩ := h.census.parent_of hc hp
    cases hs.symm.trans hs'
    have hpos := h.census.live_pos_of_child hs hmem
    omega

/-! ## Groups that were in no danger -/

/-- A group of `e'` stood below the same group in `e`, and was killed unless it has just been.
    Nobody has come to wait for it. -/
theorem Engine.perform_group_from (he' : e.perform host a = .ok e') {grp' : Group}
    (hg' : e'.groups.get? g = some grp') : ∃ grp, e.groups.get? g = some grp ∧
      (grp'.parent = none ∨ grp'.parent = grp.parent) ∧
      (grp'.killed = true → grp.killed = true ∨ a = .killGroup g) ∧
      ∀ t ∈ grp'.kind.waiters, t ∈ grp.kind.waiters := by
  by_cases hkill : ∃ g₀, a = .killGroup g₀
  · obtain ⟨g₀, rfl⟩ := hkill
    cases performed he' with
    | dead => exact ⟨grp', hg', .inr rfl, .inl, fun _ => id⟩
    | @killGroup _ grp₀ hg₀ =>
      have hmodified : (e.groups.modify g₀ _).get? g = some grp' := hg'
      rcases Store.modified hmodified with ⟨rfl, grp, hg, rfl⟩ | ⟨-, hmodified⟩
      · cases hg₀.symm.trans hg
        refine ⟨grp₀, hg, .inr rfl, fun _ => .inr rfl, fun t ht => ?_⟩
        dsimp only [killedKind] at ht
        grind [GroupKind.waiters]
      · exact ⟨grp', hmodified, .inr rfl, .inl, fun _ => id⟩
  by_cases hforget : ∃ g₀, a = .removeGroup g₀
  · obtain ⟨g₀, rfl⟩ := hforget
    cases performed he' with
    | removed => exact ⟨grp', hg', .inr rfl, .inl, fun _ => id⟩
    | removeGroup hg₀ =>
      grind [Group.forgotten_from, Group.Kindred.parent, Group.Kindred.killed, Group.Kindred.kind]
  have hsame := perform_footing he' (fun g heq => hkill ⟨g, heq⟩) (fun g heq => hforget ⟨g, heq⟩) g
  unfold footing at hsame
  rw [hg'] at hsame
  obtain ⟨grp, hg, heq⟩ := Option.map_eq_some_iff.1 hsame.symm
  grind

/-- Nobody is left in a group that a chore newly decides to kill. -/
theorem Plans.killGroup (hc : Coherent m (e.plan [a])) {grp : Group} (h : Plans e a (.killGroup g))
    (hg : e.groups.get? g = some grp) (ht : e.tokens.get? v = some tok) (hover : m.Over g tok.group)
    : Condemned (e.plan [a]) g := by
  have hal := hc.core.aligned
  have hgroup : m.group tok.region = tok.group := (hal.token ht).1
  obtain ⟨reg, hr, -⟩ := hc.core.census.region_of ht
  rw [← hgroup] at hover
  cases h with
  | @prune r sreg _ hsreg hkind =>
    obtain ⟨⟨p, -, -, habove⟩, -, -, -, hcell⟩ := hal.pruning hsreg hkind
    have hroot : g ≠ rootGroup := by
      rintro rfl
      rw [hal.above_root] at habove
      cases habove
    obtain ⟨ws, hws⟩ := hcell grp hg
    obtain ⟨s, sreg', hs, hu, hfound | ⟨x, txn, -, hx, hxg⟩⟩ := hc.core.founder hr hover hroot
    · -- a cell has one region, and this one is empty
      obtain ⟨ws', hws'⟩ := (hal.pruning hs hfound).2.2.2.2 grp hg
      cases hws.symm.trans hws'
      exact absurd hu (hc.core.deserted hsreg (hc.quiet mem_cons_self hsreg) ht)
    · have hkind' := (hal.transaction hx).2.2.2.2 grp (hxg ▸ hg)
      rw [hws] at hkind'
      cases hkind'
  | child hg₀ hmem =>
    obtain ⟨grp', hg', hp⟩ := hc.core.kinship.child_of hg₀ hmem
    exact .under hg' hp (.planned hg₀ mem_cons_self)
  | @bury x txn hx =>
    obtain ⟨-, habove, -, -, hkind⟩ := hal.transaction hx
    have hroot : txn.group ≠ rootGroup := by
      intro heq
      rw [heq, hal.above_root] at habove
      cases habove
    obtain ⟨s, sreg, hs, -, hfound | ⟨y, ytxn, hatomic, hy, hyg⟩⟩ :=
      hc.core.founder hr hover hroot
    · obtain ⟨ws, hws⟩ := (hal.pruning hs hfound).2.2.2.2 grp hg
      have hkind := hkind grp hg
      rw [hws] at hkind
      cases hkind
    · -- the transaction is over, so its region is gone
      have hkind' := (hal.transaction hy).2.2.2.2 grp (hyg ▸ hg)
      cases (hkind grp hg).symm.trans hkind'
      exact absurd hatomic (hc.cleared (.inr (.inr mem_cons_self)) hs)
  | cancel hx hstate => exact .aborted hx hstate rfl hg

namespace Condemned

/-- A chore brings no token into danger whose group was in none. -/
theorem back (hc : Coherent m (e.plan [a])) (he' : e.perform host a = .ok e')
    (ht : e.tokens.get? v = some tok) (hover : m.Over g tok.group) (h : Condemned e' g) :
    Condemned (e.plan [a]) g := by
  obtain ⟨new, hnew, hplans⟩ := perform_plans he'
  induction h with
  | killed hg' hk' =>
    obtain ⟨grp, hg, -, hk, -⟩ := perform_group_from he' hg'
    rcases hk hk' with hk | rfl
    · exact .killed hg hk
    · exact .planned hg mem_cons_self
  | planned hg' hm' =>
    obtain ⟨grp, hg, -⟩ := perform_group_from he' hg'
    rw [hnew] at hm'
    rcases mem_append.1 hm' with hm | hm
    · exact (hplans _ hm).killGroup hc hg ht hover
    · exact .planned hg (mem_cons_of_mem _ hm)
  | @aborted x txn grp' hx' hstate' htop' hg' =>
    obtain ⟨grp, hg, -⟩ := perform_group_from he' hg'
    rw [hnew] at htop'
    cases new with
    | nil =>
      -- an abort does not wait for another chore
      have hcalm := hc.urgent (.abort x) (mem_of_mem_head? htop')
      cases hcalm
    | cons b new =>
      cases htop'
      cases hplans _ mem_cons_self with
      | @abort g₀ grp₀ _ hg₀ hkind =>
        -- it is that of the group which is just killed
        have hx : e.transactions.get? x = some txn := by
          cases performed he' with
          | dead | killGroup => exact hx'
        rw [(hc.core.aligned.txn_group hg₀ hkind).2 txn hx]
        exact .planned hg₀ mem_cons_self
  | @under g p grp' hg' hp' _ ih =>
    obtain ⟨grp, hg, hparent, -⟩ := perform_group_from he' hg'
    have hp : grp.parent = some p := by grind
    rcases hc.core.aligned.above hg with hnone | habove
    · rw [hp] at hnone
      cases hnone
    · exact .under hg hp (ih (hover.up (habove.symm.trans hp)))

end Condemned

/-! ## Tokens that were in no danger -/

/-- A chore ends no other token than the one it is to end. -/
theorem Engine.perform_kept (he' : e.perform host a = .ok e') (ht : e.tokens.get? v = some tok)
    (hend : a ≠ .killToken v) : ∃ tok', e'.tokens.get? v = some tok' := by
  cases performed he' with
  | @killToken t =>
    refine ⟨tok, ?_⟩
    show (e.tokens.remove t).get? v = _
    grind
  | @quiesce r reg =>
    obtain ⟨new, b, hgrown⟩ := quiesce_grown e r reg
    exact ⟨tok, hgrown.token ht⟩
  | prepare => exact ⟨tok, (askVotes_grown (e.openVotes _ _) ..).token ht⟩
  | release => exact ⟨tok, (spawnReady_grown ..).token ht⟩
  | @wake t | @proceed t =>
    show ∃ tok', (e.tokens.modify t _).get? v = some tok'
    rw [Store.get?_modify, ht]
    split <;> exact ⟨_, rfl⟩
  | _ => exact ⟨tok, ht⟩

/-- A chore brings no token into danger, apart from those who wait for a cell. -/
theorem Doomed.back {top : Option Chore} (hc : Coherent m (e.plan [a]))
    (hs : Sections m (e.plan [a]) top) (he' : e.perform host a = .ok e')
    (ht : e.tokens.get? v = some tok) (hwait : v ∉ e.waiting) (hgroup : tok'.group = tok.group)
    (h : Doomed e' v tok') : Doomed (e.plan [a]) v tok := by
  rcases h with hm | hcondemned
  · obtain ⟨new, hnew, hplans⟩ := perform_plans he'
    rw [hnew] at hm
    rcases mem_append.1 hm with hm | hm
    · cases hplans _ hm with
      | closed hv =>
        rw [(hs.closing mem_cons_self).1] at hv
        cases hv
      | @member g grp _ hg _ hv =>
        rcases hv with hv | hv
        · obtain ⟨tok₀, ht₀, rfl⟩ := hc.core.kinship.member_of hg hv
          cases ht.symm.trans ht₀
          exact .inr (.planned hg mem_cons_self)
        · refine absurd (Store.mem_collect.2 ⟨g, grp, hg, ?_⟩) hwait
          unfold orphans at hv
          split at hv
          · split at hv
            · rename_i hkind _
              rw [hkind]
              exact hv
            · cases hv
          · cases hv
    · exact .inl (mem_cons_of_mem _ hm)
  · rw [hgroup] at hcondemned
    exact .inr (hcondemned.back hc he' ht .self)

end Orchestra
