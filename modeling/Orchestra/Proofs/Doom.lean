/-
  Doom: who is about to end.

  Between the moment at which a group is to be killed and the moment at which it is gone, its
  tokens are still there, and what is said of tokens in general need not hold of them.  A group is
  CONDEMNED if it is killed, if the agenda says that it will be, or if the group above it is
  condemned.  A token is DOOMED if it is to be ended or its group is condemned.  Neither is ever
  taken back (`Doomed.perform`), and in a state with nothing to do nobody is (`Doomed.busy`).
-/
import Orchestra.Proofs.Stages

namespace Orchestra

open Engine List

variable {ω : Type} {m : Charter} {e e' e'' : Engine ω} {host : Host ω} {a : Chore} {g : GroupId}
  {f : Group → Group} {g₀ : GroupId}

/-! ## Chores on top of others -/

/-- What doing the chore `a` may leave to do. -/
inductive Plans (e : Engine ω) : (a : Chore) → Chore → Prop where
  | quiesce {a : Chore} (r : RegionId) : Plans e a (.quiesce r)
  | detach {r : RegionId} (p : RegionId) : Plans e (.quiesce r) (.detach p r)
  | prune {r : RegionId} {reg : Region} {c : GroupId} (hr : e.regions.get? r = some reg)
    (hkind : reg.kind = .pruning c) : Plans e (.quiesce r) (.killGroup c)
  | prepare {r : RegionId} {reg : Region} {x : TxnId} (hr : e.regions.get? r = some reg)
    (hkind : reg.kind = .transaction x) : Plans e (.quiesce r) (.prepare x)
  | verify {r : RegionId} {reg : Region} {x : TxnId} (hr : e.regions.get? r = some reg)
    (hkind : reg.kind = .votes x) : Plans e (.quiesce r) (.verify x)
  | close {pending pending' : List RegionId} {doomed doomed' : List TokenId} :
    Plans e (.closeRegions pending doomed) (.closeRegions pending' doomed')
  | closed {doomed : List TokenId} {t : TokenId} (ht : t ∈ doomed) :
    Plans e (.closeRegions [] doomed) (.killToken t)
  | member {g : GroupId} {grp : Group} {t : TokenId} (hg : e.groups.get? g = some grp)
    (hk : grp.killed = false) (ht : t ∈ grp.members ∨ t ∈ e.orphans g grp.kind) :
    Plans e (.killGroup g) (.killToken t)
  | abort {g : GroupId} {grp : Group} {x : TxnId} (hg : e.groups.get? g = some grp)
    (hkind : grp.kind = .transaction x) : Plans e (.killGroup g) (.abort x)
  | forget {g : GroupId} : Plans e (.killGroup g) (.removeGroup g)
  | child {g c : GroupId} {grp : Group} (hg : e.groups.get? g = some grp)
    (hc : c ∈ grp.children) : Plans e (.killGroup g) (.killGroup c)
  | settle {x : TxnId} : Plans e (.prepare x) (.settle e.regions.next)
  | late {x : TxnId} {txn : Transaction} (hx : e.transactions.get? x = some txn)
    (hstate : txn.state ≠ .running) : Plans e (.prepare x) (.retire x)
  | retire {x : TxnId} : Plans e (.verify x) (.retire x)
  | release {x : TxnId} (k : Continuation) (v : Value) : Plans e (.verify x) (.release k v)
  | bury {x : TxnId} {txn : Transaction} (hx : e.transactions.get? x = some txn) :
    Plans e (.retire x) (.killGroup txn.group)
  | cancel {x : TxnId} {txn : Transaction} (hx : e.transactions.get? x = some txn)
    (hstate : txn.state = .running ∨ txn.state = .readying) :
    Plans e (.abort x) (.killGroup txn.group)
  | rollback {x : TxnId} {txn : Transaction} (hx : e.transactions.get? x = some txn) (c : CohortId) :
    Plans e (.abort x) (.rollback c txn.scope)

/-- What a chore leaves to do is put on top of the agenda. -/
theorem Engine.perform_plans (he' : e.perform host a = .ok e') :
    ∃ new, e'.agenda = new ++ e.agenda ∧ ∀ b ∈ new, Plans e a b := by
  cases performed he' with
  | gone | quiesced | settled | detached | dead | removed | removeGroup | asleep | wake | unprepared
  | unverified | retired | abortLate | rollback | proceed | enqueue => exact ⟨[], rfl, by simp⟩
  | release => exact ⟨[], spawnReady_agenda, by simp⟩
  | killToken | detach =>
    refine ⟨_, rfl, fun b hb => ?_⟩
    split at hb
    · cases mem_singleton.1 hb
      exact .quiesce _
    · cases hb
  | settle => exact ⟨_, rfl, by simpa using .quiesce _⟩
  | @quiesce r reg hr =>
    have hdetach : ∀ b ∈ reg.farewell r, Plans e (.quiesce r) b := by
      intro b hb
      obtain ⟨p, -, rfl⟩ := Option.map_eq_some_iff.1 (Option.mem_toList.1 hb)
      exact .detach p
    unfold vacated react
    cases hkind : reg.kind with
    | root => exact ⟨_, rfl, hdetach⟩
    | pruning c =>
      refine ⟨.killGroup c :: _, rfl, forall_mem_cons.2 ⟨.prune hr hkind, hdetach⟩⟩
    | otherwise published k =>
      dsimp only
      split
      · exact ⟨_, rfl, hdetach⟩
      · exact ⟨_, spawnReady_agenda, hdetach⟩
    | transaction x =>
      refine ⟨.prepare x :: _, rfl, forall_mem_cons.2 ⟨.prepare hr hkind, hdetach⟩⟩
    | votes x =>
      refine ⟨.verify x :: _, rfl, forall_mem_cons.2 ⟨.verify hr hkind, hdetach⟩⟩
  | closed =>
    refine ⟨_, rfl, fun b hb => ?_⟩
    obtain ⟨t, ht, rfl⟩ := mem_map.1 hb
    exact .closed ht
  | closeNone | close => exact ⟨_, rfl, by simpa using .close⟩
  | @killGroup g grp hg hk =>
    refine ⟨_, rfl, fun b hb => ?_⟩
    rcases mem_append.1 hb with hb | hb
    · rcases mem_append.1 hb with hb | hb
      · unfold abortFor at hb
        split at hb
        · cases mem_singleton.1 hb
          exact .abort hg ‹_›
        · cases hb
      · obtain ⟨t, ht, rfl⟩ := mem_map.1 hb
        exact .member hg hk (mem_append.1 ht)
    · rcases mem_cons.1 hb with rfl | hb
      · exact .forget
      · obtain ⟨c, hc, rfl⟩ := mem_map.1 hb
        exact .child hg (mem_reverse.1 hc)
  | prepareLate hx hstate => exact ⟨_, rfl, by simpa using .late hx hstate⟩
  | prepare =>
    refine ⟨[_], congrArg (_ :: ·) (askVotes_agenda (e := e.openVotes _ _) _), ?_⟩
    simpa using .settle
  | verifyLate => exact ⟨_, rfl, by simpa using .retire⟩
  | verify =>
    refine ⟨_, rfl, forall_mem_cons.2 ⟨.retire, fun b hb => ?_⟩⟩
    obtain ⟨v, -, rfl⟩ := mem_map.1 hb
    exact .release _ v
  | retire hx => exact ⟨_, rfl, by simpa using .bury hx⟩
  | abort hx hstate =>
    refine ⟨_, rfl, forall_mem_cons.2 ⟨.cancel hx hstate, fun b hb => ?_⟩⟩
    obtain ⟨c, -, rfl⟩ := mem_map.1 hb
    exact .rollback hx c

/-! ## Tokens that were there before -/

section tokens

variable {v : TokenId} {tok' : Token}

/-- A chore changes a token only by waking it or by sending it on. -/
theorem Engine.perform_old (he' : e.perform host a = .ok e') (hv : v.index < e.tokens.next.index)
    (ht' : e'.tokens.get? v = some tok') :
    e.tokens.get? v = some tok' ∨ ∃ tok, e.tokens.get? v = some tok ∧
      (a = .wake v ∧ tok' = tok.woken ∨
        ∃ n, a = .proceed v n ∧ tok' = { tok with node := n }) := by
  cases performed he' with
  | killToken =>
    have hremoved : (e.tokens.remove _).get? v = some tok' := ht'
    obtain ⟨-, hremoved⟩ := Store.of_get?_remove hremoved
    exact .inl hremoved
  | quiesce =>
    obtain ⟨_, _, hgrown⟩ := e.quiesce_grown _ _
    exact .inl ((hgrown.old hv).symm.trans ht')
  | prepare => exact .inl (((askVotes_grown (e.openVotes _ _) ..).old hv).symm.trans ht')
  | release => exact .inl (((spawnReady_grown ..).old hv).symm.trans ht')
  | wake =>
    have hwoken : (e.tokens.modify _ _).get? v = some tok' := ht'
    grind
  | proceed =>
    have hsent : (e.tokens.modify _ _).get? v = some tok' := ht'
    grind
  | _ => exact .inl ht'

/-- Keys of tokens are not given back. -/
theorem Engine.perform_next (he' : e.perform host a = .ok e') :
    e.tokens.next.index ≤ e'.tokens.next.index := by
  cases performed he' with
  | killToken => exact Nat.le_of_eq (congrArg Key.index (Store.next_remove ..).symm)
  | quiesce =>
    obtain ⟨_, _, hgrown⟩ := e.quiesce_grown _ _
    exact hgrown.next_token
  | prepare => exact (askVotes_grown (e.openVotes _ _) ..).next_token
  | release => exact (spawnReady_grown ..).next_token
  | wake | proceed => exact Nat.le_of_eq (congrArg Key.index (Store.next_modify ..).symm)
  | _ => exact Nat.le_refl _

end tokens

/-! ## Groups and their parents -/

namespace Engine

/-- What stands above a group, whether it is killed, and what it is for. -/
def footing (e : Engine ω) (g : GroupId) : Option (Option GroupId × Bool × GroupKind) :=
  (e.groups.get? g).map fun grp => (grp.parent, grp.killed, grp.kind)

theorem footing_of_modify (h : e'.groups = e.groups.modify g₀ f)
    (hf : ∀ grp, (f grp).parent = grp.parent ∧ (f grp).killed = grp.killed ∧
      (f grp).kind = grp.kind) (g : GroupId) : e'.footing g = e.footing g := by
  grind [Store.map_get?_modify, footing]

theorem Grown.footing (h : e.Grown e') (g : GroupId) : e'.footing g = e.footing g := by
  have hsame := congrArg (Option.map fun grp : Group => (grp.parent, grp.killed, grp.kind)) (h.groups g)
  rw [Option.map_map, Option.map_map] at hsame
  exact hsame

/-- Only killing and forgetting a group changes where groups stand. -/
theorem perform_footing (he' : e.perform host a = .ok e') (hkill : ∀ g, a ≠ .killGroup g)
    (hforget : ∀ g, a ≠ .removeGroup g) (g : GroupId) : e'.footing g = e.footing g := by
  cases performed he' with
  | killToken =>
    refine footing_of_modify rfl ?_ g
    exact fun _ => ⟨rfl, rfl, rfl⟩
  | quiesce =>
    obtain ⟨_, _, hgrown⟩ := e.quiesce_grown _ _
    exact hgrown.footing g
  | prepare => exact (askVotes_grown (e.openVotes _ _) ..).footing g
  | release => exact (spawnReady_grown ..).footing g
  | killGroup => exact absurd rfl (hkill _)
  | removeGroup => exact absurd rfl (hforget _)
  | _ => rfl

end Engine

/-! ## Condemned groups -/

/-- A group that is about to go. -/
inductive Condemned (e : Engine ω) : GroupId → Prop where
  | killed {g : GroupId} {grp : Group} (hg : e.groups.get? g = some grp) (hk : grp.killed = true) :
    Condemned e g
  | planned {g : GroupId} {grp : Group} (hg : e.groups.get? g = some grp)
    (hm : .killGroup g ∈ e.agenda) : Condemned e g
  /-- Aborting a transaction starts with its group. -/
  | aborted {x : TxnId} {txn : Transaction} {grp : Group} (hx : e.transactions.get? x = some txn)
    (hstate : txn.state = .running ∨ txn.state = .readying)
    (htop : e.agenda.head? = some (.abort x)) (hg : e.groups.get? txn.group = some grp) :
    Condemned e txn.group
  | under {g p : GroupId} {grp : Group} (hg : e.groups.get? g = some grp)
    (hp : grp.parent = some p) (h : Condemned e p) : Condemned e g

/-- The groups of `e` are all there in `e'`, below the same ones, and stay killed if they were. -/
def Engine.Keeps (e e' : Engine ω) : Prop :=
  ∀ ⦃g grp⦄, e.groups.get? g = some grp → ∃ grp', e'.groups.get? g = some grp' ∧
    grp'.parent = grp.parent ∧ (grp.killed = true → grp'.killed = true)

namespace Engine.Keeps

theorem of_footing (h : ∀ g, e'.footing g = e.footing g) : e.Keeps e' := by
  intro g grp hg
  have hsame := h g
  grind [Option.map_eq_some_iff, footing]

theorem of_eq (h : e'.groups = e.groups) : e.Keeps e' := fun _ _ hg => ⟨_, h ▸ hg, rfl, id⟩

theorem of_modify (h : e'.groups = e.groups.modify g f) (hp : ∀ grp, (f grp).parent = grp.parent)
    (hk : ∀ grp, grp.killed = true → (f grp).killed = true) : e.Keeps e' := by
  intro g' grp hg'
  grind

end Engine.Keeps

namespace Condemned

theorem exists_group (h : Condemned e g) : ∃ grp, e.groups.get? g = some grp := by
  cases h with
  | killed hg | planned hg | aborted _ _ _ hg | under hg => exact ⟨_, hg⟩

/-- A group stays condemned if what condemns it does. -/
theorem mono (h : Condemned e g) (hkeeps : e.Keeps e')
    (hplan : ∀ {g grp}, e.groups.get? g = some grp → .killGroup g ∈ e.agenda → Condemned e' g)
    (habort : ∀ {x txn grp}, e.transactions.get? x = some txn →
      txn.state = .running ∨ txn.state = .readying → e.agenda.head? = some (.abort x) →
      e.groups.get? txn.group = some grp → Condemned e' txn.group) : Condemned e' g := by
  induction h with
  | killed hg hk =>
    obtain ⟨grp', hg', -, hk'⟩ := hkeeps hg
    exact .killed hg' (hk' hk)
  | planned hg hm => exact hplan hg hm
  | aborted hx hstate htop hg => exact habort hx hstate htop hg
  | under hg hp _ ih =>
    obtain ⟨grp', hg', hp', -⟩ := hkeeps hg
    exact .under hg' (hp'.trans hp) ih

/-- A chore that kills no group leaves what is condemned so. -/
theorem pop (h : Condemned (e.plan [a]) g) (hkill : ∀ g, a ≠ .killGroup g)
    (habort : ∀ x, a ≠ .abort x) (hkeeps : e.Keeps e') {new : List Chore}
    (hagenda : e'.agenda = new ++ e.agenda) : Condemned e' g := by
  refine h.mono (fun g grp hg => hkeeps hg) ?_ ?_
  · intro g grp hg hm
    obtain ⟨grp', hg', -⟩ := hkeeps hg
    refine .planned hg' ?_
    rw [hagenda]
    exact mem_append_right _ ((mem_cons.1 hm).resolve_left (hkill g).symm)
  · intro x txn grp _ _ htop _
    cases htop
    exact absurd rfl (habort x)

/-- In a state with nothing to do no group is condemned. -/
theorem busy (hc : Core m e none) (h : Condemned e g) : e.agenda ≠ [] := by
  intro ha
  induction h with
  | killed hg hk =>
    have hdoomed := hc.kinship.doomed hg hk
    rw [ha] at hdoomed
    cases hdoomed
  | planned _ hm =>
    rw [ha] at hm
    cases hm
  | aborted _ _ htop =>
    rw [ha] at htop
    cases htop
  | under _ _ _ ih => exact ih

/-- Forgetting a killed group does not save those below it. -/
theorem removeGroup {grp₀ : Group} (hc : Coherent m (e.plan [.removeGroup g₀]))
    (hg₀ : e.groups.get? g₀ = some grp₀) (h : Condemned (e.plan [.removeGroup g₀]) g)
    (hstays : ∃ grp', (grp₀.forgotten g₀ e.groups).get? g = some grp') :
    Condemned { e with groups := grp₀.forgotten g₀ e.groups } g := by
  have hk := hc.core.kinship
  have hkilled : grp₀.killed = true := hk.marked mem_cons_self hg₀
  have hget := Group.get?_forgotten g₀ e.groups (hk.children_nodup hg₀) (hk.acyclic hg₀)
  induction h with
  | killed hg hdead =>
    obtain ⟨grp', hg'⟩ := hstays
    obtain ⟨-, old, hold, hkin⟩ := Group.forgotten_from hg'
    cases hg.symm.trans hold
    exact .killed hg' (hkin.killed.trans hdead)
  | planned _ hm =>
    obtain ⟨grp', hg'⟩ := hstays
    exact .planned hg' ((mem_cons.1 hm).resolve_left (by simp))
  | aborted _ _ htop => cases htop
  | @under g p grp hg hp h ih =>
    obtain ⟨grp', hg'⟩ := hstays
    by_cases hpg : p = g₀
    · -- the group above is the one forgotten, and has passed on its fate
      subst hpg
      rcases hk.heir hg hp hg₀ hkilled with hdead | hm
      · obtain ⟨-, old, hold, hkin⟩ := Group.forgotten_from hg'
        cases hg.symm.trans hold
        exact .killed hg' (hkin.killed.trans hdead)
      · exact .planned hg' ((mem_cons.1 hm).resolve_left (by simp))
    · have hnotchild : g ∉ grp₀.children := by
        intro hm
        obtain ⟨cgrp, hcgrp, hcp⟩ := hk.child_of hg₀ hm
        cases hg.symm.trans hcgrp
        exact hpg (Option.some.inj (hp.symm.trans hcp))
      have hparent : grp'.parent = some p := by
        have hview := hget g
        rw [hg'] at hview
        have hold : e.groups.get? g = some grp := hg
        grind
      refine .under hg' hparent (ih ?_)
      obtain ⟨pgrp, hpgrp⟩ := h.exists_group
      have hpold : e.groups.get? p = some pgrp := hpgrp
      have hview := hget p
      grind

/-- Doing a chore saves no group. -/
theorem perform (hc : Coherent m (e.plan [a])) (he' : e.perform host a = .ok e')
    (h : Condemned (e.plan [a]) g) (hstays : ∃ grp', e'.groups.get? g = some grp') :
    Condemned e' g := by
  obtain ⟨new, hnew, -⟩ := perform_plans he'
  have other : (∀ g, a ≠ .killGroup g) → (∀ g, a ≠ .removeGroup g) → (∀ x, a ≠ .abort x) →
      Condemned e' g := fun hkill hforget habort =>
    h.pop hkill habort (.of_footing (perform_footing he' hkill hforget)) hnew
  cases performed he' with
  | @dead g₀ hdead =>
    refine h.mono (.of_eq rfl) ?_ (fun _ _ htop => by cases htop)
    intro g grp hg hm
    rcases mem_cons.1 hm with heq | hm
    · cases heq
      exact .killed hg (hdead grp hg)
    · exact .planned hg hm
  | @killGroup g₀ grp₀ hg₀ =>
    refine h.mono (.of_modify rfl (fun _ => rfl) fun _ _ => rfl) ?_ (fun _ _ htop => by cases htop)
    intro g grp hg hm
    have hg : e.groups.get? g = some grp := hg
    rcases mem_cons.1 hm with heq | hm
    · cases heq
      have hmarked := Store.get?_modify e.groups g₀ g₀ fun group =>
        { group with killed := true, members := [], kind := e.killedKind g₀ grp₀.kind }
      rw [if_pos rfl, hg] at hmarked
      exact .killed hmarked rfl
    · obtain ⟨grp', hg', -⟩ : ∃ grp', (e.groups.modify g₀ _).get? g = some grp' ∧ True :=
        (Store.modify_forth (P := fun _ _ => True) (by simp) (by simp) e.groups g₀ hg)
      exact .planned hg' (mem_append_right _ hm)
  | removed => exact h.pop (by simp) (by simp) (.of_eq rfl) hnew
  | removeGroup hg₀ => exact removeGroup hc hg₀ h hstays
  | abortLate hlate =>
    refine h.mono (.of_eq rfl) ?_ ?_
    · intro g grp hg hm
      exact .planned hg ((mem_cons.1 hm).resolve_left (by simp))
    · intro x txn grp hx hstate htop _
      cases htop
      have := hlate txn hx
      grind
  | @abort x₀ txn₀ hx₀ =>
    refine h.mono (.of_eq rfl) ?_ ?_
    · intro g grp hg hm
      refine .planned hg (mem_append_right _ ?_)
      exact (mem_cons.1 hm).resolve_left (by simp)
    · intro x txn grp hx _ htop hg
      cases htop
      cases hx₀.symm.trans hx
      exact .planned hg (mem_append_left _ mem_cons_self)
  | _ => exact other (by simp) (by simp) (by simp)

/-- Who is in a transaction goes with it. -/
theorem of_txn (hc : Core m e none) (ha : e.agenda = []) (hgroups : e'.groups = e.groups)
    {r : RegionId} {reg : Region} (hr : e.regions.get? r = some reg) {x : TxnId} {txn : Transaction}
    (htxn : m.txn r = some x) (hx : e.transactions.get? x = some txn)
    (h : Condemned e' txn.group) : Condemned e' (m.group r) := by
  -- go up from region to region, until one stands for the transaction
  revert htxn
  refine hc.census.climb hr fun r reg hr up htxn => ?_
  cases hkind : reg.kind with
  | root =>
    rw [(hc.aligned.root hr hkind).2.2.1] at htxn
    cases htxn
  | pruning c =>
    obtain ⟨⟨p, hp, hsame, habove⟩, hgroup, -⟩ := hc.aligned.pruning hr hkind
    obtain ⟨grp, hg, hk⟩ := hc.region_alive (by simp [ha]) (by simp [ha]) (by simp [ha]) hr
    have hparent := hc.parent_above (by simp [ha]) hg hk (hgroup ▸ habove)
    exact .under (hgroups ▸ hg) hparent (up hp (hsame ▸ htxn))
  | otherwise published k =>
    obtain ⟨hp, hkept, hgroup, hsame, -⟩ := hc.aligned.otherwise hr hkind
    rw [hgroup, ← hkept.group]
    exact up hp (by rw [hkept.txn, ← hsame, htxn])
  | transaction y | votes y =>
    have hatomic : reg.kind.Serves y := by simp [hkind]
    obtain ⟨txn', hy, -, hgroup, hown⟩ := hc.aligned.atomic hr hatomic
    cases hown.symm.trans htxn
    cases hx.symm.trans hy
    rw [hgroup]
    exact h

end Condemned

/-! ## Doomed tokens -/

/-- A token that is about to end. -/
def Doomed (e : Engine ω) (t : TokenId) (tok : Token) : Prop :=
  .killToken t ∈ e.agenda ∨ Condemned e tok.group

namespace Doomed

variable {t : TokenId} {tok tok' : Token}

/-- In a state with nothing to do no token is doomed. -/
theorem busy (hc : Core m e none) (h : Doomed e t tok) : e.agenda ≠ [] := by
  rcases h with hm | hcondemned
  · exact ne_nil_of_mem hm
  · exact hcondemned.busy hc

/-- What is to be done decides who is doomed, and which groups and transactions there are. -/
theorem congr (h : Doomed e t tok) (hagenda : e'.agenda = e.agenda) (hgroups : e'.groups = e.groups)
    (htxns : e'.transactions = e.transactions) : Doomed e' t tok := by
  rw [Doomed, hagenda]
  refine h.imp_right fun hcondemned => hcondemned.mono (.of_eq hgroups) ?_ ?_
  · exact fun hg hm => .planned (hgroups ▸ hg) (hagenda ▸ hm)
  · exact fun hx hstate htop hg => .aborted (htxns ▸ hx) hstate (hagenda ▸ htop) (hgroups ▸ hg)

/-- Doing a chore saves no token. -/
theorem perform (hc : Coherent m (e.plan [a])) (hc' : Core m e' (hollow e'.agenda))
    (he' : e.perform host a = .ok e') (h : Doomed (e.plan [a]) t tok)
    (ht' : e'.tokens.get? t = some tok') (hgroup : tok'.group = tok.group) :
    Doomed e' t tok' := by
  rcases h with hm | hcondemned
  · rcases mem_cons.1 hm with heq | hm
    · -- the token has just ended
      subst heq
      cases performed he' with
      | gone ht =>
        rw [ht] at ht'
        cases ht'
      | killToken =>
        rw [Engine.ended, Engine.plan, Store.get?_remove, if_pos rfl] at ht'
        cases ht'
    · obtain ⟨new, hnew, -⟩ := perform_plans he'
      rw [Doomed, hnew]
      exact .inl (mem_append_right _ hm)
  · obtain ⟨grp', hg', -⟩ := hc'.kinship.group_of ht'
    rw [hgroup] at hg'
    refine .inr (hgroup ▸ hcondemned.perform hc he' ⟨grp', hg'⟩)

end Doomed
end Orchestra
