/-
  Kinship: groups die from the top down.

  A group is killed with everything below it, but not at once: its members and the groups below
  are put on the agenda and end one after another.  `Kinship` says what holds at every moment of
  that.  A group knows its members and its children as they know it, as long as it is not killed.
  A killed group stays until all its tokens are gone, and everything below it is killed or about
  to be.

  The moves of the engine on groups follow: `join` and `quit` add and end a token, `found` adds
  a group, `rehome` carries a token over, `kill` marks a group and plans the rest, `forget` takes
  a killed group away.
-/
import Mathlib.Data.List.Nodup
import Orchestra.Proofs.Records

namespace Orchestra

open List

variable {a b x : Chore} {grp : Group} {g p : GroupId} {agenda new : List Chore} {tok : Token}
  {f : Token → Token} {t : TokenId}

/-! ## The order of chores -/

/-- Before any `b` on the agenda there is an `a`. -/
def Precedes (a b : Chore) : List Chore → Prop
  | [] => True
  | x :: agenda => x ≠ b ∧ (x = a ∨ Precedes a b agenda)

theorem Precedes.push (h : Precedes a b agenda) (hx : x ≠ b) :
    Precedes a b (x :: agenda) := ⟨hx, .inr h⟩

theorem Precedes.append (h : Precedes a b agenda) (hnew : b ∉ new) :
    Precedes a b (new ++ agenda) := by
  induction new with
  | nil => exact h
  | cons x new ih =>
    rw [mem_cons, not_or] at hnew
    exact (ih hnew.2).push (Ne.symm hnew.1)

theorem Precedes.of_mem (ha : a ∈ new) (hb : b ∉ new) (agenda : List Chore) :
    Precedes a b (new ++ agenda) := by
  induction new with
  | nil => cases ha
  | cons x new ih =>
    rw [mem_cons, not_or] at hb
    refine ⟨Ne.symm hb.1, ?_⟩
    rcases mem_cons.1 ha with rfl | ha
    · exact .inl rfl
    · exact .inr (ih ha hb.2)

theorem Precedes.pop (h : Precedes a b (x :: agenda)) (hx : x ≠ a) :
    Precedes a b agenda := h.2.resolve_left hx

/-! ## Kinship -/

/-- The group that is there from the start. -/
def rootGroup : GroupId := ⟨0⟩

/-- Groups, their members and the groups below them know each other. -/
structure Kinship (tokens : Store .token Token) (groups : Store .group Group)
    (agenda : List Chore) : Prop where
  /-- The group of a token is there, and lists it unless it is killed. -/
  group_of : ∀ {t tok}, tokens.get? t = some tok →
    ∃ grp, groups.get? tok.group = some grp ∧ (grp.killed = false → t ∈ grp.members)
  member_of : ∀ {g grp t}, groups.get? g = some grp → t ∈ grp.members →
    ∃ tok, tokens.get? t = some tok ∧ tok.group = g
  members_nodup : ∀ {g grp}, groups.get? g = some grp → grp.members.Nodup
  killed_members : ∀ {g grp}, groups.get? g = some grp → grp.killed = true → grp.members = []
  /-- A killed group is to be forgotten, -/
  doomed : ∀ {g grp}, groups.get? g = some grp → grp.killed = true → .removeGroup g ∈ agenda
  /-- but only after all its tokens have ended. -/
  dying : ∀ {g grp t tok}, groups.get? g = some grp → grp.killed = true →
    tokens.get? t = some tok → tok.group = g → Precedes (.killToken t) (.removeGroup g) agenda
  marked : ∀ {g grp}, .removeGroup g ∈ agenda → groups.get? g = some grp → grp.killed = true
  parent_of : ∀ {g grp p}, groups.get? g = some grp → grp.parent = some p →
    ∃ pgrp, groups.get? p = some pgrp ∧ g ∈ pgrp.children
  child_of : ∀ {p pgrp c}, groups.get? p = some pgrp → c ∈ pgrp.children →
    ∃ grp, groups.get? c = some grp ∧ grp.parent = some p
  children_nodup : ∀ {g grp}, groups.get? g = some grp → grp.children.Nodup
  older : ∀ {g grp p}, groups.get? g = some grp → grp.parent = some p → p.index < g.index
  /-- A group that has lost its parent is killed or about to be. -/
  orphan : ∀ {g grp}, groups.get? g = some grp → grp.parent = none →
    g = rootGroup ∨ grp.killed = true ∨ .killGroup g ∈ agenda
  /-- So is a group below a killed one. -/
  heir : ∀ {g grp p pgrp}, groups.get? g = some grp → grp.parent = some p →
    groups.get? p = some pgrp → pgrp.killed = true → grp.killed = true ∨ .killGroup g ∈ agenda
  /-- The root group is never killed. -/
  root : ∃ grp, groups.get? rootGroup = some grp ∧ grp.killed = false ∧ grp.parent = none
  spared : .killGroup rootGroup ∉ agenda

namespace Kinship

variable {tokens : Store .token Token} {groups : Store .group Group} {agenda : List Chore}

/-! ## The agenda -/

/-- Chores that kill no root and forget no group may be put on top. -/
theorem push (h : Kinship tokens groups agenda) (hremove : ∀ g, .removeGroup g ∉ new)
    (hroot : .killGroup rootGroup ∉ new) : Kinship tokens groups (new ++ agenda) :=
  { h with
    doomed := fun hg hk => mem_append_right _ (h.doomed hg hk)
    dying := fun hg hk ht e => (h.dying hg hk ht e).append (hremove _)
    marked := fun hm hg =>
      h.marked ((mem_append.1 hm).resolve_left (hremove _)) hg
    orphan := fun hg hp => (h.orphan hg hp).imp_right (.imp_right (mem_append_right _))
    heir := fun hg hp hpg hk => (h.heir hg hp hpg hk).imp_right (mem_append_right _)
    spared := fun hm => (mem_append.1 hm).elim hroot h.spared }

/-- A chore that has nothing to do may be dropped. -/
theorem pop (h : Kinship tokens groups (x :: agenda))
    (htoken : ∀ t, x = .killToken t → tokens.get? t = none)
    (hkill : ∀ g grp, x = .killGroup g → groups.get? g = some grp → grp.killed = true)
    (hremove : ∀ g, x = .removeGroup g → groups.get? g = none) : Kinship tokens groups agenda := by
  refine { h with doomed := ?_, dying := ?_, marked := ?_, orphan := ?_, heir := ?_, spared := ?_ }
  · grind [doomed]
  · grind [Precedes.pop, dying]
  · exact fun hm hg => h.marked (mem_cons_of_mem _ hm) hg
  · grind [orphan]
  · grind [heir]
  · exact fun hm => h.spared (mem_cons_of_mem _ hm)

/-- No group is above and below the same one. -/
theorem acyclic (h : Kinship tokens groups agenda) (hg : groups.get? g = some grp)
    (hp : p ∈ grp.children) : grp.parent ≠ some p := by
  intro hparent
  obtain ⟨pgrp, hpgrp, e⟩ := h.child_of hg hp
  have h₁ := h.older hpgrp e
  have h₂ := h.older hg hparent
  omega

/-! ## Changes that leave kinship alone -/

/-- A token changes but keeps its group. -/
theorem onToken (h : Kinship tokens groups agenda) (t : TokenId)
    (hf : ∀ tok, (f tok).group = tok.group) : Kinship (tokens.modify t f) groups agenda := by
  have back : ∀ {t' tok'}, (tokens.modify t f).get? t' = some tok' →
      ∃ tok, tokens.get? t' = some tok ∧ tok'.group = tok.group := by
    intro t' tok' ht'
    rcases Store.modified ht' with ⟨-, tok, ht, rfl⟩ | ⟨-, ht'⟩
    · exact ⟨tok, ht, hf tok⟩
    · exact ⟨tok', ht', rfl⟩
  refine { h with group_of := ?_, member_of := ?_, dying := ?_ }
  · grind [group_of]
  · grind [member_of]
  · grind [dying]

/-- A group changes what it is for. -/
theorem onGroup (h : Kinship tokens groups agenda) (g : GroupId) (kind : GroupKind) :
    Kinship tokens (groups.modify g fun grp => { grp with kind }) agenda := by
  constructor
  case group_of => have := @h.group_of; grind [Option.map_eq_some_iff]
  case member_of => have := @h.member_of; grind [Option.map_eq_some_iff]
  case members_nodup => have := @h.members_nodup; grind [Option.map_eq_some_iff]
  case killed_members => have := @h.killed_members; grind [Option.map_eq_some_iff]
  case doomed => have := @h.doomed; grind [Option.map_eq_some_iff]
  case dying => have := @h.dying; grind [Option.map_eq_some_iff]
  case marked => have := @h.marked; grind [Option.map_eq_some_iff]
  case parent_of => have := @h.parent_of; grind [Option.map_eq_some_iff]
  case child_of => have := @h.child_of; grind [Option.map_eq_some_iff]
  case children_nodup => have := @h.children_nodup; grind [Option.map_eq_some_iff]
  case older => have := @h.older; grind [Option.map_eq_some_iff]
  case orphan => have := @h.orphan; grind [Option.map_eq_some_iff]
  case heir => have := @h.heir; grind [Option.map_eq_some_iff]
  case root => have := h.root; grind [Option.map_eq_some_iff]
  case spared => exact h.spared

/-! ## Moves -/

/-- A token is added to a group that is alive. -/
theorem join (h : Kinship tokens groups agenda) (hg : groups.get? tok.group = some grp)
    (hk : grp.killed = false) :
    Kinship (tokens.insert tok) (groups.modify tok.group (Group.enrol tokens.next))
      agenda := by
  constructor
  case group_of => have := @h.group_of; grind
  case member_of => have := @h.member_of; grind
  case members_nodup => have := @h.members_nodup; grind
  case killed_members => have := @h.killed_members; grind
  case doomed => have := @h.doomed; grind
  case dying => have := @h.dying; grind
  case marked => have := @h.marked; grind
  case parent_of => have := @h.parent_of; grind
  case child_of => have := @h.child_of; grind
  case children_nodup => have := @h.children_nodup; grind
  case older => have := @h.older; grind
  case orphan => have := @h.orphan; grind
  case heir => have := @h.heir; grind
  case root => have := h.root; grind
  case spared => exact h.spared

/-- A token ends. -/
theorem quit (h : Kinship tokens groups agenda) (ht : tokens.get? t = some tok) :
    Kinship (tokens.remove t) (groups.modify tok.group (Group.dismiss t)) agenda := by
  obtain ⟨grp, hg, -⟩ := h.group_of ht
  constructor
  case group_of => have := @h.group_of; grind
  case member_of => grind [member_of, members_nodup]
  case members_nodup => have := @h.members_nodup; grind [List.Nodup.erase]
  case killed_members => have := @h.killed_members; grind
  case doomed => have := @h.doomed; grind
  case dying => have := @h.dying; grind
  case marked => have := @h.marked; grind
  case parent_of => have := @h.parent_of; grind
  case child_of => have := @h.child_of; grind
  case children_nodup => have := @h.children_nodup; grind
  case older => have := @h.older; grind
  case orphan => have := @h.orphan; grind
  case heir => have := @h.heir; grind
  case root => have := h.root; grind
  case spared => exact h.spared

/-- A group without members is added below one that is alive. -/
theorem found (h : Kinship tokens groups []) {pgrp : Group} (hp : groups.get? p = some pgrp)
    (hk : pgrp.killed = false) (kind : GroupKind) :
    Kinship tokens
      ((groups.insert { parent := some p, kind }).modify p (Group.adopt groups.next)) [] := by
  have hne : p ≠ groups.next := by
    rintro rfl
    rw [Store.get?_next] at hp
    exact Option.some_ne_none _ hp.symm
  have hlt : p.index < groups.next.index := Store.lt_next hp
  constructor
  case group_of => have := @h.group_of; grind
  case member_of => have := @h.member_of; grind
  case members_nodup => have := @h.members_nodup; grind
  case killed_members => have := @h.killed_members; grind
  case doomed => have := @h.doomed; grind
  case dying => have := @h.dying; grind
  case marked => have := @h.marked; grind
  case parent_of => have := @h.parent_of; grind
  case child_of => have := @h.child_of; grind
  case children_nodup => have := @h.children_nodup; grind
  case older => have := @h.older; grind
  case orphan => have := @h.orphan; grind
  case heir => have := @h.heir; grind
  case root => have := h.root; grind
  case spared => exact h.spared

/-- A token is carried over from one group to another, both alive. -/
theorem rehome (h : Kinship tokens groups agenda) (ht : tokens.get? t = some tok)
    (hg : groups.get? g = some grp) (hk : grp.killed = false) (hne : g ≠ tok.group)
    (hf : (f tok).group = g) :
    Kinship (tokens.modify t f) ((groups.modify tok.group (Group.dismiss t)).modify g
        (Group.enrol t)) agenda := by
  obtain ⟨old, hold, -⟩ := h.group_of ht
  constructor
  case group_of => have := @h.group_of; grind
  case member_of => grind [member_of, members_nodup]
  case members_nodup => have := @h.members_nodup; grind [List.Nodup.erase]
  case killed_members => have := @h.killed_members; grind
  case doomed => have := @h.doomed; grind
  case dying => have := @h.dying; grind
  case marked => have := @h.marked; grind
  case parent_of => have := @h.parent_of; grind
  case child_of => have := @h.child_of; grind
  case children_nodup => have := @h.children_nodup; grind
  case older => have := @h.older; grind
  case orphan => have := @h.orphan; grind
  case heir => have := @h.heir; grind
  case root => have := h.root; grind
  case spared => exact h.spared

/-- A group is killed.  What comes before its end kills at least its members, what comes after
    kills the groups below it. -/
theorem kill (h : Kinship tokens groups (.killGroup g :: agenda)) (hg : groups.get? g = some grp)
    (hk : grp.killed = false) (kind : GroupKind) {kills : List Chore}
    (hmembers : ∀ t ∈ grp.members, .killToken t ∈ kills) (hremove : ∀ g, .removeGroup g ∉ kills)
    (hkill : ∀ g, .killGroup g ∉ kills) :
    Kinship tokens
      (groups.modify g fun grp => { grp with killed := true, members := [], kind })
      (kills ++ .removeGroup g :: grp.children.reverse.map .killGroup ++ agenda) := by
  have hmem : ∀ x, x ∈ kills ++ .removeGroup g :: grp.children.reverse.map .killGroup ++ agenda ↔
      x ∈ kills ∨ x = .removeGroup g ∨ (∃ c ∈ grp.children, x = .killGroup c) ∨ x ∈ agenda := by
    grind
  -- the group was not to be forgotten before
  have hnot : .removeGroup g ∉ agenda := by grind [marked]
  have hroot : g ≠ rootGroup := by
    rintro rfl
    exact h.spared mem_cons_self
  constructor
  case group_of => have := @h.group_of; grind
  case member_of => have := @h.member_of; grind
  case members_nodup => have := @h.members_nodup; grind
  case killed_members => have := @h.killed_members; grind
  case doomed => have := @h.doomed; grind
  case dying =>
    -- a token of the group is one of its members
    grind [group_of, Precedes.of_mem, Precedes.pop, dying, Precedes.append]
  case marked => have := @h.marked; grind
  case parent_of => have := @h.parent_of; grind
  case child_of => have := @h.child_of; grind
  case children_nodup => have := @h.children_nodup; grind
  case older => have := @h.older; grind
  case orphan => have := @h.orphan; grind
  case heir =>
    have := @h.heir
    have := @h.parent_of
    grind
  case root => have := h.root; grind
  grind [spared, child_of, root]

/-- A killed group whose tokens are all gone is forgotten; the groups below it have no parent
    from then on. -/
theorem forget (h : Kinship tokens groups (.removeGroup g :: agenda))
    (hg : groups.get? g = some grp) {groups' : Store .group Group}
    (hgroups : ∀ g', groups'.get? g' =
      if g' = g then none
      else if g' ∈ grp.children then (groups.get? g').map fun c => { c with parent := none }
      else if some g' = grp.parent then
        (groups.get? g').map fun p => { p with children := p.children.erase g }
      else groups.get? g') : Kinship tokens groups' agenda := by
  have hk : grp.killed = true := h.marked mem_cons_self hg
  have hempty : ∀ {t tok}, tokens.get? t = some tok → tok.group ≠ g := by
    intro t tok ht e
    exact (h.dying hg hk ht e).1 rfl
  have acyclic : ∀ {p}, p ∈ grp.children → grp.parent ≠ some p := h.acyclic hg
  constructor
  case group_of => have := @h.group_of; grind [Option.map_eq_some_iff]
  case member_of => have := @h.member_of; grind [Option.map_eq_some_iff]
  case members_nodup => have := @h.members_nodup; grind [Option.map_eq_some_iff]
  case killed_members => have := @h.killed_members; grind [Option.map_eq_some_iff]
  case doomed => have := @h.doomed; grind [Option.map_eq_some_iff]
  case dying => have := @h.dying; grind [Option.map_eq_some_iff, Precedes]
  case marked => have := @h.marked; grind [Option.map_eq_some_iff]
  case parent_of => have := @h.parent_of; grind [Option.map_eq_some_iff]
  case child_of =>
    -- the children of `p` are those it had before, without `g`
    grind [child_of, children_nodup, Option.map_eq_some_iff]
  case children_nodup => have := @h.children_nodup; grind [Option.map_eq_some_iff]
  case older => have := @h.older; grind [Option.map_eq_some_iff]
  case orphan =>
    -- it has lost its parent just now, which was killed
    grind [child_of, heir, Option.map_eq_some_iff, orphan]
  case heir => have := @h.heir; grind [Option.map_eq_some_iff]
  case root => have := h.root; grind [Option.map_eq_some_iff]
  case spared => have := h.spared; grind [Option.map_eq_some_iff]

end Kinship
end Orchestra
