/-
  No update is lost, however deep transactions are nested.

  A value is used by a forest of transactions and by plain parties, in any order of operations
  that follows the PROTOCOL (`Follows`): a transaction reads and writes first; it asks for its
  vote at most once, and only when all children that have taken part are decided; then it is
  confirmed, if the vote was in its favour, or rolled back; and it does nothing else once it or a
  transaction around it has asked or is decided.  A rollback may come at any time before.

  1. **Histories** are lists of operations, the latest first; `after` is the value that they lead
     to, and `source` the value that the present copy of a transaction was made from.

  2. **The statement** (`no_update_lost`): a confirm that merges a copy finds the layer of the
     parent at the version and with the value that the copy was made from; such a layer is missing
     only if the parent was rolled back before; and of the children of one layer at most one is
     between a vote in its favour and its decision.

  3. **The crux** (`Voted.waiting`): a vote in favour marks the layer of the parent.  From then on
     that layer declines writes, and it cannot be merged into by a sibling, because the sibling
     would have needed the mark itself.  The rest (`Layered`) is bookkeeping of versions: the copy
     is never ahead of its parent's layer, and agrees with it as long as the versions agree.
-/
import Orchestra.Proofs.Forest

namespace Orchestra.Nested

open List

open Versioned (layer?_dropLayer layer?_setLayer)

variable {α β : Type} {p p' x : Layer α} {n : Nat} {op : Op α β} {l party : Option TxnId}
  {v : Versioned α}

/-! ## Histories -/

/-- The value after some operations, the latest first. -/
def after (F : Forest) (start : α) : List (Op α β) → Versioned α
  | [] => .new start
  | op :: past => (op.run F (after F start past)).2

/-- The transaction has been confirmed or rolled back. -/
def Decided (t : TxnId) (past : List (Op α β)) : Prop := .confirm t ∈ past ∨ .rollback t ∈ past

/-- The transaction has asked for its vote, and the vote was in its favour. -/
def Approved (F : Forest) (start : α) (t : TxnId) : List (Op α β) → Prop
  | [] => False
  | op :: past =>
    op = .ready t ∧ (op.run F (after F start past)).1 = .vote true ∨ Approved F start t past

/-- The transaction may operate: neither it nor one around it has asked for its vote or is
    decided. -/
def Free (F : Forest) (t : TxnId) (past : List (Op α β)) : Prop :=
  ∀ u ∈ F.line (some t), .ready u ∉ past ∧ ¬ Decided u past

/-- The transaction, or one inside it, has read or written. -/
def Begun (F : Forest) (t : TxnId) (past : List (Op α β)) : Prop :=
  ∃ op ∈ past, ∃ u, op.access? = some (some u) ∧ t ∈ F.line (some u)

/-- The histories that follow the protocol, the latest operation first. -/
inductive Follows (F : Forest) (start : α) : List (Op α β) → Prop where
  | nil : Follows F start []
  | access {past op party} : Follows F start past → op.access? = some party →
      (∀ t, party = some t → Free F t past) → Follows F start (op :: past)
  | ready {past t} : Follows F start past → Free F t past →
      (∀ c, F.parent c = some t → Begun F c past → Decided c past) →
      Follows F start (.ready t :: past)
  | confirm {past t} : Follows F start past → Approved F start t past → ¬ Decided t past →
      Follows F start (.confirm t :: past)
  | rollback {past t} : Follows F start past → ¬ Decided t past →
      Follows F start (.rollback t :: past)

/-- The value that the present copy of a transaction was made from: what its parent's layer held
    when the copy was made. -/
def source (F : Forest) (start : α) (t : TxnId) : List (Op α β) → Option α
  | [] => none
  | _ :: past =>
    if ((after F start past).layer? (some t)).isSome then source F start t past
    else (((after F start past).touch (F.ancestors t)).layer? (F.parent t)).map Layer.value

/-! ## Small facts about histories -/

theorem after_effect (F : Forest) (start : α) (past : List (Op α β)) (op : Op α β) :
    op.Effect F (after F start past) (op.run F (after F start past)).1 (after F start (op :: past)) :=
  op.run_effect F _

variable {F : Forest} {start : α} {past : List (Op α β)} {t c : TxnId}

theorem Decided.cons (op : Op α β) (h : Decided t past) : Decided t (op :: past) :=
  h.imp (mem_cons_of_mem op) (mem_cons_of_mem op)

theorem Begun.cons (op : Op α β) (h : Begun F t past) : Begun F t (op :: past) := by
  obtain ⟨op', hmem, rest⟩ := h
  exact ⟨op', mem_cons_of_mem op hmem, rest⟩

/-- A vote in favour has been asked for. -/
theorem Approved.ready_mem (h : Approved F start t past) : .ready t ∈ past := by
  induction past with
  | nil => cases h
  | cons op past ih =>
    rcases h with ⟨rfl, -⟩ | h
    · exact mem_cons_self ..
    · exact mem_cons_of_mem op (ih h)

/-- As long as a copy is there, it has the same source. -/
theorem source_cons (h : (after F start past).layer? (some t) = some x) (op : Op α β) :
    source F start t (op :: past) = source F start t past := by
  rw [source, h]
  rfl

/-- A transaction is confirmed only after it has asked for its vote. -/
theorem Follows.ready_of_confirm (h : Follows F start past) (hc : .confirm t ∈ past) :
    .ready t ∈ past := by
  induction h with
  | nil => cases hc
  | access _ hop _ ih =>
    rcases mem_cons.1 hc with rfl | hc
    · cases hop
    · exact mem_cons_of_mem _ (ih hc)
  | ready _ _ _ ih | rollback _ _ ih =>
    exact mem_cons_of_mem _ (ih (by simpa using hc))
  | confirm _ happroved _ ih => grind [Approved.ready_mem]

theorem Begun.of_cons (h : Begun F t (op :: past)) :
    (∃ u, op.access? = some (some u) ∧ t ∈ F.line (some u)) ∨ Begun F t past := by
  obtain ⟨op', hmem, hop⟩ := h
  rcases mem_cons.1 hmem with rfl | hmem
  · exact .inl hop
  · exact .inr ⟨op', hmem, hop⟩

/-- A child that has taken part is decided before its parent asks for a vote, and does not begin
    afterwards. -/
theorem Follows.child_decided (h : Follows F start past) {p : TxnId} (hp : .ready p ∈ past)
    (hparent : F.parent c = some p) (hbegun : Begun F c past) : Decided c past := by
  induction h with
  | nil => cases hp
  | @access past op party _ hop hfree ih =>
    have hp : .ready p ∈ past := by
      rcases mem_cons.1 hp with rfl | hp
      · cases hop
      · exact hp
    rcases hbegun.of_cons with ⟨u, hu, hcu⟩ | hbegun
    · obtain rfl : party = some u := by simpa [hop] using hu
      have hpu : p ∈ F.line (some u) := Forest.mem_line_trans hcu
        (mem_cons_of_mem c (Forest.mem_ancestors_of_parent hparent))
      exact absurd hp (hfree u rfl p hpu).1
    · exact (ih hp hbegun).cons _
  | ready _ _ hchildren ih =>
    have hbefore := hbegun.of_cons.resolve_left (by rintro ⟨u, hu, -⟩; cases hu)
    grind [Decided.cons]
  | confirm _ _ _ ih | rollback _ _ ih =>
    have hbefore := hbegun.of_cons.resolve_left (by rintro ⟨u, hu, -⟩; cases hu)
    exact (ih (by simpa using hp) hbefore).cons _

/-! ## Versions -/

/-- The layers fit together. -/
structure Layered (F : Forest) (start : α) (past : List (Op α β)) (v : Versioned α) : Prop where
  begun : ∀ {t x}, v.layer? (some t) = some x → Begun F t past
  gone : ∀ {t}, Decided t past → v.layer? (some t) = none
  stacked : ∀ {t x}, v.layer? (some t) = some x → v.layer? (F.parent t) = none →
    ∃ p, F.parent t = some p ∧ Decided p past
  /-- A copy is not ahead of the layer of its parent, and as long as they agree in their versions
      that layer holds what the copy was made from. -/
  fresh : ∀ {t x p}, v.layer? (some t) = some x → v.layer? (F.parent t) = some p →
    x.base ≤ p.version ∧ (x.base = p.version → source F start t past = some p.value)

/-- An operation that leaves the value alone may decide on a transaction that has no copy. -/
theorem Layered.keep (h : Layered F start past (after F start past))
    (hdecided : ∀ t, Decided t (op :: past) →
      Decided t past ∨ (after F start past).layer? (some t) = none) :
    Layered F start (op :: past) (after F start past) where
  begun hx := (h.begun hx).cons op
  gone ht := (hdecided _ ht).elim h.gone id
  stacked hx hp := by grind [stacked, Decided.cons]
  fresh hx hp := by
    rw [source_cons hx]
    exact h.fresh hx hp

/-- The layer above a copy is not touched, or was there before: a decided transaction is not
    touched again. -/
theorem Layered.layer?_parent_touch (h : Layered F start past v)
    (hfree : ∀ t, party = some t → Free F t past) (hx : v.layer? (some t) = some x) :
    (v.touch (F.line party)).layer? (F.parent t) = v.layer? (F.parent t) := by
  cases hp : v.layer? (F.parent t) with
  | some p => exact Versioned.layer?_touch_old hp _
  | none =>
    obtain ⟨p, hparent, hd⟩ := h.stacked hx hp
    rw [v.layer?_touch_of_not_mem, hp]
    rintro u hu heq
    obtain rfl : p = u := Option.some.inj (hparent.symm.trans heq)
    cases party with
    | none => cases hu
    | some w => exact (hfree w rfl p hu).2 hd

/-- Copies fit the layers that they are made from. -/
theorem Layered.touch (h : Layered F start past (after F start past))
    (hop : op.access? = some party) (hfree : ∀ t, party = some t → Free F t past) :
    Layered F start (op :: past) ((after F start past).touch (F.line party)) := by
  generalize hv : after F start past = v at h ⊢
  have hdecided : ∀ {t}, Decided t (op :: past) → Decided t past := by
    rintro t (hmem | hmem) <;> rcases mem_cons.1 hmem with rfl | hmem
    · cases hop
    · exact .inl hmem
    · cases hop
    · exact .inr hmem
  refine ⟨fun {t x} hx => ?_, fun {t} ht => ?_, fun {t x} hx hp => ?_, fun {t x p} hx hp => ?_⟩
  · rcases v.layer?_touch_cases hx with hx | ⟨-, ht⟩
    · exact (h.begun hx).cons op
    · cases party with
      | none => cases ht
      | some u => exact ⟨op, mem_cons_self .., u, hop, ht⟩
  · rw [v.layer?_touch_of_not_mem]
    · exact h.gone (hdecided ht)
    · rintro u hu heq
      cases heq
      cases party with
      | none => cases hu
      | some w => exact (hfree w rfl t hu).2 (hdecided ht)
  · rcases v.layer?_touch_cases hx with hx | ⟨hnone, ht⟩
    · grind [layer?_parent_touch, stacked, Decided.cons]
    · -- the parent is touched together with its child
      obtain ⟨s, -, hs, -⟩ := v.layer?_touch_new ht hnone
      rw [hs] at hp
      cases hp
  · rcases v.layer?_touch_cases hx with hx | ⟨hnone, ht⟩
    · rw [h.layer?_parent_touch hfree hx] at hp
      rw [source_cons (by rw [hv]; exact hx)]
      exact h.fresh hx hp
    · obtain ⟨s, hsource, hs, hnew⟩ := v.layer?_touch_new ht hnone
      rw [hs] at hp
      rw [hnew] at hx
      cases hp
      cases hx
      refine ⟨Nat.le_refl _, fun _ => ?_⟩
      rw [source, hv, hnone, hsource]
      rfl

theorem kept_of_dropLayer {v : Versioned α} {l : Option TxnId} {x : Layer α}
    (hx : (v.dropLayer t).layer? l = some x) : l ≠ some t ∧ v.layer? l = some x := by
  grind [layer?_dropLayer]

/-- The copy of a transaction that has just been decided is dropped. -/
theorem Layered.drop (h : Layered F start past (after F start past))
    (hop : op = .confirm t ∨ op = .rollback t) :
    Layered F start (op :: past) ((after F start past).dropLayer t) := by
  have hdecided : ∀ {u}, Decided u (op :: past) → u = t ∨ Decided u past := by
    rintro u (hmem | hmem) <;> rcases mem_cons.1 hmem with heq | hmem
    · subst heq
      rcases hop with hop | hop <;> cases hop
      exact .inl rfl
    · exact .inr (.inl hmem)
    · subst heq
      rcases hop with hop | hop <;> cases hop
      exact .inl rfl
    · exact .inr (.inr hmem)
  refine ⟨fun hx => (h.begun (kept_of_dropLayer hx).2).cons op, fun {u} hu => ?_, fun {u x} hx hp => ?_,
    fun {u x p} hx hp => ?_⟩
  · grind [layer?_dropLayer, gone]
  · rw [layer?_dropLayer] at hp
    split at hp
    · refine ⟨t, ‹_›, ?_⟩
      rcases hop with rfl | rfl
      · exact .inl (mem_cons_self ..)
      · exact .inr (mem_cons_self ..)
    · obtain ⟨p, hparent, hd⟩ := h.stacked (kept_of_dropLayer hx).2 hp
      exact ⟨p, hparent, hd.cons op⟩
  · rw [source_cons (kept_of_dropLayer hx).2]
    exact h.fresh (kept_of_dropLayer hx).2 (kept_of_dropLayer hp).2

/-- A layer is replaced by one that is as it was, or that has moved on. -/
theorem Layered.replace (h : Layered F start past v) (hp : v.layer? l = some p)
    (hbase : p'.base = p.base)
    (hmoved : p'.version = p.version ∧ p'.value = p.value ∨ p.version < p'.version) :
    Layered F start past (v.setLayer l p') := by
  have hpresent : ∀ {l' x}, (v.setLayer l p').layer? l' = some x →
      ∃ x₀, v.layer? l' = some x₀ ∧ x.base = x₀.base ∧
        (x.version = x₀.version ∧ x.value = x₀.value ∨ x₀.version < x.version) := by
    grind [layer?_setLayer]
  have hmissing : ∀ {l'}, (v.setLayer l p').layer? l' = none → v.layer? l' = none := by
    grind [layer?_setLayer]
  refine ⟨fun {t x} hx => ?_, fun {t} ht => ?_, fun {t x} hx hq => ?_, fun {t x q} hx hq => ?_⟩
  · obtain ⟨x₀, hx₀, -⟩ := hpresent hx
    exact h.begun hx₀
  · grind [layer?_setLayer, gone]
  · obtain ⟨x₀, hx₀, -⟩ := hpresent hx
    exact h.stacked hx₀ (hmissing hq)
  · obtain ⟨x₀, hx₀, hb, -⟩ := hpresent hx
    obtain ⟨q₀, hq₀, -, hm⟩ := hpresent hq
    obtain ⟨hle, hsource⟩ := h.fresh hx₀ hq₀
    grind

/-! ## Votes -/

/-- Votes in favour are marked where they are to be merged. -/
structure Voted (F : Forest) (start : α) (past : List (Op α β)) (v : Versioned α) : Prop where
  waiting : ∀ {t x p}, v.layer? (some t) = some x → v.layer? (F.parent t) = some p →
    Approved F start t past → p.pending = some t ∧ p.version = x.base
  single : ∀ {t c x y}, v.layer? (some t) = some x → v.layer? (some c) = some y →
    F.parent t = F.parent c → Approved F start t past → Approved F start c past → t = c

/-- Copies go or stay as they are, and what is above them stays. -/
theorem Voted.mono {v' : Versioned α} (h : Voted F start past v) {past' : List (Op α β)}
    (hcopies : ∀ {t x}, v'.layer? (some t) = some x → Approved F start t past' →
      Approved F start t past ∧ v.layer? (some t) = some x ∧
        (v'.layer? (F.parent t) = none ∨ v'.layer? (F.parent t) = v.layer? (F.parent t))) :
    Voted F start past' v' where
  waiting hx hp ht := by grind [waiting]
  single hx hy hparent ht hc := by grind [single]

/-- A layer that awaits a child is replaced by one that awaits it at the same version. -/
theorem Voted.replace (h : Voted F start past v) (hp : v.layer? l = some p)
    (hbase : p'.base = p.base)
    (hkept : ∀ {t x}, v.layer? (some t) = some x → F.parent t = l → Approved F start t past →
      p'.pending = p.pending ∧ p'.version = p.version) : Voted F start past (v.setLayer l p') := by
  have hpresent : ∀ {t x}, (v.setLayer l p').layer? (some t) = some x →
      ∃ x₀, v.layer? (some t) = some x₀ ∧ x.base = x₀.base := by grind [layer?_setLayer]
  refine ⟨fun {t x q} hx hq ht => ?_, fun {t c x y} hx hy hparent ht hc => ?_⟩
  · grind [layer?_setLayer, waiting]
  · grind [single]

/-- A vote in favour of `t`, which nobody else is marked for, marks the layer of its parent. -/
theorem Voted.mark (h : Voted F start past v) (hx : v.layer? (some t) = some x)
    (hp : v.layer? (F.parent t) = some p) (hnobody : ∀ u, p.pending = some u → u = t)
    (hversion : p.version = x.base)
    (happroved : ∀ {u}, Approved F start u (op :: past) → u = t ∨ Approved F start u past) :
    Voted F start (op :: past) (v.setLayer (F.parent t) { p with pending := some t }) := by
  -- a sibling with a vote in its favour would have marked the layer before
  have halone : ∀ {u y}, v.layer? (some u) = some y → F.parent u = F.parent t →
      Approved F start u (op :: past) → u = t := by
    intro u y hy hparent hu
    rcases happroved hu with heq | hu
    · exact heq
    · exact hnobody u (h.waiting hy (by rw [hparent]; exact hp) hu).1
  have hpresent : ∀ {u y}, (v.setLayer (F.parent t) { p with pending := some t }).layer? (some u) =
      some y → ∃ y₀, v.layer? (some u) = some y₀ ∧ y.base = y₀.base := by
    grind [layer?_setLayer]
  refine ⟨fun {u y q} hy hq hu => ?_, fun {u c y z} hy hz hparent hu hc => ?_⟩
  · grind [layer?_setLayer, waiting]
  · grind [single]

/-! ## Whole histories -/

/-- Only asking for a vote can approve. -/
theorem Approved.of_cons (h : Approved F start t (op :: past)) (hop : op ≠ .ready t) :
    Approved F start t past :=
  h.resolve_left fun ⟨heq, _⟩ => hop heq

/-- An access leaves layers and votes as they should be. -/
theorem Follows.access_sound (hop : op.access? = some party)
    (hfree : ∀ t, party = some t → Free F t past) (hl : Layered F start past (after F start past))
    (hv : Voted F start past (after F start past)) :
    Layered F start (op :: past) (after F start (op :: past)) ∧
      Voted F start (op :: past) (after F start (op :: past)) := by
  have hl' := hl.touch hop hfree
  have hv' : Voted F start (op :: past) ((after F start past).touch (F.line party)) := by
    refine hv.mono fun {t x} hx ht => ?_
    have ht := ht.of_cons (by rintro rfl; cases hop)
    rcases Versioned.layer?_touch_cases _ hx with hx | ⟨-, hmem⟩
    · exact ⟨ht, hx, .inr (hl.layer?_parent_touch hfree hx)⟩
    · -- what is touched has not asked for its vote
      cases party with
      | none => cases hmem
      | some u => exact absurd ht.ready_mem (hfree u rfl t hmem).1
  rw [after]
  rcases Op.access_effect F (after F start past) hop with heq | ⟨x, a, hx, hpending, heq⟩
  · rw [heq]
    exact ⟨hl', hv'⟩
  · rw [heq]
    refine ⟨hl'.replace hx rfl (.inr (Nat.lt_succ_self _)),
      hv'.replace hx rfl fun hy hparent ht => ?_⟩
    have hmark := (hv'.waiting hy (by rw [hparent]; exact hx) ht).1
    rw [hpending] at hmark
    cases hmark

/-- So does a vote. -/
theorem Follows.ready_sound (hl : Layered F start past (after F start past))
    (hv : Voted F start past (after F start past)) :
    Layered F start (.ready t :: past) (after F start (.ready t :: past)) ∧
      Voted F start (.ready t :: past) (after F start (.ready t :: past)) := by
  have hl' : Layered F start (.ready t :: past) (after F start past) :=
    hl.keep fun u hu => .inl (by simpa [Decided] using hu)
  have heffect := after_effect F start past (.ready t)
  generalize hanswer : ((.ready t : Op α β).run F (after F start past)).1 = answer at heffect
  generalize after F start (.ready t :: past) = w at heffect ⊢
  cases heffect with
  | waved hnone => grind [Voted.mono, Approved.of_cons]
  | refused hx hno =>
    refine ⟨hl', hv.mono fun {u y} hy hu => ⟨hu.resolve_left ?_, hy, .inr rfl⟩⟩
    rintro ⟨heq, hyes⟩
    rw [hanswer] at hyes
    cases hyes
  | marked hx hp hnobody hversion => grind [Layered.replace, Voted.mark, Approved.of_cons]

/-- The copy of a decided transaction has been dropped, and the layer of its parent, which waits
    for nobody else or is released only, has been replaced. -/
theorem Follows.decide_sound (op : Op α β) (hop : op = .confirm t ∨ op = .rollback t)
    (hl : Layered F start past (after F start past))
    (hv : Voted F start past (after F start past)) :
    (Layered F start (op :: past) ((after F start past).dropLayer t) ∧
      Voted F start (op :: past) ((after F start past).dropLayer t)) ∧
    ∀ {p p'}, (after F start past).layer? (F.parent t) = some p → p'.base = p.base →
      (p'.version = p.version ∧ p'.value = p.value ∨ p.version < p'.version) →
      (∀ {u x}, u ≠ t → (after F start past).layer? (some u) = some x →
        F.parent u = F.parent t → Approved F start u past →
        p'.pending = p.pending ∧ p'.version = p.version) →
      Layered F start (op :: past) (((after F start past).dropLayer t).setLayer (F.parent t) p') ∧
        Voted F start (op :: past) (((after F start past).dropLayer t).setLayer (F.parent t) p') := by
  have happroved : ∀ {u}, Approved F start u (op :: past) → Approved F start u past :=
    fun hu => hu.of_cons (by rcases hop with rfl | rfl <;> nofun)
  have hl' := hl.drop hop
  have hv' : Voted F start (op :: past) ((after F start past).dropLayer t) := by
    refine hv.mono fun {u x} hx hu => ⟨happroved hu, (kept_of_dropLayer hx).2, ?_⟩
    grind [layer?_dropLayer]
  refine ⟨⟨hl', hv'⟩, fun {p p'} hp hbase hmoved hkept => ?_⟩
  have hp' : ((after F start past).dropLayer t).layer? (F.parent t) = some p :=
    (Op.layer?_parent_dropLayer F _ t).trans hp
  refine ⟨hl'.replace hp' hbase hmoved, hv'.replace hp' hbase fun {u x} hx hparent hu => ?_⟩
  obtain ⟨hne, hx⟩ := kept_of_dropLayer hx
  exact hkept (fun heq => hne (by rw [heq])) hx hparent (happroved hu)

/-- A commit merges a copy into the layer it was made from. -/
theorem Follows.confirm_sound (happroved : Approved F start t past)
    (hl : Layered F start past (after F start past))
    (hv : Voted F start past (after F start past)) :
    Layered F start (.confirm t :: past) (after F start (.confirm t :: past)) ∧
      Voted F start (.confirm t :: past) (after F start (.confirm t :: past)) := by
  have heffect := after_effect F start past (.confirm t)
  generalize ((.confirm t : Op α β).run F (after F start past)).1 = answer at heffect
  generalize after F start (.confirm t :: past) = w at heffect ⊢
  obtain ⟨hdrop, hreplace⟩ := decide_sound (.confirm t) (.inl rfl) hl hv
  cases heffect with
  | idle hnone =>
    refine ⟨hl.keep fun u hu => ?_, hv.mono fun hx hu => ⟨hu.of_cons nofun, hx, .inr rfl⟩⟩
    rcases hu with hu | hu <;> rcases mem_cons.1 hu with heq | hu
    · cases heq
      exact .inr hnone
    · exact .inl (.inl hu)
    · cases heq
    · exact .inl (.inr hu)
  | lost hx hnone => exact hdrop
  | @merged _ x p hx hp =>
    refine hreplace hp (by split <;> simp [Layer.write]) ?_ fun {u y} hne hy hparent hu => ?_
    · split
      · exact .inr (by simp [Layer.write])
      · exact .inl (by simp)
    · exact absurd (hv.single hy hx hparent hu happroved) hne

theorem Follows.rollback_sound (hl : Layered F start past (after F start past))
    (hv : Voted F start past (after F start past)) :
    Layered F start (.rollback t :: past) (after F start (.rollback t :: past)) ∧
      Voted F start (.rollback t :: past) (after F start (.rollback t :: past)) := by
  have heffect := after_effect F start past (.rollback t)
  generalize ((.rollback t : Op α β).run F (after F start past)).1 = answer at heffect
  generalize after F start (.rollback t :: past) = w at heffect ⊢
  obtain ⟨hdrop, hreplace⟩ := decide_sound (.rollback t) (.inr rfl) hl hv
  cases heffect with
  | dropped hnone => exact hdrop
  | @released _ p hp =>
    -- the mark is that of the sibling
    grind [Voted.waiting, Versioned.Layer.release]

theorem Follows.sound (h : Follows F start past) :
    Layered F start past (after F start past) ∧ Voted F start past (after F start past) := by
  induction h with
  | nil =>
    have hnone : ∀ t, (after F start ([] : List (Op α β))).layer? (some t) = none := fun _ => rfl
    exact ⟨⟨by simp [hnone], fun _ => rfl, by simp [hnone], by simp [hnone]⟩,
      ⟨by simp [hnone], by simp [hnone]⟩⟩
  | access _ hop hfree ih => exact access_sound hop hfree ih.1 ih.2
  | ready _ _ _ ih => exact ready_sound ih.1 ih.2
  | confirm _ happroved _ ih => exact confirm_sound happroved ih.1 ih.2
  | rollback _ _ ih => exact rollback_sound ih.1 ih.2

/-! ## Counting -/

/-- No version, and no version that a copy was made from, exceeds `n`. -/
def Bounded (n : Nat) (v : Versioned α) : Prop :=
  ∀ l x, v.layer? l = some x → x.version ≤ n ∧ x.base ≤ n

theorem Bounded.setLayer (h : Bounded n v) (l : Option TxnId) (hx : x.version ≤ n ∧ x.base ≤ n) :
    Bounded n (v.setLayer l x) := by
  intro l' y hy
  rw [layer?_setLayer] at hy
  split at hy
  · cases hy
    exact hx
  · exact h _ _ hy

theorem Bounded.dropLayer (h : Bounded n v) (t : TxnId) : Bounded n (v.dropLayer t) :=
  fun _ _ hy => h _ _ (kept_of_dropLayer hy).2

theorem Bounded.touch (h : Bounded n v) (lin : List TxnId) : Bounded n (v.touch lin) := by
  induction lin with
  | nil => exact h
  | cons t rest ih =>
    rcases v.touch_cons t rest with heq | ⟨s, -, hs, heq⟩
    · rw [heq]
      exact ih
    · rw [heq]
      exact ih.setLayer _ ⟨Nat.zero_le _, (ih _ _ hs).1⟩

theorem Bounded.mono {m : Nat} (h : Bounded n v) (hle : n ≤ m) : Bounded m v := by
  intro l x hx
  obtain ⟨hversion, hbase⟩ := h l x hx
  omega

theorem Bounded.release {n : Nat} {v : Versioned α} (h : Bounded n v) {l : Option TxnId}
    {p : Layer α} (hp : v.layer? l = some p) (t : TxnId) :
    (Versioned.Layer.release t p).version ≤ n ∧ (Versioned.Layer.release t p).base ≤ n := by
  simpa using h l p hp

/-- Every operation moves a version on by one at most. -/
theorem Bounded.step {n : Nat} {v w : Versioned α} (h : Bounded n v) {op : Op α β}
    {answer : Answer α β} (heffect : op.Effect F v answer w) : Bounded (n + 1) w := by
  have hnext := h.mono (Nat.le_succ n)
  cases heffect with
  | seen | declined => exact hnext.touch _
  | written hx =>
    obtain ⟨hversion, hbase⟩ := h.touch _ _ _ hx
    exact (hnext.touch _).setLayer _ ⟨Nat.succ_le_succ hversion, Nat.le_succ_of_le hbase⟩
  | waved | refused | idle => exact hnext
  | @marked t x p hx hp =>
    have hbound := hnext _ p hp
    exact hnext.setLayer _ hbound
  | lost | dropped => exact hnext.dropLayer _
  | @merged t x p hx hp =>
    refine (hnext.dropLayer _).setLayer _ ?_
    obtain ⟨hversion, hbase⟩ := h.release hp t
    split
    · exact ⟨Nat.succ_le_succ hversion, Nat.le_succ_of_le hbase⟩
    · exact ⟨Nat.le_succ_of_le hversion, Nat.le_succ_of_le hbase⟩
  | released hp => exact (hnext.dropLayer _).setLayer _ (hnext.release hp _)

theorem bounded_after (F : Forest) (start : α) (past : List (Op α β)) :
    Bounded past.length (after F start past) := by
  induction past with
  | nil =>
    intro l x hx
    cases l with
    | none =>
      cases hx
      exact ⟨Nat.le_refl _, Nat.le_refl _⟩
    | some t => cases hx
  | cons op past ih => exact ih.step (after_effect F start past op)

/-! ## The theorem -/

/-- **No lost update.**  A confirm that merges a copy finds the layer of the parent at the version
    and with the value that the copy was made from.  There is such a layer unless the parent has
    been rolled back.  Of the children of one layer that have a copy at most one is between a vote
    in its favour and its decision.  No version exceeds the number of operations. -/
theorem no_update_lost (h : Follows F start past) :
    (∀ t x, Follows F start (.confirm t :: past) →
      (after F start past).layer? (some t) = some x →
      (∀ p, (after F start past).layer? (F.parent t) = some p →
        p.version = x.base ∧ source F start t past = some p.value) ∧
      ((after F start past).layer? (F.parent t) = none →
        ∃ p, F.parent t = some p ∧ .rollback p ∈ past)) ∧
    (∀ t c x y, F.parent t = F.parent c →
      (after F start past).layer? (some t) = some x →
      (after F start past).layer? (some c) = some y →
      Approved F start t past → ¬ Decided t past → Approved F start c past → ¬ Decided c past →
      t = c) ∧
    ∀ l x, (after F start past).layer? l = some x →
      x.version ≤ past.length ∧ x.base ≤ past.length := by
  obtain ⟨hl, hv⟩ := h.sound
  refine ⟨fun t x hconfirm hx => ?_, fun t c x y hparent hx hy ht _ hc _ => ?_,
    bounded_after F start past⟩
  · obtain ⟨happroved, hundecided⟩ : Approved F start t past ∧ ¬ Decided t past := by
      cases hconfirm with
      | access _ hop => cases hop
      | confirm _ happroved hundecided => exact ⟨happroved, hundecided⟩
    refine ⟨fun p hp => ?_, fun hnone => ?_⟩
    · have hbase := (hv.waiting hx hp happroved).2
      exact ⟨hbase, (hl.fresh hx hp).2 hbase.symm⟩
    · obtain ⟨p, hparent, hp | hp⟩ := hl.stacked hx hnone
      · -- a confirmed parent has seen the end of all its children
        exact absurd (h.child_decided (h.ready_of_confirm hp) hparent (hl.begun hx)) hundecided
      · exact ⟨p, hparent, hp⟩
  · exact hv.single hx hy hparent ht hc

/-- Two transactions inside a third one. -/
def twins : Forest where
  ancestors t := if t = ⟨1⟩ ∨ t = ⟨2⟩ then [⟨0⟩] else []
  above := by
    intro t p rest h
    split at h
    · cases h
      rfl
    · cases h

/-- One twin has written, the other has read, and the vote on the first was in its favour: it finds
    the layer of the outer transaction as it was when the copy was made. -/
theorem no_update_lost_twins :
    ∃ (past : List (Op Nat Unit)) (x p : Layer Nat),
      Follows twins 7 past ∧ Follows twins 7 (.confirm ⟨1⟩ :: past) ∧
      (after twins 7 past).layer? (some ⟨1⟩) = some x ∧
      (after twins 7 past).layer? (twins.parent ⟨1⟩) = some p ∧
      x.value = 8 ∧ p.pending = some ⟨1⟩ ∧ p.version = x.base ∧
      source twins 7 ⟨1⟩ past = some p.value := by
  have h0 : Follows (β := Unit) twins 7 [] := .nil
  have h1 : Follows twins 7 [.update (some ⟨1⟩) fun n => (n + 1, ())] :=
    h0.access rfl fun t _ => by simp [Free, Decided]
  have h2 : Follows twins 7 (.read (some ⟨2⟩) :: _) :=
    h1.access rfl fun t _ => by simp [Free, Decided]
  have h3 := h2.ready (t := ⟨1⟩) (by simp [Free, Decided]) fun c hc => by
    have hc : (if c = ⟨1⟩ ∨ c = ⟨2⟩ then [(⟨0⟩ : TxnId)] else []).head? = some ⟨1⟩ := hc
    split at hc <;> cases hc
  have h4 := h3.confirm (t := ⟨1⟩) (.inl ⟨rfl, rfl⟩) (by simp [Decided])
  have hlost := ((no_update_lost h3).1 ⟨1⟩ _ h4 rfl).1 _ rfl
  exact ⟨_, _, _, h3, h4, rfl, rfl, rfl, rfl, hlost⟩

end Orchestra.Nested
