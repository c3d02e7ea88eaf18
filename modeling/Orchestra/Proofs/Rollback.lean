/-
  A rollback leaves no trace.

  A transaction and those inside it operate on a value in any way: they read and write, those
  inside vote, commit and are rolled back, and the transaction itself may ask for its vote.  When
  it is rolled back at the end, with no copy of a transaction inside it left, the value is as it
  was, but for clean copies that were made for the transactions around it.

  Nothing is assumed of the value: its layers may have any content.  What is OUTSIDE of a
  transaction are the committed layer and the layers of all transactions that are not inside it.

  The crux (`unmarked?`): look at the layers outside as they would be if the transaction were rolled
  back at once, that is without its mark on the layer of its parent.  Then no operation inside
  changes what is there (`Grows`), and the theorem is the case of an actual rollback.
-/
import Orchestra.Proofs.Forest

namespace Orchestra

open List

variable {α β : Type} {F : Forest} {t : TxnId} {l : Option TxnId} {a u : TxnId} {v w : Versioned α}

/-- The operation is made by `t` or by a transaction inside it, and decides only on those inside. -/
def Op.Within (F : Forest) (t : TxnId) : Op α β → Prop
  | .read party | .update party _ => ∃ u, party = some u ∧ t ∈ F.line (some u)
  | .ready u => t ∈ F.line (some u)
  | .confirm u | .rollback u => t ∈ F.ancestors u

/-- The layer belongs neither to `t` nor to a transaction inside it. -/
def Outside (F : Forest) (t : TxnId) (l : Option TxnId) : Prop :=
  ∀ u, l = some u → t ∉ F.line (some u)

theorem outside_of_mem_ancestors (h : a ∈ F.ancestors t) : Outside F t (some a) := by
  rintro u heq
  cases heq
  exact Forest.not_mem_line_of_mem_ancestors h

/-- What is just around something outside is outside too. -/
theorem outside_parent (h : Outside F t (some a)) : Outside F t (F.parent a) := by
  intro u hu ht
  refine h a rfl (mem_cons_of_mem a ?_)
  rw [F.ancestors_eq_line, hu]
  exact ht

/-- The parent of a transaction inside `t` is `t` or inside it. -/
theorem mem_line_parent (h : t ∈ F.ancestors u) :
    ∃ p, F.parent u = some p ∧ t ∈ F.line (some p) := by
  rw [F.ancestors_eq_line] at h
  cases hp : F.parent u with
  | none => rw [hp] at h; cases h
  | some p => exact ⟨p, rfl, by rwa [hp] at h⟩

/-! ## The layers without the mark of a transaction -/

/-- The layers as they are without the mark of `t` on the layer of its parent. -/
def unmarked? (F : Forest) (t : TxnId) (v : Versioned α) (l : Option TxnId) : Option (Layer α) :=
  if l = F.parent t then (v.layer? l).map (Versioned.Layer.release t) else v.layer? l

theorem release_of_ne {x : Layer α} (h : x.pending ≠ some t) : Versioned.Layer.release t x = x :=
  if_neg h

theorem layer?_rollback (F : Forest) (t : TxnId) (v : Versioned α) (l : Option TxnId) :
    (v.rollback (F.scope t)).layer? l = if l = some t then none else unmarked? F t v l := by
  have hid : (F.scope t).id = t := rfl
  have hparent : (F.scope t).parent = F.parent t := rfl
  grind [Versioned.layer?_dropLayer, Versioned.layer?_setLayer, Versioned.rollback, unmarked?]

/-- Layers that agree have the same look without the mark. -/
theorem unmarked?_congr (h : w.layer? l = v.layer? l) : unmarked? F t w l = unmarked? F t v l := by
  unfold unmarked?
  rw [h]

/-- Outside nothing changes but that transactions around `t` get clean copies. -/
structure Grows (F : Forest) (t : TxnId) (v w : Versioned α) : Prop where
  old : ∀ {l x}, Outside F t l → unmarked? F t v l = some x → unmarked? F t w l = some x
  new : ∀ {l x}, Outside F t l → unmarked? F t v l = none → unmarked? F t w l = some x →
    ∃ a ∈ F.ancestors t, l = some a ∧
      ∃ source, unmarked? F t w (F.parent a) = some source ∧ x = source.copy

theorem Grows.of_eq (h : ∀ l, Outside F t l → unmarked? F t w l = unmarked? F t v l) :
    Grows F t v w where
  old hl hx := by rw [h _ hl, hx]
  new hl hnone hx := by
    rw [h _ hl, hnone] at hx
    cases hx

theorem Grows.trans {u : Versioned α} (h : Grows F t u v) (h' : Grows F t v w) :
    Grows F t u w where
  old hl hx := h'.old hl (h.old hl hx)
  new := by
    intro l x hl hnone hx
    cases hv : unmarked? F t v l with
    | none => exact h'.new hl hv hx
    | some y => grind [new, old, outside_parent]

/-! ## One operation -/

/-- A line through `t` consists of transactions inside `t`, of `t` and of those around it. -/
theorem mem_ancestors_of_outside (hu : t ∈ F.line (some u)) (ha : a ∈ F.line (some u))
    (houtside : Outside F t (some a)) : a ∈ F.ancestors t := by
  have hnot := houtside a rfl
  rcases suffix_or_suffix_of_suffix (Forest.line_suffix ha) (Forest.line_suffix hu) with hs | hs
  · rcases mem_cons.1 (hs.subset (F.mem_line_self a)) with rfl | hmem
    · exact absurd (F.mem_line_self a) hnot
    · exact hmem
  · exact absurd (hs.subset (F.mem_line_self t)) hnot

/-- A layer is there whether or not it bears the mark. -/
theorem unmarked?_eq_none : unmarked? F t v l = none ↔ v.layer? l = none := by
  unfold unmarked?
  split
  · exact Option.map_eq_none_iff
  · rfl

/-- What is copied for a transaction inside `t` leaves clean copies around it. -/
theorem grows_touch (v : Versioned α) (hu : t ∈ F.line (some u)) :
    Grows F t v (v.touch (F.line (some u))) where
  old := by
    intro l x _ hx
    cases hl : v.layer? l with
    | none =>
      rw [unmarked?_eq_none.2 hl] at hx
      cases hx
    | some y =>
      rw [unmarked?_congr ((Versioned.layer?_touch_old hl _).trans hl.symm)]
      exact hx
  new := by
    intro l x houtside hnone hx
    rw [unmarked?_eq_none] at hnone
    cases l with
    | none => cases hnone
    | some a =>
      have hmem : a ∈ F.line (some u) := by
        cases hy : (v.touch (F.line (some u))).layer? (some a) with
        | none =>
          rw [unmarked?_eq_none.2 hy] at hx
          cases hx
        | some y => grind [Versioned.layer?_touch_cases]
      have ha := mem_ancestors_of_outside hu hmem houtside
      obtain ⟨source, -, hsource, hcopy⟩ := v.layer?_touch_new hmem hnone
      refine ⟨a, ha, rfl, source, ?_, ?_⟩
      · -- the mark of `t` is one step further in
        rw [unmarked?, if_neg, hsource]
        intro heq
        rw [F.ancestors_eq_line t, ← heq, ← F.ancestors_eq_line] at ha
        exact F.not_mem_ancestors a ha
      · grind [release_of_ne, Layer.copy, unmarked?]

/-- What is put in place inside is not seen outside. -/
theorem Grows.setLayer (h : Grows F t v w) (hu : t ∈ F.line (some u)) (x : Layer α) :
    Grows F t v (w.setLayer (some u) x) := by
  refine h.trans (.of_eq fun l hl => unmarked?_congr ?_)
  rw [Versioned.layer?_setLayer, if_neg]
  exact fun heq => hl u heq hu

theorem Grows.dropLayer (h : Grows F t v w) (hu : t ∈ F.line (some u)) :
    Grows F t v (w.dropLayer u) := by
  refine h.trans (.of_eq fun l hl => unmarked?_congr ?_)
  rw [Versioned.layer?_dropLayer, if_neg]
  exact fun heq => hl u heq hu

/-- The mark of `t` is not seen. -/
theorem grows_mark {p : Layer α} (hp : v.layer? (F.parent t) = some p)
    (hnobody : ∀ u, p.pending = some u → u = t) :
    Grows F t v (v.setLayer (F.parent t) { p with pending := some t }) := by
  refine .of_eq fun l _ => ?_
  unfold unmarked?
  rw [Versioned.layer?_setLayer]
  split
  · rename_i hl
    rw [hl, hp, Option.map_some, Option.map_some]
    congr 1
    unfold Versioned.Layer.release
    rw [if_pos rfl]
    split
    · rfl
    · rename_i hne
      have hnone : p.pending = none := by
        cases hpending : p.pending with
        | none => rfl
        | some u => exact absurd (by rw [hpending, hnobody u hpending]) hne
      cases p
      cases hnone
      rfl
  · rfl

/-- **One step.**  An operation inside leaves what is outside. -/
theorem grows_run (v : Versioned α) {op : Op α β} (hop : op.Within F t) :
    Grows F t v (op.run F v).2 := by
  have hrefl : Grows F t v v := .of_eq fun _ _ => rfl
  have heffect := op.run_effect F v
  generalize (op.run F v).1 = answer at heffect
  generalize (op.run F v).2 = w at heffect ⊢
  cases heffect with
  | seen | declined =>
    obtain ⟨u, rfl, hu⟩ := hop
    exact grows_touch v hu
  | written =>
    obtain ⟨u, rfl, hu⟩ := hop
    exact (grows_touch v hu).setLayer hu _
  | waved | refused | idle => exact hrefl
  | @marked u x p hx hp hnobody =>
    rcases mem_cons.1 hop with rfl | hu
    · exact grows_mark hp hnobody
    · grind [mem_line_parent, Grows.setLayer]
  | @lost u | @dropped u => exact hrefl.dropLayer (mem_cons_of_mem u hop)
  | @merged u | @released u =>
    obtain ⟨q, hq, hin⟩ := mem_line_parent hop
    rw [hq]
    exact (hrefl.dropLayer (mem_cons_of_mem u hop)).setLayer hin _

/-- **A whole run.** -/
theorem grows_runs (v : Versioned α) {ops : List (Op α β)} (hops : ∀ op ∈ ops, op.Within F t) :
    Grows F t v (Op.runs F v ops).2 := by
  induction ops generalizing v with
  | nil => exact .of_eq fun _ _ => rfl
  | cons op ops ih =>
    exact (grows_run v (hops op (mem_cons_self ..))).trans
      (ih _ fun op' hmem => hops op' (mem_cons_of_mem op hmem))

/-! ## The theorem -/

/-- **Rollback leaves no trace.**  Let neither `t` nor a transaction inside it have a layer in a
    value, let no layer bear the mark of `t`, and let them operate on the value in any way.  When `t`
    is rolled back and no transaction inside it has a layer left, every layer of before is exactly as
    it was, no layer of `t` or of a transaction inside it remains, and every layer that is new is a
    clean copy for a transaction around `t`. -/
theorem rollback_leaves_no_trace (v : Versioned α) (ops : List (Op α β))
    (hfresh : ∀ u, t ∈ F.line (some u) → v.layer? (some u) = none)
    (hunmarked : ∀ l x, v.layer? l = some x → x.pending ≠ some t)
    (hops : ∀ op ∈ ops, op.Within F t)
    (hleft : ∀ u, t ∈ F.ancestors u → (Op.runs F v ops).2.layer? (some u) = none) :
    (∀ l x, v.layer? l = some x →
      ((Op.runs F v ops).2.rollback (F.scope t)).layer? l = some x) ∧
    (∀ u, t ∈ F.line (some u) →
      ((Op.runs F v ops).2.rollback (F.scope t)).layer? (some u) = none) ∧
    ∀ l x, v.layer? l = none → ((Op.runs F v ops).2.rollback (F.scope t)).layer? l = some x →
      ∃ a ∈ F.ancestors t, l = some a ∧
        ∃ source, ((Op.runs F v ops).2.rollback (F.scope t)).layer? (F.parent a) = some source ∧
          x = source.copy := by
  have hgrows := grows_runs v hops
  generalize (Op.runs F v ops).2 = w at hgrows hleft ⊢
  -- the rollback is seen outside as it was all the time
  have houtside : ∀ {l}, Outside F t l → (w.rollback (F.scope t)).layer? l = unmarked? F t w l := by
    intro l hl
    rw [layer?_rollback, if_neg]
    rintro rfl
    exact hl t rfl (F.mem_line_self t)
  have hinside : ∀ u, t ∈ F.line (some u) → (w.rollback (F.scope t)).layer? (some u) = none := by
    intro u hu
    rw [layer?_rollback]
    split
    · rfl
    · rename_i hne
      refine unmarked?_eq_none.2 (hleft u ?_)
      rcases mem_cons.1 hu with rfl | hu
      · exact absurd rfl hne
      · exact hu
  have hbefore : ∀ l, unmarked? F t v l = v.layer? l := by
    intro l
    unfold unmarked?
    split
    · cases hx : v.layer? l with
      | none => rfl
      | some x =>
        rw [Option.map_some, release_of_ne (hunmarked l x hx)]
    · rfl
  refine ⟨fun l x hx => ?_, hinside, fun l x hnone hx => ?_⟩
  · have hl : Outside F t l := by
      rintro u rfl hu
      rw [hfresh u hu] at hx
      cases hx
    rw [houtside hl]
    exact hgrows.old hl ((hbefore l).trans hx)
  · have hl : Outside F t l := by
      rintro u rfl hu
      rw [hinside u hu] at hx
      cases hx
    rw [houtside hl] at hx
    obtain ⟨a, ha, hla, source, hsource, hcopy⟩ := hgrows.new hl ((hbefore l).trans hnone) hx
    refine ⟨a, ha, hla, source, ?_, hcopy⟩
    rw [houtside (outside_parent (outside_of_mem_ancestors ha)), hsource]

/-- The innermost transaction writes and commits into the middle one, which reads, votes and is
    rolled back: only a copy for the outermost one is left. -/
theorem rollback_leaves_no_trace_nest :
    ∃ (ops : List (Op Nat Unit)) (w : Versioned Nat),
      (Op.runs .nest (.new 5) ops).1 =
        [.found (some ()), .vote true, .done, .seen 6, .vote true] ∧
      w = (Op.runs .nest (.new 5) ops).2.rollback (Forest.nest.scope ⟨1⟩) ∧
      w.layer? (some ⟨0⟩) = some { value := 5 } ∧
      (∀ l x, (Versioned.new 5).layer? l = some x → w.layer? l = some x) ∧
      (∀ u, ⟨1⟩ ∈ Forest.nest.line (some u) → w.layer? (some u) = none) ∧
      ∀ l x, (Versioned.new 5).layer? l = none → w.layer? l = some x →
        ∃ a ∈ Forest.nest.ancestors ⟨1⟩, l = some a ∧
          ∃ source, w.layer? (Forest.nest.parent a) = some source ∧ x = source.copy := by
  refine ⟨[.update (some ⟨2⟩) fun n => (n + 1, ()), .ready ⟨2⟩, .confirm ⟨2⟩, .read (some ⟨1⟩),
    .ready ⟨1⟩], _, rfl, rfl, rfl, rollback_leaves_no_trace _ _ (fun _ _ => rfl) ?_ ?_ ?_⟩
  · rintro (_ | l) x hx
    · cases hx
      nofun
    · cases hx
  · have hin : (⟨1⟩ : TxnId) ∈ Forest.nest.ancestors ⟨2⟩ := by decide
    have hline : (⟨1⟩ : TxnId) ∈ Forest.nest.line (some ⟨2⟩) := mem_cons_of_mem _ hin
    have hself : (⟨1⟩ : TxnId) ∈ Forest.nest.line (some ⟨1⟩) := Forest.nest.mem_line_self _
    simp only [mem_cons, not_mem_nil, or_false, forall_eq_or_imp, forall_eq]
    exact ⟨⟨_, rfl, hline⟩, hline, hin, ⟨_, rfl, hself⟩, hself⟩
  · intro u hu
    have hu : (⟨1⟩ : TxnId) ∈ if u = ⟨1⟩ then [⟨0⟩] else if u = ⟨2⟩ then [⟨1⟩, ⟨0⟩] else [] := hu
    split at hu
    · cases hu with | tail _ h => cases h
    · split at hu
      · rename_i heq
        rw [heq]
        rfl
      · cases hu

end Orchestra
