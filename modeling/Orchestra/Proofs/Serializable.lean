/-
  Atomic sections over several containers are serializable.

  A family of versioned values is used by any number of top-level transactions and by PLAIN
  parties, which belong to no transaction, in any order of steps.  A transaction reads and writes
  first, then asks containers for their votes, and is decided once: it may be confirmed, on all
  containers that it touched, only if every one of them voted for it and none voted against, and
  it may be rolled back at any time before.  Steps of others may fall between any two of these.

  1. **Histories**: what has happened, the latest event first, with the answers that were given.
     `Run` says which histories the containers allow, and the containers after them.

  2. **Replay**: the same on plain variables.  Nothing happens for a transaction until it is
     confirmed; at that place all its accesses are run, one after the other (`rerun`).  A plain
     write that was accepted happens at its place.

  3. **The statement** (`committed_transactions_serialize`): the containers end with the values
     of the replay, and every confirmed transaction was given, at each of its accesses, the
     answer that it is given in the replay.

  4. **The crux** (`Copy`): a transaction's copy is judged against the committed layer only as
     long as that layer has the version which the copy was made from.  Then the copy is what the
     transaction's accesses make of the committed value.  A vote in favour freezes the committed
     layer, so at the confirm all copies are still good at once, whatever happened to other
     containers between the votes.
-/
import Mathlib.Logic.Function.Basic
import Orchestra.Versioned

namespace Orchestra.Serial

variable {ι : Type} [DecidableEq ι] {α : ι → Type} {ρ : Type} {party : Option TxnId} {t : TxnId}
  {β : Type} {i : ι} {cells : (i : ι) → Versioned (α i)} {start : (i : ι) → α i}
  {v : Versioned (α i)}

/-! ## Histories -/

/-- A step of a party, with the answer that it was given. -/
inductive Event (α : ι → Type) (ρ : Type) where
  /-- A transaction, or a plain party, reads a container. -/
  | read (party : Option TxnId) (i : ι) (seen : α i)
  /-- A transaction, or a plain party, changes a container and finds something there; nothing if
      the change was declined. -/
  | update (party : Option TxnId) (i : ι) (f : α i → α i × ρ) (found : Option ρ)
  /-- A container votes on a transaction. -/
  | vote (t : TxnId) (i : ι) (yes : Bool)
  | confirm (t : TxnId)
  | rollback (t : TxnId)

/-- The transaction that accesses a container in an event, and that container. -/
def Event.access? : Event α ρ → Option (TxnId × ι)
  | .read (some t) i _ | .update (some t) i _ _ => some (t, i)
  | _ => none

/-- The containers that a transaction has accessed. -/
def touched (t : TxnId) (past : List (Event α ρ)) : List ι :=
  past.filterMap fun e => e.access?.bind fun a => if a.1 = t then some a.2 else none

/-- The transaction has been confirmed or rolled back. -/
def Decided (t : TxnId) (past : List (Event α ρ)) : Prop :=
  .confirm t ∈ past ∨ .rollback t ∈ past

/-- The transaction may still read and write: no vote was asked for, and it is not decided. -/
def Open (t : TxnId) (past : List (Event α ρ)) : Prop :=
  ¬ Decided t past ∧ ∀ i yes, .vote t i yes ∉ past

/-- The scope of a top-level transaction. -/
def top (t : TxnId) : Scope := ⟨t, []⟩

/-- The histories of containers that start with the values `start`, and the containers after
    them. -/
inductive Run (start : (i : ι) → α i) :
    List (Event α ρ) → ((i : ι) → Versioned (α i)) → Prop where
  | begin : Run start [] fun i => .new (start i)
  | read {past cells} (party : Option TxnId) (i : ι) : Run start past cells →
      (∀ t, party = some t → Open t past) →
      Run start (.read party i ((cells i).read (party.map top)).1 :: past)
        (Function.update cells i ((cells i).read (party.map top)).2)
  | update {past cells} (party : Option TxnId) (i : ι) (f : α i → α i × ρ) :
      Run start past cells → (∀ t, party = some t → Open t past) →
      Run start (.update party i f ((cells i).update (party.map top) f).1 :: past)
        (Function.update cells i ((cells i).update (party.map top) f).2)
  | vote {past cells} (t : TxnId) (i : ι) : Run start past cells → ¬ Decided t past →
      Run start (.vote t i ((cells i).ready (top t)).1 :: past)
        (Function.update cells i ((cells i).ready (top t)).2)
  | confirm {past cells} (t : TxnId) : Run start past cells → ¬ Decided t past →
      (∀ i ∈ touched t past, .vote t i true ∈ past) → (∀ i, .vote t i false ∉ past) →
      Run start (.confirm t :: past)
        fun i => if i ∈ touched t past then (cells i).confirm (top t) else cells i
  | rollback {past cells} (t : TxnId) : Run start past cells → ¬ Decided t past →
      Run start (.rollback t :: past)
        fun i => if i ∈ touched t past then (cells i).rollback (top t) else cells i

/-! ## Replay -/

/-- What an event makes of plain variables when the transaction `t` runs on them. -/
def Event.apply (t : TxnId) (vars : (i : ι) → α i) : Event α ρ → (i : ι) → α i
  | .update (some u) i f _ => if u = t then Function.update vars i (f (vars i)).1 else vars
  | _ => vars

/-- What the accesses of a transaction in a history make of plain variables. -/
def rerun (t : TxnId) (vars : (i : ι) → α i) : List (Event α ρ) → (i : ι) → α i
  | [] => vars
  | e :: past => e.apply t (rerun t vars past)

/-- If the event is an access of the transaction `t` to container `i`, it was given the answer
    that the plain variables give. -/
def Event.Fits (t : TxnId) (i : ι) (vars : (i : ι) → α i) : Event α ρ → Prop
  | .read (some u) j seen => u = t → j = i → seen = vars j
  | .update (some u) j f found => u = t → j = i → found = some (f (vars j)).2
  | _ => True

/-- Each access of a transaction to container `i` in a history was given the answer that it is
    given when the transaction runs on plain variables. -/
def Agrees (t : TxnId) (i : ι) (vars : (i : ι) → α i) : List (Event α ρ) → Prop
  | [] => True
  | e :: past => e.Fits t i (rerun t vars past) ∧ Agrees t i vars past

/-- What an event after the history `past` makes of plain variables: a confirmed transaction runs
    as a whole, and an accepted plain write takes place. -/
def Event.settle (past : List (Event α ρ)) (vars : (i : ι) → α i) : Event α ρ → (i : ι) → α i
  | .confirm t => rerun t vars past
  | .update none i f (some _) => Function.update vars i (f (vars i)).1
  | _ => vars

/-- The plain variables after a history: each confirmed transaction runs at the place of its
    confirm, and each accepted plain write at its own place. -/
def replay (start : (i : ι) → α i) : List (Event α ρ) → (i : ι) → α i
  | [] => start
  | e :: past => e.settle past (replay start past)

/-! ## Small facts about histories -/

variable {e : Event α ρ} {past : List (Event α ρ)}

omit [DecidableEq ι] in
theorem mem_touched_cons :
    i ∈ touched t (e :: past) ↔ e.access? = some (t, i) ∨ i ∈ touched t past := by
  cases ha : e.access? with
  | none => simp [touched, ha]
  | some a =>
    by_cases h : a.1 = t
    · simp [touched, ha, h, Prod.ext_iff, eq_comm]
    · simp [touched, ha, h, Prod.ext_iff]

omit [DecidableEq ι] in
theorem Decided.cons (e : Event α ρ) (h : Decided t past) : Decided t (e :: past) :=
  h.imp (List.mem_cons_of_mem e) (List.mem_cons_of_mem e)

/-- An event in which the transaction does not access a container leaves its variable. -/
theorem Event.apply_of_ne (h : e.access? ≠ some (t, i)) (vars : (i : ι) → α i) :
    e.apply t vars i = vars i := by
  cases e with
  | update party j f found =>
    cases party with
    | none => rfl
    | some u =>
      by_cases hu : u = t
      · have hj : i ≠ j := fun hj => h (by simp [access?, hu, hj])
        simp [apply, hu, hj]
      · simp [apply, hu]
  | _ => rfl

omit [DecidableEq ι] in
theorem Event.fits_of_ne (h : e.access? ≠ some (t, i)) (vars : (i : ι) → α i) :
    e.Fits t i vars := by
  cases e with
  | read party j seen =>
    cases party with
    | none => trivial
    | some u => exact fun hu hj => absurd (by simp [access?, hu, hj]) h
  | update party j f found =>
    cases party with
    | none => trivial
    | some u => exact fun hu hj => absurd (by simp [access?, hu, hj]) h
  | _ => trivial

/-- A write settles nothing about other variables. -/
theorem Event.settle_update_of_ne (past : List (Event α ρ)) (vars : (i : ι) → α i) {j : ι}
    (f : α i → α i × ρ) (found : Option ρ) (hj : j ≠ i) :
    (Event.update party i f found).settle past vars j = vars j := by
  cases party with
  | some t => rfl
  | none =>
    cases found with
    | none => rfl
    | some r => exact Function.update_of_ne hj _ _

/-- A variable that a transaction has not touched stays as it is. -/
theorem rerun_of_not_touched (h : i ∉ touched t past) (vars : (i : ι) → α i) :
    rerun t vars past i = vars i := by
  induction past with
  | nil => rfl
  | cons e past ih =>
    rw [mem_touched_cons, not_or] at h
    exact (Event.apply_of_ne h.1 _).trans (ih h.2)

theorem agrees_of_not_touched (h : i ∉ touched t past) (vars : (i : ι) → α i) :
    Agrees t i vars past := by
  induction past with
  | nil => trivial
  | cons e past ih =>
    rw [mem_touched_cons, not_or] at h
    exact ⟨Event.fits_of_ne h.1 _, ih h.2⟩

/-! ## The containers as top-level transactions see them -/

/-- The first touch of a top-level transaction copies the committed layer. -/
theorem touch_top (v : Versioned β) (t : TxnId) :
    v.touch (top t).lineage =
      if (v.layer? (some t)).isSome then v
      else v.setLayer (some t) { value := v.committed.value, base := v.committed.version } := by
  simp only [top, Scope.lineage, Versioned.touch, List.head?_nil]
  cases h : v.layer? (some t) with
  | none => rfl
  | some layer => rfl

/-- The confirm of a top-level transaction with a copy merges it into the committed layer. -/
theorem confirm_top {v : Versioned β} {layer : Layer β} (h : v.layer? (some t) = some layer) :
    v.confirm (top t) = (v.dropLayer t).setLayer none
      (if layer.dirty then
        { Versioned.Layer.release t v.committed with
          value := layer.value
          version := (Versioned.Layer.release t v.committed).version + 1
          dirty := true }
      else Versioned.Layer.release t v.committed) := by
  have hid : (top t).id = t := rfl
  simp only [Versioned.confirm, hid, h]
  rfl

theorem rollback_top (v : Versioned β) (t : TxnId) :
    v.rollback (top t) =
      (v.dropLayer t).setLayer none (Versioned.Layer.release t v.committed) :=
  rfl

/-- Replacing the committed layer and dropping the copy of one transaction leaves the copies of
    the others. -/
theorem layer?_replaced (v : Versioned β) {u : TxnId} (layer : Layer β) (hu : u ≠ t) :
    ((v.dropLayer t).setLayer none layer).layer? (some u) = v.layer? (some u) := by
  grind [Versioned.layer?_setLayer, Versioned.layer?_dropLayer]

/-! ## What holds between any two steps -/

/-- A transaction's copy of container `i`, judged against the committed value and its version. -/
structure Copy (t : TxnId) (i : ι) (past : List (Event α ρ)) (value : α i) (version : Nat)
    (layer : Layer (α i)) : Prop where
  pending : layer.pending = none
  base_le : layer.base ≤ version
  /-- As long as the committed layer has not moved on, the copy is what the accesses of the
      transaction make of the committed value, and their answers are those it gives. -/
  good : layer.base = version → ∀ vars : (i : ι) → α i, vars i = value →
    layer.value = rerun t vars past i ∧ Agrees t i vars past ∧
      (layer.dirty = false → layer.value = value)

/-- Container `i` after a history. -/
structure Sound (start : (i : ι) → α i) (past : List (Event α ρ)) (i : ι)
    (v : Versioned (α i)) : Prop where
  value : v.committed.value = replay start past i
  fresh : ∀ t, ¬ Decided t past → i ∉ touched t past → v.layer? (some t) = none
  copy : ∀ t, ¬ Decided t past → i ∈ touched t past →
    ∃ layer, v.layer? (some t) = some layer ∧
      Copy t i past v.committed.value v.committed.version layer ∧
      -- a vote in favour freezes the committed layer for this transaction
      (.vote t i true ∈ past →
        v.committed.pending = some t ∧ layer.base = v.committed.version)

/-- A container is left as it was by an event that has nothing to do with it. -/
theorem Sound.skip (h : Sound start past i v) (haccess : ∀ t, e.access? ≠ some (t, i))
    (hvote : ∀ t, e ≠ .vote t i true) (hreplay : replay start (e :: past) i = replay start past i) :
    Sound start (e :: past) i v := by
  have htouched : ∀ t, i ∈ touched t (e :: past) ↔ i ∈ touched t past := fun t => by
    rw [mem_touched_cons]
    exact or_iff_right (haccess t)
  refine ⟨by rw [hreplay]; exact h.value, fun t hd ht => ?_, fun t hd ht => ?_⟩
  · exact h.fresh t (fun hd' => hd (hd'.cons e)) (fun ht' => ht ((htouched t).2 ht'))
  · obtain ⟨layer, hl, hc, hv⟩ := h.copy t (fun hd' => hd (hd'.cons e)) ((htouched t).1 ht)
    refine ⟨layer, hl, ⟨hc.pending, hc.base_le, fun hb vars hvars => ?_⟩, fun hmem => ?_⟩
    · obtain ⟨h1, h2, h3⟩ := hc.good hb vars hvars
      exact ⟨h1.trans (Event.apply_of_ne (haccess t) _).symm,
        ⟨Event.fits_of_ne (haccess t) _, h2⟩, h3⟩
    · grind

/-- What the touch of an undecided transaction leaves: its own copy is there and is good, and
    nothing else has changed. -/
theorem Sound.touch (h : Sound start past i v) (hd : ¬ Decided t past) :
    (v.touch (top t).lineage).committed = v.committed ∧
    (∀ u, u ≠ t → (v.touch (top t).lineage).layer? (some u) = v.layer? (some u)) ∧
    ∃ layer, (v.touch (top t).lineage).layer? (some t) = some layer ∧
      Copy t i past v.committed.value v.committed.version layer := by
  rw [touch_top]
  by_cases ht : i ∈ touched t past
  · grind [copy]
  · rw [if_neg (by simp [h.fresh t hd ht])]
    refine ⟨rfl, fun u hu => ?_,
      { value := v.committed.value, base := v.committed.version }, ?_, ?_⟩
    · rw [Versioned.layer?_setLayer, if_neg (by simpa using hu)]
    · rw [Versioned.layer?_setLayer, if_pos rfl]
    · -- the copy has just been made, and the transaction has not used it yet
      refine ⟨rfl, Nat.le_refl _, fun _ vars hvars => ⟨?_, agrees_of_not_touched ht vars, fun _ => rfl⟩⟩
      rw [rerun_of_not_touched ht, hvars]

/-- A transaction accesses its copy: the committed layer and the copies of others stay. -/
theorem Sound.access {w : Versioned (α i)} (h : Sound start past i v) (ht : Open t past)
    (he : e.access? = some (t, i)) {layer : Layer (α i)} (hcommitted : w.committed = v.committed)
    (hothers : ∀ u, u ≠ t → w.layer? (some u) = v.layer? (some u))
    (hlayer : w.layer? (some t) = some layer)
    (hcopy : Copy t i (e :: past) v.committed.value v.committed.version layer) :
    Sound start (e :: past) i w := by
  have hreplay : replay start (e :: past) i = replay start past i := by
    cases e with
    | update party j f found =>
      cases party with
      | none => simp [Event.access?] at he
      | some u => rfl
    | confirm u => simp [Event.access?] at he
    | _ => rfl
  have hvote : ∀ u j yes, .vote u j yes ∈ e :: past → .vote u j yes ∈ past := by
    grind [Event.access?]
  have hne : ∀ u, u ≠ t → e.access? ≠ some (u, i) := by
    intro u hu hu'
    rw [he] at hu'
    cases hu'
    exact hu rfl
  refine ⟨by rw [hreplay, hcommitted]; exact h.value, fun u hd hu => ?_, fun u hd hu => ?_⟩
  · grind [mem_touched_cons, fresh, Decided.cons]
  · rw [hcommitted]
    by_cases hut : u = t
    · subst hut
      exact ⟨layer, hlayer, hcopy, fun hmem => absurd (hvote _ _ _ hmem) (ht.2 i true)⟩
    · have hu' := (mem_touched_cons.1 hu).resolve_left (hne u hut)
      obtain ⟨layer', hl, hc, hv⟩ := h.copy u (fun hd' => hd (hd'.cons e)) hu'
      refine ⟨layer', (hothers u hut).trans hl,
        ⟨hc.pending, hc.base_le, fun hb vars hvars => ?_⟩, fun hmem => hv (hvote _ _ _ hmem)⟩
      obtain ⟨h1, h2, h3⟩ := hc.good hb vars hvars
      exact ⟨h1.trans (Event.apply_of_ne (hne u hut) _).symm,
        ⟨Event.fits_of_ne (hne u hut) _, h2⟩, h3⟩

/-! ## One step -/

section

variable (h : Sound start past i v)

include h

theorem Sound.read (hopen : ∀ t, party = some t → Open t past) :
    Sound start (.read party i (v.read (party.map top)).1 :: past) i
      (v.read (party.map top)).2 := by
  cases party with
  | none => exact h.skip (by simp [Event.access?]) (by simp) rfl
  | some t =>
    have ht := hopen t rfl
    obtain ⟨hcommitted, hothers, layer, hl, hc⟩ := h.touch ht.1
    have hid : (top t).id = t := rfl
    simp only [Option.map_some, Versioned.read, hid, hl, Option.getD_some]
    refine h.access ht rfl hcommitted hothers hl ⟨hc.pending, hc.base_le, fun hb vars hvars => ?_⟩
    obtain ⟨h1, h2, h3⟩ := hc.good hb vars hvars
    exact ⟨h1, ⟨fun _ _ => h1, h2⟩, h3⟩

/-- An update goes to the copy of its party, or without a party to the committed value. -/
theorem Sound.update (hopen : ∀ t, party = some t → Open t past) (f : α i → α i × ρ) :
    Sound start (.update party i f (v.update (party.map top) f).1 :: past) i
      (v.update (party.map top) f).2 := by
  cases party with
  | none =>
    have hlayer : v.layer? none = some v.committed := rfl
    simp only [Option.map_none, Versioned.update, hlayer]
    by_cases hp : v.committed.pending.isSome
    · -- declined, because a transaction has the committed layer frozen
      simp only [hp, if_true]
      exact h.skip (by simp [Event.access?]) (by simp) rfl
    · simp only [hp]
      refine ⟨?_, fun t hd ht => ?_, fun t hd ht => ?_⟩
      · show (f v.committed.value).1 = Function.update _ i _ i
        rw [Function.update_self, h.value]
      · exact h.fresh t (fun hd' => hd (hd'.cons _)) fun ht' =>
          ht (mem_touched_cons.2 (Or.inr ht'))
      · have ht' := (mem_touched_cons.1 ht).resolve_left (by simp [Event.access?])
        obtain ⟨layer, hl, hc, hv⟩ := h.copy t (fun hd' => hd (hd'.cons _)) ht'
        have hle : layer.base ≤ v.committed.version := hc.base_le
        refine ⟨layer, hl, ⟨hc.pending, Nat.le_succ_of_le hle, fun hb => ?_⟩, fun hmem => ?_⟩
        · -- the copy was made from an earlier version
          have hb' : layer.base = v.committed.version + 1 := hb
          omega
        · grind
  | some t =>
    have ht := hopen t rfl
    obtain ⟨hcommitted, hothers, layer, hl, hc⟩ := h.touch ht.1
    have hid : (top t).id = t := rfl
    simp only [Option.map_some, Versioned.update, hid, hl, hc.pending, Option.isSome_none,
      Bool.false_eq_true, if_false]
    generalize hnew : ({ layer with
      value := (f layer.value).1, version := layer.version + 1, dirty := true } : Layer (α i)) = new
    refine h.access ht rfl hcommitted (fun u hu => ?_)
      (by rw [Versioned.layer?_setLayer, if_pos rfl]) ?_
    · rw [Versioned.layer?_setLayer, if_neg (by simpa using hu)]
      exact hothers u hu
    · subst hnew
      refine ⟨rfl, hc.base_le, fun hb vars hvars => ?_⟩
      obtain ⟨h1, h2, -⟩ := hc.good hb vars hvars
      refine ⟨?_, ⟨fun _ _ => by rw [h1], h2⟩, fun hdirty => nomatch hdirty⟩
      show (f layer.value).1 = Event.apply t _ _ i
      simp [Event.apply, h1]

/-- A vote in favour freezes the committed layer. -/
theorem Sound.vote (hd : ¬ Decided t past) :
    Sound start (.vote t i (v.ready (top t)).1 :: past) i (v.ready (top t)).2 := by
  have hid : (top t).id = t := rfl
  have hparent : v.layer? (top t).parent = some v.committed := rfl
  by_cases ht : i ∈ touched t past
  · obtain ⟨layer, hl, hc, -⟩ := h.copy t hd ht
    simp only [Versioned.ready, hid, hl, hparent]
    by_cases hno : (v.committed.pending.any (· ≠ t) || decide (v.committed.version ≠ layer.base)) = true
    · rw [if_pos hno]
      exact h.skip (by simp [Event.access?]) (by simp) rfl
    · rw [if_neg hno]
      simp only [ne_eq, decide_not, Bool.or_eq_true, Bool.not_eq_eq_eq_not, Bool.not_true,
        decide_eq_false_iff_not, not_or, Decidable.not_not] at hno
      obtain ⟨hpending, hbase⟩ := hno
      refine ⟨h.value, fun u hdu hu => ?_, fun u hdu hu => ?_⟩
      · exact h.fresh u (fun hd' => hdu (hd'.cons _)) fun hu' =>
          hu (mem_touched_cons.2 (Or.inr hu'))
      · have hu' := (mem_touched_cons.1 hu).resolve_left (by simp [Event.access?])
        obtain ⟨layer', hl', hc', hv'⟩ := h.copy u (fun hd' => hdu (hd'.cons _)) hu'
        refine ⟨layer', hl', ⟨hc'.pending, hc'.base_le, fun hb vars hvars => ?_⟩, fun hmem => ?_⟩
        · obtain ⟨h1, h2, h3⟩ := hc'.good hb vars hvars
          exact ⟨h1, ⟨trivial, h2⟩, h3⟩
        · by_cases hut : u = t
          · subst hut
            rw [hl] at hl'
            cases hl'
            exact ⟨rfl, hbase.symm⟩
          · -- had another transaction frozen the layer, it would not vote for this one
            grind
  · -- an untouched container votes for everything and marks nothing
    have hl := h.fresh t hd ht
    simp only [Versioned.ready, hid, hl]
    refine ⟨h.value, fun u hdu hu => ?_, fun u hdu hu => ?_⟩
    · grind [fresh, Decided.cons, mem_touched_cons]
    · have hu' := (mem_touched_cons.1 hu).resolve_left (by simp [Event.access?])
      obtain ⟨layer', hl', hc', hv'⟩ := h.copy u (fun hd' => hdu (hd'.cons _)) hu'
      have hut : u ≠ t := fun hut => ht (hut ▸ hu')
      refine ⟨layer', hl', ⟨hc'.pending, hc'.base_le, fun hb vars hvars => ?_⟩,
        fun hmem => hv' (by simpa [hut] using hmem)⟩
      obtain ⟨h1, h2, h3⟩ := hc'.good hb vars hvars
      exact ⟨h1, ⟨trivial, h2⟩, h3⟩

end

/-- A decision on `t` that leaves the copies of others, and leaves the committed value and
    version as they are or moves the version on, is sound if the new value is the replayed
    one and nobody else had frozen the committed layer. -/
theorem Sound.decide {w : Versioned (α i)} (h : Sound start past i v)
    (he : e = .confirm t ∨ e = .rollback t)
    (hvalue : w.committed.value = replay start (e :: past) i)
    (hversion : w.committed.version = v.committed.version ∧
        w.committed.value = v.committed.value ∨ v.committed.version < w.committed.version)
    (hothers : ∀ u, u ≠ t → w.layer? (some u) = v.layer? (some u))
    (hpending : ∀ u, u ≠ t → v.committed.pending = some u →
      w.committed.pending = some u ∧ w.committed.version = v.committed.version) :
    Sound start (e :: past) i w := by
  have hdecided : Decided t (e :: past) := by
    rcases he with rfl | rfl
    · exact Or.inl (List.mem_cons_self ..)
    · exact Or.inr (List.mem_cons_self ..)
  have haccess : ∀ u, e.access? ≠ some (u, i) := by
    rcases he with rfl | rfl <;> simp [Event.access?]
  have hvote : ∀ u, .vote u i true ∈ e :: past → .vote u i true ∈ past := by
    rcases he with rfl | rfl <;> simp
  refine ⟨hvalue, fun u hd hu => ?_, fun u hd hu => ?_⟩
  · grind [fresh, Decided.cons, mem_touched_cons]
  · have hut : u ≠ t := fun hut => hd (hut ▸ hdecided)
    have hu' := (mem_touched_cons.1 hu).resolve_left (haccess u)
    obtain ⟨layer, hl, hc, hv⟩ := h.copy u (fun hd' => hd (hd'.cons e)) hu'
    have hle := hc.base_le
    refine ⟨layer, (hothers u hut).trans hl, ⟨hc.pending, by omega, fun hb vars hvars => ?_⟩,
      fun hmem => ?_⟩
    · rcases hversion with ⟨hver, hval⟩ | hlt
      · rw [hver] at hb
        rw [hval] at hvars
        obtain ⟨h1, h2, h3⟩ := hc.good hb vars hvars
        exact ⟨h1.trans (Event.apply_of_ne (haccess u) _).symm,
          ⟨Event.fits_of_ne (haccess u) _, h2⟩, fun hdirty => (h3 hdirty).trans hval.symm⟩
      · omega
    · grind

/-- A commit puts the copy in the place of the committed value. -/
theorem Sound.confirm (h : Sound start past i v) (hd : ¬ Decided t past) (ht : i ∈ touched t past)
    (hyes : .vote t i true ∈ past) : Sound start (.confirm t :: past) i (v.confirm (top t)) := by
  obtain ⟨layer, hl, hc, hv⟩ := h.copy t hd ht
  obtain ⟨hpending, hbase⟩ := hv hyes
  -- the layer is frozen, so the copy is what the replay makes of the committed value
  obtain ⟨hvalue, -, hclean⟩ := hc.good hbase (replay start past) h.value.symm
  have hreplay : replay start (.confirm t :: past) i = rerun t (replay start past) past i := rfl
  have hnobody : ∀ u, u ≠ t → v.committed.pending ≠ some u := by
    intro u hu hp
    rw [hpending] at hp
    exact hu (Option.some.inj hp).symm
  rw [confirm_top hl, Versioned.Layer.release, if_pos hpending]
  cases hdirty : layer.dirty with
  | true =>
    exact h.decide (Or.inl rfl) (hvalue.trans hreplay.symm) (Or.inr (Nat.lt_succ_self _))
      (fun u hu => layer?_replaced v _ hu) (fun u hu hp => absurd hp (hnobody u hu))
  | false =>
    have hvalue' : v.committed.value = replay start (.confirm t :: past) i :=
      (hclean hdirty).symm.trans (hvalue.trans hreplay.symm)
    exact h.decide (Or.inl rfl) hvalue' (Or.inl ⟨rfl, rfl⟩)
      (fun u hu => layer?_replaced v _ hu) (fun u hu hp => absurd hp (hnobody u hu))

theorem Sound.rollback (h : Sound start past i v) (t : TxnId) :
    Sound start (.rollback t :: past) i (v.rollback (top t)) := by
  rw [rollback_top, Versioned.Layer.release]
  by_cases hp : v.committed.pending = some t
  · rw [if_pos hp]
    refine h.decide (Or.inr rfl) h.value (Or.inl ⟨rfl, rfl⟩)
      (fun u hu => layer?_replaced v _ hu) (fun u hu hp' => ?_)
    rw [hp] at hp'
    exact absurd (Option.some.inj hp').symm hu
  · rw [if_neg hp]
    exact h.decide (Or.inr rfl) h.value (Or.inl ⟨rfl, rfl⟩)
      (fun u hu => layer?_replaced v _ hu) (fun _ _ hp' => ⟨hp', rfl⟩)

/-! ## Whole histories -/

/-- An event at container `i` leaves every other container sound. -/
theorem Sound.update_other (h : ∀ i, Sound start past i (cells i))
    (hi : Sound start (e :: past) i v) (haccess : ∀ t j, j ≠ i → e.access? ≠ some (t, j))
    (hvote : ∀ t j, j ≠ i → e ≠ .vote t j true)
    (hreplay : ∀ j, j ≠ i → replay start (e :: past) j = replay start past j) :
    ∀ j, Sound start (e :: past) j (Function.update cells i v j) := by grind [skip]

/-- In every run each container is what its history says. -/
theorem Run.sound (h : Run start past cells) : ∀ i, Sound start past i (cells i) := by
  induction h with
  | begin =>
    intro i
    exact ⟨rfl, fun _ _ _ => rfl, fun _ _ ht => absurd ht (by simp [touched])⟩
  | read party i _ hopen ih =>
    refine Sound.update_other ih ((ih i).read hopen) (fun t j hj => ?_) (by simp) (fun _ _ => rfl)
    cases party <;> simp [Event.access?, Ne.symm hj]
  | update party i f _ hopen ih =>
    refine Sound.update_other ih ((ih i).update hopen f) (fun t j hj => ?_) (by simp)
      (fun j hj => ?_)
    · cases party <;> simp [Event.access?, Ne.symm hj]
    · exact Event.settle_update_of_ne _ _ f _ hj
  | vote t i _ hd ih =>
    refine Sound.update_other ih ((ih i).vote hd) (by simp [Event.access?]) (fun u j hj => ?_)
      (fun _ _ => rfl)
    simp [Ne.symm hj]
  | @confirm past cells t _ hd hyes _ ih =>
    intro i
    by_cases ht : i ∈ touched t past
    · simp only [if_pos ht]
      exact (ih i).confirm hd ht (hyes i ht)
    · simp only [if_neg ht]
      exact (ih i).skip (by simp [Event.access?]) (by simp) (rerun_of_not_touched ht _)
  | @rollback past cells t _ _ ih =>
    intro i
    by_cases ht : i ∈ touched t past
    · simp only [if_pos ht]
      exact (ih i).rollback t
    · simp only [if_neg ht]
      exact (ih i).skip (by simp [Event.access?]) (by simp) rfl

/-- What was so far is itself a history of the containers. -/
theorem Run.earlier (h : Run start past cells) {later earlier : List (Event α ρ)}
    (hp : past = later ++ earlier) : ∃ cells', Run start earlier cells' := by
  induction later generalizing past cells with
  | nil =>
    obtain rfl : past = earlier := hp
    exact ⟨cells, h⟩
  | cons e later ih =>
    subst hp
    rcases h with _ | ⟨_, _, h, _⟩ | ⟨_, _, _, h, _⟩ | ⟨_, _, h, _⟩ | ⟨_, h, _, _, _⟩ | ⟨_, h, _⟩
    all_goals exact ih h rfl

/-- **Serializability.**  Replaying on plain variables only the confirmed transactions, one after
    another in the order of their confirms, together with the accepted plain writes, leaves every
    container with its committed value and gives each confirmed transaction, at each of its
    accesses to every container, the answer that it was given. -/
theorem committed_transactions_serialize {start : (i : ι) → α i} {past : List (Event α ρ)}
    {cells : (i : ι) → Versioned (α i)} (h : Run start past cells) :
    (∀ i, (cells i).committed.value = replay start past i) ∧
    ∀ later t earlier, past = later ++ .confirm t :: earlier →
      ∀ i, Agrees t i (replay start earlier) earlier := by
  refine ⟨fun i => (h.sound i).value, fun later t earlier hp i => ?_⟩
  obtain ⟨_, h'⟩ := h.earlier hp
  obtain _ | _ | _ | _ | ⟨_, hrun, hd, hyes, _⟩ := h'
  by_cases ht : i ∈ touched t earlier
  · have hs := hrun.sound i
    obtain ⟨layer, -, hc, hv⟩ := hs.copy t hd ht
    exact (hc.good (hv (hyes i ht)).2 _ hs.value.symm).2.1
  · exact agrees_of_not_touched ht _

/-- A transaction reads one container and writes another; in between its votes a plain party
    tries to write the first one, in vain. -/
theorem committed_transactions_serialize_over_two :
    ∃ (past : List (Event (fun _ : Bool => Nat) Unit)) (cells : Bool → Versioned Nat),
      Run (fun _ => 0) past cells ∧ .confirm ⟨0⟩ ∈ past ∧ (cells true).committed.value = 1 ∧
      (∀ i, (cells i).committed.value = replay (fun _ => 0) past i) ∧
      ∀ later t earlier, past = later ++ .confirm t :: earlier →
        ∀ i, Agrees t i (replay (fun _ => 0) earlier) earlier := by
  have h0 : Run (ρ := Unit) (fun _ : Bool => 0) [] fun _ => .new 0 := .begin
  have h1 := h0.read (some ⟨0⟩) false (by simp [Open, Decided])
  have h2 := h1.update (some ⟨0⟩) true (fun n => (n + 1, ())) (by simp [Open, Decided])
  have h3 := h2.vote ⟨0⟩ false (by simp [Decided])
  have h4 := h3.update none false (fun _ => (9, ())) (by simp)
  have h5 := h4.vote ⟨0⟩ true (by simp [Decided])
  have h6 := h5.confirm ⟨0⟩ (by simp [Decided])
    (fun i _ => match i with
      | true => .head _
      | false => .tail _ (.tail _ (.head _)))
    (fun i hmem => by
      rcases hmem with _ | ⟨_, _ | ⟨_, _ | ⟨_, _ | ⟨_, _ | ⟨_, _ | _⟩⟩⟩⟩⟩)
  exact ⟨_, _, h6, .head _, rfl, committed_transactions_serialize h6⟩

end Orchestra.Serial
