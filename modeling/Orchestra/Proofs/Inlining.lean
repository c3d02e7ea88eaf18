/-
  A nested commit equals direct execution.

  A transaction may hand a part of what it does to a new transaction inside it, which does it on
  its own copy, votes and commits; and that one may do the same in turn.  A SCRIPT says what is done
  by whom, to any depth.  Its accesses may as well be made by the outer transaction itself.

  1. **The statement** (`nested_commit_is_direct`): both ways give the same answers and leave the
     same layers, but for the version of the layer of the outer transaction; that version moves on in
     one way if and only if it does in the other.  All votes are in favour.  Whatever happens next,
     both values go on to give the same answers up to the vote of the outer transaction, and its
     commit leaves the same layers.

  2. **What a script does** (`Script.outcome`): to the layer of the outer transaction what its
     accesses do to a plain variable, and nothing else.  A script without nesting is one too, so
     this is all that is needed of either way.

  3. **What a version is good for** (`Alike`): only children compare it, with the version that their
     copy was made from.  Two values in which these comparisons turn out alike are not told apart.
     A copy that is ahead of the layer it was made from could tell them apart; such copies do not
     arise, but the statement is about any value, so it asks that they do not vote.
-/
import Orchestra.Proofs.Forest

namespace Orchestra

open List

open Versioned (layer?_dropLayer layer?_setLayer layer?_touch_old touch_of_present)

variable {F : Forest} {j k : Nat} {l party : Option TxnId} {c t : TxnId}

/-- A read or an update, whoever makes it. -/
inductive Access (α β : Type) where
  | read
  | update (f : α → α × β)

/-- What a transaction does, in order.  `nested` has a part of it done by a transaction inside,
    which then votes and commits. -/
inductive Script (α β : Type) where
  | done
  | access (a : Access α β) (rest : Script α β)
  | nested (c : TxnId) (inner rest : Script α β)

variable {α β : Type}

namespace Access

/-- The access, made by the transaction `p`. -/
def op (p : TxnId) : Access α β → Op α β
  | read => .read (some p)
  | update f => .update (some p) f

/-- What accesses are told when they are made to a plain variable, and the variable after them. -/
def plain (a : α) : List (Access α β) → List (Answer α β) × α
  | [] => ([], a)
  | read :: rest => (.seen a :: (plain a rest).1, (plain a rest).2)
  | update f :: rest =>
    (.found (some (f a).2) :: (plain (f a).1 rest).1, (plain (f a).1 rest).2)

end Access

/-- The answer to an access, and not to a vote or a decision. -/
def Answer.isAccess : Answer α β → Bool
  | seen _ | found _ => true
  | _ => false

namespace Script

/-- All accesses in order, whoever makes them. -/
def accesses : Script α β → List (Access α β)
  | done => []
  | access a rest => a :: rest.accesses
  | nested _ inner rest => inner.accesses ++ rest.accesses

/-- The operations when the transaction `p` runs the script. -/
def ops (p : TxnId) : Script α β → List (Op α β)
  | done => []
  | access a rest => a.op p :: rest.ops p
  | nested c inner rest => inner.ops c ++ .ready c :: .confirm c :: rest.ops p

/-- Each nested transaction is a child of the one that starts it, and has no layer yet. -/
def Fresh (F : Forest) (v : Versioned α) (p : TxnId) : Script α β → Prop
  | done => True
  | access _ rest => rest.Fresh F v p
  | nested c inner rest =>
    F.parent c = some p ∧ v.layer? (some c) = none ∧ inner.Fresh F v c ∧ rest.Fresh F v p

/-- The script that makes the accesses itself. -/
def direct : List (Access α β) → Script α β
  | [] => done
  | a :: rest => access a (direct rest)

theorem accesses_direct (as : List (Access α β)) : (direct as).accesses = as := by
  induction as with
  | nil => rfl
  | cons a as ih => exact congrArg (a :: ·) ih

theorem ops_direct (p : TxnId) (as : List (Access α β)) :
    (direct as).ops p = as.map (Access.op p) := by
  induction as with
  | nil => rfl
  | cons a as ih => exact congrArg (a.op p :: ·) ih

theorem fresh_direct (F : Forest) (v : Versioned α) (p : TxnId) (as : List (Access α β)) :
    (direct as).Fresh F v p := by
  induction as with
  | nil => trivial
  | cons a as ih => exact ih

/-- Freshness is about layers of transactions inside. -/
theorem Fresh.congr {v w : Versioned α} {p : TxnId} {s : Script α β} (h : s.Fresh F v p)
    (heq : ∀ c, p ∈ F.ancestors c → w.layer? (some c) = v.layer? (some c)) : s.Fresh F w p := by
  induction s generalizing p with
  | done => trivial
  | access a rest ih => exact ih h heq
  | nested c inner rest ihinner ihrest =>
    obtain ⟨hparent, hnone, hinner, hrest⟩ := h
    have hp := Forest.mem_ancestors_of_parent hparent
    refine ⟨hparent, (heq c hp).trans hnone, ihinner hinner fun d hd => heq d ?_, ihrest hrest heq⟩
    exact (Forest.line_suffix_ancestors hd).subset (mem_cons_of_mem c hp)

end Script

/-! ## What a script does -/

namespace Access

theorem plain_append (a : α) (as bs : List (Access α β)) :
    plain a (as ++ bs) =
      ((plain a as).1 ++ (plain (plain a as).2 bs).1, (plain (plain a as).2 bs).2) := by
  induction as generalizing a with
  | nil => rfl
  | cons x as ih =>
    cases x with
    | read => simp only [cons_append, plain, ih]
    | update f => simp only [cons_append, plain, ih]

/-- Reads leave a variable as it is. -/
theorem plain_of_no_update {a : α} {as : List (Access α β)} (h : ∀ f, .update f ∉ as) :
    (plain a as).2 = a := by
  induction as with
  | nil => rfl
  | cons x as ih =>
    cases x with
    | read => exact ih fun f hf => h f (mem_cons_of_mem _ hf)
    | update f => exact absurd (mem_cons_self ..) (h f)

end Access

/-- The layer with another value, moved on by `k` versions. -/
def Layer.moved (x : Layer α) (a : α) (k : Nat) : Layer α :=
  { x with value := a, version := x.version + k, dirty := x.dirty || decide (0 < k) }

theorem Layer.moved_zero (x : Layer α) : x.moved x.value 0 = x := by
  cases x
  simp [moved]

theorem Layer.moved_one (x : Layer α) (a : α) : x.moved a 1 = x.write a := by
  simp [moved, write]

theorem Layer.moved_moved (x : Layer α) (a b : α) (j k : Nat) :
    (x.moved a j).moved b k = x.moved b (j + k) := by
  have hdirty : (decide (0 < j) || decide (0 < k)) = decide (0 < j + k) := by grind
  simp only [moved, Nat.add_assoc, Bool.or_assoc, hdirty]

/-- The transaction `p`, whose layer is `x` once it is touched, has made the accesses `as`, by itself
    or by others, and its layer has moved on by `k` versions. -/
structure Outcome (F : Forest) (p : TxnId) (v : Versioned α) (x : Layer α) (as : List (Access α β))
    (k : Nat) (run : List (Answer α β) × Versioned α) : Prop where
  moves : 0 < k ↔ ∃ f, .update f ∈ as
  told : run.1.filter Answer.isAccess = (Access.plain x.value as).1
  approved : ∀ yes, .vote yes ∈ run.1 → yes = true
  layers : ∀ l, (run.2.touch (F.line (some p))).layer? l =
    if l = some p then some (x.moved (Access.plain x.value as).2 k)
    else (v.touch (F.line (some p))).layer? l
  idle : as = [] → run.2 = v
  present : as ≠ [] → ∀ t ∈ F.line (some p), run.2.layer? (some t) ≠ none

theorem Op.runs_append (F : Forest) (v : Versioned α) (ops ops' : List (Op α β)) :
    Op.runs F v (ops ++ ops') =
      ((Op.runs F v ops).1 ++ (Op.runs F (Op.runs F v ops).2 ops').1,
        (Op.runs F (Op.runs F v ops).2 ops').2) := by
  induction ops generalizing v with
  | nil => rfl
  | cons op ops ih => simp only [cons_append, Op.runs, ih]

/-- Every layer of a touched line is there. -/
theorem Versioned.touch_present (v : Versioned α) (ht : t ∈ F.line party) :
    (v.touch (F.line party)).layer? (some t) ≠ none := by
  cases hx : v.layer? (some t) with
  | some x =>
    rw [layer?_touch_old hx]
    nofun
  | none =>
    obtain ⟨_, _, _, hnew⟩ := v.layer?_touch_new ht hx
    rw [hnew]
    nofun

namespace Outcome

variable {p : TxnId} {v : Versioned α} {x : Layer α} {as : List (Access α β)} {ops : List (Op α β)}

/-- Outcomes one after the other make one. -/
theorem append {bs : List (Access α β)} {ops' : List (Op α β)}
    (h : Outcome F p v x as j (Op.runs F v ops))
    (h' : Outcome F p (Op.runs F v ops).2 (x.moved (Access.plain x.value as).2 j) bs k
      (Op.runs F (Op.runs F v ops).2 ops')) :
    Outcome F p v x (as ++ bs) (j + k) (Op.runs F v (ops ++ ops')) := by
  rw [Op.runs_append]
  have hvalue : (x.moved (Access.plain x.value as).2 j).value = (Access.plain x.value as).2 := rfl
  refine ⟨?_, ?_, fun yes hyes => ?_, fun l => ?_, fun hnil => ?_, fun hne => ?_⟩
  · have hj := h.moves
    have hk := h'.moves
    grind
  · grind [told, Access.plain_append]
  · grind [approved]
  · rw [h'.layers, Access.plain_append, Layer.moved_moved, hvalue]
    grind [layers]
  · grind [append_eq_nil_iff, idle]
  · grind [idle, present]

theorem done (hx : (v.touch (F.line (some p))).layer? (some p) = some x) :
    Outcome F p v x ([] : List (Access α β)) 0 ([], v) where
  moves := by simp
  told := rfl
  approved := by simp
  layers l := by
    show _ = if l = some p then some (x.moved x.value 0) else _
    grind [Layer.moved_zero]
  idle _ := rfl
  present h := absurd rfl h

/-- An access of `p` itself. -/
theorem access (hx : (v.touch (F.line (some p))).layer? (some p) = some x)
    (hpending : x.pending = none) (a : Access α β) :
    ∃ k, Outcome F p v x [a] k (Op.runs F v [a.op p]) := by
  have hall : ∀ t ∈ F.line (some p), (v.touch (F.line (some p))).layer? (some t) ≠ none :=
    fun t ht => v.touch_present ht
  cases a with
  | read =>
    have hruns : Op.runs F v [(Access.read : Access α β).op p] =
        ([.seen x.value], v.touch (F.line (some p))) := by
      simp only [Access.op, Op.runs, Op.run_read hx]
    rw [hruns]
    refine ⟨0, by simp, rfl, by simp, fun l => ?_, by simp, fun _ => hall⟩
    show _ = if l = some p then some (x.moved x.value 0) else _
    grind [Layer.moved_zero, touch_of_present]
  | update f =>
    have hruns : Op.runs F v [(Access.update f).op p] = ([.found (some (f x.value).2)],
        (v.touch (F.line (some p))).setLayer (some p) (x.write (f x.value).1)) := by
      simp [Access.op, Op.runs, Op.run_update hx, hpending]
    rw [hruns]
    have hthere : ∀ t ∈ F.line (some p), ((v.touch (F.line (some p))).setLayer (some p)
        (x.write (f x.value).1)).layer? (some t) ≠ none := by grind [layer?_setLayer]
    refine ⟨1, by simp, rfl, by simp, fun l => ?_, by simp, fun _ => hthere⟩
    show _ = if l = some p then some (x.moved (f x.value).1 1) else _
    rw [Layer.moved_one, touch_of_present hthere, layer?_setLayer]

/-- The line of a new child is that of its parent, and a copy for the child. -/
theorem layer?_touch_child (hx : (v.touch (F.line (some p))).layer? (some p) = some x)
    (hparent : F.parent c = some p) (hnone : v.layer? (some c) = none) (l : Option TxnId) :
    (v.touch (F.line (some c))).layer? l =
      if l = some c then some x.copy else (v.touch (F.line (some p))).layer? l := by
  have hline : F.line (some c) = c :: F.line (some p) := by
    rw [← hparent, ← F.ancestors_eq_line]
    rfl
  rcases v.touch_cons c (F.line (some p)) with heq | ⟨source, -, hsource, heq⟩
  · -- the child has no layer to be found
    refine absurd ?_ (v.touch_present (F.mem_line_self c))
    rw [hline, heq, v.layer?_touch_of_not_mem, hnone]
    rintro u hu hcu
    cases hcu
    rw [← hparent, ← F.ancestors_eq_line] at hu
    exact F.not_mem_ancestors c hu
  · obtain rfl := Option.some.inj (hx.symm.trans hsource)
    rw [hline, heq, layer?_setLayer]

/-- A child without a layer votes in favour, and its commit changes nothing. -/
theorem runs_commit_idle (hnone : v.layer? (some c) = none) :
    Op.runs F v ([.ready c, .confirm c] : List (Op α β)) = ([.vote true, .done], v) := by
  have hid : (F.scope c).id = c := rfl
  grind [Versioned.ready, Versioned.confirm, Op.runs, Op.run]

/-- A child whose copy was made from the present layer of its parent commits into it. -/
theorem runs_commit {y : Layer α} (hparent : F.parent c = some p) (hc : v.layer? (some c) = some y)
    (hp : v.layer? (some p) = some x) (hpending : x.pending = none) (hbase : x.version = y.base) :
    ∃ w, Op.runs F v ([.ready c, .confirm c] : List (Op α β)) = ([.vote true, .done], w) ∧
      ∀ l, w.layer? l =
        if l = some p then some (if y.dirty then x.write y.value else x)
        else if l = some c then none else v.layer? l := by
  have hid : (F.scope c).id = c := rfl
  have hscope : (F.scope c).parent = some p := hparent
  have hne : some c ≠ some p := fun heq => F.parent_ne_self c (hparent.trans heq.symm)
  have hready : v.ready (F.scope c) =
      (true, v.setLayer (some p) { x with pending := some c }) := by grind [Versioned.ready]
  have hrelease : Versioned.Layer.release c { x with pending := some c } = x := by
    cases x
    cases hpending
    simp [Versioned.Layer.release]
  have hconfirm : (v.setLayer (some p) { x with pending := some c }).confirm (F.scope c) =
      ((v.setLayer (some p) { x with pending := some c }).dropLayer c).setLayer (some p)
        (if y.dirty then x.write y.value else x) := by
    grind [layer?_setLayer, layer?_dropLayer, Versioned.confirm, Layer.write]
  simp_all [layer?_setLayer, layer?_dropLayer, Op.runs, Op.run]

/-- A new child has made the accesses, has voted and has committed. -/
theorem nested (hx : (v.touch (F.line (some p))).layer? (some p) = some x)
    (hpending : x.pending = none) (hparent : F.parent c = some p) (hnone : v.layer? (some c) = none)
    (h : Outcome F c v x.copy as k (Op.runs F v ops)) :
    ∃ j, Outcome F p v x as j (Op.runs F v (ops ++ [.ready c, .confirm c])) := by
  rw [Op.runs_append]
  have hne : some c ≠ some p := fun heq => F.parent_ne_self c (hparent.trans heq.symm)
  have htold : ((Op.runs F v ops).1 ++ [Answer.vote true, .done]).filter Answer.isAccess =
      (Access.plain x.value as).1 := by
    rw [filter_append, h.told]
    exact append_nil _
  have happroved : ∀ yes, .vote yes ∈ (Op.runs F v ops).1 ++ [.vote true, .done] → yes = true := by
    grind [approved]
  by_cases has : as = []
  · have hidle := h.idle has
    rw [hidle, runs_commit_idle hnone]
    subst has
    have hdone := done (β := β) hx
    exact ⟨0, hdone.moves, htold, happroved, hdone.layers, hdone.idle, hdone.present⟩
  · -- the copy of the child is there, and has been made from the layer of the parent
    have hlayers := h.layers
    rw [touch_of_present (h.present has)] at hlayers
    have hc := hlayers (some c)
    rw [if_pos rfl] at hc
    have hp := hlayers (some p)
    rw [if_neg hne.symm, layer?_touch_child hx hparent hnone, if_neg hne.symm, hx] at hp
    obtain ⟨w, hruns, hw⟩ := runs_commit (β := β) hparent hc hp hpending rfl
    rw [hruns]
    -- the layers after the commit, seen from the parent
    have hw' : ∀ l, w.layer? l =
        if l = some p then
          some (x.moved (Access.plain x.value as).2 (if 0 < k then 1 else 0))
        else (v.touch (F.line (some p))).layer? l := by
      intro l
      rw [hw]
      split
      · congr 1
        have hdirty : (x.copy.moved (Access.plain x.copy.value as).2 k).dirty = decide (0 < k) :=
          Bool.false_or _
        rw [hdirty]
        by_cases hk : 0 < k
        · simp only [hk, decide_true, if_true]
          exact (Layer.moved_one x _).symm
        · have hread : (Access.plain x.value as).2 = x.value :=
            Access.plain_of_no_update fun f hf => hk (h.moves.2 ⟨f, hf⟩)
          simp_all [Layer.moved_zero]
      · rename_i hlp
        split
        · rename_i hlc
          rw [hlc, v.layer?_touch_of_not_mem, hnone]
          rintro u hu hcu
          cases hcu
          rw [← hparent, ← F.ancestors_eq_line] at hu
          exact F.not_mem_ancestors c hu
        · grind [layer?_touch_child]
    have hthere : ∀ t ∈ F.line (some p), w.layer? (some t) ≠ none := by
      grind [Versioned.touch_present]
    refine ⟨if 0 < k then 1 else 0, ?_, htold, happroved, ?_, fun hnil => absurd hnil has,
      fun _ => hthere⟩
    · rw [← h.moves]
      split <;> simp [*]
    · grind [touch_of_present]

/-- The rest of a script goes on after its first part. -/
theorem followed {rest : Script α β} (h : Outcome F p v x as j (Op.runs F v ops))
    (hpending : x.pending = none) (hfresh : rest.Fresh F v p)
    (hrest : ∀ {w y}, (w.touch (F.line (some p))).layer? (some p) = some y → y.pending = none →
      rest.Fresh F w p → ∃ k, Outcome F p w y rest.accesses k (Op.runs F w (rest.ops p))) :
    ∃ k, Outcome F p v x (as ++ rest.accesses) k (Op.runs F v (ops ++ rest.ops p)) := by
  have hself := h.layers (some p)
  rw [if_pos rfl] at hself
  have hfresh' : rest.Fresh F (Op.runs F v ops).2 p := by
    refine hfresh.congr fun c hc => ?_
    -- transactions inside have not been touched
    have hnot : ∀ t ∈ F.line (some p), some c ≠ some t := by
      grind [Forest.not_mem_line_of_mem_ancestors]
    have hl := h.layers (some c)
    grind [Forest.mem_line_self, Versioned.layer?_touch_of_not_mem]
  obtain ⟨k, hk⟩ := hrest hself hpending hfresh'
  exact ⟨j + k, h.append hk⟩

end Outcome

/-- **What a script does** to the layer of the transaction that runs it is what its accesses do to a
    plain variable, and it does nothing to other layers but to touch those around. -/
theorem Script.outcome (s : Script α β) {p : TxnId} {v : Versioned α} {x : Layer α}
    (hx : (v.touch (F.line (some p))).layer? (some p) = some x) (hpending : x.pending = none)
    (hfresh : s.Fresh F v p) : ∃ k, Outcome F p v x s.accesses k (Op.runs F v (s.ops p)) := by
  induction s generalizing p v x with
  | done => exact ⟨0, .done hx⟩
  | access a rest ih =>
    obtain ⟨j, hj⟩ := Outcome.access hx hpending a
    exact hj.followed hpending hfresh ih
  | nested c inner rest ihinner ihrest =>
    obtain ⟨hparent, hnone, hinner, hrest⟩ := hfresh
    have hcopy := Outcome.layer?_touch_child hx hparent hnone (some c)
    rw [if_pos rfl] at hcopy
    obtain ⟨i, hi⟩ := ihinner hcopy rfl hinner
    obtain ⟨j, hj⟩ := hi.nested hx hpending hparent hnone
    have hall := hj.followed hpending hrest ihrest
    rwa [append_assoc] at hall

/-! ## What a version is good for -/

/-- The layers at `l` of two values agree, but for the version of `p` and the bases of its
    children. -/
structure Peers (F : Forest) (p : TxnId) (l : Option TxnId) (x y : Layer α) : Prop where
  value : x.value = y.value
  dirty : x.dirty = y.dirty
  pending : x.pending = y.pending
  version : l ≠ some p → x.version = y.version
  base : (∀ d, l = some d → F.parent d ≠ some p) → x.base = y.base

/-- A copy from version `i` of a layer at version `m` compares to it as a copy from `j` compares to a
    layer at version `n`, now and after any number of writes. -/
def InStep (m i n j : Nat) : Prop := m = n ∧ i = j ∨ i ≤ m ∧ j ≤ n ∧ (i = m ↔ j = n)

theorem InStep.succ {m i n : Nat} (h : InStep m i n j) : InStep (m + 1) i (n + 1) j := by
  unfold InStep at *
  omega

/-- Two values that differ in the version of `p` only, as far as anybody can tell.  Of the copies of
    children only those that are `fit` to vote count. -/
structure Alike (F : Forest) (p : TxnId) (fit : TxnId → Prop) (v w : Versioned α) : Prop where
  peers : ∀ l, Option.Rel (Peers F p l) (v.layer? l) (w.layer? l)
  /-- Copies of children compare alike to the layer of `p`. -/
  step : ∀ {d x y}, fit d → F.parent d = some p → v.layer? (some d) = some x →
    w.layer? (some d) = some y →
    (v.layer? (some p) = none → x.base = y.base) ∧
    ∀ a b, v.layer? (some p) = some a → w.layer? (some p) = some b →
      InStep a.version x.base b.version y.base

namespace Alike

variable {p : TxnId} {fit : TxnId → Prop} {v w : Versioned α} {x y : Layer α}

section

variable (h : Alike F p fit v w)

include h

theorem none_iff (l : Option TxnId) : v.layer? l = none ↔ w.layer? l = none := by
  have hl := h.peers l
  generalize v.layer? l = x at hl
  generalize w.layer? l = y at hl
  cases hl <;> simp

theorem some_of_some (hx : v.layer? l = some x) : ∃ y, w.layer? l = some y ∧ Peers F p l x y := by
  have hl := h.peers l
  rw [hx] at hl
  generalize w.layer? l = y at hl
  cases hl with
  | some hxy => exact ⟨_, rfl, hxy⟩

theorem peers_of_some (hx : v.layer? l = some x) (hy : w.layer? l = some y) : Peers F p l x y := by
  obtain ⟨y', hy', hxy⟩ := h.some_of_some hx
  grind

/-- A vote on a copy turns out alike. -/
theorem version_eq_base_iff {q r : Layer α} (hfit : F.parent t = some p → fit t)
    (hx : v.layer? (some t) = some x) (hy : w.layer? (some t) = some y)
    (hq : v.layer? (F.parent t) = some q) (hr : w.layer? (F.parent t) = some r) :
    q.version = x.base ↔ r.version = y.base := by
  by_cases hp : F.parent t = some p
  · grind [step, InStep]
  · have hversion := (h.peers_of_some hq hr).version hp
    have hbase := (h.peers_of_some hx hy).base (by rintro d heq; cases heq; exact hp)
    rw [hversion, hbase]

/-- Layers are replaced on both sides in the same way. -/
theorem setLayer {x' y' : Layer α} (hx : v.layer? l = some x) (hy : w.layer? l = some y)
    (hpeers : Peers F p l x' y') (hbase : x'.base = x.base ∧ y'.base = y.base)
    (hversion : x'.version = x.version ∧ y'.version = y.version ∨
      x'.version = x.version + 1 ∧ y'.version = y.version + 1) :
    Alike F p fit (v.setLayer l x') (w.setLayer l y') := by
  refine ⟨fun l' => ?_, fun {d a b} hd' hd ha hb => ?_⟩
  · rw [layer?_setLayer, layer?_setLayer]
    split
    · simp_all
    · exact h.peers l'
  · -- the copies have the bases that they had
    obtain ⟨a₀, ha₀, hab⟩ : ∃ a₀, v.layer? (some d) = some a₀ ∧ a.base = a₀.base := by
      grind [layer?_setLayer]
    obtain ⟨b₀, hb₀, hbb⟩ : ∃ b₀, w.layer? (some d) = some b₀ ∧ b.base = b₀.base := by
      grind [layer?_setLayer]
    obtain ⟨hnone, hstep⟩ := h.step hd' hd ha₀ hb₀
    grind [layer?_setLayer, InStep.succ]

/-- Copies of other transactions are dropped. -/
theorem dropLayer (ht : t ≠ p) : Alike F p fit (v.dropLayer t) (w.dropLayer t) := by
  have hself : some p ≠ some t := fun heq => ht (Option.some.inj heq).symm
  refine ⟨fun l => ?_, fun {d x y} hd' hd hx hy => ?_⟩
  · rw [layer?_dropLayer, layer?_dropLayer]
    split
    · exact .none
    · exact h.peers l
  · grind [layer?_dropLayer, step]

/-- A transaction that has no layer gets a copy of that of its parent on both sides. -/
theorem copy {s r : Layer α} (hfree : v.layer? (some t) = none)
    (hs : v.layer? (F.parent t) = some s) (hr : w.layer? (F.parent t) = some r) :
    Alike F p fit (v.setLayer (some t) s.copy) (w.setLayer (some t) r.copy) := by
  have hpeers := h.peers_of_some hs hr
  refine ⟨fun l => ?_, fun {d x y} hd' hd hx hy => ?_⟩
  · rw [layer?_setLayer, layer?_setLayer]
    split
    · rename_i hl
      exact .some ⟨hpeers.value, rfl, rfl, fun _ => rfl, fun hbase => hpeers.version (hbase t hl)⟩
    · exact h.peers l
  · rw [layer?_setLayer] at hx hy
    rw [layer?_setLayer, layer?_setLayer]
    by_cases hdt : d = t
    · -- the new copy is up to date on both sides
      subst hdt
      rw [if_pos rfl] at hx hy
      cases hx
      cases hy
      have hne : some p ≠ some d := fun heq => F.parent_ne_self d (hd.trans heq)
      rw [if_neg hne, if_neg hne]
      rw [hd] at hs hr
      refine ⟨fun hnone => ?_, fun a b ha hb => ?_⟩
      · rw [hnone] at hs
        cases hs
      · obtain rfl := Option.some.inj (hs.symm.trans ha)
        obtain rfl := Option.some.inj (hr.symm.trans hb)
        exact .inr ⟨Nat.le_refl _, Nat.le_refl _, iff_of_true rfl rfl⟩
    · have hne : some d ≠ some t := fun heq => hdt (Option.some.inj heq)
      rw [if_neg hne] at hx hy
      obtain ⟨hnone, hstep⟩ := h.step hd' hd hx hy
      split
      · -- the layer of `p` is new, and both start at version zero
        rename_i heq
        refine ⟨nofun, fun a b ha hb => .inl ⟨?_, hnone (by rw [heq]; exact hfree)⟩⟩
        cases ha
        cases hb
        rfl
      · exact ⟨hnone, hstep⟩

/-- Both versions are copied in the same way. -/
theorem touch (party : Option TxnId) :
    Alike F p fit (v.touch (F.line party)) (w.touch (F.line party)) := by
  -- from the outermost transaction inward
  induction hn : (F.line party).length generalizing party with
  | zero =>
    rw [length_eq_zero_iff.1 hn]
    exact h
  | succ n ih =>
    cases party with
    | none => cases hn
    | some t =>
      have hup : Alike F p fit (v.touch (F.ancestors t)) (w.touch (F.ancestors t)) := by
        grind [Forest.ancestors_eq_line, Forest.line]
      have hv := v.touch_present (F.mem_line_self t)
      have hw := w.touch_present (F.mem_line_self t)
      rw [Forest.line] at hv hw ⊢
      rcases v.touch_cons t (F.ancestors t) with heqv | ⟨s, hfree, hs, heqv⟩
      · grind [Versioned.touch_cons, none_iff]
      · rw [heqv]
        rcases w.touch_cons t (F.ancestors t) with heqw | ⟨r, -, hr, heqw⟩
        · grind [none_iff]
        · rw [heqw]
          exact hup.copy hfree hs hr

end

theorem release {l : Option TxnId} {x y : Layer α} (h : Peers F p l x y) (t : TxnId) :
    Peers F p l (Versioned.Layer.release t x) (Versioned.Layer.release t y) := by
  unfold Versioned.Layer.release
  rw [h.pending]
  split
  · exact ⟨h.value, h.dirty, rfl, h.version, h.base⟩
  · exact h

theorem write (h : Peers F p l x y) (a : α) : Peers F p l (x.write a) (y.write a) :=
  ⟨rfl, rfl, h.pending, fun hl => congrArg (· + 1) (h.version hl), h.base⟩

variable {a b : Answer α β} {v' w' : Versioned α} {t : TxnId}

theorem update (h : Alike F p fit v w) {f : α → α × β} (hv : (Op.update party f).Effect F v a v')
    (hw : (Op.update party f).Effect F w b w') : a = b ∧ Alike F p fit v' w' := by
  have htouch := h.touch party
  cases hv with
  | declined hx hdeclined =>
    cases hw with
    | declined hy _ => exact ⟨rfl, htouch⟩
    | written hy hpending =>
      rw [(htouch.peers_of_some hx hy).pending] at hdeclined
      exact absurd hpending hdeclined
  | written hx hpending =>
    cases hw with
    | declined hy hdeclined =>
      rw [(htouch.peers_of_some hx hy).pending] at hpending
      exact absurd hpending hdeclined
    | written hy _ =>
      have hpeers := htouch.peers_of_some hx hy
      grind [Peers.value, setLayer, write, Layer.write]

/-- Both votes are the same. -/
theorem ready (h : Alike F p fit v w) (hfit : F.parent t = some p → fit t)
    (hv : (Op.ready t).Effect F v a v') (hw : (Op.ready t).Effect F w b w') :
    a = b ∧ Alike F p fit v' w' := by
  cases hv with
  | waved hnone =>
    have hnone' := (h.none_iff _).1 hnone
    cases hw with
    | waved => exact ⟨rfl, h⟩
    | refused hy | marked hy => rw [hnone'] at hy; cases hy
  | refused hx hno =>
    cases hw with
    | waved hnone =>
      rw [(h.none_iff _).2 hnone] at hx
      cases hx
    | refused => exact ⟨rfl, h⟩
    | @marked _ y r hy hr hnobody hversion =>
      -- what speaks against the vote on one side does so on the other
      cases hq : v.layer? (F.parent t) with
      | none =>
        rw [(h.none_iff _).1 hq] at hr
        cases hr
      | some q =>
        rcases hno q hq with ⟨u, hne, hu⟩ | hne
        · rw [(h.peers_of_some hq hr).pending] at hu
          exact absurd (hnobody u hu) hne
        · grind [version_eq_base_iff]
  | @marked _ x q hx hq hnobody hversion =>
    cases hw with
    | waved hnone =>
      rw [(h.none_iff _).2 hnone] at hx
      cases hx
    | refused hy hno =>
      obtain ⟨r, hr, hqr⟩ := h.some_of_some hq
      grind [Peers.pending, version_eq_base_iff]
    | marked hy hr =>
      have hqr := h.peers_of_some hq hr
      exact ⟨rfl, h.setLayer hq hr ⟨hqr.value, hqr.dirty, rfl, hqr.version, hqr.base⟩ ⟨rfl, rfl⟩
        (.inl ⟨rfl, rfl⟩)⟩

theorem rollback (h : Alike F p fit v w) (ht : t ≠ p)
    (hv : (Op.rollback t).Effect F v a v') (hw : (Op.rollback t).Effect F w b w') :
    a = b ∧ Alike F p fit v' w' := by
  cases hv with
  | dropped hnone =>
    cases hw with
    | dropped => exact ⟨rfl, h.dropLayer ht⟩
    | released hr => rw [(h.none_iff _).1 hnone] at hr; cases hr
  | released hq =>
    cases hw with
    | dropped hnone => rw [(h.none_iff _).2 hnone] at hq; cases hq
    | released hr =>
      exact ⟨rfl, (h.dropLayer ht).setLayer ((Op.layer?_parent_dropLayer F v t).trans hq)
        ((Op.layer?_parent_dropLayer F w t).trans hr) (release (h.peers_of_some hq hr) t)
        (by simp) (by simp)⟩

/-- A commit keeps both versions alike. -/
theorem confirm (h : Alike F p fit v w) (ht : t ≠ p)
    (hv : (Op.confirm t).Effect F v a v') (hw : (Op.confirm t).Effect F w b w') :
    a = b ∧ Alike F p fit v' w' := by
  cases hv with
  | idle hnone =>
    cases hw with
    | idle => exact ⟨rfl, h⟩
    | lost hy | merged hy => rw [(h.none_iff _).1 hnone] at hy; cases hy
  | lost hx hnone =>
    cases hw with
    | idle hnone' => rw [(h.none_iff _).2 hnone'] at hx; cases hx
    | lost => exact ⟨rfl, h.dropLayer ht⟩
    | merged _ hr => rw [(h.none_iff _).1 hnone] at hr; cases hr
  | merged hx hq =>
    cases hw with
    | idle hnone => rw [(h.none_iff _).2 hnone] at hx; cases hx
    | lost _ hnone => rw [(h.none_iff _).2 hnone] at hq; cases hq
    | merged hy hr =>
      have hxy := h.peers_of_some hx hy
      have hqr := release (h.peers_of_some hq hr) t
      have hq' := (Op.layer?_parent_dropLayer F v t).trans hq
      have hr' := (Op.layer?_parent_dropLayer F w t).trans hr
      refine ⟨rfl, (h.dropLayer ht).setLayer hq' hr' ?_ ?_ ?_⟩ <;> rw [hxy.dirty, hxy.value]
      · grind [write]
      · split <;> simp [Layer.write]
      · split <;> simp [Layer.write]

/-- **One step.**  An operation gives the same answer on both sides and keeps them alike, unless it
    decides on `p`, or a child that may be ahead votes. -/
theorem run (h : Alike F p fit v w) {op : Op α β} (hconfirm : op ≠ .confirm p)
    (hrollback : op ≠ .rollback p) (hready : ∀ d, op = .ready d → F.parent d = some p → fit d) :
    (op.run F v).1 = (op.run F w).1 ∧ Alike F p fit (op.run F v).2 (op.run F w).2 := by
  have hv := op.run_effect F v
  have hw := op.run_effect F w
  generalize (op.run F v).1 = a at hv ⊢
  generalize (op.run F v).2 = v' at hv ⊢
  generalize (op.run F w).1 = b at hw ⊢
  generalize (op.run F w).2 = w' at hw ⊢
  cases op with
  | read party =>
    cases hv with | seen hx =>
    cases hw with | seen hy =>
    exact ⟨by rw [((h.touch party).peers_of_some hx hy).value], h.touch party⟩
  | update party f => exact h.update hv hw
  | ready t => exact h.ready (hready t rfl) hv hw
  | confirm t => grind [confirm]
  | rollback t => grind [rollback]

/-- **A whole run.** -/
theorem runs (h : Alike F p fit v w) {ops : List (Op α β)}
    (hundecided : ∀ op ∈ ops, op ≠ .confirm p ∧ op ≠ .rollback p)
    (hready : ∀ d, .ready d ∈ ops → F.parent d = some p → fit d) :
    (Op.runs F v ops).1 = (Op.runs F w ops).1 ∧
      Alike F p fit (Op.runs F v ops).2 (Op.runs F w ops).2 := by
  induction ops generalizing v w with
  | nil => exact ⟨rfl, h⟩
  | cons op ops ih =>
    obtain ⟨hconfirm, hrollback⟩ := hundecided op (mem_cons_self ..)
    obtain ⟨hanswer, halike⟩ := h.run hconfirm hrollback fun d heq =>
      hready d (by rw [heq]; exact mem_cons_self ..)
    obtain ⟨hanswers, hend⟩ := ih halike (fun op' hop => hundecided op' (mem_cons_of_mem op hop))
      fun d hd => hready d (mem_cons_of_mem op hd)
    grind [Op.runs]

/-- Apart from `p` and its children the layers are the same. -/
theorem layer?_eq (h : Alike F p fit v w) (hl : l ≠ some p)
    (hchild : ∀ d, l = some d → F.parent d ≠ some p) : v.layer? l = w.layer? l := by
  have hpeers := h.peers l
  generalize v.layer? l = x at hpeers
  generalize w.layer? l = y at hpeers
  cases hpeers with
  | none => rfl
  | @some x y hxy =>
    obtain ⟨hvalue, hdirty, hpending, hversion, hbase⟩ := hxy
    have hversion := hversion hl
    have hbase := hbase hchild
    cases x
    cases y
    simp_all

/-- The commit of `p` leaves the same layers. -/
theorem confirm_self (h : Alike F p fit v w) (hchild : ∀ d, l = some d → F.parent d ≠ some p) :
    (v.confirm (F.scope p)).layer? l = (w.confirm (F.scope p)).layer? l := by
  have hdrop : (v.dropLayer p).layer? l = (w.dropLayer p).layer? l := by
    grind [layer?_dropLayer, layer?_eq]
  -- the parent of `p` is neither `p` nor a child of it
  have hparent : v.layer? (F.parent p) = w.layer? (F.parent p) := by
    refine h.layer?_eq (F.parent_ne_self p) fun d hd hp => ?_
    refine Forest.not_mem_line_of_mem_ancestors (Forest.mem_ancestors_of_parent hd) ?_
    exact mem_cons_of_mem d (Forest.mem_ancestors_of_parent hp)
  have hid : (F.scope p).id = p := rfl
  rw [Versioned.confirm, Versioned.confirm, hid]
  cases hx : v.layer? (some p) with
  | none =>
    rw [(h.none_iff _).1 hx]
    by_cases hl : l = some p
    · rw [hl, hx, (h.none_iff _).1 hx]
    · exact h.layer?_eq hl hchild
  | some x =>
    obtain ⟨y, hy, hxy⟩ := h.some_of_some hx
    grind [layer?_setLayer, Peers.dirty, Peers.value]

end Alike

/-! ## The theorem -/

/-- A layer without its version. -/
def Layer.bare (x : Layer α) : Layer α := { x with version := 0 }

variable {p : TxnId} {v : Versioned α} {x : Layer α} {as : List (Access α β)}
  {run : List (Answer α β) × Versioned α}

/-- The layers after a script: its own layer has moved on, if there was an access at all. -/
theorem Outcome.layer? (h : Outcome F p v x as k run) (hne : as ≠ []) (l : Option TxnId) :
    run.2.layer? l = if l = some p then some (x.moved (Access.plain x.value as).2 k)
      else (v.touch (F.line (some p))).layer? l := by
  rw [← h.layers, touch_of_present (h.present hne)]

theorem Outcome.version (h : Outcome F p v x as k run) {y : Layer α}
    (hy : run.2.layer? (some p) = some y) : x.version < y.version ↔ ∃ f, .update f ∈ as := by
  have hmoved := h.layers (some p)
  grind [layer?_touch_old, moves, Layer.moved]

/-- Accesses are told nothing but answers to accesses. -/
theorem Access.filter_answers (v : Versioned α) (as : List (Access α β)) :
    (Op.runs F v (as.map (Access.op p))).1.filter Answer.isAccess =
      (Op.runs F v (as.map (Access.op p))).1 := by
  induction as generalizing v with
  | nil => rfl
  | cons a as ih =>
    have hfirst : ((a.op p).run F v).1.isAccess = true := by cases a <;> rfl
    simp only [map_cons, Op.runs, filter_cons, hfirst, if_true, ih]

/-- Two ways to make the same accesses leave values that are alike, unless a child is ahead. -/
theorem Outcome.alike {run' : List (Answer α β) × Versioned α} (h : Outcome F p v x as j run)
    (h' : Outcome F p v x as k run') (hx : (v.touch (F.line (some p))).layer? (some p) = some x) :
    Alike F p (fun d => ∀ y, v.layer? (some d) = some y →
      ∃ q, v.layer? (some p) = some q ∧ y.base ≤ q.version) run.2 run'.2 := by
  by_cases hne : as = []
  · rw [h.idle hne, h'.idle hne]
    refine ⟨fun l => ?_, fun {d y z} _ _ hy hz => ?_⟩
    · cases v.layer? l with
      | none => exact .none
      | some y => exact .some ⟨rfl, rfl, rfl, fun _ => rfl, fun _ => rfl⟩
    · obtain rfl := Option.some.inj (hy.symm.trans hz)
      refine ⟨fun _ => rfl, fun a b ha hb => .inl ⟨?_, rfl⟩⟩
      grind
  · have hl := h.layer? hne
    have hl' := h'.layer? hne
    have hmoves : 0 < j ↔ 0 < k := h.moves.trans h'.moves.symm
    refine ⟨fun l => ?_, fun {d y z} hfit hd hy hz => ?_⟩
    · rw [hl, hl']
      split
      · rename_i hlp
        refine .some ⟨rfl, ?_, rfl, fun hne => absurd hlp hne, fun _ => rfl⟩
        simp only [Layer.moved, hmoves]
      · cases (v.touch (F.line (some p))).layer? l with
        | none => exact .none
        | some y => exact .some ⟨rfl, rfl, rfl, fun _ => rfl, fun _ => rfl⟩
    · have hdp : some d ≠ some p := fun heq =>
        F.parent_ne_self d (hd.trans heq.symm)
      have hnot : ∀ t ∈ F.line (some p), some d ≠ some t := by
        grind [Forest.not_mem_line_of_mem_ancestors, Forest.mem_ancestors_of_parent]
      rw [hl, if_neg hdp, v.layer?_touch_of_not_mem hnot] at hy
      rw [hl', if_neg hdp, v.layer?_touch_of_not_mem hnot] at hz
      obtain rfl := Option.some.inj (hy.symm.trans hz)
      obtain ⟨q, hq, hle⟩ := hfit y hy
      obtain rfl := Option.some.inj ((layer?_touch_old hq _).symm.trans hx)
      refine ⟨fun _ => rfl, fun a b ha hb => ?_⟩
      rw [hl, if_pos rfl] at ha
      rw [hl', if_pos rfl] at hb
      cases ha
      cases hb
      simp only [InStep, Layer.moved]
      omega

/-- **Nested commit equals direct execution.**  A transaction `p` whose layer awaits no commit runs a
    script, either with new transactions inside it, nested to any depth, or by making all accesses
    itself.

    Both ways the accesses are told the same, and all votes are in favour.  The layers after it are
    the same but for the version of that of `p`, which in both cases moves on if and only if there
    was an update.  And whatever operations come later, before `p` is decided, they are told the same,
    and so is `p` when it votes; its commit leaves the same layers, but for copies of its children.
    (A child that votes later must not have had a copy that was ahead of the layer of `p`.) -/
theorem nested_commit_is_direct (s : Script α β)
    (hpending : ∀ x, v.layer? (some p) = some x → x.pending = none) (hfresh : s.Fresh F v p) :
    let nested := Op.runs F v (s.ops p)
    let direct := Op.runs F v (s.accesses.map (Access.op p))
    let before := ((v.layer? (some p)).map Layer.version).getD 0
    (nested.1.filter Answer.isAccess = direct.1 ∧ ∀ yes, .vote yes ∈ nested.1 → yes = true) ∧
    (∀ l, l ≠ some p → nested.2.layer? l = direct.2.layer? l) ∧
    (nested.2.layer? (some p)).map Layer.bare = (direct.2.layer? (some p)).map Layer.bare ∧
    (∀ x, nested.2.layer? (some p) = some x ∨ direct.2.layer? (some p) = some x →
      (before < x.version ↔ ∃ f, .update f ∈ s.accesses)) ∧
    ∀ later : List (Op α β), (∀ op ∈ later, op ≠ .confirm p ∧ op ≠ .rollback p) →
      (∀ d, .ready d ∈ later → F.parent d = some p → ∀ y, v.layer? (some d) = some y →
        ∃ q, v.layer? (some p) = some q ∧ y.base ≤ q.version) →
      (Op.runs F nested.2 (later ++ [.ready p, .confirm p])).1 =
        (Op.runs F direct.2 (later ++ [.ready p, .confirm p])).1 ∧
      ∀ l, (∀ d, l = some d → F.parent d ≠ some p) →
        (Op.runs F nested.2 (later ++ [.ready p, .confirm p])).2.layer? l =
          (Op.runs F direct.2 (later ++ [.ready p, .confirm p])).2.layer? l := by
  intro nested direct before
  obtain ⟨x, hx⟩ := v.layer?_touch_line F (some p)
  have hversion : x.pending = none ∧ before = x.version := by
    cases hold : v.layer? (some p) with
    | some x' => grind [layer?_touch_old]
    | none =>
      obtain ⟨source, -, -, hnew⟩ := v.layer?_touch_new (F.mem_line_self p) hold
      obtain rfl := Option.some.inj (hx.symm.trans hnew)
      exact ⟨rfl, by simp [before, hold]; rfl⟩
  obtain ⟨j, hnested⟩ := s.outcome hx hversion.1 hfresh
  obtain ⟨k, hdirect⟩ := (Script.direct s.accesses).outcome hx hversion.1 (Script.fresh_direct ..)
  rw [Script.ops_direct, Script.accesses_direct] at hdirect
  have halike := hnested.alike hdirect hx
  refine ⟨⟨?_, hnested.approved⟩, fun l hl => ?_, ?_, fun y hy => ?_, fun later hlater hfit => ?_⟩
  · rw [hnested.told, ← hdirect.told, Access.filter_answers]
  · by_cases hne : s.accesses = []
    · exact congrArg (·.layer? l) ((hnested.idle hne).trans (hdirect.idle hne).symm)
    · rw [hnested.layer? hne, hdirect.layer? hne, if_neg hl, if_neg hl]
  · by_cases hne : s.accesses = []
    · grind [Outcome.idle]
    · have hmoves : 0 < j ↔ 0 < k := hnested.moves.trans hdirect.moves.symm
      rw [hnested.layer? hne, hdirect.layer? hne, if_pos rfl, if_pos rfl]
      simp only [Option.map_some, Layer.bare, Layer.moved, hmoves]
  · grind [Outcome.version]
  · have hdecide : ∀ op ∈ later ++ [.ready p], op ≠ .confirm p ∧ op ≠ .rollback p := by grind
    obtain ⟨hanswers, hend⟩ := halike.runs hdecide fun d hd hparent => by
      grind [Forest.parent_ne_self]
    have hsplit : later ++ [.ready p, .confirm p] = (later ++ [.ready p]) ++ [.confirm p] := by simp
    rw [hsplit, Op.runs_append F nested.2 (later ++ _), Op.runs_append F direct.2 (later ++ _)]
    exact ⟨congrArg (· ++ [Answer.done]) hanswers, fun l hchild => hend.confirm_self hchild⟩

/-- The outermost of three transactions has the middle one write, which has the innermost one write
    in turn; a plain party writes in between, so that the outermost one may not commit. -/
theorem nested_commit_is_direct_nest :
    ∃ (s : Script Nat Unit) (nested direct : List (Answer Nat Unit) × Versioned Nat),
      nested = Op.runs .nest (.new 3) (s.ops ⟨0⟩) ∧
      direct = Op.runs .nest (.new 3) (s.accesses.map (Access.op ⟨0⟩)) ∧
      nested.1 = [.seen 3, .found (some ()), .found (some ()), .vote true, .done, .vote true, .done] ∧
      direct.1 = [.seen 3, .found (some ()), .found (some ())] ∧
      nested.1.filter Answer.isAccess = direct.1 ∧
      (nested.2.layer? (some ⟨0⟩)).map Layer.version = some 1 ∧
      (direct.2.layer? (some ⟨0⟩)).map Layer.version = some 2 ∧
      (Op.runs .nest nested.2 [.update none fun n => (n + 1, ()), .ready ⟨0⟩, .confirm ⟨0⟩]).1 =
        (Op.runs .nest direct.2 [.update none fun n => (n + 1, ()), .ready ⟨0⟩, .confirm ⟨0⟩]).1 := by
  have h := nested_commit_is_direct (F := .nest) (v := .new 3) (p := ⟨0⟩)
    (.access .read (.nested ⟨1⟩ (.access (.update fun n => (n + 1, ()))
      (.nested ⟨2⟩ (.access (.update fun n => (2 * n, ())) .done) .done)) .done))
    nofun ⟨rfl, rfl, ⟨rfl, rfl, trivial, trivial⟩, trivial⟩
  obtain ⟨⟨hanswers, -⟩, -, -, -, hlater⟩ := h
  exact ⟨_, _, _, rfl, rfl, rfl, rfl, hanswers, rfl, rfl,
    (hlater [.update none fun n => (n + 1, ())] (by simp) (by simp)).1⟩

end Orchestra
