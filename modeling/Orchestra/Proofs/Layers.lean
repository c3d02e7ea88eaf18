/-
  Layers: which transactions have a copy of a value, and whose commit a copy awaits.

  What the layers of a versioned value hold does not matter here.  `marks` gives for each layer that is
  there the child whose commit it awaits, and the operations of a value are seen through it:

  * `Touches`  a lineage gets the layers that it lacks, and no mark moves;
  * `ready`    marks the layer of the parent, if the transaction has a copy;
  * `settled`  a copy goes, and with it its mark on the layer of the parent.

  Containers and whole worlds follow, since they pass on what they are asked to their values.
-/
import Orchestra.Library.World

namespace Orchestra

variable {c : CohortId} {k : Container}

/-- For each layer that is there, the child whose commit it awaits. -/
abbrev Marks := Option TxnId → Option (Option TxnId)

/-- The transactions of a lineage have got the layers that they lacked. -/
structure Touches (lineage : List TxnId) (f f' : Marks) : Prop where
  old : ∀ {l}, f l ≠ none → f' l = f l
  new : ∀ {l}, f l = none → f' l = none ∨ (f' l = some none ∧ ∃ t ∈ lineage, l = some t)
  all : ∀ t ∈ lineage, f' (some t) ≠ none

namespace Touches

variable {lineage : List TxnId} {f f' f'' : Marks}

theorem trans (h : Touches lineage f f') (h' : Touches lineage f' f'') : Touches lineage f f'' where
  old := by
    intro l hl
    have hl' := h.old hl
    rw [← hl'] at hl ⊢
    exact h'.old hl
  new := by
    intro l hl
    rcases h.new hl with hl' | ⟨hl', ht⟩
    · exact h'.new hl'
    · exact .inr ⟨(h'.old (by simp [hl'])).trans hl', ht⟩
  all := h'.all

/-- Outside of any transaction there is nothing to touch. -/
theorem of_eq (h : f' = f) : Touches [] f f' := by
  subst h
  exact ⟨fun _ => rfl, .inl, by simp⟩

theorem eq_of_nil (h : Touches [] f f') : f' = f := by
  funext l
  by_cases hl : f l = none
  · rcases h.new hl with hl' | ⟨-, t, ht, -⟩
    · rw [hl', hl]
    · cases ht
  · exact h.old hl

end Touches

/-- The marks after the transaction of a scope has been decided: its copy is gone, and so is its mark
    on the layer of its parent. -/
def settled (s : Scope) (f : Marks) : Marks := fun l =>
  if l = some s.id then none
  else if l = s.parent ∧ f l = some (some s.id) then some none
  else f l

theorem settled_none (s : Scope) : settled s (fun _ => none) = fun _ => none := by
  funext l
  simp [settled]

/-- The lineage of a scope, if there is one. -/
def Scope.lineage? : Option Scope → List TxnId
  | none => []
  | some s => s.lineage

/-! ## Versioned values -/

namespace Versioned

variable {α β : Type}

/-- For each layer of a value, the child whose commit it awaits. -/
def marks (v : Versioned α) : Marks := fun l => (v.layer? l).map Layer.pending

section

variable (v : Versioned α)

theorem marks_setLayer (l l' : Option TxnId) (layer : Layer α) :
    (v.setLayer l layer).marks l' = if l' = l then some layer.pending else v.marks l' := by
  unfold marks
  rw [layer?_setLayer]
  split <;> rfl

/-- Putting a layer in the place of one with the same mark changes no mark. -/
theorem marks_replace {l : Option TxnId} {old new : Layer α} (hl : v.layer? l = some old)
    (hpending : new.pending = old.pending) : (v.setLayer l new).marks = v.marks := by
  grind [marks_setLayer, marks]

/-- Those of a lineage that lacked a layer get one, which awaits nobody. -/
theorem touches_touch (lineage : List TxnId) : Touches lineage v.marks (v.touch lineage).marks := by
  induction lineage with
  | nil => exact .of_eq rfl
  | cons t ancestors ih =>
    have hup : ∃ source, (v.touch ancestors).layer? ancestors.head? = some source := by
      cases ancestors with
      | nil => exact ⟨v.committed, rfl⟩
      | cons p rest =>
        have hp := ih.all p List.mem_cons_self
        rw [marks, Ne, Option.map_eq_none_iff] at hp
        exact Option.ne_none_iff_exists'.1 hp
    have hnew : ∀ {l}, v.marks l = none → (v.touch ancestors).marks l = none ∨
        ((v.touch ancestors).marks l = some none ∧ ∃ x ∈ t :: ancestors, l = some x) := by
      intro l hl
      refine (ih.new hl).imp_right fun ⟨hl', x, hx, heq⟩ => ?_
      exact ⟨hl', x, List.mem_cons_of_mem t hx, heq⟩
    unfold touch
    dsimp only
    split
    · rename_i layer ht
      refine ⟨ih.old, hnew, fun x hx => ?_⟩
      grind [Touches.all, marks]
    · rename_i ht
      obtain ⟨source, hsource⟩ := hup
      rw [hsource]
      dsimp only
      have hfree : (v.touch ancestors).marks (some t) = none := by rw [marks, ht]; rfl
      refine ⟨fun {l} hl => ?_, fun {l} hl => ?_, fun x hx => ?_⟩ <;> rw [marks_setLayer]
      · rw [if_neg]
        · exact ih.old hl
        · rintro rfl
          rw [ih.old hl] at hfree
          exact hl hfree
      · grind
      · grind [Touches.all]

theorem touches_read (scope : Option Scope) :
    Touches (Scope.lineage? scope) v.marks (v.read scope).2.marks := by
  cases scope with
  | none => exact .of_eq rfl
  | some s => exact v.touches_touch s.lineage

theorem touches_update (scope : Option Scope) (f : α → α × β) :
    Touches (Scope.lineage? scope) v.marks (v.update scope f).2.marks := by
  have htouched : Touches (Scope.lineage? scope) v.marks
      (match scope with
        | none => v
        | some s => v.touch s.lineage).marks := by
    cases scope with
    | none => exact .of_eq rfl
    | some s => exact v.touches_touch s.lineage
  grind [marks_replace, update]

end

/-- A vote marks the layer of the parent, if at all, and only for a transaction with a copy. -/
theorem marks_ready (v : Versioned α) (s : Scope) : (v.ready s).2.marks = v.marks ∨
    (v.marks (some s.id) ≠ none ∧ v.marks s.parent ≠ none ∧ ∀ l, (v.ready s).2.marks l =
      if l = s.parent then some (some s.id) else v.marks l) := by
  grind [marks_setLayer, ready, marks]

/-- The layer of the parent has lost the mark, whatever else was done to it. -/
theorem settled_of_release (v : Versioned α) (s : Scope) {parent new : Layer α}
    (hparent : (v.dropLayer s.id).layer? s.parent = some parent)
    (hnew : new.pending = (Layer.release s.id parent).pending) :
    ((v.dropLayer s.id).setLayer s.parent new).marks = settled s v.marks := by
  grind [layer?_dropLayer, marks_setLayer, marks, settled, Layer.release]

/-- Without a layer of the parent there is nothing to release. -/
theorem settled_of_orphan (v : Versioned α) (s : Scope)
    (hparent : (v.dropLayer s.id).layer? s.parent = none) :
    (v.dropLayer s.id).marks = settled s v.marks := by grind [layer?_dropLayer, settled, marks]

theorem marks_rollback (v : Versioned α) (s : Scope) :
    (v.rollback s).marks = settled s v.marks := by
  grind [settled_of_orphan, settled_of_release, rollback]

theorem marks_confirm (v : Versioned α) (s : Scope) :
    (v.confirm s).marks = if v.marks (some s.id) = none then v.marks else settled s v.marks := by
  grind [settled_of_orphan, settled_of_release, confirm, marks]

/-- A new value has one layer, which awaits nobody. -/
theorem marks_new (value : α) (l : Option TxnId) :
    (Versioned.new value).marks l = if l = none then some none else none := by
  cases l with
  | none => rfl
  | some t => rfl

end Versioned

/-! ## Containers -/

namespace Container

/-- The marks of the content. -/
def marks : Container → Marks
  | .buffer _ items => items.marks
  | .reference content => content.marks

/-- A method touches the content, unless it is called in the wrong way. -/
theorem marks_call (c : Container) (method : Method) (scope : Option Scope) (args : List Value) :
    (c.call method scope args).2.marks = c.marks ∨
      Touches (Scope.lineage? scope) c.marks (c.call method scope args).2.marks := by
  unfold call
  split
  · rename_i capacity items v
    right
    show Touches _ items.marks (putItem capacity items scope v).2.marks
    grind [Versioned.touches_read, Touches.trans, Versioned.touches_update, putItem]
  · rename_i capacity items
    right
    show Touches _ items.marks (getItem items scope).2.marks
    grind [Versioned.touches_read, Touches.trans, Versioned.touches_update, getItem]
  · rename_i capacity items
    exact .inr (items.touches_read scope)
  · rename_i content
    exact .inr (content.touches_read scope)
  · rename_i content v
    exact .inr (content.touches_update scope _)
  · exact .inl rfl

theorem marks_ready (c : Container) (s : Scope) : (c.ready s).2.marks = c.marks ∨
    (c.marks (some s.id) ≠ none ∧ c.marks s.parent ≠ none ∧ ∀ l, (c.ready s).2.marks l =
      if l = s.parent then some (some s.id) else c.marks l) := by
  cases c with
  | buffer capacity items => exact items.marks_ready s
  | reference content => exact content.marks_ready s

theorem marks_rollback (c : Container) (s : Scope) :
    (c.rollback s).marks = settled s c.marks := by
  cases c with
  | buffer capacity items => exact items.marks_rollback s
  | reference content => exact content.marks_rollback s

theorem marks_confirm (c : Container) (s : Scope) :
    (c.confirm s).marks = if c.marks (some s.id) = none then c.marks else settled s c.marks := by
  cases c with
  | buffer capacity items => exact items.marks_confirm s
  | reference content => exact content.marks_confirm s

end Container

/-! ## Worlds -/

namespace World

variable {w w' : World}

/-- The marks of the container that is known as the cohort `c`. -/
def marks (w : World) (c : CohortId) : Marks :=
  match w.cohorts[c.index]? with
  | some (.container k) => k.marks
  | _ => fun _ => none

theorem marks_of_cohorts (h : w'.cohorts = w.cohorts) : w'.marks = w.marks := by
  funext c
  unfold marks
  rw [h]

theorem marks_of_container (hk : w.cohorts[c.index]? = some (.container k)) :
    w.marks c = k.marks := by
  unfold marks
  rw [hk]

theorem marks_of_none (hnone : ∀ k, w.cohorts[c.index]? ≠ some (.container k)) :
    w.marks c = fun _ => none := by
  unfold marks
  split
  · exact absurd ‹_› (hnone _)
  · rfl

/-- A container is replaced by another. -/
theorem marks_set {cohort : Cohort} (hc : w.cohorts[c.index]? = some cohort) (k : Container)
    (c' : CohortId) :
    ({ w with cohorts := w.cohorts.setIfInBounds c.index (.container k) } : World).marks c' =
      if c' = c then k.marks else w.marks c' := by
  obtain ⟨hlt, -⟩ := Array.getElem?_eq_some_iff.1 hc
  unfold marks
  dsimp only
  rw [Array.getElem?_setIfInBounds]
  by_cases hcc : c' = c
  · rw [if_pos (by rw [hcc]), if_pos hlt, if_pos hcc]
  · rw [if_neg, if_neg hcc]
    intro hindex
    cases c
    cases c'
    exact hcc (congrArg _ hindex.symm)

/-- No layer of a container changes, and new containers have not been touched. -/
def Calm (w w' : World) : Prop :=
  ∀ c l, w'.marks c l = w.marks c l ∨ (l = none ∧ w'.marks c l = some none)

theorem Calm.of_cohorts (h : w'.cohorts = w.cohorts) : Calm w w' := by
  intro c l
  rw [marks_of_cohorts h]
  exact .inl rfl

theorem cohorts_addMethods (w : World) (c : CohortId) (methods : List Method) :
    (w.addMethods c methods).2.cohorts = w.cohorts := by
  induction methods generalizing w with
  | nil => rfl
  | cons m ms ih => exact ih _

theorem calm_addContainer (w : World) (hk : ∀ l, k.marks l = if l = none then some none else none) :
    Calm w (w.addContainer k).2 := by
  intro c l
  have hcohorts : (w.addContainer k).2.cohorts = w.cohorts.push (.container k) :=
    cohorts_addMethods ..
  unfold marks
  rw [hcohorts, Array.getElem?_push]
  split
  · grind
  · exact .inl rfl

/-- A call outside transactions changes no layer. -/
theorem calm_call (site : Site) (args : List Value) (w : World) :
    Calm w (host.call site args w).world := by
  show Calm w (call site args w).world
  unfold call
  split
  · exact .of_cohorts rfl
  · show Calm w (w.print args).2
    unfold print
    split <;> exact .of_cohorts rfl
  · show Calm w (w.makeBuffer args).2
    unfold makeBuffer
    split
    · split
      · rename_i n _
        have hk : ∀ l, (Container.emptyBuffer n.toInt.toNat).marks l = _ := Versioned.marks_new []
        exact w.calm_addContainer hk
      · exact .of_cohorts rfl
    · exact .of_cohorts rfl
    · exact .of_cohorts rfl
  · show Calm w (w.makeReference args).2
    unfold makeReference
    split
    · rename_i v
      have hk : ∀ l, (Container.newReference v).marks l = _ := Versioned.marks_new v
      exact w.calm_addContainer hk
    · exact .of_cohorts rfl
  · exact .of_cohorts rfl
  · exact .of_cohorts rfl

theorem calm_launch (site : Site) (args : List Value) (t : TokenId) (w : World) :
    Calm w (host.launch site args t w).world := by
  show Calm w (launch site args t w).world
  unfold launch
  split <;> exact .of_cohorts rfl

theorem calm_await {effect : Effect World Unit} (h : host.await w = some effect) :
    Calm w effect.world := by
  have h : (w.schedule.await.bind fun found =>
      some ({ answer := (), world := { w with schedule := found.2 }, mail := found.1 } :
        Effect World Unit)) = some effect := h
  grind [Option.bind_eq_some_iff, Calm.of_cohorts]

/-- Calling a transactional site touches at most the containers that are enlisted. -/
theorem marks_transact (site : Site) (args : List Value) (scope : Option Scope) (w : World)
    (c : CohortId) : (host.transact site args scope w).world.marks c = w.marks c ∨
      (c ∈ (host.transact site args scope w).answer.enlisted ∧
        Touches (Scope.lineage? scope) (w.marks c)
          ((host.transact site args scope w).world.marks c)) := by
  show (transact site args scope w).world.marks c = w.marks c ∨
    (c ∈ (transact site args scope w).answer.enlisted ∧
      Touches _ _ ((transact site args scope w).world.marks c))
  unfold transact
  split
  · rename_i method c₀ _
    show (w.callMethod method c₀ scope args).2.marks c = _ ∨ (c ∈ [c₀] ∧
      Touches _ _ ((w.callMethod method c₀ scope args).2.marks c))
    unfold callMethod
    split
    · rename_i k hk
      dsimp only
      rw [marks_set hk]
      by_cases hc : c = c₀
      · subst hc
        rw [if_pos rfl, marks_of_container hk]
        exact (k.marks_call method scope args).imp_right fun h => ⟨List.mem_singleton_self c, h⟩
      · rw [if_neg hc]
        exact .inl rfl
    · exact .inl rfl
  · exact .inl rfl
  · exact .inl rfl
  · exact .inl rfl
  · exact .inl rfl

/-- A vote marks the layer of the parent, if at all, and only for a transaction with a copy. -/
theorem marks_ready (c : CohortId) (s : Scope) (voter : TokenId) (w : World) (c' : CohortId) :
    (host.ready c s voter w).world.marks c' = w.marks c' ∨
      (c' = c ∧ w.marks c (some s.id) ≠ none ∧ w.marks c s.parent ≠ none ∧
        ∀ l, (host.ready c s voter w).world.marks c l =
          if l = s.parent then some (some s.id) else w.marks c l) := by
  show (ready c s voter w).world.marks c' = w.marks c' ∨
      (c' = c ∧ w.marks c (some s.id) ≠ none ∧ w.marks c s.parent ≠ none ∧
        ∀ l, (ready c s voter w).world.marks c l =
          if l = s.parent then some (some s.id) else w.marks c l)
  unfold ready
  split
  · rename_i k hk
    dsimp only
    rw [marks_set hk, marks_set hk, if_pos rfl]
    rw [marks_of_container hk]
    by_cases hc : c' = c
    · subst hc
      rw [if_pos rfl, marks_of_container hk]
      exact (k.marks_ready s).imp_right fun h => ⟨rfl, h⟩
    · rw [if_neg hc]
      exact .inl rfl
  · dsimp only
    split <;> exact .inl rfl
  · exact .inl rfl

theorem marks_rollback (c : CohortId) (s : Scope) (w : World) (c' : CohortId) :
    (host.rollback c s w).marks c' = if c' = c then settled s (w.marks c) else w.marks c' := by
  show (rollback c s w).marks c' = _
  unfold rollback
  split
  · rename_i k hk
    rw [marks_set hk, marks_of_container hk, k.marks_rollback]
  · rename_i site policy hscripted
    have hnone : w.marks c = fun _ => none := marks_of_none (by simp [hscripted])
    have htell : (w.tell .rollback site s).marks = w.marks := marks_of_cohorts rfl
    rw [htell, hnone, settled_none]
    split
    · rename_i hc
      rw [hc, hnone]
    · rfl
  · grind [marks_of_none, settled_none]

theorem marks_confirm (c : CohortId) (s : Scope) (w : World) (c' : CohortId) :
    (host.confirm c s w).marks c' =
      if c' = c ∧ w.marks c (some s.id) ≠ none then settled s (w.marks c) else w.marks c' := by
  show (confirm c s w).marks c' = _
  unfold confirm
  split
  · rename_i k hk
    rw [marks_set hk, marks_of_container hk, k.marks_confirm]
    by_cases hc : c' = c
    · subst hc
      by_cases hcopy : k.marks (some s.id) = none
      · rw [if_pos rfl, if_pos hcopy, if_neg fun h => h.2 hcopy, marks_of_container hk]
      · rw [if_pos rfl, if_neg hcopy, if_pos ⟨rfl, hcopy⟩]
    · rw [if_neg hc, if_neg fun h => hc h.1]
  · rename_i site policy hscripted
    have hnone : w.marks c = fun _ => none := marks_of_none (by simp [hscripted])
    have htell : (w.tell .confirm site s).marks = w.marks := marks_of_cohorts rfl
    rw [htell, if_neg]
    exact fun h => h.2 (by rw [hnone])
  · grind [marks_of_none]

end World

end Orchestra
