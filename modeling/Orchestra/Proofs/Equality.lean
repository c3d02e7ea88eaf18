/-
  Equality: what two values have in common when programs find them equal.

  Records are compared by their number of fields and by looking up each field of the left one in
  the right one.  That looks the same from both sides only because no record has a name twice: the
  names on the left are then as many as those on the right and all among them, so they are all of
  them (`equal_record`).  A value is PROPER if this holds of every record in it.

  Closures are compared by the definition that they are.  What they have captured is left out, so
  equal closures need not do the same.

  * `equal_equivalence`         on proper values equality is an equivalence, blind to field order;
  * `equal_closures_enter_alike`  what the calls of two equal closures have in common.
-/
import Mathlib.Data.List.Perm.Subperm
import Orchestra.Library.Catalog
import Orchestra.Proofs.Run

namespace Orchestra.Value

open List

variable {as bs fields : List (String × Value)} {name : String} {f : String × Value} {v : Value}

/-! ## Proper values -/

/-- No record in the value has a name twice. -/
def Proper (v : Value) : Prop :=
  ∀ ⦃fields⦄, Within (.record fields) v → (fields.map Prod.fst).Nodup

theorem Proper.item {items : List Value} (h : (Value.tuple items).Proper) (hv : v ∈ items) :
    v.Proper := fun _ hw => h (.tuple hv hw)

theorem Proper.field (h : (Value.record fields).Proper) (hf : f ∈ fields) :
    f.2.Proper := fun _ hw => h (.record hf hw)

theorem names_setField (name : String) (v : Value) :
    (setField fields name v).map Prod.fst = joined (fields.map Prod.fst) name := by
  grind [map_congr_left, setField, joined]

theorem mem_setField (hf : f ∈ setField fields name v) : f ∈ fields ∨ f = (name, v) := by
  unfold setField at hf
  grind

/-- A record that is made of names and proper values is proper. -/
theorem Proper.ofFields (h : ∀ f ∈ fields, f.2.Proper) : (ofFields fields).Proper := by
  have hfold : ∀ (acc : List (String × Value)), (acc.map Prod.fst).Nodup →
      (∀ f ∈ acc, f.2.Proper) → (∀ f ∈ fields, f.2.Proper) →
      (Value.record (fields.foldl (fun acc f => setField acc f.1 f.2) acc)).Proper := by
    clear h
    induction fields with
    | nil =>
      intro acc hnodup hacc _ names hw
      cases hw with
      | self => exact hnodup
      | record hf hw => exact hacc _ hf hw
    | cons f fields ih =>
      intro acc hnodup hacc hfields
      refine ih _ ?_ ?_ fun g hg => hfields g (mem_cons_of_mem _ hg)
      · rw [names_setField]
        exact nodup_joined hnodup
      · intro g hg
        grind [mem_setField]
  exact hfold [] nodup_nil (by simp) h

/-! ## Tuples and records -/

theorem equalItems_iff {as bs : List Value} :
    equalItems as bs = true ↔ List.Forall₂ (fun a b => a.equal b = true) as bs := by
  induction as generalizing bs with
  | nil => cases bs <;> simp [equalItems]
  | cons a as ih => cases bs <;> simp [equalItems, ih]

theorem field?_eq_some (h : (fields.map Prod.fst).Nodup) :
    field? fields name = some v ↔ (name, v) ∈ fields := by
  induction fields with
  | nil => simp [field?]
  | cons f fields ih =>
    obtain ⟨hf, h⟩ := nodup_cons.1 h
    have hrest : field? (f :: fields) name = if f.1 = name then some f.2 else field? fields name := by
      simp only [field?, find?_cons]
      split <;> simp_all
    grind

theorem equalFields_iff (hb : (bs.map Prod.fst).Nodup) :
    equalFields as bs = true ↔ ∀ f ∈ as, ∃ b, (f.1, b) ∈ bs ∧ f.2.equal b = true := by
  induction as with
  | nil => simp [equalFields]
  | cons f as ih =>
    simp only [equalFields, Bool.and_eq_true, ih, forall_mem_cons, ← field?_eq_some hb]
    cases field? bs f.1 <;> simp

/-- Two records without repeated names are equal if each has the other's fields. -/
theorem equal_record (ha : (as.map Prod.fst).Nodup) (hb : (bs.map Prod.fst).Nodup) :
    (Value.record as).equal (.record bs) = true ↔
      (∀ f ∈ as, ∃ b, (f.1, b) ∈ bs ∧ f.2.equal b = true) ∧
        ∀ g ∈ bs, ∃ a, (g.1, a) ∈ as ∧ a.equal g.2 = true := by
  have hamong : ∀ {xs ys : List (String × Value)}, (xs.map Prod.fst).Nodup →
      (∀ f ∈ xs, ∃ b, (f.1, b) ∈ ys) → (xs.map Prod.fst).Subperm (ys.map Prod.fst) := by
    grind [subperm_of_subset]
  simp only [equal, Bool.and_eq_true, decide_eq_true_eq, equalFields_iff hb]
  constructor
  · rintro ⟨hlen, h⟩
    refine ⟨h, fun g hg => ?_⟩
    -- as many names as on the right, and all of them there: none is left over
    have hperm : (as.map Prod.fst).Perm (bs.map Prod.fst) :=
      (hamong ha fun f hf => (h f hf).imp fun _ => And.left).perm_of_length_le (by simp [hlen])
    obtain ⟨f, hf, hname⟩ := mem_map.1 (hperm.mem_iff.2 (mem_map_of_mem (f := Prod.fst) hg))
    obtain ⟨b, hb', heq⟩ := h f hf
    have hsame : b = g.2 := by
      have h₁ := (field?_eq_some hb).2 hb'
      have h₂ := (field?_eq_some hb).2 hg
      rw [hname] at h₁
      exact Option.some.inj (h₁.symm.trans h₂)
    exact ⟨f.2, hname ▸ hf, hsame ▸ heq⟩
  · rintro ⟨h, h'⟩
    refine ⟨?_, h⟩
    have h₁ := (hamong ha fun f hf => (h f hf).imp fun _ => And.left).length_le
    have h₂ := (hamong hb fun g hg => (h' g hg).imp fun _ => And.left).length_le
    simp only [length_map] at h₁ h₂
    exact Nat.le_antisymm h₁ h₂

/-! ## An equivalence -/

/-- Induction through tuples and records. -/
theorem nested {P : Value → Prop} (htuple : ∀ items, (∀ v ∈ items, P v) → P (.tuple items))
    (hrecord : ∀ fields, (∀ f ∈ fields, P f.2) → P (.record fields))
    (hother : ∀ v, (∀ items, v ≠ .tuple items) → (∀ fields, v ≠ .record fields) → P v) (v : Value) :
    P v := by
  cases v with
  | tuple items => exact htuple items fun v _ => nested htuple hrecord hother v
  | record fields => exact hrecord fields fun f _ => nested htuple hrecord hother f.2
  | _ => exact hother _ nofun nofun
termination_by sizeOf v
decreasing_by
  · simp_wf
    have := List.sizeOf_lt_of_mem ‹_›
    omega
  · simp_wf
    have hlt := List.sizeOf_lt_of_mem ‹f ∈ fields›
    have hspec : sizeOf f = 1 + sizeOf f.1 + sizeOf f.2 := rfl
    omega

theorem equal_refl (v : Value) (h : v.Proper) : v.equal v = true := by
  induction v using nested with
  | htuple items ih =>
    simp only [equal, equalItems_iff, forall₂_same]
    exact fun v hv => ih v hv (h.item hv)
  | hrecord fields ih =>
    have heq : ∀ f ∈ fields, ∃ b, (f.1, b) ∈ fields ∧ f.2.equal b = true ∧ b.equal f.2 = true :=
      fun f hf => ⟨f.2, hf, ih f hf (h.field hf), ih f hf (h.field hf)⟩
    exact (equal_record (h .self) (h .self)).2 ⟨fun f hf => (heq f hf).imp fun _ h => ⟨h.1, h.2.1⟩,
      fun f hf => (heq f hf).imp fun _ h => ⟨h.1, h.2.2⟩⟩
  | hother v ht hr => cases v <;> simp_all [equal]

theorem equal_symm (v w : Value) (hv : v.Proper) (hw : w.Proper) (h : v.equal w = true) :
    w.equal v = true := by
  induction v using nested generalizing w with
  | htuple items ih =>
    cases w <;> simp only [equal, Bool.false_eq_true] at h ⊢
    rename_i items'
    rw [equalItems_iff] at h ⊢
    refine List.Forall₂.flip (forall₂_iff_get.2 ⟨h.length_eq, fun i hi hi' => ?_⟩)
    exact ih _ (get_mem ..) _ (hv.item (get_mem ..)) (hw.item (get_mem ..)) (h.get hi hi')
  | hrecord fields ih =>
    cases w <;> try simp [equal] at h
    rename_i fields'
    obtain ⟨h₁, h₂⟩ := (equal_record (hv .self) (hw .self)).1 (by simpa [equal] using h)
    refine (equal_record (hw .self) (hv .self)).2 ⟨fun g hg => ?_, fun f hf => ?_⟩
    · obtain ⟨a, ha, heq⟩ := h₂ g hg
      exact ⟨a, ha, ih _ ha _ (hv.field ha) (hw.field hg) heq⟩
    · obtain ⟨b, hb, heq⟩ := h₁ f hf
      exact ⟨b, hb, ih f hf _ (hv.field hf) (hw.field hb) heq⟩
  | hother v ht hr => cases v <;> cases w <;> simp_all [equal]

theorem equal_trans (u v w : Value) (hv : v.Proper) (hw : w.Proper) (h : u.equal v = true)
    (h' : v.equal w = true) : u.equal w = true := by
  induction u using nested generalizing v w with
  | htuple items ih =>
    cases v <;> simp only [equal, Bool.false_eq_true] at h
    cases w <;> simp only [equal, Bool.false_eq_true] at h' ⊢
    rw [equalItems_iff] at h h' ⊢
    refine forall₂_iff_get.2 ⟨h.length_eq.trans h'.length_eq, fun i hi hi' => ?_⟩
    exact ih _ (get_mem ..) _ _ (hv.item (get_mem ..)) (hw.item (get_mem ..))
      (h.get hi (h'.length_eq ▸ hi')) (h'.get _ hi')
  | hrecord fields ih =>
    cases v <;> try simp [equal] at h
    cases w <;> try simp [equal] at h'
    rw [equalFields_iff (hv .self)] at h
    rw [equalFields_iff (hw .self)] at h'
    simp only [equal, Bool.and_eq_true, decide_eq_true_eq, equalFields_iff (hw .self)]
    refine ⟨h.1.trans h'.1, fun f hf => ?_⟩
    obtain ⟨b, hb, heq⟩ := h.2 f hf
    obtain ⟨c, hc, heq'⟩ := h'.2 _ hb
    exact ⟨c, hc, ih f hf _ _ (hv.field hb) (hw.field hc) heq heq'⟩
  | hother u ht hr => cases u <;> cases v <;> cases w <;> simp_all [equal]

/-- On proper values equality is reflexive, symmetric and transitive.  Two records are equal if each
    field of either has an equal one of the same name in the other, whatever the order.  And records
    are made proper, whatever fields they are made of. -/
theorem equal_equivalence :
    Equivalence (fun v w : { v : Value // v.Proper } => v.1.equal w.1 = true) ∧
      (∀ as bs : { fields : List (String × Value) // (Value.record fields).Proper },
        (Value.record as.1).equal (.record bs.1) = true ↔
          (∀ f ∈ as.1, ∃ b, (f.1, b) ∈ bs.1 ∧ f.2.equal b = true) ∧
            ∀ g ∈ bs.1, ∃ a, (g.1, a) ∈ as.1 ∧ a.equal g.2 = true) ∧
      ∀ fields : List (String × { v : Value // v.Proper }),
        (Value.ofFields (fields.map fun f => (f.1, f.2.1))).Proper := by
  refine ⟨⟨fun v => equal_refl v.1 v.2, fun {v w} => equal_symm v.1 w.1 v.2 w.2,
    fun {u v w} => equal_trans u.1 v.1 w.1 v.2 w.2⟩,
    fun as bs => equal_record (as.2 .self) (bs.2 .self), fun fields => .ofFields fun f hf => ?_⟩
  obtain ⟨f', -, rfl⟩ := mem_map.1 hf
  exact f'.2.2

/-- The order of the fields does not count, at any depth; the names do. -/
example : (Value.record [("a", .int 1), ("b", .tuple [.record [("c", .signal), ("d", .bool true)]])]).equal
      (.record [("b", .tuple [.record [("d", .bool true), ("c", .signal)]]), ("a", .int 1)]) = true ∧
    (Value.record [("a", .int 1)]).equal (.record [("b", .int 1)]) = false := by decide +kernel

end Orchestra.Value

/-! ## Calls of equal closures -/

namespace Orchestra

open List

variable {ω : Type}

namespace Engine

/-- The token enters a definition with an environment. -/
def enter (e : Engine ω) (t : TokenId) (entry : Nat) (env : Env) (next : Nat) (tail : Bool) :
    Except Fault (Engine ω) :=
  ((e.count fun s =>
      { s with calls := s.calls + 1, tailCalls := s.tailCalls + if tail then 1 else 0 }).onToken t
    fun token =>
      { token with env, stack := if tail then token.stack else ⟨next, token.env⟩ :: token.stack }
    ).proceed t entry

theorem length_bindingsOf {env : Env} {args : List Operand} {bindings : List Binding}
    (h : args.mapM (bindingOf env) = .ok bindings) : bindings.length = args.length := by
  induction args generalizing bindings with
  | nil =>
    cases h
    rfl
  | cons a args ih =>
    rw [mapM_cons] at h
    obtain ⟨b, -, h⟩ := bind_ok h
    obtain ⟨bs, hbs, h⟩ := bind_ok h
    cases h
    rw [length_cons, length_cons, ih hbs]

/-- How a call comes out does not depend on what was captured. -/
theorem callClosure_cases (host : Host ω) (e : Engine ω) (t : TokenId) (tok : Token)
    (group member : Nat) (args : List Operand) (next : Nat) (tail : Bool) :
    (∃ fault, ∀ captured,
      e.callClosure host t tok group member captured args next tail = .error fault) ∨
    (∃ error, ∀ captured,
      e.callClosure host t tok group member captured args next tail = .ok (e.fail host t error)) ∨
    ∃ entry, ∃ bindings : List Binding, ∃ defs, bindings.length = args.length ∧ ∀ captured,
      e.callClosure host t tok group member captured args next tail =
        e.enter t entry (bindings.reverse ++ bindGroup group defs captured) next tail := by
  cases hdefs : e.groupDefs group with
  | error fault => exact .inl ⟨fault, fun _ => by rw [callClosure, hdefs]; rfl⟩
  | ok defs =>
    cases hd : defs[member]? with
    | none =>
      refine .inl ⟨.missing "definition", fun captured => ?_⟩
      simp only [callClosure, hdefs, Bind.bind, Except.bind, hd]
      rfl
    | some d =>
      have hcall : ∀ captured, e.callClosure host t tok group member captured args next tail =
          if d.arity ≠ args.length then
            .ok (e.fail host t (.arityMismatch d.name d.arity args.length))
          else (args.mapM (bindingOf tok.env)).bind fun bindings =>
            e.enter t d.entry (bindings.reverse ++ bindGroup group defs captured) next tail := by
        intro captured
        simp only [callClosure, hdefs, Bind.bind, Except.bind, hd]
        rfl
      by_cases harity : d.arity = args.length
      · simp only [hcall, if_neg (not_not.2 harity)]
        cases hargs : args.mapM (bindingOf tok.env) with
        | error fault => exact .inl ⟨fault, fun _ => rfl⟩
        | ok bindings =>
          exact .inr (.inr ⟨d.entry, bindings, defs, length_bindingsOf hargs, fun _ => rfl⟩)
      · simp only [hcall, if_pos harity]
        exact .inr (.inl ⟨_, fun _ => rfl⟩)

/-- Two closures for which `Eq` publishes true are the same member of the same group of definitions.
    Calls with the same arguments either are refused for the same reason, or enter the same
    definition.  The environments then have the same bindings at the arguments and equal closures at
    the members of the group; behind these stand the bindings that each of the two has captured.  So
    they have the same binding at every index exactly if the same bindings were captured, and only
    then do the calls surely lead to the same state. -/
theorem equal_closures_enter_alike (host : Host ω) (e : Engine ω) (t : TokenId) (tok : Token)
    {group group' member member' : Nat} {captured captured' : Env}
    (heq : Primitive.eq.apply [.closure group member captured, .closure group' member' captured'] =
      .publish (.bool true)) (args : List Operand) (next : Nat) (tail : Bool) :
    let call := e.callClosure host t tok group member captured args next tail
    let call' := e.callClosure host t tok group' member' captured' args next tail
    (∃ fault, call = .error fault ∧ call' = .error fault) ∨
    (∃ error, call = .ok (e.fail host t error) ∧ call' = .ok (e.fail host t error)) ∨
    ∃ entry env env' siblings,
      call = e.enter t entry env next tail ∧ call' = e.enter t entry env' next tail ∧
      (∀ i < args.length, env[i]? = env'[i]?) ∧
      (∀ i < siblings, ∃ v v', env[args.length + i]? = some (.value v) ∧
        env'[args.length + i]? = some (.value v') ∧ v.isClosure = true ∧ v.equal v' = true) ∧
      (∀ i : Nat, env[args.length + siblings + i]? = captured[i]? ∧
        env'[args.length + siblings + i]? = captured'[i]?) ∧
      ((∀ i : Nat, env[i]? = env'[i]?) ↔ ∀ i : Nat, captured[i]? = captured'[i]?) ∧
      ((∀ i : Nat, captured[i]? = captured'[i]?) → call = call') := by
  intro call call'
  obtain ⟨rfl, rfl⟩ : group = group' ∧ member = member' := by
    simpa [Primitive.apply, Primitive.evaluate, Reply.ofExcept, Value.equal] using heq
  rcases e.callClosure_cases host t tok group member args next tail with
    ⟨fault, h⟩ | ⟨error, h⟩ | ⟨entry, bindings, defs, hlen, h⟩
  · exact .inl ⟨fault, h _, h _⟩
  · exact .inr (.inl ⟨error, h _, h _⟩)
  · have hbehind : ∀ (captured : Env) (i : Nat), (bindings.reverse ++ bindGroup group defs captured)[
        args.length + defs.length + i]? = captured[i]? := by
      intro captured i
      rw [bindGroup_eq, ← append_assoc, getElem?_append_right (by simp [hlen])]
      simp [hlen]
    have hsibling : ∀ (captured : Env) {i : Nat}, i < defs.length →
        (bindings.reverse ++ bindGroup group defs captured)[args.length + i]? =
          some (.value (.closure group (defs.length - 1 - i) captured)) := by
      intro captured i hi
      rw [bindGroup_eq, getElem?_append_right (by simp [hlen]),
        getElem?_append_left (by simpa [hlen] using hi)]
      simp [hlen, hi]
    refine .inr (.inr ⟨entry, _, _, defs.length, h _, h _, fun i hi => ?_, fun i hi => ?_,
      fun i => ⟨hbehind _ i, hbehind _ i⟩, ⟨fun hsame i => ?_, fun hsame => ?_⟩, fun hsame => ?_⟩)
    · rw [getElem?_append_left (by simpa [hlen] using hi),
        getElem?_append_left (by simpa [hlen] using hi)]
    · exact ⟨_, _, hsibling _ hi, hsibling _ hi, rfl, by simp [Value.equal]⟩
    · rw [← hbehind captured, ← hbehind captured', hsame]
    · rw [ext_getElem? hsame]
      exact fun _ => rfl
    · simp only [call, call']
      rw [ext_getElem? hsame]

end Engine

/-- A state with a closure to call. -/
def Engine.keeping : Engine World := (Engine.new ⟨{ groups := #[[⟨"kept", 0, 0⟩]] }, 0⟩ none {}).start

/-- What was captured makes the difference. -/
theorem equal_closures_enter_alike_keeping : ∃ tok, Engine.keeping.tokens.get? ⟨0⟩ = some tok ∧
    Primitive.eq.apply [.closure 0 0 [.value (.int 1)], .closure 0 0 [.value (.int 2)]] =
      .publish (.bool true) ∧
    ∃ entry env env', Engine.keeping.callClosure World.host ⟨0⟩ tok 0 0 [.value (.int 1)] [] 0 true =
        Engine.keeping.enter ⟨0⟩ entry env 0 true ∧
      Engine.keeping.callClosure World.host ⟨0⟩ tok 0 0 [.value (.int 2)] [] 0 true =
        Engine.keeping.enter ⟨0⟩ entry env' 0 true ∧ ¬∀ i : Nat, env[i]? = env'[i]? := by
  obtain ⟨tok, htok⟩ : ∃ tok, Engine.keeping.tokens.get? ⟨0⟩ = some tok := ⟨_, rfl⟩
  have heq : Primitive.eq.apply [.closure 0 0 [.value (.int 1)], .closure 0 0 [.value (.int 2)]] =
      .publish (.bool true) := rfl
  refine ⟨tok, htok, heq, ?_⟩
  rcases Engine.equal_closures_enter_alike World.host Engine.keeping ⟨0⟩ tok heq [] 0 true with
    ⟨fault, h, -⟩ | ⟨error, h, -⟩ | ⟨entry, env, env', n, h, h', -, -, -, hiff, -⟩
  · cases h
  · cases congrArg (fun r => r.toOption.map fun e : Engine World => e.stats.calls) h
  · refine ⟨entry, env, env', h, h', fun hall => ?_⟩
    cases hiff.1 hall 0

/-- `keep(1) >a> keep(2) >b> Eq(a, b)`, where `def keep(x) = (def kept() = x  kept)`. -/
def Expr.keeping : Expr :=
  .declare [.mk "keep" 1 (.declare [.mk "kept" 0 (.value (.variable 1))] (.value (.variable 0)))]
    (.sequential (.call (.variable 0) [.literal (.int 1)] .none)
      (.sequential (.call (.variable 1) [.literal (.int 2)] .none)
        (.call (.site "Eq") [.variable 1, .variable 0] .none)))

/-- Its only site. -/
def Registry.keeping : Registry := ⟨[⟨"Eq", 0, .immediate⟩]⟩

/-- Whether the first token holds closures of `kept` that have captured 1 and 2. -/
def Engine.keepsBoth (e : Engine ω) : Bool :=
  e.program.code.groups[0]? = some [⟨"kept", 0, 5⟩] &&
    match (e.tokens.get? ⟨0⟩).map Token.env with
    | some (.value (.closure 0 0 (.value (.int 2) :: _)) ::
        .value (.closure 0 0 (.value (.int 1) :: _)) :: _) => true
    | _ => false

/-- Two closures of a run for which `Eq` publishes true, and which see different values when they
    are called. -/
theorem equal_closures_differ : ∃ p past e tok captured captured' entry env env',
    Expr.keeping.compile Registry.keeping = .ok p ∧
    Run World.host p none { operations := #[.primitive .eq] } past e ∧
    e.tokens.get? ⟨0⟩ = some tok ∧ tok.env[1]? = some (.value (.closure 0 0 captured)) ∧
    tok.env[0]? = some (.value (.closure 0 0 captured')) ∧
    Primitive.eq.apply [.closure 0 0 captured, .closure 0 0 captured'] = .publish (.bool true) ∧
    e.callClosure World.host.logged ⟨0⟩ tok 0 0 captured [] 0 false = e.enter ⟨0⟩ entry env 0 false ∧
    e.callClosure World.host.logged ⟨0⟩ tok 0 0 captured' [] 0 false = e.enter ⟨0⟩ entry env' 0 false ∧
    env[1]? = some (.value (.int 1)) ∧ env'[1]? = some (.value (.int 2)) := by
  obtain ⟨p, past, e, hp, hrun, hcheck⟩ := Run.compiled Expr.keeping Registry.keeping
    World.host none { operations := #[.primitive .eq] } 13 Engine.keepsBoth
    ⟨_, rfl, by decide +kernel⟩
  simp only [Engine.keepsBoth, Bool.and_eq_true, decide_eq_true_eq] at hcheck
  obtain ⟨hgroups, hheld⟩ := hcheck
  split at hheld
  · rename_i captured' captured rest henv
    obtain ⟨tok, htok, henv⟩ := Option.map_eq_some_iff.1 henv
    have hcall : ∀ captured, e.callClosure World.host.logged ⟨0⟩ tok 0 0 captured [] 0 false =
        e.enter ⟨0⟩ 5 (Engine.bindGroup 0 [⟨"kept", 0, 5⟩] captured) 0 false := by
      intro captured
      simp only [Engine.callClosure, Engine.groupDefs, hgroups]
      rfl
    exact ⟨p, past, e, tok, _, _, 5, _, _, hp, hrun, htok, by rw [henv]; rfl, by rw [henv]; rfl, rfl,
      hcall _, hcall _, rfl, rfl⟩
  · cases hheld

end Orchestra
