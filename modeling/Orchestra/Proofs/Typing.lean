/-
  A type system for code.

  A token can only get stuck at a node if it does not bring what the node takes: bindings, return
  frames, the left side of an `otherwise` to escape from, a cell or a transaction to publish into.
  `Fits` says statically what a node takes: the number of bindings in scope, how many left sides
  there are to escape from, and by which exit a publication leaves in the end.  `Walks` says the
  same of a node together with a call stack, where each frame goes on after a `ret`.

  A value is SOUND if the definitions of all closures in it fit the environments that they
  capture.

  * `Walks.inv` : what a token at each kind of node brings along, and what it has afterwards.
  * `fits_of_lowered` : lowered expressions fit.
-/
import Orchestra.Proofs.Charter
import Orchestra.Proofs.Lowering

namespace Orchestra

open List

variable {b : Binding} {env : Env} {x : Exit} {defs : List Def} {stack : List Frame}
  {d group i k next : Nat} {sites : Registry} {depth : UInt64}

/-! ## Nodes -/

/-- A value that stands in a program: a constant or a site. -/
def Value.Plain (v : Value) : Prop := (∃ l : Literal, v = l.toValue) ∨ ∃ s, v = .site s

/-- An operand can be read with `d` bindings in scope. -/
def Operand.Fits (d : Nat) : Operand → Prop
  | .const v => v.Plain
  | .var index => index < d

/-- Whatever runs from node `i` with `d` bindings in scope finds what it takes: it escapes from
    `k` left sides of an `otherwise` and then leaves by the exit `x`, or ends before. -/
inductive Fits (c : Code) : (i d k : Nat) → Exit → Prop where
  | stop {i d k : Nat} {x : Exit} (hi : c.nodes[i]? = some .stop) : Fits c i d k x
  | load {i d k next : Nat} {x : Exit} {o : Operand} (hi : c.nodes[i]? = some (.load o next))
    (ho : o.Fits d) (h : Fits c next d k x) : Fits c i d k x
  | field {i d k next : Nat} {x : Exit} {o : Operand} {name : String}
    (hi : c.nodes[i]? = some (.field o name next)) (ho : o.Fits d) (h : Fits c next d k x) :
    Fits c i d k x
  | push {i d k next : Nat} {x : Exit} (hi : c.nodes[i]? = some (.push next))
    (h : Fits c next (d + 1) k x) : Fits c i d k x
  | unwind {i d k n next : Nat} {x : Exit} (hi : c.nodes[i]? = some (.unwind n next))
    (h : Fits c next d k x) : Fits c i (d + n) k x
  | fork {i d k l r : Nat} {x : Exit} (hi : c.nodes[i]? = some (.fork l r))
    (hl : Fits c l d k x) (hr : Fits c r d k x) : Fits c i d k x
  | subgoal {i d k l r : Nat} {x : Exit} (hi : c.nodes[i]? = some (.subgoal l r))
    (hl : Fits c l (d + 1) k x) (hr : Fits c r d 0 .resolve) : Fits c i d k x
  | resolve {i d : Nat} (hi : c.nodes[i]? = some .resolve) : Fits c i d 0 .resolve
  | otherwise {i d k l r : Nat} {x : Exit} (hi : c.nodes[i]? = some (.otherwise l r))
    (hl : Fits c l d (k + 1) x) (hr : Fits c r d k x) : Fits c i d k x
  | escape {i d k next : Nat} {x : Exit} (hi : c.nodes[i]? = some (.escape next))
    (h : Fits c next d k x) : Fits c i d (k + 1) x
  | atomic {i d k b next : Nat} {x : Exit} (hi : c.nodes[i]? = some (.atomic b next))
    (hb : Fits c b d 0 .buffer) (h : Fits c next d k x) : Fits c i d k x
  | buffer {i d : Nat} (hi : c.nodes[i]? = some .buffer) : Fits c i d 0 .buffer
  | declare {i d k g next : Nat} {x : Exit} {defs : List Def}
    (hi : c.nodes[i]? = some (.declare g next)) (hg : c.groups[g]? = some defs)
    (hd : ∀ df ∈ defs, Fits c df.entry (d + defs.length + df.arity) 0 .ret)
    (h : Fits c next (d + defs.length) k x) : Fits c i d k x
  | call {i d k next : Nat} {x : Exit} {o : Operand} {os : List Operand} {tail : Bool}
    {span : Span} (hi : c.nodes[i]? = some (.call o os next tail span)) (ho : o.Fits d)
    (hos : ∀ o ∈ os, o.Fits d) (htail : tail = true → k = 0 ∧ x = .ret)
    (h : Fits c next d k x) : Fits c i d k x
  | ret {i d : Nat} (hi : c.nodes[i]? = some .ret) : Fits c i d 0 .ret
  | publish {i d : Nat} (hi : c.nodes[i]? = some .publish) : Fits c i d 0 .publish

/-! ## Nodes with a call stack -/

/-- Whatever runs from node `i` with `d` bindings in scope and the given frames to return to
    finds what it takes: it escapes from `k` left sides and then leaves by the exit `x`. -/
inductive Walks (c : Code) : (i d : Nat) → List Frame → (k : Nat) → Exit → Prop where
  /-- The frames are not used any more. -/
  | last {i d k : Nat} {x : Exit} {stack : List Frame} (h : Fits c i d k x) (hx : x ≠ .ret) :
    Walks c i d stack k x
  | frame {i d k k' : Nat} {x : Exit} {f : Frame} {stack : List Frame} (h : Fits c i d k .ret)
    (hf : Walks c f.next f.env.length stack k' x) : Walks c i d (f :: stack) (k + k') x

/-- What a token brings to a node with `d` bindings in scope, and how it can go on from there. -/
def WalksNode (c : Code) (d : Nat) (stack : List Frame) (k : Nat) (x : Exit) : Node → Prop
  | .stop => True
  | .load o next => o.Fits d ∧ Walks c next d stack k x
  | .field o _ next => o.Fits d ∧ Walks c next d stack k x
  | .push next => Walks c next (d + 1) stack k x
  | .unwind n next => n ≤ d ∧ Walks c next (d - n) stack k x
  | .fork l r => Walks c l d stack k x ∧ Walks c r d stack k x
  | .subgoal l r => Walks c l (d + 1) stack k x ∧ Walks c r d stack 0 .resolve
  | .resolve => k = 0 ∧ x = .resolve
  | .otherwise l r => Walks c l d stack (k + 1) x ∧ Walks c r d stack k x
  | .escape next => ∃ k', k = k' + 1 ∧ Walks c next d stack k' x
  | .atomic b next => Walks c b d stack 0 .buffer ∧ Walks c next d stack k x
  | .buffer => k = 0 ∧ x = .buffer
  | .declare g next => ∃ defs, c.groups[g]? = some defs ∧
      (∀ df ∈ defs, Fits c df.entry (d + defs.length + df.arity) 0 .ret) ∧
      Walks c next (d + defs.length) stack k x
  | .call o os next tail _ => o.Fits d ∧ (∀ o ∈ os, o.Fits d) ∧ Walks c next d stack k x ∧
      ∀ {entry d'}, Fits c entry d' 0 .ret → ∀ {env : Env}, env.length = d →
        Walks c entry d' (if tail then stack else ⟨next, env⟩ :: stack) k x
  | .ret => ∃ f rest, stack = f :: rest ∧ Walks c f.next f.env.length rest k x
  | .publish => k = 0 ∧ x = .publish

variable {c c' : Code}

/-- A called definition returns to where the call goes on. -/
theorem Walks.enter {d' entry : Nat} (h : Walks c next env.length stack k x)
    (hentry : Fits c entry d' 0 .ret) : Walks c entry d' (⟨next, env⟩ :: stack) k x := by
  rw [← Nat.zero_add k]
  exact .frame hentry h

/-- Every kind of node gets what it takes. -/
theorem Walks.inv (h : Walks c i d stack k x) {n : Node} (hn : c.nodes[i]? = some n) :
    WalksNode c d stack k x n := by
  cases h with
  | last h hx =>
    cases h with
    | stop hi => cases hn.symm.trans hi; trivial
    | load hi ho h => cases hn.symm.trans hi; exact ⟨ho, .last h hx⟩
    | field hi ho h => cases hn.symm.trans hi; exact ⟨ho, .last h hx⟩
    | push hi h => cases hn.symm.trans hi; exact .last h hx
    | unwind hi h =>
      cases hn.symm.trans hi
      exact ⟨Nat.le_add_left .., by rw [Nat.add_sub_cancel]; exact .last h hx⟩
    | fork hi hl hr => cases hn.symm.trans hi; exact ⟨.last hl hx, .last hr hx⟩
    | subgoal hi hl hr => cases hn.symm.trans hi; exact ⟨.last hl hx, .last hr (by decide)⟩
    | resolve hi => cases hn.symm.trans hi; exact ⟨rfl, rfl⟩
    | otherwise hi hl hr => cases hn.symm.trans hi; exact ⟨.last hl hx, .last hr hx⟩
    | escape hi h => cases hn.symm.trans hi; exact ⟨_, rfl, .last h hx⟩
    | atomic hi hb h => cases hn.symm.trans hi; exact ⟨.last hb (by decide), .last h hx⟩
    | buffer hi => cases hn.symm.trans hi; exact ⟨rfl, rfl⟩
    | declare hi hg hd h => cases hn.symm.trans hi; exact ⟨_, hg, hd, .last h hx⟩
    | @call _ _ _ _ _ _ _ tail _ hi ho hos htail h =>
      cases hn.symm.trans hi
      refine ⟨ho, hos, .last h hx, fun hentry env henv => ?_⟩
      cases tail with
      | false => exact Walks.enter (henv ▸ .last h hx) hentry
      | true => exact absurd (htail rfl).2 hx
    | ret hi => exact absurd rfl hx
    | publish hi => cases hn.symm.trans hi; exact ⟨rfl, rfl⟩
  | @frame _ _ _ k' _ f rest h hf =>
    cases h with
    | stop hi => cases hn.symm.trans hi; trivial
    | load hi ho h => cases hn.symm.trans hi; exact ⟨ho, .frame h hf⟩
    | field hi ho h => cases hn.symm.trans hi; exact ⟨ho, .frame h hf⟩
    | push hi h => cases hn.symm.trans hi; exact .frame h hf
    | unwind hi h =>
      cases hn.symm.trans hi
      exact ⟨Nat.le_add_left .., by rw [Nat.add_sub_cancel]; exact .frame h hf⟩
    | fork hi hl hr => cases hn.symm.trans hi; exact ⟨.frame hl hf, .frame hr hf⟩
    | subgoal hi hl hr => cases hn.symm.trans hi; exact ⟨.frame hl hf, .last hr (by decide)⟩
    | otherwise hi hl hr =>
      cases hn.symm.trans hi
      refine ⟨?_, .frame hr hf⟩
      rw [Nat.add_right_comm]
      exact .frame hl hf
    | escape hi h =>
      cases hn.symm.trans hi
      exact ⟨_, Nat.add_right_comm .., .frame h hf⟩
    | atomic hi hb h => cases hn.symm.trans hi; exact ⟨.last hb (by decide), .frame h hf⟩
    | declare hi hg hd h => cases hn.symm.trans hi; exact ⟨_, hg, hd, .frame h hf⟩
    | @call _ _ _ _ _ _ _ tail _ hi ho hos htail h =>
      cases hn.symm.trans hi
      refine ⟨ho, hos, .frame h hf, fun hentry env henv => ?_⟩
      cases tail with
      | false => exact Walks.enter (henv ▸ .frame h hf) hentry
      | true =>
        -- the caller itself would only return
        obtain ⟨rfl, -⟩ := htail rfl
        exact .frame hentry hf
    | ret hi =>
      cases hn.symm.trans hi
      exact ⟨f, rest, rfl, by rw [Nat.zero_add]; exact hf⟩

/-- There is always a node to execute. -/
theorem Fits.node (h : Fits c i d k x) : ∃ n, c.nodes[i]? = some n := by
  cases h <;> exact ⟨_, ‹_›⟩

theorem Walks.node (h : Walks c i d stack k x) : ∃ n, c.nodes[i]? = some n := by
  cases h with
  | last h _ => exact h.node
  | frame h _ => exact h.node

/-! ## Lowered expressions -/

theorem operand_fits {a : Argument} {o : Operand} (ho : a.lower sites depth = .ok o)
    (hd : depth.toNat ≤ d) : o.Fits d := by
  unfold Argument.lower at ho
  split at ho
  · cases ho
    exact .inl ⟨_, rfl⟩
  · split at ho
    · rename_i hlt
      cases ho
      exact Nat.lt_of_lt_of_le (UInt64.lt_iff_toNat_lt.1 hlt) hd
    · cases ho
  · split at ho
    · cases ho
      exact .inr ⟨_, rfl⟩
    · cases ho

theorem operands_fit {args : List Argument} {os : List Operand}
    (hos : args.mapM (Argument.lower sites depth) = .ok os) (hd : depth.toNat ≤ d) :
    ∀ o ∈ os, o.Fits d := by
  induction args generalizing os with
  | nil =>
    cases hos
    simp
  | cons a args ih =>
    rw [mapM_cons] at hos
    obtain ⟨o, ho, hos⟩ := bind_ok hos
    obtain ⟨rest, hrest, hos⟩ := bind_ok hos
    cases hos
    grind [operand_fits]

/-- Where a call is a tail call, the caller has nothing left to do. -/
theorem Fits.of_returns (h : Fits c i d k x) (hr : c.Returns i) : k = 0 ∧ x = .ret := by
  induction hr generalizing d with
  | ret hi =>
    cases h with
    | ret => exact ⟨rfl, rfl⟩
    | _ => simp_all
  | unwind hi _ ih =>
    cases h with
    | unwind hi' h =>
      cases hi.symm.trans hi'
      exact ih h
    | _ => simp_all

/-- The number of bindings in scope, counted in a word, is never more than it is. -/
theorem toNat_add_le {a : UInt64} {n : Nat} (h : a.toNat ≤ d) (b : UInt64) (hb : b.toNat ≤ n) :
    (a + b).toNat ≤ d + n := by
  rw [UInt64.toNat_add]
  exact Nat.le_trans (Nat.mod_le _ _) (Nat.add_le_add h hb)

theorem length_toUInt64_le (n : Nat) : n.toUInt64.toNat ≤ n := by
  show (UInt64.ofNat n).toNat ≤ n
  rw [UInt64.toNat_ofNat']
  exact Nat.mod_le _ _

/-- A lowered expression takes what its continuation takes. -/
theorem Lowered.fits {e : Expr} (hc : c.Based) (h : Lowered sites c e next depth i)
    (hd : depth.toNat ≤ d) (hnext : Fits c next d k x) : Fits c i d k x := by
  induction h generalizing d k x with
  | stop => exact .stop hc.halt
  | value ho hi => exact .load hi (operand_fits ho hd) hnext
  | call ho hos hi htail =>
    exact .call hi (operand_fits ho hd) (operands_fit hos hd)
      (fun ht => hnext.of_returns (htail ht)) hnext
  | field ho hi => exact .field hi (operand_fits ho hd) hnext
  | parallel _ _ hi ihl ihr => exact .fork hi (ihl hd hnext) (ihr hd hnext)
  | sequential hpop _ hpush _ ihr ihl =>
    have hinner := toNat_add_le hd 1 (Nat.le_refl 1)
    exact ihl hd (.push hpush (ihr hinner (.unwind hpop hnext)))
  | pruning hpop _ _ hi ihl ihr =>
    have hinner := toNat_add_le hd 1 (Nat.le_refl 1)
    exact .subgoal hi (ihl hinner (.unwind hpop hnext)) (ihr hd (.resolve hc.resolve))
  | otherwise hescape _ _ hi ihl ihr =>
    exact .otherwise hi (ihl hd (.escape hescape hnext)) (ihr hd hnext)
  | @declare defs body next i pop b g depth entry hg hdefs hpop hbody hi ihdefs ihbody =>
    have hinner := toNat_add_le hd defs.length.toUInt64 (length_toUInt64_le _)
    refine .declare hi hg ?_ ?_
    · intro df hdf
      obtain ⟨j, hj, rfl⟩ := mem_mapIdx.1 hdf
      rw [length_mapIdx]
      exact ihdefs j _ (getElem?_eq_getElem hj)
        (toNat_add_le hinner _ (Nat.le_refl _)) (.ret hc.ret)
    · rw [length_mapIdx]
      exact ihbody hinner (.unwind hpop hnext)
  | atomic _ hi ihbody => exact .atomic hi (ihbody hd (.buffer hc.buffer)) hnext

/-- A compiled program publishes, with nothing in scope at the start. -/
theorem fits_of_compile {e : Expr} {p : Program} (h : e.compile sites = .ok p) :
    p.code.Based ∧ Fits p.code p.entry 0 0 .publish := by
  obtain ⟨⟨entry, code⟩, hlower, h⟩ := bind_ok h
  cases h
  obtain ⟨hbelow, hlowered⟩ := Expr.lower_lowered hlower
  have hbased := Code.based_of_below hbelow
  exact ⟨hbased, (hlowered (.refl code)).fits hbased (Nat.le_refl 0) (.publish hbased.publish)⟩

/-! ## Values -/

/-- A value is one that `v` is made of: an item, a field, or what a closure captures. -/
inductive Value.Within (w : Value) : Value → Prop where
  | self : Within w w
  | tuple {items : List Value} {v : Value} (hv : v ∈ items) (h : Within w v) :
    Within w (.tuple items)
  | record {fields : List (String × Value)} {f : String × Value} (hf : f ∈ fields)
    (h : Within w f.2) : Within w (.record fields)
  | captured {group member : Nat} {env : Env} {v : Value} (hv : .value v ∈ env)
    (h : Within w v) : Within w (.closure group member env)

/-- Whether a value is a closure. -/
def Value.isClosure : Value → Bool
  | .closure .. => true
  | _ => false

/-- The definitions of a closure fit the environment that it captures. -/
def ClosureFits (c : Code) (group member : Nat) (env : Env) : Prop :=
  ∃ defs, c.groups[group]? = some defs ∧ member < defs.length ∧
    ∀ df ∈ defs, Fits c df.entry (env.length + defs.length + df.arity) 0 .ret

/-- All closures in a value fit the environments that they capture. -/
def Value.Sound (c : Code) (v : Value) : Prop :=
  ∀ ⦃group member env⦄, Within (.closure group member env) v → ClosureFits c group member env

/-- The values of an environment are sound. -/
def EnvSound (c : Code) (env : Env) : Prop := ∀ ⦃v⦄, .value v ∈ env → v.Sound c

namespace Value

variable {w v : Value}

theorem Within.trans {u : Value} (h : Within u v) (h' : Within v w) : Within u w := by
  induction h' with
  | self => exact h
  | tuple hv _ ih => exact .tuple hv ih
  | record hf _ ih => exact .record hf ih
  | captured hv _ ih => exact .captured hv ih

theorem Sound.within (h : v.Sound c) (hw : Within w v) : w.Sound c :=
  fun _ _ _ hk => h (hk.trans hw)

theorem Plain.sound (h : v.Plain) : v.Sound c := by
  intro group member env hw
  rcases h with ⟨l, rfl⟩ | ⟨s, rfl⟩
  · cases l <;> cases hw
  · cases hw

theorem sound_signal : Value.signal.Sound c := fun _ _ _ hw => by cases hw

theorem sound_closure {member : Nat} (h : ClosureFits c group member env) (henv : EnvSound c env) :
    (Value.closure group member env).Sound c := by
  intro group' member' env' hw
  cases hw with
  | self => exact h
  | captured hv hw => exact henv hv hw

theorem Sound.field {fields : List (String × Value)} {name : String}
    (h : (Value.record fields).Sound c) (hv : field? fields name = some v) : v.Sound c := by
  unfold field? at hv
  obtain ⟨f, hf, rfl⟩ := Option.map_eq_some_iff.1 hv
  exact h.within (.record (mem_of_find?_eq_some hf) .self)

end Value

/-- Binding the definitions of a group keeps an environment sound. -/
theorem EnvSound.cons (h : EnvSound c env) (hb : ∀ {v}, b = .value v → v.Sound c) :
    EnvSound c (b :: env) := by
  intro v hv
  rcases mem_cons.1 hv with e | hv
  · exact hb e.symm
  · exact h hv

namespace Engine

theorem bindGroup_eq (group : Nat) (defs : List Def) (env : Env) : bindGroup group defs env =
    ((List.range defs.length).map fun member => .value (.closure group member env)).reverse ++ env :=
  foldl_flip_cons_eq_append

theorem length_bindGroup (group : Nat) (defs : List Def) (env : Env) :
    (bindGroup group defs env).length = env.length + defs.length := by
  simp [bindGroup_eq, Nat.add_comm]

theorem mem_bindGroup (h : b ∈ bindGroup group defs env) :
    b ∈ env ∨ ∃ member, member < defs.length ∧ b = .value (.closure group member env) := by
  grind [bindGroup_eq]

theorem bindGroup_sound (henv : EnvSound c env) (hg : c.groups[group]? = some defs)
    (hd : ∀ df ∈ defs, Fits c df.entry (env.length + defs.length + df.arity) 0 .ret) :
    EnvSound c (bindGroup group defs env) := by
  intro v hv
  rcases mem_bindGroup hv with hv | ⟨member, hm, e⟩
  · exact henv hv
  · cases e
    exact Value.sound_closure ⟨defs, hg, hm, hd⟩ henv

end Engine
end Orchestra
