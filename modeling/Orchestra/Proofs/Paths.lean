/-
  Paths: the ways of a token through the code.

  What a token does next depends on where it stands, what it sees, the last value published into it
  and the calls it has to return from; scopes and phases only say whether and when it does it.  This
  module tells the ways of a token from these alone:

  1. **Spots and threads**: a SPOT is a node with an environment and a result, a THREAD is a spot with
     a call stack.

  2. **Steps**: most steps leave the stack alone and are moves from spot to spot.  A call of a closure
     may push a frame, and a return pops one.  What comes from outside may be any sound value: the
     value of a cell, the answer of a site, a publication that was held back.

  3. **Paths** go step by step.  A copy of a token, and a token that goes on from a place that another
     one has kept, go on with the path of that one.

  4. **Every token is on a path** (`Reaches.onPath`): whatever a run comes to, each of its tokens
     stands where a path from the first token leads.
-/
import Orchestra.Proofs.Reports

namespace Orchestra

open Engine List

/-! ## Threads -/

/-- Where a token stands, what it sees, and the last value published into it. -/
structure Spot where
  node : Nat
  env : Env
  result : Value

/-- A spot with the calls that are to be returned from. -/
structure Thread where
  spot : Spot
  stack : List Frame

def Token.thread (tok : Token) : Thread := ⟨⟨tok.node, tok.env, tok.result⟩, tok.stack⟩

/-- The thread that goes on with a value. -/
def Continuation.thread (k : Continuation) (v : Value) : Thread := ⟨⟨k.node, k.env, v⟩, k.stack⟩

/-- The same thread at another node. -/
def Thread.sentTo (a : Thread) (node : Nat) : Thread := { a with spot := { a.spot with node } }

/-- The thread of the first token. -/
def Program.thread (p : Program) : Thread := ⟨⟨p.entry, [], .signal⟩, []⟩

/-! ## Steps -/

/-- What reading an operand may give: a value that is bound, or any sound one from a cell. -/
inductive Sees (c : Code) (env : Env) (o : Operand) (v : Value) : Prop where
  | value (h : Engine.bindingOf env o = .ok (.value v))
  | future {cell : GroupId} (h : Engine.bindingOf env o = .ok (.future cell)) (hv : v.Sound c)

/-- The steps that have nothing to do with the stack. -/
inductive Moves (c : Code) : Spot → Spot → Prop where
  | load {s : Spot} {o : Operand} {next : Nat} {v : Value}
    (hi : c.nodes[s.node]? = some (.load o next)) (hv : Sees c s.env o v) :
    Moves c s { s with node := next, result := v }
  | field {s : Spot} {o : Operand} {name : String} {next : Nat} {fields : List (String × Value)}
    {v : Value} (hi : c.nodes[s.node]? = some (.field o name next))
    (hrecord : Sees c s.env o (.record fields)) (hv : Value.field? fields name = some v) :
    Moves c s { s with node := next, result := v }
  | push {s : Spot} {next : Nat} (hi : c.nodes[s.node]? = some (.push next)) :
    Moves c s { s with node := next, env := .value s.result :: s.env }
  | unwind {s : Spot} {count next : Nat} {env : Env}
    (hi : c.nodes[s.node]? = some (.unwind count next))
    (henv : Chain.unwind? count s.env = some env) : Moves c s { s with node := next, env }
  | forkLeft {s : Spot} {left right : Nat} (hi : c.nodes[s.node]? = some (.fork left right)) :
    Moves c s { s with node := left }
  | forkRight {s : Spot} {left right : Nat} (hi : c.nodes[s.node]? = some (.fork left right)) :
    Moves c s { s with node := right }
  | subgoalLeft {s : Spot} {left right : Nat} (cell : GroupId)
    (hi : c.nodes[s.node]? = some (.subgoal left right)) :
    Moves c s { s with node := left, env := .future cell :: s.env }
  | subgoalRight {s : Spot} {left right : Nat}
    (hi : c.nodes[s.node]? = some (.subgoal left right)) : Moves c s { s with node := right }
  | otherwise {s : Spot} {left right : Nat}
    (hi : c.nodes[s.node]? = some (.otherwise left right)) : Moves c s { s with node := left }
  /-- The left side was silent. -/
  | fallback {s : Spot} {left right : Nat}
    (hi : c.nodes[s.node]? = some (.otherwise left right)) :
    Moves c s { s with node := right, result := .signal }
  | escape {s : Spot} {next : Nat} (hi : c.nodes[s.node]? = some (.escape next)) :
    Moves c s { s with node := next }
  | atomic {s : Spot} {body next : Nat} (hi : c.nodes[s.node]? = some (.atomic body next)) :
    Moves c s { s with node := body }
  /-- A publication of the transaction is let go. -/
  | release {s : Spot} {body next : Nat} {v : Value}
    (hi : c.nodes[s.node]? = some (.atomic body next)) (hv : v.Sound c) :
    Moves c s { s with node := next, result := v }
  /-- A token is made for a vote on the transaction. -/
  | vote {s : Spot} {body next : Nat} (hi : c.nodes[s.node]? = some (.atomic body next)) :
    Moves c s { s with node := Code.halt, result := .signal }
  | declare {s : Spot} {group next : Nat} {defs : List Def}
    (hi : c.nodes[s.node]? = some (.declare group next)) (hdefs : c.groups[group]? = some defs) :
    Moves c s { s with node := next, env := Engine.bindGroup group defs s.env }
  /-- A site was called.  Where the answer comes later, the result is the old one until then. -/
  | site {s : Spot} {o : Operand} {args : List Operand} {next : Nat} {tail : Bool} {span : Span}
    {site : Site} {v : Value} (hi : c.nodes[s.node]? = some (.call o args next tail span))
    (ho : Sees c s.env o (.site site)) (hv : v.Sound c) :
    Moves c s { s with node := next, result := v }
  /-- A message with a value arrives. -/
  | message {s : Spot} {v : Value} (hv : v.Sound c) : Moves c s { s with result := v }

/-- A closure is called at one spot and entered at another.  The call goes on at `next`, and `tail`
    is its flag. -/
inductive Calls (c : Code) (next : Nat) (tail : Bool) : Spot → Spot → Prop where
  | intro {s : Spot} {o : Operand} {args : List Operand} {span : Span} {group member : Nat}
    {captured : Env} {defs : List Def} {d : Def} {bindings : List Binding}
    (hi : c.nodes[s.node]? = some (.call o args next tail span))
    (ho : Sees c s.env o (.closure group member captured))
    (hdefs : c.groups[group]? = some defs) (hd : defs[member]? = some d)
    (harity : d.arity = args.length) (hargs : args.mapM (Engine.bindingOf s.env) = .ok bindings) :
    Calls c next tail s
      { s with node := d.entry, env := bindings.reverse ++ Engine.bindGroup group defs captured }

/-- The steps of a thread. -/
inductive Steps (c : Code) : Thread → Thread → Prop where
  | move {s s' : Spot} {stack : List Frame} (h : Moves c s s') : Steps c ⟨s, stack⟩ ⟨s', stack⟩
  | call {s s' : Spot} {stack : List Frame} {next : Nat} {tail : Bool}
    (h : Calls c next tail s s') :
    Steps c ⟨s, stack⟩ ⟨s', if tail then stack else ⟨next, s.env⟩ :: stack⟩
  | ret {s : Spot} {f : Frame} {stack : List Frame} (hi : c.nodes[s.node]? = some .ret) :
    Steps c ⟨s, f :: stack⟩ ⟨{ s with node := f.next, env := f.env }, stack⟩

/-- The threads of a path, the latest first. -/
inductive Path (step : Thread → Thread → Prop) (start : Thread) : List Thread → Prop where
  | start : Path step start [start]
  | step {a b : Thread} {as : List Thread} (h : Path step start (a :: as)) (hstep : step a b) :
    Path step start (b :: a :: as)

/-- A path leads to the thread `a`, through threads that were seen. -/
def OnPath (c : Code) (start : Thread) (seen : Thread → Prop) (a : Thread) : Prop :=
  ∃ as, Path (Steps c) start (a :: as) ∧ ∀ b ∈ as, seen b

theorem OnPath.step {c : Code} {start a b : Thread} {seen : Thread → Prop}
    (h : OnPath c start seen a) (ha : seen a) (hstep : Steps c a b) : OnPath c start seen b := by
  obtain ⟨as, h, hseen⟩ := h
  exact ⟨a :: as, h.step hstep, forall_mem_cons.2 ⟨ha, hseen⟩⟩

theorem OnPath.mono {c : Code} {start a : Thread} {seen seen' : Thread → Prop}
    (h : OnPath c start seen a) (hsub : ∀ {b}, seen b → seen' b) : OnPath c start seen' a := by
  obtain ⟨as, h, hseen⟩ := h
  exact ⟨as, h, fun b hb => hsub (hseen b hb)⟩

/-! ## Sound threads -/

/-- A thread finds what it takes, and all values that it holds are sound. -/
structure Thread.Sound (c : Code) (a : Thread) : Prop where
  placed : ∃ way, Placed c way a.spot.node a.spot.env a.stack
  result : a.spot.result.Sound c

theorem Sees.sound {c : Code} {env : Env} {o : Operand} {v : Value} (h : Sees c env o v)
    (henv : EnvSound c env) (ho : o.Fits env.length) : v.Sound c := by
  cases h with
  | future _ hv => exact hv
  | value hb => grind [bindingOf_ok]

/-- A move within a frame leaves the thread sound. -/
theorem Moves.sound {c : Code} (hbased : c.Based) {s s' : Spot} (h : Moves c s s')
    {stack : List Frame} (hs : Thread.Sound c ⟨s, stack⟩) : Thread.Sound c ⟨s', stack⟩ := by
  obtain ⟨⟨way, hwalks, henv, hstack⟩, hresult⟩ := hs
  cases h with
  | load hi hv =>
    obtain ⟨ho, hnext⟩ := hwalks.inv hi
    exact ⟨⟨way, hnext, henv, hstack⟩, hv.sound henv ho⟩
  | field hi hrecord hv =>
    obtain ⟨ho, hnext⟩ := hwalks.inv hi
    exact ⟨⟨way, hnext, henv, hstack⟩, (hrecord.sound henv ho).field hv⟩
  | push hi =>
    refine ⟨⟨way, hwalks.inv hi, henv.cons fun heq => ?_, hstack⟩, hresult⟩
    cases heq
    exact hresult
  | unwind hi hunwind =>
    obtain ⟨hle, hnext⟩ := hwalks.inv hi
    rw [Chain.unwind?_eq, if_pos hle] at hunwind
    cases hunwind
    refine ⟨⟨way, ?_, fun v hv => henv (mem_of_mem_drop hv), hstack⟩, hresult⟩
    rw [length_drop]
    exact hnext
  | forkLeft hi => exact ⟨⟨way, (hwalks.inv hi).1, henv, hstack⟩, hresult⟩
  | forkRight hi => exact ⟨⟨way, (hwalks.inv hi).2, henv, hstack⟩, hresult⟩
  | subgoalLeft cell hi =>
    exact ⟨⟨way, (hwalks.inv hi).1, henv.cons nofun, hstack⟩, hresult⟩
  | subgoalRight hi => exact ⟨⟨(0, .resolve), (hwalks.inv hi).2, henv, hstack⟩, hresult⟩
  | otherwise hi => exact ⟨⟨(way.1 + 1, way.2), (hwalks.inv hi).1, henv, hstack⟩, hresult⟩
  | fallback hi => exact ⟨⟨way, (hwalks.inv hi).2, henv, hstack⟩, Value.sound_signal⟩
  | escape hi =>
    obtain ⟨k, -, hnext⟩ := hwalks.inv hi
    exact ⟨⟨(k, way.2), hnext, henv, hstack⟩, hresult⟩
  | atomic hi => exact ⟨⟨(0, .buffer), (hwalks.inv hi).1, henv, hstack⟩, hresult⟩
  | release hi hv => exact ⟨⟨way, (hwalks.inv hi).2, henv, hstack⟩, hv⟩
  | vote hi =>
    exact ⟨⟨(0, .publish), .last (.stop hbased.halt) (by decide), henv, hstack⟩, Value.sound_signal⟩
  | declare hi hdefs =>
    obtain ⟨defs, hdefs', hfits, hnext⟩ := hwalks.inv hi
    cases hdefs.symm.trans hdefs'
    refine ⟨⟨way, ?_, bindGroup_sound henv hdefs hfits, hstack⟩, hresult⟩
    rw [length_bindGroup]
    exact hnext
  | site hi ho hv => exact ⟨⟨way, (hwalks.inv hi).2.2.1, henv, hstack⟩, hv⟩
  | message hv => exact ⟨⟨way, hwalks, henv, hstack⟩, hv⟩

/-- A call leaves the thread sound, with or without a frame. -/
theorem Calls.sound {c : Code} {next : Nat} {tail : Bool} {s s' : Spot} (h : Calls c next tail s s')
    {stack : List Frame} (hs : Thread.Sound c ⟨s, stack⟩) :
    Thread.Sound c ⟨s', if tail then stack else ⟨next, s.env⟩ :: stack⟩ := by
  obtain ⟨⟨way, hwalks, henv, hstack⟩, hresult⟩ := hs
  cases h with
  | @intro o args span group member captured defs d bindings hi ho hdefs hd harity hargs =>
    obtain ⟨hfits, hallFit, -, henter⟩ := hwalks.inv hi
    have hclosure := ho.sound henv hfits
    obtain ⟨defs', hdefs', -, hentries⟩ := hclosure .self
    cases hdefs.symm.trans hdefs'
    obtain ⟨bindings', hbindings, hlen, hbound⟩ := bindingsOf_ok henv hallFit
    cases hargs.symm.trans hbindings
    have hcaptured : EnvSound c captured := fun v hv => hclosure.within (.captured hv .self)
    refine ⟨⟨way, ?_, ?_, ?_⟩, hresult⟩
    · grind [length_bindGroup]
    · intro v hv
      rcases mem_append.1 hv with hv | hv
      · exact hbound (mem_reverse.1 hv)
      · exact bindGroup_sound hcaptured hdefs hentries hv
    · grind

/-- Every step leads a sound thread to a sound one. -/
theorem Steps.sound {c : Code} (hbased : c.Based) {a b : Thread} (h : Steps c a b)
    (ha : a.Sound c) : b.Sound c := by
  cases h with
  | move h => exact h.sound hbased ha
  | call h => exact h.sound ha
  | ret hi =>
    obtain ⟨⟨way, hwalks, henv, hstack⟩, hresult⟩ := ha
    obtain ⟨f, rest, heq, hnext⟩ := hwalks.inv hi
    cases heq
    exact ⟨⟨way, hnext, hstack mem_cons_self, fun hf => hstack (mem_cons_of_mem _ hf)⟩,
      hresult⟩

theorem Path.sound {c : Code} (hbased : c.Based) {start a : Thread} {as : List Thread}
    (h : Path (Steps c) start (a :: as)) (hstart : start.Sound c) : a.Sound c := by
  generalize hall : a :: as = all at h
  induction h generalizing a as with
  | start =>
    cases hall
    exact hstart
  | step h hstep ih =>
    cases hall
    exact hstep.sound hbased (ih rfl)

theorem Program.thread_sound {p : Program} (h : Fits p.code p.entry 0 0 .publish) :
    p.thread.Sound p.code :=
  ⟨⟨(0, .publish), .last h (by decide), nofun, nofun⟩, Value.sound_signal⟩

/-! ## What a step does to the tokens -/

section Tokens

variable {ω : Type} {m : Charter} {holds : ω → Value → Prop} {host : Host ω} {e e₁ e' : Engine ω}
  {c : Code} {t : TokenId} {tok tok₁ : Token} {node : Node} {a start : Thread} {seen : Thread → Prop}

theorem Engine.sees (hbound : ∀ {g v}, e.bound.lookup g = some v → v.Sound c) {env : Env}
    {o : Operand} {v : Value} (h : e.look env o = .ok (.value v)) : Sees c env o v := by
  obtain ⟨b, hb, h⟩ := bind_ok h
  cases b with
  | value w =>
    cases h
    exact .value hb
  | future cell =>
    refine .future hb ?_
    unfold sightOf at h
    cases hcell : e.bound.lookup cell with
    | none =>
      simp only [hcell] at h
      cases h
    | some w =>
      simp only [hcell] at h
      cases h
      exact hbound hcell

/-- While the token `t` takes a step from the thread `a`: it is still there, and whatever else has
    come is a step away. -/
structure Beside (c : Code) (e : Engine ω) (t : TokenId) (a : Thread) (e₁ : Engine ω) : Prop where
  mine : ∃ tok, e₁.tokens.get? t = some tok ∧ tok.thread = a
  others : ∀ {v tok}, v ≠ t → e₁.tokens.get? v = some tok →
    e.tokens.get? v = some tok ∨ Steps c a tok.thread
  agenda : e₁.agenda = []

/-- After the step the token is where it was or a step away, or is sent there. -/
structure Advanced (c : Code) (e : Engine ω) (t : TokenId) (a : Thread) (e' : Engine ω) : Prop where
  token : ∀ {v tok}, e'.tokens.get? v = some tok → (∀ n, .proceed v n ∉ e'.agenda) →
    v ≠ t ∧ e.tokens.get? v = some tok ∨ tok.thread = a ∨ Steps c a tok.thread
  sent : ∀ {v tok n}, e'.tokens.get? v = some tok → .proceed v n ∈ e'.agenda →
    Steps c a (tok.thread.sentTo n)

namespace Beside

theorem refl (ht : e.tokens.get? t = some tok) (ha : e.agenda = []) :
    Beside c e t tok.thread e :=
  ⟨⟨tok, ht, rfl⟩, fun _ hv => .inl hv, ha⟩

theorem congr (h : Beside c e t a e₁) (htokens : e'.tokens = e₁.tokens)
    (hagenda : e'.agenda = e₁.agenda) : Beside c e t a e' := by
  obtain ⟨hmine, hothers, ha⟩ := h
  rw [← htokens] at hmine hothers
  exact ⟨hmine, hothers, hagenda.trans ha⟩

/-- The token changes, and nobody is sent anywhere. -/
theorem changes (h : Beside c e t a e₁) {f : Token → Token}
    (htokens : e'.tokens = e₁.tokens.modify t f) (hagenda : ∀ v n, .proceed v n ∉ e'.agenda)
    (hstep : ∀ tok, tok.thread = a → (f tok).thread = a ∨ Steps c a (f tok).thread) :
    Advanced c e t a e' := by
  obtain ⟨⟨tok, ht, hthread⟩, hothers, -⟩ := h
  refine ⟨fun {v tok'} hv _ => ?_, fun _ hm => absurd hm (hagenda _ _)⟩
  grind

theorem becomes (h : Beside c e t a e₁) (hstep : Steps c a tok₁.thread) :
    Advanced c e t a (e₁.becomes t tok₁) := by
  grind [changes, agenda, Engine.becomes, onToken]

theorem goesOn (h : Beside c e t a e₁) (hstep : Steps c a tok₁.thread) :
    Advanced c e t a (e₁.goesOn t tok₁) := by
  have hbecome := h.becomes hstep
  exact ⟨hbecome.token, hbecome.sent⟩

/-- The token is sent on, once some chores are done. -/
theorem sends (h : Beside c e t a e₁) {f : Token → Token} {n : Nat} (chores : List Chore)
    (htokens : e'.tokens = e₁.tokens.modify t f) (hf : ∀ tok, (f tok).thread = tok.thread)
    (hagenda : e'.agenda = chores ++ [.proceed t n]) (hchores : ∀ v n, .proceed v n ∉ chores)
    (hstep : Steps c a (a.sentTo n)) : Advanced c e t a e' := by
  obtain ⟨⟨tok, ht, rfl⟩, hothers, -⟩ := h
  have hmem : ∀ {v n'}, .proceed v n' ∈ e'.agenda ↔ v = t ∧ n' = n := by grind
  constructor
  case token => grind
  grind

/-- The token goes on nowhere. -/
theorem stays (h : Beside c e t a e₁) (htokens : e'.tokens = e₁.tokens)
    (hagenda : ∀ v n, .proceed v n ∉ e'.agenda) : Advanced c e t a e' := by
  obtain ⟨⟨tok, ht, hthread⟩, hothers, -⟩ := h
  refine ⟨fun {v tok'} hv _ => ?_, fun _ hm => absurd hm (hagenda _ _)⟩
  grind

theorem ends (h : Beside c e t a e₁) : Advanced c e t a (e₁.plan [.killToken t]) := by
  grind [stays, agenda, plan]

theorem failed (h : Beside c e t a e₁) (error : TokenError) :
    Advanced c e t a (e₁.failed host t tok error) :=
  ends (h.congr rfl rfl)

theorem park (h : Beside c e t a e₁) (cell : GroupId) : Advanced c e t a (e₁.park t cell) := by
  unfold Engine.park
  split
  · refine h.changes rfl (fun v n hm => ?_) fun _ hthread => .inl hthread
    grind [agenda, onGroup, onToken]
  · exact h.ends

end Beside

theorem Replied.advanced {site : Site} {next : Nat} {reply : Reply}
    (h : Replied host e₁ t tok site next reply e') (hb : Beside c e t tok.thread e₁)
    (hsite : ∀ {v : Value}, v.Sound c → Steps c tok.thread ({ tok with
      result := v, node := next } : Token).thread)
    (hsound : ∀ {v tok'}, e'.tokens.get? v = some tok' → tok'.result.Sound c) :
    Advanced c e t tok.thread e' := by
  cases h with
  | @publish v =>
    obtain ⟨tok₀, ht, -⟩ := hb.mine
    refine hb.goesOn (hsite ?_)
    have hnew := get?_becomes ht { tok with result := v, node := next } t
    rw [if_pos rfl] at hnew
    exact hsound hnew
  | halt => exact hb.ends
  | fail => exact hb.failed _

/-- A site that is called lets its caller go one step further. -/
theorem Served.advanced {site : Site} {values : List Value} {next : Nat}
    (h : Served host e₁ t tok site values next e') (hb : Beside c e t tok.thread e₁)
    (hsite : ∀ {v : Value}, v.Sound c → Steps c tok.thread ({ tok with
      result := v, node := next } : Token).thread) (hresult : tok.result.Sound c)
    (hsound : ∀ {v tok'}, e'.tokens.get? v = some tok' → tok'.result.Sound c) :
    Advanced c e t tok.thread e' := by
  cases h with
  | immediate _ hreply => exact hreply.advanced (hb.congr rfl rfl) hsite hsound
  | outside _ _ hreply => exact hreply.advanced (hb.congr rfl rfl) hsite hsound
  | inside _ _ hreply =>
    rw [enlist_eq] at hreply
    exact hreply.advanced (hb.congr rfl rfl) hsite hsound
  | refused =>
    rw [enlist_eq]
    refine hb.stays rfl fun v n hm => ?_
    have hm : _ ∈ [.abort _] ++ e₁.agenda := hm
    rw [hb.agenda] at hm
    simp at hm
  | launched =>
    refine Beside.becomes (hb.congr rfl rfl) ?_
    exact hsite hresult
  | unspawned =>
    refine Beside.failed (hb.congr ?_ ?_) _
    · rfl
    · rfl
  | timer =>
    refine Beside.becomes (hb.congr rfl rfl) ?_
    exact hsite Value.sound_signal
  | timerFailed => exact hb.failed _

/-- So does a call of any kind. -/
theorem Called.advanced {target : Operand} {args : List Operand} {next : Nat} {tail : Bool}
    {span : Span} (h : Called host e₁ t tok target args next tail e')
    (hb : Beside c e t tok.thread e₁) (hcode : e₁.program.code = c)
    (hi : c.nodes[tok.node]? = some (.call target args next tail span))
    (hbound : ∀ {g v}, e₁.bound.lookup g = some v → v.Sound c) (hresult : tok.result.Sound c)
    (hsound : ∀ {v tok'}, e'.tokens.get? v = some tok' → tok'.result.Sound c) :
    Advanced c e t tok.thread e' := by
  cases h with
  | pending => exact hb.park _
  | uncallable | mismatch => exact hb.failed _
  | enter hv hdefs hd harity hargs =>
    refine Beside.goesOn (hb.congr rfl rfl) ?_
    exact .call (.intro hi (sees hbound hv) (hcode ▸ hdefs) hd harity hargs)
  | argPending => exact hb.park _
  | site hv hargs hserved =>
    refine hserved.advanced (hb.congr rfl rfl) (fun hsound => ?_) hresult hsound
    exact .move (.site hi (sees hbound hv) hsound)

/-- Every step of a token is one of its thread. -/
theorem Executed.advanced (h : Executed host e t tok node e') (ht : e.tokens.get? t = some tok)
    (ha : e.agenda = []) (hcode : e.program.code = c) (hi : c.nodes[tok.node]? = some node)
    (hbound : ∀ {g v}, e.bound.lookup g = some v → v.Sound c) (hresult : tok.result.Sound c)
    (hsound : ∀ {v tok'}, e'.tokens.get? v = some tok' → tok'.result.Sound c) :
    Advanced c e t tok.thread e' := by
  have hb : Beside c e t tok.thread e := .refl ht ha
  cases h with
  | stop | publish => exact Beside.ends (hb.congr rfl rfl)
  | load hv => exact hb.goesOn (.move (.load hi (sees hbound hv)))
  | loadPending | fieldPending => exact hb.park _
  | field hv hf => exact hb.goesOn (.move (.field hi (sees hbound hv) hf))
  | fieldFailed | forkFull | subgoalFull => exact hb.failed _
  | push => exact hb.goesOn (.move (.push hi))
  | unwind henv => exact hb.goesOn (.move (.unwind hi henv))
  | declare hdefs => exact hb.goesOn (.move (.declare hi (hcode ▸ hdefs)))
  | ret hstack =>
    refine hb.goesOn ?_
    unfold Token.thread
    rw [hstack]
    exact .ret hi
  | @fork left right hcap =>
    suffices hforked : Beside c e t tok.thread (e.forked.spawnReady (tok.forkAt right)) from
      hforked.goesOn (.move (.forkLeft hi))
    refine ⟨⟨tok, ?_, rfl⟩, fun {v tok'} hne hv => ?_, ?_⟩
    · have hgrown := spawnReady_grown e.forked (tok.forkAt right)
      exact hgrown.token ht
    · refine (spawnReady_from hv).imp id fun hnew => ?_
      rw [hnew]
      exact .move (.forkRight hi)
    · rw [spawnReady_agenda]
      exact ha
  | @subgoal left right e₁ hcap hs =>
    obtain ⟨-, -, -, he₁⟩ := spawn_eq_some hs
    suffices hforked : Beside c e t tok.thread (e₁.enqueue e.tokens.next) from
      hforked.goesOn (.move (.subgoalLeft _ hi))
    refine ⟨⟨tok, ?_, rfl⟩, fun {v tok'} hne hv => ?_, ?_⟩
    · exact (spawn_grown hs).token ht
    · -- the new token starts on the right; all others are old
      have hv : e₁.tokens.get? v = some tok' := hv
      rw [he₁] at hv
      have hv : (e.tokens.insert (e.cellToken tok right)).get? v = some tok' := hv
      rw [Store.get?_insert] at hv
      split at hv
      · cases hv
        exact .inr (.move (.subgoalRight hi))
      · exact .inl hv
    · show e₁.agenda = []
      rw [he₁]
      exact ha
  | resolve hg hkind hfree =>
    refine hb.stays rfl fun v n hm => ?_
    have hm : _ ∈ (_ :: _ :: List.map _ _) ++ e.agenda := hm
    rw [ha] at hm
    simp at hm
  | otherwise =>
    refine hb.sends [] (f := fun token => { token with region := e.regions.next }) rfl (fun _ => rfl)
      ?_ nofun (.move (.otherwise hi))
    show [_] ++ e.agenda = _
    rw [ha]
    rfl
  | @escape next reg preg b k p hr hkind hp hpreg hne =>
    refine hb.sends (if reg.live = 1 then [.quiesce tok.region] else [])
      (f := fun token => { token with region := p }) rfl (fun _ => rfl) ?_ ?_ (.move (.escape hi))
    · show _ ++ _ ++ e.agenda = _
      rw [ha, append_nil]
    · intro v n
      split <;> simp
  | @atomic body next =>
    refine hb.changes (Store.modify_modify ..) (fun v n hm => ?_) fun tok' hthread => .inr ?_
    · have hm : _ ∈ [.enqueue t] ++ e.agenda := hm
      rw [ha] at hm
      simp at hm
    · show Steps c tok.thread (tok'.thread.sentTo body)
      rw [hthread]
      exact .move (.atomic hi)
  | buffer => exact Beside.ends (hb.congr rfl rfl)
  | @call target args next tail span e' hcalled =>
    have hspan : (({ tok with span } : Token)).thread = tok.thread := rfl
    rw [← hspan]
    refine hcalled.advanced ⟨⟨{ tok with span }, ?_, rfl⟩, fun {v tok'} hne hv => .inl ?_, ha⟩ hcode hi
      hbound hresult hsound
    · rw [get?_becomes ht, if_pos rfl]
    · rwa [get?_becomes ht, if_neg hne] at hv

/-- A fallback was kept before the step, or it is the place that the step keeps. -/
theorem Executed.fallback_from (h : Executed host e t tok node e')
    {held : Option (TxnId × Value)} {mail : List Message} {notices : List Notice}
    (hf : Footprint host t tok held mail notices e e') {r : RegionId} {p : Option RegionId} {b : Bool}
    {k : Continuation} (hr : e'.setting r = some (p, .otherwise b k)) :
    (∃ p b, e.setting r = some (p, .otherwise b k)) ∨
      ∃ left right, node = .otherwise left right ∧ k = tok.continueAt right := by
  by_cases hold : r.index < e.regions.next.index
  · obtain ⟨reg', hr', -, hkind'⟩ := Engine.setting_eq_some.1 hr
    rcases hf.region_from hr' with ⟨reg, hr, halike⟩ | ⟨rfl, -⟩
    · refine .inl ⟨reg.parent, ?_⟩
      grind [Region.Alike.kind, setting_eq_some]
    · exact absurd hold (Nat.lt_irrefl _)
  · grind [founds]

/-- A transaction was there before the step, or the step has opened it. -/
theorem Executed.continuation_from (h : Executed host e t tok node e')
    {held : Option (TxnId × Value)} {mail : List Message} {notices : List Notice}
    (hf : Footprint host t tok held mail notices e e') {x : TxnId} {txn' : Transaction}
    (hx' : e'.transactions.get? x = some txn') :
    (∃ txn, e.transactions.get? x = some txn ∧ txn'.continuation = txn.continuation) ∨
      ∃ body next, node = .atomic body next ∧ txn'.continuation = tok.continueAt next := by
  by_cases hold : x.index < e.transactions.next.index
  · rcases hf.txn_from hx' with ⟨txn, hx, halike, -⟩ | ⟨rfl, -⟩
    · exact .inl ⟨txn, hx, halike.continuation⟩
    · exact absurd hold (Nat.lt_irrefl _)
  · refine .inr ?_
    obtain ⟨place, hkeeps, hplace⟩ := h.opens (Nat.not_lt.1 hold) hx'
    cases node with
    | atomic body next =>
      cases hkeeps
      exact ⟨body, _, rfl, hplace⟩
    | otherwise left right =>
      -- entering an `otherwise` opens no transaction
      cases h
      exact absurd (Store.lt_next hx') hold
    | _ => cases hkeeps

/-! ## The tokens of a run -/

/-- A token has the thread. -/
def Engine.Runs (e : Engine ω) (a : Thread) : Prop :=
  ∃ t tok, e.tokens.get? t = some tok ∧ tok.thread = a

/-- All tokens stand on paths, and so does everything from which a token may start later. -/
structure Onward (start : Thread) (seen : Thread → Prop) (e : Engine ω) : Prop where
  token : ∀ {t tok}, e.tokens.get? t = some tok → (∀ n, .proceed t n ∉ e.agenda) →
    OnPath e.program.code start seen tok.thread
  sent : ∀ {t tok n}, e.tokens.get? t = some tok → .proceed t n ∈ e.agenda →
    OnPath e.program.code start seen (tok.thread.sentTo n)
  fallback : ∀ {r p b k}, e.setting r = some (p, .otherwise b k) →
    OnPath e.program.code start seen (k.thread .signal)
  continuation : ∀ {x txn v}, e.transactions.get? x = some txn → v.Sound e.program.code →
    OnPath e.program.code start seen (txn.continuation.thread v)
  vote : ∀ {x txn}, e.transactions.get? x = some txn →
    OnPath e.program.code start seen ((txn.continuation.thread .signal).sentTo Code.halt)
  release : ∀ {k v}, .release k v ∈ e.agenda → OnPath e.program.code start seen (k.thread v)

namespace Onward

theorem mono {seen' : Thread → Prop} (h : Onward start seen e) (hsub : ∀ {b}, seen b → seen' b) :
    Onward start seen' e where
  token ht hnone := (h.token ht hnone).mono hsub
  sent ht hm := (h.sent ht hm).mono hsub
  fallback hr := (h.fallback hr).mono hsub
  continuation hx hv := (h.continuation hx hv).mono hsub
  vote hx := (h.vote hx).mono hsub
  release hm := (h.release hm).mono hsub

/-- Only tokens change, by hearing of a value if at all, and nobody is sent on. -/
theorem of_same (h : Onward start seen e) (hseen : ∀ {a}, e.Runs a → seen a) (ha : e.agenda = [])
    (hprogram : e'.program = e.program)
    (htokens : ∀ {t tok'}, e'.tokens.get? t = some tok' → ∃ tok, e.tokens.get? t = some tok ∧
      (tok'.thread = tok.thread ∨ Steps e.program.code tok.thread tok'.thread))
    (hregions : e'.regions = e.regions) (htxns : e'.transactions = e.transactions)
    (hsent : ∀ t n, .proceed t n ∉ e'.agenda) (hrelease : ∀ k v, .release k v ∉ e'.agenda) :
    Onward start seen e' := by
  constructor
  case token =>
    intro t tok' ht' _
    obtain ⟨tok, ht, hthread⟩ := htokens ht'
    have hpath := h.token ht (by simp [ha])
    rw [hprogram]
    rcases hthread with hthread | hstep
    · rwa [hthread]
    · exact hpath.step (hseen ⟨t, tok, ht, rfl⟩) hstep
  case sent => exact fun _ hm => absurd hm (hsent _ _)
  case fallback =>
    intro r p b k hr
    rw [hprogram]
    exact h.fallback ((setting_of_regions hregions _).symm.trans hr)
  case release => exact fun hm => absurd hm (hrelease _ _)
  all_goals rw [hprogram, htxns]
  · exact h.continuation
  · exact h.vote

/-- Whatever a chore starts or sends on stands on a path. -/
theorem perform {chore : Chore} (h : Onward start seen (e.plan [chore]))
    (hc : Coherent m (e.plan [chore])) (hty : Typed m holds (e.plan [chore]))
    (he' : e.perform host chore = .ok e') : Onward start seen e' := by
  have hprogram : e'.program = e.program := congrArg Prod.fst (perform_constants he')
  obtain ⟨new, hagenda, hnew⟩ := perform_plans he'
  -- whoever is sent on was so before
  have hsent : ∀ {v n}, .proceed v n ∈ e'.agenda → .proceed v n ∈ e.agenda := by
    intro v n hm
    rw [hagenda] at hm
    refine (mem_append.1 hm).resolve_left fun hm => ?_
    cases hnew _ hm
  constructor
  case token =>
    intro v tok' hv hnone
    rw [hprogram]
    by_cases hmine : ∃ n, chore = .proceed v n
    · obtain ⟨n, rfl⟩ := hmine
      cases performed he' with
      | proceed ht =>
        have hv : (e.tokens.modify v fun token => { token with node := n }).get? v = some tok' := hv
        rw [Store.get?_modify, if_pos rfl, ht] at hv
        cases hv
        exact h.sent ht mem_cons_self
    · have hnone : ∀ n, .proceed v n ∉ (e.plan [chore]).agenda := by grind [plan]
      by_cases hold : v.index < e.tokens.next.index
      · rcases perform_old he' hold hv with ht | ⟨tok, ht, ⟨-, rfl⟩ | ⟨n, rfl, -⟩⟩
        · exact h.token ht hnone
        · have hpath := h.token ht hnone
          exact hpath
        · exact absurd ⟨n, rfl⟩ hmine
      · rcases perform_started he' (Nat.not_lt.1 hold) hv with
          ⟨r, p, k, rfl, hr, rfl⟩ | ⟨k, w, rfl, rfl⟩ | ⟨x, txn, r, rfl, hx, rfl⟩
        · exact h.fallback hr
        · exact h.release mem_cons_self
        · exact h.vote hx
  case sent =>
    intro v tok' n hv hm
    rw [hprogram]
    have hm : .proceed v n ∈ (e.plan [chore]).agenda := mem_cons_of_mem _ (hsent hm)
    obtain ⟨tok, ht, -⟩ := hc.errand hm
    rcases perform_old he' (Store.lt_next ht) hv with ht | ⟨tok, ht, ⟨-, rfl⟩ | ⟨n', -, rfl⟩⟩
    · exact h.sent ht hm
    · have hpath := h.sent ht hm
      exact hpath
    · have hpath := h.sent ht hm
      exact hpath
  case fallback =>
    intro r p b k hr
    rw [hprogram]
    by_cases hold : r.index < e.regions.next.index
    · rcases perform_setting he' hold with hsame | hnone
      · exact h.fallback (hsame.symm.trans hr)
      · rw [hnone] at hr
        cases hr
    · grind [setting_eq_some, perform_founds]
  case continuation =>
    intro x txn' v hx' hv
    rw [hprogram] at hv ⊢
    obtain ⟨txn, hx, hstays⟩ := perform_txn_from he' hx'
    rw [hstays.continuation]
    exact h.continuation hx hv
  case vote =>
    intro x txn' hx'
    rw [hprogram]
    obtain ⟨txn, hx, hstays⟩ := perform_txn_from he' hx'
    rw [hstays.continuation]
    exact h.vote hx
  case release =>
    intro k v hm
    rw [hprogram]
    rcases perform_release he' hm with hm | ⟨x, txn, hx, rfl, hv⟩
    · exact h.release (mem_cons_of_mem _ hm)
    · exact h.continuation hx (hty.publication hx hv)

/-- The step of a token leads along its path. -/
theorem step (h : Onward start seen e) (hseen : ∀ {a}, e.Runs a → seen a) (hcore : Core m e none)
    (hty : Typed m holds e) (ha : e.agenda = []) (ht : e.tokens.get? t = some tok)
    (hphase : tok.phase = .runnable) (hnode : e.program.code.nodes[tok.node]? = some node)
    (he' : e.execute host t tok node = .ok e') {m' : Charter} (hty' : Typed m' holds e') :
    Onward start seen e' := by
  have hexecuted := executed hcore ht he'
  have hprogram : e'.program = e.program := by
    rcases hexecuted.constants with hsame | ⟨_, _, -, hcounted⟩
    · exact congrArg Prod.fst hsame
    · exact congrArg Prod.fst hcounted
  obtain ⟨mail, notices, hf⟩ := execute_footprint hcore ht (by simp [hphase]) ha he'
  have hpath {a : Thread} (hstep : Steps e.program.code tok.thread a) :
      OnPath e.program.code start seen a :=
    (h.token ht (by simp [ha])).step (hseen ⟨t, tok, ht, rfl⟩) hstep
  have hadvanced := hexecuted.advanced ht ha rfl hnode hty.bound (hty.result ht)
    (fun hv => hprogram ▸ hty'.result hv)
  constructor
  case token =>
    intro v tok' hv hnone
    rw [hprogram]
    rcases hadvanced.token hv hnone with ⟨-, hv⟩ | hthread | hstep
    · exact h.token hv (by simp [ha])
    · grind [token]
    · exact hpath hstep
  case sent => grind [Advanced.sent]
  case fallback =>
    intro r p b k hr
    rw [hprogram]
    rcases hexecuted.fallback_from hf hr with ⟨p, b, hr⟩ | ⟨left, right, rfl, rfl⟩
    · exact h.fallback hr
    · exact hpath (.move (.fallback hnode))
  case continuation =>
    intro x txn' v hx' hv
    rw [hprogram] at hv ⊢
    rcases hexecuted.continuation_from hf hx' with ⟨txn, hx, hsame⟩ | ⟨body, next, rfl, hnew⟩
    · rw [hsame]
      exact h.continuation hx hv
    · rw [hnew]
      exact hpath (.move (.release hnode hv))
  case vote =>
    intro x txn' hx'
    rw [hprogram]
    rcases hexecuted.continuation_from hf hx' with ⟨txn, hx, hsame⟩ | ⟨body, next, rfl, hnew⟩
    · rw [hsame]
      exact h.vote hx
    · rw [hnew]
      exact hpath (.move (.vote hnode))
  case release => exact fun hm => (hf.follows _ hm).elim

theorem receive {message : Message} (h : Onward start seen e)
    (hseen : ∀ {a}, e.Runs a → seen a) (ha : e.agenda = [])
    {m' : Charter} (hty' : Typed m' holds (e.receive host message)) :
    Onward start seen (e.receive host message) := by
  have hreceived := e.received host message
  have hsent : ∀ t n, .proceed t n ∉ (e.receive host message).agenda := fun t n hm => by
    rcases receive_agenda message hm with hm | ⟨_, heq⟩ | ⟨_, heq⟩
    · simp [ha] at hm
    · cases heq
    · cases heq
  have hrelease : ∀ k v, .release k v ∉ (e.receive host message).agenda := fun k v hm => by
    rcases receive_agenda message hm with hm | ⟨_, heq⟩ | ⟨_, heq⟩
    · simp [ha] at hm
    · cases heq
    · cases heq
  generalize e.receive host message = e' at hreceived hsent hrelease hty'
  cases hreceived with
  | @publish t tok v ht =>
    refine h.of_same hseen ha rfl (fun {t' tok'} ht' => ?_) rfl rfl hsent hrelease
    have hheard := hty'.result ht'
    have ht' : (e.tokens.modify t fun token =>
      { token with result := v, phase := .runnable }).get? t' = some tok' := ht'
    rw [Store.get?_modify] at ht'
    split at ht'
    · subst t'
      rw [ht] at ht'
      cases ht'
      exact ⟨tok, ht, .inr (.move (.message hheard))⟩
    · exact ⟨tok', ht', .inl rfl⟩
  | _ => exact h.of_same hseen ha rfl (fun ht => ⟨_, ht, .inl rfl⟩) rfl rfl hsent hrelease

theorem idle (h : Onward start seen e) (hseen : ∀ {a}, e.Runs a → seen a) (ha : e.agenda = []) :
    Onward start seen (e.idle host).state := by
  have hregions : (e.idle host).state.regions = e.regions := idle_regions
  have hagenda : (e.idle host).state.agenda = [] := Engine.idle_agenda.trans ha
  have hidled := e.idled host
  generalize e.idle host = p at hidled hregions hagenda
  cases hidled with
  | await | stuck =>
    exact h.of_same hseen ha rfl (fun ht => ⟨_, ht, .inl rfl⟩) hregions rfl (by simp [hagenda])
      (by simp [hagenda])
  | tick =>
    have heq : e.dropDeadTimers.tick = _ := wakeAll_eq _ e.dropDeadTimers.due
    refine h.of_same hseen ha ?_ (fun {t tok'} ht => ?_) hregions ?_ (by simp [hagenda])
      (by simp [hagenda])
    · show e.dropDeadTimers.tick.program = _
      rw [heq]
      rfl
    · have ht : e.dropDeadTimers.tick.tokens.get? t = some tok' := ht
      rw [tick_token] at ht
      split at ht
      · obtain ⟨tok, htok, rfl⟩ := Option.map_eq_some_iff.1 ht
        exact ⟨tok, htok, .inl rfl⟩
      · exact ⟨tok', ht, .inl rfl⟩
    · show e.dropDeadTimers.tick.transactions = _
      rw [heq]
      rfl

/-- Every turn leads along the paths. -/
theorem turn (h : Onward start seen e) (hseen : ∀ {a}, e.Runs a → seen a) (hc : Coherent m e)
    (hty : Typed m holds e) {p : Progress ω} (hp : e.turn host = .ok p)
    {m' : Charter} (hty' : Typed m' holds p.state) :
    Onward start seen p.state := by
  cases turned hp with
  | chore he he' =>
    subst he
    exact h.perform hc hty he'
  | done => exact h
  | skip => exact ⟨h.token, h.sent, h.fallback, h.continuation, h.vote, h.release⟩
  | @step t tok ready node e' ha hh hready ht hphase hnode he' =>
    have hcore : Core m (e.taken ready) none := (hc.core_of_idle ha).congr rfl
    have htaken : Typed m holds (e.taken ready) := hty.congr rfl
    have hstart : Onward start seen (e.taken ready) :=
      ⟨h.token, h.sent, h.fallback, h.continuation, h.vote, h.release⟩
    exact hstart.step hseen hcore htaken ha ht hphase hnode he' hty'
  | @message message inbox ha hh hready hinbox =>
    have hstart : Onward start seen { e with inbox } :=
      ⟨h.token, h.sent, h.fallback, h.continuation, h.vote, h.release⟩
    exact hstart.receive hseen ha hty'
  | idle ha => exact h.idle hseen ha

theorem start_of (p : Program) (limit : Option Nat) (w : ω) :
    Onward p.thread seen (Engine.new p limit w).start := by
  rw [start_eq]
  constructor
  case token =>
    intro t tok ht _
    rw [(spawnReady_grown ..).program]
    rcases spawnReady_from ht with hnone | rfl
    · exact absurd (hnone.symm.trans (Store.get?_empty _)) nofun
    · exact ⟨[], .start, nofun⟩
  case sent =>
    intro t tok n _ hm
    rw [spawnReady_agenda] at hm
    cases hm
  case fallback =>
    intro r p b k hr
    -- there is but the region of the whole program
    rw [(spawnReady_grown ..).setting] at hr
    obtain ⟨reg, hreg, -, hkind⟩ := Engine.setting_eq_some.1 hr
    have hreg : (Store.empty.insert { parent := none, kind := .root }).get? r = some reg := hreg
    grind [Store.get?_empty]
  case continuation =>
    intro x txn v hx
    rw [(spawnReady_grown ..).transactions] at hx
    exact absurd (hx.symm.trans (Store.get?_empty _)) nofun
  case vote =>
    intro x txn hx
    rw [(spawnReady_grown ..).transactions] at hx
    exact absurd (hx.symm.trans (Store.get?_empty _)) nofun
  case release =>
    intro k v hm
    rw [spawnReady_agenda] at hm
    cases hm

end Onward

/-- In a run from `first` to `last` a token has had the thread. -/
def Seen (host : Host ω) (holds : ω → Value → Prop) (first last : Engine ω) (a : Thread) : Prop :=
  ∃ e, Reaches host holds first e ∧ Reaches host holds e last ∧ e.Runs a

/-- Whatever a run of a well-typed program comes to, each of its tokens stands on a path, through
    threads that the tokens of the run had before. -/
theorem Reaches.onPath {p : Program} (hbased : p.code.Based) (hfits : Fits p.code p.entry 0 0 .publish)
    {limit : Option Nat} (hh : host.Honest holds) {w : ω} (hw : WorldSound holds p.code w)
    (h : Reaches host holds (Engine.new p limit w).start e) (ha : e.agenda = [])
    (ht : e.tokens.get? t = some tok) :
    OnPath p.code p.thread (Seen host holds (Engine.new p limit w).start e) tok.thread := by
  have hstart := Typed.start hbased hfits limit hw
  have hcoherent := Coherent.start p limit w
  suffices hall : e.program = p ∧
      Onward p.thread (Seen host holds (Engine.new p limit w).start e) e by grind [Onward.token]
  clear ha ht
  induction h with
  | refl =>
    refine ⟨?_, .start_of p limit w⟩
    rw [start_eq, (spawnReady_grown ..).program]
    rfl
  | @turn e q h hp ih =>
    obtain ⟨hprogram, honward⟩ := ih
    obtain ⟨m, hc, hty⟩ := h.typed hh hcoherent hstart
    obtain ⟨m', -, hty'⟩ := (h.turn hp).typed hh hcoherent hstart
    refine ⟨(turn_program hc hp).trans hprogram, Onward.turn (honward.mono ?_) ?_ hc hty hp hty'⟩
    · exact fun ⟨e₀, hbefore, hafter, hruns⟩ => ⟨e₀, hbefore, hafter.turn hp, hruns⟩
    · exact fun hruns => ⟨e, h, Reaches.refl.turn hp, hruns⟩
  | @arrive e h message hm ih =>
    obtain ⟨hprogram, honward⟩ := ih
    have hlater : Onward p.thread (Seen host holds (Engine.new p limit w).start
        { e with inbox := e.inbox ++ [message] }) e :=
      honward.mono fun ⟨e₀, hbefore, hafter, hruns⟩ =>
        ⟨e₀, hbefore, hafter.arrive message hm, hruns⟩
    exact ⟨hprogram, ⟨hlater.token, hlater.sent, hlater.fallback, hlater.continuation, hlater.vote,
      hlater.release⟩⟩

end Tokens

end Orchestra
