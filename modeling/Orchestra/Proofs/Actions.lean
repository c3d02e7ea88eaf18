/-
  Actions: what a step of a token can do, case by case.

  `Executed` lists the ways in which executing a node can go, with what the token has seen on the way
  and the state it leads to.  A token that goes on is given as a whole (`Engine.goesOn`), so that a
  statement about what tokens hold looks at one record and not at a chain of changes.  `stepping` says
  whose step the next turn is, which is how a statement about the past speaks of steps.
-/
import Orchestra.Proofs.Moves

namespace Orchestra

open Engine

variable {ω ρ : Type} {m : Charter} {e e' : Engine ω} {host : Host ω} {tail : Bool}
  {args : List Operand} {next : Nat} {target : Operand} {reg : Region} {site : Site} {tok : Token}
  {t : TokenId}

/-! ## Changing a record that is there -/

namespace Store

variable {k : Kind} {α : Type} {s s' : Store k α} {id : Key k} {a : α}

theorem eq_of_slots (h : s.slots = s'.slots) : s = s' := by
  obtain ⟨slots, size, hsize⟩ := s
  obtain ⟨slots', size', hsize'⟩ := s'
  cases h
  cases hsize
  cases hsize'
  rfl

/-- What becomes of a record that is there depends on that record only. -/
theorem modify_eq (h : s.get? id = some a) (f : α → α) : s.modify id f = s.modify id fun _ => f a := by
  grind [get?, modify]

theorem modify_modify (f g : α → α) :
    (s.modify id f).modify id g = s.modify id fun a => g (f a) := by
  unfold modify
  split
  · rename_i hlt
    refine eq_of_slots ?_
    simp only [Array.size_set, hlt, dif_pos, Array.getElem_set_self, Option.map_map]
    exact Array.set_set ..
  · rfl

end Store

/-! ## Cells, regions and transactions that are founded -/

namespace Engine

theorem newGroup_eq (e : Engine ω) (g : GroupId) (kind : GroupKind) :
    e.newGroup g kind = (e.groups.next, { e with
      groups := (e.groups.insert { parent := some g, kind }).modify g (Group.adopt e.groups.next) }) := rfl

/-- One more fork has been counted. -/
abbrev forked (e : Engine ω) : Engine ω := e.count fun s => { s with forks := s.forks + 1 }

/-- The state in which there is a cell and a region to compute it, but no token there yet. -/
def openCell (e : Engine ω) (g : GroupId) (p : RegionId) : Engine ω :=
  { e with
    groups := (e.groups.insert { parent := some g, kind := .cell [] e.regions.next }).modify g
      (Group.adopt e.groups.next)
    regions := (e.regions.insert { parent := some p, kind := .pruning e.groups.next }).modify p
      (Region.adopt e.regions.next) }

/-- The token that computes a new cell. -/
def cellToken (e : Engine ω) (tok : Token) (right : Nat) : Token :=
  { tok.forkAt right with group := e.groups.next, region := e.regions.next }

/-- The new cell always accepts its first token. -/
theorem subgoal_eq (host : Host ω) (t : TokenId) (left right : Nat) (hcap : e.atCapacity = none)
    (hr : e.regions.get? tok.region = some reg) :
    ∃ e₁, (e.openCell tok.group tok.region).forked.spawn (e.cellToken tok right) =
        some (e.tokens.next, e₁) ∧
      e.subgoal host t tok left right = ((e₁.enqueue e.tokens.next).onToken t fun token =>
        { token with env := .future e.groups.next :: token.env }).proceed t left := by
  have hgroup : ∃ grp, (e.openCell tok.group tok.region).groups.get? e.groups.next = some grp ∧
      grp.killed = false := by
    rw [openCell, Store.get?_modify, Store.get?_insert_self]
    split <;> exact ⟨_, rfl, rfl⟩
  have hregion : ∃ reg, (e.openCell tok.group tok.region).regions.get? e.regions.next = some reg ∧
      reg.closed = false := by grind [openCell]
  obtain ⟨grp, hg, hk⟩ := hgroup
  obtain ⟨reg', hr', hc⟩ := hregion
  obtain ⟨e₁, hs⟩ : ∃ e₁, (e.openCell tok.group tok.region).forked.spawn (e.cellToken tok right) =
      some (e.tokens.next, e₁) :=
    spawn_isSome hg hk hr' hc
  refine ⟨e₁, hs, ?_⟩
  have hregion := newRegion_eq (e := (e.newGroup tok.group (.cell [] e.regions.next)).2) hr
    (.pruning e.groups.next)
  unfold subgoal
  simp only [hcap, newGroup_eq] at hregion ⊢
  rw [hregion]
  dsimp only [bind, Except.bind]
  erw [hs]
  rfl

/-- The state in which a token has been carried over to another region. -/
def moved (e : Engine ω) (t : TokenId) (source target : RegionId) : Engine ω :=
  { e with
    tokens := e.tokens.modify t fun token => { token with region := target }
    regions := (e.regions.modify target (Region.seat t)).modify source (Region.unseat t) }

theorem move_eq {treg : Region} {target : RegionId} (ht : e.tokens.get? t = some tok)
    (htarget : e.regions.get? target = some treg) (hr : e.regions.get? tok.region = some reg)
    (hne : target ≠ tok.region) (hmem : t ∈ reg.tokens) (hpos : 0 < reg.live) :
    e.move t target = .ok ((e.moved t tok.region target).plan
      (if reg.live = 1 then [.quiesce tok.region] else [])) := by
  unfold move
  grind [Store.contains_iff, leave_eq, onRegion, onToken, moved]

/-- The state in which there is a region for the left side of an `otherwise`, still empty. -/
def openOtherwise (e : Engine ω) (k : Continuation) : Engine ω :=
  { e with
    regions := (e.regions.insert { parent := some k.region, kind := .otherwise false k }).modify
      k.region (Region.adopt e.regions.next) }

/-- The region around an `otherwise` never reacts when the token leaves it for the new one. -/
theorem enterOtherwise_eq {left right : Nat} (ht : e.tokens.get? t = some tok)
    (hr : e.regions.get? tok.region = some reg) (hmem : t ∈ reg.tokens) (hpos : 0 < reg.live) :
    e.enterOtherwise t tok left right = .ok (((e.openOtherwise (tok.continueAt right)).moved t
      tok.region e.regions.next).plan [.proceed t left]) := by
  have hmove := move_eq (e := (e.openOtherwise (tok.continueAt right)).plan [.proceed t left]) ht
    (Store.get?_next_insert_modify hr ..) (Store.get?_insert_modify hr ..)
    (Store.ne_next hr).symm hmem (Nat.succ_pos _)
  rw [if_neg (by simp; omega)] at hmove
  unfold enterOtherwise
  rw [newRegion_eq hr]
  show (do pure (← ((e.openOtherwise (tok.continueAt right)).plan [.proceed t left]).move t
    e.regions.next)) = _
  rw [hmove]
  rfl

/-- The state in which something has been published out of the left side of an `otherwise`. -/
def published (e : Engine ω) (r : RegionId) (k : Continuation) : Engine ω :=
  e.onRegion r fun reg => { reg with kind := .otherwise true k }

theorem published_regions {r : RegionId} (r' : RegionId) (k : Continuation)
    (hr : e.regions.get? r = some reg) : ∃ reg', (e.published r' k).regions.get? r = some reg' ∧
      reg'.tokens = reg.tokens ∧ reg'.live = reg.live ∧ reg'.parent = reg.parent ∧
      (r = r' → reg'.kind = .otherwise true k) := by grind [published, onRegion]

/-- A step that does not fault finds the region of an `otherwise`. -/
theorem escape_ok (hr : e.regions.get? tok.region = some reg) (he' : e.escape t tok next = .ok e') :
    ∃ b k p, reg.kind = .otherwise b k ∧ reg.parent = some p := by grind [escape]

/-- A publication escapes into the region around the `otherwise`. -/
theorem escape_eq {preg : Region} {b : Bool} {k : Continuation} {p : RegionId}
    (ht : e.tokens.get? t = some tok) (hr : e.regions.get? tok.region = some reg)
    (hkind : reg.kind = .otherwise b k) (hp : reg.parent = some p)
    (hpreg : e.regions.get? p = some preg) (hne : p ≠ tok.region) (hmem : t ∈ reg.tokens)
    (hpos : 0 < reg.live) :
    e.escape t tok next = .ok (((e.published tok.region k).moved t tok.region p).plan
      ((if reg.live = 1 then [.quiesce tok.region] else []) ++ [.proceed t next])) := by
  obtain ⟨reg', hr', htokens, hlive, -⟩ := published_regions tok.region k hr
  obtain ⟨preg', hpreg', -⟩ := published_regions tok.region k hpreg
  have hmove := move_eq (e := (e.published tok.region k).plan [.proceed t next]) ht hpreg' hr' hne
    (htokens ▸ hmem) (hlive ▸ hpos)
  obtain ⟨parent, kind, children, tokens, live, closed⟩ := reg
  grind [escape, plan, moved, published]

/-- The scope of a transaction that a token starts. -/
def innerScope (e : Engine ω) (tok : Token) : Scope :=
  match e.scopeOf tok with
  | some outer => outer.child e.transactions.next
  | none => { id := e.transactions.next }

/-- The state in which there is a transaction with its group and its region, both still empty. -/
def openAtomic (e : Engine ω) (scope : Scope) (k : Continuation) : Engine ω :=
  { e with
    groups := (e.groups.insert
      { parent := some k.group, kind := .transaction e.transactions.next }).modify k.group
        (Group.adopt e.groups.next)
    regions := (e.regions.insert
      { parent := some k.region, kind := .transaction e.transactions.next }).modify k.region
        (Region.adopt e.regions.next)
    transactions := e.transactions.insert
      { scope, parent := k.txn, group := e.groups.next, continuation := k } }

/-- The state in which the token that starts a transaction belongs to its group. -/
def enlistToken (e : Engine ω) (t : TokenId) (old new : GroupId) (x : TxnId) (body : Nat) :
    Engine ω :=
  { e with
    groups := (e.groups.modify old (Group.dismiss t)).modify new (Group.enrol t)
    tokens := e.tokens.modify t fun token =>
      { token with group := new, txn := some x, node := body } }

/-- The state in which a token has joined the transaction that it starts, but not yet its region. -/
abbrev inAtomic (e : Engine ω) (t : TokenId) (tok : Token) (next body : Nat) : Engine ω :=
  (e.openAtomic (e.innerScope tok) (tok.continueAt next)).enlistToken t tok.group e.groups.next
    e.transactions.next body

/-- The region around an atomic section never reacts when the token leaves it for the new one. -/
theorem enterAtomic_eq {body : Nat} (ht : e.tokens.get? t = some tok)
    (hr : e.regions.get? tok.region = some reg) (hmem : t ∈ reg.tokens) (hpos : 0 < reg.live) :
    e.enterAtomic t tok body next = .ok (((e.inAtomic t tok next body).moved t tok.region
      e.regions.next).plan [.enqueue t]) := by
  have htok : (e.inAtomic t tok next body).tokens.get? t =
      some { tok with group := e.groups.next, txn := some e.transactions.next, node := body } := by
    grind [enlistToken, openAtomic]
  have hmove := move_eq (e := (e.inAtomic t tok next body).plan [.enqueue t]) htok
    (Store.get?_next_insert_modify hr ..) (Store.get?_insert_modify hr ..)
    (Store.ne_next hr).symm hmem (Nat.succ_pos _)
  rw [if_neg (by simp; omega)] at hmove
  let record : Transaction :=
    { scope := e.innerScope tok, parent := tok.txn, group := e.groups.next,
      continuation := tok.continueAt next }
  let grown : Engine ω := { (e.newGroup tok.group (.transaction e.transactions.next)).2 with
    transactions := e.transactions.insert record }
  have hregion : grown.newRegion tok.region (.transaction e.transactions.next) = .ok
      (e.regions.next, e.openAtomic (e.innerScope tok) (tok.continueAt next)) :=
    newRegion_eq (e := grown) hr _
  have hsteps : e.enterAtomic t tok body next =
      (grown.newRegion tok.region (.transaction e.transactions.next) >>= fun p =>
        (((((p.2.onGroup tok.group (Group.dismiss t)).onGroup
          e.groups.next (Group.enrol t)).onToken t fun token =>
          { token with group := e.groups.next, txn := some e.transactions.next, node := body }).plan
          [.enqueue t]).move t p.1)) := rfl
  rw [hsteps, hregion]
  exact hmove

end Engine

/-! ## Tokens that go on and tokens that end -/

namespace Engine

/-- The state in which the token `t` has become `tok`. -/
def becomes (e : Engine ω) (t : TokenId) (tok : Token) : Engine ω := e.onToken t fun _ => tok

/-- The state in which the token `t` has become `tok` and stands in the queue. -/
def goesOn (e : Engine ω) (t : TokenId) (tok : Token) : Engine ω := (e.becomes t tok).enqueue t

/-- The state in which a token has failed and is to end. -/
def failed (host : Host ω) (e : Engine ω) (t : TokenId) (tok : Token) (error : TokenError) :
    Engine ω :=
  { e.count fun s => { s with failures := s.failures + 1 } with
    world := host.report { span := tok.span, error } e.world }.plan [.killToken t]

/-- The state in which a cell has just been bound, and all the rest is still to be done. -/
def bind (e : Engine ω) (c : GroupId) (value : Value) (waiters : List TokenId)
    (region : RegionId) : Engine ω :=
  (({ e with bound := (c, value) :: e.bound }.onGroup c
    fun g => { g with kind := .cell [] region }).count
      fun s => { s with bindings := s.bindings + 1 }).plan
      (.killGroup c :: .closeRegions [region] [] :: waiters.map .wake)

variable {t : TokenId} {tok : Token}

theorem onToken_eq (ht : e.tokens.get? t = some tok) (f : Token → Token) :
    e.onToken t f = e.becomes t (f tok) := by
  unfold becomes onToken
  rw [Store.modify_eq ht]

theorem onToken_becomes (tok : Token) (f : Token → Token) :
    (e.becomes t tok).onToken t f = e.becomes t (f tok) := by
  grind [Store.modify_modify, becomes, onToken]

section

variable (ht : e.tokens.get? t = some tok)

include ht

theorem get?_becomes (tok' : Token) (t' : TokenId) :
    (e.becomes t tok').tokens.get? t' = if t' = t then some tok' else e.tokens.get? t' := by
  grind [becomes, onToken]

theorem fail_eq (error : TokenError) : e.fail host t error = e.failed host t tok error := by
  unfold fail
  rw [ht]
  rfl

/-- A token that is there goes on as it has become. -/
theorem proceed_ok (he' : e.proceed t next = .ok e') :
    e' = e.goesOn t { tok with node := next } := by grind [onToken_eq, proceed, goesOn]

/-- Two changes of a token in a row are one. -/
theorem proceed_onToken {f : Token → Token} (he' : (e.onToken t f).proceed t next = .ok e') :
    e' = e.goesOn t { f tok with node := next } := by
  grind [onToken_eq, onToken_becomes, proceed, goesOn]

end

end Engine

/-! ## Answers and calls -/

section Calls

/-- The values in the error of a site. -/
def SiteError.values : SiteError → List Value
  | .expected _ v => [v]
  | _ => []

/-- The values in the error of a token. -/
def TokenError.values : TokenError → List Value
  | .uncallable v => [v]
  | .notARecord v => [v]
  | .site _ error => error.values
  | _ => []

/-- What the answer of a site can do to the token that has called it. -/
inductive Replied (host : Host ω) (e : Engine ω) (t : TokenId) (tok : Token) (site : Site)
    (next : Nat) : Reply → Engine ω → Prop where
  | publish {v : Value} :
    Replied host e t tok site next (.publish v) (e.goesOn t { tok with result := v, node := next })
  | halt : Replied host e t tok site next .halt (e.plan [.killToken t])
  | fail {error : SiteError} :
    Replied host e t tok site next (.fail error) (e.failed host t tok (.site site.name error))

/-- What calling a site with values can do. -/
inductive Served (host : Host ω) (e : Engine ω) (t : TokenId) (tok : Token) (site : Site)
    (values : List Value) (next : Nat) : Engine ω → Prop where
  | immediate {e' : Engine ω} (hmode : site.mode = .immediate)
    (hreply : Replied host (e.absorb (host.call site values e.world)).2 t tok site next
      (host.call site values e.world).answer e') : Served host e t tok site values next e'
  | launched (hmode : site.mode = .threaded)
    (htaken : (host.launch site values t e.world).answer = true) :
    Served host e t tok site values next ((e.absorb (host.launch site values t e.world)).2.becomes t
      { tok with phase := .calling site.name, node := next })
  | unspawned (hmode : site.mode = .threaded) :
    Served host e t tok site values next ((e.absorb (host.launch site values t e.world)).2.failed
      host t tok (.site site.name .unspawned))
  /-- A transactional site is called from outside of any transaction, -/
  | outside {e' : Engine ω} (hmode : site.mode = .transactional) (hscope : e.scopeOf tok = none)
    (hreply : Replied host (e.absorb (host.transact site values none e.world)).2 t tok site next
      (host.transact site values none e.world).answer.reply e') :
    Served host e t tok site values next e'
  /-- from inside of one, -/
  | inside {e' : Engine ω} {scope : Scope} (hmode : site.mode = .transactional)
    (hscope : e.scopeOf tok = some scope)
    (hreply : Replied host ((e.absorb (host.transact site values (some scope) e.world)).2.enlist
        scope (host.transact site values (some scope) e.world).answer.enlisted) t tok site next
      (host.transact site values (some scope) e.world).answer.reply e') :
    Served host e t tok site values next e'
  /-- or has it aborted. -/
  | refused {scope : Scope} (hmode : site.mode = .transactional)
    (hscope : e.scopeOf tok = some scope) :
    Served host e t tok site values next
      (((e.absorb (host.transact site values (some scope) e.world)).2.enlist scope
        (host.transact site values (some scope) e.world).answer.enlisted).plan [.abort scope.id])
  | timer {clock : Nat} {n : Int64} (hmode : site.mode = .timer clock) (hvalues : values = [.int n])
    (hn : 0 ≤ n.toInt) :
    Served host e t tok site values next
      ({ e with clocks := Engine.setTimer e.clocks clock n.toInt.toNat.toUInt64 t }.becomes t
        { tok with phase := .blocked, result := .signal, node := next })
  | timerFailed {clock : Nat} {error : SiteError} (hmode : site.mode = .timer clock)
    (hbad : ∀ n : Int64, values = [.int n] → ¬0 ≤ n.toInt) (herror : ∀ v ∈ error.values, v ∈ values) :
    Served host e t tok site values next (e.failed host t tok (.site site.name error))

/-- What a call can do.  The token knows the span of the call already. -/
inductive Called (host : Host ω) (e : Engine ω) (t : TokenId) (tok : Token) (target : Operand)
    (args : List Operand) (next : Nat) (tail : Bool) : Engine ω → Prop where
  | pending {c : GroupId} (hc : e.look tok.env target = .ok (.pending c)) :
    Called host e t tok target args next tail (e.park t c)
  | uncallable {v : Value} (hv : e.look tok.env target = .ok (.value v))
    (hclosure : ∀ group member env, v ≠ .closure group member env) (hsite : ∀ site, v ≠ .site site) :
    Called host e t tok target args next tail (e.failed host t tok (.uncallable v))
  | mismatch {group member : Nat} {captured : Env} {defs : List Def} {d : Def}
    (hv : e.look tok.env target = .ok (.value (.closure group member captured)))
    (hdefs : e.program.code.groups[group]? = some defs) (hd : defs[member]? = some d)
    (harity : d.arity ≠ args.length) :
    Called host e t tok target args next tail
      (e.failed host t tok (.arityMismatch d.name d.arity args.length))
  | enter {group member : Nat} {captured : Env} {defs : List Def} {d : Def}
    {bindings : List Binding}
    (hv : e.look tok.env target = .ok (.value (.closure group member captured)))
    (hdefs : e.program.code.groups[group]? = some defs) (hd : defs[member]? = some d)
    (harity : d.arity = args.length) (hargs : args.mapM (Engine.bindingOf tok.env) = .ok bindings) :
    Called host e t tok target args next tail ((e.count fun s =>
      { s with calls := s.calls + 1, tailCalls := s.tailCalls + if tail then 1 else 0 }).goesOn t
        { tok with
          env := bindings.reverse ++ Engine.bindGroup group defs captured
          stack := if tail then tok.stack else ⟨next, tok.env⟩ :: tok.stack
          node := d.entry })
  | argPending {site : Site} {c : GroupId} (hv : e.look tok.env target = .ok (.value (.site site)))
    (hargs : e.lookAll tok.env args = .ok (.error c)) :
    Called host e t tok target args next tail (e.park t c)
  | site {site : Site} {values : List Value} {e' : Engine ω}
    (hv : e.look tok.env target = .ok (.value (.site site)))
    (hargs : e.lookAll tok.env args = .ok (.ok values))
    (hserved : Served host (e.count fun s => { s with siteCalls := s.siteCalls + 1 }) t tok site
      values next e') : Called host e t tok target args next tail e'

namespace Engine

variable {t : TokenId} {tok : Token}

section

variable (ht : e.tokens.get? t = some tok)

include ht

theorem replied (site : Site) (next : Nat) (reply : Reply) :
    Replied host e t tok site next reply (e.answer host t site next reply) := by
  cases reply with
  | publish v =>
    dsimp only [answer, publishTo]
    rw [onToken_eq ht]
    exact .publish
  | halt => exact .halt
  | fail error =>
    dsimp only [answer]
    rw [fail_eq ht]
    exact .fail

/-- A timer is set, or its argument is refused. -/
theorem servedTimer (site : Site) (values : List Value) (next : Nat) {clock : Nat}
    (hmode : site.mode = .timer clock) :
    Served host e t tok site values next (e.callTimer host t site clock values next) := by
  unfold callTimer
  split
  · rename_i n
    split
    · rename_i hn
      dsimp only
      rw [onToken_eq (e := { e with clocks := setTimer e.clocks clock n.toInt.toNat.toUInt64 t }) ht]
      exact .timer hmode rfl hn
    · rename_i hn
      dsimp only [answer]
      rw [fail_eq ht]
      refine .timerFailed hmode (fun n' heq => ?_) (by simp [SiteError.values])
      cases heq
      exact hn
  · rename_i v hv
    dsimp only [answer]
    rw [fail_eq ht]
    refine .timerFailed hmode (fun n heq => ?_) (by simp [SiteError.values])
    cases heq
    exact absurd rfl (hv n)
  · rename_i hvalues _
    dsimp only [answer]
    rw [fail_eq ht]
    exact .timerFailed hmode (fun n heq => absurd heq (hvalues n)) (by simp [SiteError.values])

theorem servedInside (site : Site) (values : List Value) (next : Nat)
    (hmode : site.mode = .transactional) :
    Served host e t tok site values next (e.callTransactional host t tok site values next) := by
  unfold callTransactional
  cases hscope : e.scopeOf tok with
  | none => exact .outside hmode hscope (replied (e := (e.absorb _).2) ht site next _)
  | some scope =>
    dsimp only
    split
    · exact .refused hmode hscope
    · refine .inside hmode hscope (replied ?_ site next _)
      rw [enlist_eq]
      exact ht

/-- Every call of a site goes one of these ways. -/
theorem served (hv : e.look tok.env target = .ok (.value (.site site)))
    (he' : e.callSite host t tok site args next = .ok e') :
    Called host e t tok target args next tail e' := by
  unfold callSite at he'
  obtain ⟨found, hargs, he'⟩ := bind_ok he'
  cases found with
  | error c =>
    cases he'
    exact .argPending hv hargs
  | ok values =>
    refine .site hv hargs ?_
    have ht : (e.count fun s => { s with siteCalls := s.siteCalls + 1 }).tokens.get? t =
      some tok := ht
    dsimp only at he'
    generalize (e.count fun s => { s with siteCalls := s.siteCalls + 1 }) = e₁ at he' ht ⊢
    split at he'
    · rename_i hmode
      cases he'
      exact .immediate hmode (replied (e := (e₁.absorb _).2) ht site next _)
    · rename_i hmode
      split at he'
      · rename_i htaken
        cases he'
        rw [onToken_eq (e := (e₁.absorb _).2) ht]
        exact .launched hmode htaken
      · cases he'
        dsimp only [answer]
        rw [fail_eq (e := (e₁.absorb _).2) ht]
        exact .unspawned hmode
    · rename_i hmode
      cases he'
      exact servedInside ht site values next hmode
    · rename_i clock hmode
      cases he'
      exact servedTimer ht site values next hmode

/-- Every call goes one of these ways. -/
theorem called {span : Span} (he' : e.call host t tok target args next tail span = .ok e') :
    Called host (e.becomes t { tok with span }) t { tok with span } target args next tail e' := by
  unfold call at he'
  rw [onToken_eq ht] at he'
  have ht' : (e.becomes t { tok with span }).tokens.get? t = some { tok with span } := by
    rw [get?_becomes ht, if_pos rfl]
  obtain ⟨seen, hseen, he'⟩ := bind_ok he'
  cases seen with
  | pending c =>
    cases he'
    exact .pending hseen
  | value v =>
    split at he'
    · rename_i hv
      cases hv
    · rename_i group member captured hv
      cases hv
      unfold callClosure at he'
      obtain ⟨defs, hdefs, he'⟩ := bind_ok he'
      have hdefs : e.program.code.groups[group]? = some defs := by
        grind [groupDefs, becomes, onToken]
      split at he'
      · cases he'
      · rename_i d hd
        split at he'
        · rename_i harity
          cases he'
          rw [fail_eq ht']
          exact .mismatch hseen hdefs hd harity
        · rename_i harity
          obtain ⟨bindings, hargs, he'⟩ := bind_ok he'
          cases proceed_onToken (e := (e.becomes t { tok with span }).count _) ht' he'
          exact .enter hseen hdefs hd (Decidable.not_not.1 harity) hargs
    · rename_i site hv
      cases hv
      have hcalled : Called host _ t { tok with span } target args next tail e' :=
        served ht' hseen he'
      exact hcalled
    · rename_i v' hclosure hsite hv
      cases hv
      cases he'
      rw [fail_eq ht']
      exact .uncallable hseen hclosure hsite

end

end Engine

end Calls

/-! ## Steps -/

/-- What a step of the token `t`, whose record is `tok`, can be in the state `e`. -/
inductive Executed (host : Host ω) (e : Engine ω) (t : TokenId) (tok : Token) :
    Node → Engine ω → Prop where
  | stop : Executed host e t tok .stop (e.plan [.killToken t])
  | load {o : Operand} {next : Nat} {v : Value} (hv : e.look tok.env o = .ok (.value v)) :
    Executed host e t tok (.load o next) (e.goesOn t { tok with result := v, node := next })
  | loadPending {o : Operand} {next : Nat} {c : GroupId}
    (hc : e.look tok.env o = .ok (.pending c)) :
    Executed host e t tok (.load o next) (e.park t c)
  | field {o : Operand} {name : String} {next : Nat} {fields : List (String × Value)} {v : Value}
    (hv : e.look tok.env o = .ok (.value (.record fields)))
    (hf : Value.field? fields name = some v) :
    Executed host e t tok (.field o name next) (e.goesOn t { tok with result := v, node := next })
  | fieldFailed {o : Operand} {name : String} {next : Nat} {v : Value} {error : TokenError}
    (hv : e.look tok.env o = .ok (.value v)) (hnone : ∀ fields w, v = .record fields →
      Value.field? fields name ≠ some w) (herror : ∀ w ∈ error.values, w = v) :
    Executed host e t tok (.field o name next) (e.failed host t tok error)
  | fieldPending {o : Operand} {name : String} {next : Nat} {c : GroupId}
    (hc : e.look tok.env o = .ok (.pending c)) :
    Executed host e t tok (.field o name next) (e.park t c)
  | push {next : Nat} : Executed host e t tok (.push next)
      (e.goesOn t { tok with env := .value tok.result :: tok.env, node := next })
  | unwind {count next : Nat} {env : Env} (henv : Chain.unwind? count tok.env = some env) :
    Executed host e t tok (.unwind count next) (e.goesOn t { tok with env, node := next })
  | declare {group next : Nat} {defs : List Def}
    (hdefs : e.program.code.groups[group]? = some defs) :
    Executed host e t tok (.declare group next)
      (e.goesOn t { tok with env := Engine.bindGroup group defs tok.env, node := next })
  | ret {frame : Frame} {stack : List Frame} (hstack : tok.stack = frame :: stack) :
    Executed host e t tok .ret
      (e.goesOn t { tok with stack, env := frame.env, node := frame.next })
  | publish : Executed host e t tok .publish (e.publish host t tok.result)
  | forkFull {left right limit : Nat} (hcap : e.atCapacity = some limit) :
    Executed host e t tok (.fork left right) (e.failed host t tok (.resourceExhausted limit))
  | fork {left right : Nat} (hcap : e.atCapacity = none) :
    Executed host e t tok (.fork left right) ((e.forked.spawnReady
        (tok.forkAt right)).goesOn t { tok with node := left })
  | subgoalFull {left right limit : Nat} (hcap : e.atCapacity = some limit) :
    Executed host e t tok (.subgoal left right) (e.failed host t tok (.resourceExhausted limit))
  | subgoal {left right : Nat} {e₁ : Engine ω} (hcap : e.atCapacity = none)
    (hs : (e.openCell tok.group tok.region).forked.spawn
      (e.cellToken tok right) = some (e.tokens.next, e₁)) :
    Executed host e t tok (.subgoal left right) ((e₁.enqueue e.tokens.next).goesOn t
      { tok with env := .future e.groups.next :: tok.env, node := left })
  | resolve {grp : Group} {waiters : List TokenId} {region : RegionId}
    (hg : e.groups.get? tok.group = some grp) (hkind : grp.kind = .cell waiters region)
    (hfree : e.bound.lookup tok.group = none) :
    Executed host e t tok .resolve (e.bind tok.group tok.result waiters region)
  | otherwise {left right : Nat} : Executed host e t tok (.otherwise left right)
      (((e.openOtherwise (tok.continueAt right)).moved t tok.region e.regions.next).plan
        [.proceed t left])
  | escape {next : Nat} {reg preg : Region} {b : Bool} {k : Continuation} {p : RegionId}
    (hr : e.regions.get? tok.region = some reg) (hkind : reg.kind = .otherwise b k)
    (hp : reg.parent = some p) (hpreg : e.regions.get? p = some preg) (hne : p ≠ tok.region) :
    Executed host e t tok (.escape next) (((e.published tok.region k).moved t tok.region p).plan
      ((if reg.live = 1 then [.quiesce tok.region] else []) ++ [.proceed t next]))
  | atomic {body next : Nat} : Executed host e t tok (.atomic body next)
      (((e.inAtomic t tok next body).moved t tok.region e.regions.next).plan
          [.enqueue t])
  | buffer {x : TxnId} (hx : tok.txn = some x) : Executed host e t tok .buffer
      ((e.onTransaction x fun r =>
        if r.state = .running then { r with publications := r.publications ++ [tok.result] }
        else r).plan [.killToken t])
  | call {target : Operand} {args : List Operand} {next : Nat} {tail : Bool} {span : Span}
    {e' : Engine ω} (hcalled : Called host (e.becomes t { tok with span }) t { tok with span } target
      args next tail e') : Executed host e t tok (.call target args next tail span) e'

/-- Every step goes one of these ways. -/
theorem Engine.executed (h : Core m e none) (ht : e.tokens.get? t = some tok) {node : Node}
    (he' : e.execute host t tok node = .ok e') : Executed host e t tok node e' := by
  obtain ⟨reg, hr, hmem⟩ := h.census.region_of ht
  have hpos := h.census.live_pos_of_token hr hmem
  cases node with
  | stop =>
    cases he'
    exact .stop
  | load o next =>
    obtain ⟨seen, hseen, he'⟩ := bind_ok he'
    cases seen with
    | value v =>
      cases he'
      unfold publishTo
      rw [onToken_eq ht]
      exact .load hseen
    | pending c =>
      cases he'
      exact .loadPending hseen
  | field o name next =>
    obtain ⟨seen, hseen, he'⟩ := bind_ok he'
    split at he'
    · rename_i fields
      split at he'
      · rename_i v hv
        cases he'
        unfold publishTo
        rw [onToken_eq ht]
        exact .field hseen hv
      · rename_i hnone
        cases he'
        rw [fail_eq ht]
        refine .fieldFailed hseen (fun fields' w heq hw => ?_) (by simp [TokenError.values])
        grind
    · rename_i v hrecord
      cases he'
      rw [fail_eq ht]
      exact .fieldFailed hseen (fun fields w heq => absurd heq (hrecord fields))
        (by simp [TokenError.values])
    · cases he'
      exact .fieldPending hseen
  | push next =>
    cases proceed_onToken ht he'
    exact .push
  | unwind count next =>
    unfold execute at he'
    dsimp only at he'
    split at he'
    · rename_i env henv
      cases proceed_onToken ht he'
      exact .unwind henv
    · cases he'
  | fork left right =>
    have he' : e.fork host t tok left right = .ok e' := he'
    unfold Engine.fork at he'
    split at he'
    · rename_i limit hcap
      cases he'
      rw [fail_eq ht]
      exact .forkFull hcap
    · rename_i hcap
      have hgrown := spawnReady_grown e.forked (tok.forkAt right)
      cases proceed_ok (hgrown.token ht) he'
      exact .fork hcap
  | subgoal left right =>
    have he' : e.subgoal host t tok left right = .ok e' := he'
    cases hcap : e.atCapacity with
    | some limit =>
      simp only [Engine.subgoal, hcap] at he'
      cases he'
      rw [fail_eq ht]
      exact .subgoalFull hcap
    | none =>
      obtain ⟨e₁, hs, heq⟩ := subgoal_eq host t left right hcap hr
      rw [heq] at he'
      have ht' := (spawn_grown hs).token ht
      cases proceed_onToken (e := e₁.enqueue e.tokens.next) ht' he'
      exact .subgoal hcap hs
  | resolve =>
    have he' : e.resolve tok = .ok e' := he'
    unfold Engine.resolve at he'
    dsimp only at he'
    split at he'
    · cases he'
    · rename_i grp hg
      split at he'
      · rename_i waiters region hkind
        split at he'
        · cases he'
        · rename_i hfree
          cases he'
          exact .resolve hg hkind (Option.not_isSome_iff_eq_none.1 hfree)
      · cases he'
  | otherwise left right =>
    have he' : e.enterOtherwise t tok left right = .ok e' := he'
    rw [enterOtherwise_eq ht hr hmem hpos] at he'
    cases he'
    exact .otherwise
  | escape next =>
    have he' : e.escape t tok next = .ok e' := he'
    obtain ⟨b, k, p, hkind, hp⟩ := escape_ok hr he'
    -- the parent is older, so it is another region
    obtain ⟨preg, hpreg, -⟩ := h.census.parent_of hr hp
    have hne : p ≠ tok.region := by
      rintro rfl
      exact Nat.lt_irrefl _ (h.census.older hr hp)
    rw [escape_eq ht hr hkind hp hpreg hne hmem hpos] at he'
    cases he'
    exact .escape hr hkind hp hpreg hne
  | atomic body next =>
    have he' : e.enterAtomic t tok body next = .ok e' := he'
    rw [enterAtomic_eq ht hr hmem hpos] at he'
    cases he'
    exact .atomic
  | buffer =>
    have he' : e.buffer t tok = .ok e' := he'
    unfold Engine.buffer at he'
    split at he'
    · cases he'
    · rename_i x hx
      cases he'
      exact .buffer hx
  | declare group next =>
    obtain ⟨defs, hdefs, he'⟩ := bind_ok he'
    unfold groupDefs at hdefs
    split at hdefs
    · rename_i defs' hdefs'
      cases hdefs
      cases proceed_onToken ht he'
      exact .declare hdefs'
    · cases hdefs
  | call target args next tail span => exact .call (called ht he')
  | ret =>
    unfold execute at he'
    dsimp only at he'
    split at he'
    · cases he'
    · rename_i frame stack hstack
      cases proceed_onToken ht he'
      exact .ret hstack
  | publish =>
    cases he'
    exact .publish

/-! ## Whose step the next turn is -/

namespace Engine

variable {t : TokenId} {tok : Token} {ready : List TokenId} {node : Node}

/-- The token whose step the next turn is, with its record and the node at which it stands. -/
def stepping (e : Engine ω) : Option (TokenId × Token × Node) :=
  match e.agenda, e.halted, e.ready with
  | [], false, t :: _ =>
    match e.tokens.get? t with
    | some tok =>
      if tok.phase = .runnable then (e.program.code.nodes[tok.node]?).map fun node => (t, tok, node)
      else none
    | none => none
  | _, _, _ => none

theorem stepping_of_step (ha : e.agenda = []) (hh : e.halted = false) (hready : e.ready = t :: ready)
    (ht : e.tokens.get? t = some tok) (hphase : tok.phase = .runnable)
    (hnode : e.program.code.nodes[tok.node]? = some node) :
    e.stepping = some (t, tok, node) := by grind [stepping]

theorem stepping_eq_some (h : e.stepping = some (t, tok, node)) :
    e.agenda = [] ∧ e.halted = false ∧ (∃ ready, e.ready = t :: ready) ∧
      e.tokens.get? t = some tok ∧ tok.phase = .runnable ∧
      e.program.code.nodes[tok.node]? = some node := by grind [stepping]

/-- No token takes a step as long as there is something to do. -/
theorem stepping_of_chore {a : Chore} {rest : List Chore} (ha : e.agenda = a :: rest) :
    e.stepping = none := by
  unfold stepping
  rw [ha]

theorem stepping_of_halted (hh : e.halted = true) : e.stepping = none := by
  unfold stepping
  rw [hh]
  split <;> simp_all

theorem stepping_of_empty (hready : e.ready = []) : e.stepping = none := by grind [stepping]

theorem stepping_of_skip (hready : e.ready = t :: ready)
    (hskip : ∀ tok, e.tokens.get? t = some tok → tok.phase ≠ .runnable) : e.stepping = none := by
  cases h : e.stepping with
  | none => rfl
  | some found =>
    obtain ⟨t', tok, node⟩ := found
    obtain ⟨-, -, ⟨ready', hready'⟩, ht, hphase, -⟩ := stepping_eq_some h
    grind

end Engine

/-! ## Calls of sites -/

namespace Engine

/-- The site that a token calls at a node, and what it hands over. -/
def request (e : Engine ω) (tok : Token) : Node → Option (Site × List Value)
  | .call target args _ _ _ =>
    match e.look tok.env target, e.lookAll tok.env args with
    | .ok (.value (.site site)), .ok (.ok values) => some (site, values)
    | _, _ => none
  | _ => none

theorem look_congr (h : e'.bound = e.bound) (env : Env) (o : Operand) :
    e'.look env o = e.look env o := by simp_all [sightOf, look]

theorem lookAll_congr (h : e'.bound = e.bound) (env : Env) (os : List Operand) :
    e'.lookAll env os = e.lookAll env os := by
  induction os with
  | nil => rfl
  | cons o os ih =>
    unfold lookAll
    rw [look_congr h, ih]

theorem request_congr (h : e'.bound = e.bound) (tok : Token) (node : Node) :
    e'.request tok node = e.request tok node := by
  cases node with
  | call target args next tail span => grind [look_congr, lookAll_congr, request]
  | _ => rfl

end Engine

section

variable {t : TokenId} {tok : Token} {node : Node}

/-- In the state `e` the token `t`, whose record is `tok`, calls a site with the values that its
    operands have, and `e'` comes of it.  The token is to go on at `next`. -/
inductive Invoked (host : Host ω) (e : Engine ω) (t : TokenId) (tok : Token) (site : Site)
    (values : List Value) : Node → Engine ω → Prop where
  | intro {target : Operand} {args : List Operand} {next : Nat} {tail : Bool} {span : Span}
    {e' : Engine ω} (hrequest : e.request tok (.call target args next tail span) =
      some (site, values))
    (hserved : Served host ((e.becomes t { tok with span }).count fun s =>
      { s with siteCalls := s.siteCalls + 1 }) t { tok with span } site values next e') :
    Invoked host e t tok site values (.call target args next tail span) e'

theorem Served.constants {values : List Value} (h : Served host e t tok site values next e') :
    e'.constants = e.constants := by
  have replied : ∀ {e e' : Engine ω} {reply : Reply},
      Replied host e t tok site next reply e' → e'.constants = e.constants := by
    intro e e' reply h
    cases h <;> rfl
  cases h with
  | immediate _ hreply | outside _ _ hreply =>
    have hsame := replied hreply
    exact hsame
  | inside _ _ hreply =>
    rw [enlist_eq] at hreply
    have hsame := replied hreply
    exact hsame
  | refused =>
    rw [enlist_eq]
    rfl
  | _ => rfl

/-- A step keeps the program, and counts the call of a site if it is one. -/
theorem Executed.constants (h : Executed host e t tok node e') :
    e'.constants = e.constants ∨ ∃ site values,
      Invoked host e t tok site values node e' ∧
        e'.constants = (e.program, e.stats.siteCalls + 1) := by
  have parked : ∀ {e : Engine ω} (cell : GroupId), (e.park t cell).constants = e.constants := by
    intro e cell
    unfold park
    split <;> rfl
  cases h with
  | loadPending | fieldPending => exact .inl (parked _)
  | @fork left right =>
    exact .inl (spawnReady_grown (e.count _) (tok.forkAt right)).constants
  | subgoal hcap hs =>
    have hspawned := (spawn_grown hs).constants
    exact .inl hspawned
  | @call target args next tail span e' hcalled =>
    cases hcalled with
    | pending | argPending => exact .inl (parked _)
    | @site site values e' hv hargs hserved =>
      have hcounted := hserved.constants
      have hbound : (e.becomes t { tok with span }).bound = e.bound := rfl
      have hv : e.look tok.env target = .ok (.value (.site site)) :=
        (look_congr hbound ..).symm.trans hv
      have hargs : e.lookAll tok.env args = .ok (.ok values) :=
        (lookAll_congr hbound ..).symm.trans hargs
      refine .inr ⟨_, _, .intro ?_ hserved, hcounted⟩
      simp only [request, hv, hargs]
    | _ => exact .inl rfl
  | _ => exact .inl rfl

end
end Orchestra
