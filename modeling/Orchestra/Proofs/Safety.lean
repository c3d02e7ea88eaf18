/-
  Safety: a compiled program never faults.

  In a typed and coherent state every turn leads to a typed and coherent state.  A chore never
  faults because the scopes are coherent, and a step of a token never faults because the node finds
  what it takes: what is read is in scope, an `escape` happens in the region of an `otherwise`, a
  `resolve` in that of a cell without a value, a `buffer` in a transaction.

  * `executes`, `Executed.typed` : the step of each kind of node succeeds and keeps the state typed.
  * `run_never_faults` : so does every run of a compiled program in an honest host.
-/
import Orchestra.Proofs.Typed

namespace Orchestra

open Engine List

variable {ω : Type} {tail : Bool} {e e₀ : Engine ω} {host : Host ω} {args os : List Operand}
  {message : Message} {next : Nat} {node : Node} {o target : Operand} {reg : Region} {r : RegionId}
  {site : Site} {tok : Token} {t : TokenId} {holds : ω → Value → Prop}

/-! ## Reading -/

namespace Engine

variable {c : Code} {e : Engine ω} {env : Env}

section

variable (henv : EnvSound c env)

include henv

theorem bindingOf_ok (ho : o.Fits env.length) :
    ∃ b, bindingOf env o = .ok b ∧ ∀ {v}, b = .value v → v.Sound c := by
  cases o with
  | const v =>
    refine ⟨.value v, rfl, fun e => ?_⟩
    cases e
    exact Value.Plain.sound ho
  | var index =>
    have hget : env[index]? = some env[index] := getElem?_eq_getElem ho
    refine ⟨env[index], ?_, fun e => henv (mem_of_getElem? (hget.trans (congrArg some e)))⟩
    grind [bindingOf, Chain.lookup?]

theorem bindingsOf_ok (hos : ∀ o ∈ os, o.Fits env.length) :
    ∃ bs, os.mapM (bindingOf env) = .ok bs ∧ bs.length = os.length ∧ EnvSound c bs := by
  induction os with
  | nil => exact ⟨[], rfl, rfl, fun _ h => by cases h⟩
  | cons o os ih =>
    obtain ⟨b, hb, hsound⟩ := bindingOf_ok henv (hos o mem_cons_self)
    obtain ⟨bs, hbs, hlen, hall⟩ := ih fun o ho => hos o (mem_cons_of_mem _ ho)
    refine ⟨b :: bs, ?_, by simp [hlen], hall.cons hsound⟩
    rw [mapM_cons, hb, hbs]
    rfl

theorem look_ok (hbound : ∀ {g v}, e.bound.lookup g = some v → v.Sound c) (ho : o.Fits env.length) :
    ∃ s, e.look env o = .ok s ∧ ∀ {v}, s = .value v → v.Sound c := by
  obtain ⟨b, hb, hsound⟩ := bindingOf_ok henv ho
  refine ⟨e.sightOf b, by rw [look, hb]; rfl, ?_⟩
  intro v hv
  unfold sightOf at hv
  grind

/-- Operands in range are looked up: the values are sound, or a cell is pending. -/
theorem lookAll_ok (hbound : ∀ {g v}, e.bound.lookup g = some v → v.Sound c)
    (hos : ∀ o ∈ os, o.Fits env.length) :
    ∃ found, e.lookAll env os = .ok found ∧ ∀ {vs}, found = .ok vs → ∀ v ∈ vs, v.Sound c := by
  induction os with
  | nil =>
    refine ⟨.ok [], rfl, fun e => ?_⟩
    cases e
    simp
  | cons o os ih =>
    obtain ⟨s, hs, hsound⟩ := look_ok (e := e) henv hbound (hos o mem_cons_self)
    obtain ⟨found, hfound, hall⟩ := ih fun o ho => hos o (mem_cons_of_mem _ ho)
    unfold lookAll
    rw [hs]
    cases s with
    | pending cell => exact ⟨.error cell, rfl, fun e => by cases e⟩
    | value v =>
      rw [hfound]
      refine ⟨found.map (v :: ·), rfl, fun {vs} e => ?_⟩
      cases found with
      | error cell => cases e
      | ok ws =>
        cases e
        grind

theorem look_sound (hbound : ∀ {g v}, e.bound.lookup g = some v → v.Sound c)
    (ho : o.Fits env.length) {v : Value} (hv : e.look env o = .ok (.value v)) : v.Sound c := by
  obtain ⟨s, hs, hsound⟩ := look_ok (e := e) henv hbound ho
  cases hs.symm.trans hv
  exact hsound rfl

end

/-- A token that is there is sent on, changed or not. -/
theorem proceeds (ht : e.tokens.get? t = some tok) (n : Nat) :
    ∃ e', e.proceed t n = .ok e' := ⟨_, if_pos (Store.contains_iff.2 ⟨tok, ht⟩)⟩

theorem proceeds_onToken (ht : e.tokens.get? t = some tok) (f : Token → Token) (n : Nat) :
    ∃ e', (e.onToken t f).proceed t n = .ok e' := by simp_all [onToken_eq, proceeds, get?_becomes]

end Engine

/-! ## What a region is founded for -/

namespace Aligned

variable {m : Charter} {tokens : Store .token Token} {groups : Store .group Group}
  {regions : Store .region Region} {transactions : Store .transaction Transaction}

section

variable (h : Aligned m tokens groups regions transactions) (hr : regions.get? r = some reg)

include h hr

/-- Only the region of a cell is left by `resolve`. -/
theorem pruning_of_way (hway : m.way r = (0, .resolve)) : ∃ c, reg.kind = .pruning c := by
  have := @h.root r reg
  have := @h.otherwise r reg
  have := @h.body r reg
  cases hkind : reg.kind <;> grind

/-- Only the region of a transaction is left by `buffer`. -/
theorem transaction_of_way (hway : m.way r = (0, .buffer)) : ∃ x, reg.kind = .transaction x := by
  have := @h.root r reg
  have := @h.pruning r reg
  have := @h.otherwise r reg
  have := @h.body r reg
  cases hkind : reg.kind <;> grind

/-- Only the region of an `otherwise` can be escaped from. -/
theorem otherwise_of_way (hway : (m.way r).1 ≠ 0) : ∃ b k, reg.kind = .otherwise b k := by
  have := @h.root r reg
  have := @h.pruning r reg
  have := @h.body r reg
  cases hkind : reg.kind <;> grind

end

end Aligned

namespace Typed

variable {m : Charter} {holds : ω → Value → Prop} {host : Host ω} {e e' : Engine ω} {t : TokenId}
  {tok tok' : Token}

theorem placed (h : Typed m holds e) (ha : e.agenda = []) (ht : e.tokens.get? t = some tok) :
    Placed e.program.code (m.way tok.region) tok.node tok.env tok.stack := by
  have hp := h.token ht
  rwa [ha] at hp

/-! ## No step faults -/

/-- A token that leaves by `resolve` computes a cell, which has no value yet. -/
theorem resolves (hcore : Core m e none) (ha : e.agenda = []) (ht : e.tokens.get? t = some tok)
    (hway : m.way tok.region = (0, .resolve)) : ∃ e', e.resolve tok = .ok e' := by
  obtain ⟨reg, hr, -⟩ := hcore.census.region_of ht
  obtain ⟨grp, hg, halive, -⟩ := (ha ▸ hcore.kinship : Kinship e.tokens e.groups []).alive ht
  obtain ⟨c, hkind⟩ := hcore.aligned.pruning_of_way hr hway
  obtain ⟨-, hgroup, -, -, hcell⟩ := hcore.aligned.pruning hr hkind
  have hc : tok.group = c := (hcore.aligned.token ht).1.symm.trans hgroup
  obtain ⟨ws, hws⟩ := hcell grp (hc ▸ hg)
  have hunbound : e.bound.lookup tok.group = none := by
    cases hb : e.bound.lookup tok.group with
    | none => rfl
    | some v =>
      rcases hcore.bound hb hg with hk | hm
      · rw [halive] at hk
        cases hk
      · rw [ha] at hm
        cases hm
  simp [Engine.resolve, hg, hws, hunbound]

/-- A token that escapes is in the region of an `otherwise`. -/
theorem escapes (hcore : Core m e none) (ht : e.tokens.get? t = some tok) (next : Nat)
    (hway : (m.way tok.region).1 ≠ 0) : ∃ e', e.escape t tok next = .ok e' := by
  obtain ⟨reg, hr, hmem⟩ := hcore.census.region_of ht
  obtain ⟨b, fallback, hkind⟩ := hcore.aligned.otherwise_of_way hr hway
  obtain ⟨hparent, -⟩ := hcore.aligned.otherwise hr hkind
  obtain ⟨preg, hpreg, -⟩ := hcore.census.parent_of hr hparent
  have hne : fallback.region ≠ tok.region := by
    intro heq
    have hlt := hcore.census.older hr hparent
    rw [heq] at hlt
    exact Nat.lt_irrefl _ hlt
  exact ⟨_, escape_eq ht hr hkind hparent hpreg hne hmem
    (hcore.census.live_pos_of_token hr hmem)⟩

/-- A token that leaves by `buffer` is in a transaction. -/
theorem buffers (hcore : Core m e none) (ht : e.tokens.get? t = some tok)
    (hway : m.way tok.region = (0, .buffer)) : ∃ e', e.buffer t tok = .ok e' := by
  obtain ⟨reg, hr, -⟩ := hcore.census.region_of ht
  obtain ⟨x, hkind⟩ := hcore.aligned.transaction_of_way hr hway
  obtain ⟨txn, -, -, -, hx⟩ := hcore.aligned.atomic hr (.inl hkind)
  have htxn : tok.txn = some x := (hcore.aligned.token ht).2.symm.trans hx
  simp [Engine.buffer, htxn]

/-- What is called is in scope, and so are the arguments. -/
theorem calls (h : Typed m holds e) (ht : e.tokens.get? t = some tok)
    (henv : EnvSound e.program.code tok.env) {span : Span} (htarget : target.Fits tok.env.length)
    (hargs : ∀ o ∈ args, o.Fits tok.env.length) :
    ∃ e', e.call host t tok target args next tail span = .ok e' := by
  obtain ⟨seen, hseen, hsound⟩ := look_ok (e := e.onToken t fun token => { token with span })
    henv h.bound htarget
  simp only [Engine.call, hseen, Bind.bind, Except.bind]
  split
  · exact ⟨_, rfl⟩
  · rename_i group member captured
    obtain ⟨defs, hdefs, hmember, -⟩ := hsound rfl .self
    obtain ⟨bindings, hbindings, -⟩ := bindingsOf_ok henv hargs
    have hgroup : (e.onToken t fun token => { token with span }).groupDefs group = .ok defs := by
      grind [groupDefs, Engine.onToken]
    have hdef : defs[member]? = some defs[member] := getElem?_eq_getElem hmember
    have ht' : (e.onToken t fun token => { token with span }).tokens.get? t =
        some { tok with span } := by grind [onToken_eq, get?_becomes]
    simp only [callClosure, hgroup, hdef, hbindings, Bind.bind, Except.bind]
    split
    · exact ⟨_, rfl⟩
    · exact proceeds_onToken
        (e := (e.onToken t fun token => { token with span }).count _) ht' _ _
  · obtain ⟨found, hfound, -⟩ := lookAll_ok
      (e := e.onToken t fun token => { token with span }) henv h.bound hargs
    simp only [callSite, hfound, Bind.bind, Except.bind]
    cases found with
    | error cell => exact ⟨_, rfl⟩
    | ok values =>
      dsimp only
      split
      · exact ⟨_, rfl⟩
      · split <;> exact ⟨_, rfl⟩
      · exact ⟨_, rfl⟩
      · exact ⟨_, rfl⟩
  · exact ⟨_, rfl⟩

/-- The step of each kind of node succeeds. -/
theorem executes (hcore : Core m e none) (h : Typed m holds e) (ha : e.agenda = [])
    (ht : e.tokens.get? t = some tok) (hnode : e.program.code.nodes[tok.node]? = some node) :
    ∃ e', e.execute host t tok node = .ok e' := by
  have hp := h.placed ha ht
  have hwalks := hp.walks.inv hnode
  obtain ⟨reg, hr, hmem⟩ := hcore.census.region_of ht
  have hpos := hcore.census.live_pos_of_token hr hmem
  cases node with
  | stop | publish => exact ⟨_, rfl⟩
  | load operand next =>
    obtain ⟨seen, hseen, -⟩ := look_ok (e := e) hp.env h.bound hwalks.1
    simp only [execute, hseen, Bind.bind, Except.bind]
    cases seen <;> exact ⟨_, rfl⟩
  | field target name next =>
    obtain ⟨seen, hseen, -⟩ := look_ok (e := e) hp.env h.bound hwalks.1
    simp only [execute, hseen, Bind.bind, Except.bind]
    split
    · split <;> exact ⟨_, rfl⟩
    · exact ⟨_, rfl⟩
    · exact ⟨_, rfl⟩
  | push next => exact proceeds_onToken ht _ next
  | unwind count next =>
    have hchain : Chain.unwind? count tok.env = some (tok.env.drop count) := by
      rw [Chain.unwind?_eq, if_pos hwalks.1]
    simp_all [proceeds_onToken, execute]
  | fork left right =>
    show ∃ e', e.fork host t tok left right = .ok e'
    unfold Engine.fork
    split
    · exact ⟨_, rfl⟩
    · exact proceeds ((spawnReady_grown (e.count _) _).token ht) left
  | subgoal left right =>
    show ∃ e', e.subgoal host t tok left right = .ok e'
    cases hcap : e.atCapacity with
    | some limit => simp_all [Engine.subgoal]
    | none =>
      obtain ⟨e₁, hs, heq⟩ := subgoal_eq host t left right hcap hr
      rw [heq]
      exact proceeds_onToken (e := e₁.enqueue _) ((spawn_grown hs).token ht) _ left
  | resolve => exact resolves hcore ha ht (Prod.ext hwalks.1 hwalks.2)
  | otherwise left right => exact ⟨_, enterOtherwise_eq ht hr hmem hpos⟩
  | escape next =>
    obtain ⟨k, hk, -⟩ := hwalks
    exact escapes hcore ht next (by omega)
  | atomic body next => exact ⟨_, enterAtomic_eq ht hr hmem hpos⟩
  | buffer => exact buffers hcore ht (Prod.ext hwalks.1 hwalks.2)
  | declare group next =>
    obtain ⟨defs, hdefs, -⟩ := hwalks
    simp_all [proceeds_onToken, groupDefs, execute, Bind.bind, Except.bind]
  | call target args next tail span => exact h.calls ht hp.env hwalks.1 hwalks.2.1
  | ret =>
    obtain ⟨f, rest, hstack, -⟩ := hwalks
    simp_all [proceeds_onToken, execute]

/-! ## What becomes of the token -/

/-- A token changes, possibly its region, and may be sent on; the others stay as they are. -/
theorem relocate (h : Typed m holds e) (ha : e.agenda = []) {tokens : Store .token Token}
    (htokens : ∀ t', tokens.get? t' = if t' = t then some tok' else e.tokens.get? t')
    (new : List Chore)
    (hp : Placed e.program.code (m.way tok'.region) (heading t tok'.node new) tok'.env tok'.stack)
    (hv : tok'.result.Sound e.program.code) (hsent : ∀ t' n, .proceed t' n ∈ new → t' = t)
    (hrelease : ∀ k v, .release k v ∉ new) : Typed m holds ({ e with tokens }.plan new) := by
  have hheading : ∀ {t' node}, t' ≠ t → heading t' node new = node := by
    intro t' node hne
    clear hp hrelease
    induction new with
    | nil => rfl
    | cons a new ih =>
      have ih := ih fun t' n hm => hsent t' n (mem_cons_of_mem _ hm)
      cases a with
      | proceed t'' n =>
        have hne' : t'' ≠ t' := fun heq => hne (heq ▸ hsent t'' n mem_cons_self)
        exact (if_neg hne').trans ih
      | _ => exact ih
  have hagenda : ({ e with tokens }.plan new).agenda = new := by grind [Engine.plan]
  refine { h with token := ?_, result := ?_, release := ?_ }
  · grind [placed, Engine.plan]
  · grind [result, Engine.plan]
  · grind

section

variable (h : Typed m holds e) (ha : e.agenda = []) (ht : e.tokens.get? t = some tok)
  (hp : Placed e.program.code (m.way tok'.region) tok'.node tok'.env tok'.stack)
  (hv : tok'.result.Sound e.program.code)

include h ha ht hp hv

theorem becomes : Typed m holds (e.becomes t tok') :=
  h.relocate ha (get?_becomes ht tok') [] hp hv (by simp) (by simp)

theorem goesOn : Typed m holds (e.goesOn t tok') :=
  (h.becomes ha ht hp hv).congr rfl

end

theorem endToken (h : Typed m holds e) (t : TokenId) : Typed m holds (e.plan [.killToken t]) :=
  h.planPlain _ (by simp) (by simp)

theorem failed (hh : host.Honest holds) (h : Typed m holds e) {error : TokenError}
    (hv : ∀ v ∈ error.values, v.Sound e.program.code) :
    Typed m holds (e.failed host t tok error) := by
  have hcounted : Typed m holds (e.count fun s => { s with failures := s.failures + 1 }) :=
    h.congr rfl
  exact (hcounted.onWorld (hh.report { span := tok.span, error } e.world) hv).endToken t

section

variable (h : Typed m holds e)

include h

theorem park (t : TokenId) (cell : GroupId) : Typed m holds (e.park t cell) := by
  unfold Engine.park
  grind [touch, congr, endToken, onGroup]

/-- Regions keep their fallbacks when a token is carried over. -/
theorem moved_fallback (t : TokenId) (source target : RegionId) {b : Bool} {k : Continuation}
    (hr : (e.moved t source target).regions.get? r = some reg) (hkind : reg.kind = .otherwise b k) :
    k.Placed m e.program.code := by
  have hjoined := h.onRegion target (f := Region.seat t) fun _ => rfl
  have hleft := hjoined.onRegion source (f := Region.unseat t) fun _ => rfl
  exact hleft.fallback hr hkind

/-- A token is carried over to a region and sent on there. -/
theorem carry (ha : e.agenda = []) (ht : e.tokens.get? t = some tok) {target : RegionId} {n : Nat}
    (hp : Placed e.program.code (m.way target) n tok.env tok.stack) (before : List Chore)
    (hbefore : ∀ a ∈ before, ∃ r, a = .quiesce r) :
    Typed m holds ((e.moved t tok.region target).plan (before ++ [.proceed t n])) := by
  have hother : ∀ a ∈ before ++ [.proceed t n], (∃ r, a = .quiesce r) ∨ a = .proceed t n := by grind
  have hregions : Typed m holds { e with regions := (e.moved t tok.region target).regions } :=
    h.onRegions (h.moved_fallback t tok.region target)
  have hv := h.result ht
  have htokens : ∀ t', (e.moved t tok.region target).tokens.get? t' =
      if t' = t then some { tok with region := target } else e.tokens.get? t' := by
    grind [moved]
  refine hregions.relocate ha htokens (before ++ [.proceed t n]) ?_ hv ?_ ?_
  · rw [heading_append]
    · show Placed _ _ (if t = t then n else _) _ _
      rw [if_pos rfl]
      exact hp
    · grind
  · grind
  · exact fun k v hm => by simpa using hother _ hm

theorem enlist (scope : Scope) (cohorts : List CohortId) :
    Typed m holds (e.enlist scope cohorts) := by
  unfold Engine.enlist
  induction scope.lineage generalizing e with
  | nil => exact h
  | cons x xs ih => exact ih (h.onTransaction x (fun _ => rfl) h.publication)

/-- What is captured in a publication is sound. -/
theorem captures_sound {v : Value} (hv : v.Sound e.program.code) :
    ∀ a ∈ Publication.values { value := v, captured := e.captures v }, a.Sound e.program.code := by
  intro a hm
  rcases mem_cons.1 hm with rfl | hm
  · exact hv
  · obtain ⟨seen, hseen, ha⟩ := mem_filterMap.1 hm
    unfold captures at hseen
    split at hseen
    · obtain ⟨b, hb, rfl⟩ := mem_map.1 hseen
      cases b with
      | value u =>
        cases ha
        exact hv.within (.captured hb .self)
      | future cell => exact h.bound ha
    · cases hseen

end

end Typed

/-! ## Steps keep a state typed -/

section Steps

variable {m : Charter} {holds : ω → Value → Prop} {host : Host ω} {e e' : Engine ω} {t : TokenId}
  {tok : Token}

theorem Replied.typed {reply : Reply} (hr : Replied host e t tok site next reply e')
    (hh : host.Honest holds) (h : Typed m holds e) (ha : e.agenda = [])
    (ht : e.tokens.get? t = some tok)
    (hp : Placed e.program.code (m.way tok.region) next tok.env tok.stack)
    (hv : ∀ v ∈ reply.values, v.Sound e.program.code) : Typed m holds e' := by
  cases hr with
  | publish => exact h.goesOn ha ht hp (hv _ mem_cons_self)
  | halt => exact h.endToken t
  | fail => exact h.failed hh hv

/-- A site that is called leaves the state typed, as the host is honest. -/
theorem Served.typed {values : List Value} (hs : Served host e t tok site values next e')
    (hh : host.Honest holds) (h : Typed m holds e) (ha : e.agenda = [])
    (ht : e.tokens.get? t = some tok)
    (hp : Placed e.program.code (m.way tok.region) next tok.env tok.stack)
    (hvalues : ∀ v ∈ values, v.Sound e.program.code) : Typed m holds e' := by
  have htransact := fun scope => h.absorb (hh.transact site values scope e.world) hvalues
  cases hs with
  | immediate _ hreply =>
    obtain ⟨habsorbed, hsound⟩ := h.absorb (hh.call site values e.world) hvalues
    exact hreply.typed hh habsorbed ha ht hp hsound
  | launched =>
    have habsorbed := (h.absorb (hh.launch site values t e.world) hvalues).1
    have hv := h.result ht
    exact habsorbed.becomes ha ht hp hv
  | unspawned =>
    have habsorbed := (h.absorb (hh.launch site values t e.world) hvalues).1
    grind [Typed.failed, TokenError.values, SiteError.values]
  | outside _ _ hreply => exact hreply.typed hh (htransact none).1 ha ht hp (htransact none).2
  | @inside _ scope _ _ hreply =>
    have henlisted := (htransact (some scope)).1.enlist scope
      (host.transact site values (some scope) e.world).answer.enlisted
    rw [enlist_eq] at henlisted hreply
    exact hreply.typed hh henlisted ha ht hp (htransact _).2
  | refused => grind [Typed.planPlain, Typed.enlist]
  | timer => grind [Typed.becomes, Value.sound_signal, Typed.congr]
  | timerFailed _ _ herror => exact h.failed hh fun v hv => hvalues v (herror v hv)

/-- A call leads to a sound call of a site, or enters a closure that fits what it captured. -/
theorem Called.typed (hcalled : Called host e t tok target args next tail e')
    (hh : host.Honest holds) (h : Typed m holds e) (ha : e.agenda = [])
    (ht : e.tokens.get? t = some tok) (htarget : target.Fits tok.env.length)
    (hargs : ∀ o ∈ args, o.Fits tok.env.length)
    (henter : ∀ {entry d}, Fits e.program.code entry d 0 .ret → Walks e.program.code entry d
      (if tail then tok.stack else ⟨next, tok.env⟩ :: tok.stack) (m.way tok.region).1
      (m.way tok.region).2) (hp : Placed e.program.code (m.way tok.region) next tok.env tok.stack) :
    Typed m holds e' := by
  cases hcalled with
  | pending | argPending => exact h.park t _
  | uncallable hv =>
    refine h.failed hh fun v hm => ?_
    cases mem_singleton.1 hm
    exact look_sound hp.env h.bound htarget hv
  | mismatch => exact h.failed hh (by simp [TokenError.values])
  | @enter group member captured defs d bindings hv hdefs hd harity hbindings =>
    have hclosure := look_sound hp.env h.bound htarget hv
    obtain ⟨defs', hdefs', -, hfits⟩ := hclosure .self
    cases hdefs.symm.trans hdefs'
    obtain ⟨bindings', hbindings', hlen, hbound⟩ := bindingsOf_ok hp.env hargs
    cases hbindings.symm.trans hbindings'
    have hcaptured : EnvSound e.program.code captured := fun v hv =>
      hclosure.within (.captured hv .self)
    have hcounted : Typed m holds (e.count fun s =>
        { s with calls := s.calls + 1, tailCalls := s.tailCalls + if tail then 1 else 0 }) :=
      h.congr rfl
    have hv := h.result ht
    refine hcounted.goesOn ha ht ⟨henter ?_, ?_, ?_⟩ hv
    · grind [length_bindGroup]
    · intro v hm
      rcases mem_append.1 hm with hm | hm
      · exact hbound (mem_reverse.1 hm)
      · exact bindGroup_sound hcaptured hdefs hfits hm
    · grind [Placed.stack, Placed.env, Engine.count]
  | site _ hvalues hserved =>
    obtain ⟨found, hfound, hsound⟩ := lookAll_ok (e := e) hp.env h.bound hargs
    grind [Served.typed, Typed.congr, Engine.count]

/-- The region of a cell, of an `otherwise` or of a transaction that is founded in the step is left
    as the charter says. -/
theorem Executed.typed (hx : Executed host e t tok node e') (hh : host.Honest holds)
    (hcore : Core m e none) (h : Typed m holds e) (ha : e.agenda = [])
    (ht : e.tokens.get? t = some tok) (hnode : e.program.code.nodes[tok.node]? = some node)
    (hc : Coherent m e') : Typed m holds e' := by
  have hp := h.placed ha ht
  have hv := h.result ht
  have hwalks := hp.walks.inv hnode
  obtain ⟨reg, hreg, -⟩ := hcore.census.region_of ht
  have hne : e.regions.next ≠ tok.region := (Store.ne_next hreg).symm
  have at_ : ∀ {way : Nat × Exit} {n : Nat}, Walks e.program.code n tok.env.length tok.stack way.1
      way.2 → Placed e.program.code way n tok.env tok.stack := fun hw => ⟨hw, hp.env, hp.stack⟩
  cases hx with
  | stop => exact h.endToken t
  | load hseen =>
    exact h.goesOn ha ht (at_ hwalks.2) (look_sound hp.env h.bound hwalks.1 hseen)
  | loadPending | fieldPending => exact h.park t _
  | field hseen hfield =>
    have hrecord := look_sound hp.env h.bound hwalks.1 hseen
    exact h.goesOn ha ht (at_ hwalks.2) (hrecord.field hfield)
  | fieldFailed hseen _ herror =>
    refine h.failed hh fun w hw => ?_
    cases herror w hw
    exact look_sound hp.env h.bound hwalks.1 hseen
  | push =>
    refine h.goesOn ha ht ⟨hwalks, hp.env.cons fun heq => ?_, hp.stack⟩ hv
    cases heq
    exact hv
  | @unwind count next env henv =>
    obtain ⟨hle, hnext⟩ := hwalks
    rw [Chain.unwind?_eq, if_pos hle] at henv
    cases henv
    refine h.goesOn ha ht ⟨?_, fun v hm => hp.env (mem_of_mem_drop hm), hp.stack⟩ hv
    rw [length_drop]
    exact hnext
  | declare hdefs =>
    obtain ⟨defs, hdefs', hfits, hnext⟩ := hwalks
    cases hdefs.symm.trans hdefs'
    refine h.goesOn ha ht ⟨?_, bindGroup_sound hp.env hdefs hfits, hp.stack⟩ hv
    rw [length_bindGroup]
    exact hnext
  | ret hstack =>
    obtain ⟨f, rest, hstack', hnext⟩ := hwalks
    cases hstack.symm.trans hstack'
    refine h.goesOn ha ht ⟨hnext, hp.stack (hstack ▸ mem_cons_self), ?_⟩ hv
    grind [Placed.stack]
  | publish =>
    have hcounted : Typed m holds (e.count fun s => { s with publications := s.publications + 1 }) :=
      h.congr rfl
    exact (hcounted.onWorld (hh.publish _ e.world) (h.captures_sound hv)).endToken t
  | forkFull | subgoalFull => exact h.failed hh (by simp [TokenError.values])
  | @fork left right =>
    have hgrown := spawnReady_grown e.forked (tok.forkAt right)
    have hcounted : Typed m holds e.forked := h.congr rfl
    have hspawned : Typed m holds (e.forked.spawnReady (tok.forkAt right)) :=
      hcounted.spawnReady (at_ hwalks.2) (by simp [Engine.count, ha]) hv
    refine hspawned.goesOn (hgrown.agenda.trans ha) (hgrown.token ht) ?_ ?_
    · rw [hgrown.program]
      exact at_ hwalks.1
    · rw [hgrown.program]
      exact hv
  | @subgoal left right e₁ hcap hs =>
    have hgrown := spawn_grown hs
    -- the region of a cell is left where the cell is resolved
    have hway : m.way e.regions.next = (0, .resolve) := by
      have hregion : (e.openCell tok.group tok.region).regions.get? e.regions.next = some _ :=
        Store.get?_next_insert_modify hreg ..
      obtain ⟨reg', hreg', hsame⟩ := hgrown.region hregion
      exact (hc.core.aligned.pruning hreg' (congrArg (fun r : Region => r.kind) hsame)).2.2.1
    have hopen : Typed m holds (e.openCell tok.group tok.region).forked :=
      (h.newRegion tok.region (.pruning e.groups.next) (by simp)).congr rfl
    have hplaced : Placed e.program.code (m.way e.regions.next) right tok.env tok.stack := by
      rw [hway]
      exact at_ hwalks.2
    have hspawned := hopen.spawn hs hplaced (by simp [openCell, Engine.count, ha]) hv
    have hqueued : Typed m holds (e₁.enqueue e.tokens.next) := hspawned.congr rfl
    have hprogram : (e₁.enqueue e.tokens.next).program = e.program := hgrown.program
    refine hqueued.goesOn (hgrown.agenda.trans ha) (hgrown.token ht) ?_ ?_
    · rw [hprogram]
      exact ⟨hwalks.1, hp.env.cons (fun heq => by cases heq), hp.stack⟩
    · rw [hprogram]
      exact hv
  | resolve =>
    refine Typed.planPlain ?_ _ (by simp) (by simp)
    refine { h with bound := ?_ }
    grind [Typed.bound, Engine.count, onGroup]
  | @otherwise left right =>
    have hopen : Typed m holds (e.openOtherwise (tok.continueAt right)) :=
      h.newRegion tok.region (.otherwise false (tok.continueAt right)) fun hk => by
        cases hk
        exact at_ hwalks.2
    -- and this one by the escape, as the charter says
    have hregion : ∃ reg', ((e.openOtherwise (tok.continueAt right)).moved t tok.region
        e.regions.next).regions.get? e.regions.next = some reg' ∧
        reg'.kind = .otherwise false (tok.continueAt right) := by
      grind [moved, openOtherwise]
    obtain ⟨reg', hreg', hkind⟩ := hregion
    refine hopen.carry ha ht ?_ [] (by simp)
    rw [(hc.core.aligned.otherwise hreg' hkind).2.2.2.2]
    exact at_ hwalks.1
  | @escape next reg preg b fallback p hr hkind hparent =>
    obtain ⟨k, hk, hnext⟩ := hwalks
    obtain ⟨hparent', -, -, -, hway⟩ := hcore.aligned.otherwise hr hkind
    grind [Typed.onRegions, Typed.fallback, Typed.carry, published, Engine.onRegion]
  | @atomic body next =>
    -- the body of a transaction is left where it buffers
    have hway : m.way e.regions.next = (0, .buffer) := by
      have hnew : (e.openAtomic (e.innerScope tok) (tok.continueAt next)).regions.get?
          e.regions.next = some _ := Store.get?_next_insert_modify hreg ..
      have hregion : ∃ reg', ((e.inAtomic t tok next body).moved t tok.region
          e.regions.next).regions.get? e.regions.next = some reg' ∧
          reg'.kind = .transaction e.transactions.next := by
        grind [moved, enlistToken]
      obtain ⟨reg', hreg', hkind⟩ := hregion
      exact (hc.core.aligned.body hreg').1 hkind
    let entered := (e.inAtomic t tok next body).moved t tok.region e.regions.next
    have hgrown := h.newRegion tok.region (.transaction e.transactions.next) (by simp)
    have hopen : Typed m holds { e with
        groups := entered.groups, regions := entered.regions
        transactions := entered.transactions } := by
      refine { h with
        fallback := hgrown.moved_fallback t tok.region e.regions.next
        continuation := ?_, publication := ?_ }
      · intro x txn (hx : (e.transactions.insert _).get? x = some txn)
        rcases Store.inserted hx with ⟨-, rfl⟩ | ⟨-, hx⟩
        · exact at_ hwalks.2
        · exact h.continuation hx
      · grind [Typed.publication, moved, enlistToken, openAtomic]
    have htokens : ∀ t', entered.tokens.get? t' = if t' = t then some { tok with
        group := e.groups.next, txn := some e.transactions.next, node := body
        region := e.regions.next } else e.tokens.get? t' := by
      grind [moved, enlistToken, openAtomic]
    exact hopen.relocate ha htokens [.enqueue t] (hway ▸ at_ hwalks.1) hv (by simp) (by simp)
  | buffer => grind [Typed.endToken, Typed.onTransaction, Typed.publication]
  | @call target args next tail span _ hcalled =>
    obtain ⟨htarget, hargs, hnext, henter⟩ := hwalks
    grind [Called.typed, Typed.becomes, Engine.becomes, Engine.onToken]

end Steps

namespace Typed

variable {m : Charter} {holds : ω → Value → Prop} {host : Host ω} {e e' : Engine ω}

/-! ## Turns -/

theorem receive (hh : host.Honest holds) (h : Typed m holds e) (hr : Received host e message e')
    (hv : ∀ v ∈ message.values, v.Sound e.program.code) : Typed m holds e' := by
  cases hr with
  | terminate => exact h.congr rfl
  | late | vetoedLate => exact h
  | @publish t tok v =>
    have hset : Typed m holds (e.onToken t fun token =>
        { token with result := v, phase := .runnable }) := by
      refine h.onToken t ?_ fun _ => hv v mem_cons_self
      grind [token]
    exact hset.congr rfl
  | halt => exact h.endToken _
  | fail => exact h.failed hh hv
  | @vetoed t tok => simp_all [planPlain]

theorem idle (hh : host.Honest holds) (h : Typed m holds e) : Typed m holds (e.idle host).state := by
  refine idle_induct (P := Typed m holds) ?_ (fun t h => h.wake t) ?_ h
  · exact fun _ _ h => h.congr rfl
  · rintro e effect (heffect | rfl) h
    · exact (h.absorb (hh.await _ effect heffect) (by simp)).1
    · exact (h.absorb (hh.yield _) (by simp)).1

/-- Every turn succeeds, -/
theorem advances (hcoh : Coherent m e) (h : Typed m holds e) : ∃ p, e.turn host = .ok p := by
  unfold Engine.turn
  split
  · rename_i chore agenda ha
    have hplan : e = { e with agenda }.plan [chore] := eq_plan ha
    have hcoh' : Coherent m ({ e with agenda }.plan [chore]) := hplan ▸ hcoh
    obtain ⟨m', e', he', -⟩ := hcoh'.perform host
    rw [he']
    exact ⟨_, rfl⟩
  · rename_i ha
    split
    · exact ⟨_, rfl⟩
    · split
      · rename_i t ready _
        obtain ⟨e', he'⟩ : ∃ e', { e with ready }.dispatch host t = .ok e' := by
          unfold dispatch
          dsimp only
          split
          · exact ⟨_, rfl⟩
          · rename_i tok ht
            have hcore : Core m (e.taken ready) none := (hcoh.core_of_idle ha).congr rfl
            have htaken : Typed m holds (e.taken ready) := h.congr rfl
            obtain ⟨node, hnode⟩ := (htaken.placed ha ht).walks.node
            split
            · split
              · exact htaken.executes hcore ha ht ‹_›
              · grind [taken]
            · exact ⟨_, rfl⟩
        rw [he']
        exact ⟨_, rfl⟩
      · split <;> exact ⟨_, rfl⟩

/-- and leads to a typed and coherent state. -/
theorem turn (hh : host.Honest holds) (hcoh : Coherent m e) (h : Typed m holds e) :
    ∃ p, e.turn host = .ok p ∧ ∃ m', Coherent m' p.state ∧ Typed m' holds p.state := by
  obtain ⟨p, hp⟩ : ∃ p, e.turn host = .ok p := h.advances hcoh
  obtain ⟨m', hext, hc⟩ := hcoh.turn host hp
  have h' := h.extend hcoh.core hext
  refine ⟨p, hp, m', hc, ?_⟩
  cases turned hp with
  | chore he he' =>
    subst he
    exact perform hh hcoh h' he' hc
  | done => exact h'
  | skip => exact h'.congr rfl
  | @step _ _ ready _ _ ha _ _ ht _ hnode he' =>
    have hcore : Core m' (e.taken ready) none := ((hcoh.core_of_idle ha).extend hext).congr rfl
    have htaken : Typed m' holds (e.taken ready) := h'.congr rfl
    exact (executed hcore ht he').typed hh hcore htaken ha ht hnode hc
  | @message message inbox _ _ _ hinbox =>
    have hrest : Typed m' holds { e with inbox } :=
      { h' with mail := fun hm hv => h'.mail (hinbox ▸ mem_cons_of_mem _ hm) hv }
    exact hrest.receive hh (received ..) fun v hv => h'.mail (hinbox ▸ mem_cons_self) hv
  | idle => exact h'.idle hh

/-! ## Runs -/

/-- A run begins in a typed state. -/
theorem start {p : Program} (hbased : p.code.Based) (hfits : Fits p.code p.entry 0 0 .publish)
    (limit : Option Nat) {w : ω} (hw : WorldSound holds p.code w) :
    Typed Charter.initial holds (Engine.new p limit w).start := by
  have hbare : Typed Charter.initial holds (bare p limit w) := by
    refine ⟨hbased, fun ht => (bare_token ht).elim, fun ht => (bare_token ht).elim,
      ?_, fun hx => (bare_txn hx).elim, fun hx => (bare_txn hx).elim, ?_, ?_, ?_, hw⟩
    · grind [bare_region]
    · grind [bare, Engine.new]
    · grind [bare, Engine.new]
    · intro msg v (hm : msg ∈ [])
      cases hm
  have hplaced : Placed p.code (0, .publish) p.entry [] [] :=
    ⟨.last hfits (by decide), by simp [EnvSound], by simp⟩
  rw [start_eq]
  refine hbare.spawnReady hplaced ?_ Value.sound_signal
  intro n (hm : _ ∈ [])
  cases hm

/-- A message arrives that the host could have sent. -/
theorem arrive (h : Typed m holds e) (hv : ∀ v ∈ message.values, Passes holds e.world [] v) :
    Typed m holds { e with inbox := e.inbox ++ [message] } := by
  refine { h with mail := ?_ }
  grind [mail, mem_singleton, Passes.sound, world]

end Typed

/-- The states that can be reached from `e₀`: turn by turn, while messages may arrive from outside
    at any moment. -/
inductive Reaches (host : Host ω) (holds : ω → Value → Prop) (e₀ : Engine ω) : Engine ω → Prop where
  | refl : Reaches host holds e₀ e₀
  | turn {e : Engine ω} {p : Progress ω} (h : Reaches host holds e₀ e)
    (hp : e.turn host = .ok p) : Reaches host holds e₀ p.state
  | arrive {e : Engine ω} (h : Reaches host holds e₀ e) (message : Message)
    (hm : ∀ v ∈ message.values, Passes holds e.world [] v) :
    Reaches host holds e₀ { e with inbox := e.inbox ++ [message] }

/-- Whatever is reached from a typed and coherent state is typed and coherent. -/
theorem Reaches.typed (h : Reaches host holds e₀ e) (hh : host.Honest holds) {m₀ : Charter}
    (hcoh : Coherent m₀ e₀) (htyped : Typed m₀ holds e₀) : ∃ m, Coherent m e ∧ Typed m holds e := by
  induction h with
  | refl => exact ⟨m₀, hcoh, htyped⟩
  | turn _ hp ih =>
    obtain ⟨m, hcoh, htyped⟩ := ih
    obtain ⟨p, hp', m', hcoh', htyped'⟩ := Typed.turn hh hcoh htyped
    grind
  | arrive _ message hm ih =>
    obtain ⟨m, hcoh, htyped⟩ := ih
    refine ⟨m, ?_, htyped.arrive hm⟩
    exact ⟨hcoh.core.congr rfl, hcoh.urgent, hcoh.quiet, hcoh.cleared,
      hcoh.seated, hcoh.errand⟩

/-- Turns that are taken are part of a run. -/
theorem Reaches.of_turns {how : Ending} {n : Nat} (h : Reaches host holds e₀ e)
    (hn : e.turns host n = .ok (how, e')) : Reaches host holds e₀ e' := by
  induction n generalizing e with
  | zero =>
    cases hn
    exact h
  | succ n ih =>
    unfold Engine.turns at hn
    split at hn
    · cases hn
    · rename_i hp
      cases hn
      exact h.turn hp
    · rename_i hp
      exact ih (h.turn hp) hn

/-- Turns that all succeed make a run that succeeds. -/
theorem Reaches.turns (h : Reaches host holds e₀ e)
    (hall : ∀ {e}, Reaches host holds e₀ e → ∃ p, e.turn host = .ok p) (n : Nat) :
    ∃ how e', e.turns host n = .ok (how, e') := by
  induction n generalizing e with
  | zero => exact ⟨_, _, rfl⟩
  | succ n ih =>
    obtain ⟨p, hp⟩ := hall h
    have hnext := h.turn hp
    unfold Engine.turns
    rw [hp]
    cases p with
    | next e' => exact ih hnext
    | ended how e' => exact ⟨_, _, rfl⟩

/-- No run of a compiled program faults, whatever it is embedded in: whatever the sites answer,
    whenever answers and votes arrive, and whenever the run is told to end.  So no token reads a
    binding, a node, a definition or a frame that is not there, no cell is bound twice, and no
    region counts below zero.  The host may keep and pass on the closures that it was handed, but
    not make up others; at the start it has none. -/
theorem run_never_faults (expr : Expr) (sites : Registry) {p : Program}
    (hp : expr.compile sites = .ok p) (limit : Option Nat) (host : Host ω)
    (holds : ω → Value → Prop) (hh : host.Honest holds) (w : ω)
    (hw : ∀ k, k.isClosure = true → ¬holds w k) :
    (∀ {e}, Reaches host holds (Engine.new p limit w).start e → ∃ q, e.turn host = .ok q) ∧
      ∀ n, ∃ how e, (Engine.new p limit w).run host n = .ok (how, e) := by
  obtain ⟨hbased, hfits⟩ := fits_of_compile hp
  have hstart := Typed.start hbased hfits limit fun k hk hheld => absurd hheld (hw k hk)
  have hall : ∀ {e}, Reaches host holds (Engine.new p limit w).start e →
      ∃ q, e.turn host = .ok q := by
    intro e h
    obtain ⟨m, hcoh, htyped⟩ := h.typed hh (Coherent.start p limit w) hstart
    obtain ⟨q, hq, -⟩ := Typed.turn hh hcoh htyped
    exact ⟨q, hq⟩
  exact ⟨hall, Reaches.refl.turns hall⟩

/-- A host whose sites give back their first argument, at once or through a message, and whose
    cohorts vote to commit. -/
def Host.echo : Host Unit where
  call _ args _ := ⟨args.head?.elim .halt .publish, (), []⟩
  launch _ args t _ := ⟨true, (), [.returned t (args.head?.elim .halt .publish)]⟩
  transact _ args _ _ := ⟨{ reply := args.head?.elim .halt .publish, enlisted := [⟨0⟩] }, (), []⟩
  ready _ _ t _ := ⟨(), (), [.returned t .halt]⟩
  confirm _ _ w := w
  rollback _ _ w := w
  publish _ w := w
  report _ w := w
  yield _ := ⟨(), (), []⟩
  await _ := none

theorem Host.echo_honest : Host.echo.Honest fun _ _ => False := by
  have hreply : ∀ {args : List Value} {v : Value},
      v ∈ (args.head?.elim Reply.halt Reply.publish).values →
      Passes (fun (_ : Unit) _ => False) () args v := by
    intro args v hv k _ hk
    cases args with
    | nil => cases hv
    | cons a args =>
      cases mem_singleton.1 hv
      exact .inr ⟨v, mem_cons_self, hk⟩
  have hkeeps : ∀ {given : List Value}, Keeps (fun (_ : Unit) _ => False) () given () :=
    fun _ _ hheld => hheld.elim
  constructor
  case call => exact fun site args w => ⟨fun v hv => hreply hv, by simp [Host.echo], hkeeps⟩
  case launch =>
    refine fun site args t w => ⟨by simp, fun msg hm v hv => ?_, hkeeps⟩
    cases mem_singleton.1 hm
    exact hreply hv
  case transact => exact fun site args scope w => ⟨fun v hv => hreply hv, by simp [Host.echo], hkeeps⟩
  case ready =>
    refine fun c scope t w => ⟨by simp, fun msg hm v hv => ?_, hkeeps⟩
    cases mem_singleton.1 hm
    cases hv
  case confirm => exact fun c scope w => hkeeps
  case rollback => exact fun c scope w => hkeeps
  case publish => exact fun p w => hkeeps
  case report => exact fun f w => hkeeps
  case yield => exact fun w => ⟨by simp, by simp [Host.echo], hkeeps⟩
  case await =>
    intro w f hf
    cases hf

/-- `(def f(x) = x ; echo(f)) >g> atomic (touch() ; (y <y< g(7)))`: a closure goes out to a threaded
    site, comes back, and is called for a cell inside a transaction that has a cohort. -/
def Expr.roundTrip : Expr :=
  .sequential
    (.declare [.mk "f" 1 (.value (.variable 0))]
      (.call (.site "echo") [.variable 0] .none))
    (.atomic (.otherwise (.call (.site "touch") [] .none)
      (.pruning (.value (.variable 0)) (.call (.variable 0) [.literal (.int 7)] .none))))

/-- The sites of that program. -/
def Registry.roundTrip : Registry :=
  ⟨[⟨"echo", 0, .threaded⟩, ⟨"touch", 1, .transactional⟩]⟩

theorem run_never_faults_roundTrip :
    ∃ p, Expr.roundTrip.compile Registry.roundTrip = .ok p ∧ Host.echo.Honest (fun _ _ => False) ∧
      (∀ {e}, Reaches Host.echo (fun _ _ => False) (Engine.new p none ()).start e →
        ∃ q, e.turn Host.echo = .ok q) ∧
      ∀ n, ∃ how e, (Engine.new p none ()).run Host.echo n = .ok (how, e) :=
  ⟨_, rfl, Host.echo_honest, run_never_faults Expr.roundTrip Registry.roundTrip rfl none Host.echo
    (fun _ _ => False) Host.echo_honest () fun _ _ hheld => hheld⟩

end Orchestra
