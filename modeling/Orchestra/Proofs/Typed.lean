/-
  Typed states: every token finds at its node what the node takes.

  `Typed` extends the type system of code to whole states.  A token stands at a node that fits its
  environment, its frames and what its region was founded for; so do the continuations that are
  kept in regions, in transactions and on the agenda; and all values are sound.

  Values also come from outside.  A host is HONEST if every closure that it passes on was handed to
  it before: it cannot make one up.

  * `perform` : chores keep a state typed.
-/
import Orchestra.Proofs.Steps
import Orchestra.Proofs.Typing

namespace Orchestra

open Engine List

variable {ω ρ : Type} {c : Code} {host : Host ω} {agenda : List Chore} {given : List Value}
  {node : Nat} {r : RegionId} {tok : Token} {f : Token → Token} {t : TokenId} {txn : Transaction}
  {x : TxnId} {w : ω} {holds : ω → Value → Prop}

/-! ## Values that cross the border -/

/-- The values in the answer of a site. -/
def Reply.values : Reply → List Value
  | .publish v => [v]
  | .halt => []
  | .fail error => error.values

/-- The values in a message. -/
def Message.values : Message → List Value
  | .returned _ reply => reply.values
  | _ => []

/-- The values in a publication, those of captured variables included. -/
def Publication.values (p : Publication) : List Value :=
  p.value :: p.captured.filterMap fun
    | .inl v => some v
    | .inr v => v

/-! ## Honest hosts -/

section Honest

variable (holds : ω → Value → Prop) (w : ω) (given : List Value)

/-- A closure is in the world already, or is handed over now. -/
def Traced (k : Value) : Prop := holds w k ∨ ∃ a ∈ given, k.Within a

/-- All closures that the world holds afterwards can be traced. -/
def Keeps (w' : ω) : Prop := ∀ k, k.isClosure = true → holds w' k → Traced holds w given k

/-- All closures in a value can be traced. -/
def Passes (v : Value) : Prop := ∀ k, k.isClosure = true → k.Within v → Traced holds w given k

/-- All closures can be traced that the host gives in an answer or in a message, or keeps. -/
structure Effect.Honest (values : ρ → List Value) (f : Effect ω ρ) : Prop where
  answer : ∀ v ∈ values f.answer, Passes holds w given v
  mail : ∀ msg ∈ f.mail, ∀ v ∈ msg.values, Passes holds w given v
  world : Keeps holds w given f.world

end Honest

/-- A host makes up no closures.  `holds w k` says that the world `w` holds the closure `k`. -/
structure Host.Honest (h : Host ω) (holds : ω → Value → Prop) : Prop where
  call : ∀ site args w, (h.call site args w).Honest holds w args Reply.values
  launch : ∀ site args t w, (h.launch site args t w).Honest holds w args fun _ => []
  transact : ∀ site args scope w,
    (h.transact site args scope w).Honest holds w args fun verdict => verdict.reply.values
  ready : ∀ c scope t w, (h.ready c scope t w).Honest holds w [] fun _ => []
  confirm : ∀ c scope w, Keeps holds w [] (h.confirm c scope w)
  rollback : ∀ c scope w, Keeps holds w [] (h.rollback c scope w)
  publish : ∀ p w, Keeps holds w p.values (h.publish p w)
  report : ∀ f w, Keeps holds w f.error.values (h.report f w)
  yield : ∀ w, (h.yield w).Honest holds w [] fun _ => []
  await : ∀ w f, h.await w = some f → f.Honest holds w [] fun _ => []

/-- All closures in the world are sound. -/
def WorldSound (holds : ω → Value → Prop) (c : Code) (w : ω) : Prop :=
  ∀ k, k.isClosure = true → holds w k → k.Sound c

theorem Traced.sound {k : Value} (hk : k.isClosure = true) (h : Traced holds w given k)
    (hw : WorldSound holds c w) (hgiven : ∀ a ∈ given, a.Sound c) : k.Sound c := by
  rcases h with h | ⟨a, ha, h⟩
  · exact hw k hk h
  · exact (hgiven a ha).within h

theorem Passes.sound {v : Value} (h : Passes holds w given v) (hw : WorldSound holds c w)
    (hgiven : ∀ a ∈ given, a.Sound c) : v.Sound c :=
  fun _ _ _ hk => (h _ rfl hk).sound rfl hw hgiven .self

theorem Keeps.sound {w' : ω} (h : Keeps holds w given w') (hw : WorldSound holds c w)
    (hgiven : ∀ a ∈ given, a.Sound c) : WorldSound holds c w' :=
  fun k hk hheld => (h k hk hheld).sound hk hw hgiven

/-! ## Typed states -/

/-- A place in the code, with an environment and frames, from which a token can go on in a region
    that was founded for `way`. -/
structure Placed (c : Code) (way : Nat × Exit) (node : Nat) (env : Env) (stack : List Frame) :
    Prop where
  walks : Walks c node env.length stack way.1 way.2
  env : EnvSound c env
  stack : ∀ {f}, f ∈ stack → EnvSound c f.env

/-- A token can go on from a continuation. -/
def Continuation.Placed (m : Charter) (c : Code) (k : Continuation) : Prop :=
  Orchestra.Placed c (m.way k.region) k.node k.env k.stack

/-- The node at which a token goes on: that to which it is about to be sent, if there is one. -/
def heading (t : TokenId) (node : Nat) : List Chore → Nat
  | [] => node
  | .proceed t' n :: rest => if t' = t then n else heading t node rest
  | _ :: rest => heading t node rest

theorem heading_cons {a : Chore} (h : ∀ t' n, a ≠ .proceed t' n) :
    heading t node (a :: agenda) = heading t node agenda := by
  cases a with
  | proceed t' n => exact absurd rfl (h t' n)
  | _ => rfl

theorem heading_append {new : List Chore} (h : ∀ t' n, .proceed t' n ∉ new) :
    heading t node (new ++ agenda) = heading t node agenda := by
  induction new with
  | nil => rfl
  | cons a new ih => grind [heading_cons]

/-- Everything in a state is where it can go on, and all values are sound. -/
structure Typed (m : Charter) (holds : ω → Value → Prop) (e : Engine ω) : Prop where
  based : e.program.code.Based
  token : ∀ {t tok}, e.tokens.get? t = some tok → Placed e.program.code (m.way tok.region)
    (heading t tok.node e.agenda) tok.env tok.stack
  result : ∀ {t tok}, e.tokens.get? t = some tok → tok.result.Sound e.program.code
  fallback : ∀ {r reg b k}, e.regions.get? r = some reg → reg.kind = .otherwise b k →
    k.Placed m e.program.code
  continuation : ∀ {x txn}, e.transactions.get? x = some txn →
    txn.continuation.Placed m e.program.code
  publication : ∀ {x txn v}, e.transactions.get? x = some txn → v ∈ txn.publications →
    v.Sound e.program.code
  release : ∀ {k v}, .release k v ∈ e.agenda →
    k.Placed m e.program.code ∧ v.Sound e.program.code
  bound : ∀ {c v}, e.bound.lookup c = some v → v.Sound e.program.code
  mail : ∀ {msg v}, msg ∈ e.inbox → v ∈ msg.values → v.Sound e.program.code
  world : WorldSound holds e.program.code e.world

namespace Typed

variable {m m' : Charter} {holds : ω → Value → Prop} {e e' : Engine ω}

/-! ## Small moves -/

/-- Only some parts of a state matter. -/
theorem congr (h : Typed m holds e) (hsame : (e'.program, e'.tokens, e'.regions, e'.transactions,
      e'.agenda, e'.bound, e'.inbox, e'.world) =
    (e.program, e.tokens, e.regions, e.transactions, e.agenda, e.bound, e.inbox, e.world)) :
    Typed m holds e' := by
  obtain ⟨hp, ht, hr, hx, ha, hb, hi, hw⟩ := by simpa only [Prod.mk.injEq] using hsame
  cases e'
  cases hp
  cases ht
  cases hr
  cases hx
  cases ha
  cases hb
  cases hi
  cases hw
  exact ⟨h.based, h.token, h.result, h.fallback, h.continuation, h.publication, h.release, h.bound, h.mail,
    h.world⟩

/-- What is there keeps its type under a longer charter. -/
theorem extend {empty : Option RegionId} (h : Typed m holds e) (hcore : Core m e empty)
    (he : m.Extends m' e.groups e.regions e.transactions) : Typed m' holds e := by
  have hkept : ∀ {k}, Kept m e.regions k → k.Placed m e.program.code →
      k.Placed m' e.program.code := by
    intro k hk hp
    unfold Continuation.Placed
    rw [he.way hk.known]
    exact hp
  refine { h with token := ?_, fallback := ?_, continuation := ?_, release := ?_ }
  · intro t tok ht
    obtain ⟨reg, hr, -⟩ := hcore.census.region_of ht
    rw [he.way (Store.lt_next hr)]
    exact h.token ht
  · intro r reg b k hr hkind
    exact hkept (hcore.aligned.otherwise hr hkind).2.1 (h.fallback hr hkind)
  · intro x txn hx
    exact hkept (hcore.aligned.transaction hx).1 (h.continuation hx)
  · grind [Core.release, release]

theorem pop {a : Chore} (h : Typed m holds (e.plan [a])) (ha : ∀ t n, a ≠ .proceed t n) :
    Typed m holds e := by
  refine ⟨h.based, ?_, h.result, h.fallback, h.continuation, h.publication, ?_, h.bound, h.mail, h.world⟩
  · intro t tok ht
    have hplaced := h.token ht
    rwa [show (e.plan [a]).agenda = a :: e.agenda from rfl, heading_cons ha] at hplaced
  · exact fun hm => h.release (mem_cons_of_mem _ hm)

section

variable (h : Typed m holds e)

include h

theorem plan (new : List Chore) (hp : ∀ t n, .proceed t n ∉ new)
    (hr : ∀ k v, .release k v ∈ new → k.Placed m e.program.code ∧ v.Sound e.program.code) :
    Typed m holds (e.plan new) := by
  refine ⟨h.based, ?_, h.result, h.fallback, h.continuation, h.publication, ?_, h.bound, h.mail, h.world⟩
  · intro t tok ht
    rw [show (e.plan new).agenda = new ++ e.agenda from rfl, heading_append hp]
    exact h.token ht
  · intro k v hm
    rcases mem_append.1 hm with hm | hm
    · exact hr k v hm
    · exact h.release hm

/-- Chores that neither send a token on nor release a publication. -/
theorem planPlain (new : List Chore) (hp : ∀ t n, .proceed t n ∉ new)
    (hr : ∀ k v, .release k v ∉ new) : Typed m holds (e.plan new) :=
  h.plan new hp fun k v hm => absurd hm (hr k v)

/-- A token changes; everything else stays. -/
theorem onToken (t : TokenId)
    (hf : ∀ {tok}, e.tokens.get? t = some tok → Placed e.program.code (m.way (f tok).region)
      (heading t (f tok).node e.agenda) (f tok).env (f tok).stack)
    (hv : ∀ {tok}, e.tokens.get? t = some tok → (f tok).result.Sound e.program.code) :
    Typed m holds (e.onToken t f) := by
  refine ⟨h.based, ?_, ?_, h.fallback, h.continuation, h.publication, h.release, h.bound, h.mail, h.world⟩
  · intro t' tok' (ht' : (e.tokens.modify t f).get? t' = some tok')
    rcases Store.modified ht' with ⟨rfl, tok, ht, rfl⟩ | ⟨-, ht'⟩
    · exact hf ht
    · exact h.token ht'
  · intro t' tok' (ht' : (e.tokens.modify t f).get? t' = some tok')
    rcases Store.modified ht' with ⟨rfl, tok, ht, rfl⟩ | ⟨-, ht'⟩
    · exact hv ht
    · exact h.result ht'

/-- A token changes in what types are not about. -/
theorem touch (t : TokenId)
    (hf : ∀ tok, (f tok).node = tok.node ∧ (f tok).env = tok.env ∧ (f tok).stack = tok.stack ∧
      (f tok).region = tok.region ∧ (f tok).result = tok.result) :
    Typed m holds (e.onToken t f) := by grind [onToken, token, result]

theorem removeToken (t : TokenId) : Typed m holds { e with tokens := e.tokens.remove t } := by
  refine ⟨h.based, ?_, ?_, h.fallback, h.continuation, h.publication, h.release, h.bound, h.mail, h.world⟩
  · exact fun ht => h.token (Store.of_get?_remove ht).2
  · exact fun ht => h.result (Store.of_get?_remove ht).2

/-- The regions change; what they fall back to stays or is placed. -/
theorem onRegions {regions : Store .region Region}
    (hr : ∀ {r reg b k}, regions.get? r = some reg → reg.kind = .otherwise b k →
      k.Placed m e.program.code) : Typed m holds { e with regions } :=
  ⟨h.based, h.token, h.result, hr, h.continuation, h.publication, h.release, h.bound, h.mail, h.world⟩

theorem onRegion (r : RegionId) {f : Region → Region} (hf : ∀ reg, (f reg).kind = reg.kind) :
    Typed m holds (e.onRegion r f) := by
  refine h.onRegions ?_
  intro r' reg' b k hr' hkind
  obtain ⟨reg, hr, hsame⟩ := Store.modify_back (P := fun a b : Region => b.kind = a.kind)
    (fun _ => rfl) hf hr'
  exact h.fallback hr (hsame.symm.trans hkind)

/-- A region is founded below another. -/
theorem newRegion (p : RegionId) (kind : RegionKind)
    (hk : ∀ {b k}, kind = .otherwise b k → k.Placed m e.program.code) :
    Typed m holds { e with
      regions := (e.regions.insert { parent := some p, kind }).modify p (Region.adopt e.regions.next) } := by
  have hinserted : Typed m holds { e with
      regions := e.regions.insert { parent := some p, kind } } := by grind [onRegions, fallback]
  exact hinserted.onRegion p fun _ => rfl

/-- A token is added that can go on. -/
theorem spawn {id : TokenId} (hs : e.spawn tok = some (id, e'))
    (hp : Placed e.program.code (m.way tok.region) tok.node tok.env tok.stack)
    (hnew : ∀ n, .proceed e.tokens.next n ∉ e.agenda) (hv : tok.result.Sound e.program.code) :
    Typed m holds e' := by
  have hheading : heading e.tokens.next tok.node e.agenda = tok.node := by
    have hnone : ∀ {agenda : List Chore}, (∀ n, .proceed e.tokens.next n ∉ agenda) →
        heading e.tokens.next tok.node agenda = tok.node := by
      intro agenda hagenda
      induction agenda with
      | nil => rfl
      | cons a agenda ih =>
        have ih := ih fun n hm => hagenda n (mem_cons_of_mem _ hm)
        cases a with
        | proceed t n =>
          have hne : t ≠ e.tokens.next := by
            rintro rfl
            exact hagenda n mem_cons_self
          exact (if_neg hne).trans ih
        | _ => exact ih
    exact hnone hnew
  obtain ⟨-, -, -, he'⟩ := spawn_eq_some hs
  rw [he']
  refine ⟨h.based, ?_, ?_, ?_, h.continuation, h.publication, h.release, h.bound, h.mail, h.world⟩
  · grind [token]
  · grind [result]
  · intro r reg b k hr
    exact (h.onRegion tok.region (f := Region.seat e.tokens.next) fun _ => rfl).fallback hr

theorem spawnReady (hp : Placed e.program.code (m.way tok.region) tok.node tok.env tok.stack)
    (hnew : ∀ n, .proceed e.tokens.next n ∉ e.agenda) (hv : tok.result.Sound e.program.code) :
    Typed m holds (e.spawnReady tok) := by
  unfold Engine.spawnReady
  split
  · rename_i id e₁ hs
    exact (h.spawn hs hp hnew hv).congr rfl
  · exact h

/-- The transactions change; where they go on and what they hold back stays or is placed. -/
theorem onTransactions {transactions : Store .transaction Transaction}
    (hk : ∀ {x txn}, transactions.get? x = some txn → txn.continuation.Placed m e.program.code)
    (hv : ∀ {x txn v}, transactions.get? x = some txn → v ∈ txn.publications →
      v.Sound e.program.code) : Typed m holds { e with transactions } :=
  ⟨h.based, h.token, h.result, h.fallback, hk, hv, h.release, h.bound, h.mail, h.world⟩

theorem onTransaction (x : TxnId) {f : Transaction → Transaction}
    (hk : ∀ txn, (f txn).continuation = txn.continuation)
    (hv : ∀ {txn v}, e.transactions.get? x = some txn → v ∈ (f txn).publications →
      v.Sound e.program.code) : Typed m holds (e.onTransaction x f) := by
  refine h.onTransactions ?_ ?_
  · intro x' txn' hx'
    rcases Store.modified hx' with ⟨-, txn, hx, rfl⟩ | ⟨-, hx'⟩
    · rw [hk]
      exact h.continuation hx
    · exact h.continuation hx'
  · intro x' txn' v hx' hm
    rcases Store.modified hx' with ⟨rfl, txn, hx, rfl⟩ | ⟨-, hx'⟩
    · exact hv hx hm
    · exact h.publication hx' hm

/-- The world changes and keeps to what it was handed. -/
theorem onWorld (hw : Keeps holds e.world given w) (hgiven : ∀ a ∈ given, a.Sound e.program.code) :
    Typed m holds { e with world := w } :=
  ⟨h.based, h.token, h.result, h.fallback, h.continuation, h.publication, h.release, h.bound, h.mail,
    hw.sound h.world hgiven⟩

/-- An honest answer of the host is taken over. -/
theorem absorb {f : Effect ω ρ} {values : ρ → List Value} (hf : f.Honest holds e.world given values)
    (hgiven : ∀ a ∈ given, a.Sound e.program.code) :
    Typed m holds (e.absorb f).2 ∧ ∀ v ∈ values f.answer, v.Sound e.program.code := by
  refine ⟨⟨h.based, h.token, h.result, h.fallback, h.continuation, h.publication, h.release, h.bound, ?_,
    hf.world.sound h.world hgiven⟩, fun v hv => (hf.answer v hv).sound h.world hgiven⟩
  intro msg v hm hv
  rcases mem_append.1 hm with hm | hm
  · exact h.mail hm hv
  · exact (hf.mail msg hm v hv).sound h.world hgiven

end

/-! ## Chores -/

/-- A region reacts; what it falls back to is placed. -/
theorem react (h : Typed m holds e) (kind : RegionKind)
    (hk : ∀ {b k}, kind = .otherwise b k → k.Placed m e.program.code)
    (hnew : ∀ n, .proceed e.tokens.next n ∉ e.agenda) : Typed m holds (e.react kind) := by
  cases kind with
  | root => exact h.congr rfl
  | pruning | transaction | votes => exact h.planPlain _ (by simp) (by simp)
  | otherwise b k =>
    show Typed m holds (if b then e else e.spawnReady (k.resume .signal))
    split
    · exact h
    · exact h.spawnReady (hk rfl) hnew Value.sound_signal

theorem quiesce (h : Typed m holds e) {reg : Region} (hr : e.regions.get? r = some reg)
    (hnew : ∀ n, .proceed e.tokens.next n ∉ e.agenda) :
    Typed m holds (e.vacated r reg) := by
  unfold vacated
  have hremoved : Typed m holds { e with regions := e.regions.remove r } :=
    h.onRegions fun hr => h.fallback (Store.of_get?_remove hr).2
  refine react (hremoved.planPlain _ ?_ ?_) reg.kind (h.fallback hr) ?_
  · cases reg.parent <;> simp
  · cases reg.parent <;> simp
  · intro n hm
    rcases mem_append.1 hm with hm | hm
    · cases hp : reg.parent <;> simp [hp] at hm
    · exact hnew n hm

theorem wake (h : Typed m holds e) (t : TokenId) :
    Typed m holds ((e.onToken t Token.woken).enqueue t) :=
  (h.touch t (f := Token.woken) (by simp)).congr rfl

/-- The votes are asked for: their tokens have nothing to do. -/
theorem askVotes (hh : host.Honest holds) (h : Typed m holds e)
    (ha : ∀ t n, .proceed t n ∉ e.agenda) (hk : txn.continuation.Placed m e.program.code)
    (hway : m.way r = (0, .publish)) (cohorts : List CohortId) :
    Typed m holds (Engine.askVotes host txn.scope (txn.vote x r) e cohorts) := by
  let kept := fun e₁ => Typed m holds e₁ ∧ e₁.program = e.program ∧ e₁.agenda = e.agenda
  suffices hkept : kept (Engine.askVotes host txn.scope (txn.vote x r) e cohorts) from hkept.1
  refine askVotes_induct (P := kept) ?_ ⟨h, rfl, rfl⟩ cohorts
  intro e₁ e₂ id c ⟨h₁, hprogram, hagenda⟩ hs
  have hplaced : Placed e₁.program.code (m.way (txn.vote x r).region) (txn.vote x r).node
      (txn.vote x r).env (txn.vote x r).stack := by
    rw [hprogram]
    refine ⟨?_, hk.env, hk.stack⟩
    show Walks _ Code.halt _ _ (m.way r).1 (m.way r).2
    rw [hway]
    exact .last (.stop h.based.halt) (by decide)
  have hspawned := h₁.spawn hs hplaced (fun n => hagenda ▸ ha _ n) Value.sound_signal
  have hgrown := spawn_grown hs
  exact ⟨(hspawned.absorb (hh.ready ..) (by simp)).1, hgrown.program.trans hprogram,
    hgrown.agenda.trans hagenda⟩

/-- The votes of a transaction are asked for in a region of their own. -/
theorem prepare (hh : host.Honest holds) {preg : Region} (h : Typed m holds e)
    (hcalm : ∀ t n, .proceed t n ∉ e.agenda) (hx : e.transactions.get? x = some txn)
    (hp : e.regions.get? txn.continuation.region = some preg)
    (hc : Coherent m (e.polled host x txn)) :
    Typed m holds (e.polled host x txn) := by
  have hopen : Typed m holds (e.openVotes x txn) := by
    have hready := h.onTransaction x (f := fun txn => { txn with state := .readying })
      (fun _ => rfl) fun hx hv => h.publication hx hv
    exact hready.newRegion txn.continuation.region (.votes x) (by simp)
  have hregion : (e.openVotes x txn).regions.get? e.regions.next = some _ :=
    Store.get?_next_insert_modify hp ..
  have hgrown : (e.openVotes x txn).Grown (Engine.askVotes host txn.scope
      (txn.vote x e.regions.next) (e.openVotes x txn) txn.cohorts) := askVotes_grown ..
  obtain ⟨reg, hr, hsame⟩ := hgrown.region hregion
  have hkind : reg.kind = .votes x := congrArg (fun r : Region => r.kind) hsame
  have hway := (hc.core.aligned.body hr).2 hkind
  exact (askVotes hh hopen hcalm (h.continuation hx) hway txn.cohorts).planPlain _ (by simp)
    (by simp)

theorem verify (hh : host.Honest holds) (h : Typed m holds e)
    (hx : e.transactions.get? x = some txn) :
    Typed m holds (e.concluded host x txn) := by
  have hconfirm : ∀ (cohorts : List CohortId) {w : ω}, WorldSound holds e.program.code w →
      WorldSound holds e.program.code
        (cohorts.foldl (fun w c => host.confirm c txn.scope w) w) := by
    intro cohorts
    induction cohorts with
    | nil => exact fun hw => hw
    | cons c cohorts ih => exact fun hw => ih ((hh.confirm c txn.scope _).sound hw (by simp))
  have hdone := h.onTransaction x
    (f := fun txn => { txn with state := .done, publications := [] }) (fun _ => rfl) (by simp)
  have hcommitted : Typed m holds
      { e with transactions := (e.committed host x txn).transactions } := by
    unfold committed
    dsimp only
    split
    · exact hdone.onTransaction _ (fun _ => rfl) hdone.publication
    · exact hdone
  refine plan ?_ _ (by simp) ?_
  · exact { hcommitted with world := hconfirm txn.cohorts h.world }
  · intro k v hm
    have hm : v ∈ txn.publications ∧ txn.continuation = k := by simpa using hm
    obtain ⟨hv, rfl⟩ := hm
    exact ⟨h.continuation hx, h.publication hx hv⟩

/-- A token is sent on to where it is headed. -/
theorem proceed {n : Nat} (h : Typed m holds (e.plan [.proceed t n])) (ha : e.agenda = []) :
    Typed m holds ((e.onToken t fun token => { token with node := n }).enqueue t) := by
  have hplaced : ∀ {t' tok}, e.tokens.get? t' = some tok → Placed e.program.code
      (m.way tok.region) (if t = t' then n else tok.node) tok.env tok.stack := by
    intro t' tok ht'
    have hp := h.token (show (e.plan [.proceed t n]).tokens.get? t' = some tok from ht')
    rw [show (e.plan [.proceed t n]).agenda = [.proceed t n] from by rw [Engine.plan, ha]; rfl]
      at hp
    exact hp
  refine { h with token := ?_, result := ?_, release := ?_ }
  · intro t' tok' (ht' : (e.tokens.modify t _).get? t' = some tok')
    show Placed e.program.code _ (heading t' tok'.node e.agenda) _ _
    rw [ha]
    rcases Store.modified ht' with ⟨rfl, tok, ht, rfl⟩ | ⟨hne, ht'⟩
    · have hp := hplaced ht
      rw [if_pos rfl] at hp
      exact hp
    · have hp := hplaced ht'
      rw [if_neg hne.symm] at hp
      exact hp
  · intro t' tok' ht'
    obtain ⟨tok, ht, hsame⟩ := Store.modify_back (P := fun a b : Token => b.result = a.result)
      (f := fun token : Token => { token with node := n }) (fun _ => rfl) (fun _ => rfl) ht'
    rw [hsame]
    have hv := h.result (show (e.plan [.proceed t n]).tokens.get? t' = some tok from ht)
    exact hv
  · exact fun hm => h.release (mem_cons_of_mem _ hm)

end Typed

/-- A token that is about to be sent on is there already. -/
theorem Coherent.not_next {m : Charter} {e : Engine ω} (h : Coherent m e) (n : Nat) :
    .proceed e.tokens.next n ∉ e.agenda := by grind [errand]

namespace Typed

variable {m m' : Charter} {holds : ω → Value → Prop} {e e' : Engine ω}

/-- Chores keep a state typed. -/
theorem perform (hh : host.Honest holds) {chore : Chore} (hcoh : Coherent m' (e.plan [chore]))
    (h : Typed m holds (e.plan [chore])) (he' : e.perform host chore = .ok e')
    (hc : Coherent m e') : Typed m holds e' := by
  have hnew : ∀ n, .proceed e.tokens.next n ∉ e.agenda := fun n hm =>
    hcoh.not_next n (mem_cons_of_mem _ hm)
  cases Engine.performed he' with
  | @killToken t tok =>
    have hleft := ((h.pop (by simp)).removeToken t).onRegion tok.region
      (f := Region.unseat t) fun _ => rfl
    refine planPlain ?_ _ ?_ ?_
    · exact hleft.congr rfl
    · split <;> simp
    · split <;> simp
  | quiesce hr => exact (h.pop (by simp)).quiesce hr hnew
  | @detach p c =>
    have hleft := (h.pop (by simp)).onRegion p
      (f := (Region.disown c)) fun _ => rfl
    refine hleft.planPlain _ ?_ ?_ <;> split <;> simp
  | close => refine planPlain ((h.pop (by simp)).onRegion _ ?_) _ ?_ ?_ <;> simp
  | @killGroup g grp =>
    refine planPlain ?_ _ ?_ ?_
    · exact (h.pop (by simp)).congr rfl
    · intro t n
      cases grp.kind <;> simp [abortFor]
    · intro k v
      cases grp.kind <;> simp [abortFor]
  | removeGroup | enqueue => exact (h.pop (by simp)).congr rfl
  | wake => exact (h.pop (by simp)).wake _
  | prepare hx _ hp =>
    refine (h.pop (by simp)).prepare hh (fun t n hm => ?_) hx hp hc
    cases hcoh.rest_calm (by simp) (by simp) _ hm
  | verify hx => exact (h.pop (by simp)).verify hh hx
  | retire =>
    have hpop := h.pop (by simp)
    grind [planPlain, onTransactions, continuation, publication]
  | release =>
    obtain ⟨hk, hv⟩ := h.release mem_cons_self
    exact (h.pop (by simp)).spawnReady hk hnew hv
  | @abort x =>
    have haborted := (h.pop (by simp)).onTransaction x
      (f := fun txn => { txn with state := .aborted, publications := [] }) (fun _ => rfl) (by simp)
    refine planPlain ?_ _ (by simp) (by simp)
    exact haborted.congr rfl
  | rollback => exact (h.pop (by simp)).onWorld (hh.rollback _ _ e.world) (by simp)
  | proceed =>
    obtain ⟨tok, -, ha⟩ := hcoh.errand mem_cons_self
    refine h.proceed ?_
    rcases ha with ha | ⟨r, reg, k, ha, -⟩ | ⟨r, ha⟩
    · exact List.cons.inj ha |>.2
    · cases ha
    · cases ha
  | settle | closed | closeNone | prepareLate | verifyLate =>
    exact (h.pop (by simp)).planPlain _ (by simp) (by simp)
  | gone | quiesced | settled | detached | dead | removed | asleep | unprepared | unverified
  | retired | abortLate => exact h.pop (by simp)

end Typed
end Orchestra
