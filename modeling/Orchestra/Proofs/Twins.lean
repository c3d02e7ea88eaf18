/-
  Twins: two runs, one in which calls fail and one in which they are declined.

  A site that fails and a site that declines both leave their caller without an answer.  `Host.hush`
  turns every failure of a host into a decline and changes nothing else.  A TWIN of a state is what
  the run comes to with the hushed host: the same records, queues, clocks and counters, the same
  world and the same publications, with the messages and the log hushed.  Only the diagnostics, that
  is the reports and the count of failures, are its own.

  For that the diagnostics must be apart from the world, which `Host.diagnosed` sees to: it takes
  reports without letting the host know.  Then twins stay twins in every turn (`Twin.turn`), because
  whatever a step or a chore does reads none of the things in which they differ.
-/
import Orchestra.Proofs.Actions
import Orchestra.Proofs.Run

namespace Orchestra

open Engine List

variable {ω ρ : Type} {host : Host ω} {reg : Region} {tok' : Token} {t : TokenId}

/-! ## Declines in place of failures -/

/-- The answer with a decline in place of a failure. -/
def Reply.hush : Reply → Reply
  | .fail _ => .halt
  | reply => reply

/-- The message with a decline in place of a failure. -/
def Message.hush : Message → Message
  | .returned t reply => .returned t reply.hush
  | message => message

/-- The entry of a log with the message hushed. -/
def Entry.hush : Entry → Entry
  | .sent message => .sent message.hush
  | entry => entry

/-- The effect with another answer and with its mail hushed. -/
def Effect.hush (effect : Effect ω ρ) (f : ρ → ρ) : Effect ω ρ where
  answer := f effect.answer
  world := effect.world
  mail := effect.mail.map Message.hush

/-- The host that declines whenever `h` fails, and otherwise does what `h` does. -/
def Host.hush (h : Host ω) : Host ω where
  call site args w := (h.call site args w).hush Reply.hush
  launch site args t w := (h.launch site args t w).hush id
  transact site args scope w :=
    (h.transact site args scope w).hush fun verdict => { verdict with reply := verdict.reply.hush }
  ready c s t w := (h.ready c s t w).hush id
  confirm := h.confirm
  rollback := h.rollback
  publish := h.publish
  report := h.report
  yield w := (h.yield w).hush id
  await w := (h.await w).map fun effect => effect.hush id

/-! ## Diagnostics -/

/-- A world with what was published and with the failures that were reported, the oldest first. -/
structure Diagnosed (ω : Type) where
  world : ω
  published : List Publication := []
  reports : List Failure := []

/-- The effect, with publications and reports as they were. -/
def Effect.diagnosed (effect : Effect ω ρ) (d : Diagnosed ω) : Effect (Diagnosed ω) ρ where
  answer := effect.answer
  world := { d with world := effect.world }
  mail := effect.mail

/-- The host that does what `h` does and keeps what is published and reported.  The world of `h`
    does not learn of failures. -/
def Host.diagnosed (h : Host ω) : Host (Diagnosed ω) where
  call site args d := (h.call site args d.world).diagnosed d
  launch site args t d := (h.launch site args t d.world).diagnosed d
  transact site args scope d := (h.transact site args scope d.world).diagnosed d
  ready c s t d := (h.ready c s t d.world).diagnosed d
  confirm c s d := { d with world := h.confirm c s d.world }
  rollback c s d := { d with world := h.rollback c s d.world }
  publish p d := { d with world := h.publish p d.world, published := d.published ++ [p] }
  report f d := { d with reports := d.reports ++ [f] }
  yield d := (h.yield d.world).diagnosed d
  await d := (h.await d.world).map fun effect => effect.diagnosed d

/-! ## Twins -/

/-- The world with other reports and with its log hushed. -/
def Logged.echo (w : Logged (Diagnosed ω)) (reports : List Failure) : Logged (Diagnosed ω) where
  world := { w.world with reports }
  log := w.log.map Entry.hush

/-- The effect with another answer, with other reports, and with log and mail hushed. -/
def Effect.echo (x : Effect (Logged (Diagnosed ω)) ρ) (f : ρ → ρ) (reports : List Failure) :
    Effect (Logged (Diagnosed ω)) ρ where
  answer := f x.answer
  world := x.world.echo reports
  mail := x.mail.map Message.hush

/-- The state with log and mail hushed, and with other diagnostics. -/
def Engine.twin (e : Engine (Logged (Diagnosed ω))) (reports : List Failure) (failures : Nat) :
    Engine (Logged (Diagnosed ω)) :=
  { e with
    world := e.world.echo reports
    inbox := e.inbox.map Message.hush
    stats := { e.stats with failures } }

/-- The second state is that of the first one, up to failures that have become declines. -/
def Twin (e e' : Engine (Logged (Diagnosed ω))) : Prop :=
  ∃ reports failures, e' = e.twin reports failures

/-- A world that is watched: reports are kept apart from it, and there is a log. -/
abbrev Watched (ω : Type) : Type := Logged (Diagnosed ω)

/-- The host that keeps reports apart and writes a log. -/
abbrev Host.watched (h : Host ω) : Host (Watched ω) := h.diagnosed.logged

/-! ## The hushed host -/

section Echo

variable {w : Watched ω} (fs : List Failure)

theorem Effect.logged_echo (x : Effect ω ρ) (f : ρ → ρ) (d : Diagnosed ω) (log : List Entry) :
    ((x.hush f).diagnosed { d with reports := fs }).logged (log.map Entry.hush) =
      ((x.diagnosed d).logged log).echo f fs := by
  have hsent : (x.mail.map Entry.sent).map Entry.hush = (x.mail.map Message.hush).map Entry.sent := by
    rw [map_map, map_map]
    rfl
  grind [logged, diagnosed, hush, echo, Logged.echo]

section

variable (site : Site) (args : List Value)

theorem Host.call_echo :
    host.hush.watched.call site args (w.echo fs) =
      (host.watched.call site args w).echo Reply.hush fs :=
  Effect.logged_echo ..

theorem Host.launch_echo (t : TokenId) :
    host.hush.watched.launch site args t (w.echo fs) =
      (host.watched.launch site args t w).echo id fs := by
  have hcalls : ∀ b : Bool, (if b = true then [Entry.launched t] else []).map Entry.hush =
      if b = true then [.launched t] else [] := by
    intro b
    cases b <;> rfl
  refine Eq.trans ?_ (Effect.logged_echo fs (host.launch site args t w.world.world) id w.world _)
  rw [map_append, hcalls]
  rfl

theorem Host.transact_echo (scope : Option Scope) :
    host.hush.watched.transact site args scope (w.echo fs) =
      (host.watched.transact site args scope w).echo
        (fun verdict => { verdict with reply := verdict.reply.hush }) fs := by
  refine Eq.trans ?_
    (Effect.logged_echo fs (host.transact site args scope w.world.world) _ w.world _)
  rw [map_append]
  cases scope <;> rfl

end

theorem Host.ready_echo (c : CohortId) (s : Scope) (t : TokenId) :
    host.hush.watched.ready c s t (w.echo fs) =
      (host.watched.ready c s t w).echo id fs := by
  refine Eq.trans ?_ (Effect.logged_echo fs (host.ready c s t w.world.world) id w.world _)
  rw [map_append]
  rfl

theorem Host.confirm_echo (c : CohortId) (s : Scope) :
    host.hush.watched.confirm c s (w.echo fs) =
      (host.watched.confirm c s w).echo fs := by
  show Logged.mk _ (w.log.map Entry.hush ++ [.confirmed c s]) =
    Logged.mk _ ((w.log ++ [Entry.confirmed c s]).map Entry.hush)
  rw [map_append]
  rfl

theorem Host.rollback_echo (c : CohortId) (s : Scope) :
    host.hush.watched.rollback c s (w.echo fs) =
      (host.watched.rollback c s w).echo fs := by
  show Logged.mk _ (w.log.map Entry.hush ++ [.rolledBack c s]) =
    Logged.mk _ ((w.log ++ [Entry.rolledBack c s]).map Entry.hush)
  rw [map_append]
  rfl

theorem Host.yield_echo : host.hush.watched.yield (w.echo fs) =
    (host.watched.yield w).echo id fs :=
  Effect.logged_echo ..

theorem Host.await_echo : host.hush.watched.await (w.echo fs) =
    (host.watched.await w).map fun effect => effect.echo id fs := by
  show (((host.await w.world.world).map _).map _).map _ = (((host.await w.world.world).map _).map _).map _
  cases host.await w.world.world with
  | none => rfl
  | some effect => exact congrArg some (Effect.logged_echo ..)

end Echo

/-! ## Moves that do not ask the host -/

namespace Engine

section Moves

variable {e : Engine (Watched ω)} (fs : List Failure) (k : Nat)

/-- A result of a move, for the twin. -/
def twinned (x : Except Fault (Engine (Watched ω))) (fs : List Failure)
    (k : Nat) : Except Fault (Engine (Watched ω)) :=
  x.map fun e => e.twin fs k

@[simp]
theorem twin_tokens : (e.twin fs k).tokens = e.tokens := rfl

@[simp]
theorem twin_groups : (e.twin fs k).groups = e.groups := rfl

@[simp]
theorem twin_regions : (e.twin fs k).regions = e.regions := rfl

@[simp]
theorem twin_transactions : (e.twin fs k).transactions = e.transactions := rfl

@[simp]
theorem twin_bound : (e.twin fs k).bound = e.bound := rfl

theorem spawn_twin (tok : Token) : (e.twin fs k).spawn tok =
    (e.spawn tok).map fun found => (found.1, found.2.twin fs k) := by
  show (if (e.groupAlive tok.group && e.regionOpen tok.region) = true then _ else _) =
    (if (e.groupAlive tok.group && e.regionOpen tok.region) = true then _ else _ : Option _).map _
  split <;> rfl

theorem spawnReady_twin (tok : Token) : (e.twin fs k).spawnReady tok =
    (e.spawnReady tok).twin fs k := by
  unfold spawnReady
  rw [spawn_twin]
  cases e.spawn tok <;> rfl

theorem leave_twin (r : RegionId) (t : TokenId) : (e.twin fs k).leave r t =
    twinned (e.leave r t) fs k := by
  unfold leave
  rw [twin_regions]
  cases e.regions.get? r with
  | none => rfl
  | some region =>
    dsimp only
    split
    · split <;> rfl
    · rfl

theorem move_twin (t : TokenId) (target : RegionId) : (e.twin fs k).move t target =
    twinned (e.move t target) fs k := by
  unfold move
  rw [twin_tokens, twin_regions]
  cases e.tokens.get? t with
  | none => rfl
  | some tok =>
    dsimp only
    split
    · exact leave_twin (e := (e.onRegion target _).onToken t _) ..
    · rfl

theorem newRegion_twin (parent : RegionId) (kind : RegionKind) :
    (e.twin fs k).newRegion parent kind =
      (e.newRegion parent kind).map fun found => (found.1, found.2.twin fs k) := by
  unfold newRegion
  rw [twin_regions]
  split <;> rfl

theorem proceed_twin (t : TokenId) (node : Nat) : (e.twin fs k).proceed t node =
    twinned (e.proceed t node) fs k := by
  unfold proceed
  rw [twin_tokens]
  split <;> rfl

theorem killToken_twin (t : TokenId) : (e.twin fs k).killToken t =
    twinned (e.killToken t) fs k := by
  unfold killToken
  rw [twin_tokens]
  cases e.tokens.get? t with
  | none => rfl
  | some tok => exact leave_twin (e := ({ e with tokens := _ } : Engine _).onGroup _ _) ..

theorem react_twin (kind : RegionKind) : (e.twin fs k).react kind =
    (e.react kind).twin fs k := by
  cases kind with
  | otherwise published fallback => grind [spawnReady_twin, react]
  | _ => rfl

theorem quiesce_twin (r : RegionId) : (e.twin fs k).quiesce r =
    (e.quiesce r).twin fs k := by
  cases hr : e.regions.get? r with
  | none => simp only [quiesce, twin_regions, hr]
  | some region =>
    rw [quiesce_eq hr, quiesce_eq (e := e.twin fs k) hr, ← react_twin]
    rfl

theorem settle_twin (r : RegionId) : (e.twin fs k).settle r =
    (e.settle r).twin fs k := by
  unfold settle
  rw [twin_regions]
  cases e.regions.get? r with
  | none => rfl
  | some region =>
    dsimp only
    split <;> rfl

theorem detach_twin (parent child : RegionId) : (e.twin fs k).detach parent child =
    twinned (e.detach parent child) fs k := by
  unfold detach
  rw [twin_regions]
  cases e.regions.get? parent with
  | none => rfl
  | some region =>
    dsimp only
    split
    · split <;> rfl
    · rfl

theorem closeRegions_twin (pending : List RegionId) (doomed : List TokenId) :
    (e.twin fs k).closeRegions pending doomed =
      (e.closeRegions pending doomed).twin fs k := by
  cases pending with
  | nil => rfl
  | cons r pending =>
    simp only [closeRegions, twin_regions]
    cases e.regions.get? r <;> rfl

theorem killGroup_twin (g : GroupId) : (e.twin fs k).killGroup g =
    (e.killGroup g).twin fs k := by
  unfold killGroup
  rw [twin_groups]
  cases e.groups.get? g with
  | none => rfl
  | some group =>
    dsimp only
    split <;> rfl

theorem removeGroup_twin (g : GroupId) : (e.twin fs k).removeGroup g =
    (e.removeGroup g).twin fs k := by
  cases hg : e.groups.get? g with
  | none => simp only [removeGroup, twin_groups, hg]
  | some group =>
    rw [removeGroup_forgotten hg, removeGroup_forgotten (e := e.twin fs k) hg]
    rfl

theorem wake_twin (t : TokenId) : (e.twin fs k).wake t =
    (e.wake t).twin fs k := by
  unfold wake
  rw [twin_tokens]
  split <;> rfl

theorem wakeAll_twin (ts : List TokenId) : ts.foldl wake (e.twin fs k) =
    (ts.foldl wake e).twin fs k := by
  induction ts generalizing e with
  | nil => rfl
  | cons t ts ih => grind [wake_twin]

theorem retire_twin (x : TxnId) : (e.twin fs k).retire x =
    (e.retire x).twin fs k := by
  unfold retire
  rw [twin_transactions]
  cases e.transactions.get? x <;> rfl

theorem abort_twin (x : TxnId) : (e.twin fs k).abort x =
    (e.abort x).twin fs k := by
  unfold abort
  rw [twin_transactions]
  cases e.transactions.get? x with
  | none => rfl
  | some txn =>
    dsimp only
    split <;> rfl

theorem park_twin (t : TokenId) (cell : GroupId) : (e.twin fs k).park t cell =
    (e.park t cell).twin fs k := by
  unfold park
  rw [twin_groups]
  split <;> rfl

theorem enlist_twin (scope : Scope) (cohorts : List CohortId) :
    (e.twin fs k).enlist scope cohorts =
      (e.enlist scope cohorts).twin fs k := by
  unfold enlist
  induction scope.lineage generalizing e with
  | nil => rfl
  | cons x xs ih => grind [onTransaction, twin]

theorem look_twin (env : Env) (o : Operand) :
    (e.twin fs k).look env o = e.look env o := rfl

theorem lookAll_twin (env : Env) (os : List Operand) :
    (e.twin fs k).lookAll env os = e.lookAll env os := by
  induction os with
  | nil => rfl
  | cons o os ih =>
    unfold lookAll
    rw [ih]
    rfl

theorem resolve_twin (tok : Token) : (e.twin fs k).resolve tok =
    twinned (e.resolve tok) fs k := by
  unfold resolve
  rw [twin_groups]
  dsimp only
  cases e.groups.get? tok.group with
  | none => rfl
  | some group =>
    dsimp only
    split
    · rw [twin_bound]
      split <;> rfl
    · rfl

theorem enterOtherwise_twin (t : TokenId) (tok : Token) (left right : Nat) :
    (e.twin fs k).enterOtherwise t tok left right =
      twinned (e.enterOtherwise t tok left right) fs k := by
  unfold enterOtherwise
  rw [newRegion_twin]
  cases e.newRegion tok.region _ with
  | error fault => rfl
  | ok found => exact move_twin (e := found.2.plan _) ..

theorem escape_twin (t : TokenId) (tok : Token) (next : Nat) :
    (e.twin fs k).escape t tok next =
      twinned (e.escape t tok next) fs k := by
  unfold escape
  rw [twin_regions]
  split
  · exact move_twin (e := (e.onRegion _ _).plan _) ..
  · rfl

theorem enterAtomic_twin {tok : Token} (body next : Nat) (ht : e.tokens.get? t = some tok)
    (hr : e.regions.get? tok.region = some reg) (hmem : t ∈ reg.tokens) (hpos : 0 < reg.live) :
    (e.twin fs k).enterAtomic t tok body next =
      twinned (e.enterAtomic t tok body next) fs k := by
  rw [enterAtomic_eq ht hr hmem hpos,
    enterAtomic_eq (e := e.twin fs k) ht hr hmem hpos]
  rfl

theorem buffer_twin (t : TokenId) (tok : Token) : (e.twin fs k).buffer t tok =
    twinned (e.buffer t tok) fs k := by
  unfold buffer
  cases tok.txn <;> rfl

end Moves

/-! ## Moves that ask the host -/

section Asking

variable {e e₁ : Engine (Watched ω)} {t : TokenId} {tok : Token} (fs : List Failure)
  (k : Nat)

theorem bind_of_ok {ε α β : Type} {x : Except ε α} {a : α} (h : x = .ok a) (f : α → Except ε β) :
    (x >>= f) = f a := by
  rw [h]
  rfl

theorem absorb_twin (x : Effect (Watched ω) ρ) (f : ρ → ρ) :
    (e.twin fs k).absorb (x.echo f fs) =
      (f (e.absorb x).1, (e.absorb x).2.twin fs k) := by
  grind [absorb, twin, Effect.echo]

section

variable (ht : e.tokens.get? t = some tok)

include ht

/-- A failure of the engine's own happens to the twin too. -/
theorem fail_twin (error : TokenError) :
    (e.twin fs k).fail host.hush.watched t error =
      (e.fail host.watched t error).twin (fs ++ [{ span := tok.span, error }])
        (k + 1) := by
  rw [fail_eq ht, fail_eq (e := e.twin fs k) ht]
  rfl

/-- Where one fails the other declines. -/
theorem decline_twin (error : TokenError) :
    (e.twin fs k).plan [.killToken t] =
      (e.fail host.watched t error).twin fs k := by
  rw [fail_eq ht]
  rfl

theorem answer_twin (site : Site) (next : Nat) (reply : Reply) :
    (e.twin fs k).answer host.hush.watched t site next reply.hush =
      (e.answer host.watched t site next reply).twin fs k := by
  cases reply with
  | publish v => rfl
  | halt => rfl
  | fail error => exact decline_twin fs k ht _

theorem callTimer_twin (site : Site) (clock : Nat) (values : List Value) (next : Nat) :
    Twin (e.callTimer host.watched t site clock values next)
      ((e.twin fs k).callTimer host.hush.watched t site clock values next) := by
  unfold callTimer
  split
  · split
    · exact ⟨fs, k, rfl⟩
    · exact ⟨_, _, fail_twin fs k ht _⟩
  · exact ⟨_, _, fail_twin fs k ht _⟩
  · exact ⟨_, _, fail_twin fs k ht _⟩

theorem callTransactional_twin (site : Site) (values : List Value) (next : Nat) :
    (e.twin fs k).callTransactional host.hush.watched t tok' site values next =
      (e.callTransactional host.watched t tok' site values next).twin fs k := by
  unfold callTransactional
  have hscope : (e.twin fs k).scopeOf tok' = e.scopeOf tok' := rfl
  have hworld : (e.twin fs k).world = e.world.echo fs := rfl
  dsimp only
  rw [hscope, hworld, Host.transact_echo, absorb_twin]
  generalize host.watched.transact site values (e.scopeOf tok') e.world = effect
  have ht' : (e.absorb effect).2.tokens.get? t = some tok := ht
  cases e.scopeOf tok' with
  | none => exact answer_twin fs k ht' ..
  | some scope => grind [enlist_twin, enlist_eq, answer_twin, twin, plan]

/-- A call of a site keeps twins. -/
theorem callSite_twin (site : Site) (args : List Operand) (next : Nat)
    (he₁ : e.callSite host.watched t tok' site args next = .ok e₁) :
    ∃ e₁', (e.twin fs k).callSite host.hush.watched t tok' site args next =
      .ok e₁' ∧ Twin e₁ e₁' := by
  unfold callSite at he₁ ⊢
  obtain ⟨found, hargs, he₁⟩ := bind_ok he₁
  rw [bind_of_ok ((lookAll_twin ..).trans hargs)]
  cases found with
  | error c =>
    cases he₁
    exact ⟨_, rfl, fs, k, park_twin ..⟩
  | ok values =>
    dsimp only at he₁ ⊢
    have hcount : (e.twin fs k).count (fun s => { s with siteCalls := s.siteCalls + 1 }) =
      (e.count fun s => { s with siteCalls := s.siteCalls + 1 }).twin fs k := rfl
    rw [hcount]
    have ht : (e.count fun s => { s with siteCalls := s.siteCalls + 1 }).tokens.get? t =
      some tok := ht
    generalize (e.count fun s => { s with siteCalls := s.siteCalls + 1 }) = e at he₁ ht ⊢
    have hworld : (e.twin fs k).world = e.world.echo fs := rfl
    split at he₁
    · cases he₁
      rw [hworld, Host.call_echo, absorb_twin]
      exact ⟨_, rfl, fs, k, answer_twin (e := (e.absorb _).2) fs k ht ..⟩
    · rw [hworld, Host.launch_echo, absorb_twin]
      generalize host.watched.launch site values t e.world = effect at he₁ ⊢
      have ht' : (e.absorb effect).2.tokens.get? t = some tok := ht
      dsimp only [id] at he₁ ⊢
      split at he₁
      · rename_i htaken
        cases he₁
        rw [if_pos htaken]
        exact ⟨_, rfl, fs, k, rfl⟩
      · rename_i htaken
        cases he₁
        rw [if_neg htaken]
        exact ⟨_, rfl, _, _, fail_twin fs k ht' _⟩
    · cases he₁
      exact ⟨_, rfl, fs, k, callTransactional_twin fs k ht ..⟩
    · cases he₁
      exact ⟨_, rfl, callTimer_twin fs k ht ..⟩

end

/-- A call of a closure keeps twins; no host is asked. -/
theorem callClosure_twin (ht : e.tokens.get? t = some tok) (group member : Nat) (captured : Env)
    (args : List Operand) (next : Nat) (tail : Bool) {e₁ : Engine (Watched ω)}
    (he₁ : e.callClosure host.watched t tok' group member captured args next tail = .ok e₁) :
    ∃ e₁', (e.twin fs k).callClosure host.hush.watched t tok' group member
      captured args next tail = .ok e₁' ∧ Twin e₁ e₁' := by
  unfold callClosure at he₁ ⊢
  obtain ⟨defs, hdefs, he₁⟩ := bind_ok he₁
  rw [bind_of_ok (x := (e.twin fs k).groupDefs group) hdefs]
  split at he₁
  · cases he₁
  · rename_i d hd
    split at he₁
    · rename_i harity
      cases he₁
      rw [if_pos harity]
      exact ⟨_, rfl, _, _, fail_twin fs k ht _⟩
    · rename_i harity
      rw [if_neg harity]
      obtain ⟨bindings, hargs, he₁⟩ := bind_ok he₁
      rw [bind_of_ok hargs]
      have hproceed := proceed_twin fs k
        (e := (e.count fun s => { s with
          calls := s.calls + 1, tailCalls := s.tailCalls + if tail then 1 else 0 }).onToken t
          fun token => { token with
            env := bindings.reverse ++ bindGroup group defs captured
            stack := if tail then token.stack else ⟨next, token.env⟩ :: token.stack }) t d.entry
      rw [he₁] at hproceed
      exact ⟨_, hproceed, fs, k, rfl⟩

theorem call_twin (ht : e.tokens.get? t = some tok) (target : Operand) (args : List Operand)
    (next : Nat) (tail : Bool) (span : Span)
    (he₁ : e.call host.watched t tok target args next tail span = .ok e₁) :
    ∃ e₁', (e.twin fs k).call host.hush.watched t tok target args next tail
      span = .ok e₁' ∧ Twin e₁ e₁' := by
  unfold call at he₁ ⊢
  have ht' : (e.onToken t fun token => { token with span }).tokens.get? t =
      some { tok with span } := by
    rw [onToken_eq ht, get?_becomes ht, if_pos rfl]
  generalize hspan : (e.onToken t fun token => { token with span }) = e₂ at he₁ ht'
  have hspan' : (e.twin fs k).onToken t (fun token => { token with span }) =
      e₂.twin fs k := by rw [← hspan]; rfl
  rw [hspan']
  obtain ⟨seen, hseen, he₁⟩ := bind_ok he₁
  rw [bind_of_ok ((look_twin ..).trans hseen)]
  split at he₁
  · cases he₁
    exact ⟨_, rfl, fs, k, park_twin ..⟩
  · simp_all [callClosure_twin]
  · simp_all [callSite_twin]
  · cases he₁
    exact ⟨_, rfl, _, _, fail_twin fs k ht' _⟩

theorem fork_twin (ht : e.tokens.get? t = some tok) (left right : Nat)
    (he₁ : e.fork host.watched t tok' left right = .ok e₁) :
    ∃ e₁', (e.twin fs k).fork host.hush.watched t tok' left right = .ok e₁' ∧
      Twin e₁ e₁' := by
  unfold fork at he₁ ⊢
  have hcap : (e.twin fs k).atCapacity = e.atCapacity := rfl
  rw [hcap]
  split at he₁
  · cases he₁
    exact ⟨_, rfl, _, _, fail_twin fs k ht _⟩
  · have hspawn := spawnReady_twin (e := e.forked) fs
      k (tok'.forkAt right)
    have hproceed := proceed_twin fs k t left (e := e.forked.spawnReady (tok'.forkAt right))
    rw [he₁, ← hspawn] at hproceed
    exact ⟨_, hproceed, fs, k, rfl⟩

/-- A cell is founded for both under the same key. -/
theorem subgoal_twin (ht : e.tokens.get? t = some tok) (hr : e.regions.get? tok.region = some reg)
    (left right : Nat) (he₁ : e.subgoal host.watched t tok left right = .ok e₁) :
    ∃ e₁', (e.twin fs k).subgoal host.hush.watched t tok left right =
      .ok e₁' ∧ Twin e₁ e₁' := by
  have hcap : (e.twin fs k).atCapacity = e.atCapacity := rfl
  cases hfull : e.atCapacity with
  | some limit =>
    unfold subgoal at he₁ ⊢
    rw [hcap]
    rw [hfull] at he₁ ⊢
    cases he₁
    exact ⟨_, rfl, _, _, fail_twin fs k ht _⟩
  | none =>
    obtain ⟨e₂, hs, heq⟩ := subgoal_eq host.watched t left right hfull hr
    obtain ⟨e₂', hs', heq'⟩ := subgoal_eq (e := e.twin fs k)
      host.hush.watched t left right (hcap.trans hfull) hr
    -- both cells take their first token
    have hspawn := spawn_twin (e := (e.openCell tok.group tok.region).forked) fs k
      (e.cellToken tok right)
    rw [hs] at hspawn
    obtain rfl : e₂' = e₂.twin fs k := by grind [twin, count, openCell, cellToken]
    have hproceed := proceed_twin fs k t left (e := (e₂.enqueue e.tokens.next).onToken t
      fun token => { token with env := .future e.groups.next :: token.env })
    rw [heq] at he₁
    rw [he₁] at hproceed
    exact ⟨_, heq'.trans hproceed, fs, k, rfl⟩

theorem publish_twin (t : TokenId) (v : Value) :
    (e.twin fs k).publish host.hush.watched t v =
      (e.publish host.watched t v).twin fs k := rfl

/-- A step of the twin. -/
theorem execute_twin {m : Charter} (hc : Core m e none) (ht : e.tokens.get? t = some tok)
    {node : Node} (he₁ : e.execute host.watched t tok node = .ok e₁) :
    ∃ e₁', (e.twin fs k).execute host.hush.watched t tok node = .ok e₁' ∧
      Twin e₁ e₁' := by
  obtain ⟨reg, hr, hmem⟩ := hc.census.region_of ht
  have hpos := hc.census.live_pos_of_token hr hmem
  -- the result of a move that does not ask the host
  have plain : ∀ {x x' : Except Fault (Engine (Watched ω))},
      x' = twinned x fs k → x = .ok e₁ → ∃ e₁', x' = .ok e₁' ∧ Twin e₁ e₁' := by
    rintro x x' rfl rfl
    exact ⟨_, rfl, fs, k, rfl⟩
  cases node with
  | stop =>
    cases he₁
    exact ⟨_, rfl, fs, k, rfl⟩
  | load operand next =>
    unfold execute at he₁ ⊢
    dsimp only at he₁ ⊢
    obtain ⟨seen, hseen, he₁⟩ := bind_ok he₁
    rw [bind_of_ok ((look_twin ..).trans hseen)]
    cases seen with
    | value v =>
      cases he₁
      exact ⟨_, rfl, fs, k, rfl⟩
    | pending c =>
      cases he₁
      exact ⟨_, rfl, fs, k, park_twin ..⟩
  | field target name next =>
    unfold execute at he₁ ⊢
    dsimp only at he₁ ⊢
    obtain ⟨seen, hseen, he₁⟩ := bind_ok he₁
    rw [bind_of_ok ((look_twin ..).trans hseen)]
    split at he₁
    · split at he₁
      · cases he₁
        exact ⟨_, rfl, fs, k, rfl⟩
      · cases he₁
        exact ⟨_, rfl, _, _, fail_twin fs k ht _⟩
    · cases he₁
      exact ⟨_, rfl, _, _, fail_twin fs k ht _⟩
    · cases he₁
      exact ⟨_, rfl, fs, k, park_twin ..⟩
  | push next => exact plain (proceed_twin (e := e.onToken t _) ..) he₁
  | unwind count next =>
    unfold execute at he₁ ⊢
    dsimp only at he₁ ⊢
    split at he₁
    · exact plain (proceed_twin (e := e.onToken t _) ..) he₁
    · cases he₁
  | fork left right => exact fork_twin fs k ht left right he₁
  | subgoal left right => exact subgoal_twin fs k ht hr left right he₁
  | resolve => exact plain (resolve_twin ..) he₁
  | otherwise left right => exact plain (enterOtherwise_twin ..) he₁
  | escape next => exact plain (escape_twin ..) he₁
  | atomic body next => exact plain (enterAtomic_twin fs k body next ht hr hmem hpos) he₁
  | buffer => exact plain (buffer_twin ..) he₁
  | declare group next =>
    unfold execute at he₁ ⊢
    dsimp only at he₁ ⊢
    obtain ⟨defs, hdefs, he₁⟩ := bind_ok he₁
    rw [bind_of_ok (x := (e.twin fs k).groupDefs group) hdefs]
    exact plain (proceed_twin (e := e.onToken t _) ..) he₁
  | call target args next tail span =>
    exact call_twin fs k ht target args next tail span he₁
  | ret =>
    unfold execute at he₁ ⊢
    dsimp only at he₁ ⊢
    split at he₁
    · cases he₁
    · exact plain (proceed_twin (e := e.onToken t _) ..) he₁
  | publish =>
    cases he₁
    exact ⟨_, rfl, fs, k, publish_twin ..⟩

theorem askVotes_twin (scope : Scope) (vote : Token) (cohorts : List CohortId) :
    askVotes host.hush.watched scope vote (e.twin fs k) cohorts =
      (askVotes host.watched scope vote e cohorts).twin fs k := by
  induction cohorts generalizing e with
  | nil => rfl
  | cons c cohorts ih => grind [spawn_twin, Host.ready_echo, absorb_twin, askVotes, twin]

theorem prepare_twin {x : TxnId} (he₁ : e.prepare host.watched x = .ok e₁) :
    (e.twin fs k).prepare host.hush.watched x =
      .ok (e₁.twin fs k) := by
  have hperformed : Performed host.watched e (.prepare x) e₁ := performed he₁
  cases hperformed with
  | unprepared hx => simp only [prepare, twin_transactions, hx]
  | prepareLate hx hstate => grind [prepare, twin, plan]
  | @prepare _ txn _ hx hstate hp =>
    have hvotes : askVotes host.hush.watched txn.scope (txn.vote x e.regions.next)
        ((e.openVotes x txn).twin fs k) txn.cohorts = _ := askVotes_twin ..
    rw [prepare_eq (e := e.twin fs k) hx hstate hp]
    exact congrArg (fun e : Engine _ => Except.ok (e.plan _)) hvotes

theorem confirms_echo (s : Scope) (cohorts : List CohortId) (w : Watched ω) :
    cohorts.foldl (fun w c => host.hush.watched.confirm c s w) (w.echo fs) =
      (cohorts.foldl (fun w c => host.watched.confirm c s w) w).echo fs := by
  induction cohorts generalizing w with
  | nil => rfl
  | cons c cohorts ih => grind [Host.confirm_echo]

theorem verify_twin (x : TxnId) : (e.twin fs k).verify host.hush.watched x =
    (e.verify host.watched x).twin fs k := by
  cases hx : e.transactions.get? x with
  | none => simp only [verify, twin_transactions, hx]
  | some txn =>
    by_cases hstate : txn.state = .readying
    · have hcommitted : (e.twin fs k).committed host.hush.watched x txn =
          (e.committed host.watched x txn).twin fs k := by
        have hworld : txn.cohorts.foldl
            (fun w c => host.hush.watched.confirm c txn.scope w) (e.world.echo fs) = _ :=
          confirms_echo ..
        exact congrArg (fun world : Watched ω =>
          ({ (e.twin fs k).committed host.hush.watched x txn with world } :
            Engine _)) hworld
      rw [verify_eq _ hx hstate, verify_eq (e := e.twin fs k) _ hx hstate, concluded, hcommitted]
      rfl
    · simp only [verify, twin_transactions, hx, if_neg hstate]
      rfl

/-- A chore of the twin. -/
theorem perform_twin {a : Chore} (he₁ : e.perform host.watched a = .ok e₁) :
    (e.twin fs k).perform host.hush.watched a =
      .ok (e₁.twin fs k) := by
  have fallible : ∀ {x x' : Except Fault (Engine (Watched ω))},
      x' = twinned x fs k → x = .ok e₁ → x' = .ok (e₁.twin fs k) := by
    rintro x x' rfl rfl
    rfl
  have certain : ∀ {e₂ e₂' : Engine (Watched ω)},
      e₂' = e₂.twin fs k → (Except.ok e₂ : Except Fault _) = .ok e₁ →
      (Except.ok e₂' : Except Fault _) = .ok (e₁.twin fs k) := by
    rintro e₂ e₂' rfl ⟨⟩
    rfl
  cases a with
  | killToken t => exact fallible (killToken_twin ..) he₁
  | quiesce r => exact certain (quiesce_twin ..) he₁
  | settle r => exact certain (settle_twin ..) he₁
  | detach parent child => exact fallible (detach_twin ..) he₁
  | closeRegions pending doomed => exact certain (closeRegions_twin ..) he₁
  | killGroup g => exact certain (killGroup_twin ..) he₁
  | removeGroup g => exact certain (removeGroup_twin ..) he₁
  | wake t => exact certain (wake_twin ..) he₁
  | prepare x => exact prepare_twin fs k he₁
  | verify x => exact certain (verify_twin ..) he₁
  | retire x => exact certain (retire_twin ..) he₁
  | release k v => exact certain (spawnReady_twin ..) he₁
  | abort x => exact certain (abort_twin ..) he₁
  | rollback c s =>
    have hworld : host.hush.watched.rollback c s (e.world.echo fs) = _ := Host.rollback_echo ..
    exact certain (congrArg (fun world => { e.twin fs k with world }) hworld) he₁
  | proceed t node => exact fallible (proceed_twin ..) he₁
  | enqueue t => exact certain rfl he₁

/-! ## Turns -/

/-- A failure that arrives ends its token, as a decline does. -/
theorem receive_twin (message : Message) :
    (e.twin fs k).receive host.hush.watched message.hush =
      (e.receive host.watched message).twin fs k := by
  cases message with
  | terminate => rfl
  | vetoed t =>
    unfold receive Message.hush
    dsimp only
    rw [twin_tokens]
    cases e.tokens.get? t <;> rfl
  | returned t reply =>
    unfold receive Message.hush
    dsimp only
    rw [twin_tokens]
    cases ht : e.tokens.get? t with
    | none => rfl
    | some tok =>
      cases reply with
      | publish v => rfl
      | halt => rfl
      | fail error => exact decline_twin fs k ht _

theorem tick_twin : (e.twin fs k).tick = e.tick.twin fs k := by
  unfold tick
  exact wakeAll_twin (e := ({ e with clocks := (e.clocks.map Clock.tick).map Prod.snd }).count
    fun s => { s with ticks := s.ticks + 1 }) fs k _

end Asking

end Engine

/-- A turn and that of a twin come to the same: both go on or both end in the same way, as
    twins. -/
inductive TwinProgress :
    Progress (Logged (Diagnosed ω)) → Progress (Logged (Diagnosed ω)) → Prop where
  | next {e e' : Engine (Logged (Diagnosed ω))} (h : Twin e e') : TwinProgress (.next e) (.next e')
  | ended {how : Ending} {e e' : Engine (Logged (Diagnosed ω))} (h : Twin e e') :
    TwinProgress (.ended how e) (.ended how e')

theorem TwinProgress.state {p p' : Progress (Watched ω)} (h : TwinProgress p p') :
    Twin p.state p'.state := by
  cases h with
  | next h => exact h
  | ended h => exact h

variable {e e' : Engine (Watched ω)}

/-- Twins tick together. -/
theorem Engine.idle_twin (fs : List Failure) (k : Nat) :
    TwinProgress (e.idle host.watched)
      ((e.twin fs k).idle host.hush.watched) := by
  unfold idle
  have hdrop : (e.twin fs k).dropDeadTimers = e.dropDeadTimers.twin fs k :=
    rfl
  rw [hdrop]
  generalize e.dropDeadTimers = e
  have hworld : ∀ e : Engine (Watched ω),
    (e.twin fs k).world = e.world.echo fs := fun _ => rfl
  have hclocks : (e.twin fs k).clocks = e.clocks := rfl
  dsimp only
  rw [hclocks]
  split
  · rw [hworld, Host.await_echo]
    cases host.watched.await e.world with
    | none => exact .ended ⟨fs, k, rfl⟩
    | some effect => exact .next ⟨fs, k, congrArg Prod.snd (absorb_twin ..)⟩
  · rw [tick_twin, hworld, Host.yield_echo]
    exact .next ⟨fs, k, congrArg Prod.snd (absorb_twin ..)⟩

/-- With nothing to do, a token of the queue that is gone or not runnable is passed over. -/
theorem Engine.turn_skip {e : Engine ω} {ready : List TokenId} (ha : e.agenda = [])
    (hh : e.halted = false) (hready : e.ready = t :: ready)
    (hskip : ∀ tok, e.tokens.get? t = some tok → tok.phase ≠ .runnable) :
    e.turn host = .ok (.next { e with ready }) := by
  have hdispatch : { e with ready }.dispatch host t = .ok { e with ready } := by grind [dispatch]
  cases e
  cases ha
  cases hh
  cases hready
  show (dispatch host _ t >>= fun e => pure (Progress.next e)) = _
  rw [hdispatch]
  rfl

/-- Twins stay twins. -/
theorem Twin.turn {m : Charter} (h : Twin e e') (hc : Coherent m e)
    {p : Progress (Watched ω)} (hp : e.turn host.watched = .ok p) :
    ∃ p', e'.turn host.hush.watched = .ok p' ∧ TwinProgress p p' := by
  obtain ⟨fs, k, rfl⟩ := h
  cases turned hp with
  | chore he he' =>
    subst he
    have hperform := perform_twin fs k he'
    exact ⟨_, turn_plan hperform, .next ⟨fs, k, rfl⟩⟩
  | done ha hh =>
    refine ⟨_, ?_, .ended ⟨fs, k, rfl⟩⟩
    simp_all [Engine.turn, Engine.twin]
  | @skip t ready ha hh hready hskip =>
    refine ⟨_, ?_, .next ⟨fs, k, rfl⟩⟩
    exact turn_skip (e := e.twin fs k) ha hh hready hskip
  | @step _ _ ready _ _ ha hh hready ht hphase hnode he' =>
    have hcore := hc.taken ha ready
    obtain ⟨e₁', hstep, htwin⟩ := execute_twin fs k hcore ht he'
    refine ⟨_, ?_, .next htwin⟩
    grind [turn_step, Engine.twin, taken, Engine.count]
  | @message message inbox ha hh hready hinbox =>
    have hreceive : ({ e with inbox }.twin fs k).receive host.hush.watched
        message.hush = _ := receive_twin ..
    refine ⟨_, ?_, .next ⟨fs, k, hreceive⟩⟩
    grind [Engine.turn, Engine.twin]
  | idle ha hh hready hinbox => grind [idle_twin, Engine.turn, Engine.twin]

/-! ## Runs -/

/-- The same message reaches the twin, up to a failure that has become a decline. -/
theorem Twin.deliver (h : Twin e e') (message : Message) :
    Twin (e.deliver message) (e'.deliver message.hush) := by
  obtain ⟨fs, k, rfl⟩ := h
  refine ⟨fs, k, ?_⟩
  grind [Engine.deliver, Engine.twin, Logged.echo, Entry.hush]

/-- Beside every run goes one of the hushed host, turn by turn and message by message. -/
theorem Run.twin {program : Program} {limit : Option Nat} {world : ω}
    {past : List (Engine (Watched ω))}
    (h : Run host.diagnosed program limit { world } past e) :
    ∃ past' e', Run host.hush.diagnosed program limit { world } past' e' ∧
      List.Forall₂ Twin past past' ∧ Twin e e' := by
  induction h with
  | start => exact ⟨[], _, .start, .nil, [], 0, by rw [opening, start_eq]; rfl⟩
  | turn hrun hp ih =>
    obtain ⟨past', e', hrun', hpast, htwin⟩ := ih
    obtain ⟨m, hc⟩ := hrun.coherent
    obtain ⟨p', hp', hprogress⟩ := htwin.turn hc hp
    refine ⟨_, _, hrun'.turn hp', ?_, hprogress.state⟩
    exact rel_append hpast (.cons htwin .nil)
  | arrive _ message ih =>
    obtain ⟨past', e', hrun', hpast, htwin⟩ := ih
    exact ⟨past', _, hrun'.arrive message.hush, hpast, htwin.deliver message⟩

end Orchestra
