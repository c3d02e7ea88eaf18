/-
  Virtual time.

  A token that calls a timer leaves a REGISTRATION: who waits, on which clock, for how long, and since
  which tick.  The clock keeps no more of it than a deadline and a name, so what a token is entitled
  to is written in the past of the run.  The crux is a BOOK kept beside the clocks (`Booked`), in which
  every timer stands with the turn that has set it.  The page of a clock is sorted by deadline and then
  by turn, and as long as a registered token is there and not due, its entry is on the page.

  * `Engine.timing`    what a turn can do to the clocks: set a timer, drop the timers of tokens that
    are gone, or tick.
  * `Run.synchronous`  all clocks show the number of ticks.
  * `Run.booked`       every run has its book.
-/
import Orchestra.Proofs.Silence
import Orchestra.Proofs.Situations

namespace Orchestra

open Engine List

variable {ω : Type} {m : Charter} {e e' : Engine ω} {host : Host ω} {t : TokenId} {tok : Token}
  {past : History ω} {values : List Value} {clock next : Nat} {limit : Option Nat}
  {program : Program} {p : Progress ω} {site : Site} {delay : UInt64} {world : ω}

/-! ## Registrations -/

/-- A call of a timer: who has made it, on which clock, for how many ticks, and at which tick. -/
structure Registration where
  token : TokenId
  clock : Nat
  delay : Nat
  tick : Nat
deriving DecidableEq

namespace Registration

/-- The tick that the timer is set to. -/
def deadline (r : Registration) : Nat := r.tick + r.delay

/-- The tick at which the token goes on: even without a delay it waits for the next one. -/
def release (r : Registration) : Nat := r.tick + max r.delay 1

/-- The timer that is set. -/
def timer (r : Registration) : Timer TokenId :=
  ⟨Clock.deadlineAfter r.tick.toUInt64 r.delay.toUInt64, r.token⟩

end Registration

/-- What a token registers that calls a site with values at a tick, if the site is a timer. -/
def Site.registration (site : Site) (values : List Value) (t : TokenId) (tick : Nat) :
    Option Registration :=
  match site.mode, values with
  | .timer clock, [.int n] => if 0 ≤ n.toInt then some ⟨t, clock, n.toInt.toNat, tick⟩ else none
  | _, _ => none

theorem Site.registration_eq_some {tick : Nat} {r : Registration}
    (h : site.registration values t tick = some r) :
    r.token = t ∧ r.tick = tick ∧ r.delay < 2 ^ 63 := by
  have hlt : ∀ n : Int64, n.toInt.toNat < 2 ^ 63 := by
    intro n
    have := n.toInt_lt
    omega
  unfold registration at h
  grind

namespace Engine

/-- The registration that a step of a token at a node makes. -/
def registrationAt (e : Engine ω) (t : TokenId) (tok : Token) (node : Node) : Option Registration :=
  (e.request tok node).bind fun call => call.1.registration call.2 t e.stats.ticks

/-- The registration that the next turn makes. -/
def registration (e : Engine ω) : Option Registration :=
  e.stepping.bind fun step => e.registrationAt step.1 step.2.1 step.2.2

/-- Whoever makes a registration takes a step, and does so at the present tick. -/
theorem registration_eq_some {r : Registration} (h : e.registration = some r) :
    (∃ tok node, e.stepping = some (r.token, tok, node)) ∧ r.tick = e.stats.ticks ∧
      r.delay < 2 ^ 63 := by
  obtain ⟨⟨t, tok, node⟩, hstepping, h⟩ := Option.bind_eq_some_iff.1 h
  obtain ⟨⟨site, values⟩, -, h⟩ := Option.bind_eq_some_iff.1 h
  obtain ⟨htoken, htick, hdelay⟩ := Site.registration_eq_some h
  grind

theorem registration_of_not_stepping (h : e.stepping = none) : e.registration = none := by
  unfold registration
  rw [h]
  rfl

/-- The clocks, and how often they have ticked. -/
def time (e : Engine ω) : List (Clock TokenId) × Nat := (e.clocks, e.stats.ticks)

/-- The clocks after a registration, if there was one. -/
def timeAfter (e : Engine ω) : Option Registration → List (Clock TokenId) × Nat
  | some r => (setTimer e.clocks r.clock r.delay.toUInt64 r.token, e.stats.ticks)
  | none => e.time

end Engine

/-! ## What a turn does to the clocks -/

section Frames

theorem Engine.Grown.time (h : e.Grown e') : e'.time = e.time := by
  have hticks := congrArg Stats.ticks h.stats
  exact Prod.ext h.clocks hticks

/-- A chore leaves the clocks alone. -/
theorem Performed.time {a : Chore} (h : Performed host e a e') : e'.time = e.time := by
  cases h with
  | @quiesce r reg =>
    obtain ⟨_, _, hgrown⟩ := e.quiesce_grown r reg
    exact hgrown.time
  | prepare => exact (askVotes_grown (e.openVotes _ _) ..).time
  | release => exact (spawnReady_grown ..).time
  | _ => rfl

/-- So does a message. -/
theorem Received.time {message : Message} (h : Received host e message e') : e'.time = e.time := by
  cases h <;> rfl

theorem Engine.park_time (t : TokenId) (c : GroupId) : (e.park t c).time = e.time := by
  unfold park
  split <;> rfl

theorem Replied.time {reply : Reply} (h : Replied host e t tok site next reply e') :
    e'.time = e.time := by
  cases h <;> rfl

/-- The call of a site leaves the clocks alone unless it sets a timer. -/
theorem Served.time (h : Served host e t tok site values next e') :
    e'.time = e.timeAfter (site.registration values t e.stats.ticks) := by
  have other : (∀ clock, site.mode ≠ .timer clock) →
      site.registration values t e.stats.ticks = none := by simp_all [Site.registration]
  cases h with
  | immediate hmode hreply => rw [other (by simp [hmode]), hreply.time]; rfl
  | outside hmode hscope hreply => rw [other (by simp [hmode]), hreply.time]; rfl
  | inside hmode hscope hreply =>
    rw [other (by simp [hmode]), hreply.time, enlist_eq]
    rfl
  | refused hmode =>
    rw [other (by simp [hmode]), enlist_eq]
    rfl
  | launched hmode | unspawned hmode =>
    rw [other (by simp [hmode])]
    rfl
  | timerFailed hmode hbad =>
    have hnone : site.registration values t e.stats.ticks = none := by
      unfold Site.registration
      grind
    rw [hnone]
    rfl
  | timer hmode hvalues hn =>
    subst hvalues
    simp only [Site.registration, hmode, if_pos hn]
    rfl

/-- A step leaves the clocks alone unless it is the call of a timer. -/
theorem Executed.time {node : Node} (h : Executed host e t tok node e') :
    e'.time = e.timeAfter (e.registrationAt t tok node) := by
  cases h with
  | loadPending | fieldPending => exact park_time ..
  | @fork left right => exact (spawnReady_grown (e.count _) (tok.forkAt right)).time
  | @subgoal left right e₁ hcap hs =>
    have htime := (spawn_grown hs).time
    exact htime
  | @call target args next tail span e' hcalled =>
    -- the token is looked at with the span of the call, which makes no difference
    have hbound : (e.becomes t { tok with span }).bound = e.bound := rfl
    have hrequest := request_congr hbound { tok with span } (.call target args next tail span)
    have hat : e.registrationAt t tok (.call target args next tail span) =
        ((e.becomes t { tok with span }).request { tok with span }
          (.call target args next tail span)).bind fun call =>
            call.1.registration call.2 t e.stats.ticks := by
      rw [hrequest]
      rfl
    rw [hat]
    unfold request
    cases hcalled with
    | pending hc =>
      simp only [hc]
      exact park_time ..
    | uncallable hv hclosure hsite =>
      simp only [hv]
      split
      · grind
      · rfl
    | mismatch hv =>
      simp only [hv]
      rfl
    | enter hv =>
      simp only [hv]
      rfl
    | argPending hv hargs =>
      simp only [hv, hargs]
      exact park_time ..
    | site hv hargs hserved =>
      simp only [hv, hargs]
      exact hserved.time
  | _ => rfl

end Frames

/-- What a turn from `e` to `e'` can do to the clocks. -/
inductive Timing (e e' : Engine ω) : Prop where
  /-- At most one timer is set. -/
  | goes (htime : e'.time = e.timeAfter e.registration)
  /-- Before the engine waits for the world outside, it drops what nobody waits for. -/
  | drops (hnone : e.registration = none) (hclocks : e'.clocks = e.dropDeadTimers.clocks)
    (hticks : e'.stats.ticks = e.stats.ticks)
  /-- With nothing else to do, the clocks tick. -/
  | ticks (hnone : e.registration = none) (ha : e.agenda = []) (hready : e.ready = [])
    (hinbox : e.inbox = []) (hbusy : e.dropDeadTimers.clocks.all Clock.isIdle = false)
    (hclocks : e'.clocks = (e.dropDeadTimers.clocks.map Clock.tick).map Prod.snd)
    (hticks : e'.stats.ticks = e.stats.ticks + 1)
    (hqueue : e'.ready = e.dropDeadTimers.due.filter e.tokens.contains)
    (htokens : ∀ v, e'.tokens.get? v = if v ∈ e.dropDeadTimers.due then
      (e.tokens.get? v).map Token.woken else e.tokens.get? v)

theorem Timing.of_time (hnone : e.stepping = none) (htime : e'.time = e.time) : Timing e e' := by
  refine .goes ?_
  rw [registration_of_not_stepping hnone]
  exact htime

/-- The count of ticks goes up by a tick only. -/
theorem Timing.ticks_eq (h : Timing e e') : e'.stats.ticks = e.stats.ticks ∨
    e'.stats.ticks = e.stats.ticks + 1 ∧ e.agenda = [] ∧ e.ready = [] ∧ e.inbox = [] ∧
      e.dropDeadTimers.clocks.all Clock.isIdle = false ∧
      e'.ready = e.dropDeadTimers.due.filter e.tokens.contains ∧
      ∀ v, e'.tokens.get? v = if v ∈ e.dropDeadTimers.due then
        (e.tokens.get? v).map Token.woken else e.tokens.get? v := by
  cases h with
  | goes htime =>
    refine .inl ((congrArg Prod.snd htime).trans ?_)
    cases e.registration <;> rfl
  | drops _ _ hticks => exact .inl hticks
  | ticks _ ha hready hinbox hbusy _ hticks hqueue htokens => grind

/-- With nothing else to do, timers are dropped, or the clocks tick. -/
theorem Idled.timing (h : Idled host e p) (ha : e.agenda = []) (hready : e.ready = [])
    (hinbox : e.inbox = []) : Timing e p.state := by
  have hnone := registration_of_not_stepping (stepping_of_empty hready)
  cases h with
  | await | stuck => exact .drops hnone rfl rfl
  | tick hbusy =>
    have heq : e.dropDeadTimers.tick = _ := wakeAll_eq _ e.dropDeadTimers.due
    refine .ticks hnone ha hready hinbox hbusy ?_ ?_ ?_ (tick_token _)
    · show e.dropDeadTimers.tick.clocks = _
      rw [heq]
      rfl
    · show e.dropDeadTimers.tick.stats.ticks = _
      rw [heq]
      rfl
    · show e.dropDeadTimers.tick.ready = _
      grind [Engine.dropDeadTimers, Engine.count]

/-- Every turn treats the clocks in one of these ways. -/
theorem Engine.timing (hc : Coherent m e) (hp : e.turn host = .ok p) : Timing e p.state := by
  cases turned hp with
  | chore he he' =>
    subst he
    have htime := (performed he').time
    exact .of_time (stepping_of_chore rfl) htime
  | done _ hh => exact .of_time (stepping_of_halted hh) rfl
  | skip _ _ hready hskip => exact .of_time (stepping_of_skip hready hskip) rfl
  | @step t tok ready node e' ha hh hready ht hphase hnode he' =>
    have hcore := hc.taken ha ready
    have htime := (executed hcore ht he').time
    have hat : (e.taken ready).registrationAt t tok node = e.registration := by
      have hbound : (e.taken ready).bound = e.bound := rfl
      unfold registrationAt registration
      rw [request_congr hbound, stepping_of_step ha hh hready ht hphase hnode]
      rfl
    rw [hat] at htime
    refine .goes (htime.trans ?_)
    cases e.registration <;> rfl
  | @message message inbox ha hh hready hinbox =>
    have htime := (received host { e with inbox } message).time
    exact .of_time (stepping_of_empty hready) htime
  | idle ha hh hready hinbox => exact (e.idled host).timing ha hready hinbox

/-! ## One time for all clocks -/

/-- All clocks show the number of ticks, and there is at least one clock. -/
structure Synchronous (e : Engine ω) : Prop where
  some : e.clocks ≠ []
  now : ∀ c ∈ e.clocks, c.now = e.stats.ticks.toUInt64

namespace Synchronous

/-- A clock that is new shows the number of ticks, too. -/
theorem setTimer (h : Synchronous e) (hclocks : e'.clocks = Engine.setTimer e.clocks clock delay t)
    (hticks : e'.stats.ticks = e.stats.ticks) : Synchronous e' := by
  obtain ⟨c₀, cs, heq⟩ := exists_cons_of_ne_nil h.some
  -- a clock that comes into being shows what the first one shows
  have hfirst : (e.clocks.head?.map Clock.now).getD 0 = e.stats.ticks.toUInt64 := by grind [now]
  unfold Engine.setTimer at hclocks
  rw [hfirst] at hclocks
  refine ⟨?_, fun c hc => ?_⟩
  · grind
  · rw [hclocks] at hc
    obtain ⟨i, hi⟩ := mem_iff_getElem?.1 hc
    rw [getElem?_modify] at hi
    obtain ⟨c₁, hc₁, rfl⟩ := Option.map_eq_some_iff.1 hi
    have hnow : c₁.now = e.stats.ticks.toUInt64 := by
      rcases mem_append.1 (mem_of_getElem? hc₁) with hold | hnew
      · exact h.now c₁ hold
      · rw [eq_of_mem_replicate hnew]
        rfl
    rw [hticks, ← hnow]
    split <;> rfl

theorem dropDeadTimers (h : Synchronous e) : Synchronous e.dropDeadTimers := by
  refine ⟨by simpa [Engine.dropDeadTimers] using h.some, fun c hc => ?_⟩
  obtain ⟨c₀, hc₀, rfl⟩ := mem_map.1 hc
  exact h.now c₀ hc₀

theorem congr (h : Synchronous e) (hclocks : e'.clocks = e.clocks)
    (hticks : e'.stats.ticks = e.stats.ticks) : Synchronous e' :=
  ⟨hclocks ▸ h.some, hclocks ▸ hticks ▸ h.now⟩

theorem timing (h : Synchronous e) (hturn : Timing e e') : Synchronous e' := by
  cases hturn with
  | goes htime =>
    cases hr : e.registration with
    | none =>
      rw [hr] at htime
      exact h.congr (congrArg Prod.fst htime) (congrArg Prod.snd htime)
    | some r =>
      rw [hr] at htime
      exact h.setTimer (congrArg Prod.fst htime) (congrArg Prod.snd htime)
  | drops _ hclocks hticks => exact h.dropDeadTimers.congr hclocks hticks
  | ticks _ _ _ _ _ hclocks hticks =>
    rw [map_map] at hclocks
    refine ⟨by simpa [hclocks] using h.dropDeadTimers.some, fun c hc => ?_⟩
    rw [hclocks] at hc
    obtain ⟨c₀, hc₀, rfl⟩ := mem_map.1 hc
    show c₀.now + 1 = _
    rw [h.dropDeadTimers.now c₀ hc₀, hticks]
    exact (UInt64.ofNat_add _ _).symm

end Synchronous

/-- In every run all clocks show the number of ticks. -/
theorem Run.synchronous {e : Engine (Logged ω)} (h : Run host program limit world past e) :
    Synchronous e := by
  induction h with
  | start =>
    have htime : (opening program limit world).time = ([{}], 0) :=
      (opening_grown ..).time
    have hclocks : (opening program limit world).clocks = [{}] := congrArg Prod.fst htime
    have hticks : (opening program limit world).stats.ticks = 0 := congrArg Prod.snd htime
    refine ⟨by simp [hclocks], fun c hc => ?_⟩
    simp_all
  | turn hrun hp ih =>
    obtain ⟨m, hc⟩ := hrun.coherent
    exact ih.timing (Engine.timing hc hp)
  | arrive _ _ ih => exact ⟨ih.some, ih.now⟩

/-! ## Deadlines -/

theorem toNat_toUInt64 {n : Nat} (h : n < 2 ^ 64) : n.toUInt64.toNat = n := by
  grind [UInt64.toNat_ofNat']

/-- A deadline that a clock can show is what the timer is set to. -/
theorem Registration.toNat_deadline {r : Registration} (hdelay : r.delay < 2 ^ 63)
    (hfits : r.deadline < 2 ^ 64) : r.timer.deadline.toNat = r.deadline := by
  unfold deadline at hfits
  have htick : r.tick.toUInt64.toNat = r.tick := toNat_toUInt64 (by omega)
  have hd : r.delay.toUInt64.toNat = r.delay := toNat_toUInt64 (by omega)
  unfold timer Clock.deadlineAfter
  rw [htick, hd, if_pos (show _ < UInt64.size from hfits), UInt64.toNat_add, htick, hd]
  exact Nat.mod_eq_of_lt hfits

/-- Before its tick has come, a timer is not due at the next one unless that is its tick. -/
theorem Registration.due_iff {r : Registration} (hdelay : r.delay < 2 ^ 63)
    (hfits : r.deadline < 2 ^ 64) {now : Nat} (hfrom : r.tick ≤ now) (hnow : now < r.release)
    (hshown : now + 1 < 2 ^ 64) :
    r.timer.deadline ≤ now.toUInt64 + 1 ↔ now + 1 = r.release := by
  grind [UInt64.toNat_add, toNat_toUInt64, UInt64.le_iff_toNat_le, toNat_deadline, deadline,
    release]

/-! ## The book -/

/-- A timer with the turn in which it was set. -/
structure Booking where
  timer : Timer TokenId
  turn : Nat

namespace Booking

/-- The order of a page: by deadline, and for equal deadlines by turn. -/
def Before (a b : Booking) : Prop :=
  a.timer.deadline.toNat < b.timer.deadline.toNat ∨
    a.timer.deadline.toNat = b.timer.deadline.toNat ∧ a.turn < b.turn

theorem Before.asymm {a b : Booking} (h : a.Before b) : ¬b.Before a := by
  unfold Before at *
  omega

/-- A timer that is set later than all on a page goes where the order wants it. -/
theorem insert {page : List Booking} (hsorted : page.Pairwise Before) (new : Booking)
    (hnew : ∀ b ∈ page, b.turn < new.turn) :
    ∃ page' : List Booking, page'.map timer = Clock.insertTimer new.timer (page.map timer) ∧
      page'.Pairwise Before ∧ ∀ b, b ∈ page' ↔ b = new ∨ b ∈ page := by
  induction page with
  | nil => exact ⟨[new], rfl, pairwise_singleton .., by simp⟩
  | cons a page ih =>
    obtain ⟨hfirst, hrest⟩ := pairwise_cons.1 hsorted
    have ha := hnew a mem_cons_self
    rw [map_cons]
    unfold Clock.insertTimer
    by_cases hle : a.timer.deadline ≤ new.timer.deadline
    · obtain ⟨page', hmap, hpage', hmem⟩ := ih hrest fun b hb => hnew b (mem_cons_of_mem _ hb)
      rw [if_pos hle]
      refine ⟨a :: page', by rw [map_cons, hmap],
        pairwise_cons.2 ⟨fun b hb => ?_, hpage'⟩, fun b => ?_⟩
      · grind [UInt64.le_iff_toNat_le, Before]
      · grind
    · rw [if_neg hle]
      refine ⟨new :: a :: page, rfl, pairwise_cons.2 ⟨fun b hb => ?_, hsorted⟩, by simp⟩
      grind [UInt64.lt_iff_toNat_lt, UInt64.not_le, Before]

/-- On a sorted page what is due stands before what is not. -/
theorem mem_due {page : List Booking} (hsorted : page.Pairwise Before) {b : Booking} (hb : b ∈ page)
    {now : UInt64} (hdue : b.timer.deadline ≤ now) :
    b ∈ page.takeWhile fun b => b.timer.deadline ≤ now := by
  induction page with
  | nil => cases hb
  | cons a page ih =>
    grind [pairwise_cons, UInt64.le_iff_toNat_le, takeWhile_cons_of_pos, Before]

end Booking

/-- The timers of a clock, none if there is no such clock yet. -/
def Engine.timersOf (e : Engine ω) (k : Nat) : List (Timer TokenId) :=
  ((e.clocks[k]?).map Clock.timers).getD []

section Pages

/-- A timer goes to its own clock, and to no other. -/
theorem Synchronous.timersOf_setTimer (h : Synchronous e)
    (hclocks : e'.clocks = Engine.setTimer e.clocks clock delay t) (k : Nat) :
    e'.timersOf k = if k = clock then
      Clock.insertTimer ⟨Clock.deadlineAfter e.stats.ticks.toUInt64 delay, t⟩ (e.timersOf k)
    else e.timersOf k := by
  obtain ⟨c₀, cs, heq⟩ := exists_cons_of_ne_nil h.some
  have hfirst : (e.clocks.head?.map Clock.now).getD 0 = e.stats.ticks.toUInt64 := by grind [now]
  unfold Engine.setTimer at hclocks
  rw [hfirst] at hclocks
  unfold timersOf
  rw [hclocks, getElem?_modify]
  -- a clock that was not there shows the tick of the others and has no timers
  by_cases hk : k < e.clocks.length
  · grind [now, Clock.schedule]
  · have hle := Nat.not_lt.1 hk
    rw [getElem?_append_right hle, getElem?_eq_none hle, getElem?_replicate]
    by_cases heq : clock = k
    · grind [Clock.schedule, Clock.startingAt]
    · simp only [heq, Ne.symm heq, if_false]
      split <;> rfl

theorem Engine.timersOf_dropDeadTimers (e : Engine ω) (k : Nat) : e.dropDeadTimers.timersOf k =
    (e.timersOf k).filter fun timer => e.tokens.contains timer.payload := by
  unfold timersOf dropDeadTimers
  dsimp only
  rw [getElem?_map]
  cases e.clocks[k]? <;> rfl

theorem Synchronous.timersOf_tick (h : Synchronous e)
    (hclocks : e'.clocks = (e.clocks.map Clock.tick).map Prod.snd) (k : Nat) : e'.timersOf k =
      (e.timersOf k).dropWhile fun timer => timer.deadline ≤ e.stats.ticks.toUInt64 + 1 := by
  unfold timersOf
  rw [hclocks, map_map, getElem?_map]
  cases hk : e.clocks[k]? with
  | none => rfl
  | some c =>
    rw [← h.now c (mem_of_getElem? hk)]
    rfl

end Pages

section Book

variable {e e' : Engine (Logged ω)} {past : History ω} {book : Nat → List Booking}

/-- The book of the clocks. -/
structure Booked (past : History ω) (e : Engine (Logged ω))
    (book : Nat → List Booking) : Prop where
  pages : ∀ k, (book k).map Booking.timer = e.timersOf k
  sorted : ∀ k, (book k).Pairwise Booking.Before
  earlier : ∀ {k b}, b ∈ book k → b.turn < past.length
  /-- Whoever is there and not due has its entry. -/
  kept : ∀ {i e₀ r}, past[i]? = some e₀ → e₀.registration = some r → r.deadline < 2 ^ 64 →
    e.tokens.contains r.token = true → e.stats.ticks < r.release → ⟨r.timer, i⟩ ∈ book r.clock
  elapsed : ∀ {e₀}, e₀ ∈ past →
    e₀.stats.ticks ≤ e.stats.ticks ∧ e₀.tokens.next.index ≤ e.tokens.next.index

/-- What has happened to the tokens from `e` to `e'`: none has come back. -/
structure Tokens (e e' : Engine (Logged ω)) : Prop where
  next : e.tokens.next.index ≤ e'.tokens.next.index
  old : ∀ {v : TokenId}, v.index < e.tokens.next.index → e'.tokens.contains v = true →
    e.tokens.contains v = true

namespace Booked

/-- Who has registered was there then. -/
theorem born (h : Booked past e book) {e₀ : Engine (Logged ω)} (he₀ : e₀ ∈ past) {r : Registration}
    (hr : e₀.registration = some r) : r.token.index < e.tokens.next.index := by
  obtain ⟨⟨tok, node, hstepping⟩, -⟩ := Engine.registration_eq_some hr
  obtain ⟨-, -, -, ht, -⟩ := stepping_eq_some hstepping
  exact Nat.lt_of_lt_of_le (Store.lt_next ht) (h.elapsed he₀).2

/-- The book after a turn, given its pages. -/
theorem turn (h : Booked past e book) (htokens : Tokens e e')
    (hticks : e.stats.ticks ≤ e'.stats.ticks) {book' : Nat → List Booking}
    (hpages : ∀ k, (book' k).map Booking.timer = e'.timersOf k)
    (hsorted : ∀ k, (book' k).Pairwise Booking.Before)
    (hearlier : ∀ {k b}, b ∈ book' k → b.turn < past.length + 1)
    (hold : ∀ {i e₀ r}, past[i]? = some e₀ → e₀.registration = some r → r.deadline < 2 ^ 64 →
      e.tokens.contains r.token = true → e'.stats.ticks < r.release →
      ⟨r.timer, i⟩ ∈ book r.clock → ⟨r.timer, i⟩ ∈ book' r.clock)
    (hnew : ∀ {r}, e.registration = some r → ⟨r.timer, past.length⟩ ∈ book' r.clock) :
    Booked (past ++ [e]) e' book' := by
  refine ⟨hpages, hsorted, fun hb => ?_, fun {i e₀ r} hi hr hfits hthere hbefore => ?_,
    fun {e₀} he₀ => ?_⟩
  · rw [length_append]
    exact hearlier hb
  · rcases Nat.lt_or_ge i past.length with hlt | hge
    · rw [getElem?_append_left hlt] at hi
      have hborn := h.born (mem_of_getElem? hi) hr
      grind [Tokens.old, kept]
    · grind
  · rcases mem_append.1 he₀ with he₀ | he₀
    · obtain ⟨hle, hnext⟩ := h.elapsed he₀
      exact ⟨Nat.le_trans hle hticks, Nat.le_trans hnext htokens.next⟩
    · simp_all [Tokens.next]

section

variable (h : Booked past e book)

include h

/-- A registration is entered. -/
theorem goes (hsync : Synchronous e) (htokens : Tokens e e')
    (htime : e'.time = e.timeAfter e.registration) : ∃ book', Booked (past ++ [e]) e' book' := by
  have hearlier : ∀ {k b}, b ∈ book k → b.turn < past.length + 1 :=
    fun hb => Nat.lt_succ_of_lt (h.earlier hb)
  cases hr : e.registration with
  | none =>
    rw [hr] at htime
    have hclocks : e'.clocks = e.clocks := congrArg Prod.fst htime
    refine ⟨book, h.turn htokens (Nat.le_of_eq (congrArg Prod.snd htime).symm) (fun k => ?_) h.sorted
      hearlier (fun _ _ _ _ _ => id) ?_⟩
    · rw [h.pages, timersOf, timersOf, hclocks]
    · grind
  | some r =>
    rw [hr] at htime
    have hticks : e'.stats.ticks = e.stats.ticks := congrArg Prod.snd htime
    have hclocks : e'.clocks = Engine.setTimer e.clocks r.clock r.delay.toUInt64 r.token :=
      congrArg Prod.fst htime
    have hpage := hsync.timersOf_setTimer hclocks
    obtain ⟨-, htick, -⟩ := Engine.registration_eq_some hr
    obtain ⟨page, hmap, hsorted, hmem⟩ := Booking.insert (h.sorted r.clock)
      ⟨r.timer, past.length⟩ fun b hb => h.earlier hb
    refine ⟨fun k => if k = r.clock then page else book k,
      h.turn htokens (Nat.le_of_eq hticks.symm) (fun k => ?_) (fun k => ?_) (fun {k b} hb => ?_) ?_ ?_⟩
    · grind [pages, Registration.timer]
    · split
      · exact hsorted
      · exact h.sorted k
    · grind
    · grind
    · grind

/-- The page without the entries of those who are gone. -/
theorem pages_live (k : Nat) :
    ((book k).filter fun b => e.tokens.contains b.timer.payload).map Booking.timer =
      e.dropDeadTimers.timersOf k := by
  rw [timersOf_dropDeadTimers, ← h.pages, filter_map]
  rfl

/-- Entries of those who are gone are crossed out. -/
theorem drops (htokens : Tokens e e') (hnone : e.registration = none)
    (hclocks : e'.clocks = e.dropDeadTimers.clocks) (hticks : e'.stats.ticks = e.stats.ticks) :
    ∃ book', Booked (past ++ [e]) e' book' := by
  refine ⟨fun k => (book k).filter fun b => e.tokens.contains b.timer.payload,
    h.turn htokens (Nat.le_of_eq hticks.symm) (fun k => ?_) (fun k => (h.sorted k).filter _)
    (fun hb => Nat.lt_succ_of_lt (h.earlier (mem_filter.1 hb).1)) ?_ ?_⟩
  · rw [h.pages_live, timersOf, timersOf, hclocks]
  · intro i e₀ r _ _ _ hlive _ hb
    exact mem_filter.2 ⟨hb, hlive⟩
  · intro r hr
    rw [hnone] at hr
    cases hr

/-- So are the entries that have become due. -/
theorem ticks (hsync : Synchronous e) (htokens : Tokens e e') (hnone : e.registration = none)
    (hclocks : e'.clocks = (e.dropDeadTimers.clocks.map Clock.tick).map Prod.snd)
    (hticks : e'.stats.ticks = e.stats.ticks + 1) : ∃ book', Booked (past ++ [e]) e' book' := by
  refine ⟨fun k => ((book k).filter fun b => e.tokens.contains b.timer.payload).dropWhile
      fun b => b.timer.deadline ≤ e.stats.ticks.toUInt64 + 1,
    h.turn htokens (by omega) (fun k => ?_) (fun k => ?_) (fun {k b} hb => ?_) ?_ ?_⟩
  · rw [hsync.dropDeadTimers.timersOf_tick hclocks, ← h.pages_live, dropWhile_map]
    rfl
  · exact ((h.sorted k).filter _).sublist (dropWhile_sublist _)
  · have hmem := (dropWhile_sublist _).subset hb
    exact Nat.lt_succ_of_lt (h.earlier (mem_filter.1 hmem).1)
  · intro i e₀ r hi hr hfits hlive hbefore hb
    obtain ⟨-, htick, hdelay⟩ := Engine.registration_eq_some hr
    have hfrom := (h.elapsed (mem_of_getElem? hi)).1
    have hnot : ¬r.timer.deadline ≤ e.stats.ticks.toUInt64 + 1 := by
      grind [Registration.due_iff, Registration.release, Registration.deadline]
    have hmem : (⟨r.timer, i⟩ : Booking) ∈
        (book r.clock).filter fun b => e.tokens.contains b.timer.payload :=
      mem_filter.2 ⟨hb, hlive⟩
    rw [← takeWhile_append_dropWhile (l := List.filter _ _)
      (p := fun b : Booking => b.timer.deadline ≤ e.stats.ticks.toUInt64 + 1)] at hmem
    rcases mem_append.1 hmem with hmem | hmem
    · have hdue := all_eq_true.1 (all_takeWhile ..) _ hmem
      exact absurd (of_decide_eq_true hdue) hnot
    · exact hmem
  · intro r hr
    rw [hnone] at hr
    cases hr

theorem timing (hsync : Synchronous e) (htokens : Tokens e e') (hturn : Timing e e') :
    ∃ book', Booked (past ++ [e]) e' book' := by
  cases hturn with
  | goes htime => exact h.goes hsync htokens htime
  | drops hnone hclocks hticks => exact h.drops htokens hnone hclocks hticks
  | ticks hnone _ _ _ _ hclocks hticks => exact h.ticks hsync htokens hnone hclocks hticks

end

end Booked

/-- In every run there is a book of the clocks. -/
theorem Run.booked (h : Run host program limit world past e) (hpolite : Polite e.world.log) :
    ∃ book, Booked past e book := by
  induction h with
  | start =>
    refine ⟨fun _ => [], fun k => ?_, fun k => .nil, nofun, nofun, nofun⟩
    have htime : (opening program limit world).time = ([{}], 0) :=
      (opening_grown ..).time
    have hclocks : (opening program limit world).clocks = [{}] := congrArg Prod.fst htime
    grind [timersOf]
  | turn hrun hp ih =>
    have hbefore := hrun.polite hp hpolite
    obtain ⟨m, hc, hs, hl⟩ := hrun.sound hbefore
    obtain ⟨book, hbook⟩ := ih hbefore
    obtain ⟨hnext, hold⟩ := turn_old hc hs
      (fun _ _ _ hm ht hv => hl.votes hbefore hm ht hv) hp
    refine hbook.timing hrun.synchronous ⟨hnext, fun hv hthere => ?_⟩ (Engine.timing hc hp)
    grind [Store.contains_iff]
  | arrive _ message ih =>
    obtain ⟨book, hbook⟩ := ih (hpolite.mono (prefix_append ..))
    exact ⟨book, hbook.pages, hbook.sorted, hbook.earlier, hbook.kept, hbook.elapsed⟩

/-! ## Those who are released -/

section lists

variable {α β : Type} {F : α → List β} {l : List α}

theorem pair_sublist_of_pairwise {R : α → α → Prop} (hasymm : ∀ {a b}, R a b → ¬R b a)
    (hl : l.Pairwise R) {a b : α} (ha : a ∈ l) (hb : b ∈ l) (hab : R a b) : [a, b].Sublist l := by
  induction l with
  | nil => cases ha
  | cons c l ih => grind [pairwise_cons]

theorem sublist_flatMap {s : List β} {a : α} (ha : a ∈ l) (hs : s.Sublist (F a)) :
    s.Sublist (l.flatMap F) := by
  obtain ⟨before, after, rfl⟩ := append_of_mem ha
  grind

theorem pair_sublist_flatMap {i j : Nat} (hij : i < j) {a b : α} (ha : l[i]? = some a)
    (hb : l[j]? = some b) {x y : β} (hx : x ∈ F a) (hy : y ∈ F b) :
    [x, y].Sublist (l.flatMap F) := by
  induction l generalizing i j with
  | nil => cases ha
  | cons c l ih =>
    rw [flatMap_cons]
    obtain ⟨j, rfl⟩ := Nat.exists_eq_succ_of_ne_zero (Nat.ne_of_gt (Nat.lt_of_le_of_lt i.zero_le hij))
    cases i with
    | zero => grind
    | succ i => grind

end lists

/-- The entries of a page that the next tick makes due. -/
def Engine.dueOn (e : Engine ω) (page : List Booking) : List Booking :=
  (page.filter fun b => e.tokens.contains b.timer.payload).takeWhile
    fun b => b.timer.deadline ≤ e.stats.ticks.toUInt64 + 1

namespace Booked

/-- What a clock releases is what is due on its page. -/
theorem released (h : Booked past e book) (hsync : Synchronous e) {k : Nat} {c : Clock TokenId}
    (hk : e.clocks[k]? = some c) : (c.retain e.tokens.contains).tick.1 =
      (e.dueOn (book k)).map fun b => b.timer.payload := by
  have hpage : (book k).map Booking.timer = c.timers := by
    rw [h.pages, timersOf, hk]
    rfl
  show ((c.timers.filter fun t => e.tokens.contains t.payload).takeWhile
    fun t => decide (t.deadline ≤ c.now + 1)).map Timer.payload = _
  rw [← hpage, filter_map, takeWhile_map, map_map,
    hsync.now c (mem_of_getElem? hk)]
  rfl

/-- An entry that becomes due stands on the page of a clock that is there. -/
theorem due (h : Booked past e book) {k : Nat} {b : Booking} (hb : b ∈ book k)
    (hlive : e.tokens.contains b.timer.payload = true)
    (hdue : b.timer.deadline ≤ e.stats.ticks.toUInt64 + 1) :
    b ∈ e.dueOn (book k) ∧ ∃ c, e.clocks[k]? = some c := by
  refine ⟨Booking.mem_due ((h.sorted k).filter _) (mem_filter.2 ⟨hb, hlive⟩) hdue, ?_⟩
  have htimer : b.timer ∈ e.timersOf k := h.pages k ▸ mem_map_of_mem hb
  grind [timersOf]

end Booked

theorem Engine.due_dropDeadTimers (e : Engine ω) : e.dropDeadTimers.due =
    e.clocks.flatMap fun c => (c.retain e.tokens.contains).tick.1 := by
  grind [flatMap_map, due, dropDeadTimers]

/-- The registration `r` was made in turn `i` of the past, for a tick that clocks can show and that
    has not come yet, and its token is still there. -/
structure Awaits (past : History ω) (e : Engine (Logged ω)) (i : Nat)
    (r : Registration) : Prop where
  made : (past[i]?).bind Engine.registration = some r
  fits : r.deadline < 2 ^ 64
  there : e.tokens.contains r.token = true
  early : e.stats.ticks < r.release

namespace Awaits

variable {i j : Nat} {r r₁ r₂ : Registration}

/-- Whoever awaits its tick has its entry. -/
theorem entry (h : Awaits past e i r) (hbook : Booked past e book) :
    ⟨r.timer, i⟩ ∈ book r.clock ∧ r.delay < 2 ^ 63 ∧ r.tick ≤ e.stats.ticks := by
  obtain ⟨e₀, he₀, hr⟩ := Option.bind_eq_some_iff.1 h.made
  obtain ⟨-, htick, hdelay⟩ := Engine.registration_eq_some hr
  have hfrom := (hbook.elapsed (mem_of_getElem? he₀)).1
  grind [Booked.kept, fits, there, early]

theorem timer (h : Awaits past e i r) (hbook : Booked past e book) :
    r.timer ∈ e.timersOf r.clock :=
  hbook.pages r.clock ▸ mem_map_of_mem (h.entry hbook).1

/-- When the clocks come to show its tick, they have just ticked. -/
theorem reached (h : Awaits past e i r) (hsync : Synchronous e') (hturn : Timing e e')
    (hshow : ∀ c ∈ e'.clocks, c.now.toNat = r.release) :
    e'.stats.ticks = e.stats.ticks + 1 ∧ e.stats.ticks + 1 = r.release ∧ r.release < 2 ^ 64 := by
  obtain ⟨c, hc⟩ := exists_mem_of_ne_nil _ hsync.some
  have hnow : e'.stats.ticks % 2 ^ 64 = r.release := by grind [Synchronous.now, UInt64.toNat_ofNat']
  have hearly := h.early
  grind [Timing.ticks_eq]

/-- Then its entry is due. -/
theorem due (h : Awaits past e i r) (hbook : Booked past e book)
    (hnow : e.stats.ticks + 1 = r.release) (hshown : r.release < 2 ^ 64) :
    ⟨r.timer, i⟩ ∈ e.dueOn (book r.clock) ∧ ∃ c, e.clocks[r.clock]? = some c := by
  obtain ⟨hentry, hdelay, hfrom⟩ := h.entry hbook
  refine hbook.due hentry h.there ?_
  grind [Registration.due_iff, fits]

/-- So the tick releases the token. -/
theorem mem_due (h : Awaits past e i r) (hbook : Booked past e book) (hsync : Synchronous e)
    (hnow : e.stats.ticks + 1 = r.release) (hshown : r.release < 2 ^ 64) :
    r.token ∈ e.dropDeadTimers.due := by
  obtain ⟨hdue, c, hc⟩ := h.due hbook hnow hshown
  rw [due_dropDeadTimers]
  refine mem_flatMap.2 ⟨c, mem_of_getElem? hc, ?_⟩
  rw [hbook.released hsync hc]
  exact mem_map.2 ⟨_, hdue, rfl⟩

/-- Two tokens are released in the order of their clocks, deadlines and registrations. -/
theorem ordered (h₁ : Awaits past e i r₁) (h₂ : Awaits past e j r₂) (hbook : Booked past e book)
    (hsync : Synchronous e) (hnow₁ : e.stats.ticks + 1 = r₁.release)
    (hnow₂ : e.stats.ticks + 1 = r₂.release) (hshown : r₁.release < 2 ^ 64)
    (hbefore : r₁.clock < r₂.clock ∨ r₁.clock = r₂.clock ∧
      (r₁.deadline < r₂.deadline ∨ r₁.deadline = r₂.deadline ∧ i < j)) :
    [r₁.token, r₂.token].Sublist e.dropDeadTimers.due := by
  obtain ⟨hdue₁, c₁, hc₁⟩ := h₁.due hbook hnow₁ hshown
  obtain ⟨hdue₂, c₂, hc₂⟩ := h₂.due hbook hnow₂ (hnow₂ ▸ hnow₁ ▸ hshown)
  rw [due_dropDeadTimers]
  rcases hbefore with hclock | ⟨hclock, hlater⟩
  · refine pair_sublist_flatMap hclock hc₁ hc₂ ?_ ?_
    · rw [hbook.released hsync hc₁]
      exact mem_map.2 ⟨_, hdue₁, rfl⟩
    · rw [hbook.released hsync hc₂]
      exact mem_map.2 ⟨_, hdue₂, rfl⟩
  · rw [← hclock] at hdue₂
    refine sublist_flatMap (mem_of_getElem? hc₁) ?_
    rw [hbook.released hsync hc₁]
    have hsorted : (e.dueOn (book r₁.clock)).Pairwise Booking.Before :=
      ((hbook.sorted _).filter _).sublist (takeWhile_sublist _)
    have hentries : (⟨r₁.timer, i⟩ : Booking).Before ⟨r₂.timer, j⟩ := by
      grind [Registration.toNat_deadline, entry, fits, Booking.Before]
    exact (pair_sublist_of_pairwise Booking.Before.asymm hsorted hdue₁ hdue₂ hentries).map
      fun b => b.timer.payload

end Awaits

/-- Nobody is released twice. -/
theorem Stations.released_nodup (h : Stations e) (hc : Core m e none) (ha : e.agenda = []) :
    (e.dropDeadTimers.due.filter e.tokens.contains).Nodup := by
  rw [nodup_iff_count]
  intro v
  by_cases hlive : e.tokens.contains v = true
  · obtain ⟨tok, ht⟩ := Store.contains_iff.1 hlive
    have hdropped := h.dropDeadTimers hc ha
    have hcore : Core m e.dropDeadTimers none := hc.congr rfl
    have hparked := (hdropped.settled hcore ha (t := v) ht).parked
    have hleft := (Shifts.tick e.dropDeadTimers v).parked
    have hpos := e.dropDeadTimers.tick.parked_nonneg v
    have hle : tok.phase.parked ≤ 1 := by cases tok.phase <;> simp [Phase.parked]
    rw [count_filter hlive]
    omega
  · grind [count_eq_zero]

/-- A tick needs somebody who waits for it. -/
theorem Engine.timed_of_busy (hbusy : e.dropDeadTimers.clocks.all Clock.isIdle = false) :
    ∃ t ∈ e.timed, e.tokens.contains t = true := by
  obtain ⟨c, hc, htimers⟩ := all_eq_false.1 hbusy
  obtain ⟨c, hc', rfl⟩ := mem_map.1 hc
  obtain ⟨timer, htimer⟩ := exists_mem_of_ne_nil (c.retain e.tokens.contains).timers
    (by simpa [Clock.isIdle] using htimers)
  obtain ⟨hmem, hlive⟩ := mem_filter.1 htimer
  exact ⟨timer.payload, mem_flatMap.2 ⟨c, hc', mem_map_of_mem hmem⟩, hlive⟩

end Book

/-! ## Virtual time -/

/-- Virtual time passes for all clocks alike, and only when nothing else can happen.  In every state
    all clocks show the number of ticks.  They advance only when the queue and the inbox are empty
    and somebody who is there waits on a clock.  A token that calls a timer waits on its clock, as
    long as it is there, until the clocks show the tick that is its delay ahead, or the next tick if
    it has none; that tick puts it into the queue.  Those who are released together are queued by
    clock, then by deadline, then by the turn of their call.  Asked of the world outside is that a
    call is answered at most once, and that votes are answered by votes. -/
theorem virtual_time (host : Host ω) (program : Program) (limit : Option Nat) (world : ω)
    {past : List (Engine (Logged ω))} {e : Engine (Logged ω)}
    (h : Run host program limit world past e) :
    (e.clocks ≠ [] ∧ ∀ c ∈ e.clocks, c.now = e.stats.ticks.toUInt64) ∧
    (∀ {p} {k : Nat} {c c' : Clock TokenId}, e.turn host.logged = .ok p → e.clocks[k]? = some c →
      p.state.clocks[k]? = some c' → c'.now ≠ c.now →
        e.agenda = [] ∧ e.ready = [] ∧ e.inbox = [] ∧ ∃ t ∈ e.timed, e.tokens.contains t = true) ∧
    (Polite e.world.log → Single e.world.log → e.agenda = [] →
      (∀ {i r tok}, Awaits past e i r → e.tokens.get? r.token = some tok →
        tok.phase = .blocked ∧ r.timer ∈ e.timersOf r.clock ∧
        ∀ {p}, e.turn host.logged = .ok p → (∀ c ∈ p.state.clocks, c.now.toNat = r.release) →
          p.state.tokens.get? r.token = some { tok with phase := .runnable } ∧
          r.token ∈ p.state.ready) ∧
      ∀ {i j r₁ r₂ p}, Awaits past e i r₁ → Awaits past e j r₂ → e.turn host.logged = .ok p →
        (∀ c ∈ p.state.clocks, c.now.toNat = r₁.release ∧ c.now.toNat = r₂.release) →
        (r₁.clock < r₂.clock ∨ r₁.clock = r₂.clock ∧
          (r₁.deadline < r₂.deadline ∨ r₁.deadline = r₂.deadline ∧ i < j)) →
        [r₁.token, r₂.token].Sublist p.state.ready ∧ p.state.ready.Nodup) := by
  have hsync := h.synchronous
  obtain ⟨m₀, hc₀⟩ := h.coherent
  refine ⟨⟨hsync.some, hsync.now⟩, fun {p k c c'} hp hk hk' hne => ?_, fun hpolite hsingle ha => ?_⟩
  · -- clocks show the ticks, and only a turn with sleepers alone ticks
    have hsync' := (h.turn hp).synchronous
    rcases (Engine.timing hc₀ hp).ticks_eq with hticks | ⟨-, ha, hready, hinbox, hbusy, -⟩
    · rw [hsync.now c (mem_of_getElem? hk), hsync'.now c' (mem_of_getElem? hk'),
        hticks] at hne
      exact absurd rfl hne
    · exact ⟨ha, hready, hinbox, timed_of_busy hbusy⟩
  obtain ⟨m, hc, hs, hl⟩ := h.sound hpolite
  obtain ⟨book, hbook⟩ := h.booked hpolite
  have hstations := h.stations hpolite hsingle
  have hcore := hc.core_of_idle ha
  refine ⟨fun {i r tok} hawaits ht => ?_, fun {i j r₁ r₂ p} h₁ h₂ hp hshow hbefore => ?_⟩
  · have htimer := hawaits.timer hbook
    have htimed : r.token ∈ e.timed := by
      unfold timersOf at htimer
      cases hk : e.clocks[r.clock]? with
      | none =>
        rw [hk] at htimer
        cases htimer
      | some c =>
        rw [hk] at htimer
        exact mem_flatMap.2 ⟨c, mem_of_getElem? hk, mem_map.2 ⟨_, htimer, rfl⟩⟩
    refine ⟨(hstations.settled hcore ha ht).blocked (parked_pos (.inr (.inl htimed))), htimer,
      fun {p} hp hshow => ?_⟩
    have htiming := Engine.timing hc hp
    obtain ⟨hticks, hnow, hshown⟩ := hawaits.reached (h.turn hp).synchronous htiming hshow
    have hdue := hawaits.mem_due hbook hsync hnow hshown
    rcases htiming.ticks_eq with hsame | ⟨-, -, -, -, -, hqueue, htokens⟩
    · omega
    · refine ⟨by rw [htokens, if_pos hdue, ht]; rfl, ?_⟩
      rw [hqueue]
      exact mem_filter.2 ⟨hdue, hawaits.there⟩
  · have htiming := Engine.timing hc hp
    have hsync' := (h.turn hp).synchronous
    obtain ⟨hticks, hnow₁, hshown⟩ := h₁.reached hsync' htiming fun c hc => (hshow c hc).1
    obtain ⟨-, hnow₂, -⟩ := h₂.reached hsync' htiming fun c hc => (hshow c hc).2
    have hordered := h₁.ordered h₂ hbook hsync hnow₁ hnow₂ hshown hbefore
    rcases htiming.ticks_eq with hsame | ⟨-, -, -, -, -, hqueue, -⟩
    · omega
    · rw [hqueue]
      refine ⟨?_, hstations.released_nodup hcore ha⟩
      have hkept := hordered.filter e.tokens.contains
      simpa [h₁.there, h₂.there] using hkept

/-- The states that so many turns go through, and the one that they lead to. -/
def Engine.trace {ω : Type} (host : Host ω) : Nat → Engine ω → Option (List (Engine ω) × Engine ω)
  | 0, e => some ([], e)
  | n + 1, e =>
    match e.turn host with
    | .ok (.next e') => (trace host n e').map fun rest => (e :: rest.1, rest.2)
    | _ => none

theorem Run.trace {between : History ω} {e e' : Engine (Logged ω)}
    (h : Run host program limit world past e) {n : Nat}
    (hn : e.trace host.logged n = some (between, e')) :
    Run host program limit world (past ++ between) e' := by
  induction n generalizing past e between with
  | zero =>
    cases hn
    rwa [append_nil]
  | succ n ih =>
    unfold Engine.trace at hn
    split at hn
    · rename_i e₁ hp
      obtain ⟨⟨rest, e₂⟩, hrest, heq⟩ := Option.map_eq_some_iff.1 hn
      cases heq
      have hrun := ih (h.turn hp) hrest
      rwa [append_assoc] at hrun
    · cases hn

/-- Timers on two clocks. -/
def Registry.naps : Registry := ⟨[⟨"nap", 0, .timer 0⟩, ⟨"doze", 1, .timer 1⟩]⟩

/-- Three tokens that wait for one tick, `doze(1) | (nap(1) | nap(0))`. -/
def Expr.naps : Expr :=
  .parallel (.call (.site "doze") [.literal (.int 1)] .none)
    (.parallel (.call (.site "nap") [.literal (.int 1)] .none)
      (.call (.site "nap") [.literal (.int 0)] .none))

/-- The one who has called first goes on last, since its clock is the second one. -/
theorem virtual_time_naps : ∃ p past e q,
    Expr.naps.compile Registry.naps = .ok p ∧ Run Host.echo p none () past e ∧
      Polite e.world.log ∧ Single e.world.log ∧ e.agenda = [] ∧ e.turn Host.echo.logged = .ok q ∧
      Awaits past e 2 ⟨⟨0⟩, 1, 1, 0⟩ ∧ Awaits past e 3 ⟨⟨2⟩, 0, 0, 0⟩ ∧
      Awaits past e 4 ⟨⟨1⟩, 0, 1, 0⟩ ∧
      (e.tokens.get? ⟨0⟩).map Token.phase = some .blocked ∧
      (q.state.tokens.get? ⟨0⟩).map Token.phase = some .runnable ∧
      [⟨2⟩, ⟨1⟩].Sublist q.state.ready ∧ [⟨1⟩, ⟨0⟩].Sublist q.state.ready := by
  obtain ⟨p, hp, hcheck⟩ : ∃ p, Expr.naps.compile Registry.naps = .ok p ∧
      (((opening p none ()).trace Host.echo.logged 5).any fun found =>
        decide (Polite found.2.world.log) && decide (Single found.2.world.log) &&
        found.2.agenda.isEmpty && (found.2.stats.ticks = 0) &&
        ([(2, ⟨⟨0⟩, 1, 1, 0⟩), (3, ⟨⟨2⟩, 0, 0, 0⟩), (4, ⟨⟨1⟩, 0, 1, 0⟩)].all fun entry =>
          ((found.1[entry.1]?).bind Engine.registration = some entry.2) &&
          found.2.tokens.contains entry.2.token) &&
        match found.2.turn Host.echo.logged with
        | .ok q => q.state.clocks.all fun c => c.now.toNat = 1
        | .error _ => false) = true := ⟨_, rfl, by decide +kernel⟩
  obtain ⟨⟨past, e⟩, htrace, hcheck⟩ := Option.any_eq_true .. |>.1 hcheck
  have hrun := Run.start.trace htrace
  rw [nil_append] at hrun
  simp only [Bool.and_eq_true, decide_eq_true_eq, List.isEmpty_iff, all_cons, all_nil,
    and_true] at hcheck
  obtain ⟨⟨⟨⟨⟨hpolite, hsingle⟩, ha⟩, hticks⟩, ⟨hmade₀, hthere₀⟩, ⟨hmade₂, hthere₂⟩, hmade₁, hthere₁⟩,
    hturn⟩ := hcheck
  split at hturn
  · rename_i q hq
    have hshow : ∀ c ∈ q.state.clocks, c.now.toNat = 1 := by simpa using hturn
    have hawaits : ∀ {i r}, (past[i]?).bind Engine.registration = some r →
        e.tokens.contains r.token = true → r.deadline < 2 ^ 64 → 0 < r.release →
        Awaits past e i r := fun hmade hthere hfits hearly => ⟨hmade, hfits, hthere, hticks ▸ hearly⟩
    have h₀ := hawaits hmade₀ hthere₀ (by decide) (by decide)
    have h₁ := hawaits hmade₁ hthere₁ (by decide) (by decide)
    have h₂ := hawaits hmade₂ hthere₂ (by decide) (by decide)
    obtain ⟨hwaits, horder⟩ := (virtual_time _ _ _ _ hrun).2.2 hpolite hsingle ha
    obtain ⟨tok, ht⟩ := Store.contains_iff.1 hthere₀
    obtain ⟨hblocked, -, hreleased⟩ := hwaits h₀ ht
    refine ⟨p, past, e, q, hp, hrun, hpolite, hsingle, ha, hq, h₀, h₂, h₁, ?_, ?_, ?_, ?_⟩
    · rw [ht]
      exact congrArg some hblocked
    · rw [(hreleased hq hshow).1]
      rfl
    · exact (horder h₂ h₁ hq (fun c hc => ⟨hshow c hc, hshow c hc⟩) (.inr ⟨rfl, .inl (by decide)⟩)).1
    · exact (horder h₁ h₀ hq (fun c hc => ⟨hshow c hc, hshow c hc⟩) (.inl (by decide))).1
  · cases hturn

end Orchestra
