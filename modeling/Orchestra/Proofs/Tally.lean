/-
  Tallies: in how many places a token stands.

  A token that is not about to end is in one place: in the queue, with a cell or a clock, or out
  with a worker or a cohort.  Some of these places are lists of names, the last one is what the log
  says.  Here they are counted, places on the agenda included:

  * `queued`  in the queue, or about to be put there;
  * `parked`  with a cell that has no value, with a clock, or about to be woken;
  * `owed`    how many answers are still to be taken: asked for, or in the inbox, but not both.

  `Shifts` says how the three tallies of a token differ between two states.
-/
import Orchestra.Proofs.Doom
import Orchestra.Proofs.Run

namespace Orchestra

open List

variable {grp : Group} {new : List Chore} {t v : TokenId} {ω : Type}

/-! ## Lists of lists -/

section lists

variable {α β : Type} [DecidableEq β] {F : α → List β} {b : β}

theorem count_flatMap_set {l : List α} {i : Nat} {a : α} (h : l[i]? = some a) (a' : α) :
    ((l.set i a').flatMap F).count b + (F a).count b = (l.flatMap F).count b + (F a').count b := by
  induction l generalizing i with
  | nil => cases h
  | cons c l ih =>
    cases i with
    | zero => grind
    | succ i => grind

/-- Who is counted once stands in one of the lists. -/
theorem sole_of_count_flatMap {l : List α} (h : (l.flatMap F).count b = 1) :
    ∃ (i : Nat) (a : α), l[i]? = some a ∧ (F a).count b = 1 ∧
      ∀ (j : Nat) (a' : α), l[j]? = some a' → b ∈ F a' → j = i := by
  induction l with
  | nil => cases h
  | cons c l ih =>
    rw [flatMap_cons, count_append] at h
    by_cases hc : (F c).count b = 0
    · obtain ⟨i, a, ha, hcount, hsole⟩ := ih (by omega)
      refine ⟨i + 1, a, by simpa using ha, hcount, fun j a' ha' hb => ?_⟩
      grind
    · refine ⟨0, c, rfl, by omega, fun j a' ha' hb => ?_⟩
      grind [count_eq_zero]

end lists

/-! ## What records hold -/

namespace Store

variable {k : Kind} {α β : Type} {s : Store k α} {id : Key k} {a : α} {f : α → List β}

/-- What all records hold, those of the oldest one first. -/
def collect (s : Store k α) (f : α → List β) : List β :=
  s.slots.toList.flatMap fun slot => (slot.map f).getD []

theorem get?_eq_some : s.get? id = some a ↔ s.slots.toList[id.index]? = some (some a) := by
  rw [get?, Option.join_eq_some_iff, Array.getElem?_toList]

theorem mem_collect {b : β} : b ∈ s.collect f ↔ ∃ id a, s.get? id = some a ∧ b ∈ f a := by
  unfold collect
  rw [mem_flatMap]
  constructor
  · rintro ⟨slot, hslot, hb⟩
    obtain ⟨i, hi⟩ := mem_iff_getElem?.1 hslot
    cases slot with
    | none => cases hb
    | some a => exact ⟨⟨i⟩, a, get?_eq_some.2 hi, hb⟩
  · rintro ⟨id, a, ha, hb⟩
    exact ⟨some a, mem_of_getElem? (get?_eq_some.1 ha), hb⟩

theorem collect_insert : (s.insert a).collect f = s.collect f ++ f a := by
  simp [collect, insert]

variable [DecidableEq β]

theorem count_collect_modify (h : s.get? id = some a) (g : α → α) (b : β) :
    ((s.modify id g).collect f).count b + (f a).count b =
      (s.collect f).count b + (f (g a)).count b := by
  have hslot := get?_eq_some.1 h
  have hlt : id.index < s.slots.size := lt_next h
  have hvalue : s.slots[id.index] = some a := by
    rw [getElem?_eq_getElem (by simpa using hlt)] at hslot
    simpa using hslot
  have hset := count_flatMap_set (F := fun slot : Option α => (slot.map f).getD []) (b := b) hslot
    (some (g a))
  unfold collect modify
  rw [dif_pos hlt]
  simpa [hvalue] using hset

theorem count_collect_remove (h : s.get? id = some a) (b : β) :
    ((s.remove id).collect f).count b + (f a).count b = (s.collect f).count b := by
  have hslot := get?_eq_some.1 h
  have hlt : id.index < s.slots.size := lt_next h
  have hset := count_flatMap_set (F := fun slot : Option α => (slot.map f).getD []) (b := b) hslot
    none
  unfold collect remove
  rw [dif_pos hlt]
  simpa using hset

/-- A record that changes but holds the same is counted as before. -/
theorem count_collect_modify_same {g : α → α} (h : ∀ a, s.get? id = some a → f (g a) = f a)
    (b : β) : ((s.modify id g).collect f).count b = (s.collect f).count b := by
  cases ha : s.get? id with
  | some a => grind [count_collect_modify]
  | none => grind [Array.set_getElem_self, modify, get?, collect]

/-- The weight of all records together. -/
def total (s : Store k α) (w : α → Nat) : Nat := (s.collect fun a => List.replicate (w a) ()).length

section total

variable {w : α → Nat}

theorem total_eq_count (s : Store k α) (w : α → Nat) :
    s.total w = (s.collect fun a => List.replicate (w a) ()).count () := by
  rw [total, count_eq_length.2 fun _ _ => rfl]

theorem total_insert : (s.insert a).total w = s.total w + w a := by
  rw [total, collect_insert, length_append, length_replicate, total]

theorem total_modify (h : s.get? id = some a) (g : α → α) :
    (s.modify id g).total w + w a = s.total w + w (g a) := by
  grind [count_collect_modify, total_eq_count]

theorem total_modify_same {g : α → α} (h : ∀ a, w (g a) = w a) :
    (s.modify id g).total w = s.total w := by grind [total_eq_count, count_collect_modify_same]

theorem total_remove (h : s.get? id = some a) : (s.remove id).total w + w a = s.total w := by
  grind [count_collect_remove, total_eq_count]

end total

/-- What is counted once is held by one record. -/
theorem sole_of_count_collect {b : β} (h : (s.collect f).count b = 1) :
    ∃ id a, s.get? id = some a ∧ (f a).count b = 1 ∧
      ∀ id' a', s.get? id' = some a' → b ∈ f a' → id' = id := by
  obtain ⟨i, slot, hslot, hcount, hsole⟩ := sole_of_count_flatMap h
  cases slot with
  | none => cases hcount
  | some a =>
    refine ⟨⟨i⟩, a, get?_eq_some.2 hslot, hcount, fun id' a' ha' hb => ?_⟩
    have hindex := hsole _ _ (get?_eq_some.1 ha') hb
    cases id'
    exact congrArg Key.mk hindex

end Store

/-! ## Places -/

/-- The tokens that wait for a group to get a value. -/
def GroupKind.waiters : GroupKind → List TokenId
  | .cell waiters _ => waiters
  | _ => []

/-- The message is for a token. -/
def Message.isFor (t : TokenId) : Message → Bool
  | .returned t' _ | .vetoed t' => t' = t
  | .terminate => false

namespace Entry

/-- The entry asks for an answer to a token. -/
def calls (t : TokenId) : Entry → Bool
  | .launched t' | .asked _ _ t' => t' = t
  | _ => false

/-- The entry is an answer to a token. -/
def answers (t : TokenId) : Entry → Bool
  | .sent message => message.isFor t
  | _ => false

theorem countP_calls_sent (t : TokenId) (mail : List Message) :
    (mail.map sent).countP (calls t) = 0 := by
  rw [countP_map, countP_eq_zero]
  simp [calls]

theorem countP_answers_sent (t : TokenId) (mail : List Message) :
    (mail.map sent).countP (answers t) = mail.countP (Message.isFor t) := by
  rw [countP_map]
  rfl

end Entry

/-- The tokens that are to be put into the queue. -/
def errands (agenda : List Chore) : List TokenId :=
  agenda.filterMap fun
    | .proceed t _ | .enqueue t => some t
    | _ => none

/-- The tokens that are to be woken. -/
def wakes (agenda : List Chore) : List TokenId :=
  agenda.filterMap fun
    | .wake t => some t
    | _ => none

@[simp]
theorem errands_append (new agenda : List Chore) :
    errands (new ++ agenda) = errands new ++ errands agenda := filterMap_append

@[simp]
theorem wakes_append (new agenda : List Chore) :
    wakes (new ++ agenda) = wakes new ++ wakes agenda := filterMap_append

theorem mem_wakes {agenda : List Chore} : t ∈ wakes agenda ↔ .wake t ∈ agenda := by grind [wakes]

/-- A chore that puts no token anywhere. -/
def Chore.aside : Chore → Bool
  | .proceed _ _ | .enqueue _ | .wake _ => false
  | _ => true

theorem errands_of_aside (h : ∀ a ∈ new, a.aside = true) : errands new = [] ∧ wakes new = [] := by
  constructor <;> refine filterMap_eq_nil_iff.2 fun a ha => ?_
  all_goals cases a <;> first | rfl | cases h _ ha

namespace Engine

variable {ω : Type} {e : Engine ω}

/-- The tokens that wait for some cell. -/
def waiting (e : Engine ω) : List TokenId := e.groups.collect fun grp => grp.kind.waiters

/-- How often a token stands in the queue, or is about to. -/
def queued (e : Engine ω) (t : TokenId) : Int := e.ready.count t + (errands e.agenda).count t

/-- How often a token waits for a cell or a clock, or is about to be woken. -/
def parked (e : Engine ω) (t : TokenId) : Int :=
  e.waiting.count t + e.timed.count t + (wakes e.agenda).count t

/-- How many answers to a token are still to be taken. -/
def owed (e : Engine (Logged ω)) (t : TokenId) : Int :=
  e.world.log.countP (Entry.calls t) + e.inbox.countP (Message.isFor t)
    - e.world.log.countP (Entry.answers t)

theorem parked_nonneg (e : Engine ω) (t : TokenId) : 0 ≤ e.parked t := by
  unfold parked
  omega

theorem parked_pos (h : t ∈ e.waiting ∨ t ∈ e.timed ∨ t ∈ wakes e.agenda) : 0 < e.parked t := by
  simp only [← count_pos_iff] at h
  unfold parked
  omega

end Engine

/-- From `e` to `e'` a token gets into the queue `q` times more, waits `p` times more and is owed
    `o` answers more. -/
structure Shifts {ω : Type} (e e' : Engine (Logged ω)) (t : TokenId) (q p o : Int) : Prop where
  queued : e'.queued t = e.queued t + q
  parked : e'.parked t = e.parked t + p
  owed : e'.owed t = e.owed t + o

namespace Shifts

variable {ω : Type} {e e' e'' : Engine (Logged ω)} {t v : TokenId} {q p o q' p' o' : Int}

/-- A token whose tallies are the same. -/
theorem still (hq : e'.queued t = e.queued t) (hp : e'.parked t = e.parked t)
    (ho : e'.owed t = e.owed t) : Shifts e e' t 0 0 0 :=
  ⟨by rw [hq, Int.add_zero], by rw [hp, Int.add_zero], by rw [ho, Int.add_zero]⟩

theorem trans (h : Shifts e e' t q p o) (h' : Shifts e' e'' t q' p' o') :
    Shifts e e'' t (q + q') (p + p') (o + o') :=
  ⟨by rw [h'.queued, h.queued, Int.add_assoc], by rw [h'.parked, h.parked, Int.add_assoc],
    by rw [h'.owed, h.owed, Int.add_assoc]⟩

/-- A token that has not moved yet. -/
theorem after (h : Shifts e e' t 0 0 0) (h' : Shifts e' e'' t q p o) : Shifts e e'' t q p o := by
  simpa using h.trans h'

/-- A token that moves no more. -/
theorem stays (h : Shifts e e' t q p o) (h' : Shifts e' e'' t 0 0 0) : Shifts e e'' t q p o := by
  simpa using h.trans h'

/-! ### Moves of the engine -/

section

variable (e : Engine (Logged ω))

theorem enqueue (t v : TokenId) : Shifts e (e.enqueue t) v (if v = t then 1 else 0) 0 0 := by
  refine ⟨?_, (Int.add_zero _).symm, (Int.add_zero _).symm⟩
  show ((e.ready ++ [t]).count v : Int) + (errands e.agenda).count v =
    e.ready.count v + (errands e.agenda).count v + _
  grind

theorem plan (new : List Chore) (v : TokenId) :
    Shifts e (e.plan new) v ((errands new).count v) ((wakes new).count v) 0 := by
  refine ⟨?_, ?_, (Int.add_zero _).symm⟩
  · show (e.ready.count v : Int) + (errands (new ++ e.agenda)).count v =
      e.ready.count v + (errands e.agenda).count v + _
    rw [errands_append, count_append]
    omega
  · show (e.waiting.count v : Int) + e.timed.count v + (wakes (new ++ e.agenda)).count v =
      e.waiting.count v + e.timed.count v + (wakes e.agenda).count v + _
    rw [wakes_append, count_append]
    omega

/-- Chores that put no token anywhere do not count. -/
theorem planAside (h : ∀ a ∈ new, a.aside = true) (v : TokenId) :
    Shifts e (e.plan new) v 0 0 0 := by
  have hplan := plan e new v
  rw [(errands_of_aside h).1, (errands_of_aside h).2] at hplan
  exact hplan

/-- A chore that puts no token anywhere may be taken from the agenda. -/
theorem pop {a : Chore} (ha : a.aside = true) (v : TokenId) : Shifts (e.plan [a]) e v 0 0 0 := by
  have hnew : ∀ b ∈ [a], b.aside = true := by simpa using ha
  have hplan := planAside e hnew v
  have hq := hplan.queued
  have hp := hplan.parked
  have ho := hplan.owed
  exact ⟨by omega, by omega, by omega⟩

/-- A token that was to be put into the queue is put there. -/
theorem requeue {a : Chore} (herrands : errands [a] = [t]) (hwakes : wakes [a] = []) (v : TokenId) :
    Shifts (e.plan [a]) (e.enqueue t) v 0 0 0 := by
  have hplan := plan e [a] v
  have hin := enqueue e t v
  rw [herrands, hwakes, count_singleton] at hplan
  have hq := hplan.queued
  have hp := hplan.parked
  have ho := hplan.owed
  have hq' := hin.queued
  have hp' := hin.parked
  have ho' := hin.owed
  simp only [count_nil, beq_iff_eq] at hq hp
  by_cases hv : v = t
  · subst hv
    simp only [if_true] at hq hq'
    exact ⟨by omega, by omega, by omega⟩
  · rw [if_neg (Ne.symm hv)] at hq
    rw [if_neg hv] at hq'
    exact ⟨by omega, by omega, by omega⟩

/-- Taking from the agenda that a token is to be woken concerns nobody else. -/
theorem popWake (hv : v ≠ t) : Shifts (e.plan [.wake t]) e v 0 0 0 := by
  have hplan := plan e [.wake t] v
  have hcount : (wakes [.wake t]).count v = 0 := count_eq_zero.2 (by simpa [wakes] using hv)
  have hnone : (errands [.wake t]).count v = 0 := rfl
  rw [hcount, hnone] at hplan
  have hq := hplan.queued
  have hp := hplan.parked
  have ho := hplan.owed
  exact ⟨by omega, by omega, by omega⟩

end

/-- A token that was to be woken goes to the queue. -/
theorem wake (e : Engine (Logged ω)) (t : TokenId) :
    Shifts (e.plan [.wake t]) (e.enqueue t) t 1 (-1) 0 := by
  have hplan := plan e [.wake t] t
  have hin := enqueue e t t
  have hcount : (wakes [.wake t]).count t = 1 := by simp [wakes]
  rw [hcount] at hplan
  rw [if_pos rfl] at hin
  have hq := hplan.queued
  have hp := hplan.parked
  have ho := hplan.owed
  have hq' := hin.queued
  have hp' := hin.parked
  have ho' := hin.owed
  have hnone : (errands [.wake t]).count t = 0 := rfl
  rw [hnone] at hq
  exact ⟨by omega, by omega, by omega⟩

/-- Groups that keep who waits for them may change. -/
theorem onGroups (e : Engine (Logged ω)) {groups : Store .group Group}
    (h : (groups.collect fun grp => grp.kind.waiters).count v = e.waiting.count v) :
    Shifts e { e with groups } v 0 0 0 := by
  refine .still rfl ?_ rfl
  show ((groups.collect fun grp => grp.kind.waiters).count v : Int) + _ + _ = _
  rw [h]
  rfl

theorem spawn {tok : Token} {id : TokenId} (hs : e.spawn tok = some (id, e')) (v : TokenId) :
    Shifts e e' v 0 0 0 := by
  obtain ⟨-, -, -, he'⟩ := Engine.spawn_eq_some hs
  rw [he']
  have hsame : ((e.groups.modify tok.group (Group.enrol e.tokens.next)).collect
        fun grp => grp.kind.waiters).count v = e.waiting.count v := by
    refine Store.count_collect_modify_same ?_ v
    exact fun _ _ => rfl
  exact (onGroups e hsame).stays (.still rfl rfl rfl)

/-- What the host did is written down together with the answers that are there at once. -/
theorem absorb {ρ : Type} (e : Engine (Logged ω)) (effect : Effect ω ρ) {log : List Entry}
    (extra : List Entry) (hlog : log = e.world.log ++ extra) (v : TokenId) :
    Shifts e (e.absorb (effect.logged log)).2 v 0 0
      (extra.countP (Entry.calls v) - extra.countP (Entry.answers v)) := by
  refine ⟨(Int.add_zero _).symm, (Int.add_zero _).symm, ?_⟩
  show ((log ++ effect.mail.map Entry.sent).countP (Entry.calls v) : Int) +
    (e.inbox ++ effect.mail).countP (Message.isFor v) -
    (log ++ effect.mail.map Entry.sent).countP (Entry.answers v) = _
  grind [Entry.countP_calls_sent, Entry.countP_answers_sent, Engine.owed]

/-- An answer that arrives from outside is one that is still to be taken. -/
theorem deliver (e : Engine (Logged ω)) (message : Message) (v : TokenId) :
    Shifts e (e.deliver message) v 0 0 0 := by
  refine .still rfl rfl ?_
  show ((e.world.log ++ [Entry.sent message]).countP (Entry.calls v) : Int) +
    (e.inbox ++ [message]).countP (Message.isFor v) -
    (e.world.log ++ [Entry.sent message]).countP (Entry.answers v) = _
  simp only [countP_append, countP_singleton, Entry.calls, Entry.answers, Engine.owed,
    Bool.false_eq_true, if_false]
  grind

/-- An answer is taken from the inbox. -/
theorem take {message : Message} {inbox : List Message} (h : e.inbox = message :: inbox)
    (v : TokenId) : Shifts e { e with inbox } v 0 0 (-if message.isFor v then 1 else 0) := by
  refine ⟨(Int.add_zero _).symm, (Int.add_zero _).symm, ?_⟩
  grind [Engine.owed]

end Shifts

/-! ## Clocks -/

/-- The names in a list of clocks. -/
def payloads (clocks : List (Clock TokenId)) : List TokenId :=
  clocks.flatMap fun c => c.timers.map Timer.payload

theorem count_insertTimer (u : Timer TokenId) (ts : List (Timer TokenId)) (v : TokenId) :
    ((Clock.insertTimer u ts).map Timer.payload).count v =
      (ts.map Timer.payload).count v + if v = u.payload then 1 else 0 := by
  induction ts with
  | nil => grind [Clock.insertTimer]
  | cons w ws ih => grind [Clock.insertTimer]

/-- Setting a timer puts one token on one clock. -/
theorem count_setTimer (clocks : List (Clock TokenId)) (clock : Nat) (delay : UInt64)
    (t v : TokenId) : (payloads (Engine.setTimer clocks clock delay t)).count v =
      (payloads clocks).count v + if v = t then 1 else 0 := by
  -- the clocks that come into being have no timers
  have hnew : ∀ n now, (payloads (clocks ++ List.replicate n (.startingAt now))).count v =
      (payloads clocks).count v := by
    intro n now
    unfold payloads
    rw [flatMap_append, count_append]
    have : (List.replicate n (Clock.startingAt now)).flatMap
        (fun c : Clock TokenId => c.timers.map Timer.payload) = [] := by
      rw [flatMap_eq_nil_iff]
      intro c hc
      rw [eq_of_mem_replicate hc]
      rfl
    rw [this]
    rfl
  unfold Engine.setTimer
  dsimp only
  rw [← hnew (clock + 1 - clocks.length) ((clocks.head?.map Clock.now).getD 0)]
  grind [count_flatMap_set, modify_eq_set_getElem?, count_insertTimer, Clock.schedule,
    payloads]

/-- A token comes to wait for a cell. -/
theorem Shifts.park {e : Engine (Logged ω)} {cell : GroupId} {waiters : List TokenId}
    {region : RegionId} (hg : e.groups.get? cell = some grp)
    (hkind : grp.kind = .cell waiters region) (t v : TokenId) :
    Shifts e (e.onGroup cell fun g => { g with kind := .cell (waiters ++ [t]) region }) v 0
      (if v = t then 1 else 0) 0 := by
  have hmodify := Store.count_collect_modify (f := fun grp : Group => grp.kind.waiters) hg
    (fun g => { g with kind := .cell (waiters ++ [t]) region }) v
  have hone : [t].count v = if v = t then 1 else 0 := by
    by_cases hv : v = t
    · simp [hv]
    · simp [hv, Ne.symm hv]
  simp only [hkind, GroupKind.waiters.eq_1, count_append, hone] at hmodify
  refine ⟨(Int.add_zero _).symm, ?_, (Int.add_zero _).symm⟩
  show (((e.groups.modify cell _).collect fun grp => grp.kind.waiters).count v : Int) +
    e.timed.count v + (wakes e.agenda).count v =
    (e.groups.collect fun grp => grp.kind.waiters).count v + e.timed.count v +
      (wakes e.agenda).count v + _
  grind

/-- A token comes to wait on a clock. -/
theorem Shifts.setTimer (e : Engine (Logged ω)) (clock : Nat) (delay : UInt64) (t v : TokenId) :
    Shifts e { e with clocks := Engine.setTimer e.clocks clock delay t } v 0
      (if v = t then 1 else 0) 0 := by
  refine ⟨(Int.add_zero _).symm, ?_, (Int.add_zero _).symm⟩
  show (e.waiting.count v : Int) + (payloads (Engine.setTimer e.clocks clock delay t)).count v +
    (wakes e.agenda).count v =
    e.waiting.count v + (payloads e.clocks).count v + (wakes e.agenda).count v + _
  rw [count_setTimer]
  split <;> omega

/-- Dropping timers counts for those whose timers are dropped only. -/
theorem count_retain (clocks : List (Clock TokenId)) (keep : TokenId → Bool) (v : TokenId) :
    (payloads (clocks.map fun c => c.retain keep)).count v =
      if keep v = true then (payloads clocks).count v else 0 := by
  have hfilter : payloads (clocks.map fun c => c.retain keep) = (payloads clocks).filter keep := by
    unfold payloads
    induction clocks with
    | nil => rfl
    | cons c cs ih => grind [Function.comp_def, Clock.retain]
  grind [count_filter, count_eq_zero]

/-- A tick takes from the clocks what is due. -/
theorem count_tick (clocks : List (Clock TokenId)) (v : TokenId) :
    ((clocks.map Clock.tick).flatMap Prod.fst).count v +
      (payloads ((clocks.map Clock.tick).map Prod.snd)).count v = (payloads clocks).count v := by
  unfold payloads
  induction clocks with
  | nil => rfl
  | cons c cs ih => grind [takeWhile_append_dropWhile, Clock.tick]

namespace Engine

variable {ω : Type}

/-- The tokens whose timers are due at the next tick. -/
def due (e : Engine ω) : List TokenId := (e.clocks.map Clock.tick).flatMap Prod.fst

theorem timed_of_due {e : Engine ω} (h : v ∈ e.due) : v ∈ e.timed := by
  have htick := count_tick e.clocks v
  have hpos : 0 < ((e.clocks.map Clock.tick).flatMap Prod.fst).count v := count_pos_iff.2 h
  exact count_pos_iff.1 (Nat.lt_of_lt_of_le hpos (htick ▸ Nat.le_add_right ..))

theorem timed_of_dropDeadTimers {e : Engine ω} (h : v ∈ e.dropDeadTimers.timed) : v ∈ e.timed := by
  have hretain := count_retain e.clocks e.tokens.contains v
  have hpos : 0 < (payloads (e.clocks.map fun c => c.retain e.tokens.contains)).count v :=
    count_pos_iff.2 h
  rw [hretain] at hpos
  split at hpos
  · exact count_pos_iff.1 hpos
  · cases hpos

theorem tick_token (e : Engine ω) (v : TokenId) : e.tick.tokens.get? v =
    if v ∈ e.due then (e.tokens.get? v).map Token.woken
    else e.tokens.get? v := wakeAll_token _ e.due v

theorem tick_next (e : Engine ω) : e.tick.tokens.next = e.tokens.next := wakeAll_next _ e.due

end Engine

/-- A tick sends those on whose timers are due. -/
theorem Shifts.tick (e : Engine (Logged ω)) (v : TokenId) :
    Shifts e e.tick v (if e.tokens.contains v = true then (e.due.count v : Int) else 0)
      (-(e.due.count v : Int)) 0 := by
  have htick := count_tick e.clocks v
  have hdue : (e.due.filter e.tokens.contains).count v =
      if e.tokens.contains v = true then e.due.count v else 0 := by
    grind [count_filter, count_eq_zero]
  have heq : e.tick = _ := Engine.wakeAll_eq _ e.due
  rw [heq]
  refine ⟨?_, ?_, (Int.add_zero _).symm⟩
  · show ((e.ready ++ e.due.filter e.tokens.contains).count v : Int) + (errands e.agenda).count v =
      e.ready.count v + (errands e.agenda).count v + _
    rw [count_append, hdue]
    split <;> omega
  · show (e.waiting.count v : Int) + (payloads ((e.clocks.map Clock.tick).map Prod.snd)).count v +
      (wakes e.agenda).count v =
      e.waiting.count v + (payloads e.clocks).count v + (wakes e.agenda).count v + _
    unfold Engine.due
    omega

/-- A tick moves nobody whose timer is not due. -/
theorem Shifts.tick_of_not_due {e : Engine (Logged ω)} (h : v ∉ e.due) :
    Shifts e e.tick v 0 0 0 := by
  have hshift := tick e v
  rw [count_eq_zero.2 h] at hshift
  split at hshift <;> exact hshift

end Orchestra
