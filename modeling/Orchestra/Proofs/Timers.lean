/-
  A clock releases what is due, in order, and nothing else.

  The past of a clock is the list of what was asked of it, the latest first.  A BOOKING is a payload
  that was scheduled, with its place in the past and the tick at which it is due.

  1. **The specification** speaks of the past alone.  A booking ENDS at the first tick that reaches its
     due tick, or at the first `retain` that rejects its payload; until then it WAITS.

  2. **The crux** (`Lines`): the timers of the clock are the bookings that wait, by due tick and
     then by place.  A new timer is put behind all that are due no later, and as it has the last place
     this keeps the order; in a list in order, what a tick takes from the front is all that is due.

  3. **The heap** (`HeapClock.Refines`): a clock on a heap holds the same timers, numbered in the order
     in which they were set.  Its heap gives them by deadline and then by number, which is the order
     in which the list has them, so both clocks do the same as long as the words are in range.
-/
import Mathlib.Data.List.TakeWhile
import Mathlib.Logic.ExistsUnique
import Orchestra.Proofs.Heaps
import Orchestra.HeapClock

namespace Orchestra

open List

namespace Clock

variable {α : Type}

/-! ## Pasts -/

/-- What is asked of a clock. -/
inductive Action (α : Type) where
  | schedule (delay : UInt64) (payload : α)
  | retain (keep : α → Bool)
  | tick

/-- The clock after one more action. -/
def perform (c : Clock α) : Action α → Clock α
  | .schedule delay payload => c.schedule delay payload
  | .retain keep => c.retain keep
  | .tick => c.tick.2

/-- The clock after a past, the latest action first. -/
def since (c : Clock α) : List (Action α) → Clock α
  | [] => c
  | a :: past => (c.since past).perform a

def Action.isTick : Action α → Bool
  | .tick => true
  | _ => false

def Action.isSchedule : Action α → Bool
  | .schedule .. => true
  | _ => false

/-- The tick that a clock shows which began with `start`. -/
def shown (start : Nat) (past : List (Action α)) : Nat := start + past.countP Action.isTick

/-- A payload that was scheduled as action number `place`, and is due at a tick. -/
structure Booking (α : Type) where
  place : Nat
  due : Nat
  payload : α

/-- What is due earlier comes first, and of what is due together the one that was booked first. -/
def Booking.Before (a b : Booking α) : Prop := a.due < b.due ∨ a.due = b.due ∧ a.place < b.place

theorem Booking.Before.due_le {a b : Booking α} (h : a.Before b) : a.due ≤ b.due :=
  h.elim Nat.le_of_lt fun hsame => Nat.le_of_eq hsame.1

/-- The booking was made in the past. -/
def Booked (start : Nat) (past : List (Action α)) (b : Booking α) : Prop :=
  ∃ delay before, .schedule delay b.payload :: before <:+ past ∧ b.place = before.length ∧
    b.due = min (shown start before + delay.toNat) (UInt64.size - 1)

/-- An action after the given past is the end of a booking that still waits. -/
def Ends (start : Nat) (past : List (Action α)) (b : Booking α) : Action α → Prop
  | .tick => b.due ≤ shown start past + 1
  | .retain keep => keep b.payload = false
  | .schedule .. => False

/-- The booking was made, and nothing since was its end. -/
def Waits (start : Nat) (past : List (Action α)) (b : Booking α) : Prop :=
  Booked start past b ∧
    ∀ a earlier, a :: earlier <:+ past → b.place < earlier.length → ¬Ends start earlier b a

/-- After the past `earlier`, the booking was released or dropped. -/
def Leaves (start : Nat) (past : List (Action α)) (b : Booking α) (earlier : List (Action α)) : Prop :=
  ∃ a, a :: earlier <:+ past ∧ Waits start earlier b ∧ Ends start earlier b a

/-! ## Bookings -/

variable {start : Nat} {past : List (Action α)} {a : Action α} {b : Booking α}

theorem shown_cons : shown start (a :: past) = shown start past + if a.isTick then 1 else 0 := by
  simp only [shown, countP_cons]
  omega

theorem Booked.place_lt (h : Booked start past b) : b.place < past.length := by
  obtain ⟨delay, before, hsuffix, hplace, -⟩ := h
  exact hplace ▸ hsuffix.length_le

theorem Booked.due_lt (h : Booked start past b) : b.due < UInt64.size := by
  obtain ⟨delay, before, -, -, hdue⟩ := h
  have : 0 < UInt64.size := by decide
  omega

/-- Only scheduling makes a booking. -/
theorem booked_cons : Booked start (a :: past) b ↔ Booked start past b ∨
    ∃ delay, a = .schedule delay b.payload ∧ b.place = past.length ∧
      b.due = min (shown start past + delay.toNat) (UInt64.size - 1) := by
  constructor
  · rintro ⟨delay, before, hsuffix, hb⟩
    rcases suffix_cons_iff.1 hsuffix with heq | hsuffix
    · cases heq
      exact .inr ⟨delay, rfl, hb⟩
    · exact .inl ⟨delay, before, hsuffix, hb⟩
  · rintro (⟨delay, before, hsuffix, hb⟩ | ⟨delay, rfl, hb⟩)
    · exact ⟨delay, before, hsuffix.trans (suffix_cons a past), hb⟩
    · exact ⟨delay, past, suffix_rfl, hb⟩

/-- What waits after an action waited before and did not end, or has just been booked. -/
theorem waits_cons : Waits start (a :: past) b ↔ (Waits start past b ∧ ¬Ends start past b a) ∨
    ∃ delay, a = .schedule delay b.payload ∧ b.place = past.length ∧
      b.due = min (shown start past + delay.toNat) (UInt64.size - 1) := by
  constructor
  · rintro ⟨hbooked, hopen⟩
    refine (booked_cons.1 hbooked).imp_left fun hbooked => ⟨⟨hbooked, fun a' earlier hsuffix => ?_⟩, ?_⟩
    · exact hopen a' earlier (hsuffix.trans (suffix_cons a past))
    · exact hopen a past suffix_rfl hbooked.place_lt
  · rintro (⟨⟨hbooked, hopen⟩, hend⟩ | hnew)
    · refine ⟨booked_cons.2 (.inl hbooked), fun a' earlier hsuffix hlater => ?_⟩
      grind [suffix_cons_iff]
    · refine ⟨booked_cons.2 (.inr hnew), fun a' earlier hsuffix hlater => ?_⟩
      -- nothing has happened since the booking was made
      grind

/-- A booking that waits no more has left at some moment. -/
theorem Booked.leaves (h : Booked start past b) (hw : ¬Waits start past b) :
    ∃ earlier, Leaves start past b earlier := by
  induction past with
  | nil => exact absurd h.place_lt (Nat.not_lt_zero _)
  | cons a past ih =>
    rcases booked_cons.1 h with hbooked | hnew
    · by_cases hwaits : Waits start past b
      · by_cases hend : Ends start past b a
        · exact ⟨past, a, suffix_rfl, hwaits, hend⟩
        · exact absurd (waits_cons.2 (.inl ⟨hwaits, hend⟩)) hw
      · obtain ⟨earlier, a', hsuffix, hleaves⟩ := ih hbooked hwaits
        exact ⟨earlier, a', hsuffix.trans (suffix_cons a past), hleaves⟩
    · exact absurd (waits_cons.2 (.inr hnew)) hw

/-- What has left at a moment does not wait later. -/
theorem Leaves.not_waits {earlier later : List (Action α)} (h : Leaves start past b earlier)
    (hlater : later <:+ past) (hlength : earlier.length < later.length) : ¬Waits start later b := by
  obtain ⟨a, hsuffix, hwaits, hend⟩ := h
  have hinner : a :: earlier <:+ later := suffix_of_suffix_length_le hsuffix hlater hlength
  exact fun hw => hw.2 a earlier hinner hwaits.1.place_lt hend

/-- A booking leaves at one moment only. -/
theorem Leaves.unique {m m' : List (Action α)} (h : Leaves start past b m)
    (h' : Leaves start past b m') : m = m' := by
  have hm : m <:+ past := (suffix_cons _ m).trans h.choose_spec.1
  have hm' : m' <:+ past := (suffix_cons _ m').trans h'.choose_spec.1
  rcases Nat.lt_trichotomy m.length m'.length with hlt | heq | hgt
  · exact absurd h'.choose_spec.2.1 (h.not_waits hm' hlt)
  · exact (suffix_of_suffix_length_le hm hm' (Nat.le_of_eq heq)).eq_of_length heq
  · exact absurd h.choose_spec.2.1 (h'.not_waits hm hgt)

/-! ## Lists in order -/

/-- What comes first in a list satisfies all that is satisfied further on. -/
theorem takeWhile_eq_filter {β : Type} {p : β → Bool} {l : List β}
    (h : l.Pairwise fun x y => p y = true → p x = true) :
    l.takeWhile p = l.filter p ∧ l.dropWhile p = l.filter fun x => !p x := by
  induction l with
  | nil => exact ⟨rfl, rfl⟩
  | cons x l ih =>
    obtain ⟨hx, hl⟩ := pairwise_cons.1 h
    cases hp : p x with
    | true => simp [hp, ih hl]
    | false =>
      have hnone : ∀ y ∈ l, p y = false := fun y hy =>
        Bool.eq_false_iff.2 fun hpy => by simp [hp] at hx; simp [hx y hy] at hpy
      simp [hp, filter_eq_nil_iff.2 fun y hy => Bool.eq_false_iff.1 (hnone y hy),
        filter_eq_self.2 fun y hy => show (!p y) = true by rw [hnone y hy]; rfl]

theorem insertTimer_eq (t : Timer α) (ts : List (Timer α)) : insertTimer t ts =
    ts.takeWhile (fun u => u.deadline ≤ t.deadline) ++
      t :: ts.dropWhile fun u => u.deadline ≤ t.deadline := by
  induction ts with
  | nil => rfl
  | cons u us ih =>
    unfold insertTimer
    split
    · rename_i hle
      simp [hle, ih]
    · rename_i hlt
      simp [hlt]

/-- In a list in order there is a place for an entry behind all that satisfy `p`. -/
theorem pairwise_insert {β : Type} {before : β → β → Prop} {p : β → Bool} {l : List β} {b : β}
    (h : l.Pairwise before) (hp : ∀ {x y}, before x y → p y = true → p x = true)
    (hfront : ∀ x ∈ l, p x = true → before x b) (hback : ∀ y ∈ l, p y = false → before b y) :
    (l.filter p ++ b :: l.filter fun x => !p x).Pairwise before := by
  obtain ⟨htake, hdrop⟩ := takeWhile_eq_filter (h.imp hp)
  have hsplit : (l.filter p ++ l.filter fun x => !p x).Pairwise before := by
    rw [← htake, ← hdrop, takeWhile_append_dropWhile]
    exact h
  obtain ⟨hfirst, hlast, hcross⟩ := pairwise_append.1 hsplit
  rw [pairwise_append, pairwise_cons]
  refine ⟨hfirst, ⟨fun y hy => ?_, hlast⟩, fun x hx y hy => ?_⟩
  · obtain ⟨hy, hnot⟩ := mem_filter.1 hy
    exact hback y hy (Bool.not_eq_true' _ ▸ hnot)
  · rcases mem_cons.1 hy with rfl | hy
    · obtain ⟨hx, hpx⟩ := mem_filter.1 hx
      exact hfront x hx hpx
    · exact hcross x hx y hy

/-! ## The timers of a clock -/

/-- The timer of a booking. -/
def Booking.timer (b : Booking α) : Timer α := ⟨.ofNat b.due, b.payload⟩

/-- The clock shows the right tick, and its timers are those of a line. -/
structure Lines (start : Nat) (past : List (Action α)) (c : Clock α) (line : List (Booking α)) :
    Prop where
  now : c.now.toNat = shown start past
  mem : ∀ b, b ∈ line ↔ Waits start past b
  sorted : line.Pairwise Booking.Before
  timers : c.timers = line.map Booking.timer

theorem deadlineAfter_eq (now delay : UInt64) :
    deadlineAfter now delay = .ofNat (min (now.toNat + delay.toNat) (UInt64.size - 1)) := by
  unfold deadlineAfter
  split
  · grind [UInt64.ofNat_add, UInt64.ofNat_toNat]
  · rename_i hge
    rw [Nat.min_eq_right (by omega)]
    rfl

namespace Lines

variable {c : Clock α} {line : List (Booking α)}

section

variable (h : Lines start past c line)

include h

/-- Deadlines are compared as the due ticks are. -/
theorem deadline_le (hb : b ∈ line) {d : Nat} (hd : d < UInt64.size) :
    b.timer.deadline ≤ .ofNat d ↔ b.due ≤ d := by
  have hdue := ((h.mem b).1 hb).1.due_lt
  rw [Booking.timer, UInt64.le_iff_toNat_le, UInt64.toNat_ofNat_of_lt' hdue,
    UInt64.toNat_ofNat_of_lt' hd]

/-- What is taken from the front of the timers up to a tick is all that is due by then. -/
theorem split_timers {d : Nat} (hd : d < UInt64.size) :
    c.timers.takeWhile (fun t => t.deadline ≤ .ofNat d) =
        (line.filter fun b => b.due ≤ d).map Booking.timer ∧
      c.timers.dropWhile (fun t => t.deadline ≤ .ofNat d) =
        (line.filter fun b => !decide (b.due ≤ d)).map Booking.timer := by
  have hsame : ∀ b ∈ line, decide (b.timer.deadline ≤ .ofNat d) = decide (b.due ≤ d) :=
    fun b hb => decide_eq_decide.2 (h.deadline_le hb hd)
  have hfront : line.Pairwise fun x y => decide (y.timer.deadline ≤ .ofNat d) = true →
      decide (x.timer.deadline ≤ .ofNat d) = true := by
    refine h.sorted.imp_of_mem fun {x y} hx hy hxy => ?_
    rw [hsame x hx, hsame y hy, decide_eq_true_eq, decide_eq_true_eq]
    exact hxy.due_le.trans
  obtain ⟨htake, hdrop⟩ := takeWhile_eq_filter hfront
  rw [h.timers, takeWhile_map, dropWhile_map]
  refine ⟨congrArg _ (htake.trans (filter_congr hsame)), congrArg _ (hdrop.trans ?_)⟩
  exact filter_congr fun b hb => congrArg (!·) (hsame b hb)

/-- A booking that is made goes behind all that are due no later. -/
theorem schedule (delay : UInt64) (payload : α) :
    ∃ line, Lines start (.schedule delay payload :: past) (c.schedule delay payload) line := by
  obtain ⟨d, hd⟩ : ∃ d, d = min (shown start past + delay.toNat) (UInt64.size - 1) := ⟨_, rfl⟩
  have hfit : d < UInt64.size := by
    have : 0 < UInt64.size := by decide
    omega
  let new : Booking α := ⟨past.length, d, payload⟩
  obtain ⟨hfront, hback⟩ := h.split_timers hfit
  refine ⟨line.filter (fun b => b.due ≤ d) ++ new :: line.filter fun b => !decide (b.due ≤ d),
    h.now, fun b => ?_, ?_, ?_⟩
  · rw [waits_cons]
    simp only [mem_append, mem_cons, mem_filter, h.mem, decide_eq_true_eq,
      Bool.not_eq_true', decide_eq_false_iff_not, Action.schedule.injEq, Ends, not_false_iff,
      and_true]
    constructor
    · grind
    · rintro (hw | ⟨_, ⟨rfl, hpayload⟩, hplace, hdue⟩)
      · grind
      · refine .inr (.inl ?_)
        cases b
        cases hpayload
        cases hplace
        cases hdue.trans hd.symm
        rfl
  · refine pairwise_insert h.sorted ?_ (fun x hx hle => ?_) fun y hy hlater => ?_
    · exact fun hxy hy => decide_eq_true (hxy.due_le.trans (of_decide_eq_true hy))
    · -- of those that are due at the same tick, the new one was booked last
      rcases Nat.lt_or_eq_of_le (of_decide_eq_true hle) with hlt | heq
      · exact .inl hlt
      · exact .inr ⟨heq, ((h.mem x).1 hx).1.place_lt⟩
    · exact .inl (Nat.lt_of_not_le (of_decide_eq_false hlater))
  · show insertTimer ⟨deadlineAfter c.now delay, payload⟩ c.timers = _
    rw [deadlineAfter_eq, h.now, ← hd, insertTimer_eq, hfront, hback, map_append, map_cons]
    rfl

/-- What is retained keeps its order. -/
theorem retain (keep : α → Bool) :
    Lines start (.retain keep :: past) (c.retain keep) (line.filter fun b => keep b.payload) where
  now := h.now
  mem b := by simp [waits_cons, h.mem, Ends]
  sorted := h.sorted.filter _
  timers := by
    show c.timers.filter _ = _
    rw [h.timers, filter_map]
    rfl

theorem now_add_one : c.now + 1 = .ofNat (shown start past + 1) := by
  rw [UInt64.ofNat_add, ← h.now, UInt64.ofNat_toNat]
  rfl

end

variable (hfit : shown start past + 1 < UInt64.size)
include hfit

/-- A tick releases what is due by the new tick, in order. -/
theorem released (h : Lines start past c line) : c.tick.1 =
    (line.filter fun b => b.due ≤ shown start past + 1).map Booking.payload := by
  show (c.timers.takeWhile fun t => t.deadline ≤ c.now + 1).map Timer.payload = _
  rw [h.now_add_one, (h.split_timers hfit).1, map_map]
  rfl

/-- What is not released waits on. -/
theorem tick (h : Lines start past c line) : Lines start (.tick :: past) c.tick.2
    (line.filter fun b => !decide (b.due ≤ shown start past + 1)) where
  now := by
    show (c.now + 1).toNat = _
    rw [h.now_add_one, UInt64.toNat_ofNat_of_lt' hfit, shown_cons]
    rfl
  mem b := by simp [waits_cons, h.mem, Ends]
  sorted := h.sorted.filter _
  timers := by
    show c.timers.dropWhile (fun t => t.deadline ≤ c.now + 1) = _
    rw [h.now_add_one, (h.split_timers hfit).2]

end Lines

/-- After any past, the timers are the bookings that wait, in order. -/
theorem lines_since (first : UInt64) (past : List (Action α))
    (hfit : shown first.toNat past < UInt64.size) :
    ∃ line, Lines first.toNat past ((startingAt first).since past) line := by
  induction past with
  | nil =>
    refine ⟨[], rfl, fun b => iff_of_false (by simp) fun hw => ?_, .nil, rfl⟩
    exact absurd hw.1.place_lt (Nat.not_lt_zero _)
  | cons a past ih =>
    rw [shown_cons] at hfit
    obtain ⟨line, h⟩ := ih (by omega)
    cases a with
    | schedule delay payload => exact h.schedule delay payload
    | retain keep => exact ⟨_, h.retain keep⟩
    | tick => exact ⟨_, h.tick hfit⟩

end Clock

/-! ## Clocks on a heap -/

namespace Alarm

variable {α : Type} {a b : Alarm α}

/-- The timer without its number. -/
def timer (a : Alarm α) : Timer α := ⟨a.deadline, a.payload⟩

/-- The earlier deadline comes first, then the smaller number. -/
def Before (a b : Alarm α) : Prop := a.deadline < b.deadline ∨ a.deadline = b.deadline ∧ a.seq < b.seq

instance : Std.TransOrd (Alarm α) :=
  inferInstanceAs (Std.TransCmp fun a b : Alarm α =>
    compareLex (compareOn Alarm.deadline) (compareOn Alarm.seq) b a)

/-- What comes first is the greater one. -/
theorem Before.not_isLE (h : a.Before b) : ¬(compare a b).isLE := by
  have hgt : ∀ {m n : UInt64}, m < n → compare n m = .gt := by
    intro m n hlt
    show compareOfLessAndEq n m = .gt
    rw [compareOfLessAndEq, if_neg (UInt64.lt_asymm hlt), if_neg (UInt64.ne_of_lt hlt).symm]
  show ¬((compare b.deadline a.deadline).then (compare b.seq a.seq)).isLE
  rcases h with hlt | ⟨heq, hlt⟩
  · rw [hgt hlt]
    exact Bool.false_ne_true
  · have hsame : compare b.deadline a.deadline = .eq := by simp [heq]
    rw [hsame, hgt hlt]
    exact Bool.false_ne_true

theorem Before.deadline_le (h : a.Before b) : a.deadline ≤ b.deadline :=
  h.elim UInt64.le_of_lt fun hsame => hsame.1 ▸ UInt64.le_refl _

end Alarm

namespace HeapClock

variable {α : Type} {h : HeapClock α} {c : Clock α} {line : List (Alarm α)}

theorem successor?_eq {n : UInt64} (hn : n.toNat + 1 < UInt64.size) :
    successor? n = some (n + 1) ∧ (n + 1).toNat = n.toNat + 1 := by
  refine ⟨if_neg ?_, (UInt64.toNat_add ..).trans (Nat.mod_eq_of_lt hn)⟩
  rintro rfl
  exact absurd hn (by decide)

/-- What is taken out of the heap is what stands in front of a line in order. -/
theorem takeDue_eq (now : UInt64) {timers : Heap (Alarm α)} (ho : timers.Ordered)
    (hperm : timers.toList.Perm line) (hsorted : line.Pairwise Alarm.Before) :
    (takeDue now timers).1 = (line.takeWhile fun a => a.deadline ≤ now).map Alarm.payload ∧
      (takeDue now timers).2.Ordered ∧
      (takeDue now timers).2.toList.Perm (line.dropWhile fun a => a.deadline ≤ now) := by
  induction line generalizing timers with
  | nil =>
    unfold takeDue
    split
    · exact ⟨rfl, ho, hperm⟩
    · rename_i first rest hpop
      have hmem := (ho.pop? hpop).2.1.symm.trans hperm
      cases hmem.eq_nil
  | cons a line ih =>
    obtain ⟨hfirst, htail⟩ := pairwise_cons.1 hsorted
    unfold takeDue
    split
    · rename_i hpop
      rw [Heap.pop?_eq_none hpop] at hperm
      cases hperm.symm.eq_nil
    · rename_i first rest hpop
      obtain ⟨hrest, hleft, hmax⟩ := ho.pop? hpop
      have hline := hleft.symm.trans hperm
      -- the greatest entry is the first one of the line
      obtain rfl : first = a := by
        refine (mem_cons.1 (hline.mem_iff.1 mem_cons_self)).resolve_right fun hmem => ?_
        exact (hfirst first hmem).not_isLE (hmax a (hperm.mem_iff.2 mem_cons_self))
      obtain ⟨hdue, hordered, hleft⟩ := ih hrest hline.cons_inv htail
      split
      · rename_i hle
        simp only [hle, decide_true, takeWhile_cons_of_pos, dropWhile_cons_of_pos,
          map_cons, hdue]
        exact ⟨trivial, hordered, hleft⟩
      · rename_i hlt
        simp only [hlt, decide_false, Bool.false_eq_true, not_false_eq_true,
          takeWhile_cons_of_neg, dropWhile_cons_of_neg]
        exact ⟨rfl, ho, hperm⟩

/-- The clock on a heap holds the timers of a list, numbered in the order in which they were set. -/
structure Refines (h : HeapClock α) (c : Clock α) (line : List (Alarm α)) : Prop where
  now : h.now = c.now
  ordered : h.timers.Ordered
  perm : h.timers.toList.Perm line
  sorted : line.Pairwise Alarm.Before
  numbered : ∀ a ∈ line, a.seq < h.nextSeq
  timers : c.timers = line.map Alarm.timer

namespace Refines

/-- A new timer has the last number, so both clocks put it behind those due with it. -/
theorem schedule (hr : h.Refines c line) (hseq : h.nextSeq.toNat + 1 < UInt64.size) (delay : UInt64)
    (payload : α) : ∃ h' line', h.schedule delay payload = some h' ∧
      h'.Refines (c.schedule delay payload) line' ∧ h'.nextSeq.toNat = h.nextSeq.toNat + 1 := by
  obtain ⟨hnext, hcount⟩ := successor?_eq hseq
  let new : Alarm α := ⟨Clock.deadlineAfter h.now delay, h.nextSeq, payload⟩
  have hlater : h.nextSeq < h.nextSeq + 1 := UInt64.lt_iff_toNat_lt.2 (by omega)
  let due : Alarm α → Bool := fun a => a.deadline ≤ new.deadline
  have hdue : ∀ {a b : Alarm α}, a.Before b → due b = true → due a = true := fun hab hb =>
    decide_eq_true (UInt64.le_trans hab.deadline_le (of_decide_eq_true hb))
  refine ⟨{ h with nextSeq := h.nextSeq + 1, timers := h.timers.push new },
    line.filter due ++ new :: line.filter fun a => !due a, by simp [HeapClock.schedule, hnext, new],
    ⟨hr.now, hr.ordered.push new, ?_, Clock.pairwise_insert hr.sorted hdue ?_ ?_, ?_, ?_⟩, hcount⟩
  · refine (Heap.perm_push ..).trans ((hr.perm.cons new).trans ?_)
    exact ((filter_append_perm due line).symm.cons new).trans perm_middle.symm
  · intro a ha hle
    rcases UInt64.lt_or_eq_of_le (of_decide_eq_true hle) with hlt | heq
    · exact .inl hlt
    · exact .inr ⟨heq, hr.numbered a ha⟩
  · exact fun a _ hlater => .inl (UInt64.not_le.1 (of_decide_eq_false hlater))
  · intro a ha
    have hold : a = new ∨ a ∈ line := by grind
    rcases hold with rfl | ha
    · exact hlater
    · exact UInt64.lt_trans (hr.numbered a ha) hlater
  · show Clock.insertTimer ⟨Clock.deadlineAfter c.now delay, payload⟩ c.timers = _
    obtain ⟨htake, hdrop⟩ := Clock.takeWhile_eq_filter (hr.sorted.imp hdue)
    rw [Clock.insertTimer_eq, hr.timers, takeWhile_map, dropWhile_map, map_append,
      map_cons, ← hr.now, ← htake, ← hdrop]
    rfl

theorem retain (hr : h.Refines c line) (keep : α → Bool) :
    (h.retain keep).Refines (c.retain keep) (line.filter fun a => keep a.payload) where
  now := hr.now
  ordered := Heap.Ordered.retain h.timers _
  perm := (Heap.perm_retain ..).trans (hr.perm.filter _)
  sorted := hr.sorted.filter _
  numbered a ha := hr.numbered a (mem_filter.1 ha).1
  timers := by
    show c.timers.filter _ = _
    rw [hr.timers, filter_map]
    rfl

/-- A tick takes the same timers from both clocks. -/
theorem tick (hr : h.Refines c line) (hnow : h.now.toNat + 1 < UInt64.size) :
    ∃ h' line', h.tick = some (c.tick.1, h') ∧ h'.Refines c.tick.2 line' ∧
      h'.nextSeq = h.nextSeq := by
  obtain ⟨hdue, hordered, hleft⟩ := takeDue_eq (h.now + 1) hr.ordered hr.perm hr.sorted
  have hreleased : c.tick.1 = (takeDue (h.now + 1) h.timers).1 := by
    show (c.timers.takeWhile fun t => t.deadline ≤ c.now + 1).map Timer.payload = _
    rw [hdue, hr.timers, takeWhile_map, map_map, ← hr.now]
    rfl
  refine ⟨{ h with now := h.now + 1, timers := (takeDue (h.now + 1) h.timers).2 },
    line.dropWhile fun a => a.deadline ≤ h.now + 1, ?_, ⟨?_, hordered, hleft, ?_, ?_, ?_⟩, rfl⟩
  · simp [HeapClock.tick, (successor?_eq hnow).1, hreleased]
  · exact congrArg (· + 1) hr.now
  · exact hr.sorted.sublist (dropWhile_sublist _)
  · exact fun a ha => hr.numbered a ((dropWhile_sublist _).subset ha)
  · show c.timers.dropWhile (fun t => t.deadline ≤ c.now + 1) = _
    rw [hr.timers, dropWhile_map, ← hr.now]
    rfl

end Refines

/-- The clock after one more action, if its words stay in range. -/
def perform (c : HeapClock α) : Clock.Action α → Option (HeapClock α)
  | .schedule delay payload => c.schedule delay payload
  | .retain keep => some (c.retain keep)
  | .tick => c.tick.map Prod.snd

/-- The clock after a past, the latest action first. -/
def since (c : HeapClock α) : List (Clock.Action α) → Option (HeapClock α)
  | [] => some c
  | a :: past => (c.since past).bind (·.perform a)

/-- The pending payloads, in the order in which they are released. -/
def queue (c : HeapClock α) : List α := (takeDue 0xffffffffffffffff c.timers).1

theorem Refines.queue_eq (hr : h.Refines c line) : h.queue = c.timers.map Timer.payload := by
  have hall : line.takeWhile (fun a => a.deadline ≤ 0xffffffffffffffff) = line :=
    takeWhile_eq_self_iff.2 fun a _ => decide_eq_true (UInt64.le_iff_toNat_le.2
      (Nat.le_of_lt_succ a.deadline.toNat_lt))
  rw [queue, (takeDue_eq _ hr.ordered hr.perm hr.sorted).1, hall, hr.timers, map_map]
  rfl

open Clock

/-- Both clocks do the same, as long as the words are in range. -/
theorem refines_since (first : UInt64) (past : List (Action α))
    (hfit : shown first.toNat past < UInt64.size)
    (hcount : past.countP Action.isSchedule < UInt64.size) :
    ∃ h line, (startingAt first).since past = some h ∧
      h.Refines ((Clock.startingAt first).since past) line ∧
      h.nextSeq.toNat = past.countP Action.isSchedule := by
  induction past with
  | nil => exact ⟨_, [], rfl, ⟨rfl, trivial, .nil, .nil, nofun, rfl⟩, rfl⟩
  | cons a past ih =>
    rw [shown_cons] at hfit
    rw [countP_cons] at hcount
    obtain ⟨h, line, hsince, hr, hseq⟩ := ih (by omega) (by omega)
    have hstep : (startingAt first).since (a :: past) = h.perform a := by
      rw [since, hsince]
      rfl
    rw [hstep, countP_cons, ← hseq]
    rw [← hseq] at hcount
    cases a with
    | schedule delay payload => exact hr.schedule hcount delay payload
    | retain keep => exact ⟨_, _, rfl, hr.retain keep, rfl⟩
    | tick =>
      obtain ⟨_, hlines⟩ := lines_since first past (Nat.lt_of_succ_lt hfit)
      have hnow : h.now.toNat + 1 < UInt64.size := by
        rw [hr.now, hlines.now]
        exact hfit
      obtain ⟨h', line', htick, hr', hsame⟩ := hr.tick hnow
      refine ⟨h', line', ?_, hr', congrArg UInt64.toNat hsame⟩
      rw [perform, htick]
      rfl

/-- A clock releases exactly what is due.  After any past that its words can count, the clock is
    there, and its pending payloads are those of the bookings that wait, in the order of their due ticks
    and then of their booking.  The next tick releases those that have become due, and `retain` drops
    those that it rejects, both without a change of order.  Every booking that waits no more has been
    released or dropped at exactly one moment: at the first tick that reached its due tick, or at the
    first `retain` that rejected it. -/
theorem releases_what_is_due (first : UInt64) (past : List (Action α))
    (hfit : shown first.toNat past + 1 < UInt64.size)
    (hcount : past.countP Action.isSchedule < UInt64.size) :
    ∃ (c : HeapClock α) (line : List (Booking α)), (startingAt first).since past = some c ∧
      (∀ b, b ∈ line ↔ Waits first.toNat past b) ∧ line.Pairwise Booking.Before ∧
      c.pending = line.length ∧ c.queue = line.map Booking.payload ∧
      c.now.toNat = shown first.toNat past ∧
      (∃ later, c.tick =
        some ((line.filter fun b => b.due ≤ shown first.toNat past + 1).map Booking.payload, later)) ∧
      (∀ keep, (c.retain keep).queue =
        (line.filter fun b => keep b.payload).map Booking.payload) ∧
      ∀ b, Booked first.toNat past b →
        (¬Waits first.toNat past b ↔ ∃! earlier, Leaves first.toNat past b earlier) := by
  obtain ⟨line, h⟩ := lines_since first past (Nat.lt_of_succ_lt hfit)
  obtain ⟨c, alarms, hsince, hr, -⟩ := refines_since first past (Nat.lt_of_succ_lt hfit) hcount
  have hnow : c.now.toNat = shown first.toNat past := by rw [hr.now, h.now]
  refine ⟨c, line, hsince, h.mem, h.sorted, ?_, ?_, hnow, ?_, fun keep => ?_,
    fun b hb => ⟨fun hw => ?_, fun ⟨earlier, hleaves, _⟩ => ?_⟩⟩
  · rw [pending, Heap.size, hr.perm.length_eq,
      ← length_map (f := Alarm.timer), ← hr.timers, h.timers, length_map]
  · rw [hr.queue_eq, h.timers, map_map]
    rfl
  · obtain ⟨later, _, htick, -⟩ := hr.tick (hnow ▸ hfit)
    exact ⟨later, htick.trans (by rw [h.released hfit])⟩
  · rw [(hr.retain keep).queue_eq, (h.retain keep).timers, map_map]
    rfl
  · obtain ⟨earlier, hleaves⟩ := hb.leaves hw
    exact ⟨earlier, hleaves, fun _ h' => h'.unique hleaves⟩
  · exact hleaves.not_waits suffix_rfl hleaves.choose_spec.1.length_le

/-- Three timers near the last tick, one of them dropped: two are pending, and they are released
    together, at the last tick there is and in the order of their booking. -/
theorem releases_what_is_due_saturated :
    ∃ c later, (startingAt 0xfffffffffffffffd).since
        [.retain (· ≠ 20), .schedule 1 30, .schedule 7 20, .tick, .schedule 5 10] = some c ∧
      c.pending = 2 ∧ c.queue = [10, 30] ∧ c.tick = some ([10, 30], later) := by
  obtain ⟨c, line, hsince, -, -, -, -, -, ⟨later, htick⟩, -⟩ := releases_what_is_due
    0xfffffffffffffffd [.retain (· ≠ 20), .schedule 1 30, .schedule 7 20, .tick, .schedule 5 10]
    (by decide) (by decide)
  have hrun : ((startingAt 0xfffffffffffffffd).since [.retain (· ≠ 20), .schedule 1 30,
      .schedule 7 20, .tick, .schedule 5 10]).map
        (fun c => (c.pending, c.queue, c.tick.map Prod.fst)) = some (2, [10, 30], some [10, 30]) := by
    decide +kernel
  rw [hsince, Option.map_some, Option.some_inj, Prod.mk.injEq, Prod.mk.injEq, htick] at hrun
  obtain ⟨hpending, hqueue, hreleased⟩ := hrun
  exact ⟨c, later, hsince, hpending, hqueue,
    htick.trans (congrArg (fun due => some (due, later)) (Option.some.inj hreleased))⟩

end HeapClock
end Orchestra
