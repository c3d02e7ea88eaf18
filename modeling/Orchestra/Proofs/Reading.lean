/-
  What readers make of a text that follows the grammar.

  1. **Where a reader gets** (`Gives`): the value that it finds at a text, and the text behind it.
     Offsets matter to flaws alone and are left out.  Readers are put together from smaller ones,
     and so are these facts (`Gives.bind`).

  2. **Reading a value** (`Reads`): from any text for the value, with blanks in front and anything
     behind that cannot go on with it.  There is one statement for each reader of scalars, lists,
     alternatives and structures.

  3. **Fields in any order** (`Reads.structure`): what a structure has gathered so far depends only
     on which keys it has seen, so it gathers the same from any order of its fields.
-/
import Mathlib.Data.List.Forall2
import Orchestra.Interchange.Program
import Orchestra.Proofs.Json

namespace Orchestra.Interchange

open List

variable {first : Bool} {c : Char} {j : Json} {fs : List (String × Json)}
  {ds rest s t ws : List Char} {items : List Json} {names seen : List String} {depth fuel n : Nat}
  {key name : String}

open Reader

variable {α β σ : Type}

/-- At the text `s` the reader finds `a` and stops at the text `t`. -/
def Gives (r : Reader α) (s : List Char) (a : α) (t : List Char) : Prop :=
  ∀ offset, ∃ offset', r ⟨s, offset⟩ = .ok a ⟨t, offset'⟩

/-- The reader finds `a` in every text for `j`. -/
def Reads (r : Reader α) (j : Json) (a : α) : Prop :=
  ∀ ⦃t : List Char⦄, Written j t → ∀ ⦃ws rest : List Char⦄, Blank ws → Ends rest →
    Gives r (ws ++ t ++ rest) a rest

/-! ## Blanks -/

theorem Blank.nil : Blank [] := nofun

theorem skipBlanksFrom_append (hws : Blank ws) (hs : ∀ c, s.head? = some c → isBlank c = false)
    (offset : Nat) : skipBlanksFrom offset (ws ++ s) = ⟨s, offset + ws.length⟩ := by
  induction ws generalizing offset with
  | nil =>
    cases s with
    | nil => rfl
    | cons c s => simp [skipBlanksFrom, hs c rfl]
  | cons c ws ih =>
    obtain ⟨hc, hws⟩ := forall_mem_cons.1 hws
    simp only [cons_append, skipBlanksFrom, hc, if_true, ih hws, length_cons]
    rw [Nat.add_right_comm, Nat.add_assoc]

/-- A blank or a closing bracket may come behind a value. -/
theorem Blank.ends {ws : List Char} (h : Blank ws) {c : Char} (hc : c = ',' ∨ c = ']' ∨ c = '\x7d')
    (s : List Char) : Ends (ws ++ c :: s) := by
  rintro d hd
  cases ws with
  | nil => cases hd; exact .inr hc
  | cons w ws => cases hd; exact .inl (h _ (mem_cons_self ..))

theorem Blank.ends_self (h : Blank ws) : Ends ws :=
  fun c hc => .inl (h c (mem_of_head? hc))

namespace Gives

variable {r : Reader α} {f : α → Reader β} {s t u ws rest : List Char} {a : α} {b : β} {c : Char}

theorem pure (a : α) (s : List Char) : Gives (Pure.pure a) s a s := fun offset => ⟨offset, rfl⟩

theorem bind (h : Gives r s a t) (h' : Gives (f a) t b u) : Gives (r >>= f) s b u := by
  intro offset
  obtain ⟨offset₁, h⟩ := h offset
  obtain ⟨offset₂, h'⟩ := h' offset₁
  refine ⟨offset₂, ?_⟩
  show EStateM.bind r f ⟨s, offset⟩ = _
  simp only [EStateM.bind, h, h']

theorem map (h : Gives r s a t) (f : α → β) : Gives (do return f (← r)) s (f a) t :=
  h.bind (pure (f a) t)

/-- A reader that looks at its cursor first. -/
theorem get {f : Cursor → Reader β} (h : ∀ offset, Gives (f ⟨s, offset⟩) s b t) :
    Gives (MonadState.get >>= f) s b t := fun offset => h offset offset

theorem skip : Gives Reader.skip (c :: s) () s := fun offset => ⟨offset + c.utf8Size, rfl⟩

theorem peek : Gives Reader.peek s s.head? s := fun offset => ⟨offset, rfl⟩

theorem peekAfterBlanks (hws : Blank ws) (hs : ∀ c, s.head? = some c → isBlank c = false) :
    Gives Reader.peekAfterBlanks (ws ++ s) s.head? s := by
  intro offset
  refine ⟨offset + ws.length, ?_⟩
  show EStateM.Result.ok (skipBlanksFrom offset (ws ++ s)).rest.head?
    (skipBlanksFrom offset (ws ++ s)) = _
  rw [skipBlanksFrom_append hws hs]

/-- The next character behind blanks decides how to go on. -/
theorem peeked {f : Option Char → Reader β} (hws : Blank ws) (hc : isBlank c = false)
    (h : Gives (f (some c)) (c :: s) b t) :
    Gives (Reader.peekAfterBlanks >>= f) (ws ++ c :: s) b t :=
  (peekAfterBlanks hws fun _ hd => by cases hd; exact hc).bind h

theorem enclosed {close : Reader Unit} (hbody : Gives r s a t) (hclose : Gives close t () u) :
    Gives (Reader.enclosed close r) s a u := by
  intro offset
  obtain ⟨offset₁, hbody⟩ := hbody offset
  obtain ⟨offset₂, hclose⟩ := hclose offset₁
  refine ⟨offset₂, ?_⟩
  simp only [Reader.enclosed, hbody, hclose]

end Gives

/-! ## Strings -/

theorem hexDigit?_of (h : HexDigit n c) : hexDigit? c = some n := by
  have hlower : ∀ p ∈ ['0', '1', '2', '3', '4', '5', '6', '7', '8', '9', 'a', 'b', 'c', 'd', 'e',
    'f'].zipIdx, hexDigit? p.1 = some p.2 := by decide
  have hupper : ∀ p ∈ ['0', '1', '2', '3', '4', '5', '6', '7', '8', '9', 'A', 'B', 'C', 'D', 'E',
    'F'].zipIdx, hexDigit? p.1 = some p.2 := by decide
  rcases h with h | h
  · exact hlower (c, n) (mk_mem_zipIdx_iff_getElem?.2 h)
  · exact hupper (c, n) (mk_mem_zipIdx_iff_getElem?.2 h)

theorem hexDigits?_of {u : List Char} (h : Escape n u) :
    ∃ a b c d, u = ['\\', 'u', a, b, c, d] ∧ hexDigits? a b c d = some n := by
  cases h with
  | @intro w x y z a b c d hw hx hy hz =>
    refine ⟨a, b, c, d, rfl, ?_⟩
    simp only [hexDigits?, hexDigit?_of hw, hexDigit?_of hx, hexDigit?_of hy, hexDigit?_of hz,
      Option.bind_eq_bind, Option.bind_some, Option.pure_def, Option.some.injEq]
    omega

theorem escapedChar?_of {e : Char} (h : (c, e) ∈ shortEscapes) :
    escapedChar? e = some c ∧ e ≠ 'u' := by
  have hall : ∀ p ∈ shortEscapes, escapedChar? p.2 = some p.1 ∧ p.2 ≠ 'u' := by decide
  exact hall (c, e) h

/-- No character has the code point of a surrogate. -/
theorem not_surrogate (c : Char) :
    isLowSurrogate c.toNat = false ∧ isHighSurrogate c.toNat = false := by
  have hvalid : c.toNat < 0xd800 ∨ 0xdfff < c.toNat ∧ c.toNat < 0x110000 := c.valid
  grind [isLowSurrogate, isHighSurrogate]

/-- However a text is spelled, it is read back. -/
theorem readString_spelled (h : Spelled s t) (offset : Nat) (acc rest : List Char) :
    ∃ offset', readString offset acc (t ++ '"' :: rest) =
      .ok (String.ofList (acc.reverse ++ s), ⟨rest, offset'⟩) := by
  induction h generalizing offset acc with
  | nil => exact ⟨offset + 1, by simp [readString]⟩
  | @plain c s t hprintable hquote hbackslash hrest ih =>
    obtain ⟨offset', ih⟩ := ih (offset + c.utf8Size) (c :: acc)
    refine ⟨offset', ?_⟩
    rw [cons_append, readString, if_neg (Nat.not_lt.2 hprintable), ih]
    · simp
    all_goals simp [*]
  | @short c e s t hescape hrest ih =>
    obtain ⟨offset', ih⟩ := ih (offset + 2) (c :: acc)
    obtain ⟨hchar, hu⟩ := escapedChar?_of hescape
    refine ⟨offset', ?_⟩
    rw [cons_append, cons_append, readString, hchar]
    · simp [ih]
    all_goals simp [*]
  | @point c n s t u hpoint hescape hrest ih =>
    obtain ⟨offset', ih⟩ := ih (offset + 6) (c :: acc)
    obtain ⟨a₁, a₂, a₃, a₄, rfl, hdigits⟩ := hexDigits?_of hescape
    obtain ⟨hlow, hhigh⟩ := not_surrogate c
    refine ⟨offset', ?_⟩
    rw [hpoint] at hlow hhigh
    simp only [cons_append, nil_append, readString, hdigits, hlow, hhigh]
    rw [← hpoint, Char.ofNat_toNat]
    simpa using ih
  | @surrogates c i k s t u v hi hk hpoint hhigh hlow hrest ih =>
    obtain ⟨offset', ih⟩ := ih (offset + 12) (c :: acc)
    obtain ⟨a₁, a₂, a₃, a₄, rfl, hdigits⟩ := hexDigits?_of hhigh
    obtain ⟨b₁, b₂, b₃, b₄, rfl, hdigits'⟩ := hexDigits?_of hlow
    have hchar : pairedChar (0xd800 + i) (0xdc00 + k) = c := by grind [Char.ofNat_toNat, pairedChar]
    have hi₁ : isLowSurrogate (0xd800 + i) = false := by simp [isLowSurrogate]; omega
    have hi₂ : isHighSurrogate (0xd800 + i) = true := by simp [isHighSurrogate]; omega
    have hk₁ : isLowSurrogate (0xdc00 + k) = true := by simp [isLowSurrogate]; omega
    refine ⟨offset', ?_⟩
    simp only [cons_append, nil_append, readString, hdigits, hdigits', hi₁, hi₂, hk₁, hchar]
    simpa using ih

/-- A string with its quotes, from behind the first one. -/
theorem Quoted.tail {s : String} {k : List Char} (h : Quoted s k) :
    ∃ t, k = '"' :: t ∧ ∀ rest, Gives stringBody (t ++ rest) s rest := by
  cases h with
  | @intro t h =>
    refine ⟨t ++ ['"'], rfl, fun rest => Gives.get fun offset => ?_⟩
    obtain ⟨offset', hread⟩ := readString_spelled h offset [] rest
    rw [append_assoc, singleton_append]
    simp only [hread, reverse_nil, nil_append, String.ofList_toList]
    exact fun _ => ⟨offset', rfl⟩

theorem Reads.string (s : String) : Reads Reader.string (.string s) s := by
  intro t ht ws rest hws hrest
  cases ht with
  | string h =>
    obtain ⟨t, rfl, hbody⟩ := h.tail
    rw [append_assoc]
    exact Gives.peeked hws rfl (Gives.skip.bind (hbody rest))

/-! ## Words and numbers -/

theorem Gives.wordRest (xs s : List Char) : Gives (Reader.wordRest xs) (xs ++ s) () s := by
  induction xs with
  | nil => exact .pure () s
  | cons x xs ih =>
    refine Gives.peek.bind ?_
    grind [bind, skip]

theorem Reads.boolean (b : Bool) : Reads Reader.boolean (.bool b) b := by
  intro t ht ws rest hws hrest
  rw [append_assoc]
  cases ht with
  | bool =>
    cases b with
    | true =>
      exact Gives.peeked hws rfl
        (Gives.skip.bind ((Gives.wordRest ['r', 'u', 'e'] rest).bind (.pure true rest)))
    | false =>
      exact Gives.peeked hws rfl
        (Gives.skip.bind ((Gives.wordRest ['a', 'l', 's', 'e'] rest).bind (.pure false rest)))

theorem digitsValue_toDigits (n : Nat) : digitsValue 0 (Nat.toDigits 10 n) = n := by
  have h := Nat.ofDigitChars_ten_toDigits (n := n)
  rw [Nat.ofDigitChars_eq_foldl] at h
  simpa only [digitsValue, Nat.mul_comm] using h

theorem le_digitsValue (acc : Nat) (ds : List Char) : acc ≤ digitsValue acc ds := by
  induction ds generalizing acc with
  | nil => exact Nat.le_refl acc
  | cons d ds ih =>
    have := ih (acc * 10 + (d.toNat - '0'.toNat))
    simp only [digitsValue, foldl_cons] at this ⊢
    omega

/-- Digits of a number that fits all fit. -/
theorem fittingDigits_eq {acc : Nat} (h : digitsValue acc ds < UInt64.size) :
    fittingDigits acc ds = (digitsValue acc ds, []) := by
  induction ds generalizing acc with
  | nil => rfl
  | cons d ds ih =>
    have hle := le_digitsValue (acc * 10 + (d.toNat - '0'.toNat)) ds
    rw [fittingDigits, if_pos (Nat.lt_of_le_of_lt hle h), ih h]
    rfl

/-- The digits of a positive number start with one that is not zero. -/
theorem toDigits_head (h : n ≠ 0) : (Nat.toDigits 10 n).head? ≠ some '0' := by
  induction n using Nat.strongRecOn with
  | _ n ih =>
    rw [Nat.toDigits_eq_if (by decide)]
    split
    · have hall : ∀ m < 10, m ≠ 0 → [Nat.digitChar m].head? ≠ some '0' := by decide
      exact hall n ‹_› h
    · have hne := ih (n / 10) (by omega) (by omega)
      cases hds : Nat.toDigits 10 (n / 10) with
      | nil => exact absurd hds Nat.toDigits_ne_nil
      | cons d ds => rwa [hds] at hne

/-- What comes behind a number cannot go on with it. -/
theorem Ends.not_numeric (h : Ends rest) (hc : rest.head? = some c) :
    c.isDigit = false ∧ c ≠ '.' ∧ c ≠ 'e' ∧ c ≠ 'E' := by
  have hcases : c = ' ' ∨ c = '\n' ∨ c = '\t' ∨ c = '\r' ∨ c = ',' ∨ c = ']' ∨ c = '\x7d' := by
    simpa [isBlank, or_assoc] using h c hc
  rcases hcases with rfl | rfl | rfl | rfl | rfl | rfl | rfl <;> decide

theorem Gives.digits (hds : ∀ d ∈ ds, d.isDigit = true) (hrest : Ends rest) :
    Gives Reader.digits (ds ++ rest) ds rest := by
  intro offset
  have htake : rest.takeWhile Char.isDigit = [] ∧ rest.dropWhile Char.isDigit = rest := by
    cases rest with
    | nil => exact ⟨rfl, rfl⟩
    | cons c rest =>
      have := (hrest.not_numeric rfl).1
      simp [this]
  refine ⟨offset + ds.length, ?_⟩
  show EStateM.Result.ok ((ds ++ rest).takeWhile Char.isDigit)
    (⟨(ds ++ rest).dropWhile Char.isDigit,
      offset + ((ds ++ rest).takeWhile Char.isDigit).length⟩ : Cursor) = _
  grind [takeWhile_append_of_pos, dropWhile_append_of_pos]

theorem isBlank_of_isDigit (h : c.isDigit = true) : isBlank c = false := by
  cases hblank : isBlank c with
  | false => rfl
  | true =>
    have hcases : c = ' ' ∨ c = '\n' ∨ c = '\t' ∨ c = '\r' := by
      simpa [isBlank, or_assoc] using hblank
    rcases hcases with rfl | rfl | rfl | rfl <;> cases h

/-- Behind a number there is neither a point nor an exponent. -/
theorem Ends.whole (h : Ends rest) {point exponent whole : Reader β} {b : β}
    (hwhole : Gives whole s b t) :
    Gives (match rest.head? with
      | some '.' => point
      | some 'e' | some 'E' => exponent
      | _ => whole) s b t := by
  split
  case h_1 hc => exact absurd rfl (h.not_numeric hc).2.1
  case h_2 hc => exact absurd rfl (h.not_numeric hc).2.2.1
  case h_3 hc => exact absurd rfl (h.not_numeric hc).2.2.2
  case h_4 => exact hwhole

/-- The digits of a number are read back, up to the first other character. -/
theorem Gives.number (positive : Bool) (hn : n < UInt64.size)
    (hnegative : positive = false → n ≠ 0 ∧ n ≤ 0x8000000000000000) (hrest : Ends rest) :
    Gives (Reader.number positive) (Nat.toDigits 10 n ++ rest)
      (if positive then .natural n else .negative (-(n : Int))) rest := by
  have hdigits : ∀ d ∈ Nat.toDigits 10 n, d.isDigit = true :=
    fun d hd => Nat.isDigit_of_mem_toDigits (by decide) (by decide) hd
  have hfit : fittingDigits 0 (Nat.toDigits 10 n) = (n, []) := by
    rw [fittingDigits_eq] <;> rw [digitsValue_toDigits]
    exact hn
  refine Gives.peek.bind ?_
  cases hds : Nat.toDigits 10 n with
  | nil => exact absurd hds Nat.toDigits_ne_nil
  | cons d ds =>
    have hd : d.isDigit = true := hdigits d (by simp [hds])
    simp only [cons_append, head?_cons, hd]
    by_cases hzero : n = 0
    · subst hzero
      obtain ⟨rfl, rfl⟩ : '0' = d ∧ [] = ds := by simpa using hds
      have hnext : rest.head?.any Char.isDigit = false := by
        cases hc : rest.head? with
        | none => rfl
        | some c => exact (hrest.not_numeric hc).1
      have hpositive : positive = true := by grind
      refine Gives.skip.bind (Gives.peek.bind ?_)
      rw [nil_append, hnext]
      refine (Gives.pure [] rest).bind (Gives.peek.bind (hrest.whole ?_))
      rw [hpositive]
      exact .pure _ rest
    · have hne : d ≠ '0' := fun h => toDigits_head hzero (by rw [hds, h]; rfl)
      simp only [hne, if_false, Bool.not_true, Bool.false_eq_true]
      rw [← cons_append, ← hds]
      refine (Gives.digits hdigits hrest).bind ?_
      simp only [hfit]
      refine Gives.peek.bind (hrest.whole ?_)
      grind [pure]

/-- An integer within the bounds of a reader, which are within those of 64 bits. -/
theorem Reads.integer (wanted : String) (low high : Int) {n : Int} (hlow : low ≤ n) (hhigh : n ≤ high)
    (hmin : -0x8000000000000000 ≤ low) (hmax : high ≤ 0xffffffffffffffff) :
    Reads (Reader.integer wanted low high) (.number n) n := by
  intro t ht ws rest hws hrest
  rw [append_assoc]
  have hrange : ∀ m : Int, m = n → Gives (inRange wanted low high m) rest n rest := by
    rintro m rfl
    rw [inRange, if_pos ⟨hlow, hhigh⟩]
    exact .pure m rest
  cases ht with
  | number =>
    rw [Int.toString_eq_repr, Int.repr_eq_if]
    split
    case isTrue hsign =>
      have hsize : n.toNat < UInt64.size := by simp only [UInt64.size]; omega
      have hread := Gives.number true hsize nofun hrest
      rw [Nat.toList_repr]
      cases hds : Nat.toDigits 10 n.toNat with
      | nil => exact absurd hds Nat.toDigits_ne_nil
      | cons d ds =>
        have hd : d.isDigit = true :=
          Nat.isDigit_of_mem_toDigits (by decide) (by decide) (hds ▸ mem_cons_self ..)
        have hminus : d ≠ '-' := by rintro rfl; cases hd
        rw [hds] at hread
        refine Gives.peeked hws (isBlank_of_isDigit hd) ?_
        simp only [hd, hminus]
        exact hread.bind (hrange _ (Int.toNat_of_nonneg hsign))
    case isFalse hsign =>
      have hsize : (-n).toNat < UInt64.size := by simp only [UInt64.size]; omega
      have hread := Gives.number false hsize (fun _ => by omega) hrest
      rw [String.toList_append, Nat.toList_repr]
      exact Gives.peeked hws rfl (Gives.skip.bind (hread.bind (hrange _ (by omega))))

theorem Reads.map {r : Reader α} {a : α} (h : Reads r j a) (f : α → β) :
    Reads (do return f (← r)) j (f a) :=
  fun _ ht _ _ hws hrest => (h ht hws hrest).map f

theorem Reads.int64 (n : Int64) : Reads Reader.int64 (.number n.toInt) n := by
  have h := (Reads.integer "i64" (-0x8000000000000000) 0x7fffffffffffffff n.le_toInt n.toInt_le
    (by decide) (by decide)).map Int64.ofInt
  rwa [Int64.ofInt_toInt] at h

theorem Reads.uint64 (n : UInt64) : Reads Reader.uint64 (.number n.toNat) n := by
  have hmax : (n.toNat : Int) ≤ 0xffffffffffffffff := by have := n.toNat_lt; omega
  have h := (Reads.integer "usize" 0 0xffffffffffffffff (Int.natCast_nonneg n.toNat) hmax
    (by decide) (by decide)).map fun m => m.toNat.toUInt64
  rwa [Int.toNat_natCast, show n.toNat.toUInt64 = n by simp] at h

theorem Reads.uint32 (n : UInt32) : Reads Reader.uint32 (.number n.toNat) n := by
  have hmax : (n.toNat : Int) ≤ 0xffffffff := by have := n.toNat_lt; omega
  have h := (Reads.integer "u32" 0 0xffffffff (Int.natCast_nonneg n.toNat) hmax
    (by decide) (by decide)).map fun m => m.toNat.toUInt32
  rwa [Int.toNat_natCast, show n.toNat.toUInt32 = n by simp] at h

/-! ## Lists -/

/-- A text for a value starts with neither a blank nor the end of a list. -/
theorem Written.head (h : Written j t) : ∃ c s, t = c :: s ∧ isBlank c = false ∧ c ≠ ']' := by
  cases h with
  | bool b => cases b <;> exact ⟨_, _, rfl, rfl, by decide⟩
  | string h =>
    obtain ⟨s, rfl, -⟩ := h.tail
    exact ⟨_, _, rfl, rfl, by decide⟩
  | list | object => exact ⟨_, _, rfl, rfl, by decide⟩
  | number n =>
    rw [Int.toString_eq_repr, Int.repr_eq_if]
    split
    case isFalse => exact ⟨'-', _, String.toList_append, rfl, by decide⟩
    case isTrue =>
      rw [Nat.toList_repr]
      cases hds : Nat.toDigits 10 n.toNat with
      | nil => exact absurd hds Nat.toDigits_ne_nil
      | cons d ds =>
        have hd : d.isDigit = true :=
          Nat.isDigit_of_mem_toDigits (by decide) (by decide) (hds ▸ mem_cons_self ..)
        exact ⟨d, ds, rfl, isBlank_of_isDigit hd, by rintro rfl; cases hd⟩

theorem Items.ends (h : Items false items t) (s : List Char) : Ends (t ++ ']' :: s) := by
  cases h with
  | nil h => exact h.ends (by simp) s
  | cons hlead hitem hrest =>
    cases hlead with
    | later h h' =>
      simp only [append_assoc, cons_append]
      exact h.ends (by simp) _

theorem Items.length_le (h : Items first items t) : items.length ≤ t.length := by
  induction items generalizing first t with
  | nil => exact Nat.zero_le _
  | cons j items ih =>
    cases h with
    | cons hlead hitem hrest => grind [Written.head]

namespace Gives

variable {ws s rest lead t : List Char} {c : Char} {first : Bool} {depth : Nat}

theorem openBracket (h : 1 < depth) : Gives (Reader.openBracket depth) (c :: s) () s := by
  rw [Reader.openBracket, if_neg (Nat.not_le.2 h)]
  exact skip

theorem closeList (h : Blank ws) : Gives Reader.closeList (ws ++ ']' :: s) () s := peeked h rfl skip

theorem hasElement (hlead : Leads first lead) (hblank : isBlank c = false) (hend : c ≠ ']') :
    Gives (Reader.hasElement first) (lead ++ c :: s) true (c :: s) := by
  cases hlead with
  | first h =>
    refine peeked h hblank ?_
    simp only [hend, if_false, if_true]
    exact .pure true _
  | later h h' =>
    rw [append_assoc]
    refine peeked h rfl (skip.bind (peeked h' hblank ?_))
    simp only [hend, if_false]
    exact .pure true _

theorem hasElement_end (h : Blank ws) :
    Gives (Reader.hasElement first) (ws ++ ']' :: s) false (']' :: s) :=
  peeked h rfl (.pure false _)

/-- The elements of a list, up to its end. -/
theorem elements {element : Reader α} {as : List α} (h : Items first items t)
    (hread : List.Forall₂ (Reads element) items as) (hfuel : items.length < fuel) :
    Gives (Reader.elements element fuel first) (t ++ ']' :: s) as (']' :: s) := by
  induction hread generalizing first t fuel with
  | nil =>
    cases h with
    | nil h =>
      cases fuel with
      | zero => cases hfuel
      | succ fuel => exact (hasElement_end h).bind (.pure [] _)
  | @cons j a items as hj hread ih =>
    cases h with
    | @cons _ _ _ lead u rest hlead hitem hrest =>
      cases fuel with
      | zero => cases hfuel
      | succ fuel =>
        obtain ⟨c, v, rfl, hblank, hend⟩ := hitem.head
        have hnext := hj hitem Blank.nil (hrest.ends s)
        rw [append_assoc, append_assoc]
        refine (hasElement hlead hblank hend).bind (hnext.bind ?_)
        exact (ih hrest (Nat.lt_of_succ_lt_succ hfuel)).map (a :: ·)

end Gives

theorem Reads.list {depth : Nat} {element : Reader α} {items : List Json} {as : List α}
    (hdepth : (Json.list items).depth < depth) (hread : List.Forall₂ (Reads element) items as) :
    Reads (Reader.list depth element) (.list items) as := by
  intro t ht ws rest hws hrest
  have hopen : 1 < depth := by rw [Json.depth] at hdepth; omega
  cases ht with
  | @list _ t h =>
    rw [append_assoc]
    refine Gives.peeked hws rfl ((Gives.openBracket hopen).bind ?_)
    refine Gives.enclosed (Gives.get fun offset => ?_) (Gives.closeList Blank.nil)
    show Gives (elements element ((t ++ [']'] ++ rest).length + 1) true) (t ++ [']'] ++ rest) _ _
    rw [append_assoc, singleton_append]
    have hfuel : items.length < (t ++ ']' :: rest).length + 1 := by
      have := h.length_le
      simp only [length_append]
      omega
    exact Gives.elements h hread hfuel

/-- Two expressions in a list. -/
theorem Reads.pair (name : String) {inner : Reader Expr} {k : Json} {left right : Expr}
    (hdepth : (Json.list [j, k]).depth < depth) (hleft : j.depth + 1 < depth → Reads inner j left)
    (hright : k.depth + 1 < depth → Reads inner k right) :
    Reads (Reader.pair depth name inner) (.list [j, k]) (left, right) := by
  intro t ht ws rest hws hrest
  have hopen : 1 < depth := by rw [Json.depth] at hdepth; omega
  have hj := Json.depth_lt_list (mem_cons_self (a := j) (l := [k]))
  have hk := Json.depth_lt_list (mem_cons_of_mem j (mem_singleton_self k))
  cases ht with
  | list h =>
    cases h with
    | cons hlead hitem hitems =>
      have hnext := hleft (by omega) hitem Blank.nil (hitems.ends rest)
      cases hitems with
      | cons hlead' hitem' hend =>
        have hlast := hright (by omega) hitem' Blank.nil (hend.ends rest)
        cases hend with
        | nil hend =>
          obtain ⟨c, u, rfl, hblank, hc⟩ := hitem.head
          obtain ⟨c', u', rfl, hblank', hc'⟩ := hitem'.head
          simp only [append_assoc, cons_append, nil_append] at hnext hlast ⊢
          refine Gives.peeked hws rfl ((Gives.openBracket hopen).bind
            (Gives.enclosed (t := _ ++ ']' :: rest) ?_ (Gives.closeList hend)))
          exact ((Gives.hasElement hlead hblank hc).bind hnext).bind
            (((Gives.hasElement hlead' hblank' hc').bind hlast).bind (.pure (left, right) _))

/-! ## Objects -/

/-- From the colon of a field on, the reader finds `a` in every text for its value `j`. -/
def ReadsField (r : Reader α) (j : Json) (a : α) : Prop :=
  ∀ ⦃t : List Char⦄, Written j t → ∀ ⦃ws ws' rest : List Char⦄, Blank ws → Blank ws' → Ends rest →
    Gives r (ws ++ ':' :: ws' ++ t ++ rest) a rest

theorem Fields.ends (h : Fields false fs t) (s : List Char) : Ends (t ++ '\x7d' :: s) := by
  cases h with
  | nil h => exact h.ends (by simp) s
  | cons hlead =>
    cases hlead with
    | later h h' =>
      simp only [append_assoc, cons_append]
      exact h.ends (by simp) _

theorem Fields.length_le (h : Fields first fs t) : fs.length ≤ t.length := by
  induction fs generalizing first t with
  | nil => exact Nat.zero_le _
  | cons f fs ih =>
    cases h with
    | cons hlead hkey hbefore hbehind hvalue hrest =>
      have := ih hrest
      simp only [length_cons, length_append]
      omega

namespace Gives

variable {ws s t lead : List Char} {first : Bool}

theorem colon (h : Blank ws) : Gives Reader.colon (ws ++ ':' :: s) () s := peeked h rfl skip

theorem closeObject (s : List Char) : Gives Reader.closeObject ('\x7d' :: s) () s :=
  peeked Blank.nil rfl skip

theorem hasField (hlead : Leads first lead) :
    Gives (Reader.hasField first) (lead ++ '"' :: s) true ('"' :: s) := by
  cases hlead with
  | first h => exact peeked h rfl (.pure true _)
  | later h h' =>
    rw [append_assoc]
    exact peeked h rfl (skip.bind (peeked h' rfl (.pure true _)))

theorem hasField_end (h : Blank ws) :
    Gives (Reader.hasField first) (ws ++ '\x7d' :: s) false ('\x7d' :: s) :=
  peeked h rfl (.pure false _)

/-- The fields of an object, up to its end.  What has been gathered, `draft`, is told by the keys
    that have been seen. -/
theorem fields {field : σ → String → Reader σ} {draft : List String → σ} (h : Fields first fs t)
    (hnodup : (fs.map Prod.fst).Nodup) (hunseen : ∀ f ∈ fs, f.1 ∉ seen)
    (hstep : ∀ f ∈ fs, ∀ seen, f.1 ∉ seen →
      ReadsField (field (draft seen) f.1) f.2 (draft (f.1 :: seen))) (hfuel : fs.length < fuel) :
    Gives (Reader.fields field fuel first (draft seen)) (t ++ '\x7d' :: s)
      (draft ((fs.map Prod.fst).reverse ++ seen)) ('\x7d' :: s) := by
  induction fs generalizing first t seen fuel with
  | nil =>
    cases h with
    | nil h =>
      cases fuel with
      | zero => cases hfuel
      | succ fuel => exact (hasField_end h).bind (.pure _ _)
  | cons f fs ih =>
    cases h with
    | @cons _ key j _ lead k ws ws' u rest hlead hkey hbefore hbehind hvalue hrest =>
      cases fuel with
      | zero => cases hfuel
      | succ fuel =>
        obtain ⟨hf, hunseen⟩ := forall_mem_cons.1 hunseen
        obtain ⟨hread, hstep⟩ := forall_mem_cons.1 hstep
        obtain ⟨hkeys, hnodup⟩ := nodup_cons.1 hnodup
        obtain ⟨k, rfl, hbody⟩ := hkey.tail
        have hvalue := hread seen hf hvalue hbefore hbehind (hrest.ends s)
        have hlater : ∀ f ∈ fs, f.1 ∉ key :: seen := by grind
        have hlast := ih hrest hnodup hlater hstep (Nat.lt_of_succ_lt_succ hfuel)
        simp only [append_assoc, cons_append, map_cons, reverse_cons,
          nil_append] at hvalue hlast ⊢
        exact (hasField hlead).bind (skip.bind ((hbody _).bind (hvalue.bind hlast)))

end Gives

/-- The value of a key, if the key has been seen. -/
def given (seen : List String) (key : String) (a : α) : Option α :=
  if key ∈ seen then some a else none

@[simp] theorem given_nil (key : String) (a : α) : given [] key a = none := if_neg not_mem_nil

theorem given_of_mem (h : key ∈ seen) (a : α) :
    given seen key a = some a := if_pos h

@[simp] theorem given_cons_self (seen : List String) (key : String) (a : α) :
    given (key :: seen) key a = some a := given_of_mem (mem_cons_self ..) a

@[simp] theorem given_cons_of_ne {key' : String} (h : key' ≠ key) (seen : List String) (a : α) :
    given (key :: seen) key' a = given seen key' a := by
  simp [given, h]

/-- A field that is read once. -/
theorem ReadsField.once {value : Reader α} {a : α} (h : Reads value j a) (hkey : key ∉ seen)
    {f : Option α → σ} {d : σ} (hf : f (some a) = d) :
    ReadsField (do return f (← Reader.once key (given seen key a) value)) j d := by
  intro t ht ws ws' rest hws hws' hrest
  rw [given, if_neg hkey, ← hf]
  have hvalue := (h ht hws' hrest).map some
  simp only [append_assoc, cons_append] at hvalue ⊢
  exact ((Gives.colon hws).bind hvalue).map f

theorem Gives.allFields {field : σ → String → Reader σ} {draft : List String → σ}
    (h : Fields true fs t) (hnodup : (fs.map Prod.fst).Nodup)
    (hstep : ∀ f ∈ fs, ∀ seen, f.1 ∉ seen →
      ReadsField (field (draft seen) f.1) f.2 (draft (f.1 :: seen))) (s : List Char) :
    Gives (Reader.allFields field (draft [])) (t ++ '\x7d' :: s)
      (draft (fs.map Prod.fst).reverse) ('\x7d' :: s) := by
  refine Gives.get fun offset => ?_
  have hfuel : fs.length < (t ++ '\x7d' :: s).length + 1 := by
    have := h.length_le
    simp only [length_append]
    omega
  have hall := Gives.fields (s := s) h hnodup (fun _ _ => not_mem_nil) hstep hfuel
  rwa [append_nil] at hall

/-- A structure with its fields in any order. -/
theorem Reads.structure {wanted : String} {ofList : Reader α} {field : σ → String → Reader σ}
    (draft : List String → σ) {build : σ → Reader α} {entries : List (String × Json)} {a : α}
    {start : σ} (hdepth : (Json.object fs).depth < depth) (hstart : draft [] = start)
    (hperm : fs.Perm entries) (hnodup : (entries.map Prod.fst).Nodup)
    (hstep : ∀ f ∈ entries, f.2.depth + 1 < depth → ∀ seen, f.1 ∉ seen →
      ReadsField (field (draft seen) f.1) f.2 (draft (f.1 :: seen)))
    (hbuild : ∀ seen, (∀ f ∈ entries, f.1 ∈ seen) → ∀ s, Gives (build (draft seen)) s a s) :
    Reads (structure' depth wanted ofList (allFields field start >>= build)) (.object fs) a := by
  intro t ht ws rest hws hrest
  subst hstart
  cases ht with
  | @object _ t h =>
    have hopen : 1 < depth := by rw [Json.depth] at hdepth; omega
    have hnodup : (fs.map Prod.fst).Nodup := (hperm.map Prod.fst).nodup_iff.2 hnodup
    have hall := Gives.allFields h hnodup (fun f hf => hstep f (hperm.subset hf)
      (by have := Json.depth_lt_object hf; omega)) rest
    have hseen : ∀ f ∈ entries, f.1 ∈ (fs.map Prod.fst).reverse := by grind
    rw [append_assoc]
    refine Gives.peeked hws rfl ((Gives.openBracket hopen).bind ?_)
    rw [← singleton_append, ← append_assoc] at hall
    exact Gives.enclosed (hall.bind (hbuild _ hseen _)) (Gives.closeObject rest)

/-! ## Alternatives -/

theorem Gives.variantName (hname : name ∈ names) (h : Gives stringBody s name t) :
    Gives (Reader.variantName names) s name t := by
  refine h.bind ?_
  rw [if_pos (contains_iff_mem.2 hname)]
  exact .pure name t

/-- An alternative without content. -/
theorem Reads.alone (hname : name ∈ names) {alone content : String → Reader α} {a : α}
    (h : alone name = pure a) : Reads (variant depth names alone content) (.string name) a := by
  intro t ht ws rest hws hrest
  cases ht with
  | string hquoted =>
    obtain ⟨t, rfl, hbody⟩ := hquoted.tail
    rw [append_assoc]
    refine Gives.peeked hws rfl (Gives.skip.bind ((Gives.variantName hname (hbody rest)).bind ?_))
    rw [h]
    exact .pure a rest

/-- An alternative with its content. -/
theorem Reads.tagged (hname : name ∈ names) {alone content : String → Reader α} {a : α}
    (hdepth : (Json.tagged name j).depth < depth)
    (h : j.depth + 1 < depth → Reads (content name) j a) :
    Reads (variant depth names alone content) (.tagged name j) a := by
  intro t ht ws rest hws hrest
  have hopen : j.depth + 1 < depth := by
    have := Json.depth_lt_object (mem_singleton_self (name, j))
    exact Nat.lt_of_le_of_lt this hdepth
  cases ht with
  | object hfields =>
    cases hfields with
    | cons hlead hkey hbefore hbehind hvalue hlast =>
      cases hlead with
      | first hlead =>
        cases hlast with
        | nil hlast =>
          obtain ⟨k, rfl, hbody⟩ := hkey.tail
          have hcontent := h hopen hvalue hbehind (hlast.ends (.inr (.inr rfl)) rest)
          rw [append_assoc]
          simp only [append_assoc, cons_append, nil_append] at hcontent ⊢
          refine Gives.peeked hws rfl ((Gives.openBracket (by omega)).bind (Gives.bind ?_
            ((Gives.colon hbefore).bind (hcontent.bind (Gives.peeked hlast rfl ?_)))))
          · exact Gives.peeked hlead rfl (Gives.skip.bind (Gives.variantName hname (hbody _)))
          · exact Gives.skip.bind (.pure a rest)

end Orchestra.Interchange
