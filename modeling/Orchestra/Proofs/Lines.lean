/-
  Lines: where a line and a column of a text are.

  A reader that gives up names a line and a column, and `Point.ofLineColumn` finds the place again.
  It adds up the lengths of the lines before, character by character; places are counted in bytes.

  1. **Bytes and lines**: a line starts at the start of the text or behind a line feed
     (`StartsLine`), and its width counts its own line feed (`lineWidth`).  Nothing here knows about
     characters.

  2. **The statement** (`ofLineColumn_in_line`): the point of a line and a column lies on that line,
     as many bytes behind its start as the column says, and its span has a label inside the text.

  3. **The crux** (`startsLine_lengths`): the lengths of the first lines add up to the start of the
     next.  The induction is on the characters; one that is no line feed has no byte of one.
-/
import Mathlib.Algebra.BigOperators.Group.List.Basic
import Mathlib.Algebra.GroupWithZero.Nat
import Mathlib.Data.List.Count
import Orchestra.Location

namespace Orchestra

open List

/-! ## Bytes and lines -/

/-- The bytes of a text. -/
def bytesOf (source : String) : List UInt8 := source.toUTF8.data.toList

/-- The byte of a line feed. -/
def lineFeed : UInt8 := 10

/-- The line, counted from one, starts at the offset. -/
structure StartsLine (bytes : List UInt8) (line start : Nat) : Prop where
  start_le : start ≤ bytes.length
  lines_before : (bytes.take start).count lineFeed + 1 = line
  behind_lineFeed : start = 0 ∨ bytes[start - 1]? = some lineFeed

/-- The number of bytes of the line that starts at the offset, with its line feed if it has one. -/
def lineWidth (bytes : List UInt8) (start : Nat) : Nat :=
  min (((bytes.drop start).takeWhile (· ≠ lineFeed)).length + 1) (bytes.length - start)

section

variable {bytes : List UInt8} {line start start' : Nat}

/-- A later start of a line has a line feed between itself and the earlier one. -/
theorem StartsLine.count_lt (h' : StartsLine bytes line start') (hlt : start < start') :
    (bytes.take start).count lineFeed < (bytes.take start').count lineFeed := by
  obtain ⟨n, rfl⟩ : ∃ n, start' = n + 1 := ⟨start' - 1, by omega⟩
  have hfeed : bytes[n]? = some lineFeed := h'.behind_lineFeed.resolve_left (by omega)
  have hle : (bytes.take start).count lineFeed ≤ (bytes.take n).count lineFeed :=
    (take_sublist_take_left (by omega)).count_le lineFeed
  grind [take_add_one]

/-- A line starts in one place. -/
theorem StartsLine.unique (h : StartsLine bytes line start) (h' : StartsLine bytes line start') :
    start = start' := by
  have hcount := h.lines_before.trans h'.lines_before.symm
  rcases Nat.lt_trichotomy start start' with hlt | heq | hgt
  · have := h'.count_lt hlt
    omega
  · exact heq
  · have := h.count_lt hgt
    omega

/-- Up to its line feed, no line feed stands on a line. -/
theorem StartsLine.count_take_add (h : StartsLine bytes line start) {k : Nat}
    (hk : k ≤ ((bytes.drop start).takeWhile (· ≠ lineFeed)).length) :
    (bytes.take (start + k)).count lineFeed + 1 = line := by
  have hpart : (bytes.drop start).take k <+: (bytes.drop start).takeWhile (· ≠ lineFeed) :=
    prefix_of_prefix_length_le (List.take_prefix ..) (List.takeWhile_prefix _)
      (by rw [length_take]; omega)
  grind [all_takeWhile, lines_before]

/-- With more text in front, the start of a line moves on.  The start of the text is one of a line
    still if what is in front ends a line. -/
theorem StartsLine.prepend (h : StartsLine bytes line start) (front : List UInt8)
    (hjoin : start ≠ 0 ∨ front.getLast? = some lineFeed) :
    StartsLine (front ++ bytes) (front.count lineFeed + line) (front.length + start) where
  start_le := by
    rw [length_append]
    exact Nat.add_le_add_left h.start_le _
  lines_before := by
    rw [take_length_add_append, count_append, ← h.lines_before, Nat.add_assoc]
  behind_lineFeed := by
    right
    cases start with
    | zero => grind
    | succ n =>
      rw [← Nat.add_assoc, Nat.add_sub_cancel, getElem?_append_right (Nat.le_add_right ..),
        Nat.add_sub_cancel_left]
      exact h.behind_lineFeed.resolve_left (by simp)

end

/-! ## Characters -/

theorem bytesOf_eq (source : String) :
    bytesOf source = source.toList.flatMap String.utf8EncodeChar := by
  show source.toByteArray.data.toList = _
  rw [← String.utf8Encode_toList, List.utf8Encode]
  simp

theorem length_bytesOf (source : String) : (bytesOf source).length = source.utf8ByteSize := rfl

theorem lineFeed_eq_ofNat_iff {n : Nat} : lineFeed = UInt8.ofNat n ↔ n % 256 = 10 := by
  rw [← UInt8.toNat_inj, UInt8.toNat_ofNat']
  exact eq_comm

/-- Only the character of a line feed has a byte of one. -/
theorem lineFeed_notMem_encode {c : Char} (hc : c ≠ '\n') :
    lineFeed ∉ String.utf8EncodeChar c := by
  have hval : c.val.toNat ≠ 10 := fun h => hc (Char.ext (UInt32.toNat_inj.1 h))
  rw [String.utf8EncodeChar.eq_1]
  split_ifs <;>
    simp only [mem_cons, not_mem_nil, or_false, lineFeed_eq_ofNat_iff] <;> omega

theorem sum_take_lineLengths {c : Char} (hc : c ≠ '\n') (cs : List Char) (n : Nat) :
    ((lineLengths (c :: cs)).take (n + 1)).sum =
      c.utf8Size + ((lineLengths cs).take (n + 1)).sum := by grind [lineLengths]

/-- The lengths of the first `n` lines add up to the start of the next. -/
theorem startsLine_lengths (cs : List Char) (n : Nat)
    (hn : n ≤ (cs.flatMap String.utf8EncodeChar).count lineFeed) :
    StartsLine (cs.flatMap String.utf8EncodeChar) (n + 1) ((lineLengths cs).take n).sum := by
  induction cs generalizing n with
  | nil =>
    obtain rfl : n = 0 := by simpa using hn
    exact ⟨by simp, by simp, .inl rfl⟩
  | cons c cs ih =>
    cases n with
    | zero => exact ⟨by simp, by simp, .inl rfl⟩
    | succ n =>
      rw [flatMap_cons, count_append] at hn
      by_cases hc : c = '\n'
      · subst hc
        have hfront : String.utf8EncodeChar '\n' = [lineFeed] := by decide
        rw [hfront, count_singleton_self] at hn
        have hrest := (ih n (by omega)).prepend [lineFeed] (.inr rfl)
        grind [lineLengths]
      · have hfront := count_eq_zero.2 (lineFeed_notMem_encode hc)
        rw [hfront, Nat.zero_add] at hn
        have hrest := ih (n + 1) hn
        -- a line feed stands before the start of the line, so the start is not that of the text
        have hpos : ((lineLengths cs).take (n + 1)).sum ≠ 0 := by
          intro hzero
          have := hrest.lines_before
          simp [hzero] at this
        have hmoved := hrest.prepend (String.utf8EncodeChar c) (.inl hpos)
        grind [String.length_utf8EncodeChar, sum_take_lineLengths]

/-! ## Points -/

/-- The offset of a point, unless the text is too long for it. -/
theorem Point.offset_ofLineColumn {source : String} (hsize : source.utf8ByteSize < UInt32.size)
    (line column : Nat) :
    (Point.ofLineColumn source line column).offset.toNat =
      min (((lineLengths source.toList).take (line - 1)).sum + (column - 1))
        source.utf8ByteSize := by
  show (UInt32.ofNat _).toNat = _
  grind [UInt32.toNat_ofNat', sum_eq_foldl]

/-- The point of a line and a column of a text lies on that line: as many line feeds stand before
    it, and as many bytes between it and the start of the line, as its row and its column say, which
    are one less than those asked for.  Its span has a label at that place, inside the text. -/
theorem ofLineColumn_in_line (source file : String) (line column start : Nat)
    (hsize : source.utf8ByteSize < UInt32.size) (hline : StartsLine (bytesOf source) line start)
    (hcolumn : column ≤ lineWidth (bytesOf source) start) :
    let p := Point.ofLineColumn source line column
    p.offset.toNat ≤ source.utf8ByteSize ∧
      ((bytesOf source).take p.offset.toNat).count lineFeed = line - 1 ∧ p.row.toNat = line - 1 ∧
      start ≤ p.offset.toNat ∧ p.offset.toNat - start = column - 1 ∧ p.column.toNat = column - 1 ∧
      (Span.ofPoint p file).labels source = [⟨p.offset.toNat, 0⟩] := by
  intro p
  have hlength := length_bytesOf source
  have hbefore := hline.lines_before
  have hwidth := hcolumn
  rw [lineWidth, hlength] at hwidth
  have hstart_le := hline.start_le
  have hsum : ((lineLengths source.toList).take (line - 1)).sum = start := by
    have hn : line - 1 ≤ (bytesOf source).count lineFeed := by
      have := (take_sublist start (bytesOf source)).count_le lineFeed
      omega
    have hmodel := startsLine_lengths source.toList (line - 1) (bytesOf_eq source ▸ hn)
    rw [← bytesOf_eq, show line - 1 + 1 = line by omega] at hmodel
    exact hmodel.unique hline
  have hoffset : p.offset.toNat = start + (column - 1) := by
    rw [Point.offset_ofLineColumn hsize, hsum]
    omega
  have hcount := hline.count_take_add (k := column - 1) (by omega)
  -- there are fewer line feeds than bytes, so the row fits as well
  have hfew := count_le_length (a := lineFeed) (l := (bytesOf source).take start)
  rw [length_take] at hfew
  have hrow : p.row.toNat = line - 1 := by
    show (UInt32.ofNat _).toNat = _
    rw [UInt32.toNat_ofNat']
    exact Nat.mod_eq_of_lt (show _ < UInt32.size by omega)
  have hcol : p.column.toNat = column - 1 := by
    show (UInt32.ofNat _).toNat = _
    rw [UInt32.toNat_ofNat']
    exact Nat.mod_eq_of_lt (show _ < UInt32.size by omega)
  have hinside : p.offset.toNat ≤ source.utf8ByteSize := by omega
  refine ⟨hinside, ?_, hrow, by omega, by omega, hcol, ?_⟩
  · rw [hoffset]
    omega
  · simp [Span.ofPoint, Span.labels, hinside]

/-- A text of three lines, the second with a character of two bytes and the last without a line
    feed: the seventh byte is inside that character. -/
theorem ofLineColumn_in_line_split :
    let source := "ab\n\x7b\"é\n]"
    source.utf8ByteSize < UInt32.size ∧ StartsLine (bytesOf source) 2 3 ∧
      4 ≤ lineWidth (bytesOf source) 3 ∧
      ((bytesOf source).take (Point.ofLineColumn source 2 4).offset.toNat).count lineFeed = 1 := by
  intro source
  have hsize : source.utf8ByteSize < UInt32.size := by decide
  have hline : StartsLine (bytesOf source) 2 3 := ⟨by decide, by decide, by decide⟩
  have hcolumn : 4 ≤ lineWidth (bytesOf source) 3 := by decide
  exact ⟨hsize, hline, hcolumn, (ofLineColumn_in_line source "" 2 4 3 hsize hline hcolumn).2.1⟩

end Orchestra
