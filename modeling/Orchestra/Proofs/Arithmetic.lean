/-
  Arithmetic: what the integer sites answer, in terms of the integers.

  Sums, differences and products are exact or fail.  Quotients go toward zero while remainders are
  never negative, so the two belong together only where the division leaves nothing or the dividend
  is not negative; elsewhere the quotient is one off, toward the sign of the divisor.
-/
import Mathlib.Tactic.Linarith
import Orchestra.Library.Primitive

namespace Orchestra

variable {n : Int} {a b : Int64}

/-- There is a word for the integer. -/
def Integer.Representable (n : Int) : Prop :=
  Int64.minValue.toInt ≤ n ∧ n ≤ Int64.maxValue.toInt

/-- For the words `a` and `b` a site publishes the integer `n`, if there is a word for it, and fails
    otherwise. -/
def Primitive.Exact (f : Primitive) (a b : Int64) (n : Int) : Prop :=
  (Integer.Representable n →
    ∃ w : Int64, w.toInt = n ∧ f.apply [.int a, .int b] = .publish (.int w)) ∧
  (¬Integer.Representable n → ∃ error, f.apply [.int a, .int b] = .fail error)

namespace Integer

theorem ofInt?_of_representable (h : Representable n) :
    ∃ w : Int64, ofInt? n = some w ∧ w.toInt = n := by
  refine ⟨Int64.ofInt n, if_pos h, ?_⟩
  obtain ⟨hlo, hhi⟩ := h
  grind [Int64.toInt_ofInt_of_le]

theorem toInt_of_ofInt? {w : Int64} (h : ofInt? n = some w) : w.toInt = n := by
  by_cases hn : Representable n
  · grind [ofInt?_of_representable]
  · cases h.symm.trans (if_neg hn)

theorem representable_toInt (a : Int64) : Representable a.toInt :=
  ⟨a.minValue_le_toInt, a.toInt_le⟩

/-- A quotient fits, unless it is that of the least integer by -1. -/
theorem representable_div (hb : b.toInt ≠ 0) (h : ¬(a = Int64.minValue ∧ b = -1)) :
    Representable (a.toInt / b.toInt) := by
  have hleast : ¬(a.toInt = -9223372036854775808 ∧ b.toInt = -1) :=
    fun hab => h ⟨Int64.toInt_inj.1 hab.1, Int64.toInt_inj.1 hab.2⟩
  have ha := representable_toInt a
  have hb' := representable_toInt b
  have hlo := Int.emod_nonneg a.toInt hb
  have hhi := Int.emod_lt a.toInt hb
  have heq := Int.mul_ediv_add_emod a.toInt b.toInt
  simp only [Representable, Int64.toInt_minValue, Int64.toInt_maxValue] at ha hb' ⊢
  generalize a.toInt / b.toInt = q at *
  generalize a.toInt % b.toInt = r at *
  generalize a.toInt = x at *
  generalize b.toInt = y at *
  rcases lt_or_gt_of_ne hb with hy | hy
  · rcases eq_or_ne y (-1) with rfl | hne
    · omega
    · have : y ≤ -2 := by omega
      constructor <;> by_contra hq <;> nlinarith [Int.ofNat_natAbs_of_nonpos hy.le]
  · constructor <;> by_contra hq <;> nlinarith [Int.natAbs_of_nonneg hy.le]

theorem representable_mod (hb : b.toInt ≠ 0) : Representable (a.toInt % b.toInt) := by
  have hb' := representable_toInt b
  have hlo := Int.emod_nonneg a.toInt hb
  have hhi := Int.emod_lt a.toInt hb
  grind [Representable]

end Integer

namespace Primitive

open Integer

theorem ofExcept_integer (g : Int64 → Int64 → Option Int64) (a b : Int64) :
    Reply.ofExcept (integer g [.int a, .int b]) =
      (g a b).elim (.fail .overflow) fun w => .publish (.int w) := by
  cases hg : g a b <;> simp only [integer, twoIntegers, Bind.bind, Except.bind, hg] <;> rfl

/-- The answer of an integer operation is exact. -/
theorem exact_of_integer {f : Primitive} {g : Int64 → Int64 → Option Int64}
    (happly : f.apply [.int a, .int b] = .ofExcept (integer g [.int a, .int b]))
    (hg : g a b = ofInt? n) : f.Exact a b n := by
  rw [Exact, happly, ofExcept_integer, hg]
  constructor
  · grind [Integer.ofInt?_of_representable]
  · intro hn
    have hnone : ofInt? n = none := if_neg hn
    exact ⟨.overflow, by rw [hnone]; rfl⟩

theorem apply_div (a : Int64) (hb : b ≠ 0) :
    div.apply [.int a, .int b] = .ofExcept (integer divide? [.int a, .int b]) :=
  congrArg Reply.ofExcept (if_neg hb)

theorem apply_mod (a : Int64) (hb : b ≠ 0) :
    mod.apply [.int a, .int b] = .ofExcept (integer modulo? [.int a, .int b]) :=
  congrArg Reply.ofExcept (if_neg hb)

/-- The integer sites compute with integers.  Sums, differences and products are published if there
    is a word for them and fail otherwise, and so are quotients, which go toward zero; the remainder
    is published whenever the divisor is not zero, the least integer by -1 apart.  By zero both fail.
    A remainder is never negative and smaller than the divisor.  It is what the quotient leaves,
    unless the dividend is negative and not a multiple of the divisor: then it is what the quotient
    that lies one further leaves. -/
theorem integer_sites_exact (a b : Int64) :
    add.Exact a b (a.toInt + b.toInt) ∧ sub.Exact a b (a.toInt - b.toInt) ∧
    mul.Exact a b (a.toInt * b.toInt) ∧
    (b = 0 → (∃ error, div.apply [.int a, .int b] = .fail error) ∧
      ∃ error, mod.apply [.int a, .int b] = .fail error) ∧
    (b ≠ 0 → div.Exact a b (a.toInt.tdiv b.toInt) ∧
      (¬(a = Int64.minValue ∧ b = -1) → ∃ r : Int64, r.toInt = a.toInt % b.toInt ∧
        mod.apply [.int a, .int b] = .publish (.int r)) ∧
      (a = Int64.minValue ∧ b = -1 → ∃ error, mod.apply [.int a, .int b] = .fail error)) ∧
    ∀ q r : Int64, div.apply [.int a, .int b] = .publish (.int q) →
      mod.apply [.int a, .int b] = .publish (.int r) →
      0 ≤ r.toInt ∧ r.toInt < b.toInt.natAbs ∧
      (0 ≤ a.toInt ∨ b.toInt ∣ a.toInt → a.toInt = q.toInt * b.toInt + r.toInt) ∧
      (¬(0 ≤ a.toInt ∨ b.toInt ∣ a.toInt) →
        a.toInt = (q.toInt - b.toInt.sign) * b.toInt + r.toInt) := by
  have hzero : b ≠ 0 → b.toInt ≠ 0 := fun hb h => hb (Int64.toInt_inj.1 h)
  refine ⟨exact_of_integer (g := add?) rfl rfl, exact_of_integer (g := sub?) rfl rfl,
    exact_of_integer (g := mul?) rfl rfl, ?_, fun hb => ⟨?_, fun hleast => ?_, ?_⟩,
    fun q r hdiv hmod => ?_⟩
  · rintro rfl
    exact ⟨⟨.divisionByZero, rfl⟩, .divisionByZero, rfl⟩
  · exact exact_of_integer (apply_div a hb) rfl
  · obtain ⟨w, hw, -⟩ := ofInt?_of_representable (representable_div (hzero hb) hleast)
    have hmod : modulo? a b = ofInt? (a.toInt % b.toInt) := by
      rw [modulo?, hw]
      rfl
    exact (exact_of_integer (apply_mod a hb) hmod).1 (representable_mod (hzero hb))
  · rintro ⟨rfl, rfl⟩
    exact ⟨.overflow, rfl⟩
  · have hb : b ≠ 0 := by
      rintro rfl
      cases hdiv
    rw [apply_div a hb, ofExcept_integer] at hdiv
    rw [apply_mod a hb, ofExcept_integer] at hmod
    have hq : q.toInt = a.toInt.tdiv b.toInt := by
      cases hw : divide? a b <;> rw [hw] at hdiv <;> cases hdiv
      exact toInt_of_ofInt? hw
    have hr : r.toInt = a.toInt % b.toInt := by
      cases hw : modulo? a b <;> rw [hw] at hmod <;> cases hmod
      obtain ⟨-, -, hw⟩ := Option.bind_eq_some_iff.1 hw
      exact toInt_of_ofInt? hw
    have heq := Int.ediv_mul_add_emod a.toInt b.toInt
    rw [hq, hr, Int.tdiv_eq_ediv]
    refine ⟨Int.emod_nonneg _ (hzero hb), Int.emod_lt _ (hzero hb), fun h => ?_, fun h => ?_⟩
    · rw [if_pos h, Int.add_zero, heq]
    · rw [if_neg h, Int.add_sub_cancel, heq]

/-- A quotient that is one off. -/
theorem integer_sites_exact_negative :
    div.apply [.int (-7), .int 2] = .publish (.int (-3)) ∧
      mod.apply [.int (-7), .int 2] = .publish (.int 1) ∧ (-7 : Int) = (-3 - 1) * 2 + 1 :=
  ⟨rfl, rfl, ((integer_sites_exact (-7) 2).2.2.2.2.2 (-3) 1 rfl rfl).2.2.2 (by decide)⟩

/-- The quotient and the remainder of -7 by 2 do not belong together, and the remainder of the least
    integer by -1 is refused although it is zero. -/
theorem quotient_and_remainder_apart :
    div.apply [.int (-7), .int 2] = .publish (.int (-3)) ∧
      mod.apply [.int (-7), .int 2] = .publish (.int 1) ∧ (-7 : Int) ≠ -3 * 2 + 1 ∧
      mod.apply [.int Int64.minValue, .int (-1)] = .fail .overflow ∧
      Int64.minValue.toInt % -1 = 0 := ⟨rfl, rfl, by decide, rfl, by decide⟩

end Primitive
end Orchestra
