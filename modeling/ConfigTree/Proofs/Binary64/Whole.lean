import ConfigTree.Proofs.Binary64.Shortest
import Mathlib.Algebra.Order.Ring.Abs
import Mathlib.Data.Rat.Cast.Order
import Mathlib.Tactic.Linarith

/-!
# Whole numbers and binary64 numbers

* `Binary64.value`: the number that a float stands for, as an exact fraction.
* `Binary64.whole?_eq_some_iff`: a float is taken as a whole number just if it is one.
* `Binary64.exists_ofNat?`: a whole number below `2 ^ 64` has a nearest float, with 53 bits that
  begin where its own begin. So that of a number from `2 ^ 63` on is whole, and not below `2 ^ 63`
  nor above `2 ^ 64` (`Binary64.exists_value_ofNat?`), and that of a number other than zero is not
  zero.
-/

namespace ConfigTree.Binary64

/-! ### Values -/

/-- The exact value of a number: so many units, of which a power of two make one, with the sign.
Both zeros have the value zero. -/
def value (x : Binary64) : ℚ :=
  (if x.negative then -1 else 1) * (x.units / unitsPerOne)

theorem unitsPerOne_pos : 0 < unitsPerOne := by
  obtain ⟨e, -, hunit, -⟩ := exists_unitsPerOne
  rw [hunit]
  exact Nat.pow_pos (by decide)

theorem value_of_units {x : Binary64} {n : Nat} (h : x.units = n * unitsPerOne) :
    x.value = if x.negative then -(n : ℚ) else n := by
  have hne : (unitsPerOne : ℚ) ≠ 0 := Nat.cast_ne_zero.2 unitsPerOne_pos.ne'
  rw [value, h, Nat.cast_mul, mul_div_cancel_right₀ _ hne]
  split
  · exact neg_one_mul _
  · exact one_mul _

/-- A number whose value is whole has that many times the units of one. The sign does not show in
the units, so they are those of the absolute value. -/
theorem units_of_value {x : Binary64} {i : Int} (h : x.value = i) :
    x.units = i.natAbs * unitsPerOne := by
  have hpos : (0 : ℚ) < unitsPerOne := Nat.cast_pos.2 unitsPerOne_pos
  have habs : |x.value| = (x.units : ℚ) / unitsPerOne := by
    have hnonneg : (0 : ℚ) ≤ (x.units : ℚ) / unitsPerOne := div_nonneg (Nat.cast_nonneg _) hpos.le
    rw [value, abs_mul, abs_of_nonneg hnonneg]
    split
    · rw [abs_neg, abs_one, one_mul]
    · rw [abs_one, one_mul]
  have hcast : (i.natAbs : ℚ) = |(i : ℚ)| := by
    rw [Nat.cast_natAbs, Int.cast_abs]
  rw [h, ← hcast, eq_div_iff hpos.ne'] at habs
  exact_mod_cast habs.symm

/-- **A float is taken as a whole number just if it is one.** The test divides the units by those of
one and looks at the remainder, which is the same as the value being whole. -/
theorem whole?_eq_some_iff {x : Binary64} {i : Int} : x.whole? = some i ↔ x.value = i := by
  unfold whole?
  constructor
  · intro h
    split at h
    · next hmod =>
      have hunits : x.units = x.units / unitsPerOne * unitsPerOne :=
        (Nat.div_mul_cancel (Nat.dvd_of_mod_eq_zero hmod)).symm
      obtain rfl := Option.some.inj h
      rw [value_of_units hunits]
      split <;> push_cast <;> rfl
    · cases h
  · intro h
    have hunits := units_of_value h
    have hvalue := value_of_units hunits
    have hdiv : ((i.natAbs * unitsPerOne : Nat) : Int) / (unitsPerOne : Nat) = i.natAbs := by
      rw [Nat.cast_mul]
      exact Int.mul_ediv_cancel _ (Int.natCast_ne_zero.2 unitsPerOne_pos.ne')
    rw [if_pos (by rw [hunits, Nat.mul_mod_left]), hunits]
    simp only [hdiv]
    rw [h] at hvalue
    -- the sign is that of the float
    have hi : (i : ℚ) = ((if x.negative then -(i.natAbs : Int) else i.natAbs : Int) : ℚ) := by
      rw [hvalue]
      split
      · rw [Int.cast_neg, Int.cast_natCast]
      · rw [Int.cast_natCast]
    exact congrArg some (Int.cast_injective hi).symm

/-! ### Rounding whole numbers -/

theorem le_roundHalfEven (num den : Nat) : num / den ≤ roundHalfEven num den := by
  unfold roundHalfEven
  simp only
  split
  · exact Nat.le_refl _
  split <;> omega

theorem roundHalfEven_le (num den : Nat) : roundHalfEven num den ≤ num / den + 1 := by
  unfold roundHalfEven
  simp only
  split
  · exact Nat.le_succ _
  split <;> omega

/-- The value of a number with 53 bits before its exponent, or with one more if it is the next power
of two. -/
theorem units_of_magnitude {x : Binary64} {k q : Nat} (hmag : x.magnitude = k * binade + q)
    (hk : 1 ≤ k) (hlow : binade ≤ q) (hhigh : q ≤ 2 * binade) : x.units = q * 2 ^ k := by
  have hb : 0 < binade := by decide
  have hlarge : ¬ x.magnitude < 2 * binade := by
    have := Nat.mul_le_mul_right binade hk
    omega
  rw [units, if_neg hlarge]
  -- the magnitude of the next power of two runs over into the next exponent, and stands for it
  -- there
  by_cases htop : q = 2 * binade
  · have hsum : x.magnitude = binade * (k + 2) := by
      rw [hmag, htop]
      ring
    rw [hsum, Nat.mul_div_cancel_left _ hb, Nat.mul_mod_right, htop]
    have hexp : k + 2 - 1 = k + 1 := by omega
    rw [hexp]
    change (binade + 0) * 2 ^ (k + 1) = _
    rw [Nat.pow_succ]
    ring
  · obtain ⟨r, rfl⟩ := Nat.exists_eq_add_of_le hlow
    have hr : r < binade := by omega
    have hsum : x.magnitude = r + binade * (k + 1) := by
      rw [hmag]
      ring
    rw [hsum, Nat.add_mul_div_left _ _ hb, Nat.add_mul_mod_self_left, Nat.div_eq_of_lt hr,
      Nat.mod_eq_of_lt hr]
    have hexp : 0 + (k + 1) - 1 = k := by omega
    rw [hexp]
    rfl

theorem log2_mul_pow {n : Nat} (hpos : 0 < n) (e : Nat) : (n * 2 ^ e).log2 = n.log2 + e := by
  have hn := (Nat.log2_eq_iff hpos.ne').1 rfl
  have hpow : 0 < 2 ^ e := Nat.pow_pos (by decide)
  rw [Nat.log2_eq_iff (Nat.mul_ne_zero hpos.ne' hpow.ne')]
  constructor
  · rw [Nat.pow_add]
    exact Nat.mul_le_mul_right _ hn.1
  · rw [Nat.add_right_comm, Nat.pow_add]
    exact Nat.mul_lt_mul_of_pos_right hn.2 hpow

/-- What is left of a number after a shift to 53 bits has 53 bits. -/
theorem shifted_bounds {m k : Nat} (hm : m ≠ 0) (hlog : m.log2 = 52 + k) :
    binade ≤ m / 2 ^ k ∧ m / 2 ^ k < 2 * binade := by
  have hbits := (Nat.log2_eq_iff hm).1 hlog
  have hpow : 0 < 2 ^ k := Nat.pow_pos (by decide)
  rw [Nat.add_right_comm, Nat.pow_add, Nat.pow_add] at hbits
  exact ⟨(Nat.le_div_iff_mul_le hpow).2 hbits.1, (Nat.div_lt_iff_lt_mul hpow).2 hbits.2⟩

/-- **The float nearest to a whole number of 64 bits**: 53 bits that begin where those of the number
begin, or the next power of two. That is all that is needed of rounding below; which way a tie goes
does not matter. -/
theorem exists_ofNat? (negative : Bool) {n k : Nat} (hpos : 0 < n) (hlt : n < 2 ^ 64)
    (hk : k = n.log2 + 1022) :
    ∃ x q, ofNat? negative n = some x ∧ x.negative = negative ∧ x.units = q * 2 ^ k ∧
      binade ≤ q ∧ q ≤ 2 * binade := by
  have hlog : n.log2 < 64 := (Nat.log2_lt hpos.ne').2 hlt
  obtain ⟨e, he, hunit, -⟩ := exists_unitsPerOne
  have hscaled : (n * unitsPerOne).log2 = 52 + k := by
    rw [hunit, log2_mul_pow hpos]
    omega
  have hmag : roundedMagnitude n 1
      = k * binade + roundHalfEven (n * unitsPerOne) (2 ^ k) := by
    have hshift : (n * unitsPerOne).log2 - 52 = k := by omega
    have hone : 1 * Nat.pow 2 k = 2 ^ k := Nat.one_mul _
    rw [roundedMagnitude_eq, Nat.div_one, hshift, hone]
  -- rounding adds at most one to the bits that are left
  obtain ⟨hlow, hhigh⟩ := shifted_bounds (Nat.mul_ne_zero hpos.ne' unitsPerOne_pos.ne') hscaled
  have hle := le_roundHalfEven (n * unitsPerOne) (2 ^ k)
  have hge := roundHalfEven_le (n * unitsPerOne) (2 ^ k)
  generalize roundHalfEven (n * unitsPerOne) (2 ^ k) = q at hmag hle hge
  -- the exponent of a number of 64 bits is far below the largest one
  have hfinite : roundedMagnitude n 1 < infiniteMagnitude := by
    have hexp : k * binade ≤ 1085 * binade := Nat.mul_le_mul_right _ (by omega)
    have hinf : infiniteMagnitude = 2047 * binade := rfl
    have hb : 0 < binade := by decide
    omega
  refine ⟨⟨negative, roundedMagnitude n 1, hfinite⟩, q, ?_, rfl, ?_, by omega, by omega⟩
  · rw [ofNat?, ofRatio?, dif_pos hfinite]
  · exact units_of_magnitude hmag (by omega) (by omega) (by omega)

/-- The float nearest to a number that has all of 64 bits is whole, and stays between the powers of
two around the number. It may be the upper one of them, which is beyond 64 bits. -/
theorem exists_value_ofNat? {n : Nat} (hge : 2 ^ 63 ≤ n) (hlt : n < 2 ^ 64) :
    ∃ x i, ofNat? false n = some x ∧ x.value = (i : Int) ∧ 2 ^ 63 ≤ i ∧ i ≤ 2 ^ 64 := by
  have hpos : 0 < n := by omega
  obtain ⟨x, q, hx, hsign, hunits, hlow, hhigh⟩ := exists_ofNat? false hpos hlt rfl
  have hlog : n.log2 = 63 := (Nat.log2_eq_iff hpos.ne').2 ⟨hge, hlt⟩
  have hb : binade = 2 ^ 52 := rfl
  -- the last of the 53 bits counts `2 ^ 11`
  have hwhole : x.units = (q * 2 ^ 11) * unitsPerOne := by
    obtain ⟨e, he, hunit, -⟩ := exists_unitsPerOne
    have hexp : n.log2 + 1022 = 11 + e := by omega
    rw [hunits, hexp, Nat.pow_add, hunit, Nat.mul_assoc]
  refine ⟨x, ((q * 2 ^ 11 : Nat) : Int), hx, ?_, by omega, by omega⟩
  rw [value_of_units hwhole, hsign, if_neg Bool.false_ne_true]
  push_cast
  rfl

/-- The float nearest to a number other than zero is on the same side of zero: rounding does not
take the leading bit. -/
theorem exists_value_neg {n : Nat} (hpos : 0 < n) (hlt : n < 2 ^ 64) :
    ∃ x, ofNat? true n = some x ∧ x.value < 0 := by
  obtain ⟨x, q, hx, hsign, hunits, hlow, -⟩ := exists_ofNat? true hpos hlt rfl
  refine ⟨x, hx, ?_⟩
  have hb : 0 < binade := by decide
  have hunits_pos : 0 < x.units := by
    rw [hunits]
    exact Nat.mul_pos (by omega) (Nat.pow_pos (by decide))
  have hquot : (0 : ℚ) < (x.units : ℚ) / unitsPerOne :=
    div_pos (Nat.cast_pos.2 hunits_pos) (Nat.cast_pos.2 unitsPerOne_pos)
  rw [value, hsign, if_pos rfl, neg_one_mul]
  exact neg_neg_of_pos hquot

end ConfigTree.Binary64
