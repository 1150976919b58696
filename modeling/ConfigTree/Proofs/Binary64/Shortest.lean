import ConfigTree.Json.Number
import Mathlib.Data.Nat.Digits.Defs

/-!
# The shortest decimal of a binary64 number

A finite number is a whole number of units of `2 ^ -1074`, so every statement about values is one
about natural numbers.

* `roundedMagnitude_of_eq`: a fraction that is exactly the value of a number rounds to it.
* `nearest?_trailing`: a decimal is read by its value: zeros at its end, made up for by the
  exponent, do not count.
* `readsBack_shortest`: the shortest decimal of a number other than zero reads back as it. The
  decimals tried are kept only if they read back, and the exact value, on which the search falls
  back, does so too.
-/

namespace ConfigTree

/-! ### Exact values -/

namespace Binary64

theorem two_pow_le {m n : Nat} (h : m ≤ n) : 2 ^ m ≤ 2 ^ n := Nat.pow_le_pow_right (by decide) h

theorem units_pos {x : Binary64} (h : x.isZero = false) : 0 < x.units := by
  have hne : x.magnitude ≠ 0 := by simpa [isZero] using h
  unfold units
  split
  · exact Nat.pos_of_ne_zero hne
  · exact Nat.mul_pos (Nat.add_pos_left (by decide) _) (Nat.pow_pos (by decide))

/-- The largest finite number is below `2 ^ 1024`, that is, below `2 ^ 2098` units. -/
theorem units_lt (x : Binary64) : x.units < 2 ^ 2098 := by
  have hfin : x.magnitude < 2047 * binade := x.finite
  have hb : binade = 2 ^ 52 := rfl
  unfold units
  split
  · next h =>
    exact Nat.lt_of_lt_of_le h (two_pow_le (show 53 ≤ 2098 by decide))
  · next h =>
    -- 53 bits, shifted by at most 2045
    have hlow : x.magnitude % binade < binade := Nat.mod_lt _ (by decide)
    have hexp : x.magnitude / binade < 2047 := (Nat.div_lt_iff_lt_mul (by decide)).2 hfin
    have hle : Nat.pow 2 (x.magnitude / binade - 1) ≤ 2 ^ 2045 := two_pow_le (by omega)
    have hsum : 2098 = 52 + 1 + 2045 := rfl
    calc (binade + x.magnitude % binade) * Nat.pow 2 (x.magnitude / binade - 1)
        < (2 * binade) * Nat.pow 2 (x.magnitude / binade - 1) :=
          Nat.mul_lt_mul_of_pos_right (by omega) (Nat.pow_pos (by decide))
      _ ≤ (2 * binade) * 2 ^ 2045 := Nat.mul_le_mul_left _ hle
      _ = 2 ^ 2098 := by rw [hb, hsum, Nat.pow_add, Nat.pow_succ']

theorem roundHalfEven_mul (q : Nat) {den : Nat} (hden : 0 < den) :
    roundHalfEven (q * den) den = q := by
  unfold roundHalfEven
  rw [Nat.mul_div_cancel _ hden, Nat.mul_mod_left]
  simp [hden]

/-- Rounding depends on the value of the fraction alone. -/
theorem roundHalfEven_scale (num den : Nat) {c : Nat} (hc : 0 < c) :
    roundHalfEven (num * c) (den * c) = roundHalfEven num den := by
  unfold roundHalfEven
  -- quotient and remainder scale, and so does the comparison with one half
  rw [Nat.mul_div_mul_right _ _ hc, Nat.mul_mod_mul_right]
  have hassoc : 2 * (num % den * c) = 2 * (num % den) * c := (Nat.mul_assoc _ _ _).symm
  simp only [hassoc, Nat.mul_lt_mul_right hc]

theorem roundedMagnitude_eq (num den : Nat) :
    roundedMagnitude num den = ((num * unitsPerOne / den).log2 - 52) * binade
      + roundHalfEven (num * unitsPerOne)
        (den * Nat.pow 2 ((num * unitsPerOne / den).log2 - 52)) := rfl

theorem roundedMagnitude_scale (num den : Nat) {c : Nat} (hc : 0 < c) :
    roundedMagnitude (num * c) (den * c) = roundedMagnitude num den := by
  rw [roundedMagnitude_eq, roundedMagnitude_eq]
  have hnum : num * c * unitsPerOne = num * unitsPerOne * c := Nat.mul_right_comm _ _ _
  have hden : ∀ k, den * c * Nat.pow 2 k = den * Nat.pow 2 k * c :=
    fun k => Nat.mul_right_comm _ _ _
  simp only [hnum, hden, Nat.mul_div_mul_right _ _ hc, roundHalfEven_scale _ _ hc]

/-- **A fraction that is the value of a number rounds to it.** Nothing is cut off by the shift to 53
bits, since the units of a number have no more bits than that before their zeros. -/
theorem roundedMagnitude_of_eq {x : Binary64} {num den : Nat} (hden : 0 < den)
    (h : num * unitsPerOne = x.units * den) : roundedMagnitude num den = x.magnitude := by
  rw [roundedMagnitude_eq, h, Nat.mul_div_cancel _ hden]
  have hb : binade = 2 ^ 52 := rfl
  by_cases hsmall : x.magnitude < 2 * binade
  · -- below `2 ^ 53` the units are the magnitude, and nothing is cut off
    have hunits : x.units = x.magnitude := if_pos hsmall
    have hshift : x.magnitude.log2 - 52 = 0 := by
      by_cases hz : x.magnitude = 0
      · rw [hz]; rfl
      · have : x.magnitude.log2 < 53 := (Nat.log2_lt hz).2 hsmall
        omega
    have hone : den * Nat.pow 2 0 = den := Nat.mul_one den
    rw [hunits, hshift, hone, roundHalfEven_mul _ hden]
    omega
  · -- above, the units have 53 bits after the shift, of which the first is not stored
    have hunits : x.units
        = (binade + x.magnitude % binade) * Nat.pow 2 (x.magnitude / binade - 1) := if_neg hsmall
    have hlow : x.magnitude % binade < binade := Nat.mod_lt _ (by decide)
    have hdiv : binade * (x.magnitude / binade) + x.magnitude % binade = x.magnitude :=
      Nat.div_add_mod _ _
    have hexp : 2 ≤ x.magnitude / binade := (Nat.le_div_iff_mul_le (by decide)).2 (by omega)
    have hpos : 0 < Nat.pow 2 (x.magnitude / binade - 1) := Nat.pow_pos (by decide)
    have hlog : x.units.log2 = 52 + (x.magnitude / binade - 1) := by
      have hne : binade + x.magnitude % binade ≠ 0 := Nat.ne_of_gt (Nat.add_pos_left (by decide) _)
      rw [hunits, Nat.log2_eq_iff (Nat.mul_ne_zero hne hpos.ne')]
      constructor
      · rw [Nat.pow_add, ← hb]
        exact Nat.mul_le_mul_right _ (Nat.le_add_right _ _)
      · have hsum : 52 + (x.magnitude / binade - 1) + 1 = 53 + (x.magnitude / binade - 1) := by
          omega
        rw [hsum, Nat.pow_add]
        exact Nat.mul_lt_mul_of_pos_right (by omega) hpos
    have hshift : x.units.log2 - 52 = x.magnitude / binade - 1 := by omega
    have hassoc : x.units * den
        = (binade + x.magnitude % binade) * (den * Nat.pow 2 (x.magnitude / binade - 1)) := by
      rw [hunits, Nat.mul_assoc, Nat.mul_comm den]
    rw [hshift, hassoc, roundHalfEven_mul _ (Nat.mul_pos hden hpos)]
    have hprod : (x.magnitude / binade - 1) * binade + binade
        = binade * (x.magnitude / binade) := by
      rw [Nat.sub_mul, Nat.one_mul, Nat.sub_add_cancel, Nat.mul_comm]
      exact Nat.le_mul_of_pos_left _ (by omega)
    omega

theorem ofRatio?_of_eq {x : Binary64} {num den : Nat} (hden : 0 < den)
    (h : num * unitsPerOne = x.units * den) : ofRatio? x.negative num den = some x := by
  have hmag := roundedMagnitude_of_eq hden h
  unfold ofRatio?
  rw [dif_pos (hmag.symm ▸ x.finite)]
  cases x
  simp only [Option.some.injEq, mk.injEq, true_and]
  exact hmag

theorem ofRatio?_scale (negative : Bool) (num den : Nat) {c : Nat} (hc : 0 < c) :
    ofRatio? negative (num * c) (den * c) = ofRatio? negative num den := by
  unfold ofRatio?
  simp only [roundedMagnitude_scale _ _ hc]

end Binary64

/-! ### Counting digits -/

namespace Decimal

theorem length_mul_ten {n : Nat} (h : 0 < n) : length (n * 10) = length n + 1 := by
  unfold length
  have happ := Nat.toDigits_append_toDigits (b := 10) (d := 0) (by decide) h (by decide)
  rw [Nat.mul_comm n, ← Nat.add_zero (10 * n), ← happ]
  simp [Nat.toDigits_zero]

theorem length_mul_pow {n : Nat} (h : 0 < n) (k : Nat) :
    length (n * 10 ^ k) = length n + k := by
  induction k with
  | zero => simp
  | succ k ih =>
    rw [Nat.pow_succ, ← Nat.mul_assoc, length_mul_ten (Nat.mul_pos h (Nat.pow_pos (by decide))),
      ih, Nat.add_assoc]

theorem lt_pow_length (n : Nat) : n < 10 ^ length n := by
  induction n using Nat.strongRecOn with
  | _ n ih =>
    unfold length
    by_cases hn : n < 10
    · rw [Nat.toDigits_of_lt_base hn]
      simpa using hn
    · have hlt := ih (n / 10) (by omega)
      rw [Nat.toDigits_of_base_le (by decide) (by omega), List.length_append,
        List.length_singleton, Nat.pow_succ]
      unfold length at hlt
      omega

/-! ### Decimals of one value -/

/-- **A decimal is read by its value**: zeros at the end of its digits do not count. The reader
forms a fraction whose terms differ by a power of ten between the two decimals, and rounding depends
on its value alone. -/
theorem nearest?_trailing (negative : Bool) (n k : Nat) (e : Int) :
    nearest? negative ⟨n * 10 ^ k, e - k⟩ = nearest? negative ⟨n, e⟩ := by
  have hten : ∀ m : Nat, 0 < Nat.pow 10 m := fun m => Nat.pow_pos (by decide)
  have hadd : ∀ l m : Nat, Nat.pow 10 (l + m) = Nat.pow 10 l * Nat.pow 10 m := Nat.pow_add 10
  have hk : 10 ^ k = Nat.pow 10 k := rfl
  by_cases hn : n = 0
  · simp [nearest?, hn]
  · have hne : n * 10 ^ k ≠ 0 := Nat.mul_ne_zero hn (hten k).ne'
    -- the tests for what is too large or too small go by where the first digit stands
    have hlen : e - k + (length (n * 10 ^ k) : Int) = e + length n := by
      rw [length_mul_pow (Nat.pos_of_ne_zero hn)]
      push_cast
      omega
    simp only [nearest?, hn, hne, hlen, if_false]
    split
    · rfl
    split
    · rfl
    rw [hk]
    by_cases he : 0 ≤ e
    · by_cases hek : 0 ≤ e - k
      · -- both are whole numbers
        have hpow : e.toNat = k + (e - k).toNat := by omega
        rw [if_pos he, if_pos hek, Nat.mul_assoc, ← hadd, ← hpow]
      · -- the zeros at the end outweigh the exponent
        have hpow : k = e.toNat + (-(e - k)).toNat := by omega
        have hnum : n * Nat.pow 10 k
            = n * Nat.pow 10 e.toNat * Nat.pow 10 (-(e - k)).toNat := by
          rw [Nat.mul_assoc, ← hadd, ← hpow]
        have hscale := Binary64.ofRatio?_scale negative (n * Nat.pow 10 e.toNat) 1
          (hten (-(e - k)).toNat)
        rw [if_pos he, if_neg hek, hnum, ← hscale, Nat.one_mul]
    · have hek : ¬ 0 ≤ e - k := by omega
      have hpow : (-(e - k)).toNat = (-e).toNat + k := by omega
      rw [if_neg he, if_neg hek, hpow, hadd, Binary64.ofRatio?_scale _ _ _ (hten k)]

end Decimal

/-! ### The search for the shortest decimal -/

namespace Binary64

theorem readsBack_of_neighbour? {x : Binary64} {k : Int} {d : Decimal}
    (h : x.neighbour? k = some d) : x.readsBack d = true := by
  unfold neighbour? at h
  split at h
  grind

/-- One is a power of two of units, and the exact value of a number has as many decimals as the
exponent says. It has a name, for its powers are not to be written out: what follows needs no more
of them than their bounds. -/
theorem exists_unitsPerOne : ∃ e : Nat, e = 1074 ∧ unitsPerOne = 2 ^ e ∧
    ∀ x : Binary64, x.exact = ⟨x.units * 5 ^ e, -e⟩ := by
  refine ⟨1074, rfl, ?_⟩
  have hcast : (-1074 : Int) = -((1074 : Nat) : Int) := rfl
  unfold unitsPerOne exact
  rw [hcast]
  generalize 1074 = e
  exact ⟨rfl, fun x => rfl⟩

theorem exact_digits_pos {x : Binary64} (h : x.isZero = false) : 0 < x.exact.digits := by
  obtain ⟨e, -, -, hexact⟩ := exists_unitsPerOne
  rw [hexact x]
  exact Nat.mul_pos (units_pos h) (Nat.pow_pos (by decide))

/-- The largest exponent that the exact digits reach is far from that at which a decimal is taken
to be infinite without being looked at. -/
theorem exact_length_le (x : Binary64) : Decimal.length x.exact.digits ≤ 1383 := by
  obtain ⟨e, he, -, hexact⟩ := exists_unitsPerOne
  have hle : 2 ^ 2098 * 5 ^ e ≤ 10 ^ 1383 := by
    rw [he]
    decide +kernel
  refine Nat.toDigits_length 10 _ 1383 (by decide) ?_
  rw [hexact]
  exact Nat.lt_of_lt_of_le (Nat.mul_lt_mul_of_pos_right (units_lt x) (Nat.pow_pos (by decide))) hle

/-- Nor are they too few, which would have the decimal taken to be zero: they are a multiple of a
large power of five. -/
theorem le_exact_length {x : Binary64} (h : x.isZero = false) :
    744 ≤ Decimal.length x.exact.digits := by
  obtain ⟨e, he, -, hexact⟩ := exists_unitsPerOne
  have hfive : 10 ^ 743 ≤ 5 ^ e := by
    rw [he]
    decide +kernel
  have hmul : 5 ^ e ≤ x.exact.digits := by
    rw [hexact]
    exact Nat.le_mul_of_pos_left _ (units_pos h)
  -- fewer digits would make them less than that power
  by_contra hlt
  have hlen : Decimal.length x.exact.digits ≤ 743 := by omega
  have hbound : ∀ k, Decimal.length x.exact.digits ≤ k → x.exact.digits < 10 ^ k := fun k hk =>
    Nat.lt_of_lt_of_le (Decimal.lt_pow_length _) (Nat.pow_le_pow_right (by decide) hk)
  exact Nat.lt_irrefl _ (Nat.lt_of_le_of_lt (Nat.le_trans hfive hmul) (hbound 743 hlen))

theorem ofRatio?_exact (x : Binary64) {k : Nat} (hk : unitsPerOne = 2 ^ k) :
    ofRatio? x.negative (x.units * 5 ^ k) (Nat.pow 10 k) = some x := by
  have hten : Nat.pow 10 k = 5 ^ k * 2 ^ k := Nat.mul_pow 5 2 k
  refine ofRatio?_of_eq (Nat.pow_pos (by decide)) ?_
  rw [hten, ← hk, Nat.mul_assoc]

/-- The exact value reads back: it is neither too long nor too short to be looked at. -/
theorem readsBack_exact {x : Binary64} (h : x.isZero = false) : x.readsBack x.exact = true := by
  have hne : x.exact.digits ≠ 0 := (exact_digits_pos h).ne'
  have hlong := exact_length_le x
  have hshort := le_exact_length h
  obtain ⟨e, he, hunit, hexact⟩ := exists_unitsPerOne
  have hexp : x.exact.exponent = -e := by rw [hexact]
  have hdigits : x.exact.digits = x.units * 5 ^ e := by rw [hexact]
  have hpow : (-x.exact.exponent).toNat = e := by omega
  have hread : Decimal.nearest? x.negative x.exact = some x := by
    unfold Decimal.nearest?
    rw [if_neg hne, if_neg (by omega), if_neg (by omega), if_neg (by omega), hpow, hdigits]
    exact ofRatio?_exact x hunit
  simp [readsBack, hread]

theorem shortest_eq {x : Binary64} (h : x.isZero = false) :
    x.shortest = ((List.range 17).findSome? fun n : Nat =>
      x.neighbour? (x.leadingExponent - n)).getD x.exact := by
  unfold shortest
  rw [if_neg (by simp [h])]

/-- **The shortest decimal of a number other than zero reads back as the number.** Nothing has to be
known of how good the decimals are that the search tries: what it keeps has been read back, and what
it falls back on reads back by what has been said of exact values. -/
theorem readsBack_shortest {x : Binary64} (h : x.isZero = false) :
    Decimal.nearest? x.negative x.shortest = some x := by
  have hreads : x.readsBack x.shortest = true := by
    rw [shortest_eq h]
    -- at each length a decimal is kept only if it reads back
    cases hfind : (List.range 17).findSome? fun n : Nat => x.neighbour? (x.leadingExponent - n) with
    | none => exact readsBack_exact h
    | some d =>
      obtain ⟨n, -, hn⟩ := List.exists_of_findSome?_eq_some hfind
      exact readsBack_of_neighbour? hn
  simpa [readsBack] using hreads

/-- The shortest decimal of a number other than zero is not zero either. -/
theorem shortest_digits_ne_zero {x : Binary64} (h : x.isZero = false) :
    x.shortest.digits ≠ 0 := by
  intro hz
  have hread := readsBack_shortest h
  -- without digits it would be read as zero, which the float is not
  unfold Decimal.nearest? at hread
  rw [if_pos hz] at hread
  have hmag : (Binary64.zero).magnitude = x.magnitude := by
    rw [← Option.some.inj hread]
  have : x.isZero = true := by
    unfold isZero
    rw [← hmag]
    rfl
  rw [this] at h
  exact absurd h (by decide)

end Binary64

end ConfigTree
