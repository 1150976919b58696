import ConfigTree.Proofs.Scalar
import ConfigTree.Proofs.Binary64.Whole

/-!
# How exactly numbers are held

The kinds of whole numbers take a number of a payload if it is whole and in their range, and hold it
as it is. The exception is what is just too large for 64 bits: a number goes through a float, whose
bound is that of the numbers without a sign, and is then cut to the greatest one of the kind.

* `Json.Number.value`: the number as an exact fraction.
* `ScalarKind.Holds`: the range of a kind; `ScalarKind.Overruns`: the numbers that are cut.
* `canonicalScalar_num_iff`: what becomes of a number, for either sort of kind.
* `canonicalScalar_exact`: a number that is not cut is taken just if it is in the range, and then
  what is held, and its typed value, are the same number.
* `canonicalScalar_of_overruns`: a number that is cut is taken, and held as another one.
-/

namespace ConfigTree

open Json (Number)

/-- The exact value of a number. -/
def Json.Number.value : Number → ℚ
  | .whole n _ => n
  | .float x => x.value

/-- The whole number that a typed value has. -/
def TypedValue.whole? : TypedValue → Option Int
  | .int n => some n.toInt
  | .uint n => some n.toNat
  | _ => none

namespace ScalarKind

/-- A kind of whole numbers, of a width that counts as it stands: one of no bits or of more than 64
counts as the nearest width that there is, and has another range than its number of bits says. -/
def IsWhole : ScalarKind → Prop
  | .int bits | .uint bits => 1 ≤ bits.toNat ∧ bits.toNat ≤ 64
  | _ => False

/-- The whole numbers of a kind. -/
def Holds : ScalarKind → Int → Prop
  | .int bits, i => -2 ^ (bits.toNat - 1) ≤ i ∧ i ≤ 2 ^ (bits.toNat - 1) - 1
  | .uint bits, i => 0 ≤ i ∧ i ≤ 2 ^ bits.toNat - 1
  | _, _ => False

/-- The whole numbers that a kind of 64 bits takes although they are beyond its range. A kind with a
sign takes up to twice its range, because the bound is that of the numbers without a sign; a kind
without one takes just the first number that it does not have. At a smaller width what is cut is
still beyond the range, and the check that follows refuses it. -/
def Overruns : ScalarKind → ℚ → Prop
  | .int bits, q => bits.toNat = 64 ∧ ∃ i : Int, q = i ∧ 2 ^ 63 ≤ i ∧ i ≤ 2 ^ 64
  | .uint bits, q => bits.toNat = 64 ∧ q = 2 ^ 64
  | _, _ => False

/-- The least number that is taken before widths are looked at. -/
def least : ScalarKind → Int
  | .uint _ => 0
  | _ => leastSigned

/-- The number that greater ones are cut to. -/
def greatest : ScalarKind → Int
  | .uint _ => greatestUnsigned
  | _ => greatestSigned

end ScalarKind

/-! ### Conversion -/

theorem value_whole_eq_iff {n i : Int} {fits : Json.Fits n} :
    (Number.whole n fits).value = i ↔ n = i :=
  Int.cast_inj

theorem wholeFloat?_eq_some_iff {x : Binary64} {i : Int} :
    wholeFloat? x = some i ↔ x.value = i ∧ leastSigned ≤ i ∧ i ≤ 2 ^ 64 := by
  rw [wholeFloat?, Option.filter_eq_some_iff, Binary64.whole?_eq_some_iff, decide_eq_true_iff]
  rfl

theorem ofInt?_eq_some_iff {n : Int} {m : Number} :
    Number.ofInt? n = some m ↔ ∃ fits, m = .whole n fits := by
  constructor
  · exact ofInt?_eq_some
  · rintro ⟨fits, rfl⟩
    exact dif_pos fits

/-- What becomes of a number in a kind with a sign. A float that is whole is cut to the greatest
number of the sort; a whole number is taken as it is as far as 64 bits go, and goes through a float
from there on, whose value is no longer the number but is beyond the bound just as well. -/
theorem signedNumber?_eq_some_iff {n m : Number} :
    signedNumber? n = some m ↔ ∃ i : Int, n.value = i ∧ leastSigned ≤ i ∧ i ≤ 2 ^ 64 ∧
      ∃ fits, m = .whole (min i greatestSigned) fits := by
  have hleast : leastSigned = -9223372036854775808 := rfl
  have hgreatest : greatestSigned = 9223372036854775807 := rfl
  have hclamp {i : Int} (hi : leastSigned ≤ i) :
      clamp leastSigned greatestSigned i = min i greatestSigned := by
    unfold clamp
    omega
  cases n with
  | float x =>
    have hfloat : signedNumber? (.float x) = (wholeFloat? x).bind fun i =>
      Number.ofInt? (clamp leastSigned greatestSigned i) := rfl
    rw [hfloat, Option.bind_eq_some_iff]
    constructor
    · rintro ⟨i, hi, hm⟩
      obtain ⟨hvalue, hlow, hhigh⟩ := wholeFloat?_eq_some_iff.1 hi
      rw [hclamp hlow] at hm
      exact ⟨i, hvalue, hlow, hhigh, ofInt?_eq_some_iff.1 hm⟩
    · rintro ⟨i, hvalue, hlow, hhigh, hm⟩
      refine ⟨i, wholeFloat?_eq_some_iff.2 ⟨hvalue, hlow, hhigh⟩, ?_⟩
      rw [hclamp hlow]
      exact ofInt?_eq_some_iff.2 hm
  | whole n fits =>
    simp only [value_whole_eq_iff]
    have hlow : leastSigned ≤ n := fits.1
    have hhigh : n ≤ 2 ^ 64 := fits.2.le
    -- either way the number is cut to the greatest one
    have hcut : signedNumber? (.whole n fits) = Number.ofInt? (min n greatestSigned) := by
      by_cases hlt : n < 9223372036854775808
      · have hint : (Number.whole n fits).toInt64? = some (Int64.ofInt n) := if_pos hlt
        rw [signedNumber?_of_toInt64? hint, min_eq_left (by omega)]
        exact (ofInt?_eq_some_iff.2 ⟨fits, rfl⟩).symm
      · have hint : (Number.whole n fits).toInt64? = none := if_neg hlt
        obtain ⟨x, i, hx, hvalue, hge, hle⟩ :=
          Binary64.exists_value_ofNat? (n := n.natAbs) (by omega) (by omega)
        have hbinary : (Number.whole n fits).toBinary64 = x := by
          rw [Number.toBinary64, decide_eq_false (by omega), hx, Option.getD_some]
        have hwhole : wholeFloat? x = some i :=
          wholeFloat?_eq_some_iff.2 ⟨hvalue, by omega, hle⟩
        rw [signedNumber?, hint, hbinary, hwhole, Option.bind_some, hclamp (by omega),
          min_eq_right (by omega), min_eq_right (by omega)]
    rw [hcut, ofInt?_eq_some_iff]
    constructor
    · exact fun hm => ⟨n, rfl, hlow, hhigh, hm⟩
    · rintro ⟨i, rfl, -, -, hm⟩
      exact hm

/-- What becomes of a number in a kind without a sign. Whole numbers without a sign are taken as
they are, so that the cut only ever meets a float; a negative number goes through a float too and
fails there. -/
theorem unsignedNumber?_eq_some_iff {n m : Number} :
    unsignedNumber? n = some m ↔ ∃ i : Int, n.value = i ∧ 0 ≤ i ∧ i ≤ 2 ^ 64 ∧
      ∃ fits, m = .whole (min i greatestUnsigned) fits := by
  have hleast : leastSigned = -9223372036854775808 := rfl
  have hgreatest : greatestUnsigned = 18446744073709551615 := rfl
  have hclamp {i : Int} (hi : 0 ≤ i) :
      clamp 0 greatestUnsigned i = min i greatestUnsigned := by
    unfold clamp
    omega
  cases n with
  | float x =>
    have hfloat : unsignedNumber? (.float x) = ((wholeFloat? x).filter fun i =>
      decide (0 ≤ i)).bind fun i => Number.ofInt? (clamp 0 greatestUnsigned i) := rfl
    rw [hfloat, Option.bind_eq_some_iff]
    constructor
    · rintro ⟨i, hi, hm⟩
      obtain ⟨hi, hpos⟩ := Option.filter_eq_some_iff.1 hi
      obtain ⟨hvalue, -, hhigh⟩ := wholeFloat?_eq_some_iff.1 hi
      have hpos := of_decide_eq_true hpos
      rw [hclamp hpos] at hm
      exact ⟨i, hvalue, hpos, hhigh, ofInt?_eq_some_iff.1 hm⟩
    · rintro ⟨i, hvalue, hpos, hhigh, hm⟩
      have hi : wholeFloat? x = some i :=
        wholeFloat?_eq_some_iff.2 ⟨hvalue, by omega, hhigh⟩
      refine ⟨i, Option.filter_eq_some_iff.2 ⟨hi, decide_eq_true hpos⟩, ?_⟩
      rw [hclamp hpos]
      exact ofInt?_eq_some_iff.2 hm
  | whole n fits =>
    simp only [value_whole_eq_iff]
    -- a number without a sign fits in 64 bits, as every whole number of a payload does
    by_cases hpos : 0 ≤ n
    · have huint : (Number.whole n fits).toUInt64? = some (UInt64.ofNat n.toNat) := if_pos hpos
      have hhigh : n < 18446744073709551616 := fits.2
      rw [unsignedNumber?_of_toUInt64? huint]
      constructor
      · intro hm
        have hmin : min n greatestUnsigned = n := min_eq_left (by omega)
        refine ⟨n, rfl, hpos, hhigh.le, ?_⟩
        simp only [hmin]
        exact ⟨fits, (Option.some.inj hm).symm⟩
      · rintro ⟨i, rfl, -, -, fits', rfl⟩
        have hmin : min n greatestUnsigned = n := min_eq_left (by omega)
        simp only [hmin]
    · -- the nearest float of a negative number is negative
      have huint : (Number.whole n fits).toUInt64? = none := if_neg hpos
      have hlow : -9223372036854775808 ≤ n := fits.1
      obtain ⟨x, hx, hneg⟩ := Binary64.exists_value_neg (n := n.natAbs) (by omega) (by omega)
      have hbinary : (Number.whole n fits).toBinary64 = x := by
        rw [Number.toBinary64, decide_eq_true (by omega), hx, Option.getD_some]
      have hnone : (wholeFloat? x).filter (fun i => decide (0 ≤ i)) = none := by
        rw [Option.filter_eq_none_iff]
        intro i hi hdec
        have hvalue := (wholeFloat?_eq_some_iff.1 hi).1
        rw [hvalue] at hneg
        have hlt : i < 0 := by exact_mod_cast hneg
        exact absurd (of_decide_eq_true hdec) (by omega)
      rw [unsignedNumber?, huint, hbinary, hnone]
      constructor
      · intro hm
        cases hm
      · rintro ⟨i, rfl, hi, -⟩
        exact absurd hi hpos

/-- **What becomes of a number**: if it is whole, and neither below what its sort of kind has nor
above `2 ^ 64`, it is held as it is or as the greatest number of that sort. The width does not show:
it is the check after the conversion that looks at it. -/
theorem canonicalScalar_num_iff {path : String} {kind : ScalarKind} (hkind : kind.IsWhole)
    {n : Number} {c : Json} :
    canonicalScalar path kind (.num n) = .ok c ↔ ∃ i : Int, n.value = i ∧ kind.least ≤ i ∧
      i ≤ 2 ^ 64 ∧ ∃ fits, c = .num (.whole (min i kind.greatest) fits) := by
  rw [canonicalScalar_eq_ok_iff]
  -- both sorts of kind go by the number alone
  have hnum (o : Option Number) : some (o.map Json.num) = some (some c) ↔
      ∃ m, o = some m ∧ c = .num m := by
    rw [Option.some_inj, Option.map_eq_some_iff]
    exact exists_congr fun m => and_congr_right fun _ => eq_comm
  cases kind with
  | int bits =>
    refine (hnum _).trans ?_
    simp only [signedNumber?_eq_some_iff]
    constructor
    · rintro ⟨m, ⟨i, hvalue, hlow, hhigh, fits, rfl⟩, rfl⟩
      exact ⟨i, hvalue, hlow, hhigh, fits, rfl⟩
    · rintro ⟨i, hvalue, hlow, hhigh, fits, rfl⟩
      exact ⟨_, ⟨i, hvalue, hlow, hhigh, fits, rfl⟩, rfl⟩
  | uint bits =>
    refine (hnum _).trans ?_
    simp only [unsignedNumber?_eq_some_iff]
    constructor
    · rintro ⟨m, ⟨i, hvalue, hlow, hhigh, fits, rfl⟩, rfl⟩
      exact ⟨i, hvalue, hlow, hhigh, fits, rfl⟩
    · rintro ⟨i, hvalue, hlow, hhigh, fits, rfl⟩
      exact ⟨_, ⟨i, hvalue, hlow, hhigh, fits, rfl⟩, rfl⟩
  | string | bool | decimal | enumeration | binary => exact hkind.elim

/-! ### Ranges -/

theorem width_eq {bits : UInt8} (h : 1 ≤ bits.toNat ∧ bits.toNat ≤ 64) :
    ScalarKind.width bits = bits.toNat := by
  unfold ScalarKind.width
  omega

theorem toInt_ofInt_of_fits {i : Int} (hlow : leastSigned ≤ i) (hhigh : i ≤ greatestSigned) :
    (Int64.ofInt i).toInt = i := by
  have hleast : leastSigned = -9223372036854775808 := rfl
  have hgreatest : greatestSigned = 9223372036854775807 := rfl
  exact Int64.toInt_ofInt_of_le (by omega) (by omega)

theorem toNat_ofNat_of_fits {i : Int} (hlow : 0 ≤ i) (hhigh : i ≤ greatestUnsigned) :
    ((UInt64.ofNat i.toNat).toNat : Int) = i := by
  have hgreatest : greatestUnsigned = 18446744073709551615 := rfl
  have hsize : UInt64.size = 18446744073709551616 := rfl
  rw [UInt64.toNat_ofNat_of_lt' (by omega)]
  omega

/-- What a kind has is within the bounds of 64 bits. -/
theorem ScalarKind.Holds.bounds {kind : ScalarKind} (hkind : kind.IsWhole) {i : Int}
    (h : kind.Holds i) : kind.least ≤ i ∧ i ≤ kind.greatest := by
  -- no width is greater than 64 bits
  cases kind with
  | int bits =>
    have hpow : (2 : Int) ^ (bits.toNat - 1) ≤ 2 ^ 63 :=
      pow_le_pow_right₀ (by decide) (by have := hkind.2; omega)
    have hleast : leastSigned = -9223372036854775808 := rfl
    have hgreatest : greatestSigned = 9223372036854775807 := rfl
    obtain ⟨hlow, hhigh⟩ := h
    change leastSigned ≤ i ∧ i ≤ greatestSigned
    omega
  | uint bits =>
    have hpow : (2 : Int) ^ bits.toNat ≤ 2 ^ 64 := pow_le_pow_right₀ (by decide) hkind.2
    have hgreatest : greatestUnsigned = 18446744073709551615 := rfl
    obtain ⟨hlow, hhigh⟩ := h
    change 0 ≤ i ∧ i ≤ greatestUnsigned
    omega
  | string | bool | decimal | enumeration | binary => exact hkind.elim

theorem ScalarKind.fits_of_bounds {kind : ScalarKind} {i : Int} (hlow : kind.least ≤ i)
    (hhigh : i ≤ kind.greatest) : Json.Fits i := by
  have hleast : leastSigned = -9223372036854775808 := rfl
  have hsigned : greatestSigned = 9223372036854775807 := rfl
  have hunsigned : greatestUnsigned = 18446744073709551615 := rfl
  unfold ScalarKind.least at hlow
  unfold ScalarKind.greatest at hhigh
  cases kind <;> constructor <;> simp only at hlow hhigh <;> omega

/-- A whole number is of a kind just if it is in the range. Both sides are statements about integers
once the number is known to fit in 64 bits; one that does not fit is in no range. -/
theorem isOfKind_whole_iff {kind : ScalarKind} (hkind : kind.IsWhole) {i : Int}
    {fits : Json.Fits i} : isOfKind kind (.num (.whole i fits)) = true ↔ kind.Holds i := by
  cases kind with
  | int bits =>
    have hgreatest : greatestSigned = 9223372036854775807 := rfl
    by_cases hlt : i < 9223372036854775808
    · have hint : (Number.whole i fits).toInt64? = some (Int64.ofInt i) := if_pos hlt
      have hto : (Int64.ofInt i).toInt = i := toInt_ofInt_of_fits fits.1 (by omega)
      have hhalf : ((Nat.pow 2 (bits.toNat - 1) : Nat) : Int) = 2 ^ (bits.toNat - 1) :=
        Nat.cast_pow 2 _
      simp only [isOfKind, Json.num?, Option.bind_some, hint, hto, width_eq hkind, hhalf,
        decide_eq_true_iff, ScalarKind.Holds]
      omega
    · -- too large for a signed number of any width
      have hint : (Number.whole i fits).toInt64? = none := if_neg hlt
      simp only [isOfKind, Json.num?, Option.bind_some, hint]
      constructor
      · intro h
        cases h
      · intro h
        have hle : i ≤ greatestSigned := (h.bounds hkind).2
        omega
  | uint bits =>
    by_cases hpos : 0 ≤ i
    · have huint : (Number.whole i fits).toUInt64? = some (UInt64.ofNat i.toNat) := if_pos hpos
      have hgreatest : greatestUnsigned = 18446744073709551615 := rfl
      have hlt : i < 18446744073709551616 := fits.2
      have hto : ((UInt64.ofNat i.toNat).toNat : Int) = i :=
        toNat_ofNat_of_fits hpos (by omega)
      have hpow : ((Nat.pow 2 bits.toNat : Nat) : Int) = 2 ^ bits.toNat := Nat.cast_pow 2 _
      simp only [isOfKind, Json.num?, Option.bind_some, huint, width_eq hkind,
        decide_eq_true_iff, ScalarKind.Holds]
      omega
    · -- a negative number is of no unsigned kind
      have huint : (Number.whole i fits).toUInt64? = none := if_neg hpos
      simp only [isOfKind, Json.num?, Option.bind_some, huint]
      constructor
      · intro h
        cases h
      · intro h
        exact absurd h.1 hpos
  | string | bool | decimal | enumeration | binary => exact hkind.elim

/-- The typed value of a whole number in the range is the same number: a typed value has 64 bits,
which the range of the kind is within. -/
theorem exists_ofHeld_whole {path : String} {kind : ScalarKind} (hkind : kind.IsWhole) {i : Int}
    {fits : Json.Fits i} (h : kind.Holds i) :
    ∃ v, TypedValue.ofHeld path kind (.num (.whole i fits)) = .ok v ∧ v.whole? = some i := by
  obtain ⟨hlow, hhigh⟩ := h.bounds hkind
  -- the number fits into 64 bits with the sign that its kind has
  cases kind with
  | int bits =>
    have hgreatest : greatestSigned = 9223372036854775807 := rfl
    have hle : i ≤ greatestSigned := hhigh
    have hint : (Number.whole i fits).toInt64? = some (Int64.ofInt i) := if_pos (by omega)
    have htyped :
        typedScalar? (.int bits) (.num (.whole i fits)) = some (.int (Int64.ofInt i)) := by
      rw [typedScalar?, Json.num?, Option.bind_some, hint, Option.map_some]
    refine ⟨.int (Int64.ofInt i), by simp only [TypedValue.ofHeld, htyped], ?_⟩
    rw [TypedValue.whole?, toInt_ofInt_of_fits hlow hle]
  | uint bits =>
    have hpos : 0 ≤ i := hlow
    have huint : (Number.whole i fits).toUInt64? = some (UInt64.ofNat i.toNat) := if_pos hpos
    have htyped : typedScalar? (.uint bits) (.num (.whole i fits))
        = some (.uint (UInt64.ofNat i.toNat)) := by
      rw [typedScalar?, Json.num?, Option.bind_some, huint, Option.map_some]
    refine ⟨.uint (UInt64.ofNat i.toNat), by simp only [TypedValue.ofHeld, htyped], ?_⟩
    rw [TypedValue.whole?, toNat_ofNat_of_fits hpos hhigh]
  | string | bool | decimal | enumeration | binary => exact hkind.elim

/-! ### Numbers that are cut -/

/-- A number is cut to the greatest one of its kind only if it overruns the kind. What it would be
cut to is then in the range of the kind itself, which only a kind of 64 bits has. -/
theorem le_greatest_of_holds {kind : ScalarKind} (hkind : kind.IsWhole) {i : Int}
    (hhigh : i ≤ 2 ^ 64) (hover : ¬ kind.Overruns i) (h : kind.Holds (min i kind.greatest)) :
    i ≤ kind.greatest := by
  rcases le_or_gt i kind.greatest with hle | hgt
  · exact hle
  refine absurd ?_ hover
  -- only the widest kind has the greatest number in its range
  rw [min_eq_right hgt.le] at h
  cases kind with
  | int bits =>
    have hgreatest : greatestSigned = 2 ^ 63 - 1 := rfl
    have hlt : (2 : Int) ^ 62 < 2 ^ (bits.toNat - 1) := by
      have hle : greatestSigned ≤ 2 ^ (bits.toNat - 1) - 1 := h.2
      omega
    have hexp := (pow_lt_pow_iff_right₀ (by decide : (1 : Int) < 2)).1 hlt
    have hbits := hkind.2
    have hcut : greatestSigned < i := hgt
    exact ⟨by omega, i, rfl, by omega, hhigh⟩
  | uint bits =>
    have hgreatest : greatestUnsigned = 2 ^ 64 - 1 := rfl
    have hlt : (2 : Int) ^ 63 < 2 ^ bits.toNat := by
      have hle : greatestUnsigned ≤ 2 ^ bits.toNat - 1 := h.2
      omega
    have hexp := (pow_lt_pow_iff_right₀ (by decide : (1 : Int) < 2)).1 hlt
    have hbits := hkind.2
    have hcut : greatestUnsigned < i := hgt
    obtain rfl : i = 2 ^ 64 := by omega
    exact ⟨by omega, by norm_num⟩
  | string | bool | decimal | enumeration | binary => exact hkind.elim

/-- **Numbers are held exactly or refused.** If a number does not overrun its kind, it is taken just
if it is whole and in the range; and what is then held, and the typed value of that, are the same
number. -/
theorem canonicalScalar_exact (path : String) {kind : ScalarKind} (hkind : kind.IsWhole)
    {n : Number} (hover : ¬ kind.Overruns n.value) :
    ((∃ c, canonicalScalar path kind (.num n) = .ok c ∧ checkScalar path kind c = .ok ()) ↔
      ∃ i : Int, n.value = i ∧ kind.Holds i) ∧
    ∀ c, canonicalScalar path kind (.num n) = .ok c → checkScalar path kind c = .ok () →
      ∃ m v i, c = .num m ∧ m.value = n.value ∧
        TypedValue.ofHeld path kind c = .ok v ∧ v.whole? = some i ∧ n.value = i := by
  -- what passes both checks has not been cut
  have hkept {c : Json} (hc : canonicalScalar path kind (.num n) = .ok c)
      (hcheck : checkScalar path kind c = .ok ()) :
      ∃ i fits, n.value = (i : Int) ∧ kind.Holds i ∧ c = .num (.whole i fits) := by
    obtain ⟨i, hvalue, -, hhigh, fits, rfl⟩ := (canonicalScalar_num_iff hkind).1 hc
    have hholds := (isOfKind_whole_iff hkind).1 (checkScalar_eq_ok_iff.1 hcheck)
    rw [hvalue] at hover
    -- so the number is what it would be cut to
    have hmin := min_eq_left (le_greatest_of_holds hkind hhigh hover hholds)
    simp only [hmin] at hholds ⊢
    exact ⟨i, hmin ▸ fits, hvalue, hholds, rfl⟩
  refine ⟨⟨?_, ?_⟩, ?_⟩
  · rintro ⟨c, hc, hcheck⟩
    obtain ⟨i, -, hvalue, hholds, -⟩ := hkept hc hcheck
    exact ⟨i, hvalue, hholds⟩
  · rintro ⟨i, hvalue, hholds⟩
    obtain ⟨hlow, hhigh⟩ := hholds.bounds hkind
    -- a number in the range is below what anything is cut to
    have fits := ScalarKind.fits_of_bounds hlow hhigh
    have hmin : min i kind.greatest = i := min_eq_left hhigh
    refine ⟨.num (.whole i fits), (canonicalScalar_num_iff hkind).2 ⟨i, hvalue, hlow, ?_, ?_⟩, ?_⟩
    · exact fits.2.le
    · exact ⟨hmin.symm ▸ fits, by simp only [hmin]⟩
    · exact checkScalar_eq_ok_iff.2 ((isOfKind_whole_iff hkind).2 hholds)
  · intro c hc hcheck
    obtain ⟨i, fits, hvalue, hholds, rfl⟩ := hkept hc hcheck
    obtain ⟨v, hv, hwhole⟩ := exists_ofHeld_whole hkind hholds
    exact ⟨_, v, i, rfl, hvalue.symm, hv, hwhole, hvalue⟩

/-- The greatest number of 64 bits without a sign is held as it is. -/
theorem canonicalScalar_greatest :
    ∃ c m, canonicalScalar "/x" (.uint 64) (.num (.whole 18446744073709551615 (by decide)))
        = .ok c ∧
      checkScalar "/x" (.uint 64) c = .ok () ∧ c = .num m ∧ m.value = 18446744073709551615 := by
  have hvalue : (Number.whole 18446744073709551615 (by decide)).value = 18446744073709551615 := by
    norm_num [Number.value]
  -- it is the largest number that does not overrun
  have hover : ¬ (ScalarKind.uint 64).Overruns
      (Number.whole 18446744073709551615 (by decide)).value := by
    rintro ⟨-, hpow⟩
    rw [hvalue] at hpow
    norm_num at hpow
  have hkind : (ScalarKind.uint 64).IsWhole := ⟨by decide, by decide⟩
  have hholds : (ScalarKind.uint 64).Holds 18446744073709551615 := ⟨by decide, by decide⟩
  obtain ⟨htaken, hsame⟩ := canonicalScalar_exact "/x" hkind hover
  obtain ⟨c, hc, hcheck⟩ := htaken.2 ⟨18446744073709551615, by rw [hvalue]; norm_num, hholds⟩
  obtain ⟨m, -, -, hm, hsame, -⟩ := hsame c hc hcheck
  exact ⟨c, m, hc, hcheck, hm, hsame.trans hvalue⟩

/-- **A number that overruns its kind is taken although it is beyond the range**, and held as the
greatest number of the kind. -/
theorem canonicalScalar_of_overruns (path : String) {kind : ScalarKind} (hkind : kind.IsWhole)
    {n : Number} (hover : kind.Overruns n.value) :
    (¬ ∃ i : Int, n.value = i ∧ kind.Holds i) ∧
    ∃ fits, canonicalScalar path kind (.num n) = .ok (.num (.whole kind.greatest fits)) ∧
      checkScalar path kind (.num (.whole kind.greatest fits)) = .ok () := by
  -- either way the number is whole, and the kind is the widest
  have hbeyond : ∃ i : Int, n.value = i ∧ kind.greatest < i ∧ i ≤ 2 ^ 64 ∧
      kind.Holds kind.greatest := by
    cases kind with
    | int bits =>
      obtain ⟨hbits, i, hvalue, hlow, hhigh⟩ := hover
      have hgreatest : greatestSigned = 2 ^ 63 - 1 := rfl
      refine ⟨i, hvalue, ?_, hhigh, ?_⟩
      · change greatestSigned < i
        omega
      · change -2 ^ (bits.toNat - 1) ≤ greatestSigned ∧ greatestSigned ≤ 2 ^ (bits.toNat - 1) - 1
        rw [hbits]
        decide
    | uint bits =>
      obtain ⟨hbits, hvalue⟩ := hover
      have hcut : greatestUnsigned < 2 ^ 64 := by decide
      refine ⟨2 ^ 64, by rw [hvalue]; norm_num, hcut, Int.le_refl _, ?_⟩
      change 0 ≤ greatestUnsigned ∧ greatestUnsigned ≤ 2 ^ bits.toNat - 1
      rw [hbits]
      decide
    | string | bool | decimal | enumeration | binary => exact hkind.elim
  obtain ⟨i, hvalue, hgt, hhigh, hholds⟩ := hbeyond
  obtain ⟨hlow, -⟩ := hholds.bounds hkind
  have hmin : min i kind.greatest = kind.greatest := min_eq_right hgt.le
  refine ⟨?_, ScalarKind.fits_of_bounds hlow (Int.le_refl _), ?_, ?_⟩
  · rintro ⟨i', hvalue', hholds'⟩
    -- a number has one value as a whole number, and that is beyond the greatest of the kind
    obtain rfl : i = i' := Int.cast_injective (hvalue.symm.trans hvalue')
    exact absurd (hholds'.bounds hkind).2 (by omega)
  · refine (canonicalScalar_num_iff hkind).2 ⟨i, hvalue, by omega, hhigh, ?_⟩
    exact ⟨hmin.symm ▸ ScalarKind.fits_of_bounds hlow (Int.le_refl _), by simp only [hmin]⟩
  · exact checkScalar_eq_ok_iff.2 ((isOfKind_whole_iff hkind).2 hholds)

end ConfigTree
