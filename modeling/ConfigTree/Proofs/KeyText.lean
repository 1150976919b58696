import ConfigTree.Proofs.Json.ReadBack
import ConfigTree.Proofs.Scalar

/-!
# Texts of keys

The key of an entry gets its text from the scalar that is held, and an entry that is added gets the
scalar from the text. For every kind but decimals these are inverse, since the texts of whole
numbers are read as the same numbers again; and no reader is involved whose rounding could matter.

* `Text.signed_ofInt`, `Text.unsigned_ofNat`: a whole number is read back from its text.
* `canonicalScalar_keyString`: the text of what is of a kind stands for it as a key.
* `readBy_of_isOfKind`, `readBy_keyValue`: what is held of such a kind, or stands for the text of a
  key, is read back by any reader.
-/

namespace ConfigTree

open Json (Number Literal Reader)

/-! ### Numerals of whole numbers -/

namespace Digit

theorem le_valueFrom (acc : Nat) (ds : List Digit) : acc ≤ valueFrom acc ds := by
  induction ds generalizing acc with
  | nil => exact Nat.le_refl acc
  | cons d ds ih =>
    calc acc ≤ 10 * acc + d := by omega
      _ ≤ valueFrom (10 * acc + d) ds := ih _

theorem char_ne_sign : ∀ d : Digit, d.char ≠ '+' ∧ d.char ≠ '-' := by decide

end Digit

namespace Text

/-- Digits are appended as long as the number that they all stand for is below the limit. -/
theorem appendDigits_chars {limit acc : Nat} {ds : List Digit} (overflow : NumeralFault)
    (h : Digit.valueFrom acc ds < limit) :
    appendDigits limit overflow acc (ds.map Digit.char) = .ok (Digit.valueFrom acc ds) := by
  induction ds generalizing acc with
  | nil => rfl
  | cons d ds ih =>
    have hlt : 10 * acc + d < limit := Nat.lt_of_le_of_lt (Digit.le_valueFrom _ ds) h
    rw [List.map_cons, appendDigits, Digit.ofChar?_char]
    dsimp only
    rw [if_pos hlt, ih h]
    rfl

/-- The numeral of a number below the limit is read as the number. There is at least one digit, even
for zero, so that this is no empty text. -/
theorem someDigits_ofNat {limit n : Nat} (overflow : NumeralFault) (h : n < limit) :
    someDigits limit overflow ((Digit.ofNat n).map Digit.char) = .ok n := by
  have hvalue : Digit.valueFrom 0 (Digit.ofNat n) = n := Digit.value_ofNat n
  unfold someDigits
  split
  · next heq => exact absurd (List.map_eq_nil_iff.1 heq) (Digit.ofNat_ne_nil n)
  · rw [appendDigits_chars overflow (hvalue.symm ▸ h), hvalue]

/-- A numeral starts with no sign. -/
theorem exists_chars_ofNat (n : Nat) : ∃ c cs, (Digit.ofNat n).map Digit.char = c :: cs ∧
    c ≠ '+' ∧ c ≠ '-' := by
  cases hds : Digit.ofNat n with
  | nil => exact absurd hds (Digit.ofNat_ne_nil n)
  | cons d ds => exact ⟨d.char, ds.map Digit.char, rfl, Digit.char_ne_sign d⟩

/-- **A whole number without a sign is read back from its text.** -/
theorem unsigned_ofNat {n : Nat} (h : n < unsignedBound) :
    unsigned (String.ofList ((Digit.ofNat n).map Digit.char)) = .ok n := by
  obtain ⟨c, cs, hcs, hplus, -⟩ := exists_chars_ofNat n
  have hread := someDigits_ofNat .tooLarge h
  unfold unsigned
  rw [String.toList_ofList, hcs] at *
  split
  · next heq => cases heq
  · next heq => exact absurd (List.cons.inj heq).1 hplus
  · exact hread

/-- **A whole number with a sign is read back from its text.** The reader looks for a sign first:
the minus is there just if the number is below zero, and a plus never is. -/
theorem signed_ofInt {n : Int} (hlow : -9223372036854775808 ≤ n) (hhigh : n < 9223372036854775808) :
    signed (String.ofList (Literal.ofInt n).chars) = .ok n := by
  have hbound : signedBound = 9223372036854775808 := rfl
  have hchars : (Literal.ofInt n).chars
      = (if n < 0 then ['-'] else []) ++ (Digit.ofNat n.natAbs).map Digit.char := by
    unfold Literal.chars
    simp [Literal.ofInt, Literal.fractionChars, Literal.exponentChars]
  unfold signed
  rw [String.toList_ofList, hchars]
  by_cases hn : n < 0
  -- there is one number more below zero than above
  · have hread := someDigits_ofNat .tooSmall (show n.natAbs < signedBound + 1 by omega)
    have habs : -(n.natAbs : Int) = n := by omega
    rw [if_pos hn, List.singleton_append]
    split
    · next heq => cases heq
    · next heq => exact absurd (List.cons.inj heq).1 (by decide)
    · next heq =>
      rw [← (List.cons.inj heq).2, hread]
      exact congrArg Except.ok habs
    · next hother => exact (hother _ rfl).elim
  · obtain ⟨c, cs, hcs, hplus, hminus⟩ := exists_chars_ofNat n.natAbs
    have hread := someDigits_ofNat .tooLarge (show n.natAbs < signedBound by omega)
    have habs : (n.natAbs : Int) = n := by omega
    rw [if_neg hn, List.nil_append, hcs] at *
    split
    · next heq => cases heq
    · next heq => exact absurd (List.cons.inj heq).1 hplus
    · next heq => exact absurd (List.cons.inj heq).1 hminus
    · rw [hread]
      exact congrArg Except.ok habs

end Text

/-! ### Keys of entries -/

variable {kind : ScalarKind} {c : Json}

/-- The number that the text of a whole number stands for as a key. The kind has to have the number
in its 64 bits; a larger one has a text too, but that would not be read. -/
theorem keyNumber?_int {bits : UInt8} {n : Number} {i : Int64} (h : n.toInt64? = some i) :
    keyNumber? (keyString (.num n)) (.int bits) = some n := by
  cases n with
  | float x => cases h
  | whole n fits =>
    rw [Number.toInt64?] at h
    split at h
    · next hlt =>
      have htext : keyString (.num (.whole n fits)) = String.ofList (Literal.ofInt n).chars := rfl
      have hnumber : Number.ofInt? n = some (.whole n fits) := by
        rw [Number.ofInt?, dif_pos fits]
      -- the digits of an integer of 64 bits are read as the integer
      have hread := toOption_eq_some_iff.2 (Text.signed_ofInt fits.1 hlt)
      calc keyNumber? (keyString (.num (.whole n fits))) (.int bits)
        _ = (Text.signed (String.ofList (Literal.ofInt n).chars)).toOption.bind Number.ofInt? :=
          congrArg (fun text => keyNumber? text (.int bits)) htext
        _ = (some n).bind Number.ofInt? := congrArg (fun i => Option.bind i Number.ofInt?) hread
        _ = Number.ofInt? n := Option.bind_some n Number.ofInt?
        _ = some (.whole n fits) := hnumber
    · cases h

theorem keyNumber?_uint {bits : UInt8} {n : Number} {i : UInt64} (h : n.toUInt64? = some i) :
    keyNumber? (keyString (.num n)) (.uint bits) = some n := by
  cases n with
  | float x => cases h
  | whole n fits =>
    rw [Number.toUInt64?] at h
    split at h
    · next hpos =>
      obtain ⟨m, rfl⟩ := Int.eq_ofNat_of_zero_le hpos
      -- a number that is not negative is written without a sign, as the parser of natural numbers
      -- takes it
      have hchars : (Literal.ofInt (m : Int)).chars = (Digit.ofNat m).map Digit.char := by
        unfold Literal.chars
        simp [Literal.ofInt, Literal.fractionChars, Literal.exponentChars]
      have htext : keyString (.num (.whole m fits))
          = String.ofList ((Digit.ofNat m).map Digit.char) := by
        rw [← hchars]
        rfl
      have hlt : m < Text.unsignedBound := by
        have hbound : Text.unsignedBound = 18446744073709551616 := rfl
        have := fits.2
        omega
      have hnumber : Number.ofInt? (m : Int) = some (.whole m fits) := by
        rw [Number.ofInt?, dif_pos fits]
      have hread := toOption_eq_some_iff.2 (Text.unsigned_ofNat hlt)
      calc keyNumber? (keyString (.num (.whole m fits))) (.uint bits)
        _ = (Text.unsigned (String.ofList ((Digit.ofNat m).map Digit.char))).toOption.bind
            fun n => Number.ofInt? n := congrArg (fun text => keyNumber? text (.uint bits)) htext
        _ = (some m).bind fun n => Number.ofInt? n :=
          congrArg (fun i => Option.bind i fun n : Nat => Number.ofInt? n) hread
        _ = Number.ofInt? m := Option.bind_some m fun n : Nat => Number.ofInt? n
        _ = some (.whole m fits) := hnumber
    · cases h

theorem bool?_keyString (b : Bool) : Text.bool? (keyString (.bool b)) = some b := by
  cases b with
  | true =>
    have htext : keyString (.bool true) = "true" := by decide
    rw [htext, Text.bool?, if_pos rfl]
  | false =>
    have htext : keyString (.bool false) = "false" := by decide
    rw [htext, Text.bool?, if_neg (by decide), if_pos rfl]

/-- **The text of what is held stands for it as a key.** Decimals are left out because their texts
are those of floats, and enumerations with a colon in a value because the text would lose what is in
front of it. -/
theorem canonicalScalar_keyString (hne : kind ≠ .decimal)
    (hfree : ∀ v ∈ kind.values, ':' ∉ v.toList) (h : isOfKind kind c = true) (path : String) :
    canonicalScalar path kind (keyValue (keyString c) (some kind)) = .ok c := by
  rw [canonicalScalar_eq_ok_iff]
  have hheld := coerce?_of_isOfKind hfree h
  cases kind with
  | decimal => exact absurd rfl hne
  | string | binary | enumeration =>
    cases c with
    | str s => exact hheld
    | _ => cases h
  | bool =>
    cases c with
    | bool b =>
      -- the text is no number, so it is read as the name of a truth value
      show some ((Text.bool? (keyString (.bool b))).map Json.bool) = _
      rw [bool?_keyString, Option.map_some]
    | _ => cases h
  | int bits =>
    cases c with
    | num n =>
      cases hn : n.toInt64? with
      | none => simp [isOfKind, Json.num?, hn] at h
      | some i => rwa [keyValue, Option.bind_some, keyNumber?_int hn]
    | _ => cases h
  | uint bits =>
    cases c with
    | num n =>
      cases hn : n.toUInt64? with
      | none => simp [isOfKind, Json.num?, hn] at h
      | some i => rwa [keyValue, Option.bind_some, keyNumber?_uint hn]
    | _ => cases h

/-- The text of what is held is one that a valid key has. -/
theorem isKeyText_keyString (hne : kind ≠ .decimal) (hfree : ∀ v ∈ kind.values, ':' ∉ v.toList)
    (h : isOfKind kind c = true) : IsKeyText (keyString c) kind :=
  ⟨c, canonicalScalar_keyString hne hfree h "", checkScalar_eq_ok_iff.2 h, rfl⟩

/-! ### Reading without rounding -/

theorem readBy_ofInt? {r : Reader} {i : Int} {n : Number} (h : Number.ofInt? i = some n) :
    (Json.num n).ReadBy r := by
  obtain ⟨fits, rfl⟩ := ofInt?_eq_some h
  exact Number.ofLiteral?_whole r i fits

/-- **What is of a kind other than decimals is read back by any reader.** Readers differ in how they
round a decimal to a float, and in nothing else. -/
theorem readBy_of_isOfKind (r : Reader) (hne : kind ≠ .decimal) (h : isOfKind kind c = true) :
    c.ReadBy r := by
  cases c with
  | num n =>
    cases n with
    | whole n fits => exact Number.ofLiteral?_whole r n fits
    -- no other kind has floats
    | float x => cases kind <;> first | exact absurd rfl hne | cases h
  | arr xs => cases kind <;> cases h
  | obj ms => cases kind <;> cases h
  | _ => exact trivial

/-- What stands for the text of a key is read back too: it is a whole number or the text itself. -/
theorem readBy_keyValue (r : Reader) {kind : Option ScalarKind} (hne : kind ≠ some .decimal)
    (text : String) : (keyValue text kind).ReadBy r := by
  unfold keyValue
  split
  · next n hn =>
    obtain ⟨k, rfl, hnumber⟩ := Option.bind_eq_some_iff.1 hn
    cases k with
    | int bits =>
      obtain ⟨i, -, hi⟩ := Option.bind_eq_some_iff.1 hnumber
      exact readBy_ofInt? hi
    | uint bits =>
      obtain ⟨i, -, hi⟩ := Option.bind_eq_some_iff.1 hnumber
      exact readBy_ofInt? hi
    -- only a decimal is read as a float
    | decimal => exact absurd rfl hne
    | _ => cases hnumber
  · -- a text that is no number is kept as it is
    exact trivial

end ConfigTree
