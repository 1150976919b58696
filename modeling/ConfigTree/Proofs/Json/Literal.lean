import ConfigTree.Json.Term
import ConfigTree.Proofs.Binary64.Shortest

/-!
# Literals are read back

The reader works from left to right, so a statement about a literal is about one that is followed by
some rest, and the rest has to be one that cannot extend it: `Ends` says that it is empty or starts
with a comma or a closing bracket.

* `literal?_chars`: a literal without leading zeros is read back from its characters.
* `wellFormed_literal`: the literal of a number has no leading zeros.
* `ofLiteral?_literal`: a number is read back from its literal, under a reader that reads back each
  float. A whole number is so by any reader (`ofLiteral?_whole`).
* `readsBack_nearest`: the reader that rounds once is such a reader. However the shortest digits are
  laid out, the literal has the value of the shortest decimal (`decimal_ofBinary64`).
-/

namespace ConfigTree

/-! ### Numerals without leading zeros -/

namespace Digit

theorem ofNatAux_cons {fuel n : Nat} (tail : List Digit) (hfuel : n < fuel) :
    ∃ d ds, ofNatAux fuel n tail = d :: ds ∧ (n ≠ 0 → d ≠ 0) := by
  -- on the fuel, for any digits behind: the first digit is the last one to be found
  induction fuel generalizing n tail with
  | zero => omega
  | succ fuel ih =>
    unfold ofNatAux
    split
    · next hn =>
      refine ⟨_, _, rfl, fun hne hz => hne ?_⟩
      have hval : n % 10 = 0 := congrArg Fin.val hz
      omega
    · next hn =>
      obtain ⟨d, ds, heq, hd⟩ := ih (Fin.ofNat 10 n :: tail) (show n / 10 < fuel by omega)
      exact ⟨d, ds, heq, fun _ => hd (by omega)⟩

theorem ofNat_ne_nil (n : Nat) : ofNat n ≠ [] := by
  obtain ⟨d, ds, heq, -⟩ := ofNatAux_cons [] (Nat.lt_succ_self n)
  rw [ofNat, heq]
  exact List.cons_ne_nil _ _

/-- A numeral starts with zero only if it is the one of zero. -/
theorem ofNat_leading {n : Nat} {ds : List Digit} (h : ofNat n = 0 :: ds) : ds = [] := by
  by_cases hn : n = 0
  · subst hn
    have hzero : ofNat 0 = [0] := rfl
    rw [hzero] at h
    exact (List.cons.inj h).2.symm
  · obtain ⟨d, ds', heq, hd⟩ := ofNatAux_cons [] (Nat.lt_succ_self n)
    rw [ofNat, heq] at h
    exact absurd (List.cons.inj h).1 (hd hn)

end Digit

namespace Json

/-- What may stand after an item of a document. The scanner of a literal takes as much as it can, so
a statement about a literal has to say that the rest does not go on with it. -/
def Ends (rest : List Char) : Prop := ∀ c ∈ rest.head?, c = ',' ∨ c = ']' ∨ c = '}'

theorem ends_nil : Ends [] := by simp [Ends]

theorem ends_cons {c : Char} {rest : List Char} (h : c = ',' ∨ c = ']' ∨ c = '}') :
    Ends (c :: rest) := by simpa [Ends] using h

/-! ### Literals -/

namespace Literal

/-- The whole part has a digit and no leading zero, as the grammar wants it. For the fraction and
the exponent the grammar asks for no more than digits. -/
structure WellFormed (l : Literal) : Prop where
  ne_nil : l.whole ≠ []
  leading : ∀ ds, l.whole = 0 :: ds → ds = []

theorem wellFormed_ofInt (n : Int) : (ofInt n).WellFormed :=
  ⟨Digit.ofNat_ne_nil _, fun _ => Digit.ofNat_leading⟩

end Literal

/-- No character in front of which a run of digits stops is a digit. -/
theorem ofChar?_of_ends {rest : List Char} (h : Ends rest) :
    ∀ c ∈ rest.head?, Digit.ofChar? c = none := by
  intro c hc
  rcases h c hc with rfl | rfl | rfl <;> decide

theorem ofChar?_exponentChars (e : Option Int) {rest : List Char} (h : Ends rest) :
    ∀ c ∈ (Literal.exponentChars e ++ rest).head?, Digit.ofChar? c = none := by
  cases e with
  | none => exact ofChar?_of_ends h
  | some e => simp [Literal.exponentChars]; decide

theorem ofChar?_fractionChars (ds : List Digit) (e : Option Int) {rest : List Char}
    (h : Ends rest) :
    ∀ c ∈ (Literal.fractionChars ds ++ (Literal.exponentChars e ++ rest)).head?,
      Digit.ofChar? c = none := by
  cases ds with
  | nil => exact ofChar?_exponentChars e h
  | cons d ds => simp [Literal.fractionChars]; decide

/-- The digits of the whole part are taken, and no more of the text than those. -/
theorem wholeDigits?_append {l : Literal} (hl : l.WellFormed) {rest : List Char}
    (h : ∀ c ∈ rest.head?, Digit.ofChar? c = none) :
    wholeDigits? (l.whole.map Digit.char ++ rest) = some (l.whole, rest) := by
  unfold wholeDigits?
  rw [Digit.takeDigits_append _ _ h]
  -- without digits, or after a leading zero, the scanner would fail
  split
  · next heq =>
    simp only [Prod.mk.injEq] at heq
    exact absurd heq.1 hl.ne_nil
  · next heq =>
    simp only [Prod.mk.injEq] at heq
    exact absurd (hl.leading _ heq.1) (List.cons_ne_nil _ _)
  · rfl

theorem fraction?_append (ds : List Digit) (e : Option Int) {rest : List Char} (h : Ends rest) :
    fraction? (Literal.fractionChars ds ++ (Literal.exponentChars e ++ rest))
      = some (ds, Literal.exponentChars e ++ rest) := by
  cases ds with
  | nil =>
    show fraction? (Literal.exponentChars e ++ rest) = _
    unfold fraction?
    split
    · next tail heq =>
      -- a point would have to start the exponent or the rest
      cases e with
      | some e => simp [Literal.exponentChars] at heq
      | none =>
        have hpoint : '.' ∈ rest.head? := by
          rw [show rest = '.' :: tail from heq]
          rfl
        rcases h '.' hpoint with h | h | h <;> exact absurd h (by decide)
    · rfl
  | cons d ds =>
    -- the fraction stops at the exponent or the rest
    have hdigits := Digit.takeDigits_append (d :: ds) _ (ofChar?_exponentChars e h)
    simp only [Literal.fractionChars, List.cons_append, fraction?, hdigits]

theorem exponent?_append (e : Option Int) {rest : List Char} (h : Ends rest) :
    exponent? (Literal.exponentChars e ++ rest) = some (e, rest) := by
  cases e with
  | none =>
    cases rest with
    | nil => rfl
    | cons c rest =>
      -- no rest starts with the letter of an exponent
      have hc : ¬ (c = 'e' || c = 'E') := by
        rcases h c rfl with rfl | rfl | rfl <;> decide
      show exponent? (c :: rest) = _
      rw [exponent?, if_neg hc]
  | some e =>
    obtain ⟨d, ds, hds⟩ := List.exists_cons_of_ne_nil (Digit.ofNat_ne_nil e.natAbs)
    have htake := Digit.takeDigits_append (Digit.ofNat e.natAbs) rest (ofChar?_of_ends h)
    have hval : Digit.value (d :: ds) = e.natAbs := by rw [← hds, Digit.value_ofNat]
    rw [hds] at htake
    -- the sign is written apart from the digits
    by_cases he : 0 ≤ e
    · have habs : (e.natAbs : Int) = e := Int.natAbs_of_nonneg he
      simp only [Literal.exponentChars, he, if_true, List.cons_append, hds]
      simp only [exponent?, exponentSign, htake, hval, habs]
      simp
    · have habs : -(e.natAbs : Int) = e := by omega
      simp only [Literal.exponentChars, he, if_false, List.cons_append, hds]
      simp only [exponent?, exponentSign, htake, hval, habs]
      simp

theorem unsignedLiteral?_chars {l : Literal} (hl : l.WellFormed) {rest : List Char}
    (h : Ends rest) :
    unsignedLiteral? l.negative (l.whole.map Digit.char ++ (Literal.fractionChars l.fraction
      ++ (Literal.exponentChars l.exponent ++ rest))) = some (l, rest) := by
  unfold unsignedLiteral?
  rw [wholeDigits?_append hl (ofChar?_fractionChars _ _ h)]
  simp only [Option.bind_eq_bind, Option.bind_some]
  rw [fraction?_append _ _ h]
  simp only [Option.bind_some]
  rw [exponent?_append _ h]
  rfl

/-- **A literal is read back**, in front of a rest that cannot extend it. -/
theorem literal?_chars {l : Literal} (hl : l.WellFormed) {rest : List Char} (h : Ends rest) :
    literal? (l.chars ++ rest) = some (l, rest) := by
  have hread := unsignedLiteral?_chars hl h
  unfold Literal.chars
  cases hneg : l.negative with
  | true =>
    rw [hneg] at hread
    simpa [literal?] using hread
  | false =>
    rw [hneg] at hread
    -- without a sign the literal starts with a digit
    obtain ⟨d, ds, hds⟩ := List.exists_cons_of_ne_nil hl.ne_nil
    have hne : ∀ d : Digit, d.char ≠ '-' := by decide
    simp only [Bool.false_eq_true, if_false, List.nil_append, List.append_assoc]
    rw [hds] at hread ⊢
    unfold literal?
    split
    · next heq => exact absurd (List.cons.inj heq).1 (hne d)
    · exact hread

/-! ### The literals of numbers -/

namespace Literal

theorem value_zero_cons (ds : List Digit) : Digit.value (Digit.zero :: ds) = Digit.value ds := rfl

theorem value_zeros (n : Nat) (ds : List Digit) :
    Digit.value (List.replicate n Digit.zero ++ ds) = Digit.value ds := by
  induction n with
  | zero => rfl
  | succ n ih => rw [List.replicate_succ, List.cons_append, value_zero_cons, ih]

theorem valueFrom_append_zeros (acc : Nat) (ds : List Digit) (n : Nat) :
    Digit.valueFrom acc (ds ++ List.replicate n Digit.zero) = Digit.valueFrom acc ds * 10 ^ n := by
  induction ds generalizing acc with
  | cons d ds ih => exact ih _
  | nil =>
    show Digit.valueFrom acc (List.replicate n Digit.zero) = acc * 10 ^ n
    induction n generalizing acc with
    | zero => simp [Digit.valueFrom]
    | succ n ih =>
      have hstep : Digit.valueFrom acc (List.replicate (n + 1) Digit.zero)
          = Digit.valueFrom (10 * acc + 0) (List.replicate n Digit.zero) := rfl
      rw [hstep, ih, Nat.pow_succ]
      ring

theorem ofBinary64_of_isZero {x : Binary64} (h : x.isZero = true) :
    ofBinary64 x = ⟨x.negative, [Digit.zero], [Digit.zero], none⟩ := by
  unfold ofBinary64
  simp only [h, if_true]

/-- The four layouts of a number other than zero: all digits after the point, all of them before
it, the point between them, and one digit before it with an exponent. -/
theorem ofBinary64_cases {x : Binary64} (h : x.isZero = false) {ds : List Digit}
    (hds : Digit.ofNat x.shortest.digits = ds) :
    let point : Int := ds.length + x.shortest.exponent
    (point ≤ 0 ∧ ofBinary64 x
        = ⟨x.negative, [Digit.zero], List.replicate (-point).toNat Digit.zero ++ ds, none⟩)
      ∨ (ds.length ≤ point ∧ ofBinary64 x = ⟨x.negative,
          ds ++ List.replicate (point - ds.length).toNat Digit.zero, [Digit.zero], none⟩)
      ∨ (0 < point ∧ point < ds.length ∧ ofBinary64 x
          = ⟨x.negative, ds.take point.toNat, ds.drop point.toNat, none⟩)
      ∨ ofBinary64 x = ⟨x.negative, ds.take 1, ds.drop 1, some (point - 1)⟩ := by
  intro point
  have hlayout : ofBinary64 x = if isPositional (point - 1) then
      if point ≤ 0 then
        ⟨x.negative, [Digit.zero], List.replicate (-point).toNat Digit.zero ++ ds, none⟩
      else if ds.length ≤ point then
        ⟨x.negative, ds ++ List.replicate (point - ds.length).toNat Digit.zero, [Digit.zero], none⟩
      else ⟨x.negative, ds.take point.toNat, ds.drop point.toNat, none⟩
    else ⟨x.negative, ds.take 1, ds.drop 1, some (point - 1)⟩ := by
    -- the definition with its local names written out
    unfold ofBinary64
    simp only [h, hds]
    rfl
  rw [hlayout]
  split
  · split
    · next hpoint => exact .inl ⟨hpoint, rfl⟩
    · split
      · next hlen => exact .inr (.inl ⟨hlen, rfl⟩)
      · next hpoint hlen => exact .inr (.inr (.inl ⟨by omega, by omega, rfl⟩))
  · exact .inr (.inr (.inr rfl))

/-- However the digits are laid out, there are no leading zeros. -/
theorem wellFormed_ofBinary64 (x : Binary64) : (ofBinary64 x).WellFormed := by
  have hzero : ∀ ds : List Digit, [Digit.zero] = 0 :: ds → ds = [] := fun ds h =>
    (List.cons.inj h).2.symm
  cases hz : x.isZero with
  | true =>
    rw [ofBinary64_of_isZero hz]
    exact ⟨List.cons_ne_nil _ _, hzero⟩
  | false =>
    -- the shortest digits do not start with zero, and each layout starts with them or with a
    -- single zero
    obtain ⟨d, ds, hcons, hd⟩ := Digit.ofNatAux_cons [] (Nat.lt_succ_self x.shortest.digits)
    have hlead : d ≠ 0 := hd (Binary64.shortest_digits_ne_zero hz)
    have hds : Digit.ofNat x.shortest.digits = d :: ds := hcons
    rcases ofBinary64_cases hz hds with
      ⟨-, heq⟩ | ⟨-, heq⟩ | ⟨hpoint, -, heq⟩ | heq
    · rw [heq]
      exact ⟨List.cons_ne_nil _ _, hzero⟩
    · rw [heq]
      exact ⟨List.cons_ne_nil _ _, fun _ h => absurd (List.cons.inj h).1 hlead⟩
    · obtain ⟨k, hk⟩ : ∃ k, ((d :: ds).length + x.shortest.exponent).toNat = k + 1 :=
        ⟨((d :: ds).length + x.shortest.exponent).toNat - 1, by omega⟩
      rw [heq, hk, List.take_succ_cons]
      exact ⟨List.cons_ne_nil _ _, fun _ h => absurd (List.cons.inj h).1 hlead⟩
    · rw [heq]
      exact ⟨List.cons_ne_nil _ _, fun _ h => absurd (List.cons.inj h).1 hlead⟩

/-- A float is never written as a whole number: it has a fraction or an exponent. So it is not read
as a whole number either, and `10.0` stays apart from `10`. -/
theorem isWhole_ofBinary64 (x : Binary64) : (ofBinary64 x).isWhole = false := by
  cases hz : x.isZero with
  | true =>
    rw [ofBinary64_of_isZero hz]
    rfl
  | false =>
    obtain ⟨d, ds, hds⟩ := List.exists_cons_of_ne_nil (Digit.ofNat_ne_nil x.shortest.digits)
    rcases ofBinary64_cases hz hds with ⟨-, heq⟩ | ⟨-, heq⟩ | ⟨hpoint, hlen, heq⟩ | heq
    · rw [heq]
      simp [isWhole]
    · rw [heq]
      rfl
    · have hdrop : (d :: ds).drop ((d :: ds).length + x.shortest.exponent).toNat ≠ [] := by
        -- the point is before the last digit, so there is a fraction
        rw [Ne, List.drop_eq_nil_iff]
        omega
      rw [heq]
      simp only [isWhole, List.isEmpty_eq_false_iff.2 hdrop, Bool.false_and]
    · rw [heq]
      simp [isWhole]

/-- **The literal of a float has the value of its shortest decimal**: it is that decimal, or has
zeros at the end of its digits that the exponent makes up for. -/
theorem decimal_ofBinary64 {x : Binary64} (h : x.isZero = false) :
    ∃ k : Nat, (ofBinary64 x).decimal
      = ⟨x.shortest.digits * 10 ^ k, x.shortest.exponent - k⟩ := by
  obtain ⟨d, ds, hds⟩ := List.exists_cons_of_ne_nil (Digit.ofNat_ne_nil x.shortest.digits)
  have hvalue : Digit.value (d :: ds) = x.shortest.digits := by rw [← hds, Digit.value_ofNat]
  have hcases := ofBinary64_cases h hds
  have hpos : 0 < (d :: ds).length := List.length_pos_iff.2 (List.cons_ne_nil _ _)
  generalize d :: ds = ds at hvalue hcases hpos
  -- only the layout with all digits before the point adds zeros that count
  rcases hcases with ⟨hpoint, heq⟩ | ⟨hlen, heq⟩ | ⟨hpoint, hlen, heq⟩ | heq
  · refine ⟨0, ?_⟩
    -- zeros in front of the digits do not count
    have hv : Digit.value ([Digit.zero] ++ (List.replicate
        (-(ds.length + x.shortest.exponent)).toNat Digit.zero ++ ds)) = x.shortest.digits := by
      rw [List.singleton_append, value_zero_cons, value_zeros, hvalue]
    simp only [heq, decimal, hv, Option.getD_none, List.length_append, List.length_replicate,
      Decimal.mk.injEq]
    omega
  · refine ⟨(ds.length + x.shortest.exponent - ds.length).toNat + 1, ?_⟩
    have hv : Digit.value (ds ++ List.replicate
        (ds.length + x.shortest.exponent - ds.length).toNat Digit.zero ++ [Digit.zero])
        = x.shortest.digits * 10 ^ ((ds.length + x.shortest.exponent - ds.length).toNat + 1) := by
      rw [List.append_assoc, ← List.replicate_succ', Digit.value, valueFrom_append_zeros,
        ← Digit.value, hvalue]
    simp only [heq, decimal, hv, Option.getD_none, List.length_singleton, Decimal.mk.injEq,
      true_and]
    omega
  · refine ⟨0, ?_⟩
    simp only [heq, decimal, List.take_append_drop, hvalue, Option.getD_none, List.length_drop,
      Decimal.mk.injEq]
    omega
  · refine ⟨0, ?_⟩
    simp only [heq, decimal, List.take_append_drop, hvalue, Option.getD_some, List.length_drop,
      Decimal.mk.injEq]
    omega

theorem negative_ofBinary64 (x : Binary64) : (ofBinary64 x).negative = x.negative := by
  cases hz : x.isZero with
  | true => rw [ofBinary64_of_isZero hz]
  | false =>
    rcases ofBinary64_cases hz rfl with ⟨-, heq⟩ | ⟨-, heq⟩ | ⟨-, -, heq⟩ | heq <;> rw [heq]

end Literal

/-- **The reader that rounds once reads back every float.** -/
theorem Reader.readsBack_nearest : Reader.nearest.ReadsBack := by
  intro x
  show (Literal.ofBinary64 x).decimal.nearest? (Literal.ofBinary64 x).negative = some x
  rw [Literal.negative_ofBinary64]
  cases hz : x.isZero with
  -- zero is written out on its own, and keeps its sign
  | true =>
    rw [Literal.ofBinary64_of_isZero hz]
    have hmag : x.magnitude = 0 := by simpa [Binary64.isZero] using hz
    cases x
    subst hmag
    rfl
  | false =>
    -- the digits are the shortest ones, with zeros behind them that make no difference
    obtain ⟨k, hk⟩ := Literal.decimal_ofBinary64 hz
    rw [hk, Decimal.nearest?_trailing]
    exact Binary64.readsBack_shortest hz

namespace Number

/-- The literal of a number has no leading zeros. -/
theorem wellFormed_literal (n : Number) : n.literal.WellFormed := by
  cases n with
  | whole n _ => exact Literal.wellFormed_ofInt n
  | float x => exact Literal.wellFormed_ofBinary64 x

/-- A whole number is read back from its literal. -/
theorem wholeOfLiteral?_ofInt (n : Int) (fits : Fits n) :
    wholeOfLiteral? (Literal.ofInt n) = some (.whole n fits) := by
  have hvalue : (Digit.value (Literal.ofInt n).whole : Int) = n.natAbs :=
    congrArg Nat.cast (Digit.value_ofNat n.natAbs)
  have hsigned : (if (Literal.ofInt n).negative
      then -(Digit.value (Literal.ofInt n).whole : Int)
      else Digit.value (Literal.ofInt n).whole) = n := by
    rw [hvalue]
    show (if decide (n < 0) then _ else _) = _
    by_cases hn : n < 0
    · rw [if_pos (by simpa using hn)]; omega
    · rw [if_neg (by simpa using hn)]; omega
  unfold wholeOfLiteral?
  rw [hsigned]
  -- it has neither a point nor an exponent, and zero has no sign
  have hcond : ((Literal.ofInt n).isWhole
      && !((Literal.ofInt n).negative && n == 0)) = true := by
    show (true && !(decide (n < 0) && n == 0)) = true
    by_cases hn : n < 0
    · have : n ≠ 0 := by omega
      simp [this]
    · simp [hn]
  rw [if_pos hcond, ofInt?, dif_pos fits]

/-- So any reader reads it back. -/
theorem ofLiteral?_whole (r : Reader) (n : Int) (fits : Fits n) :
    ofLiteral? r (whole n fits).literal = some (whole n fits) := by
  unfold ofLiteral? literal
  rw [wholeOfLiteral?_ofInt n fits]

/-- **A number is read back from its literal.** -/
theorem ofLiteral?_literal {r : Reader} (hr : r.ReadsBack) (n : Number) :
    ofLiteral? r n.literal = some n := by
  cases n with
  | whole n fits => exact ofLiteral?_whole r n fits
  | float x =>
    have hwhole : wholeOfLiteral? (Literal.ofBinary64 x) = none := by
      unfold wholeOfLiteral?
      rw [Literal.isWhole_ofBinary64]
      simp
    show ofLiteral? r (Literal.ofBinary64 x) = _
    unfold ofLiteral?
    rw [hwhole]
    simp [hr x]

end Number

end Json

end ConfigTree
