import ConfigTree.Scalar.Convert
import ConfigTree.Proofs.Json.Basic
import ConfigTree.Proofs.Schema.Loaded

/-!
# Scalars as they are held

* `coerce?_of_isOfKind`: what is of a kind is in the form in which the kind holds it, so bringing it
  into that form again does not change it, as long as no value of an enumeration has a colon.
* `canonicalScalar_of_checkScalar`: what becomes of it in any case.
* `coerce?_keyNumber`: the number that a key stands for is in that form too.
* `keyString_keyValue`: the text of a new entry's key, in both forms.
* `exists_typedScalar?`: what is of a kind has a typed value.
* `toHeld_of_ofHeld`: a typed value has the scalar that it has been made of as its held form. Only
  a decimal has not, whose typed value is a float.
-/

namespace ConfigTree

open Json (Number)

/-! ### Whole numbers -/

/-- A number that is read as one of 64 bits with a sign is that number again when it is written
back. Only a whole number is read so: a float never is, even one whose value is whole. -/
theorem ofInt64_of_toInt64? {n : Number} {i : Int64} (h : n.toInt64? = some i) :
    Number.ofInt64 i = n := by
  cases n with
  | whole n fits =>
    rw [Number.toInt64?] at h
    split at h
    · next hlt =>
      obtain rfl := Option.some.inj h
      have hn : (Int64.ofInt n).toInt = n := Int64.toInt_ofInt_of_le (by omega) (by omega)
      simp only [Number.ofInt64, hn]
    · cases h
  | float x => cases h

theorem ofUInt64_of_toUInt64? {n : Number} {i : UInt64} (h : n.toUInt64? = some i) :
    Number.ofUInt64 i = n := by
  cases n with
  | whole n fits =>
    rw [Number.toUInt64?] at h
    split at h
    · next hpos =>
      obtain rfl := Option.some.inj h
      -- the number fits, so nothing is lost on the way there and back
      have hn : ((UInt64.ofNat n.toNat).toNat : Int) = n := by
        have hlt : n.toNat < UInt64.size := by
          have hsize : UInt64.size = 18446744073709551616 := rfl
          omega
        rw [UInt64.toNat_ofNat_of_lt' hlt]
        omega
      simp only [Number.ofUInt64, hn]
    · cases h
  | float x => cases h

theorem signedNumber?_of_toInt64? {n : Number} {i : Int64} (h : n.toInt64? = some i) :
    signedNumber? n = some n := by
  simp only [signedNumber?, h, ofInt64_of_toInt64? h]

theorem unsignedNumber?_of_toUInt64? {n : Number} {i : UInt64} (h : n.toUInt64? = some i) :
    unsignedNumber? n = some n := by
  simp only [unsignedNumber?, h, ofUInt64_of_toUInt64? h]

/-! ### The held form -/

/-- What the held form of something of a kind is. A value of an enumeration loses what stands in
front of its first colon, as if that were a module; anything else is as it was. The kind cannot tell
a name with a colon from a name behind a module, so this is also what happens to what has been
brought into its held form before. -/
def heldAgain : ScalarKind → Json → Json
  | .enumeration _, .str s => .str (localName s)
  | _, c => c

/-- **What is of a kind has a held form.** The cases are those of the kinds; within each, what has
another shape is not of the kind. -/
theorem coerce?_eq_of_isOfKind {kind : ScalarKind} {c : Json} (h : isOfKind kind c = true) :
    coerce? kind c = some (some (heldAgain kind c)) := by
  cases kind with
  | string | binary | enumeration values =>
    cases c with
    | str s => rfl
    | _ => cases h
  | bool =>
    cases c with
    | bool b => rfl
    | _ => cases h
  | decimal =>
    cases c with
    | num n => rfl
    | _ => cases h
  -- whole numbers within their width are taken as they stand
  | int bits =>
    cases c with
    | num n =>
      cases hn : n.toInt64? with
      | none => simp [isOfKind, Json.num?, hn] at h
      | some i => rw [coerce?, signedNumber?_of_toInt64? hn]; rfl
    | _ => cases h
  | uint bits =>
    cases c with
    | num n =>
      cases hn : n.toUInt64? with
      | none => simp [isOfKind, Json.num?, hn] at h
      | some i => rw [coerce?, unsignedNumber?_of_toUInt64? hn]; rfl
    | _ => cases h

/-- **What is of a kind is in its held form**, if the names of its values have no module in front
that could be dropped. -/
theorem coerce?_of_isOfKind {kind : ScalarKind} (hkind : ∀ v ∈ kind.values, ':' ∉ v.toList)
    {c : Json} (h : isOfKind kind c = true) : coerce? kind c = some (some c) := by
  rw [coerce?_eq_of_isOfKind h]
  cases kind with
  | enumeration values =>
    cases c with
    | str s =>
      have hmem : s ∈ values := by simpa [isOfKind, Json.str?] using h
      rw [heldAgain, localName_of_not_mem (hkind s hmem)]
    | _ => cases h
  | _ => rfl

/-- What has a held form is a scalar: no kind takes an array or an object, so a tree that has been
converted has scalars at all its leaves. -/
theorem isScalar_of_coerce? {kind : ScalarKind} {w : Json} {o : Option Json}
    (h : coerce? kind w = some o) : w.isScalar = true := by
  cases w with
  | arr xs => cases kind <;> cases h
  | obj ms => cases kind <;> cases h
  | _ => rfl

theorem isScalar_of_isOfKind {kind : ScalarKind} {c : Json} (h : isOfKind kind c = true) :
    c.isScalar = true := by
  cases c with
  | arr xs => cases kind <;> cases h
  | obj ms => cases kind <;> cases h
  | _ => rfl

/-- The conversion at a place succeeds with what the kind makes of the value. The place only shows
in the message of a failure, so nothing below depends on it. -/
theorem canonicalScalar_eq_ok_iff {path : String} {kind : ScalarKind} {w c : Json} :
    canonicalScalar path kind w = .ok c ↔ coerce? kind w = some (some c) := by
  unfold canonicalScalar
  split
  · next j heq => simp [heq]
  · next heq => simp [heq]
  · next heq => simp [heq]

theorem checkScalar_eq_ok_iff {path : String} {kind : ScalarKind} {c : Json} :
    checkScalar path kind c = .ok () ↔ isOfKind kind c = true := by
  unfold checkScalar
  split <;> simp_all

/-- What a kind drops part of when it brings it into its held form: a value of an enumeration with a
colon in it. -/
def ScalarKind.Shortens : ScalarKind → Json → Prop
  | .enumeration _, .str s => ':' ∈ s.toList
  | _, _ => False

theorem heldAgain_eq_iff {kind : ScalarKind} {c : Json} :
    heldAgain kind c = c ↔ ¬ kind.Shortens c := by
  cases kind with
  | enumeration values =>
    cases c with
    | str s => rw [heldAgain, Json.str.injEq, localName_eq_iff, ScalarKind.Shortens]
    | _ => exact iff_of_true rfl id
  | _ => exact iff_of_true rfl id

/-- **What passes the check is held as it is, but for a value of an enumeration whose name has a
colon.** What is checked can always be brought into its held form. That is what has been checked,
unless it is such a name: then only what stands after the first colon is held, which is another
value, and it passes the check just if the enumeration has that name too. -/
theorem canonicalScalar_of_checkScalar {path : String} {kind : ScalarKind} {c : Json}
    (h : checkScalar path kind c = .ok ()) (path' : String) :
    (canonicalScalar path' kind c = .ok c ↔ ¬ kind.Shortens c) ∧
    (kind.Shortens c → ∃ values s, kind = .enumeration values ∧ c = .str s ∧
      canonicalScalar path' kind c = .ok (.str (localName s)) ∧
      (checkScalar path' kind (.str (localName s)) = .ok () ↔ localName s ∈ values)) := by
  have hheld := coerce?_eq_of_isOfKind (checkScalar_eq_ok_iff.1 h)
  constructor
  · rw [canonicalScalar_eq_ok_iff, hheld, Option.some.injEq, Option.some.injEq, heldAgain_eq_iff]
  · -- only a name of an enumeration is shortened
    intro hshort
    cases kind with
    | enumeration values =>
      cases c with
      | str s =>
        refine ⟨values, s, rfl, rfl, canonicalScalar_eq_ok_iff.2 hheld, ?_⟩
        rw [checkScalar_eq_ok_iff, isOfKind, Json.str?]
        exact List.contains_iff_mem
      | _ => exact hshort.elim
    | _ => exact hshort.elim

/-- A name with a colon passes the check, and what it is held as does not. -/
theorem canonicalScalar_nameWithColon :
    checkScalar "/mode" (.enumeration ["a:b"]) (.str "a:b") = .ok () ∧
    canonicalScalar "/mode" (.enumeration ["a:b"]) (.str "a:b") = .ok (.str "b") ∧
    checkScalar "/mode" (.enumeration ["a:b"]) (.str "b") ≠ .ok () := by
  have hcheck : checkScalar "/mode" (.enumeration ["a:b"]) (.str "a:b") = .ok () :=
    checkScalar_eq_ok_iff.2 (by decide)
  have hshort : (ScalarKind.enumeration ["a:b"]).Shortens (.str "a:b") := by
    change ':' ∈ "a:b".toList
    decide
  obtain ⟨values, s, hkind, hs, hheld, hagain⟩ :=
    (canonicalScalar_of_checkScalar hcheck "/mode").2 hshort
  obtain rfl := ScalarKind.enumeration.inj hkind
  obtain rfl := Json.str.inj hs
  have hlocal : localName "a:b" = "b" := by decide
  rw [hlocal] at hheld hagain
  exact ⟨hcheck, hheld, fun hok => absurd (hagain.1 hok) (by decide)⟩

/-! ### Keys -/

theorem lt_of_appendDigits {limit : Nat} {overflow : Text.NumeralFault} {cs : List Char}
    {n m : Nat} (hn : n < limit) (h : Text.appendDigits limit overflow n cs = .ok m) :
    m < limit := by
  -- the bound holds of what has been read so far, since each digit is taken only below it
  induction cs generalizing n with
  | nil => exact Except.ok.inj h ▸ hn
  | cons c cs ih =>
    rw [Text.appendDigits] at h
    split at h
    · cases h
    · split at h
      · next hlt => exact ih hlt h
      · cases h

theorem lt_of_someDigits {limit : Nat} {overflow : Text.NumeralFault} {cs : List Char} {m : Nat}
    (hlimit : 0 < limit) (h : Text.someDigits limit overflow cs = .ok m) : m < limit := by
  unfold Text.someDigits at h
  split at h
  · cases h
  · exact lt_of_appendDigits hlimit h

/-- A whole number with a sign is below `2 ^ 63`. The three cases are a minus, a plus and no sign;
the one with a minus is below zero whatever its digits are. -/
theorem lt_of_signed {s : String} {n : Int} (h : Text.signed s = .ok n) :
    n < 9223372036854775808 := by
  have hbound : Text.signedBound = 9223372036854775808 := rfl
  unfold Text.signed at h
  -- without a sign, with a minus and with a plus
  split at h
  · cases h
  · obtain ⟨m, hm, rfl⟩ := map_eq_ok_iff.1 h
    obtain ⟨k, hk, hm⟩ := bind_eq_ok_iff.1 hm
    obtain rfl := Except.ok.inj hm
    have := lt_of_someDigits (by decide) hk
    omega
  · obtain ⟨m, hm, rfl⟩ := map_eq_ok_iff.1 h
    obtain ⟨k, hk, hm⟩ := bind_eq_ok_iff.1 hm
    obtain rfl := Except.ok.inj hm
    omega
  · obtain ⟨m, hm, rfl⟩ := map_eq_ok_iff.1 h
    obtain ⟨k, hk, hm⟩ := bind_eq_ok_iff.1 hm
    obtain rfl := Except.ok.inj hm
    have := lt_of_someDigits (by decide) hk
    omega

theorem ofInt?_eq_some {n : Int} {m : Number} (h : Number.ofInt? n = some m) :
    ∃ fits, m = .whole n fits := by
  unfold Number.ofInt? at h
  split at h
  · next fits => exact ⟨fits, (Option.some.inj h).symm⟩
  · cases h

theorem toOption_eq_some_iff {ε α : Type} {x : Except ε α} {a : α} :
    x.toOption = some a ↔ x = .ok a := by
  cases x with
  | error e => exact ⟨fun h => (nomatch h), fun h => (nomatch h)⟩
  | ok b => exact ⟨fun h => congrArg _ (Option.some.inj h), fun h => congrArg _ (Except.ok.inj h)⟩

/-- **The number that a key stands for is in its held form.** A key is read within the range of 64
bits of its sort of kind, so that nothing is cut when it is held. A float is held as it is. -/
theorem coerce?_keyNumber {text : String} {kind : ScalarKind} {n : Number}
    (h : keyNumber? text kind = some n) : coerce? kind (.num n) = some (some (.num n)) := by
  -- the number that a key text is has the kind of the key already
  cases kind with
  | int bits =>
    obtain ⟨i, hi, hn⟩ := Option.bind_eq_some_iff.1 h
    obtain ⟨fits, rfl⟩ := ofInt?_eq_some hn
    have hlt := lt_of_signed (toOption_eq_some_iff.1 hi)
    have hint : (Number.whole i fits).toInt64? = some (Int64.ofInt i) := if_pos hlt
    rw [coerce?, signedNumber?_of_toInt64? hint]
    rfl
  | uint bits =>
    obtain ⟨i, hi, hn⟩ := Option.bind_eq_some_iff.1 h
    obtain ⟨fits, rfl⟩ := ofInt?_eq_some hn
    have huint : (Number.whole i fits).toUInt64? = some (UInt64.ofNat (i : Int).toNat) := by
      rw [Number.toUInt64?, if_pos (Int.natCast_nonneg i)]
    rw [coerce?, unsignedNumber?_of_toUInt64? huint]
    rfl
  | decimal => rfl
  | string => cases h
  | bool => cases h
  | enumeration values => cases h
  | binary => cases h

theorem isScalar_keyValue (text : String) (kind : Option ScalarKind) :
    (keyValue text kind).isScalar = true := by
  unfold keyValue
  split <;> rfl

/-- A text is in stored form for a kind if the key that it stands for, once held, has it as its
text. A text such as `007` is not, for a kind of whole numbers: it stands for `7`, whose text is
shorter. A text that cannot be held at all is in stored form, since nothing ever comes of it. -/
def IsStored (text : String) (kind : ScalarKind) : Prop :=
  ∀ path c, canonicalScalar path kind (keyValue text (some kind)) = .ok c → keyString c = text

/-- **The key of a new entry has the text of its held form**, if the text that the path gives is in
stored form. -/
theorem keyString_keyValue {text : String} {kind : ScalarKind} (h : IsStored text kind) {c : Json}
    (hc : coerce? kind (keyValue text (some kind)) = some (some c)) :
    keyString (keyValue text (some kind)) = text ∧ keyString c = text := by
  have hstored : keyString c = text := h "" c (canonicalScalar_eq_ok_iff.2 hc)
  -- the text of what is held is given; that of what the path stands for has to be found
  refine ⟨?_, hstored⟩
  -- a key that is a number is already held as it is; any other one is its own text
  cases hn : keyNumber? text kind with
  | some n =>
    have hvalue : keyValue text (some kind) = .num n := by rw [keyValue, Option.bind_some, hn]
    rw [hvalue, coerce?_keyNumber hn] at hc
    rw [hvalue, Option.some.inj (Option.some.inj hc), hstored]
  | none =>
    have hvalue : keyValue text (some kind) = .str text := by rw [keyValue, Option.bind_some, hn]
    rw [hvalue, keyString]

/-- A text is one that a valid key has: what it stands for is held as a scalar of the kind, which
has it as its text. Unlike `IsStored` it says that there is such a scalar, so that an entry with
this text as its key is valid. -/
def IsKeyText (text : String) (kind : ScalarKind) : Prop :=
  ∃ c, canonicalScalar "" kind (keyValue text (some kind)) = .ok c ∧
    checkScalar "" kind c = .ok () ∧ keyString c = text

theorem IsKeyText.isStored {text : String} {kind : ScalarKind} (h : IsKeyText text kind) :
    IsStored text kind := by
  obtain ⟨c, hc, -, htext⟩ := h
  intro path c' hc'
  rw [canonicalScalar_eq_ok_iff] at hc hc'
  rw [← Option.some.inj (Option.some.inj (hc.symm.trans hc')), htext]

/-! ### Typed values -/

/-- **What is of a kind has a typed value.** The two kinds of whole numbers have one because being
of the kind already means being read as 64 bits. -/
theorem exists_typedScalar? {kind : ScalarKind} {c : Json} (h : isOfKind kind c = true) :
    ∃ v, typedScalar? kind c = some v := by
  -- each kind admits the values only that its typed form can hold
  cases kind with
  | string | binary =>
    cases c with
    | str s => exact ⟨_, rfl⟩
    | _ => cases h
  | bool =>
    cases c with
    | bool b => exact ⟨_, rfl⟩
    | _ => cases h
  | decimal =>
    cases c with
    | num n => exact ⟨_, rfl⟩
    | _ => cases h
  | int bits =>
    cases hn : c.num?.bind Number.toInt64? with
    | none => simp [isOfKind, hn] at h
    | some i => exact ⟨.int i, by rw [typedScalar?, hn, Option.map_some]⟩
  | uint bits =>
    cases hn : c.num?.bind Number.toUInt64? with
    | none => simp [isOfKind, hn] at h
    | some n => exact ⟨.uint n, by rw [typedScalar?, hn, Option.map_some]⟩
  | enumeration values =>
    cases c with
    | str s => exact ⟨_, rfl⟩
    | _ => cases h

theorem exists_ofHeld {kind : ScalarKind} {c : Json} (h : isOfKind kind c = true)
    (place : String) : ∃ v, TypedValue.ofHeld place kind c = .ok v := by
  obtain ⟨v, hv⟩ := exists_typedScalar? h
  cases c with
  | arr xs => cases kind <;> cases hv
  | _ => exact ⟨v, by simp only [TypedValue.ofHeld, hv]⟩

/-- An array of scalars of a kind has a typed value. -/
theorem exists_ofHeld_arr {kind : ScalarKind} {cs : List Json}
    (h : ∀ c ∈ cs, isOfKind kind c = true) (place : String) :
    ∃ v, TypedValue.ofHeld place kind (.arr cs) = .ok v := by
  -- items are converted one by one, and none of them fails
  have hitems : ∃ vs, TypedValue.ofHeldItems place kind cs = .ok vs := by
    induction cs with
    | nil => exact ⟨[], rfl⟩
    | cons c cs ih =>
      obtain ⟨hc, hcs⟩ := List.forall_mem_cons.1 h
      obtain ⟨v, hv⟩ := exists_ofHeld hc place
      obtain ⟨vs, hvs⟩ := ih hcs
      refine ⟨v :: vs, ?_⟩
      rw [TypedValue.ofHeldItems, hv, hvs]
      rfl
  obtain ⟨vs, hvs⟩ := hitems
  exact ⟨.leafList vs, by rw [TypedValue.ofHeld, hvs]; rfl⟩

/-- The typed value of a scalar has that scalar as its held form, and is no list. A decimal is left
out: its typed value is the float nearest to the number, so that a decimal held as a whole number
comes back as a float. -/
theorem toHeld_of_typedScalar? {kind : ScalarKind} (hkind : kind ≠ .decimal) {c : Json}
    {v : TypedValue} (h : typedScalar? kind c = some v) (place : String) :
    v.toHeld place = .ok c ∧ v.isLeafList = false := by
  cases kind with
  | decimal => exact absurd rfl hkind
  | string | enumeration | binary =>
    obtain ⟨s, hs, rfl⟩ := Option.map_eq_some_iff.1 h
    cases c with
    | str s' =>
      obtain rfl := Option.some.inj hs
      exact ⟨rfl, rfl⟩
    | _ => cases hs
  | bool =>
    obtain ⟨b, hb, rfl⟩ := Option.map_eq_some_iff.1 h
    cases c with
    | bool b' =>
      obtain rfl := Option.some.inj hb
      exact ⟨rfl, rfl⟩
    | _ => cases hb
  -- whole numbers keep their value
  | int bits =>
    obtain ⟨i, hi, rfl⟩ := Option.map_eq_some_iff.1 h
    obtain ⟨n, hn, hi⟩ := Option.bind_eq_some_iff.1 hi
    cases c with
    | num n' =>
      obtain rfl := Option.some.inj hn
      exact ⟨by rw [TypedValue.toHeld, ofInt64_of_toInt64? hi], rfl⟩
    | _ => cases hn
  | uint bits =>
    obtain ⟨i, hi, rfl⟩ := Option.map_eq_some_iff.1 h
    obtain ⟨n, hn, hi⟩ := Option.bind_eq_some_iff.1 hi
    cases c with
    | num n' =>
      obtain rfl := Option.some.inj hn
      exact ⟨by rw [TypedValue.toHeld, ofUInt64_of_toUInt64? hi], rfl⟩
    | _ => cases hn

/-- **The typed value of a scalar is held as that scalar**, whatever place either is at. -/
theorem toHeld_of_ofHeld {kind : ScalarKind} (hkind : kind ≠ .decimal) {c : Json} {v : TypedValue}
    {place : String} (hc : c.isScalar = true) (h : TypedValue.ofHeld place kind c = .ok v)
    (place' : String) : v.toHeld place' = .ok c ∧ v.isLeafList = false := by
  have htyped : typedScalar? kind c = some v := by
    cases c with
    | arr xs => cases hc
    | obj ms => cases hc
    | _ =>
      simp only [TypedValue.ofHeld] at h
      split at h
      · next heq => rw [heq, Except.ok.inj h]
      · cases h
  exact toHeld_of_typedScalar? hkind htyped place'

/-- The items of a list come back one by one. It takes that none of them is a list, because the held
form refuses a list within a list. -/
theorem toHeldItems_of_ofHeldItems {kind : ScalarKind} (hkind : kind ≠ .decimal) {cs : List Json}
    {vs : List TypedValue} {place : String} (hcs : ∀ c ∈ cs, c.isScalar = true)
    (h : TypedValue.ofHeldItems place kind cs = .ok vs) (place' : String) :
    TypedValue.toHeldItems place' vs = .ok cs := by
  induction cs generalizing vs with
  | nil =>
    obtain rfl := Except.ok.inj h
    rfl
  | cons c cs ih =>
    obtain ⟨hc, hcs⟩ := List.forall_mem_cons.1 hcs
    rw [TypedValue.ofHeldItems] at h
    obtain ⟨v, hv, h⟩ := bind_eq_ok_iff.1 h
    obtain ⟨rest, hrest, h⟩ := bind_eq_ok_iff.1 h
    obtain rfl := Except.ok.inj h
    -- no item is a list itself
    obtain ⟨hheld, hitem⟩ := toHeld_of_ofHeld hkind hc hv place'
    rw [TypedValue.toHeldItems, hitem, if_neg Bool.false_ne_true]
    simp only [hheld, ih hcs hrest, bind, Except.bind]
    rfl

theorem toHeld_of_ofHeld_arr {kind : ScalarKind} (hkind : kind ≠ .decimal) {cs : List Json}
    {v : TypedValue} {place : String} (hcs : ∀ c ∈ cs, c.isScalar = true)
    (h : TypedValue.ofHeld place kind (.arr cs) = .ok v) (place' : String) :
    v.toHeld place' = .ok (.arr cs) := by
  rw [TypedValue.ofHeld] at h
  obtain ⟨vs, hvs, rfl⟩ := map_eq_ok_iff.1 h
  rw [TypedValue.toHeld, toHeldItems_of_ofHeldItems hkind hcs hvs]
  rfl

end ConfigTree
