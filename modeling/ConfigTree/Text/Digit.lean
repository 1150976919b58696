/-!
# Decimal digits

Numerals as lists of digits, most significant first. `value` is the number that a list stands for
and `ofNat` the numeral of a number, without leading zeros; `value_ofNat` says that they belong
together.
-/

namespace ConfigTree

/-- A decimal digit. -/
abbrev Digit := Fin 10

namespace Digit

def zero : Digit := ⟨0, by decide⟩

/-- The character of a digit. -/
def char (d : Digit) : Char := Nat.digitChar d

/-- The digit that a character stands for; only the ten of ASCII do. -/
def ofChar? (c : Char) : Option Digit :=
  if c.isDigit then some (Fin.ofNat 10 (c.toNat - '0'.toNat)) else none

theorem ofChar?_char : ∀ d : Digit, ofChar? d.char = some d := by decide

/-- The number that digits stand for after the digits of `acc`. Reading from the left on needs no
powers of ten. -/
def valueFrom (acc : Nat) : List Digit → Nat
  | [] => acc
  | d :: ds => valueFrom (10 * acc + d) ds

/-- The number that digits stand for. -/
def value (ds : List Digit) : Nat := valueFrom 0 ds

/-- The digits of a number in front of `tail`. The fuel bounds their count. -/
def ofNatAux : Nat → Nat → List Digit → List Digit
  | 0, _, tail => tail
  | fuel + 1, n, tail =>
    if n < 10 then Fin.ofNat 10 n :: tail
    else ofNatAux fuel (n / 10) (Fin.ofNat 10 n :: tail)

/-- The digits of a number. -/
def ofNat (n : Nat) : List Digit := ofNatAux (n + 1) n []

theorem valueFrom_ofNatAux (fuel n : Nat) (tail : List Digit) (h : n < fuel) :
    valueFrom 0 (ofNatAux fuel n tail) = valueFrom n tail := by
  induction fuel generalizing n tail with
  | zero => omega
  | succ fuel ih =>
    unfold ofNatAux
    split
    · next hn => simp [valueFrom, Fin.ofNat, Nat.mod_eq_of_lt hn]
    · rw [ih _ _ (by omega)]
      simp only [valueFrom, Fin.ofNat]
      congr 1
      omega

@[simp] theorem value_ofNat (n : Nat) : value (ofNat n) = n :=
  valueFrom_ofNatAux (n + 1) n [] (Nat.lt_succ_self n)

/-- The digits that start a text, and the text after them. It takes as many as there are, and may
take none. -/
def takeDigits : List Char → List Digit × List Char
  | [] => ([], [])
  | c :: rest =>
    match ofChar? c with
    | some d => let (ds, tail) := takeDigits rest; (d :: ds, tail)
    | none => ([], c :: rest)

theorem takeDigits_append (ds : List Digit) (rest : List Char)
    (h : ∀ c ∈ rest.head?, ofChar? c = none) :
    takeDigits (ds.map char ++ rest) = (ds, rest) := by
  induction ds with
  | nil =>
    cases rest with
    | nil => rfl
    | cons c rest =>
      have hc : ofChar? c = none := h c rfl
      show takeDigits (c :: rest) = _
      rw [takeDigits, hc]
  | cons d ds ih =>
    show takeDigits (d.char :: (ds.map char ++ rest)) = _
    rw [takeDigits, ofChar?_char]
    dsimp only
    rw [ih]

end Digit

end ConfigTree
