import ConfigTree.Json.Printer
import ConfigTree.Proofs.Json.Basic
import ConfigTree.Proofs.Json.Literal

/-!
# Documents are read back

The text of a document is read as the document again.

* `string?_quoted`: a string in quotes is read back, with all its escapes.
* `parseAt?_chars`: a document is read back as its term, in front of a rest that ends it. The fuel
  that the reader needs is at most the number of characters.
* `render_injective`: documents with the same text are equal.
* `ReadAs.arr`, `ReadAs.obj`: whatever a reader makes of numbers, it reads arrays as arrays and
  objects as objects with the same names.
* `ReadBy.parseBytes?_bytes`: the bytes of a document are read as its normal form unless it is too
  deep, under a reader that reads back each number in it. One that reads back each float does so for
  every document (`Reader.ReadsBack.readBy`), and whole numbers are read back by any reader.
-/

namespace ConfigTree.Json

/-! ### Strings -/

/-- The piece that stands for a character in a written string: control characters without a short
escape are written by their numbers. -/
def pieceOf (c : Char) : Piece :=
  if c.toNat < 32 ∧ c ≠ '\x08' ∧ c ≠ '\t' ∧ c ≠ '\n' ∧ c ≠ '\x0c' ∧ c ≠ '\r' then .unit c.toNat
  else .char c

theorem hexUnit?_control {n : Nat} (h : n < 32) :
    hexUnit? '0' '0' (Text.hexDigit (n / 16)) (Text.hexDigit (n % 16)) = some n := by
  have hzero : Text.hexValue? '0' = some 0 := by decide
  have hhigh := Text.hexValue?_hexDigit (n / 16) (by omega)
  have hlow := Text.hexValue?_hexDigit (n % 16) (by omega)
  have hsum : 16 * (n / 16) + n % 16 = n := Nat.div_add_mod n 16
  simp [hexUnit?, hzero, hhigh, hlow, hsum]

/-- An escape of one letter is read as what it stands for. -/
theorem stringPieces?_short {letter e : Char} (hne : letter ≠ 'u')
    (he : shortEscape? letter = some e) (s : List Char) :
    stringPieces? ('\\' :: letter :: s)
      = (stringPieces? s).map fun found => (.char e :: found.1, found.2) := by
  -- the reader on the right goes on with what follows and is not to be opened
  conv_lhs => unfold stringPieces?
  split
  · next heq => exact absurd heq (by simp)
  · next heq => exact absurd (List.cons.inj heq).1 (by decide)
  · next heq => exact absurd (List.cons.inj (List.cons.inj heq).2).1 hne
  · next heq =>
    obtain ⟨rfl, rfl⟩ := List.cons.inj (List.cons.inj heq).2
    rw [he, Option.map_eq_bind]
    rfl
  · next hnone heq => exact (hnone _ _ (List.cons.inj heq).1.symm (List.cons.inj heq).2.symm).elim

/-- A character that needs no escape stands for itself. -/
theorem stringPieces?_plain {c : Char} (hquote : c ≠ '"') (hslash : c ≠ '\\')
    (hctl : ¬ c.toNat < 32) (s : List Char) :
    stringPieces? (c :: s)
      = (stringPieces? s).map fun found => (.char c :: found.1, found.2) := by
  conv_lhs => unfold stringPieces?
  split
  · next heq => exact absurd heq (by simp)
  · next heq => exact absurd (List.cons.inj heq).1 hquote
  · next heq => exact absurd (List.cons.inj heq).1 hslash
  · next heq => exact absurd (List.cons.inj heq).1 hslash
  · -- it is no quote and starts no escape, so it is the character itself
    next heq =>
    obtain ⟨rfl, rfl⟩ := List.cons.inj heq
    rw [if_neg (by simp [hslash, hctl])]

/-- Each character is read back from its escape as one piece, and the reader goes on behind it. -/
theorem stringPieces?_escapeChar (c : Char) (s : List Char) :
    stringPieces? (escapeChar c ++ s)
      = (stringPieces? s).map fun found => (pieceOf c :: found.1, found.2) := by
  unfold escapeChar
  -- seven characters have short escapes, the other control characters get their number, and all
  -- else stands for itself
  split
  · next h => subst h; exact stringPieces?_short (by decide) rfl s
  split
  · next h => subst h; exact stringPieces?_short (by decide) rfl s
  split
  · next h => subst h; exact stringPieces?_short (by decide) rfl s
  split
  · next h => subst h; exact stringPieces?_short (by decide) rfl s
  split
  · next h => subst h; exact stringPieces?_short (by decide) rfl s
  split
  · next h => subst h; exact stringPieces?_short (by decide) rfl s
  split
  · next h => subst h; exact stringPieces?_short (by decide) rfl s
  split
  · next hquote hslash hb ht hn hf hr hctl =>
    have hpiece : pieceOf c = .unit c.toNat := if_pos ⟨hctl, hb, ht, hn, hf, hr⟩
    rw [hpiece]
    simp only [List.cons_append, List.nil_append, stringPieces?, hexUnit?_control hctl]
    cases stringPieces? s <;> rfl
  · next hquote hslash hb ht hn hf hr hctl =>
    have hpiece : pieceOf c = .char c := if_neg fun h => hctl h.1
    rw [hpiece]
    exact stringPieces?_plain hquote hslash hctl s

theorem stringPieces?_escapeChars (cs rest : List Char) :
    stringPieces? (escapeChars cs ++ '"' :: rest) = some (cs.map pieceOf, rest) := by
  induction cs with
  | nil => rfl
  | cons c cs ih => rw [escapeChars, List.append_assoc, stringPieces?_escapeChar, ih]; rfl

/-- A number that is no surrogate stands for its character, whatever follows. -/
theorem text?_unit {n : Nat} (h : n < 0xD800) (ps : List Piece) :
    Piece.text? (.unit n :: ps) = (Piece.text? ps).map (Char.ofNat n :: ·) := by
  have hhigh : Piece.isHighSurrogate n = false := by simp [Piece.isHighSurrogate]; omega
  have hlow : Piece.isLowSurrogate n = false := by simp [Piece.isLowSurrogate]; omega
  -- only a surrogate would look at what follows
  match ps with
  | [] => simp [Piece.text?, hhigh, hlow]
  | .char c :: ps => simp [Piece.text?, hhigh, hlow]
  | .unit m :: ps => simp [Piece.text?, hhigh, hlow]

theorem text?_map_pieceOf (cs : List Char) : Piece.text? (cs.map pieceOf) = some cs := by
  induction cs with
  | nil => rfl
  | cons c cs ih =>
    rw [List.map_cons, pieceOf]
    split
    · next h => rw [text?_unit (by omega), ih, Option.map_some, Char.ofNat_toNat]
    · rw [Piece.text?, ih, Option.map_some]

/-- **A string is read back**, whatever is in it and whatever comes after it. -/
theorem string?_quoted (s : String) (rest : List Char) :
    string? (escapeChars s.toList ++ '"' :: rest) = some (some s, rest) := by
  rw [string?, stringPieces?_escapeChars]
  simp [text?_map_pieceOf]

/-! ### The first character of a document -/

/-- The first characters that a document may have. None of them is a blank, a comma or a closing
bracket, so the reader of an array knows whether an item comes. -/
def Starts (c : Char) : Prop :=
  c = 'n' ∨ c = 't' ∨ c = 'f' ∨ c = '"' ∨ c = '[' ∨ c = '\x7b' ∨ c = '-' ∨ ∃ d : Digit, c = d.char

/-- A document has a first character, and it is one of these. A number starts with its sign or with
a digit. -/
theorem exists_chars_cons (j : Json) : ∃ c cs, j.chars = c :: cs ∧ Starts c := by
  match j with
  | .null => exact ⟨_, _, rfl, .inl rfl⟩
  | .bool true => exact ⟨_, _, rfl, .inr (.inl rfl)⟩
  | .bool false => exact ⟨_, _, rfl, .inr (.inr (.inl rfl))⟩
  | .str s => exact ⟨_, _, rfl, .inr (.inr (.inr (.inl rfl)))⟩
  | .arr [] | .arr (_ :: _) => exact ⟨_, _, rfl, .inr (.inr (.inr (.inr (.inl rfl))))⟩
  | .obj [] | .obj ((_, _) :: _) => exact ⟨_, _, rfl, .inr (.inr (.inr (.inr (.inr (.inl rfl)))))⟩
  -- a number starts with its sign or with its first digit
  | .num n =>
    obtain ⟨d, ds, hds⟩ := List.exists_cons_of_ne_nil n.wellFormed_literal.ne_nil
    cases hneg : n.literal.negative with
    | true =>
      have hchars : (Json.num n).chars = '-' :: (n.literal.whole.map Digit.char
          ++ Literal.fractionChars n.literal.fraction
          ++ Literal.exponentChars n.literal.exponent) := by
        rw [chars, Number.chars, Literal.chars, hneg]
        rfl
      exact ⟨_, _, hchars, .inr (.inr (.inr (.inr (.inr (.inr (.inl rfl))))))⟩
    | false =>
      have hchars : (Json.num n).chars = d.char :: (ds.map Digit.char
          ++ Literal.fractionChars n.literal.fraction
          ++ Literal.exponentChars n.literal.exponent) := by
        rw [chars, Number.chars, Literal.chars, hneg, hds]
        rfl
      exact ⟨_, _, hchars, .inr (.inr (.inr (.inr (.inr (.inr (.inr ⟨d, rfl⟩))))))⟩

theorem not_isBlank_of_starts {c : Char} (h : Starts c) : isBlank c = false := by
  have hdigit : ∀ d : Digit, isBlank d.char = false := by decide
  rcases h with rfl | rfl | rfl | rfl | rfl | rfl | rfl | ⟨d, rfl⟩ <;>
    first | decide | exact hdigit d

theorem skipBlanks_cons {c : Char} {s : List Char} (h : isBlank c = false) :
    skipBlanks (c :: s) = c :: s := by
  rw [skipBlanks, List.dropWhile_cons_of_neg (by simp [h])]

/-- A document starts with no blank, so the reader loses nothing by skipping blanks in front of
it. -/
theorem skipBlanks_chars (j : Json) (rest : List Char) :
    skipBlanks (j.chars ++ rest) = j.chars ++ rest := by
  obtain ⟨c, cs, heq, hc⟩ := exists_chars_cons j
  rw [heq]
  exact skipBlanks_cons (not_isBlank_of_starts hc)

/-- A document does not start with a closing bracket. -/
theorem starts_ne {c : Char} (h : Starts c) : c ≠ ']' ∧ c ≠ '\x7d' := by
  have hdigit : ∀ d : Digit, d.char ≠ ']' ∧ d.char ≠ '\x7d' := by decide
  rcases h with rfl | rfl | rfl | rfl | rfl | rfl | rfl | ⟨d, rfl⟩ <;>
    first | decide | exact hdigit d

/-! ### Terms -/

namespace Term

/-- What starts with a sign or a digit is read as a literal. -/
theorem parseAt?_literal {c : Char} (hc : c = '-' ∨ ∃ d : Digit, c = d.char) (fuel : Nat)
    (s : List Char) :
    parseAt? (fuel + 1) (c :: s) = (literal? (c :: s)).map fun (l, tail) => (.number l, tail) := by
  have hdigit : ∀ d : Digit, d.char ≠ 'n' ∧ d.char ≠ 't' ∧ d.char ≠ 'f' ∧ d.char ≠ '"'
      ∧ d.char ≠ '[' ∧ d.char ≠ '\x7b' := by decide
  have hne : c ≠ 'n' ∧ c ≠ 't' ∧ c ≠ 'f' ∧ c ≠ '"' ∧ c ≠ '[' ∧ c ≠ '\x7b' := by
    rcases hc with rfl | ⟨d, rfl⟩
    · decide
    · exact hdigit d
  obtain ⟨hn, ht, hf, hquote, harr, hobj⟩ := hne
  -- all other documents start with a character of their own
  unfold parseAt?
  split
  · next heq => exact absurd (List.cons.inj heq).1 hn
  · next heq => exact absurd (List.cons.inj heq).1 ht
  · next heq => exact absurd (List.cons.inj heq).1 hf
  · next heq => exact absurd (List.cons.inj heq).1 hquote
  · next heq => exact absurd (List.cons.inj heq).1 harr
  · next heq => exact absurd (List.cons.inj heq).1 hobj
  · rfl

theorem parseAt?_number (n : Number) {fuel : Nat} (hfuel : 0 < fuel) {rest : List Char}
    (h : Ends rest) : parseAt? fuel (n.chars ++ rest) = some (.number n.literal, rest) := by
  obtain ⟨fuel, rfl⟩ := Nat.exists_eq_add_one.2 hfuel
  have hread := literal?_chars n.wellFormed_literal h
  -- by the first character the parser takes it for a number
  have hstart : ∃ c cs, n.chars = c :: cs ∧ (c = '-' ∨ ∃ d : Digit, c = d.char) := by
    obtain ⟨d, ds, hds⟩ := List.exists_cons_of_ne_nil n.wellFormed_literal.ne_nil
    unfold Number.chars Literal.chars
    cases n.literal.negative with
    | true => exact ⟨_, _, rfl, .inl rfl⟩
    | false => rw [hds]; exact ⟨_, _, rfl, .inr ⟨d, rfl⟩⟩
  obtain ⟨c, cs, heq, hc⟩ := hstart
  rw [heq, List.cons_append, parseAt?_literal hc, ← List.cons_append, ← heq]
  unfold Number.chars
  rw [hread]
  rfl

/-- An array with a first item that starts with neither a blank nor a bracket. -/
theorem parseAt?_array {fuel : Nat} {first : List Char} (hblank : skipBlanks first = first)
    (hne : first.head? ≠ some ']') {x : Term} {s : List Char}
    (hx : parseAt? fuel first = some (x, s)) {xs : List Term} {rest : List Char}
    (hxs : parseItems? fuel (skipBlanks s) = some (xs, rest)) :
    parseAt? (fuel + 1) ('[' :: first) = some (.array (x :: xs), rest) := by
  rw [parseAt?]
  dsimp only
  rw [hblank]
  split
  · next tail => exact absurd rfl hne
  · rw [hx]
    simp only [Option.bind_eq_bind, Option.bind_some, hxs, Option.pure_def]

theorem parseAt?_object {fuel : Nat} {first : List Char} (hblank : skipBlanks first = first)
    (hne : first.head? ≠ some '\x7d') {m : Option String × Term} {s : List Char}
    (hm : parseMember? fuel first = some (m, s)) {ms : List (Option String × Term)}
    {rest : List Char} (hms : parseMembers? fuel (skipBlanks s) = some (ms, rest)) :
    parseAt? (fuel + 1) ('\x7b' :: first) = some (.object (m :: ms), rest) := by
  rw [parseAt?]
  dsimp only
  rw [hblank]
  split
  · next tail => exact absurd rfl hne
  · rw [hm]
    simp only [Option.bind_eq_bind, Option.bind_some, hms, Option.pure_def]

/-- A member in front of a rest: its name in quotes, a colon and its value. -/
theorem parseMember?_quoted {fuel : Nat} (k : String) {s : List Char}
    (hblank : skipBlanks s = s) {x : Term} {rest : List Char}
    (hx : parseAt? fuel s = some (x, rest)) :
    parseMember? (fuel + 1) (quotedChars k (':' :: s)) = some ((some k, x), rest) := by
  have hcolon : skipBlanks (':' :: s) = ':' :: s := skipBlanks_cons (by decide)
  rw [quotedChars, parseMember?]
  simp only [string?_quoted, Option.bind_eq_bind, Option.bind_some, hcolon, hblank, hx,
    Option.pure_def]

end Term

/-- What follows an item of an array or a member of an object ends it. -/
theorem ends_itemsTailChars (xs : List Json) (rest : List Char) :
    Ends (itemsTailChars xs ++ rest) := by
  cases xs with
  | nil => exact ends_cons (.inr (.inl rfl))
  | cons x xs => exact ends_cons (.inl rfl)

theorem ends_membersTailChars (ms : List (String × Json)) (rest : List Char) :
    Ends (membersTailChars ms ++ rest) := by
  cases ms with
  | nil => exact ends_cons (.inr (.inr rfl))
  | cons m ms => exact ends_cons (.inl rfl)

theorem skipBlanks_of_ends {rest : List Char} (h : Ends rest) : skipBlanks rest = rest := by
  cases rest with
  | nil => rfl
  | cons c rest =>
    refine skipBlanks_cons ?_
    rcases h c rfl with rfl | rfl | rfl <;> decide

theorem head?_chars_ne (j : Json) (rest : List Char) :
    (j.chars ++ rest).head? ≠ some ']' ∧ (j.chars ++ rest).head? ≠ some '\x7d' := by
  obtain ⟨c, cs, heq, hc⟩ := exists_chars_cons j
  rw [heq]
  simpa using starts_ne hc

theorem quotedChars_append (s : String) (tail rest : List Char) :
    quotedChars s tail ++ rest = quotedChars s (tail ++ rest) := by
  simp [quotedChars]

theorem length_quotedChars (s : String) (rest : List Char) :
    rest.length + 2 ≤ (quotedChars s rest).length := by
  simp [quotedChars]

mutual

/-- **A document is read back as its term**, in front of a rest that ends it. The fuel is counted
against the characters of the document, so a part can be read with what is left after the whole. -/
theorem parseAt?_chars : ∀ (j : Json) (fuel : Nat) (rest : List Char), j.chars.length < fuel →
    Ends rest → Term.parseAt? fuel (j.chars ++ rest) = some (Term.ofJson j, rest)
  | .null, fuel + 1, rest, _, _ => rfl
  | .bool true, fuel + 1, rest, _, _ => rfl
  | .bool false, fuel + 1, rest, _, _ => rfl
  | .num n, fuel + 1, rest, _, hrest => Term.parseAt?_number n (Nat.succ_pos fuel) hrest
  | .str s, fuel + 1, rest, _, _ => by
    rw [chars, quotedChars_append, quotedChars, List.nil_append, Term.parseAt?]
    dsimp only
    rw [string?_quoted]
    rfl
  | .arr [], fuel + 1, rest, _, _ => rfl
  | .arr (x :: xs), fuel + 1, rest, hfuel, _ => by
    -- the items are shorter than the array, so they can be read with less fuel
    simp only [chars, List.length_cons, List.length_append] at hfuel
    have hends := ends_itemsTailChars xs rest
    have hx := parseAt?_chars x fuel _ (by omega) hends
    have hxs := parseItems?_itemsTailChars xs fuel rest (by omega)
    rw [chars, List.cons_append, List.append_assoc]
    refine Term.parseAt?_array (skipBlanks_chars _ _) (head?_chars_ne _ _).1 hx ?_
    rw [skipBlanks_of_ends hends, hxs]
  | .obj [], fuel + 1, rest, _, _ => rfl
  | .obj ((k, x) :: ms), fuel + 1, rest, hfuel, _ => by
    have hlen := length_quotedChars k (':' :: (x.chars ++ membersTailChars ms))
    simp only [chars, List.length_cons, List.length_append] at hfuel hlen
    have hends := ends_membersTailChars ms rest
    obtain ⟨fuel, rfl⟩ := Nat.exists_eq_add_one.2 (show 0 < fuel by omega)
    have hx := parseAt?_chars x fuel _ (by omega) hends
    have hms := parseMembers?_membersTailChars ms (fuel + 1) rest (by omega)
    rw [chars, List.cons_append, quotedChars_append, List.cons_append, List.append_assoc]
    refine Term.parseAt?_object (skipBlanks_cons (by decide)) (by simp)
      (Term.parseMember?_quoted k (skipBlanks_chars _ _) hx) ?_
    rw [skipBlanks_of_ends hends, hms]

/-- The rest of an array is read back. -/
theorem parseItems?_itemsTailChars : ∀ (xs : List Json) (fuel : Nat) (rest : List Char),
    (itemsTailChars xs).length < fuel →
    Term.parseItems? fuel (itemsTailChars xs ++ rest) = some (Term.ofItems xs, rest)
  | [], fuel + 1, rest, _ => rfl
  | x :: xs, fuel + 1, rest, hfuel => by
    simp only [itemsTailChars, List.length_cons, List.length_append] at hfuel
    have hends := ends_itemsTailChars xs rest
    have hx := parseAt?_chars x fuel _ (by omega) hends
    have hxs := parseItems?_itemsTailChars xs fuel rest (by omega)
    rw [itemsTailChars, List.cons_append, List.append_assoc, Term.parseItems?]
    simp only [skipBlanks_chars, hx, Option.bind_eq_bind, Option.bind_some,
      skipBlanks_of_ends hends, hxs, Option.pure_def]
    rfl

/-- The rest of an object is read back. -/
theorem parseMembers?_membersTailChars : ∀ (ms : List (String × Json)) (fuel : Nat)
    (rest : List Char), (membersTailChars ms).length < fuel →
    Term.parseMembers? fuel (membersTailChars ms ++ rest) = some (Term.ofMembers ms, rest)
  | [], fuel + 1, rest, _ => rfl
  | (k, x) :: ms, fuel + 1, rest, hfuel => by
    have hlen := length_quotedChars k (':' :: (x.chars ++ membersTailChars ms))
    simp only [membersTailChars, List.length_cons, List.length_append] at hfuel hlen
    have hends := ends_membersTailChars ms rest
    -- a member takes one step for itself and then one for its value
    obtain ⟨fuel, rfl⟩ := Nat.exists_eq_add_one.2 (show 0 < fuel by omega)
    have hx := parseAt?_chars x fuel _ (by omega) hends
    have hms := parseMembers?_membersTailChars ms (fuel + 1) rest (by omega)
    have hmember := Term.parseMember?_quoted k (skipBlanks_chars x _) hx
    have hquote : skipBlanks (quotedChars k (':' :: (x.chars ++ (membersTailChars ms ++ rest))))
        = quotedChars k (':' :: (x.chars ++ (membersTailChars ms ++ rest))) :=
      skipBlanks_cons (by decide)
    rw [membersTailChars, List.cons_append, quotedChars_append, List.cons_append,
      List.append_assoc, Term.parseMembers?]
    simp only [hquote, hmember, Option.bind_eq_bind, Option.bind_some, skipBlanks_of_ends hends,
      hms, Option.pure_def]
    rfl

end

theorem parseChars?_chars (j : Json) : Term.parseChars? j.chars = some (Term.ofJson j) := by
  have hblank := skipBlanks_chars j []
  -- the reader starts with three steps for each character
  have hread := parseAt?_chars j (3 * j.chars.length + 3) [] (by omega) ends_nil
  rw [List.append_nil] at hblank hread
  unfold Term.parseChars?
  rw [hblank, hread]
  rfl

/-! ### Documents -/

mutual

/-- A reader reads back each number of a document. Of a document without floats any reader does,
which is why this is asked of the document and not of the reader. -/
def ReadBy (r : Reader) : Json → Prop
  | .num n => Number.ofLiteral? r n.literal = some n
  | .arr xs => ReadByList r xs
  | .obj ms => ReadByMembers r ms
  | _ => True

def ReadByList (r : Reader) : List Json → Prop
  | [] => True
  | x :: xs => ReadBy r x ∧ ReadByList r xs

def ReadByMembers (r : Reader) : List (String × Json) → Prop
  | [] => True
  | (_, x) :: ms => ReadBy r x ∧ ReadByMembers r ms

end

theorem readByList_iff {r : Reader} {xs : List Json} :
    ReadByList r xs ↔ ∀ x ∈ xs, ReadBy r x := by
  induction xs with
  | nil => exact iff_of_true trivial fun _ hx => absurd hx List.not_mem_nil
  | cons x xs ih => rw [ReadByList, ih, List.forall_mem_cons]

theorem readByMembers_iff {r : Reader} {ms : List (String × Json)} :
    ReadByMembers r ms ↔ ∀ m ∈ ms, ReadBy r m.2 := by
  induction ms with
  | nil => exact iff_of_true trivial fun _ hm => absurd hm List.not_mem_nil
  | cons m ms ih => rw [ReadByMembers, ih, List.forall_mem_cons]

/-- A reader that reads back each float reads back each number of any document. -/
theorem Reader.ReadsBack.readBy {r : Reader} (hr : r.ReadsBack) (j : Json) : j.ReadBy r := by
  induction j using induction_on with | step j ih =>
  cases j with
  | num n => exact Number.ofLiteral?_literal hr n
  | arr xs => exact readByList_iff.2 ih
  | obj ms => exact readByMembers_iff.2 fun m hm => ih m.2 (List.mem_map_of_mem hm)
  | _ => exact trivial

mutual

/-- The term of a document that is not too deep has the document. Reading a term fails for nothing
but depth and numbers. -/
theorem read?_ofJson {r : Reader} : ∀ (j : Json) {room : Nat}, j.ReadBy r → j.depth ≤ room →
    (Term.ofJson j).read? r room = some j
  | .null, _, _, _ => rfl
  | .bool _, _, _, _ => rfl
  | .num n, _, hr, _ => by rw [Term.ofJson, Term.read?, show _ = some n from hr]; rfl
  | .str _, _, _, _ => rfl
  -- an array or an object takes one level of room, and its parts have the rest
  | .arr xs, room, hr, h => by
    rw [depth] at h
    obtain ⟨room, rfl⟩ := Nat.exists_eq_add_one.2 (show 0 < room by omega)
    rw [Term.ofJson, Term.read?, readItems?_ofItems xs hr (by omega)]
    rfl
  | .obj ms, room, hr, h => by
    rw [depth] at h
    obtain ⟨room, rfl⟩ := Nat.exists_eq_add_one.2 (show 0 < room by omega)
    rw [Term.ofJson, Term.read?, readMembers?_ofMembers ms hr (by omega)]
    rfl

theorem readItems?_ofItems {r : Reader} : ∀ (xs : List Json) {room : Nat}, ReadByList r xs →
    depthList xs ≤ room → Term.readItems? r room (Term.ofItems xs) = some xs
  | [], _, _, _ => rfl
  | x :: xs, room, hr, h => by
    rw [depthList] at h
    rw [Term.ofItems, Term.readItems?, read?_ofJson x hr.1 (by omega),
      readItems?_ofItems xs hr.2 (by omega)]
    rfl

theorem readMembers?_ofMembers {r : Reader} : ∀ (ms : List (String × Json)) {room : Nat},
    ReadByMembers r ms → depthMembers ms ≤ room →
      Term.readMembers? r room (Term.ofMembers ms) = some ms
  | [], _, _, _ => rfl
  | (k, x) :: ms, room, hr, h => by
    rw [depthMembers] at h
    rw [Term.ofMembers, Term.readMembers?, read?_ofJson x hr.1 (by omega),
      readMembers?_ofMembers ms hr.2 (by omega)]
    rfl

end

mutual

/-- A document whose term is read within some room is no deeper. -/
theorem depth_le_of_read? {r : Reader} : ∀ (j : Json) {room : Nat} {w : Json},
    (Term.ofJson j).read? r room = some w → j.depth ≤ room
  | .null, _, _, _ | .bool _, _, _, _ | .num _, _, _, _ | .str _, _, _, _ => Nat.zero_le _
  | .arr xs, room, w, h => by
    rw [Term.ofJson] at h
    -- without room no array is read
    cases room with
    | zero => simp [Term.read?] at h
    | succ room =>
      rw [Term.read?, Option.map_eq_some_iff] at h
      obtain ⟨ws, hws, -⟩ := h
      exact Nat.succ_le_succ (depthList_le_of_readItems? xs hws)
  | .obj ms, room, w, h => by
    rw [Term.ofJson] at h
    cases room with
    | zero => simp [Term.read?] at h
    | succ room =>
      rw [Term.read?, Option.map_eq_some_iff] at h
      obtain ⟨ws, hws, -⟩ := h
      exact Nat.succ_le_succ (depthMembers_le_of_readMembers? ms hws)

theorem depthList_le_of_readItems? {r : Reader} : ∀ (xs : List Json) {room : Nat} {ws : List Json},
    Term.readItems? r room (Term.ofItems xs) = some ws → depthList xs ≤ room
  | [], _, _, _ => Nat.zero_le _
  | x :: xs, room, ws, h => by
    simp only [Term.ofItems, Term.readItems?, Option.bind_eq_bind, Option.bind_eq_some_iff] at h
    obtain ⟨w, hw, ws, hws, -⟩ := h
    exact Nat.max_le.2 ⟨depth_le_of_read? x hw, depthList_le_of_readItems? xs hws⟩

theorem depthMembers_le_of_readMembers? {r : Reader} :
    ∀ (ms : List (String × Json)) {room : Nat} {ws : List (String × Json)},
      Term.readMembers? r room (Term.ofMembers ms) = some ws → depthMembers ms ≤ room
  | [], _, _, _ => Nat.zero_le _
  | (k, x) :: ms, room, ws, h => by
    simp only [Term.ofMembers, Term.readMembers?, Option.bind_eq_bind, Option.bind_eq_some_iff] at h
    obtain ⟨_, -, w, hw, ws, hws, -⟩ := h
    exact Nat.max_le.2 ⟨depth_le_of_read? x hw, depthMembers_le_of_readMembers? ms hws⟩

end

/-- The text of a string is read back from its bytes. -/
theorem fromUTF8?_toByteArray (s : String) : String.fromUTF8? s.toByteArray = some s := by
  unfold String.fromUTF8?
  rw [dif_pos s.isValidUTF8]
  rfl

/-- **The text of a document is read as its term**, however deep it is: the depth is asked only of
what becomes of the term. -/
theorem Term.parse?_render (j : Json) : Term.parse? j.render = some (Term.ofJson j) := by
  rw [Term.parse?, render, String.toList_ofList, parseChars?_chars]

/-- Documents with the same text are equal. Both are read back from it, with as much room as the
deeper one needs. -/
theorem render_injective : Function.Injective render := by
  intro j j' h
  have hterm : Term.ofJson j = Term.ofJson j' := by
    rw [← Option.some_inj, ← Term.parse?_render, ← Term.parse?_render, h]
  have hr := Reader.readsBack_nearest
  have hread := read?_ofJson j (hr.readBy j) (Nat.le_max_left j.depth j'.depth)
  have hread' := read?_ofJson j' (hr.readBy j') (Nat.le_max_right j.depth j'.depth)
  exact Option.some.inj (hread.symm.trans (hterm ▸ hread'))

theorem Term.parseBytes?_bytes (j : Json) : Term.parseBytes? j.bytes = some (Term.ofJson j) := by
  rw [Term.parseBytes?, bytes, fromUTF8?_toByteArray, Option.bind_some, Term.parse?_render]

/-- **The bytes of a document are read as its normal form**, unless it is too deep. -/
theorem ReadBy.parseBytes?_bytes {r : Reader} {j : Json} (hr : j.ReadBy r) (w : Json) :
    Json.parseBytes? r j.bytes = some w ↔ j.depth ≤ Term.maxDepth ∧ w = j.normalize := by
  rw [Json.parseBytes?, Term.parseBytes?_bytes, Option.bind_some, Term.value?,
    Option.map_eq_some_iff]
  constructor
  · rintro ⟨v, hv, rfl⟩
    -- what has been read was not too deep, so it is the document
    have hdepth := depth_le_of_read? j hv
    rw [read?_ofJson j hr hdepth] at hv
    exact ⟨hdepth, by rw [Option.some.inj hv]⟩
  · rintro ⟨hdepth, rfl⟩
    exact ⟨j, read?_ofJson j hr hdepth, rfl⟩

theorem parseBytes?_bytes {r : Reader} (hr : r.ReadsBack) (j w : Json) :
    parseBytes? r j.bytes = some w ↔ j.depth ≤ Term.maxDepth ∧ w = j.normalize :=
  (hr.readBy j).parseBytes?_bytes w

/-! ### Whatever numbers are read as -/

/-- A document whose text a reader takes for another one, in normal form. It is for what a reader
that does not read back floats makes of a tree: the same objects and arrays, with other numbers. -/
def ReadAs (r : Reader) (w j : Json) : Prop :=
  ∃ room v, (Term.ofJson w).read? r room = some v ∧ j = v.normalize

theorem readAs_of_parseBytes? {r : Reader} {w j : Json} (h : parseBytes? r w.bytes = some j) :
    w.ReadAs r j := by
  rw [parseBytes?, Term.parseBytes?_bytes, Option.bind_some, Term.value?,
    Option.map_eq_some_iff] at h
  obtain ⟨v, hv, rfl⟩ := h
  exact ⟨_, v, hv, rfl⟩

/-- An array is read as an array, item by item. -/
theorem ReadAs.arr {r : Reader} {xs : List Json} {j : Json} (h : (Json.arr xs).ReadAs r j) :
    ∃ ys, j = .arr ys ∧ List.Forall₂ (ReadAs r) xs ys := by
  obtain ⟨room, v, hread, rfl⟩ := h
  rw [Term.ofJson] at hread
  -- without room no array is read
  cases room with
  | zero => simp [Term.read?] at hread
  | succ room =>
    rw [Term.read?, Option.map_eq_some_iff] at hread
    obtain ⟨vs, hvs, rfl⟩ := hread
    refine ⟨normalizeList vs, by rw [normalize], ?_⟩
    induction xs generalizing vs with
    | nil =>
      obtain rfl := Option.some.inj hvs
      exact .nil
    | cons x xs ih =>
      simp only [Term.ofItems, Term.readItems?, Option.bind_eq_bind, Option.bind_eq_some_iff] at hvs
      obtain ⟨v, hv, vs, hvs, heq⟩ := hvs
      obtain rfl := Option.some.inj heq
      exact .cons ⟨room, v, hv, rfl⟩ (ih vs hvs)

/-- An object whose members are sorted is read as one with the same names. -/
theorem ReadAs.obj {r : Reader} {ms : List (String × Json)} {j : Json}
    (h : (Json.obj ms).ReadAs r j) (hs : Members.Sorted ms) :
    ∃ ks, j = .obj ks ∧ List.Forall₂ (fun m k => m.1 = k.1 ∧ m.2.ReadAs r k.2) ms ks := by
  obtain ⟨room, v, hread, rfl⟩ := h
  rw [Term.ofJson] at hread
  cases room with
  | zero => simp [Term.read?] at hread
  | succ room =>
    rw [Term.read?, Option.map_eq_some_iff] at hread
    obtain ⟨vs, hvs, rfl⟩ := hread
    have hmembers : List.Forall₂ (fun m k => m.1 = k.1 ∧ m.2.ReadAs r k.2) ms
        (normalizeMembers vs) := by
      clear hs
      induction ms generalizing vs with
      | nil =>
        obtain rfl := Option.some.inj hvs
        exact .nil
      | cons m ms ih =>
        simp only [Term.ofMembers, Term.readMembers?, Option.bind_eq_bind,
          Option.bind_eq_some_iff] at hvs
        obtain ⟨name, hname, v, hv, vs, hvs, heq⟩ := hvs
        obtain rfl := Option.some.inj heq
        exact .cons ⟨Option.some.inj hname, room, v, hv, rfl⟩ (ih vs hvs)
    -- the names are in order already
    have hsorted := Members.sorted_of_forall₂ hs (hmembers.imp fun _ _ h => h.1)
    exact ⟨normalizeMembers vs, by rw [normalize, Members.ofList_of_sorted hsorted], hmembers⟩

end ConfigTree.Json
