import Mathlib.Data.List.DropRight
import Mathlib.Data.List.Nodup
import ConfigTree.Path.Parser
import ConfigTree.Proofs.Results

/-!
# The grammar of paths

Which texts are paths, and which elements they have, said without the reader. Each part of the
reader takes what the grammar has for it from the front of a text, and leaves the rest.

* `Text.trim_eq_iff`: what is left of a text without the white space around it.
* `Path.Writes`: texts that elements are read from, built from those of names, keys and their texts.
* `takeKeyValue_eq_ok_iff`: the reader of a key with its text takes what the grammar has for them.
* `exists_writesElem_of_takeElem`, `takeElem_append`: so does that of an element, which reads on as
  far as it can.
* `takeElems_eq_ok_iff`: the reader of a whole text.
* `Path.parse_iff_writes`: a text is read exactly if the grammar has it, and as what it has there.

Each part of the reader is treated in both directions: what it takes is what the grammar has, and
what the grammar has it takes, reading on as far as it can. The fuel of its loops never runs out,
since each turn takes a character at least.
-/

namespace ConfigTree

/-! ### White space -/

namespace Text

variable {cs inner : List Char}

/-- A text is another one with white space around it. The other one has none at its ends, so that it
is all that trimming leaves. -/
structure Surrounds (cs inner : List Char) : Prop where
  around : ∃ before after, cs = before ++ inner ++ after ∧ (∀ c ∈ before, isBlank c = true) ∧
    ∀ c ∈ after, isBlank c = true
  first : ∀ c ∈ inner.head?, isBlank c = false
  last : ∀ c ∈ inner.getLast?, isBlank c = false

theorem trimEnd_eq_rdropWhile (cs : List Char) : trimEnd cs = cs.rdropWhile isBlank := by
  induction cs with
  | nil => rfl
  | cons c cs ih =>
    rw [trimEnd, ih, List.rdropWhile, List.rdropWhile, List.reverse_cons, List.dropWhile_append]
    cases cs.reverse.dropWhile isBlank with
    | nil => cases hc : isBlank c <;> simp [hc]
    | cons d ds => simp

theorem surrounds_trim (cs : List Char) : Surrounds cs (trim cs) := by
  rw [trim, trimEnd_eq_rdropWhile]
  refine ⟨⟨cs.takeWhile isBlank, (cs.dropWhile isBlank).rtakeWhile isBlank, ?_,
    fun c hc => List.mem_takeWhile_imp hc, fun c hc => List.mem_rtakeWhile_imp hc⟩,
    fun c hc => ?_, fun c hc => ?_⟩
  · rw [List.append_assoc, List.rdropWhile_append_rtakeWhile, List.takeWhile_append_dropWhile]
  · -- what is dropped at the end leaves the first character alone
    obtain ⟨ds, hds⟩ := List.rdropWhile_prefix isBlank (l := cs.dropWhile isBlank)
    have hhead : (cs.dropWhile isBlank).head? = some c := by
      rw [← hds, List.head?_append, hc]
      rfl
    have hnot := List.head?_dropWhile_not isBlank cs
    rwa [hhead] at hnot
  · obtain ⟨hne, rfl⟩ := List.mem_getLast?_eq_getLast hc
    exact Bool.eq_false_iff.2 (List.rdropWhile_last_not isBlank _ hne)

theorem Surrounds.trim_eq (h : Surrounds cs inner) : trim cs = inner := by
  obtain ⟨before, after, rfl, hbefore, hafter⟩ := h.around
  rw [trim, trimEnd_eq_rdropWhile, List.append_assoc, List.dropWhile_append_of_pos hbefore]
  -- if there is something between the blanks, trimming stops at its first and at its last character
  cases inner with
  | nil =>
    rw [List.nil_append, List.dropWhile_eq_nil_iff.2 hafter]
    rfl
  | cons c rest =>
    have hc : isBlank c = false := h.first c rfl
    have hlast : ∀ hne : c :: rest ≠ [], ¬ isBlank ((c :: rest).getLast hne) = true := fun hne =>
      Bool.eq_false_iff.1 (h.last _ (List.getLast?_eq_some_getLast hne))
    rw [List.cons_append, List.dropWhile_cons_of_neg (by simp [hc]), ← List.cons_append,
      List.rdropWhile, List.reverse_append,
      List.dropWhile_append_of_pos fun d hd => hafter d (List.mem_reverse.1 hd)]
    exact List.rdropWhile_eq_self_iff.2 hlast

/-- **What is left of a text without the white space around it.** -/
theorem trim_eq_iff : trim cs = inner ↔ Surrounds cs inner :=
  ⟨fun h => h ▸ surrounds_trim cs, Surrounds.trim_eq⟩

end Text

namespace Path

open Text (isBlank Surrounds)

variable {name : String} {key : String × String} {keys pairs all : List (String × String)}
  {cs ds rest value written : List Char} {e : Elem} {elems : List Elem} {fuel : Nat}

/-! ### The grammar -/

/-- A letter or underscore, then letters, digits, underscores, points and hyphens. -/
inductive PlainIdentifier : List Char → Prop
  | intro {c : Char} {cs : List Char} (start : c.isAlpha = true ∨ c = '_')
      (rest : ∀ d ∈ cs, d.isAlphanum = true ∨ d = '_' ∨ d = '.' ∨ d = '-') :
      PlainIdentifier (c :: cs)

/-- An identifier, perhaps with the module that it comes from in front. The module is an identifier
without one, so that there is one colon at most. -/
inductive Identifier : List Char → Prop
  | plain {cs : List Char} (ident : PlainIdentifier cs) : Identifier cs
  | qualified {home cs : List Char} (module : PlainIdentifier home) (ident : PlainIdentifier cs) :
      Identifier (home ++ ':' :: cs)

/-- How the text of a key is written: a backslash stands before a character that is taken as it is,
which a backslash and a closing bracket need. Any other character may have one too, so that one text
can be spelled in several ways; one spelling has one text. -/
inductive Spells : List Char → List Char → Prop
  | nil : Spells [] []
  | plain {c : Char} {cs value : List Char} (bare : c ≠ '\\' ∧ c ≠ ']') (rest : Spells cs value) :
      Spells (c :: cs) (c :: value)
  | escaped {c : Char} {cs value : List Char} (rest : Spells cs value) :
      Spells ('\\' :: c :: cs) (c :: value)

/-- How a key is written with its text, which is not empty. White space around the key is not part
of it; white space around the text is. -/
inductive WritesKey : List Char → String × String → Prop
  | intro {before after written : List Char} {key : String × String}
      (blank : ∀ c ∈ before ++ after, isBlank c = true) (ident : Identifier key.1.toList)
      (text : Spells written key.2.toList) (some : written ≠ []) :
      WritesKey ('[' :: (before ++ key.1.toList ++ after ++ '=' :: (written ++ [']']))) key

/-- How an element is written: its name, and its keys, which are all different. -/
inductive WritesElem : List Char → Elem → Prop
  | intro {name : String} {groups : List (List Char)} {pairs : List (String × String)}
      (ident : Identifier name.toList) (keys : List.Forall₂ WritesKey groups pairs)
      (distinct : (pairs.map Prod.fst).Nodup) :
      WritesElem (name.toList ++ groups.flatten) (Elem.ofKeys name pairs)

/-- How elements are written, separated by single slashes. -/
inductive WritesElems : List Char → List Elem → Prop
  | last {cs : List Char} {e : Elem} (elem : WritesElem cs e) : WritesElems cs [e]
  | cons {cs ds : List Char} {e : Elem} {elems : List Elem} (elem : WritesElem cs e)
      (rest : WritesElems ds elems) : WritesElems (cs ++ '/' :: ds) (e :: elems)

/-- How the elements of a path are written, in a text with white space around it and perhaps a slash
at its front. An empty text has no elements, and neither has a slash alone; any other text has at
least one, so a slash at the end is not taken. -/
inductive Writes (cs : List Char) : List Elem → Prop
  | root {inner : List Char} (around : Surrounds cs inner) (body : dropSlash inner = []) :
      Writes cs []
  | elems {inner : List Char} {elems : List Elem} (around : Surrounds cs inner)
      (body : WritesElems (dropSlash inner) elems) : Writes cs elems

/-! ### Identifiers -/

theorem isIdentifierChar_iff {c : Char} :
    isIdentifierChar c = true ↔ c.isAlphanum = true ∨ c = '_' ∨ c = '.' ∨ c = '-' := by
  simp [isIdentifierChar, or_assoc]

theorem isPlainIdentifier_iff : isPlainIdentifier cs = true ↔ PlainIdentifier cs := by
  constructor
  · intro h
    cases cs with
    | nil => cases h
    | cons c cs =>
      obtain ⟨hstart, hrest⟩ := Bool.and_eq_true_iff.1 h
      exact .intro (by simpa [isIdentifierStart] using hstart)
        fun d hd => isIdentifierChar_iff.1 (List.all_eq_true.1 hrest d hd)
  · rintro ⟨start, rest⟩
    exact Bool.and_eq_true_iff.2 ⟨by simpa [isIdentifierStart] using start,
      List.all_eq_true.2 fun d hd => isIdentifierChar_iff.2 (rest d hd)⟩

theorem PlainIdentifier.isIdentifierChar (h : PlainIdentifier cs) :
    ∀ c ∈ cs, isIdentifierChar c = true := by
  obtain ⟨start, rest⟩ := h
  refine List.forall_mem_cons.2 ⟨isIdentifierChar_iff.2 ?_, fun d hd =>
    isIdentifierChar_iff.2 (rest d hd)⟩
  exact start.imp (fun halpha => by simp [Char.isAlphanum, halpha]) .inl

theorem PlainIdentifier.ne_colon (h : PlainIdentifier cs) : ∀ c ∈ cs, (c != ':') = true := by
  intro c hc
  have hchar := h.isIdentifierChar c hc
  exact bne_iff_ne.2 fun heq => absurd (heq ▸ hchar) (by decide)

/-- The test for identifiers goes by the first colon, the grammar by where a module ends. The two
agree because no part of an identifier has a colon of its own. -/
theorem isIdentifier_iff : isIdentifier cs = true ↔ Identifier cs := by
  constructor
  · intro h
    unfold isIdentifier at h
    have hsplit := List.takeWhile_append_dropWhile (p := (· != ':')) (l := cs)
    cases hrest : cs.dropWhile (· != ':') with
    | nil =>
      rw [hrest] at h
      exact .plain (isPlainIdentifier_iff.1 h)
    | cons c ident =>
      rw [hrest] at h hsplit
      obtain ⟨hhome, hident⟩ := Bool.and_eq_true_iff.1 h
      -- the first character that is not taken is the colon
      have hcolon := List.head?_dropWhile_not (· != ':') cs
      rw [hrest] at hcolon
      obtain rfl : c = ':' := by simpa using hcolon
      rw [← hsplit]
      exact .qualified (isPlainIdentifier_iff.1 hhome) (isPlainIdentifier_iff.1 hident)
  · intro h
    unfold isIdentifier
    cases h with
    | plain ident =>
      rw [List.dropWhile_eq_nil_iff.2 ident.ne_colon]
      exact isPlainIdentifier_iff.2 ident
    | @qualified home cs module ident =>
      rw [List.dropWhile_append_of_pos module.ne_colon,
        List.takeWhile_append_of_pos module.ne_colon]
      simp [isPlainIdentifier_iff.2 module, isPlainIdentifier_iff.2 ident]

/-- The code points of letters and digits. Only those of ASCII count, so that what is said of them
is a matter of a few numbers. -/
theorem codes_of_isAlphanum {c : Char} (h : c.isAlphanum = true) :
    (65 ≤ c.toNat ∧ c.toNat ≤ 90) ∨ (97 ≤ c.toNat ∧ c.toNat ≤ 122) ∨
      (48 ≤ c.toNat ∧ c.toNat ≤ 57) := by
  have hrange : ∀ a b : Char, a.val ≤ c.val → c.val ≤ b.val →
      a.toNat ≤ c.toNat ∧ c.toNat ≤ b.toNat := fun a b ha hb =>
    ⟨UInt32.le_iff_toNat_le.1 ha, UInt32.le_iff_toNat_le.1 hb⟩
  rcases Bool.or_eq_true_iff.1 h with halpha | hdigit
  · rcases Bool.or_eq_true_iff.1 halpha with hupper | hlower
    · obtain ⟨ha, hz⟩ := of_decide_eq_true hupper
      exact .inl (hrange 'A' 'Z' ha hz)
    · obtain ⟨ha, hz⟩ := Bool.and_eq_true_iff.1 hlower
      exact .inr (.inl (hrange 'a' 'z' (of_decide_eq_true ha) (of_decide_eq_true hz)))
  · obtain ⟨hzero, hnine⟩ := Bool.and_eq_true_iff.1 hdigit
    exact .inr (.inr (hrange '0' '9' (of_decide_eq_true hzero) (of_decide_eq_true hnine)))

theorem isBlank_of_isIdentifierChar {c : Char} (h : isIdentifierChar c = true) :
    isBlank c = false := by
  rcases isIdentifierChar_iff.1 h with h | rfl | rfl | rfl
  · have hcodes := codes_of_isAlphanum h
    simp only [isBlank, Bool.or_eq_false_iff, Bool.and_eq_false_iff, decide_eq_false_iff_not]
    omega
  · decide
  · decide
  · decide

theorem Identifier.isIdentifierChar_or (h : Identifier cs) :
    ∀ c ∈ cs, isIdentifierChar c = true ∨ c = ':' := by
  intro c hc
  cases h with
  | plain ident => exact .inl (ident.isIdentifierChar c hc)
  | qualified module ident =>
    rcases List.mem_append.1 hc with hc | hc
    · exact .inl (module.isIdentifierChar c hc)
    · rcases List.mem_cons.1 hc with rfl | hc
      · exact .inr rfl
      · exact .inl (ident.isIdentifierChar c hc)

/-- No character of an identifier has a meaning in paths: that is why the reader may look for the
end of a name before it knows whether it is one. -/
theorem Identifier.ne_of_mem (h : Identifier cs) {c : Char} (hc : c ∈ cs) :
    isBlank c = false ∧ c ≠ '/' ∧ c ≠ '[' ∧ c ≠ ']' ∧ c ≠ '=' := by
  have hnot : ∀ d : Char, isIdentifierChar d = false → d ≠ ':' → c ≠ d := by
    rintro d hd hcolon rfl
    rcases h.isIdentifierChar_or c hc with hchar | heq
    · exact Bool.false_ne_true (hd.symm.trans hchar)
    · exact hcolon heq
  refine ⟨?_, hnot _ (by decide) (by decide), hnot _ (by decide) (by decide),
    hnot _ (by decide) (by decide), hnot _ (by decide) (by decide)⟩
  rcases h.isIdentifierChar_or c hc with hchar | rfl
  · exact isBlank_of_isIdentifierChar hchar
  · decide

theorem Identifier.ne_nil (h : Identifier cs) : cs ≠ [] := by
  rintro rfl
  have hident := isIdentifier_iff.2 h
  exact absurd hident (by decide)

/-- The white space around an identifier is all that is trimmed. -/
theorem trim_eq_identifier_iff (h : Identifier cs) : Text.trim ds = cs ↔ ∃ before after,
    (∀ c ∈ before ++ after, isBlank c = true) ∧ ds = before ++ cs ++ after := by
  rw [Text.trim_eq_iff]
  constructor
  · rintro ⟨⟨before, after, heq, hbefore, hafter⟩, -, -⟩
    exact ⟨before, after, List.forall_mem_append.2 ⟨hbefore, hafter⟩, heq⟩
  · rintro ⟨before, after, hblank, heq⟩
    obtain ⟨hbefore, hafter⟩ := List.forall_mem_append.1 hblank
    exact ⟨⟨before, after, heq, hbefore, hafter⟩,
      fun c hc => (h.ne_of_mem (List.mem_of_mem_head? hc)).1,
      fun c hc => (h.ne_of_mem (List.mem_of_mem_getLast? hc)).1⟩

/-! ### Parts of an element -/

/-- A name is what the reader takes from the front of a text; whether it is an identifier is asked
afterwards. -/
theorem append_of_takeName (h : takeName ds = .ok (cs, rest)) : ds = cs ++ rest := by
  fun_induction takeName ds generalizing cs with
  | case1 =>
    obtain ⟨rfl, rfl⟩ := Prod.mk.inj (Except.ok.inj h)
    rfl
  | case2 c ds hend =>
    obtain ⟨rfl, rfl⟩ := Prod.mk.inj (Except.ok.inj h)
    rfl
  | case3 => cases h
  | case4 c ds hend hstop ih =>
    obtain ⟨⟨name, rest⟩, hname, heq⟩ := map_eq_ok_iff.1 h
    obtain ⟨rfl, rfl⟩ := Prod.mk.inj heq
    rw [ih hname, List.cons_append]

/-- An identifier is taken as a name up to the slash or bracket that follows it, or the end. -/
theorem takeName_append (h : Identifier cs) (hrest : ∀ c ∈ rest.head?, c = '/' ∨ c = '[') :
    takeName (cs ++ rest) = .ok (cs, rest) := by
  have hcs : ∀ c ∈ cs, ¬ (c = '/' ∨ c = '[') ∧ ¬ (c = ']' ∨ c = '=') := fun c hc => by
    obtain ⟨-, hslash, hopen, hclose, hequals⟩ := h.ne_of_mem hc
    exact ⟨not_or.2 ⟨hslash, hopen⟩, not_or.2 ⟨hclose, hequals⟩⟩
  clear h
  -- of the identifier only the characters matter, each of which goes on
  induction cs with
  | nil =>
    cases rest with
    | nil => rfl
    | cons c rest => rw [List.nil_append, takeName, if_pos (hrest c rfl)]
  | cons c cs ih =>
    obtain ⟨hend, hstop⟩ := hcs c List.mem_cons_self
    rw [List.cons_append, takeName, if_neg hend, if_neg hstop,
      ih fun d hd => hcs d (List.mem_cons_of_mem _ hd)]
    rfl

theorem append_of_takeKey (h : takeKey ds = .ok (cs, rest)) : ds = cs ++ '=' :: rest := by
  fun_induction takeKey ds generalizing cs with
  | case1 => cases h
  | case2 ds =>
    obtain ⟨rfl, rfl⟩ := Prod.mk.inj (Except.ok.inj h)
    rfl
  | case3 => cases h
  | case4 c ds hend hclose ih =>
    obtain ⟨⟨key, rest⟩, hkey, heq⟩ := map_eq_ok_iff.1 h
    obtain ⟨rfl, rfl⟩ := Prod.mk.inj heq
    rw [ih hkey, List.cons_append]

/-- A key is taken up to its equals sign if no such sign, and no bracket, stands in it. -/
theorem takeKey_append (h : ∀ c ∈ cs, c ≠ '=' ∧ c ≠ ']') (rest : List Char) :
    takeKey (cs ++ '=' :: rest) = .ok (cs, rest) := by
  induction cs with
  | nil => rw [List.nil_append, takeKey, if_pos rfl]
  | cons c cs ih =>
    obtain ⟨hend, hclose⟩ := h c List.mem_cons_self
    rw [List.cons_append, takeKey, if_neg hend, if_neg hclose,
      ih fun d hd => h d (List.mem_cons_of_mem _ hd)]
    rfl

/-- An identifier is taken with the white space around it. -/
theorem takeKey_around {before after : List Char} (h : Identifier cs)
    (hblank : ∀ c ∈ before ++ after, isBlank c = true) (rest : List Char) :
    takeKey (before ++ cs ++ after ++ '=' :: rest) = .ok (before ++ cs ++ after, rest) := by
  -- a blank ends neither the key nor the brackets
  have hspace : ∀ c, isBlank c = true → c ≠ '=' ∧ c ≠ ']' := by
    intro c hc
    refine ⟨?_, ?_⟩
    · rintro rfl
      exact absurd hc (by decide)
    · rintro rfl
      exact absurd hc (by decide)
  obtain ⟨hbefore, hafter⟩ := List.forall_mem_append.1 hblank
  refine takeKey_append (List.forall_mem_append.2 ⟨List.forall_mem_append.2 ⟨?_, ?_⟩, ?_⟩) rest
  · exact fun c hc => hspace c (hbefore c hc)
  · intro c hc
    obtain ⟨-, -, -, hclose, hequals⟩ := h.ne_of_mem hc
    exact ⟨hequals, hclose⟩
  · exact fun c hc => hspace c (hafter c hc)

theorem takeValue_cons {c : Char} (hc : c ≠ '\\') (cs : List Char) :
    takeValue (c :: cs) = if c = ']' then .ok ([], cs)
      else (takeValue cs).map fun (value, rest) => (c :: value, rest) := by
  rw [takeValue]
  · exact fun h => absurd h hc
  · exact fun _ _ h => absurd h hc

/-- The text of a key is taken as it is spelled. -/
theorem takeValue_eq_ok_iff : takeValue ds = .ok (value, rest) ↔
    ∃ written, ds = written ++ ']' :: rest ∧ Spells written value := by
  constructor
  · intro h
    fun_induction takeValue ds generalizing value with
    | case1 => cases h
    | case2 => cases h
    | case3 c cs ih =>
      obtain ⟨⟨value, rest⟩, htail, heq⟩ := map_eq_ok_iff.1 h
      obtain ⟨rfl, rfl⟩ := Prod.mk.inj heq
      obtain ⟨written, rfl, hspells⟩ := ih htail
      exact ⟨'\\' :: c :: written, rfl, .escaped hspells⟩
    | case4 cs hlast hescape =>
      obtain ⟨rfl, rfl⟩ := Prod.mk.inj (Except.ok.inj h)
      exact ⟨[], rfl, .nil⟩
    | case5 c cs hlast hescape hclose ih =>
      -- a backslash would have been taken with the character after it
      have hbare : c ≠ '\\' := by
        intro hc
        cases cs with
        | nil => exact hlast hc rfl
        | cons d ds => exact hescape d ds hc rfl
      obtain ⟨⟨value, rest⟩, htail, heq⟩ := map_eq_ok_iff.1 h
      obtain ⟨rfl, rfl⟩ := Prod.mk.inj heq
      obtain ⟨written, rfl, hspells⟩ := ih htail
      exact ⟨c :: written, rfl, .plain ⟨hbare, hclose⟩ hspells⟩
  · rintro ⟨written, rfl, h⟩
    induction h with
    | nil => rw [List.nil_append, takeValue_cons (by decide), if_pos rfl]
    | plain bare _ ih =>
      rw [List.cons_append, takeValue_cons bare.1, if_neg bare.2, ih]
      rfl
    | escaped _ ih =>
      rw [List.cons_append, List.cons_append, takeValue, ih]
      rfl

theorem Spells.eq_nil_iff (h : Spells written value) : written = [] ↔ value = [] := by
  cases h with
  | nil => exact Iff.rfl
  | plain => exact iff_of_false (List.cons_ne_nil _ _) (List.cons_ne_nil _ _)
  | escaped => exact iff_of_false (List.cons_ne_nil _ _) (List.cons_ne_nil _ _)

/-- **A key and its text are taken as they are written.** -/
theorem takeKeyValue_eq_ok_iff : takeKeyValue ds = .ok (key, rest) ↔
    ∃ cs, '[' :: ds = cs ++ rest ∧ WritesKey cs key := by
  constructor
  · intro h
    obtain ⟨⟨text, tail⟩, hkey, h⟩ := bind_eq_ok_iff.1 h
    dsimp only at h
    split at h
    · cases h
    · next hident =>
      obtain ⟨⟨value, tail⟩, hvalue, h⟩ := bind_eq_ok_iff.1 h
      dsimp only at h
      split at h
      · cases h
      · next hsome =>
        obtain ⟨rfl, rfl⟩ := Prod.mk.inj (Except.ok.inj h)
        obtain ⟨written, rfl, hspells⟩ := takeValue_eq_ok_iff.1 hvalue
        have hname : Identifier (Text.trim text) := isIdentifier_iff.1 (by simpa using hident)
        -- the parser trims the key, so there may have been blanks around it
        obtain ⟨before, after, hblank, htext⟩ := (trim_eq_identifier_iff hname).1 rfl
        have hwritten : written ≠ [] := fun hnil =>
          hsome (List.isEmpty_iff.2 (hspells.eq_nil_iff.1 hnil))
        have hwrites : WritesKey _ (String.ofList (Text.trim text), String.ofList value) :=
          .intro hblank (String.toList_ofList.symm ▸ hname) (String.toList_ofList.symm ▸ hspells)
            hwritten
        refine ⟨_, ?_, hwrites⟩
        rw [append_of_takeKey hkey, String.toList_ofList, ← htext]
        simp
  · rintro ⟨cs, heq, h⟩
    cases h with
    | @intro before after written key blank ident text some =>
      obtain rfl : ds = before ++ key.1.toList ++ after ++ '=' :: (written ++ ']' :: rest) := by
        simpa using heq
      -- what is written around the key is trimmed off again
      have htrim : Text.trim (before ++ key.1.toList ++ after) = key.1.toList :=
        (trim_eq_identifier_iff ident).2 ⟨before, after, blank, rfl⟩
      have hvalue : takeValue (written ++ ']' :: rest) = .ok (key.2.toList, rest) :=
        takeValue_eq_ok_iff.2 ⟨written, rfl, text⟩
      have hsome : key.2.toList.isEmpty = false :=
        List.isEmpty_eq_false_iff.2 fun hnil => some (text.eq_nil_iff.2 hnil)
      unfold takeKeyValue
      simp only [takeKey_around ident blank, htrim, isIdentifier_iff.2 ident, hvalue, hsome, bind,
        Except.bind, String.ofList_toList, Bool.not_true, Bool.false_eq_true, if_false]
      rfl

/-! ### Elements -/

theorem WritesKey.exists_cons (h : WritesKey cs key) : ∃ ds, cs = '[' :: ds := by
  cases h with
  | intro => exact ⟨_, rfl⟩

theorem any_name_iff : (keys.any fun k => k.1 == name) = true ↔ name ∈ keys.map Prod.fst := by
  simp [List.any_eq_true, List.mem_map]

/-- The keys that are taken are those that are written, and all different. -/
theorem exists_writesKey_of_takeKeys (hkeys : (keys.map Prod.fst).Nodup)
    (h : takeKeys name fuel keys ds = .ok (all, rest)) :
    ∃ groups pairs, ds = groups.flatten ++ rest ∧ List.Forall₂ WritesKey groups pairs ∧
      all = keys ++ pairs ∧ (all.map Prod.fst).Nodup := by
  -- along the recursion of the parser: the keys taken so far are different, and the next one is not
  -- among them
  fun_induction takeKeys name fuel keys ds with
  | case1 fuel keys ds ih =>
    obtain ⟨⟨key, tail⟩, hkey, h⟩ := bind_eq_ok_iff.1 h
    dsimp only at h ih
    split at h
    · cases h
    · next hnew =>
      have hkeys' : ((keys ++ [key]).map Prod.fst).Nodup := by
        rw [List.map_append, List.nodup_append_comm]
        exact List.nodup_cons.2 ⟨fun hmem => hnew (any_name_iff.2 hmem), hkeys⟩
      obtain ⟨group, hgroup, hwrites⟩ := takeKeyValue_eq_ok_iff.1 hkey
      obtain ⟨groups, pairs, rfl, hall, rfl, hdistinct⟩ := ih key tail hkeys' h
      refine ⟨group :: groups, key :: pairs, ?_, .cons hwrites hall, ?_, hdistinct⟩
      · rw [hgroup, List.flatten_cons, List.append_assoc]
      · rw [List.append_assoc, List.singleton_append]
  | case2 =>
    obtain ⟨rfl, rfl⟩ := Prod.mk.inj (Except.ok.inj h)
    exact ⟨[], [], rfl, .nil, (List.append_nil _).symm, hkeys⟩

theorem length_le_of_writesKey {groups : List (List Char)}
    (h : List.Forall₂ WritesKey groups pairs) : groups.length ≤ groups.flatten.length := by
  induction h with
  | nil => exact Nat.le_refl 0
  | cons hkey _ ih =>
    obtain ⟨tail, rfl⟩ := hkey.exists_cons
    simp only [List.length_cons, List.flatten_cons, List.length_append]
    omega

/-- Keys that are written and all different are taken, up to where no bracket opens. -/
theorem takeKeys_append {groups : List (List Char)} (h : List.Forall₂ WritesKey groups pairs)
    (hdistinct : ((keys ++ pairs).map Prod.fst).Nodup) (hfuel : groups.length ≤ fuel)
    (hrest : rest.head? ≠ some '[') :
    takeKeys name fuel keys (groups.flatten ++ rest) = .ok (keys ++ pairs, rest) := by
  induction h generalizing keys fuel with
  | nil =>
    rw [List.flatten_nil, List.nil_append, List.append_nil, takeKeys]
    intro fuel' ds _ heq
    exact hrest (congrArg List.head? heq)
  | @cons group key groups pairs hkey _ ih =>
    -- each key takes one step, and has at least one character
    obtain ⟨fuel, rfl⟩ := Nat.exists_eq_add_of_le' (Nat.le_trans (by simp) hfuel : 1 ≤ fuel)
    obtain ⟨tail, rfl⟩ := hkey.exists_cons
    have htake : takeKeyValue (tail ++ (groups.flatten ++ rest))
        = .ok (key, groups.flatten ++ rest) :=
      takeKeyValue_eq_ok_iff.2 ⟨_, rfl, hkey⟩
    -- a key that came before would be refused; these are all different
    have hnew : (keys.any fun k => k.1 == key.1) = false := by
      rw [List.map_append, List.map_cons, List.nodup_middle, List.nodup_cons] at hdistinct
      exact Bool.eq_false_iff.2 fun hany =>
        hdistinct.1 (List.mem_append_left _ (any_name_iff.1 hany))
    rw [List.flatten_cons, List.append_assoc, List.cons_append, takeKeys]
    rw [List.append_cons keys key pairs] at hdistinct ⊢
    simp only [htake, hnew, bind, Except.bind, Bool.false_eq_true, if_false]
    exact ih hdistinct (Nat.le_of_succ_le_succ hfuel)

/-- **An element that is taken is taken as it is written.** It is a name, of which the reader asks
afterwards that it be an identifier, and the keys that follow. -/
theorem exists_writesElem_of_takeElem (h : takeElem ds = .ok (e, rest)) :
    ∃ cs, ds = cs ++ rest ∧ WritesElem cs e := by
  obtain ⟨⟨ident, tail⟩, hname, h⟩ := bind_eq_ok_iff.1 h
  dsimp only at h
  split at h
  · cases h
  · next hident =>
    obtain ⟨⟨keys, tail⟩, hkeys, h⟩ := bind_eq_ok_iff.1 h
    obtain ⟨rfl, rfl⟩ := Prod.mk.inj (Except.ok.inj h)
    -- no keys have been taken when the name has been read
    have hnone : (([] : List (String × String)).map Prod.fst).Nodup := List.nodup_nil
    obtain ⟨groups, pairs, rfl, hgroups, rfl, hdistinct⟩ :=
      exists_writesKey_of_takeKeys hnone hkeys
    have hwritten : Identifier (String.ofList ident).toList := by
      rw [String.toList_ofList]
      exact isIdentifier_iff.1 (by simpa using hident)
    refine ⟨_, ?_, .intro hwritten hgroups hdistinct⟩
    rw [append_of_takeName hname, String.toList_ofList, List.append_assoc]

/-- **An element that is written is taken**, if it ends there: at a slash or at the end of the text.
A bracket would be read as another key of it. -/
theorem takeElem_append (h : WritesElem cs e) (hrest : ∀ c ∈ rest.head?, c = '/') :
    takeElem (cs ++ rest) = .ok (e, rest) := by
  cases h with
  | @intro name groups pairs ident keys distinct =>
    -- the name ends at the first key, or where the element does
    have hopen : ∀ c ∈ (groups.flatten ++ rest).head?, c = '/' ∨ c = '[' := by
      intro c hc
      cases keys with
      | nil => exact .inl (hrest c hc)
      | cons hkey _ =>
        obtain ⟨tail, rfl⟩ := hkey.exists_cons
        exact .inr (Option.some.inj hc).symm
    have hend : rest.head? ≠ some '[' := fun heq => absurd (hrest '[' heq) (by decide)
    -- each key takes a character at least, so the fuel is enough
    have hfuel : groups.length ≤ (groups.flatten ++ rest).length := by
      rw [List.length_append]
      exact Nat.le_add_right_of_le (length_le_of_writesKey keys)
    have htake := @takeKeys_append name [] pairs rest _ groups keys distinct hfuel hend
    unfold takeElem
    rw [List.append_assoc, takeName_append ident hopen]
    simp only [bind, Except.bind, isIdentifier_iff.2 ident, Bool.not_true, Bool.false_eq_true,
      if_false, String.ofList_toList, htake]
    rfl

theorem WritesElem.ne_nil (h : WritesElem cs e) : cs ≠ [] := by
  cases h with
  | intro ident => exact List.append_ne_nil_of_left_ne_nil ident.ne_nil _

theorem WritesElems.ne_nil (h : WritesElems cs elems) : cs ≠ [] := by
  cases h with
  | last elem => exact elem.ne_nil
  | cons elem => exact List.append_ne_nil_of_left_ne_nil elem.ne_nil _

/-- **Elements are taken as they are written.** The fuel is enough if there is more of it than text,
for each element takes up a character. One direction goes by the steps of the reader, the other by
how the elements are written. -/
theorem takeElems_eq_ok_iff (hfuel : cs.length < fuel) :
    takeElems fuel cs = .ok elems ↔ WritesElems cs elems := by
  constructor
  · intro h
    induction fuel generalizing cs elems with
    | zero => exact absurd hfuel (Nat.not_lt_zero _)
    | succ fuel ih =>
      obtain ⟨⟨e, tail⟩, helem, hmore⟩ := bind_eq_ok_iff.1 h
      obtain ⟨written, rfl, hwrites⟩ := exists_writesElem_of_takeElem helem
      dsimp only at hmore
      split at hmore
      · obtain rfl := Except.ok.inj hmore
        rw [List.append_nil]
        exact .last hwrites
      · cases hmore
      · obtain ⟨elems, hrest, heq⟩ := bind_eq_ok_iff.1 hmore
        obtain rfl := Except.ok.inj heq
        refine .cons hwrites (ih ?_ hrest)
        rw [List.length_append, List.length_cons] at hfuel
        omega
      · cases hmore
  · intro h
    induction h generalizing fuel with
    | @last cs e elem =>
      obtain ⟨fuel, rfl⟩ := Nat.exists_eq_add_of_lt hfuel
      have htake : takeElem (cs ++ []) = .ok (e, []) :=
        takeElem_append elem fun c hc => by cases hc
      rw [List.append_nil] at htake
      rw [takeElems, htake]
      rfl
    | @cons cs ds e elems elem rest ih =>
      obtain ⟨fuel, rfl⟩ := Nat.exists_eq_add_of_lt hfuel
      have htake : takeElem (cs ++ '/' :: ds) = .ok (e, '/' :: ds) :=
        takeElem_append elem fun c hc => (Option.some.inj hc).symm
      -- a slash at the end would be an error, but more elements follow
      obtain ⟨d, ds, rfl⟩ := List.exists_cons_of_ne_nil rest.ne_nil
      have hrest : takeElems ((cs ++ '/' :: d :: ds).length + fuel) (d :: ds) = .ok elems := by
        refine ih ?_
        simp only [List.length_append, List.length_cons]
        omega
      rw [takeElems, htake]
      simp only [bind, Except.bind, hrest]
      rfl

/-- **Which texts have elements, and which.** -/
theorem parseChars_eq_ok_iff : parseChars cs = .ok elems ↔ Writes cs elems := by
  unfold parseChars
  -- both sides speak of what is left between the blanks
  have hinner := Text.surrounds_trim cs
  constructor
  · intro h
    split at h
    · next hbody =>
      obtain rfl := Except.ok.inj h
      exact .root hinner hbody
    · exact .elems hinner ((takeElems_eq_ok_iff (Nat.lt_succ_self _)).1 h)
  · intro h
    cases h with
    | root around body =>
      rw [around.trim_eq, body]
    | elems around body =>
      rw [around.trim_eq]
      split
      · next hnil => exact absurd hnil body.ne_nil
      · exact (takeElems_eq_ok_iff (Nat.lt_succ_self _)).2 body

/-! ### Paths -/

/-- A text is read as its elements, without an origin. -/
theorem parse_eq_ok_iff_parseChars {text : String} {p : Path} :
    parse text = .ok p ↔ p.origin = none ∧ parseChars text.toList = .ok p.elems := by
  unfold parse
  cases parseChars text.toList with
  | ok elems =>
    constructor
    · intro h
      obtain rfl := Except.ok.inj h
      exact ⟨rfl, rfl⟩
    · rintro ⟨horigin, helems⟩
      obtain rfl := Except.ok.inj helems
      change Except.ok (⟨none, p.elems⟩ : Path) = .ok p
      rw [← horigin]
  | error fault => exact iff_of_false (fun h => by cases h) fun h => by cases h.2

/-- **Reading accepts exactly the grammar.** A text is read as a path exactly if the grammar has it,
and the path then has the elements that it has there. An origin has no place in the text of a path,
so what is read has none. -/
theorem parse_iff_writes {text : String} {p : Path} :
    parse text = .ok p ↔ p.origin = none ∧ Writes text.toList p.elems := by
  rw [parse_eq_ok_iff_parseChars, parseChars_eq_ok_iff]

/-- White space counts in the text of a key only, where a backslash takes away the meaning of the
character after it. -/
example : parse " /a/b[ k = x/\\]y ] " =
    .ok (ofElems [.plain "a", .ofKeys "b" [("k", " x/]y ")]]) := by decide

end Path

end ConfigTree
