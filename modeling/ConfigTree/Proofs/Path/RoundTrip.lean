import ConfigTree.Path.Text
import ConfigTree.Proofs.Members
import ConfigTree.Proofs.Path.Grammar

/-!
# Reading back the text of a path

The text of a path is one that the grammar has for its elements, so reading it gives them back. It
is asked of the elements that their names and those of their keys are identifiers, and that no key
has an empty text, which is so for all elements that are read. The texts of keys may have any
characters.

* `Elem.Readable`: what is asked of an element.
* `readable_of_writes`, `writes_charsOf`: what the grammar has is readable, and has its text.
* `parse_text`: the round trip.
-/

namespace ConfigTree.Path

open Text (isBlank Surrounds)

variable {key : String × String} {cs ds : List Char} {e : Elem} {elems : List Elem}

/-- An element whose names are identifiers and whose keys have texts. Elements are plain records, so
that nothing else keeps a path that is put together by hand from having a name with a slash in it,
or a key without a text, which no path that is read has. -/
structure Elem.Readable (e : Elem) : Prop where
  name : isIdentifier e.name.toList = true
  keys : ∀ key ∈ e.keys, isIdentifier key.1.toList = true ∧ key.2 ≠ ""

/-! ### What is read -/

theorem WritesKey.readable (h : WritesKey cs key) :
    isIdentifier key.1.toList = true ∧ key.2 ≠ "" := by
  cases h with
  | intro blank ident text some =>
    refine ⟨isIdentifier_iff.2 ident, fun hempty => some (text.eq_nil_iff.2 ?_)⟩
    rw [hempty]
    rfl

theorem WritesElem.readable (h : WritesElem cs e) : e.Readable := by
  cases h with
  | intro ident keys distinct =>
    refine ⟨isIdentifier_iff.2 ident, fun key hkey => ?_⟩
    obtain ⟨group, -, hwrites⟩ := exists_mem_of_forall₂ keys (Members.mem_of_mem_ofList hkey)
    exact hwrites.readable

theorem WritesElems.readable (h : WritesElems cs elems) : ∀ e ∈ elems, e.Readable := by
  induction h with
  | last elem => exact List.forall_mem_singleton.2 elem.readable
  | cons elem _ ih => exact List.forall_mem_cons.2 ⟨elem.readable, ih⟩

/-- **Elements of a text are readable.** -/
theorem readable_of_writes (h : Writes cs elems) : ∀ e ∈ elems, e.Readable := by
  cases h with
  | root => exact fun e he => absurd he List.not_mem_nil
  | elems around body => exact body.readable

/-! ### What is written -/

/-- The text of a key is spelled with a backslash in front of each backslash and closing bracket,
and of nothing else: a slash or an equals sign within brackets means itself. -/
theorem spells_escape (value : List Char) : Spells (value.flatMap escapeChar) value := by
  induction value with
  | nil => exact .nil
  | cons c value ih =>
    rw [List.flatMap_cons, escapeChar]
    split
    · next hc => exact hc ▸ .escaped ih
    · next hslash =>
      split
      · next hc => exact hc ▸ .escaped ih
      · next hclose => exact .plain ⟨hslash, hclose⟩ ih

/-- A key is written without white space around it. Its text is not empty when it is spelled, since
it is not empty itself. -/
theorem writesKey_keyChars (hident : isIdentifier key.1.toList = true) (hsome : key.2 ≠ "") :
    WritesKey (keyChars key) key := by
  have hspells := spells_escape key.2.toList
  have hwritten : key.2.toList.flatMap escapeChar ≠ [] := fun hnil =>
    hsome (String.toList_eq_nil_iff.1 (hspells.eq_nil_iff.1 hnil))
  have hblank : ∀ c ∈ ([] ++ [] : List Char), isBlank c = true := fun c hc =>
    absurd hc List.not_mem_nil
  have hwrites := WritesKey.intro hblank (isIdentifier_iff.1 hident) hspells hwritten
  rwa [List.nil_append, List.append_nil] at hwrites

/-- A readable element is written as its text. Keys are sorted by their names and none comes twice,
which is what the grammar asks of them and what makes the element the one that it gives for them. -/
theorem Elem.Readable.writesElem (h : e.Readable) : WritesElem e.chars e := by
  have hkeys : List.Forall₂ WritesKey (e.keys.map keyChars) e.keys := by
    rw [List.forall₂_map_left_iff]
    exact List.forall₂_same.2 fun key hkey =>
      writesKey_keyChars (h.keys key hkey).1 (h.keys key hkey).2
  have hwrites := WritesElem.intro (isIdentifier_iff.1 h.name) hkeys
    (Members.nodup_names e.sorted)
  have hself : Elem.ofKeys e.name e.keys = e := by
    simp only [Elem.ofKeys, Members.ofList_of_sorted e.sorted]
  rwa [hself, ← List.flatMap_def] at hwrites

/-- The text of elements begins with a slash, and what follows it is written by the grammar. The
last element is told from the others because no slash may follow it. -/
theorem writesElems_flatMap (hne : elems ≠ []) (h : ∀ e ∈ elems, e.Readable) :
    ∃ body, elems.flatMap (fun e => '/' :: e.chars) = '/' :: body ∧ WritesElems body elems := by
  induction elems with
  | nil => exact absurd rfl hne
  | cons e rest ih =>
    obtain ⟨he, hrest⟩ := List.forall_mem_cons.1 h
    rw [List.flatMap_cons, List.cons_append]
    -- the last element has no separator behind it
    cases rest with
    | nil =>
      rw [List.flatMap_nil, List.append_nil]
      exact ⟨_, rfl, .last he.writesElem⟩
    | cons f rest =>
      obtain ⟨body, hbody, hwrites⟩ := ih (List.cons_ne_nil f rest) hrest
      exact ⟨_, rfl, hbody ▸ .cons he.writesElem hwrites⟩

/-- A text does not end in white space, so that nothing of it is lost when the text of a path is
trimmed. The text of a key may well end in it, but a bracket follows there. -/
def EndsFull (cs : List Char) : Prop := ∀ c ∈ cs.getLast?, isBlank c = false

theorem EndsFull.append (hcs : EndsFull cs) (hds : EndsFull ds) : EndsFull (cs ++ ds) := by
  intro c hc
  rw [List.getLast?_append] at hc
  rcases Option.or_eq_some_iff.1 hc with hc | ⟨-, hc⟩
  · exact hds c hc
  · exact hcs c hc

theorem endsFull_concat {c : Char} (hc : isBlank c = false) : EndsFull (cs ++ [c]) := by
  intro d hd
  rw [List.getLast?_concat] at hd
  exact Option.some.inj hd ▸ hc

theorem WritesKey.endsFull (h : WritesKey cs key) : EndsFull cs := by
  cases h with
  | @intro before after written key =>
    have hend : '[' :: (before ++ key.1.toList ++ after ++ '=' :: (written ++ [']']))
        = ('[' :: (before ++ key.1.toList ++ after ++ '=' :: written)) ++ [']'] := by simp
    exact hend ▸ endsFull_concat (by decide)

theorem WritesElem.endsFull (h : WritesElem cs e) : EndsFull cs := by
  cases h with
  | intro ident keys distinct =>
    refine EndsFull.append (fun c hc => (ident.ne_of_mem (List.mem_of_mem_getLast? hc)).1) ?_
    clear distinct
    induction keys with
    | nil => exact fun c hc => by cases hc
    | cons hkey _ ih =>
      rw [List.flatten_cons]
      exact hkey.endsFull.append ih

theorem WritesElems.endsFull (h : WritesElems cs elems) : EndsFull cs := by
  induction h with
  | last elem => exact elem.endsFull
  | cons elem rest ih =>
    rw [List.append_cons]
    exact (endsFull_concat (by decide)).append ih

/-- **Readable elements are written as their text.** A path without elements is written as a
slash. -/
theorem writes_charsOf (h : ∀ e ∈ elems, e.Readable) : Writes (charsOf elems) elems := by
  have hslash : EndsFull ([] ++ ['/']) := endsFull_concat (by decide)
  -- there is no white space at the slash in front, nor at the end
  have haround : ∀ {body}, EndsFull ('/' :: body) → Surrounds ('/' :: body) ('/' :: body) := by
    intro body hbody
    refine ⟨⟨[], [], by simp, ?_, ?_⟩, fun c hc => ?_, hbody⟩
    · exact fun c hc => absurd hc List.not_mem_nil
    · exact fun c hc => absurd hc List.not_mem_nil
    · obtain rfl := Option.some.inj hc
      decide
  cases elems with
  | nil => exact .root (haround hslash) rfl
  | cons e rest =>
    obtain ⟨body, hbody, hwrites⟩ := writesElems_flatMap (List.cons_ne_nil e rest) h
    have hchars : charsOf (e :: rest) = '/' :: body := hbody
    rw [hchars]
    exact .elems (haround (hslash.append hwrites.endsFull)) hwrites

/-! ### The round trip -/

/-- The text of readable elements is read as them. -/
theorem parse_textOf (h : ∀ e ∈ elems, e.Readable) :
    parse (textOf elems) = .ok (ofElems elems) := by
  rw [parse_eq_ok_iff_parseChars, textOf, String.toList_ofList, parseChars_eq_ok_iff]
  exact ⟨rfl, writes_charsOf h⟩

/-- **The text of a path is read back.** The elements of what is read are readable, and the text of
a path with readable elements is read as these elements, whatever characters the texts of its keys
have. So paths with one text have the same elements. -/
theorem parse_text :
    (∀ (text : String) (p : Path), parse text = .ok p → ∀ e ∈ p.elems, e.Readable) ∧
    (∀ p : Path, (∀ e ∈ p.elems, e.Readable) → parse p.text = .ok (ofElems p.elems)) ∧
    ∀ p q : Path, (∀ e ∈ p.elems, e.Readable) → (∀ e ∈ q.elems, e.Readable) →
      p.text = q.text → p.elems = q.elems := by
  refine ⟨fun text p h => ?_, fun p h => parse_textOf h, fun p q hp hq heq => ?_⟩
  · exact readable_of_writes (parseChars_eq_ok_iff.1 (parse_eq_ok_iff_parseChars.1 h).2)
  · -- the same text cannot be read as two different things
    have hread : parse p.text = .ok (ofElems q.elems) := heq ▸ parse_textOf hq
    have hsame : ofElems p.elems = ofElems q.elems :=
      Except.ok.inj ((parse_textOf hp).symm.trans hread)
    calc
      p.elems = (ofElems p.elems).elems := rfl
      _ = (ofElems q.elems).elems := by rw [hsame]
      _ = q.elems := rfl

/-- A path with a key whose text has all characters that mean something in paths. -/
def awkward : Path :=
  ofElems [.plain "openconfig-system:system", .ofKeys "list" [("k", "] [\\/=\n")]]

theorem parse_text_awkward : (∀ e ∈ awkward.elems, e.Readable) ∧
    parse "/openconfig-system:system/list[k=\\] [\\\\/=\n]" = .ok awkward := by
  have hreadable : ∀ e ∈ awkward.elems, e.Readable :=
    List.forall_mem_cons.2 ⟨⟨by decide, by decide⟩,
      List.forall_mem_singleton.2 ⟨by decide, by decide⟩⟩
  exact ⟨hreadable, parse_text.2.1 awkward hreadable⟩

end ConfigTree.Path
