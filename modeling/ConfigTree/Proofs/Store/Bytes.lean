import ConfigTree.Proofs.Store.Identity
import ConfigTree.Proofs.Store.Replace
import ConfigTree.Proofs.Text.Utf8

/-!
# Bytes that are written

A leaf for bytes is held as a text, the one that they are as UTF-8. So two byte strings that a set
writes there are told apart by a get just if their texts are different, and they are unless both
texts have the replacement character, which stands for what is not UTF-8.

* `Edit.dataAt_bytes`: the data that bytes are.
* `Store.lookup_set_bytes`: what a look-up finds where they have been written.
* `Store.get_set_bytes`: what is read after two sets that write different bytes to the same leaf.

A get finds nothing if the path goes through an entry that the set has added with a key that is not
in stored form; this depends on the path and the tree alone. A write at a key of an entry that makes
it another one is left out.
-/

namespace ConfigTree

open ConfigTree.Path (Elem)
open ConfigTree.Tree (Object AddsStored KeepsTexts KeysNamed lookup)
open Members (get?)
open Schema (Node)
open Schema.Node (Stands)

variable {s : Schema} {r : Json.Reader} {n m : Node} {home : Option String} {e last : Elem}
  {inner : Object} {text : String} {p : Path}

/-! ### The data of bytes -/

/-- Any text is in stored form as the key of a leaf for bytes, since such a leaf holds the text as
it is. -/
theorem isStored_binary (text : String) : IsStored text .binary := by
  intro path c hc
  obtain rfl : Json.str text = c := Except.ok.inj hc
  rfl

namespace Edit

/-- **Bytes are held as the text that they are.** Whatever in them is not UTF-8 is the replacement
character in the text, and what it has been cannot be told any more. -/
theorem dataAt_bytes (hr : r.ReadsBack) {home' : Option String}
    (hnode : s.nodeAt p.elems = .ok (.leaf home .binary, home')) (b : ByteArray) :
    dataAt s r p (.bytes b) = .ok (.str (Text.decodeLossy b)) := by
  refine dataAt_of_payload hnode rfl ?_ ?_ ?_
  · exact (Json.parseBytes?_bytes hr _ _).2 ⟨Nat.zero_le _, rfl⟩
  · cases Subtree.isEntryPlace p.elems <;> rfl
  · cases Subtree.isEntryPlace p.elems <;> rfl

/-- A write of data at a path leaves the entries on its way with the keys of the path. It would not
if the leaf is itself a key of the last entry and the data is another text. -/
def KeepsEntries (elems : List Elem) (d : Json) : Prop :=
  ∀ above e rest, elems = above ++ e :: rest → ¬ Rekeys e rest d

end Edit

/-! ### The tree with the text -/

namespace Tree

/-- A text that is put at a leaf for bytes keeps the keys of an entry, unless the leaf is a key for
which the entry has another text. -/
theorem keepsTexts_of_not_rekeys (hnamed : KeysNamed m e)
    (hleaf : m.child? last.name = some (.leaf home .binary))
    (hkeeps : ¬ Edit.Rekeys e [last] (.str text)) :
    KeepsTexts m e inner (Members.insert inner (localName last.name) (.str text)) := by
  intro key hkey
  -- the write touches one member only: the key is either that member, and then the text is the one
  -- the path gives, or it is left as it is
  by_cases hname : localName last.name = key.1
  · have htext : text = key.2 := by
      by_contra hne
      refine hkeeps ⟨last, key.2, rfl, ?_, hne⟩
      rw [hname, Members.get?_of_mem e.sorted hkey]
    have hchild : m.child? key.1 = some (.leaf home .binary) := by
      rw [← hleaf, Node.child?, Node.child?, (hnamed key hkey).1, hname]
    refine .inr ⟨⟨.str text, ?_, fun home' kind c hchild' hc => ?_⟩, ?_⟩
    · rw [Members.get?_insert, if_pos hname]
    · cases Option.some.inj (hchild.symm.trans hchild')
      obtain rfl : Json.str text = c := Option.some.inj (Option.some.inj hc)
      exact htext
    · intro leaf kind hchild' hkind
      obtain rfl := Option.some.inj (hchild.symm.trans hchild')
      obtain rfl := Option.some.inj hkind
      exact isStored_binary _
  · exact .inl (by rw [Members.get?_insert, if_neg hname])

end Tree

/-- **What a path to a leaf for bytes finds** once a text has been put there and the tree has been
committed: the text, or nothing. The leaf is reached through entries that the write may have added,
whose keys change their spelling in the commit, so whether the path finds them again has to be
followed with it. -/
theorem Edit.lookup_of_modifyAt_binary {place : String} {parent : List Elem} {ms ms' cs : Object}
    {home' home'' : Option String} (hkeyed : n.Everywhere Node.KeyedAt)
    (hfree : n.Everywhere Schema.ColonFreeAt) (hms : Stands n false (.obj ms) (.obj ms))
    (hwalk : n.walk? home'' (parent ++ [last]) = some (.leaf home .binary, home'))
    (hkeeps : KeepsEntries (parent ++ [last]) (.str text))
    (h : Tree.modifyAt true (putInside .replace last place (.str text)) parent ms n
      = .ok (.ok (), ms')) (hcs : Stands n false (.obj ms') (.obj cs)) :
    (AddsStored n ms (parent ++ [last]) → lookup (parent ++ [last]) (.obj cs) n
      = .ok (some (.str text, .leaf home .binary))) ∧
    (¬ AddsStored n ms (parent ++ [last]) → lookup (parent ++ [last]) (.obj cs) n = .ok none) := by
  obtain ⟨m, homem, hwalkm, hlast⟩ := Node.exists_walk?_of_append hwalk
  have hm : n.below? parent = some m := Node.below?_of_walk? hwalkm
  obtain ⟨leaf, hleaf, howns, heq⟩ := Node.walk?_cons hlast
  obtain rfl := (Prod.mk.inj (Option.some.inj heq)).1
  have hplain : last.isKeyed = false := howns
  obtain ⟨children, hn, hname⟩ := Tree.get?_of_child? hleaf
  rw [← List.append_nil parent] at h
  obtain ⟨m', inner, inner', hchange, hinside⟩ := Tree.exists_changesAt h
  obtain rfl := Option.some.inj (hm.symm.trans hchange.below?)
  -- a leaf has no keys, so the text is put there as a member
  have hput := putInside_eq_ok_iff.1 (Except.ok.inj hinside)
  rw [putChild, hplain, if_neg Bool.false_ne_true] at hput
  obtain rfl : Members.insert inner (localName last.name) (.str text) = inner' :=
    Except.ok.inj hput
  have hnamed := Tree.named_of_walk? hkeyed hfree hwalkm
  -- the leaf may be a key of the entry that it is in, and then the text is the one that the entry
  -- has
  have htexts : ∀ e ∈ parent.getLast?, KeepsTexts m e inner
      (Members.insert inner (localName last.name) (.str text)) := by
    intro e he
    obtain ⟨above, rfl⟩ := List.getLast?_eq_some_iff.1 he
    refine Tree.keepsTexts_of_not_rekeys (hnamed.keysNamed hm) hleaf (hkeeps above e [last] ?_)
    rw [List.append_assoc, List.singleton_append]
  obtain ⟨-, entry, ks, hks, hon, hnowhere⟩ := hchange.lookup_cases hfree hnamed ⟨children, hn⟩
    htexts (Tree.heldInside_of_stands hms) hcs
  rw [Tree.addsStored_concat hplain]
  -- the last element adds no entry, so it is the path above that decides
  refine ⟨fun hadds => ?_, fun hnot => hnowhere hnot _⟩
  rw [hon hadds]
  -- the member stands for the text that it is
  obtain ⟨siblings, hshape, hchild⟩ := hks.exists_child hleaf
  have hget : get? (Members.insert inner (localName last.name) (.str text)) (localName last.name)
      = some (.str text) := by rw [Members.get?_insert, if_pos rfl]
  obtain ⟨c, hc, hstands⟩ := hks.member hshape hchild hget
  cases hstands with
  | leaf held fits =>
    obtain rfl : Json.str text = c := Option.some.inj (Option.some.inj held)
    refine Tree.lookup_cons_of_found (Tree.childSchema_of_ownsKeys hleaf howns) ?_ []
    rw [Tree.found?_of_not_isKeyed hplain, hc]

namespace Store

variable {st st' : Store} {home' : Option String} {base : Option Path} {now : Int64}
  {resp : SetResponse} {b : ByteArray}

/-- **What is found where bytes have been written**: the text that they are, or nothing, if the path
goes through an entry that has been added with a key that is not in stored form. -/
theorem lookup_set_bytes (h : Reachable st) (hfree : st.schema.ColonFree)
    (hr : st.reader.ReadsBack) (hd : st.device = none)
    (hset : st.set now (.single .replace base ⟨p, .bytes b⟩) = (.ok resp, st'))
    (hnode : st.schema.nodeAt (p.under base).elems = .ok (.leaf home .binary, home'))
    (hkeeps : Edit.KeepsEntries (p.under base).elems (.str (Text.decodeLossy b))) :
    (AddsStored st.schema.root st.members (p.under base).elems →
      lookup (p.under base).elems st'.tree st.schema.root
        = .ok (some (.str (Text.decodeLossy b), .leaf home .binary))) ∧
    (¬ AddsStored st.schema.root st.members (p.under base).elems →
      lookup (p.under base).elems st'.tree st.schema.root = .ok none) := by
  have hinv := h.invariant
  have hstands := hinv.stands hfree
  rw [h.tree_eq hfree] at hstands
  -- the copy that the write leaves stands for the configuration that is committed
  obtain ⟨d, ms', cs, hdata, hput, hheld, rfl⟩ := exists_stands_of_set_single h hfree hr hd hset
  obtain rfl := Except.ok.inj ((Edit.dataAt_bytes hr hnode b).symm.trans hdata)
  have hwalk := Edit.walk?_of_nodeAt hnode
  obtain ⟨children, hchildren⟩ := hinv.loaded.hasMembers
  cases hsplit : (p.under base).splitLast? with
  -- the root is no leaf
  | none =>
    rw [Edit.splitLast?_eq_none hsplit] at hwalk
    rw [(Prod.mk.inj (Option.some.inj hwalk)).1] at hchildren
    cases hchildren.1
  | some split =>
    obtain ⟨parent, last⟩ := split
    have hmodify := Edit.modifyAt_of_putAt hsplit hput
    rw [Edit.splitLast?_eq_some hsplit] at hwalk hkeeps ⊢
    exact Edit.lookup_of_modifyAt_binary hinv.loaded.keyed hfree hstands hwalk hkeeps hmodify hheld

/-! ### What is read -/

/-- The answer to a get of a path where a text is found. -/
def textAnswer (now : Int64) (base : Option Path) (p : Path) (text : String) : GetResponse :=
  ⟨[⟨now, base, [⟨p, .string text⟩], []⟩]⟩

theorem textAnswer_inj {now : Int64} {text text' : String}
    (h : textAnswer now base p text = textAnswer now base p text') : text = text' := by
  cases h
  rfl

/-- What is read where bytes have been written. The encoding makes no difference, because a leaf is
answered by a typed value. -/
theorem get_of_set_bytes (h : Reachable st) (hfree : st.schema.ColonFree)
    (hr : st.reader.ReadsBack) (hd : st.device = none)
    (hset : st.set now (.single .replace base ⟨p, .bytes b⟩) = (.ok resp, st'))
    (hleaf : st.schema.resolve? (p.under base).elems = some (.leaf home .binary))
    (hkeeps : Edit.KeepsEntries (p.under base).elems (.str (Text.decodeLossy b)))
    {encoding : Encoding} (hencoding : encoding ∈ encodings) (now' : Int64) :
    (AddsStored st.schema.root st.members (p.under base).elems →
      st'.get now' ⟨base, [p], .all, encoding, []⟩
        = .ok (textAnswer now' base p (Text.decodeLossy b))) ∧
    (¬ AddsStored st.schema.root st.members (p.under base).elems →
      st'.get now' ⟨base, [p], .all, encoding, []⟩
        = .error (.pathNotFound (p.under base).text)) := by
  obtain ⟨⟨target, home'⟩, hwalk, rfl⟩ := Option.map_eq_some_iff.1 hleaf
  have hnode : st.schema.nodeAt (p.under base).elems = .ok (.leaf home .binary, home') := by
    rw [Schema.nodeAt, hwalk]
  obtain ⟨hfinds, hmisses⟩ := lookup_set_bytes h hfree hr hd hset hnode hkeeps
  have hcontains := List.contains_iff_mem.2 hencoding
  -- the answer is read off the tree after the request, everything else of the store being the same
  obtain ⟨tree, -, rfl⟩ := (set_eq_ok_iff hd h.invariant.poisoned).1 ⟨resp, hset⟩
  constructor
  · intro hadds
    have hvalue : Store.valueAt { st with tree } encoding [] (p.under base)
        = .ok (.string (Text.decodeLossy b)) := by
      rw [valueAt, hfinds hadds]
      rfl
    exact get_of_valueAt hcontains hvalue h.invariant.poisoned now'
  · intro hnot
    have hvalue : Store.valueAt { st with tree } encoding [] (p.under base)
        = .error (.pathNotFound (p.under base).text) := by
      rw [valueAt, hmisses hnot]
    exact get_of_valueAt_error hcontains hvalue h.invariant.poisoned now'

/-- **Bytes that are written to a leaf are told apart by their texts.** In a reachable store without
a device, two sets have succeeded from the same state. Each has replaced the same leaf for bytes,
and none of them has made an entry on the path another one. If the keys of the entries that the path
adds are in stored form, a get of the path answers the text of the bytes that have been written. So
it answers the same after both just if the texts are the same, and then, if the bytes are not, the
text has a replacement character. If the keys are not in stored form, the get fails after both. -/
theorem get_set_bytes (h : Reachable st) (hfree : st.schema.ColonFree) (hr : st.reader.ReadsBack)
    (hd : st.device = none) {st₁ st₂ : Store} {b₁ b₂ : ByteArray} {now₁ now₂ : Int64}
    {resp₁ resp₂ : SetResponse}
    (hleaf : st.schema.resolve? (p.under base).elems = some (.leaf home .binary))
    (hset₁ : st.set now₁ (.single .replace base ⟨p, .bytes b₁⟩) = (.ok resp₁, st₁))
    (hset₂ : st.set now₂ (.single .replace base ⟨p, .bytes b₂⟩) = (.ok resp₂, st₂))
    (hkeeps₁ : Edit.KeepsEntries (p.under base).elems (.str (Text.decodeLossy b₁)))
    (hkeeps₂ : Edit.KeepsEntries (p.under base).elems (.str (Text.decodeLossy b₂)))
    {encoding : Encoding} (hencoding : encoding ∈ encodings) (now : Int64) :
    let q : GetRequest := ⟨base, [p], .all, encoding, []⟩
    (AddsStored st.schema.root st.members (p.under base).elems →
      st₁.get now q = .ok (textAnswer now base p (Text.decodeLossy b₁)) ∧
      st₂.get now q = .ok (textAnswer now base p (Text.decodeLossy b₂)) ∧
      (st₁.get now q = st₂.get now q ↔ Text.decodeLossy b₁ = Text.decodeLossy b₂) ∧
      (b₁ ≠ b₂ → st₁.get now q = st₂.get now q →
        Text.replacement ∈ (Text.decodeLossy b₁).toList)) ∧
    (¬ AddsStored st.schema.root st.members (p.under base).elems →
      st₁.get now q = .error (.pathNotFound (p.under base).text) ∧
      st₂.get now q = .error (.pathNotFound (p.under base).text)) := by
  intro q
  obtain ⟨hfinds₁, hmisses₁⟩ := get_of_set_bytes h hfree hr hd hset₁ hleaf hkeeps₁ hencoding now
  obtain ⟨hfinds₂, hmisses₂⟩ := get_of_set_bytes h hfree hr hd hset₂ hleaf hkeeps₂ hencoding now
  refine ⟨fun hadds => ?_, fun hnot => ⟨hmisses₁ hnot, hmisses₂ hnot⟩⟩
  have hfirst : st₁.get now q = .ok (textAnswer now base p (Text.decodeLossy b₁)) := hfinds₁ hadds
  have hsecond : st₂.get now q = .ok (textAnswer now base p (Text.decodeLossy b₂)) := hfinds₂ hadds
  -- the answers differ in the text only
  have hsame : st₁.get now q = st₂.get now q ↔ Text.decodeLossy b₁ = Text.decodeLossy b₂ := by
    rw [hfirst, hsecond]
    exact ⟨fun heq => textAnswer_inj (Except.ok.inj heq), fun heq => by rw [heq]⟩
  refine ⟨hfirst, hsecond, hsame, fun hne heq => ?_⟩
  by_contra hnone
  exact hne (Text.eq_of_decodeLossy_eq (hsame.1 heq) hnone)

/-! ### A certificate that is lost -/

/-- A device with a certificate. -/
def certSchema : Schema where
  models := []
  root := .container none [("cert", .leaf none .binary)]

/-- A store of that device, without one. -/
def certStore : Store := ⟨certSchema, .nearest, none, .obj [], [], false⟩

/-- The place of the certificate. -/
def cert : Path := Path.ofElems [Elem.plain "cert"]

theorem loaded_certSchema : certSchema.Loaded := by
  refine ⟨.nearest, certSchema.toJson.render, ?_⟩
  rw [Schema.load, Json.Term.parse?_render]
  rfl

theorem colonFree_certSchema : certSchema.ColonFree := by decide

theorem reachable_certStore : Reachable certStore := by
  have hnew : Store.new certSchema .nearest none none = (.ok certStore, []) := rfl
  exact .new loaded_certSchema hnew

/-- Any bytes can be written there. -/
theorem set_cert (b : ByteArray) : ∃ resp st', certStore.set 0
    (.single .replace none ⟨cert, .bytes b⟩) = (.ok resp, st') := by
  have hdata : Edit.dataAt certSchema .nearest (cert.under none) (.bytes b)
      = .ok (.str (Text.decodeLossy b)) := Edit.dataAt_bytes Json.Reader.readsBack_nearest rfl b
  generalize Text.decodeLossy b = text at hdata
  have hstands : certSchema.root.Stands false (.obj [("cert", .str text)])
      (.obj [("cert", .str text)]) := by
    have hconform : certSchema.root.conform "/" false (.obj [("cert", .str text)])
        = .ok (.obj [("cert", .str text)]) := rfl
    have hvalid : certSchema.root.validate "/" false (.obj [("cert", .str text)]) = .ok () := rfl
    exact Node.stands_of_conform colonFree_certSchema hconform hvalid
  have hput : Edit.putAt certSchema .replace (cert.under none) (.str text) certStore.members
      = .ok [("cert", .str text)] := rfl
  have hset : ∃ resp, certStore.set 0 (.single .replace none ⟨cert, .bytes b⟩)
      = (.ok resp, { certStore with tree := .obj [("cert", .str text)] }) :=
    set_single_of_stands loaded_certSchema colonFree_certSchema Json.Reader.readsBack_nearest rfl
      rfl rfl hdata hput hstands 0
  obtain ⟨resp, hset⟩ := hset
  exact ⟨resp, _, hset⟩

/-- Two certificates that are not UTF-8 are read as the same text. -/
theorem get_set_cert : ∃ resp₁ st₁ resp₂ st₂,
    certStore.set 0 (.single .replace none ⟨cert, .bytes ⟨#[255]⟩⟩) = (.ok resp₁, st₁) ∧
    certStore.set 0 (.single .replace none ⟨cert, .bytes ⟨#[254]⟩⟩) = (.ok resp₂, st₂) ∧
    st₁.get 1 ⟨none, [cert], .all, .json, []⟩ = .ok (textAnswer 1 none cert "\uFFFD") ∧
    st₁.get 1 ⟨none, [cert], .all, .json, []⟩ = st₂.get 1 ⟨none, [cert], .all, .json, []⟩ := by
  obtain ⟨resp₁, st₁, hset₁⟩ := set_cert ⟨#[255]⟩
  obtain ⟨resp₂, st₂, hset₂⟩ := set_cert ⟨#[254]⟩
  have hkeeps : ∀ d, Edit.KeepsEntries (cert.under none).elems d := by
    rintro d above e rest helems ⟨last, text, rfl, -⟩
    have hlength := congrArg List.length helems
    simp [cert, Path.ofElems, Path.under] at hlength
  have hadds : AddsStored certStore.schema.root certStore.members (cert.under none).elems := by
    refine fun below hbelow => ⟨fun _ key hkey => ?_, trivial⟩
    cases hkey
  have hfirst : Text.decodeLossy ⟨#[255]⟩ = "\uFFFD" := by decide
  have hsecond : Text.decodeLossy ⟨#[254]⟩ = "\uFFFD" := by decide
  obtain ⟨hfinds, -⟩ := get_set_bytes reachable_certStore colonFree_certSchema
    Json.Reader.readsBack_nearest rfl rfl hset₁ hset₂ (hkeeps _) (hkeeps _)
    (List.mem_cons_self : Encoding.json ∈ encodings) 1
  obtain ⟨hget, -, hsame, -⟩ := hfinds hadds
  exact ⟨resp₁, st₁, resp₂, st₂, hset₁, hset₂, hfirst ▸ hget, hsame.2 (hfirst.trans hsecond.symm)⟩

end Store

end ConfigTree
