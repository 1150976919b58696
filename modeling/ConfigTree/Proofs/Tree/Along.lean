import ConfigTree.Proofs.Tree.Change

/-!
# Edits as changes

Going down to the end of a path, editing there and coming back up makes the same of a configuration
as a change along the path does.

* `exists_modifyAt_prune`: taking out what a path leads to, and pruning along the path, cuts it off.
* `along_cut_of_lookup_ne`: there is nothing to cut off where a path leads nowhere.
* `cuts_along`: what is cut off is gone, with the containers above it that are empty then.
* `EndsAt`: what a path needs that a change can take it.
* `exists_modifyAt_put`: a write below a path puts something at its end. The tree has what is added
  on the way as the path gives it, and stands for the document that has it in held form.
* `lookup_along_put`: what has been put is found.
-/

namespace ConfigTree.Tree

open ConfigTree.Path (Elem)
open Members (get? Sorted)
open Schema (Node)
open Schema.Node (Alike Form Formed Stands)

variable {F : Form} {n child below : Node} {entry : Bool} {e last : Elem} {ms cs inner : Object}
  {parent p : List Elem} {value : Option Json → Json}

/-- What a change makes of what the first element of a longer path selects. -/
theorem Change.along_cons_concat (c : Change) (parent : List Elem) (last : Elem)
    (hchild : n.child? e.name = some child) (ms : Object) :
    c.along (e :: parent ++ [last]) n ms = alterFound e
      (c.through e.keys (heldKeys child e.keys) (c.along (parent ++ [last]) child)) ms := by
  rw [List.cons_append, Change.along_cons hchild]
  cases parent with
  | nil => rfl
  | cons f parent => rfl

/-! ### Deletion -/

section

variable {β : Type} {g : Object → Node → β × Object} {out : β}

/-- What is left of a container or an entry is put back, or the container goes if it is empty. The
code takes out first and prunes in a second pass, so what it puts back in between is seen here and
forgotten. -/
theorem alterFound_through_cut {inside : Object → Object} {fresh changed : Object} (hs : Sorted ms)
    (hfound : found? ms e = some (.obj inner)) (hinner : inner ≠ [])
    (hselected : SelectedBy e (.obj changed)) :
    (if (inside inner).isEmpty && !e.isKeyed
      then Members.erase (setFound e (.obj changed) ms) (localName e.name)
      else setFound e (.obj (inside inner)) (setFound e (.obj changed) ms))
      = alterFound e (Change.cut.through e.keys fresh inside) ms := by
  have hsome : inner.isEmpty = false := List.isEmpty_eq_false_iff.2 hinner
  have hkeys : (!e.isKeyed) = e.keys.isEmpty := Bool.not_not _
  rw [alterFound, hfound, Change.through_cut_some, hsome, Bool.not_false, Bool.and_true, hkeys]
  -- a container that is left empty goes with its member, an entry never does
  split
  · next hgone =>
    have he : e.isKeyed = false := by
      rw [Elem.isKeyed, (Bool.and_eq_true_iff.1 hgone).2]
      rfl
    rw [putFound_none_of_found hfound, dropFound_of_not_isKeyed he, setFound_of_not_isKeyed he,
      Members.erase_insert hs]
  · exact setFound_setFound hselected

/-- A path that goes on and leads somewhere goes on from an object with members. -/
theorem exists_inner_of_lookup {v : Json} {rest : List Elem} {place : Json × Node}
    (hrest : rest ≠ []) (h : lookup rest v child = .ok (some place)) :
    ∃ inner, v = .obj inner ∧ inner ≠ [] := by
  obtain ⟨f, rest, rfl⟩ := List.exists_cons_of_ne_nil hrest
  obtain ⟨inner, rfl⟩ := exists_obj_of_lookup h
  obtain ⟨v, -, -, hfound, -⟩ := exists_found_of_lookup h
  refine ⟨inner, rfl, ?_⟩
  rintro rfl
  cases hfound.symm.trans (found?_of_none rfl)

/-- **A deletion below a path and pruning along it** cut off what the path leads to. The induction
is on the path. It needs that the first pass keeps the keys of entries, or pruning would go another
way than the deletion has gone. -/
theorem exists_modifyAt_prune {home : Option String} {found : Node × Option String}
    {place : Json × Node} (hg : Drops g out last) (hkeyed : n.Everywhere Node.KeyedAt)
    (h : Formed F n entry (.obj ms)) (hF : F.keys) (hF' : F.lists)
    (hpath : n.walk? home (parent ++ [last]) = some found)
    (hkey : ¬ EndsInKey n (parent ++ [last]))
    (hlookup : lookup (parent ++ [last]) (.obj ms) n = .ok (some place)) :
    ∃ changed, modifyAt false g parent ms n = .ok (out, changed) ∧
      prune parent changed n = .ok (Change.cut.along (parent ++ [last]) n ms) := by
  induction parent generalizing n entry ms home with
  | nil =>
    obtain ⟨v, below, hschema, hfound, -⟩ := exists_found_of_lookup hlookup
    have hdrop := (hg ms n _).2 ⟨Option.isSome_of_eq_some hfound, rfl⟩
    refine ⟨_, congrArg Except.ok hdrop, ?_⟩
    rw [List.nil_append, Change.along_cons (child?_of_childSchema hschema), alterFound]
    exact congrArg Except.ok (putFound_none_of_found hfound).symm
  | cons e parent ih =>
    obtain ⟨v, below, hschema, hfound, hrest⟩ := exists_found_of_lookup hlookup
    obtain ⟨inner, rfl, hne⟩ := exists_inner_of_lookup
      (List.append_ne_nil_of_right_ne_nil parent (List.cons_ne_nil last [])) hrest
    obtain ⟨c, hchild, howns, hpath⟩ := Node.walk?_cons hpath
    obtain rfl := Option.some.inj ((child?_of_childSchema hschema).symm.trans hchild)
    obtain ⟨children, hn, hname⟩ := get?_of_child? hchild
    have hkeyed' := hkeyed.child hn hname
    have hinner := formed_found h hschema hfound
    have hsorted := ((Schema.Node.formed_object_iff hn).1 h).2.1
    have hkey' : ¬ EndsInKey below (parent ++ [last]) := fun hends => hkey (hends.cons hchild)
    obtain ⟨changed, hmodify, hprune⟩ := ih hkeyed' hinner hpath hkey' hrest
    -- the keys are left alone, so the element selects the same entry when it is pruned
    obtain ⟨hchanged, hkeeps⟩ := formed_drop hg hkeyed' hinner (fun _ => hkey') hmodify
    have hselected : SelectedBy e (.obj changed) := fun _ =>
      (hkeeps hF).hasKeys howns (hasKeys_of_found? hfound)
    have hms := formed_setFound h hschema hfound hchanged fun hF _ hkeys =>
      (hkeeps hF).keyTuple hkeys
    have hlist := NamesList.of_formed h hF' hschema
    have hlist' := NamesList.of_formed hms hF' hschema
    have hfound' : found? (setFound e (.obj changed) ms) e = some (.obj changed) :=
      found?_setFound hselected
    refine ⟨setFound e (.obj changed) ms, ?_, ?_⟩
    · rw [modifyAt_of_found hschema hlist hfound, hmodify]
      rfl
    · rw [prune_of_found hschema hlist' hfound', hprune, Change.along_cons_concat _ _ _ hchild,
        ← alterFound_through_cut hsorted hfound hne hselected]
      rfl

end

/-- **Where a path leads nowhere there is nothing to cut off.** A container on the way that is empty
stays, since nothing has been taken out of it. -/
theorem along_cut_of_lookup_ne {home : Option String} {found : Node × Option String}
    (h : Formed F n entry (.obj ms)) (hpath : n.walk? home p = some found)
    (hmissing : ∀ place, lookup p (.obj ms) n ≠ .ok (some place)) :
    Change.cut.along p n ms = ms := by
  induction p generalizing n entry ms home with
  | nil => rfl
  | cons e rest ih =>
    obtain ⟨child, hchild, -, hpath⟩ := Node.walk?_cons hpath
    obtain ⟨children, hn, -⟩ := get?_of_child? hchild
    have hsorted := ((Schema.Node.formed_object_iff hn).1 h).2.1
    cases hfound : found? ms e with
    | none => exact Change.along_cut_of_missing hchild hfound
    | some v =>
      obtain ⟨below, hschema⟩ := exists_childSchema_of_found h hfound
      obtain rfl := Option.some.inj (hchild.symm.trans (child?_of_childSchema hschema))
      rw [lookup_cons_of_found hschema hfound] at hmissing
      rw [Change.along_cons hchild, alterFound, hfound]
      cases rest with
      | nil => exact absurd rfl (hmissing (v, child))
      | cons f rest =>
        -- what is found here is put back as it is
        have hsame : Change.cut.below (f :: rest) e.keys child (some v) = some v := by
          rw [Change.below_cons]
          cases v with
          | obj inner =>
            rw [Change.through_cut_some, ih (formed_found h hschema hfound) hpath hmissing,
              Bool.and_not_self, Bool.false_and, if_neg Bool.false_ne_true]
          | _ => rfl
        rw [hsame]
        exact setFound_found hsorted hfound

/-- A change at a path that does not end in a key keeps the keys of entries. -/
theorem keepsKeys_along {c : Change} {home : Option String} {found : Node × Option String}
    (hkeyed : n.KeyedAt) (hpath : n.walk? home p = some found) (hkey : ¬ EndsInKey n p) :
    KeepsKeys n ms (c.along p n ms) := by
  refine Change.keepsKeys_of_noKey fun e he keys hkeys hmem => ?_
  obtain ⟨rest, rfl⟩ := List.head?_eq_some_iff.1 he
  -- a key is a leaf, so the path would end there
  obtain ⟨child, hchild, -, hrest⟩ := Node.walk?_cons hpath
  obtain rfl := eq_nil_of_isKey hkeyed hkeys hmem hchild hrest
  exact hkey ⟨[], e, n, keys, rfl, rfl, hkeys, hmem⟩

/-- What is cut off inside a container or an entry is gone, and so is a container that this leaves
empty. An entry is never empty, for it has its keys. -/
theorem Cuts.through {inside : Object → Object} {fresh : Object}
    (hcuts : Cuts below p inner (inside inner)) (hschema : childSchema n e = .ok below)
    (hfound : found? ms e = some (.obj inner)) (hinner : inner ≠ [])
    (hselected : SelectedBy e (.obj (inside inner))) :
    Cuts n (e :: p) ms
      (putFound e (Change.cut.through e.keys fresh inside (some (.obj inner))) ms) := by
  have hsome : inner.isEmpty = false := List.isEmpty_eq_false_iff.2 hinner
  rw [Change.through_cut_some, hsome, Bool.not_false, Bool.and_true]
  split
  · next hgone =>
    obtain ⟨hnil, hkeys⟩ := Bool.and_eq_true_iff.1 hgone
    have he : e.isKeyed = false := by
      rw [Elem.isKeyed, hkeys]
      rfl
    refine .there hschema hfound hcuts (.inr ⟨?_, List.isEmpty_iff.1 hnil⟩) fun f hapart => ?_
    · exact found?_putFound (fun v hv => by cases hv) fun he' => by cases he.symm.trans he'
    · rcases hapart with hne | ⟨-, key, text, text', htext, -⟩
      · exact found?_congr (get?_putFound_of_ne (Ne.symm hne))
      · cases he.symm.trans (isKeyed_of_get? htext)
  · next hleft =>
    refine .there hschema hfound hcuts (.inl ⟨found?_setFound hselected, fun hnil => ?_⟩)
      fun f hapart => found?_setFound_of_apart hselected hapart
    -- an entry is not empty, since it has its keys
    rw [hnil, List.isEmpty_nil, Bool.true_and, List.isEmpty_iff] at hleft
    rw [hnil] at hselected
    obtain ⟨pair, hpair⟩ := List.exists_mem_of_ne_nil _ hleft
    have he : e.isKeyed = true := isKeyed_of_get? (Members.get?_of_mem e.sorted hpair)
    cases List.all_eq_true.1 (hselected he) pair hpair

/-- **What is cut off is gone**, and the containers above it that are empty then. The path has all
keys of its lists and does not end in a key, as a request does that means one node. -/
theorem cuts_along {home : Option String} {found : Node × Option String} {place : Json × Node}
    (hkeyed : n.Everywhere Node.KeyedAt) (h : Formed F n entry (.obj ms)) (hF : F.keys)
    (hp : p ≠ []) (hpath : n.walk? home p = some found) (hfull : SelectsEntries n p)
    (hkey : ¬ EndsInKey n p) (hlookup : lookup p (.obj ms) n = .ok (some place)) :
    Cuts n p ms (Change.cut.along p n ms) := by
  induction p generalizing n entry ms home with
  | nil => exact absurd rfl hp
  | cons e rest ih =>
    obtain ⟨v, below, hschema, hfound, hrest⟩ := exists_found_of_lookup hlookup
    obtain ⟨c, hchild, howns, hpath⟩ := Node.walk?_cons hpath
    obtain rfl := Option.some.inj ((child?_of_childSchema hschema).symm.trans hchild)
    rw [Change.along_cons hchild, alterFound, hfound]
    cases rest with
    | nil =>
      change Cuts n [e] ms (putFound e none ms)
      rw [putFound_none_of_found hfound]
      refine .here hschema (found?_dropFound h hF hschema hfound fun he => ?_) fun f hf hapart => ?_
      · exact (hfull below hchild).1.resolve_left fun hplain => by cases he.symm.trans hplain.2
      · exact found?_dropFound_of_apart h hF hschema hfound hf hapart
    | cons f rest =>
      obtain ⟨inner, rfl, hne⟩ := exists_inner_of_lookup (List.cons_ne_nil f rest) hrest
      obtain ⟨children, hn, hname⟩ := get?_of_child? hchild
      have hkeyed' := hkeyed.child hn hname
      have hkey' : ¬ EndsInKey below (f :: rest) := fun hends => hkey (hends.cons hchild)
      have hcuts := ih hkeyed' (formed_found h hschema hfound) (List.cons_ne_nil f rest) hpath
        (hfull below hchild).2 hkey' hrest
      -- the keys are left alone, so the element selects what is left
      have hselected : SelectedBy e (.obj (Change.cut.along (f :: rest) below inner)) := fun _ =>
        (keepsKeys_along hkeyed'.here hpath hkey').hasKeys howns (hasKeys_of_found? hfound)
      exact hcuts.through hschema hfound hne hselected

/-! ### Writing -/

/-- A path ends at a child `target` of the node `m`. It leads to `m` through containers and through
entries that it selects, and its last element selects what it names, which is no key of an entry.
The two parts of the path are kept apart because a write goes down to `m` and makes its change
there. -/
structure EndsAt (n : Node) (above : List Elem) (last : Elem) (m target : Node) : Prop where
  below : n.below? above = some m
  leads : Leads n above m
  child : m.child? last.name = some target
  selects : last.isKeyed = true → Selects target last
  noKey : ∀ keys, m.listKeys? = some keys → localName last.name ∉ keys

/-- So does a path that has a node in the schema, selects entries and does not end in a key. -/
theorem exists_endsAt {home : Option String} {found : Node × Option String}
    (hkeyed : n.Everywhere Node.KeyedAt) (hfree : n.Everywhere Schema.ColonFreeAt)
    (h : n.walk? home (parent ++ [last]) = some found)
    (hselects : SelectsEntries n (parent ++ [last]))
    (htexts : EachKey IsKeyText n (parent ++ [last])) (hkey : ¬ EndsInKey n (parent ++ [last])) :
    ∃ m, EndsAt n parent last m found.1 := by
  obtain ⟨m, hm, hleads, hchild, hsel⟩ := leads_of_walk? hkeyed hfree h hselects htexts
  exact ⟨m, hm, hleads, hchild, hsel, fun keys hkeys hmem =>
    hkey ⟨parent, last, m, keys, rfl, hm, hkeys, hmem⟩⟩

theorem Leads.fits {c : Change} (h : Leads n parent below) (hlast : c.Fits below [last]) :
    c.Fits n (parent ++ [last]) := by
  induction h with
  | here => exact hlast
  | @step n child below children e rest hchild members selects leads ih =>
    cases rest with
    | nil => exact .step hchild members selects (ih hlast)
    | cons f rest => exact .step hchild members selects (ih hlast)

/-- A change can take such a path, if the last element selects what it puts. -/
theorem EndsAt.fits {m target : Node} {c : Change} (h : EndsAt n parent last m target)
    (hselected : ∀ found, ∀ v ∈ c.last found, SelectedBy last v) : c.Fits n (parent ++ [last]) :=
  h.leads.fits (.last h.child h.noKey h.selects hselected)

/-- Nothing is found inside what is added for an element, if a change goes on there. -/
theorem lookup_heldKeys {f : Elem} {rest : List Elem} {c : Change} (hkeyed : child.KeyedAt)
    (hsel : e.isKeyed = true → Selects child e) (h : c.Fits child (f :: rest)) :
    lookup (f :: rest) (.obj (heldKeys child e.keys)) child = .ok none := by
  obtain ⟨below, hbelow, hsel'⟩ := h.exists_child
  have hschema := childSchema_eq hbelow fun hf => (hsel' hf).fit
  exact lookup_cons_of_missing hschema
    (found?_of_none (get?_heldKeys_of_not_mem hsel fun _ hkeys => h.noKey hkeyed hkeys)) rest

/-- **What has been put is found**, and it has been made of what was found before. Where nothing was
found, an entry or a container has been added above, and what was there before is nothing still. -/
theorem lookup_along_put (hkeyed : n.Everywhere Node.KeyedAt)
    (hcs : Formed .valid n entry (.obj cs)) (h : Change.Fits (.put value) n p)
    (hp : n.below? p = some below) : ∃ found : Option Json,
      lookup p (.obj cs) n = .ok (found.map fun v => (v, below)) ∧
      lookup p (.obj ((Change.put value).along p n cs)) n = .ok (some (value found, below)) := by
  induction p generalizing n entry cs with
  | nil => cases h
  | cons e rest ih =>
    have hfits := id h
    obtain ⟨child, hchild, hsel⟩ := h.exists_child
    have hschema := childSchema_eq hchild fun he => (hsel he).fit
    have hselected : ∀ v ∈ (Change.put value).below rest e.keys child (found? cs e),
        SelectedBy e v := h.selected hkeyed hchild Change.selectedBy_of_found
    rw [Node.below?_cons hchild] at hp
    rw [Change.along_cons hchild, alterFound]
    cases h with
    | last =>
      obtain rfl := Option.some.inj hp
      refine ⟨found? cs e, ?_, lookup_cons_of_found hschema (found?_setFound (hselected _ rfl)) []⟩
      cases hfound : found? cs e with
      | none => exact lookup_cons_of_missing hschema hfound []
      | some v => exact lookup_cons_of_found hschema hfound []
    | @step _ child' children _ f rest hchild' members selects fits =>
      obtain rfl := Option.some.inj (hchild.symm.trans hchild')
      obtain ⟨siblings, hn, hname⟩ := get?_of_child? hchild
      have hkeyed' := hkeyed.child hn hname
      rw [Change.below_cons] at hselected ⊢
      cases hfound : found? cs e with
      | none =>
        -- the element is added with its keys, and the path goes on from nothing else
        obtain ⟨found, hbefore, hafter⟩ := ih hkeyed'
          (Schema.Node.formed_of_stands (stands_heldKeys members selects).1) fits hp
        rw [lookup_heldKeys hkeyed'.here selects fits] at hbefore
        obtain rfl : found = none := Option.map_eq_none_iff.1 (Except.ok.inj hbefore).symm
        rw [hfound, Change.through_put_none] at hselected
        refine ⟨none, lookup_cons_of_missing hschema hfound _, ?_⟩
        rw [Change.through_put_none, putFound,
          lookup_cons_of_found hschema (found?_setFound (hselected _ rfl)), hafter]
      | some v =>
        have hinner := formed_found hcs hschema hfound
        obtain ⟨inner, rfl⟩ := hinner.eq_obj members
        obtain ⟨found, hbefore, hafter⟩ := ih hkeyed' hinner fits hp
        rw [hfound, Change.through_put_some] at hselected
        refine ⟨found, (lookup_cons_of_found hschema hfound _).trans hbefore, ?_⟩
        rw [Change.through_put_some, putFound,
          lookup_cons_of_found hschema (found?_setFound (hselected _ rfl)), hafter]

/-- **A write below a path** puts something at its end, in the document that the tree stands for. -/
theorem exists_modifyAt_put {β : Type} {f : Object → Node → β × Object} {out : β}
    (hleads : Leads n parent below) (hlast : Change.Fits (.put value) below [last])
    (hkeyed : n.Everywhere Node.KeyedAt) (hfree : n.Everywhere Schema.ColonFreeAt)
    (hs : Stands n entry (.obj ms) (.obj cs)) (ha : Alike n (.obj ms) (.obj cs))
    (hf : ∀ entry ms cs, Stands below entry (.obj ms) (.obj cs) → Alike below (.obj ms) (.obj cs) →
      ∃ ms', f ms below = (out, ms') ∧
        Stands below entry (.obj ms') (.obj ((Change.put value).along [last] below cs))) :
    ∃ ms', modifyAt true f parent ms n = .ok (out, ms') ∧
      Stands n entry (.obj ms') (.obj ((Change.put value).along (parent ++ [last]) n cs)) := by
  induction hleads generalizing entry ms cs with
  | here =>
    obtain ⟨ms', hout, hstands⟩ := hf entry ms cs hs ha
    exact ⟨ms', by rw [modifyAt, hout], hstands⟩
  | @step n child below children e rest hchild members selects leads ih =>
    obtain ⟨siblings, hn, hname⟩ := get?_of_child? hchild
    have hkeyed' := hkeyed.child hn hname
    -- what the step opens in the tree stands for what the change opens in the document
    obtain ⟨c, inner, held, hstep, hopened⟩ := descend_opened hfree hs ha hchild members selects
    have hthrough : ∀ inside : Object → Object,
        (Change.put value).through e.keys (heldKeys child e.keys) inside (found? cs e)
          = some (.obj (inside held)) := by
      intro inside
      rcases hopened.found with hfound | ⟨hnone, rfl⟩
      · rw [hfound, Change.through_put_some]
      · rw [hnone, Change.through_put_none]
    obtain ⟨inner', hmodify, hstands⟩ :=
      ih hlast hkeyed' (hfree.child hn hname) hopened.stands hopened.alike hf
    have hselected := ((leads.fits hlast).keepsKeys hkeyed'.here).hasKeys
      (ownsKeys_of_selects selects) hopened.selected
    refine ⟨setFound e (.obj inner') ms, ?_, ?_⟩
    · simp only [modifyAt, hstep, hopened.value, hmodify, Except.map, (descend_cases hstep).2.put]
    · rw [Change.along_cons_concat _ _ _ hchild, alterFound, hthrough]
      exact stands_setFound hs ha hchild selects hstands fun _ => hselected

end ConfigTree.Tree
