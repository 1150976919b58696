import ConfigTree.Proofs.Schema.Marshal
import ConfigTree.Proofs.Schema.Stands

/-!
# Documents are held as what they are made of

A document names members plainly or with the modules they come from. Either way the checks hold it
as what the data stands for: a name loses its module again, and the order of the members does not
matter.

* `localName_memberName`: the name of a member without its module, if neither has a colon.
* `conform_emit`: the document of data is held as what the data stands for.
* `depth_emit_le`, `normal_emit`: the document is as deep as the data at most, and in normal form.
-/

namespace ConfigTree

namespace Schema

open Members (get? Sorted SameNames)

/-- The module that a node itself names has no colon. A reader takes what is in front of the first
colon for the module, so a name with one would come apart at the wrong place. -/
def HomeFreeAt (n : Node) : Prop := ∀ m ∈ n.home, ':' ∉ m.toList

instance : DecidablePred HomeFreeAt := fun n =>
  inferInstanceAs (Decidable (∀ m ∈ n.home, ':' ∉ m.toList))

/-- No name of a module has a colon. -/
def HomeFree (s : Schema) : Prop := s.root.Everywhere HomeFreeAt

instance (s : Schema) : Decidable s.HomeFree :=
  inferInstanceAs (Decidable (s.root.Everywhere HomeFreeAt))

variable {naming : Naming} {n : Node} {home : Option String} {top entry : Bool} {w c : Json}
  {children : List (String × Node)} {ms : List (String × Json)}

/-! ### Names -/

/-- **The name of a member without its module is its own name.** It does not matter whether the
document names the module, nor which one it is. -/
theorem localName_memberName {outer : Option String} {name : String}
    (hhome : ∀ m ∈ home, ':' ∉ m.toList) (hname : ':' ∉ name.toList) :
    localName (memberName naming top outer home name) = name := by
  unfold memberName
  split
  · next m =>
    split
    -- what follows the first colon is the name
    · have hchars : (s!"{m}:{name}").toList = m.toList ++ ':' :: name.toList := by
        change (m ++ ":" ++ name).toList = _
        simp [String.toList_append]
      have hm : ∀ c ∈ m.toList, (c != ':') = true := by
        intro c hc
        simpa using fun heq : c = ':' => hhome m rfl (heq ▸ hc)
      rw [localName, localChars, hchars, List.dropWhile_append_of_pos hm]
      simp
    · exact localName_of_not_mem hname
  · exact localName_of_not_mem hname

/-! ### Members and entries of a document -/

namespace Node

/-- A member of data as a member of its document. -/
def emitMember (naming : Naming) (home : Option String) (top : Bool)
    (children : List (String × Node)) (m : String × Json) : String × Json :=
  match get? children m.1 with
  | none => m
  | some child => (memberName naming top home (child.home.or home) m.1,
      emit naming (child.home.or home) false false child m.2)

theorem emitMembers_eq_map (ms : List (String × Json)) :
    emitMembers naming home top children ms = ms.map (emitMember naming home top children) := by
  induction ms with
  | nil => rfl
  | cons m ms ih =>
    obtain ⟨name, j⟩ := m
    rw [emitMembers, ih]
    -- either form tells a member that the schema has from one that it does not have
    refine congrArg (fun m => m :: ms.map (emitMember naming home top children)) ?_
    unfold emitMember
    cases get? children name with
    | none => rfl
    | some child => rfl

theorem emitEntries_eq_map (xs : List Json) :
    emitEntries naming home top n xs = xs.map (emit naming home top true n) := by
  induction xs with
  | nil => rfl
  | cons x xs ih => rw [emitEntries, ih, List.map_cons]

theorem isNull_emit (j : Json) : (emit naming home top entry n j).isNull = j.isNull := by
  cases j with
  | obj ms =>
    rw [emit]
    split <;> rfl
  | arr xs =>
    rw [emit]
    split <;> rfl
  | _ => rfl

theorem emit_of_isScalar {j : Json} (h : j.isScalar = true) :
    emit naming home top entry n j = j := by
  cases j with
  | arr xs => cases h
  | obj ms => cases h
  | _ => rfl

/-! ### Depth and order -/

/-- **A document is no deeper than its data.** It may be less deep, if two members of data came to
have one name; the schema keeps that from happening, but the bound does not need it. -/
theorem depth_emit_le (j : Json) : (emit naming home top entry n j).depth ≤ j.depth := by
  induction j using Json.induction_on generalizing n home top entry with | step j ih =>
  cases j with
  | obj ms =>
    cases hn : n.children? with
    | none => simp only [emit, hn, Nat.le_refl]
    | some children =>
      simp only [emit, hn, emitMembers_eq_map]
      -- each member of the document comes from one of the data, which is as deep at least
      refine Nat.succ_le_succ (Json.depthMembers_le fun m hm => ?_)
      obtain ⟨m', hm', rfl⟩ := List.mem_map.1 (Members.mem_of_mem_ofList hm)
      refine Nat.le_trans ?_ (Json.le_depthMembers hm')
      unfold emitMember
      split
      · exact Nat.le_refl _
      · exact ih _ (List.mem_map_of_mem hm')
  | arr xs =>
    rw [emit, emitEntries_eq_map]
    split
    · refine Nat.succ_le_succ (Json.depthList_le fun x hx => ?_)
      obtain ⟨x', hx', rfl⟩ := List.mem_map.1 hx
      exact Nat.le_trans (ih x' hx') (Json.le_depthList hx')
    · exact Nat.le_refl _
  | _ => exact Nat.le_refl _

/-- **The document of data in normal form is in normal form**: its members have been ordered by
their names, which have modules in front and so may be in another order than those of the data. -/
theorem normal_emit {j : Json} (h : j.Normal) : (emit naming home top entry n j).Normal := by
  -- on the document, for any node: what the schema does not know is emitted as it is
  induction j using Json.induction_on generalizing n home top entry with | step j ih =>
  cases j with
  | obj ms =>
    cases hn : n.children? with
    | none => simpa only [emit, hn] using h
    | some children =>
      simp only [emit, hn, emitMembers_eq_map]
      refine ⟨Members.sorted_ofList _, Json.normalMembers_iff.2 fun m hm => ?_⟩
      obtain ⟨m', hm', rfl⟩ := List.mem_map.1 (Members.mem_of_mem_ofList hm)
      have hm'' := Json.normalMembers_iff.1 h.2 m' hm'
      unfold emitMember
      split
      · exact hm''
      · exact ih _ (List.mem_map_of_mem hm') hm''
  | arr xs =>
    have hxs := Json.normalList_iff.1 h
    rw [emit, emitEntries_eq_map]
    split
    · refine Json.normalList_iff.2 fun x hx => ?_
      obtain ⟨x', hx', rfl⟩ := List.mem_map.1 hx
      exact ih x' hx' (hxs x' hx')
    · exact h
  | _ => exact h

/-! ### What a document is held as -/

/-- The members of the document are held as those that the members stand for. Three things come
together: a name loses its module again, names that differ without their modules differ with them,
so that no member is lost, and putting members in order does not change what they are held as. -/
theorem exists_held_of_emit {path : String} {cs : List (String × Json)} (hfree : ColonFreeAt n)
    (hn : n.children? = some children)
    (hhomes : ∀ name child, get? children name = some child → ∀ m ∈ child.home, ':' ∉ m.toList)
    (hhome : ∀ m ∈ home, ':' ∉ m.toList) (sorted : Sorted ms) (sorted' : Sorted cs)
    (names : SameNames ms cs)
    (known : ∀ name w, get? ms name = some w → (get? children name).isSome)
    (held : ∀ name child w c, get? children name = some child → get? ms name = some w →
      get? cs name = some c → w.isNull = false ∧ conform (memberPath path name) false child
        (emit naming (child.home.or home) false false child w) = .ok c) :
    ∃ out, List.Forall₂ (MemberHeld path children)
        (Members.ofList (ms.map (emitMember naming home top children))) out ∧
      Members.ofList out = cs := by
  have hname : ∀ {name child}, get? children name = some child →
      localName (memberName naming top home (child.home.or home) name) = name := by
    intro name child hchild
    have hmem : (name, child) ∈ n.children?.getD [] := by
      rw [hn]
      exact Members.mem_of_get? hchild
    refine localName_memberName (fun m hm => ?_) (hfree.1 _ hmem)
    rcases Option.or_eq_some_iff.1 hm with hm | ⟨-, hm⟩
    · exact hhomes _ _ hchild m hm
    · exact hhome m hm
  -- one by one, in the order of the data
  have hheld : List.Forall₂ (MemberHeld path children)
      (ms.map (emitMember naming home top children)) cs := by
    rw [List.forall₂_map_left_iff]
    refine (Members.forall₂_get?_of_sameNames sorted sorted' names).imp fun m c ⟨heq, hm, hc⟩ => ?_
    obtain ⟨child, hchild⟩ := Option.isSome_iff_exists.1 (known _ _ hm)
    obtain ⟨hnull, hconform⟩ := held _ _ _ _ hchild hm hc
    rw [emitMember, hchild]
    refine ⟨by rw [hname hchild, heq], by rw [isNull_emit, hnull], child, heq ▸ hchild, ?_⟩
    rw [← heq]
    exact hconform
  -- names stay apart, since they do without their modules
  have hnodup : ((ms.map (emitMember naming home top children)).map Prod.fst).Nodup := by
    refine List.Nodup.of_map localName ?_
    have hnames : List.Forall₂ (fun a b => a = b)
        (((ms.map (emitMember naming home top children)).map Prod.fst).map localName)
        (cs.map Prod.fst) := by
      rw [List.map_map, List.forall₂_map_left_iff, List.forall₂_map_right_iff]
      exact hheld.imp fun _ _ h => h.1.symm
    rw [List.forall₂_eq_eq_eq] at hnames
    exact hnames ▸ Members.nodup_names sorted'
  exact Members.exists_forall₂_ofList hnodup sorted' hheld

/-- **The document of data is held as what the data stands for**, whatever its names are. For data
that stands for itself, the document is held as the data. -/
theorem conform_emit (hfree : n.Everywhere ColonFreeAt) (hhomes : n.Everywhere HomeFreeAt)
    (hhome : ∀ m ∈ home, ':' ∉ m.toList) (h : Stands n entry w c) (path : String) :
    conform path entry n (emit naming home top entry n w) = .ok c := by
  -- `home` and `top` change on the way down, so the induction is for all of them
  induction h generalizing home top path with
  | leaf held fits =>
    rw [emit_of_isScalar (isScalar_of_coerce? held), conform_leaf, canonicalScalar_eq_ok_iff]
    exact held
  | @leafList mod kind entry xs cs held fits =>
    have hemit : emit naming home top entry (.leafList mod kind) (.arr xs) = .arr xs := rfl
    rw [hemit]
    exact conform_leafList_iff.2 ⟨_, _, rfl, held, rfl⟩
  | @object n entry children ms cs shape sorted sorted' names known members ih =>
    have hemit : emit naming home top entry n (.obj ms)
        = .obj (Members.ofList (ms.map (emitMember naming home top children))) := by
      simp only [emit, shape.1, emitMembers_eq_map]
    obtain ⟨out, hout, hcs⟩ : ∃ out, List.Forall₂ (MemberHeld path children)
        (Members.ofList (ms.map (emitMember naming home top children))) out ∧
        Members.ofList out = cs := by
      refine exists_held_of_emit hfree.here shape.1
        (fun name child hchild => (hhomes.child shape.1 hchild).here) hhome sorted sorted' names
        known fun name child w c hchild hw hc => ?_
      refine ⟨(members name child w c hchild hw hc).isNull, ?_⟩
      -- the module of a member is its own or the one around it, and neither has a colon
      refine ih name child w c hchild hw hc (hfree.child shape.1 hchild)
        (hhomes.child shape.1 hchild) (fun m hm => ?_) _
      rcases Option.or_eq_some_iff.1 hm with hm | ⟨-, hm⟩
      · exact (hhomes.child shape.1 hchild).here m hm
      · exact hhome m hm
    rw [hemit, conform_object_iff shape]
    exact ⟨_, out, rfl, hout, by rw [hcs]⟩
  | @list mod keys children xs cs length entries keyed distinct ih =>
    have hemit : emit naming home top false (.list mod keys children) (.arr xs)
        = .arr (xs.map (emit naming home top true (.list mod keys children))) := by
      rw [emit, emitEntries_eq_map]
      rfl
    rw [hemit, conform_list_iff]
    refine ⟨_, cs, rfl, ?_, rfl⟩
    rw [List.forall₂_map_left_iff, forall₂_iff_getElem?]
    exact ⟨length, fun i x c hx hc => ih i x c hx hc hfree hhomes hhome _⟩

end Node

end Schema

end ConfigTree
