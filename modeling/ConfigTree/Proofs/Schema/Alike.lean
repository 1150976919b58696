import ConfigTree.Proofs.Schema.Stands

/-!
# Trees that differ in the form of their scalars only

While edits are applied, the working copy has the keys of new entries in the form that the text of
a path gives them, and only a commit brings them into their held form. `Node.Alike` relates the
working copy to the tree with held forms: the shape is the same, scalars have the same text and the
same held form, and the held form has that text too. The last part is what the matching of keys
needs, and it is where the texts of a path have to be in stored form.

* `Alike.stands`: trees that are alike stand for the same document, and are alike to it.
* `Alike.of_stands`: a tree that stands for itself is alike to itself.
* `Alike.tidy`: such trees have their members in order, so the checks accept them only if they stand
  for what they are held as.
-/

namespace ConfigTree.Schema.Node

open Members (get? Sorted SameNames InStep)

/-- Data of a node in two forms, which are told apart by neither the keys nor the checks. A leaf may
have two forms, as long as their text and their held form are the same and the held form has that
text; a leaf-list may not, for no path makes one. The two sides have the same members and as many
entries, in the same order, and nothing is asked of keys. -/
inductive Alike : Node → Json → Json → Prop
  | leaf {home : Option String} {kind : ScalarKind} {w v : Json} (scalar : w.isScalar = true)
      (scalar' : v.isScalar = true) (text : keyString w = keyString v)
      (held : coerce? kind w = coerce? kind v)
      (stable : ∀ c, coerce? kind w = some (some c) → keyString c = keyString w) :
      Alike (.leaf home kind) w v
  | leafList {home : Option String} {kind : ScalarKind} {xs : List Json}
      (scalars : ∀ x ∈ xs, x.isScalar = true)
      (stable : ∀ x ∈ xs, ∀ c, coerce? kind x = some (some c) → c = x) :
      Alike (.leafList home kind) (.arr xs) (.arr xs)
  | object {n : Node} {children : List (String × Node)} {ms vs : List (String × Json)}
      (shape : n.children? = some children) (sorted : Sorted ms) (sorted' : Sorted vs)
      (names : SameNames ms vs)
      (known : ∀ (name : String) (w : Json), get? ms name = some w → (get? children name).isSome)
      (members : ∀ (name : String) (child : Node) (w v : Json), get? children name = some child →
        get? ms name = some w → get? vs name = some v → Alike child w v) :
      Alike n (.obj ms) (.obj vs)
  | list {home : Option String} {keys : List String} {children : List (String × Node)}
      {xs ys : List Json} (length : xs.length = ys.length)
      (items : ∀ (i : Nat) (x y : Json), xs[i]? = some x → ys[i]? = some y →
        Alike (.list home keys children) x y) :
      Alike (.list home keys children) (.arr xs) (.arr ys)

variable {n child : Node} {entry : Bool} {w v c : Json} {name : String}
  {home : Option String} {kind : ScalarKind} {keys : List String}
  {children : List (String × Node)} {ms vs : List (String × Json)} {xs ys : List Json}

/-- The relation does not say which side is the working copy. -/
theorem Alike.symm (h : Alike n w v) : Alike n v w := by
  induction h with
  | leaf scalar scalar' text held stable =>
    exact .leaf scalar' scalar text.symm held.symm fun c hc => text ▸ stable c (held.trans hc)
  | leafList scalars stable => exact .leafList scalars stable
  | object shape sorted sorted' names known members ih =>
    refine .object shape sorted' sorted names.symm (fun name v hv => ?_) ?_
    · obtain ⟨w, hw⟩ := names.symm.exists_right hv
      exact known name w hw
    · exact fun name child v w hchild hv hw => ih name child w v hchild hw hv
  | list length items ih => exact .list length.symm fun i y x hy hx => ih i x y hx hy

/-! ### What the cases say -/

theorem Alike.eq_obj (h : Alike n (.obj ms) v) : ∃ vs, v = .obj vs := by
  cases h with
  | leaf scalar => cases scalar
  | object => exact ⟨_, rfl⟩

theorem Alike.exists_children (h : Alike n (.obj ms) v) : ∃ cs, n.children? = some cs := by
  cases h with
  | leaf scalar => cases scalar
  | object shape => exact ⟨_, shape⟩

theorem Alike.sameNames (h : Alike n (.obj ms) (.obj vs)) : SameNames ms vs := by
  cases h with
  | leaf scalar => cases scalar
  | object shape sorted sorted' names => exact names

theorem alike_object_iff (hn : n.children? = some children) :
    Alike n (.obj ms) (.obj vs) ↔ InStep Alike children ms vs := by
  constructor
  · intro h
    cases h with
    | leaf scalar => cases scalar
    | object shape sorted sorted' names known members =>
      obtain rfl := Option.some.inj (hn.symm.trans shape)
      exact ⟨sorted, sorted', names, known, members⟩
  · exact fun h => .object hn h.sorted h.sorted' h.names h.known h.members

/-- The member that is alike to a member of a known node. -/
theorem Alike.member (h : Alike n (.obj ms) (.obj vs)) (hn : n.children? = some children)
    (hchild : get? children name = some child) (hw : get? ms name = some w) :
    ∃ v, get? vs name = some v ∧ Alike child w v :=
  ((alike_object_iff hn).1 h).exists_right hchild hw

/-- Lists are alike entry by entry, in the same order. -/
theorem alike_list_iff : Alike (.list home keys children) (.arr xs) (.arr ys) ↔
    List.Forall₂ (Alike (.list home keys children)) xs ys := by
  rw [forall₂_iff_getElem?]
  constructor
  · intro h
    cases h with
    | list length items => exact ⟨length, items⟩
  · exact fun ⟨length, items⟩ => .list length items

/-- Data of a list is an array of entries on both sides, or an object on both sides. -/
theorem Alike.cases_list (h : Alike (.list home keys children) w v) :
    (∃ xs ys, w = .arr xs ∧ v = .arr ys ∧
      List.Forall₂ (Alike (.list home keys children)) xs ys) ∨
      ∃ ms vs, w = .obj ms ∧ v = .obj vs := by
  cases h with
  | object => exact .inr ⟨_, _, rfl, rfl⟩
  | list length items => exact .inl ⟨_, _, rfl, rfl, alike_list_iff.1 (.list length items)⟩

/-- A leaf has the same text in objects that are alike. -/
theorem Alike.text (h : Alike n (.obj ms) (.obj vs)) (hn : n.children? = some children)
    (hleaf : get? children name = some (.leaf home kind)) :
    (get? ms name).map keyString = (get? vs name).map keyString := by
  cases hw : get? ms name with
  | none =>
    rw [h.sameNames.eq_none hw]
  | some w =>
    obtain ⟨v, hv, halike⟩ := h.member hn hleaf hw
    rw [hv]
    cases halike with
    | leaf scalar scalar' text => simp only [Option.map_some, text]
    | object shape => cases shape

/-- Entries that are alike have the same keys, since keys are leaves and compared by their texts. So
a path selects the same entries on either side. -/
theorem Alike.keyTuple (hkeyed : (Node.list home keys children).KeyedAt)
    (h : Alike (.list home keys children) (.obj ms) (.obj vs)) :
    keyTuple keys (.obj ms) = keyTuple keys (.obj vs) := by
  rw [Node.keyTuple, Node.keyTuple, List.map_inj_left]
  intro key hkey
  obtain ⟨_, kind, hleaf⟩ := (hkeyed keys children rfl rfl).2 key hkey
  exact h.text rfl hleaf

/-- Such data has its members in order, on either side. -/
theorem Alike.tidy (h : Alike n w v) : Tidy n w := by
  induction h with
  | leaf scalar => exact .value rfl (Json.normal_of_isScalar scalar)
  | leafList scalars =>
    exact .value rfl (Json.normalList_iff.2 fun x hx => Json.normal_of_isScalar (scalars x hx))
  | object shape sorted sorted' names known members ih =>
    refine .object shape sorted known fun name child w hchild hw => ?_
    -- each member on the left has its like on the right
    obtain ⟨v, hv⟩ := names.exists_right hw
    exact ih name child w v hchild hw hv
  | list length items ih =>
    refine .list fun x hx => ?_
    obtain ⟨i, hi⟩ := List.getElem?_of_mem hx
    obtain ⟨y, hy⟩ := exists_getElem?_of_length length hi
    exact ih i x y hi hy

/-! ### Trees that stand for a document -/

/-- **What stands for a document is alike to itself**, once it is in its held form. A leaf is stable
there: held once more, it is the same. -/
theorem Alike.of_stands (hfree : n.Everywhere ColonFreeAt) (h : Stands n entry w c) :
    Alike n c c := by
  induction h with
  | leaf held fits =>
    have hc := coerce?_of_isOfKind (hfree.here.2 _ rfl) fits
    have hscalar := isScalar_of_coerce? hc
    refine .leaf hscalar hscalar rfl rfl fun c' hc' => ?_
    rw [Option.some.inj (Option.some.inj (hc.symm.trans hc'))]
  | leafList held fits =>
    have hcs : ∀ c ∈ _, coerce? _ c = some (some c) := fun c hmem =>
      coerce?_of_isOfKind (hfree.here.2 _ rfl) (fits c hmem)
    refine .leafList (fun c hmem => isScalar_of_coerce? (hcs c hmem)) fun c hmem c' hc' => ?_
    exact (Option.some.inj (Option.some.inj ((hcs c hmem).symm.trans hc'))).symm
  | object shape sorted sorted' names known members ih =>
    refine .object shape.1 sorted' sorted' (fun _ => rfl) (fun name c hc => ?_) ?_
    -- a member of the document is there because it has one that stands for it
    · obtain ⟨w, hw⟩ := names.symm.exists_right hc
      exact known name w hw
    · intro name child c c' hchild hc hc'
      obtain rfl := Option.some.inj (hc.symm.trans hc')
      obtain ⟨w, hw⟩ := names.symm.exists_right hc
      exact ih name child w c hchild hw hc (hfree.child shape.1 hchild)
  | list length entries keyed distinct ih =>
    refine .list rfl fun i c c' hc hc' => ?_
    obtain rfl := Option.some.inj (hc.symm.trans hc')
    obtain ⟨w, hw⟩ := exists_getElem?_of_length length.symm hc
    exact ih i w c hw hc hfree

/-- **Trees that are alike stand for the same document**, and are alike to it. So the working copy
may be replaced by the tree with held forms, and a commit does just that. The induction is on the
relation between the trees, for whatever the second one stands for. -/
theorem Alike.stands (hfree : n.Everywhere ColonFreeAt) (h : Alike n w v)
    (hv : Stands n entry v c) : Stands n entry w c ∧ Alike n w c := by
  induction h generalizing entry c with
  | leaf scalar scalar' text held stable =>
    cases hv with
    -- both forms have the same held form, so either may be put in the place of the other
    | leaf held' fits =>
      have hw := held.trans held'
      have hc := coerce?_of_isOfKind (hfree.here.2 _ rfl) fits
      refine ⟨.leaf hw fits, ?_⟩
      exact .leaf scalar (isScalar_of_coerce? hc) (stable c hw).symm (hw.trans hc.symm) stable
    | object shape => cases shape.1
  | leafList scalars stable =>
    cases hv with
    | leafList held fits =>
      -- a leaf-list that is stable is in its held form
      have heq : List.Forall₂ Eq _ _ := (List.forall₂_iff_zip.2 ⟨held.length_eq, fun {x c} hmem =>
        (stable x (List.of_mem_zip hmem).1 c (List.forall₂_zip held hmem)).symm⟩)
      rw [List.forall₂_eq_eq_eq] at heq
      subst heq
      exact ⟨.leafList held fits, .leafList scalars stable⟩
  | @object n children ms vs shape sorted sorted' names known members ih =>
    cases hv with
    | leaf held fits => cases isScalar_of_coerce? held
    | @object _ _ _ _ cs shape' _ csorted cnames cknown cmembers =>
      obtain rfl := Option.some.inj (shape.symm.trans shape'.1)
      have hnames : SameNames ms cs := fun key => (names key).trans (cnames key)
      have hmember : ∀ name child w c, get? children name = some child → get? ms name = some w →
          get? cs name = some c → Stands child false w c ∧ Alike child w c := by
        intro name child w c hchild hw hc
        obtain ⟨v, hv⟩ := names.exists_right hw
        have hstands := cmembers name child v c hchild hv hc
        exact ih name child w v hchild hw hv (hfree.child shape hchild) hstands
      refine ⟨.object shape' sorted csorted hnames known ?_, .object shape sorted csorted hnames
        known ?_⟩
      · exact fun name child w c hchild hw hc => (hmember name child w c hchild hw hc).1
      · exact fun name child w c hchild hw hc => (hmember name child w c hchild hw hc).2
  | @list home keys children xs ys length items ih =>
    cases hv with
    | @list _ _ _ _ cs length' entries keyed distinct =>
      have hentry : ∀ (i : Nat) (x c : Json), xs[i]? = some x → cs[i]? = some c →
          Stands (.list home keys children) true x c ∧ Alike (.list home keys children) x c := by
        intro i x c hx hc
        obtain ⟨y, hy⟩ := exists_getElem?_of_length length hx
        exact ih i x y hx hy hfree (entries i y c hy hc)
      refine ⟨.list (length.trans length') ?_ keyed distinct, .list (length.trans length') ?_⟩
      · exact fun i x c hx hc => (hentry i x c hx hc).1
      · exact fun i x c hx hc => (hentry i x c hx hc).2

end ConfigTree.Schema.Node
