import ConfigTree.Proofs.Tree.Listing

/-!
# Trees without what holds no leaf

A container or a list may be there without any leaf in it. `trim` leaves such ones out of a tree,
and keeps everything else as it is and where it is. Entries of a list are kept in any case: those of
a valid tree have keys, which are leaves.

* `leaves_eq_nil_iff`: what holds no leaf is where no leaf is listed.
* `get?_trimMembers`: what is left of the members of an object.
* `keepsKeys_trimMembers`: an entry keeps its keys.
* `leaves_trim`, `holdsLeaf_of_mem_trimMembers`: all leaves are left, and nothing that holds none.
-/

namespace ConfigTree.Tree

open ConfigTree.Path (Elem)
open Members (get? Sorted)
open Schema (Node)

mutual

/-- Whether there is a leaf or a leaf-list in the data of a node. What the schema does not know
holds none, as nothing is listed there. -/
def holdsLeaf (n : Node) : Json → Bool
  | .obj ms => n.isLeaf || membersHoldLeaf n ms
  | .arr xs => n.isLeaf || entriesHoldLeaf n xs
  | _ => n.isLeaf

def entriesHoldLeaf (n : Node) : List Json → Bool
  | [] => false
  | .obj ms :: rest => membersHoldLeaf n ms || entriesHoldLeaf n rest
  | _ :: rest => entriesHoldLeaf n rest

def membersHoldLeaf (n : Node) : Object → Bool
  | [] => false
  | (name, j) :: rest =>
    (match n.child? name with
      | some child => holdsLeaf child j
      | none => false) || membersHoldLeaf n rest

end

mutual

/-- The data of a node without the containers and lists in it that hold no leaf. The node itself
stays, even if it holds none: it is its parent that leaves it out. -/
def trim (n : Node) : Json → Json
  | .obj ms => if n.isLeaf then .obj ms else .obj (trimMembers n ms)
  | .arr xs => if n.isLeaf then .arr xs else .arr (trimEntries n xs)
  | j => j

def trimEntries (n : Node) : List Json → List Json
  | [] => []
  | .obj ms :: rest => .obj (trimMembers n ms) :: trimEntries n rest
  | j :: rest => j :: trimEntries n rest

def trimMembers (n : Node) : Object → Object
  | [] => []
  | (name, j) :: rest =>
    match n.child? name with
    | some child =>
      if holdsLeaf child j then (name, trim child j) :: trimMembers n rest
      else trimMembers n rest
    | none => (name, j) :: trimMembers n rest

end

variable {n child : Node} {name : String} {ms : Object} {w : Json} {keys : List String}
  {children : List (String × Node)}

/-! ### Where no leaf is listed -/

mutual

/-- **Data holds no leaf if none is listed in it.** The recursion of the one is that of the other.
The place has a last element, as the listing of a list takes it off. -/
theorem leaves_eq_nil_iff (place : List Elem) (e : Elem) : ∀ (n : Node) (w : Json),
    leaves (place ++ [e]) n w = [] ↔ holdsLeaf n w = false
  | n, .obj ms => by
    rw [holdsLeaf]
    cases h : n.isLeaf with
    | true => simp [leaves_of_isLeaf h]
    | false =>
      rw [leaves_obj h, Bool.false_or]
      exact memberLeaves_eq_nil_iff (place ++ [e]) n ms
  | n, .arr xs => by
    rw [holdsLeaf]
    cases h : n.isLeaf with
    | true => simp [leaves_of_isLeaf h]
    | false =>
      rw [leaves, h, List.getLast?_concat, List.dropLast_concat, Bool.false_or]
      exact entryLeaves_eq_nil_iff place e.name n xs
  -- data without members is a leaf or holds none
  | n, .null | n, .bool _ | n, .num _ | n, .str _ => by
    cases h : n.isLeaf <;> simp [holdsLeaf, leaves, h]

theorem entryLeaves_eq_nil_iff (place : List Elem) (name : String) :
    ∀ (n : Node) (xs : List Json), entryLeaves place name n xs = [] ↔ entriesHoldLeaf n xs = false
  | _, [] => by simp [entryLeaves, entriesHoldLeaf]
  | n, .obj ms :: rest => by
    rw [entryLeaves, entriesHoldLeaf, List.append_eq_nil_iff, memberLeaves_eq_nil_iff,
      entryLeaves_eq_nil_iff, Bool.or_eq_false_iff]
  | n, .arr _ :: rest | n, .null :: rest | n, .bool _ :: rest | n, .num _ :: rest
  | n, .str _ :: rest => by
    simp only [entryLeaves, entriesHoldLeaf, entryLeaves_eq_nil_iff place name n rest]

theorem memberLeaves_eq_nil_iff (place : List Elem) :
    ∀ (n : Node) (ms : Object), memberLeaves place n ms = [] ↔ membersHoldLeaf n ms = false
  | _, [] => by simp [memberLeaves, membersHoldLeaf]
  | n, (name, j) :: rest => by
    rw [memberLeaves, membersHoldLeaf, List.append_eq_nil_iff, memberLeaves_eq_nil_iff,
      Bool.or_eq_false_iff]
    cases n.child? name with
    | none => simp
    | some child => exact and_congr_left' (leaves_eq_nil_iff place (Elem.plain name) child j)

end

/-! ### What is left -/

theorem holdsLeaf_of_isLeaf (h : n.isLeaf = true) (w : Json) : holdsLeaf n w = true := by
  cases w <;> simp [holdsLeaf, h]

theorem trim_of_isLeaf (h : n.isLeaf = true) (w : Json) : trim n w = w := by
  cases w <;> simp [trim, h]

theorem trim_obj (h : n.isLeaf = false) : trim n (.obj ms) = .obj (trimMembers n ms) := by
  rw [trim, h]
  rfl

theorem mem_trimMembers {m : String × Json} (h : m ∈ trimMembers n ms) :
    ∃ w, (m.1, w) ∈ ms := by
  induction ms with
  | nil => cases h
  | cons o ms ih =>
    obtain ⟨name, j⟩ := o
    have hrest : m ∈ trimMembers n ms → ∃ w, (m.1, w) ∈ (name, j) :: ms := by
      intro hm
      obtain ⟨w, hw⟩ := ih hm
      exact ⟨w, List.mem_cons_of_mem _ hw⟩
    rw [trimMembers] at h
    split at h
    · split at h
      · rcases List.mem_cons.1 h with rfl | hm
        · exact ⟨j, List.mem_cons_self⟩
        · exact hrest hm
      · exact hrest h
    · rcases List.mem_cons.1 h with rfl | hm
      · exact ⟨j, List.mem_cons_self⟩
      · exact hrest hm

/-- What is left of the members is in order. -/
theorem sorted_trimMembers (h : Sorted ms) : Sorted (trimMembers n ms) := by
  induction ms with
  | nil => exact Members.sorted_nil
  | cons o ms ih =>
    obtain ⟨name, j⟩ := o
    obtain ⟨hlt, hs⟩ := Members.sorted_cons.1 h
    have hcons : ∀ j', Sorted ((name, j') :: trimMembers n ms) := by
      -- the names are a sublist of those before, whichever members are dropped
      intro j'
      refine Members.sorted_cons.2 ⟨fun m hm => ?_, ih hs⟩
      obtain ⟨w, hw⟩ := mem_trimMembers hm
      exact hlt (m.1, w) hw
    rw [trimMembers]
    split
    · split
      · exact hcons _
      · exact ih hs
    · exact hcons _

/-- **What is left of a member**, if it holds a leaf: the member without what holds none in it. The
members have to be in order, for otherwise a second member of the name, left when the first is left
out, would be found in its place. -/
theorem get?_trimMembers (hs : Sorted ms) (hchild : n.child? name = some child) :
    get? (trimMembers n ms) name = ((get? ms name).filter (holdsLeaf child)).map (trim child) := by
  induction ms with
  | nil => rfl
  | cons o ms ih =>
    obtain ⟨key, j⟩ := o
    obtain ⟨hlt, hs⟩ := Members.sorted_cons.1 hs
    rw [trimMembers, Members.get?_cons]
    by_cases hkey : key = name
    -- no other member has the name, so nothing of it is left if this one is left out
    · subst hkey
      have hnone : get? (trimMembers n ms) key = none := by
        rw [ih hs, Members.get?_eq_none_of_lt hlt]
        rfl
      rw [hchild, if_pos rfl]
      dsimp only
      cases hleaf : holdsLeaf child j with
      | true => simp [Members.get?_cons, Option.filter, hleaf]
      | false => simp [hnone, Option.filter, hleaf]
    · rw [if_neg hkey, ← ih hs]
      split
      · split
        · rw [Members.get?_cons, if_neg hkey]
        · rfl
      · rw [Members.get?_cons, if_neg hkey]

/-- A leaf is left. -/
theorem get?_trimMembers_of_isLeaf (hs : Sorted ms) (hchild : n.child? name = some child)
    (hleaf : child.isLeaf = true) : get? (trimMembers n ms) name = get? ms name := by
  have htrim : trim child = id := funext (trim_of_isLeaf hleaf)
  have hholds : holdsLeaf child = fun _ => true := funext (holdsLeaf_of_isLeaf hleaf)
  rw [get?_trimMembers hs hchild, htrim, hholds, Option.map_id]
  cases get? ms name with
  | none => rfl
  | some w => rfl

/-- The keys of a list are leaves, so what is left has them. -/
theorem get?_trimMembers_of_key (hkeyed : n.KeyedAt) (hnames : Schema.NamesFreeAt n)
    (hn : n.children? = some children) (hkeys : n.listKeys? = some keys) (hkey : name ∈ keys)
    (hs : Sorted ms) : get? (trimMembers n ms) name = get? ms name := by
  obtain ⟨home, kind, hleaf⟩ := (hkeyed keys children hkeys hn).2 name hkey
  exact get?_trimMembers_of_isLeaf hs (hnames.child? hn hleaf) rfl

/-- **An entry keeps its keys.** So the elements that select the entries of a list, and the order
and number of the entries, are those from before. -/
theorem keepsKeys_trimMembers (hkeyed : n.KeyedAt) (hnames : Schema.NamesFreeAt n)
    (hn : n.children? = some children) (hs : Sorted ms) : KeepsKeys n ms (trimMembers n ms) :=
  fun _ hkeys _ hkey => get?_trimMembers_of_key hkeyed hnames hn hkeys hkey hs

/-! ### Every leaf is left -/

section

variable {place : List Elem} {entry : Bool} {xs : List Json}

theorem memberLeaves_trimMembers (h : ∀ o ∈ ms, ∀ child, n.child? o.1 = some child →
      leaves (place ++ [Elem.plain o.1]) child (trim child o.2)
        = leaves (place ++ [Elem.plain o.1]) child o.2) :
    memberLeaves place n (trimMembers n ms) = memberLeaves place n ms := by
  induction ms with
  | nil => rw [trimMembers]
  | cons o ms ih =>
    obtain ⟨name, j⟩ := o
    obtain ⟨hhere, hrest⟩ := List.forall_mem_cons.1 h
    have ih := ih hrest
    rw [trimMembers, memberLeaves]
    cases hchild : n.child? name with
    | none =>
      dsimp only
      rw [memberLeaves, hchild, ih]
    | some child =>
      dsimp only
      cases hholds : holdsLeaf child j with
      | false =>
        -- what is left out has no leaves
        have hnone := (leaves_eq_nil_iff place (Elem.plain name) child j).2 hholds
        rw [if_neg Bool.false_ne_true, ih, hnone, List.nil_append]
      | true =>
        rw [if_pos rfl, memberLeaves, hchild, ih]
        exact congrArg (· ++ memberLeaves place n ms) (hhere child hchild)

theorem entryLeaves_trimEntries (hkeys : n.listKeys? = some keys)
    (helem : ∀ inner, .obj inner ∈ xs →
      entryElem name keys (trimMembers n inner) = entryElem name keys inner)
    (h : ∀ inner, .obj inner ∈ xs → ∀ place,
      memberLeaves place n (trimMembers n inner) = memberLeaves place n inner) :
    entryLeaves place name n (trimEntries n xs) = entryLeaves place name n xs := by
  induction xs with
  | nil => rw [trimEntries]
  | cons x xs ih =>
    have ih := ih (fun inner hx => helem inner (List.mem_cons_of_mem _ hx))
      fun inner hx => h inner (List.mem_cons_of_mem _ hx)
    cases x with
    | obj inner =>
      rw [trimEntries, entryLeaves, entryLeaves, ih, hkeys, Option.getD_some,
        helem inner List.mem_cons_self, h inner List.mem_cons_self]
    | _ => simp only [trimEntries, entryLeaves, ih]

/-- **Every leaf is left, at its place.** The leaves of valid data are those of what is left of it,
in their order. The two parts are for the two ways in which a node is met: an entry has no place of
its own but the element that its list makes for it, so of it the first part speaks and lists the
leaves of its members at any place; what stands at an element of a path is the second part's. -/
theorem leaves_trim (hkeyed : n.Everywhere Node.KeyedAt) (hnames : n.Everywhere Schema.NamesFreeAt)
    (hvalid : Schema.Node.Valid n entry w) :
    (∀ ms, n.isLeaf = false → w = .obj ms → ∀ place,
      memberLeaves place n (trimMembers n ms) = memberLeaves place n ms) ∧
    (entry = false → ∀ place e,
      leaves (place ++ [e]) n (trim n w) = leaves (place ++ [e]) n w) := by
  induction hvalid with
  | leaf fits =>
    refine ⟨fun ms hleaf => ?_, fun _ place e => by rw [trim_of_isLeaf rfl]⟩
    cases hleaf
  | leafList fits =>
    refine ⟨fun ms hleaf => ?_, fun _ place e => by rw [trim_of_isLeaf rfl]⟩
    cases hleaf
  | @object n entry children ms shape sorted known members ih =>
    have hleaf := isLeaf_eq_false shape.1
    -- the members that are left have their leaves by induction
    have hmembers : ∀ place, memberLeaves place n (trimMembers n ms) = memberLeaves place n ms := by
      refine fun place => memberLeaves_trimMembers fun o ho child hchild => ?_
      have hw := Members.get?_of_mem sorted ho
      obtain ⟨child', hchild'⟩ := Option.isSome_iff_exists.1 (known o.1 o.2 hw)
      obtain rfl := Option.some.inj
        (hchild.symm.trans (hnames.here.child? shape.1 hchild'))
      exact (ih o.1 child o.2 hchild' hw (hkeyed.child shape.1 hchild')
        (hnames.child shape.1 hchild')).2 rfl place (Elem.plain o.1)
    refine ⟨fun ms' _ hms => ?_, fun _ place e => ?_⟩
    · obtain rfl := Json.obj.inj hms
      exact hmembers
    · rw [trim_obj hleaf, leaves_obj hleaf, leaves_obj hleaf, hmembers]
  -- the element of an entry is made of its keys, which are all left, so its leaves keep their
  -- places
  | @list home keys children xs entries keyed distinct ih =>
    refine ⟨fun ms _ hms => (by cases hms), fun _ place e => ?_⟩
    have helem : ∀ inner, Json.obj inner ∈ xs →
        entryElem e.name keys (trimMembers (.list home keys children) inner)
          = entryElem e.name keys inner := fun inner hx =>
      (keepsKeys_trimMembers hkeyed.here hnames.here rfl
        ((entries _ hx).exists_child .list).1).entryElem rfl e.name
    have hmembers : ∀ inner, Json.obj inner ∈ xs → ∀ place,
        memberLeaves place (.list home keys children)
            (trimMembers (.list home keys children) inner)
          = memberLeaves place (.list home keys children) inner := fun inner hx =>
      (ih _ hx hkeyed hnames).1 inner rfl rfl
    have htrim : trim (.list home keys children) (.arr xs)
        = .arr (trimEntries (.list home keys children) xs) := by
      rw [trim]
      rfl
    rw [htrim, leaves, leaves, List.getLast?_concat, List.dropLast_concat]
    exact entryLeaves_trimEntries rfl helem hmembers

/-- **Nothing is left but what holds a leaf.** What is left has been trimmed itself, so that it held
a leaf before does not say at once that it still does: it has the same leaves. -/
theorem holdsLeaf_of_mem_trimMembers (hkeyed : n.Everywhere Node.KeyedAt)
    (hnames : n.Everywhere Schema.NamesFreeAt) (hvalid : Schema.Node.Valid n entry (.obj ms))
    (hn : n.HasMembers entry children) {o : String × Json} (ho : o ∈ trimMembers n ms)
    (hchild : get? children o.1 = some child) : holdsLeaf child o.2 = true := by
  obtain ⟨hsorted, hmembers⟩ := hvalid.exists_child hn
  have hget := get?_trimMembers hsorted (hnames.here.child? hn.1 hchild)
  rw [Members.get?_of_mem (sorted_trimMembers hsorted) ho] at hget
  obtain ⟨w, hw, htrim⟩ := Option.map_eq_some_iff.1 hget.symm
  obtain ⟨hw, hholds⟩ := Option.filter_eq_some_iff.1 hw
  obtain ⟨child', hchild', hwvalid⟩ := hmembers _ _ hw
  obtain rfl := Option.some.inj (hchild.symm.trans hchild')
  -- it has the same leaves as before, so there are some
  have hleaves := (leaves_trim (hkeyed.child hn.1 hchild) (hnames.child hn.1 hchild) hwvalid).2 rfl
    [] (Elem.plain o.1)
  refine Bool.of_not_eq_false fun hnone => ?_
  rw [← htrim, ← leaves_eq_nil_iff [] (Elem.plain o.1), hleaves, leaves_eq_nil_iff, hholds] at hnone
  cases hnone

end

end ConfigTree.Tree
