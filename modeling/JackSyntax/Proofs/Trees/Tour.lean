import JackSyntax.Proofs.Trees.Walks
import JackSyntax.Tree.Edit

/-!
# Tours around a tree

A tour comes to a part of a tree, goes around the children one after the other, and leaves
the part again when it is a node.  Every stop of a tour names the part by the path that
leads to it, so equal parts in different places are told apart.

* `mem_tour_iff`: the stops of a tour are the parts at the paths of the tree.
* `tour_ascends`: the tour comes to the parts in the order of their paths, each path
  before the ones it begins and then by the first index where two paths differ.  No path
  comes twice.
* `tour_encloses`: a node is left once, and exactly the stops under the node are between its
  arrival and its departure.
* `listsParts_partsOf`: a list of the parts of some kind, in the order of the tour, has every
  such part of the tree once (`ListsParts`).
-/

namespace JackSyntax.Tree

/-! ## Paths -/

@[simp] theorem at?_nil (tree : Tree) : tree.at? [] = some tree := rfl

theorem at?_cons (tree : Tree) (index : Nat) (path : List Nat) :
    tree.at? (index :: path) = tree.children[index]?.bind (·.at? path) := rfl

theorem at?_cons_eq_some_iff {tree part : Tree} {index : Nat} {path : List Nat} :
    tree.at? (index :: path) = some part ↔
      ∃ child, tree.children[index]? = some child ∧ child.at? path = some part := by
  rw [at?_cons, Option.bind_eq_some_iff]

/-! ## Stops -/

/-- A moment of a tour: the part it comes to, or the node it leaves, and the path to it. -/
structure Stop where
  path : List Nat
  part : Tree
  leaving : Bool

/-- A stop in a child, seen from the node above. -/
def Stop.under (index : Nat) (stop : Stop) : Stop :=
  { stop with path := index :: stop.path }

@[simp] theorem Stop.under_path (index : Nat) (stop : Stop) :
    (stop.under index).path = index :: stop.path := rfl

mutual

/-- The stops of a tour around a tree. -/
def tour : Tree → List Stop
  | leaf token => [⟨[], leaf token, false⟩]
  | node label children =>
      ⟨[], node label children, false⟩ :: tourAll 0 children ++ [⟨[], node label children, true⟩]

/-- The stops of the tours around several trees, the first of which has the given index. -/
def tourAll (index : Nat) : List Tree → List Stop
  | [] => []
  | tree :: trees => (tour tree).map (Stop.under index) ++ tourAll (index + 1) trees

end

theorem tourAll_append (index : Nat) (first second : List Tree) :
    tourAll index (first ++ second) =
      tourAll index first ++ tourAll (index + first.length) second := by
  induction first generalizing index with
  | nil => rfl
  | cons tree trees ih =>
      rw [List.cons_append, tourAll, tourAll, ih, List.append_assoc, List.length_cons,
        Nat.add_right_comm, Nat.add_assoc]

theorem mem_tourAll {index : Nat} {trees : List Tree} {stop : Stop} :
    stop ∈ tourAll index trees ↔
      ∃ offset tree inner, trees[offset]? = some tree ∧ inner ∈ tour tree ∧
        stop = inner.under (index + offset) := by
  induction trees generalizing index with
  | nil => simp [tourAll]
  | cons tree trees ih =>
      have hindex (offset : Nat) : index + 1 + offset = index + (offset + 1) := by omega
      rw [tourAll, List.mem_append, List.mem_map, ih]
      simp only [hindex]
      constructor
      · rintro (⟨inner, hinner, rfl⟩ | ⟨offset, other, inner, hother, hinner, rfl⟩)
        · exact ⟨0, tree, inner, rfl, hinner, rfl⟩
        · exact ⟨offset + 1, other, inner, hother, hinner, rfl⟩
      · rintro ⟨offset, other, inner, hother, hinner, rfl⟩
        cases offset with
        | zero =>
            obtain rfl : tree = other := by simpa using hother
            exact Or.inl ⟨inner, hinner, rfl⟩
        | succ offset => exact Or.inr ⟨offset, other, inner, hother, hinner, rfl⟩

/-- A stop around a node is one of the two at the node itself, or one around a child. -/
theorem mem_tour_node {label : String} {children : List Tree} {stop : Stop} :
    stop ∈ (node label children).tour ↔
      (stop.path = [] ∧ stop.part = node label children) ∨
        ∃ index child inner, children[index]? = some child ∧ inner ∈ tour child ∧
          stop = inner.under index := by
  rw [tour, List.cons_append, List.mem_cons, List.mem_append, List.mem_singleton, mem_tourAll]
  simp only [Nat.zero_add]
  constructor
  · rintro (rfl | hinside | rfl)
    · exact Or.inl ⟨rfl, rfl⟩
    · exact Or.inr hinside
    · exact Or.inl ⟨rfl, rfl⟩
  · rintro (⟨hpath, hpart⟩ | hinside)
    · obtain ⟨path, part, leaving⟩ := stop
      cases hpath
      cases hpart
      cases leaving with
      | false => exact Or.inl rfl
      | true => exact Or.inr (Or.inr rfl)
    · exact Or.inr (Or.inl hinside)

/-- The tour comes to every part that a path leads to, and leaves the nodes among them. -/
theorem mem_tour_iff {tree : Tree} {stop : Stop} :
    stop ∈ tree.tour ↔
      tree.at? stop.path = some stop.part ∧ (stop.leaving = true → stop.part.isNode = true) := by
  induction tree using Tree.induction generalizing stop with
  | leaf token =>
      rw [tour, List.mem_singleton]
      constructor
      · rintro rfl
        exact ⟨rfl, nofun⟩
      · obtain ⟨path, part, leaving⟩ := stop
        rintro ⟨hpart, hleaving⟩
        cases path with
        | nil =>
            cases hpart
            cases leaving with
            | false => rfl
            | true => exact absurd (hleaving rfl) Bool.false_ne_true
        | cons index path => simp [at?_cons, children] at hpart
  | node label children ih =>
      rw [mem_tour_node]
      constructor
      · rintro (⟨hpath, hpart⟩ | ⟨index, child, inner, hchild, hinner, rfl⟩)
        · rw [hpath, hpart]
          exact ⟨rfl, fun _ => rfl⟩
        · obtain ⟨hpart, hleaving⟩ := (ih child (List.mem_of_getElem? hchild)).mp hinner
          exact ⟨at?_cons_eq_some_iff.mpr ⟨child, hchild, hpart⟩, hleaving⟩
      · obtain ⟨path, part, leaving⟩ := stop
        rintro ⟨hpart, hleaving⟩
        cases path with
        | nil => exact Or.inl ⟨rfl, (Option.some.inj hpart).symm⟩
        | cons index path =>
            obtain ⟨child, hchild, hinner⟩ := at?_cons_eq_some_iff.mp hpart
            have hstop : ⟨path, part, leaving⟩ ∈ child.tour :=
              (ih child (List.mem_of_getElem? hchild)).mpr ⟨hinner, hleaving⟩
            exact Or.inr ⟨index, child, _, hchild, hstop, rfl⟩

/-! ## The order of a tour -/

/-- Whether the path of the second of two arrivals is the greater one. -/
def Stop.Ascends (earlier later : Stop) : Prop :=
  earlier.leaving = false → later.leaving = false → earlier.path < later.path

theorem tourAll_ascends {trees : List Tree} (index : Nat)
    (htrees : ∀ tree ∈ trees, tree.tour.Pairwise Stop.Ascends) :
    (tourAll index trees).Pairwise Stop.Ascends := by
  induction trees generalizing index with
  | nil => exact .nil
  | cons tree trees ih =>
      rw [tourAll, List.pairwise_append, List.pairwise_map]
      have hrest : ∀ other ∈ trees, other.tour.Pairwise Stop.Ascends :=
        fun other hother => htrees other (List.mem_cons_of_mem _ hother)
      refine ⟨?_, ih (index + 1) hrest, ?_⟩
      · refine (htrees tree List.mem_cons_self).imp fun hascends hearlier hlater => ?_
        exact List.cons_lt_cons_iff.mpr (Or.inr ⟨rfl, hascends hearlier hlater⟩)
      · intro earlier hearlier later hlater _ _
        obtain ⟨inner, -, rfl⟩ := List.mem_map.mp hearlier
        obtain ⟨offset, other, inner', -, -, rfl⟩ := mem_tourAll.mp hlater
        exact List.cons_lt_cons_iff.mpr (Or.inl (by omega))

/-- The tour comes to the parts in the order of their paths. -/
theorem tour_ascends (tree : Tree) : tree.tour.Pairwise Stop.Ascends := by
  induction tree using Tree.induction with
  | leaf token => exact List.pairwise_singleton _ _
  | node label children ih =>
      rw [tour, List.cons_append, List.pairwise_cons, List.pairwise_append]
      refine ⟨?_, tourAll_ascends 0 ih, List.pairwise_singleton _ _, ?_⟩
      · intro later hlater _ harrival
        rcases List.mem_append.mp hlater with hinside | hlast
        · obtain ⟨offset, child, inner, -, -, rfl⟩ := mem_tourAll.mp hinside
          exact List.nil_lt_cons _ _
        · rw [List.mem_singleton.mp hlast] at harrival
          cases harrival
      · intro earlier _ later hlast _ harrival
        rw [List.mem_singleton.mp hlast] at harrival
        cases harrival

/-! ## Arrivals and departures -/

/-- Whether a tour comes to a node once and leaves it once, with exactly the stops under the
node between the two. -/
def Encloses (stops : List Stop) (path : List Nat) (part : Tree) : Prop :=
  ∃ before inside after,
    stops = before ++ ⟨path, part, false⟩ :: inside ++ ⟨path, part, true⟩ :: after ∧
      (∀ stop ∈ inside, path <+: stop.path ∧ stop.path ≠ path) ∧
      ∀ stop ∈ before ++ after, ¬ path <+: stop.path

/-- A tour around a child of a node encloses the same nodes as the tour around the child. -/
theorem Encloses.under {stops before after : List Stop} {path : List Nat} {part : Tree}
    {index : Nat} (hstops : Encloses stops path part)
    (hothers : ∀ stop ∈ before ++ after, ¬ [index] <+: stop.path) :
    Encloses (before ++ stops.map (Stop.under index) ++ after) (index :: path) part := by
  obtain ⟨front, inside, back, rfl, hinside, houtside⟩ := hstops
  refine ⟨before ++ front.map (Stop.under index), inside.map (Stop.under index),
    back.map (Stop.under index) ++ after, by simp [Stop.under], ?_, ?_⟩
  · intro stop hstop
    obtain ⟨inner, hinner, rfl⟩ := List.mem_map.mp hstop
    obtain ⟨hbelow, hne⟩ := hinside inner hinner
    exact ⟨List.cons_prefix_cons.mpr ⟨rfl, hbelow⟩, fun hsame => hne (List.cons.inj hsame).2⟩
  · -- the other stops of the child are outside in its own tour, the rest by the index alone
    have hchild : ∀ inner ∈ front ++ back, ¬ index :: path <+: (inner.under index).path :=
      fun inner hinner hwithin => houtside inner hinner (List.cons_prefix_cons.mp hwithin).2
    have hrest : ∀ stop ∈ before ++ after, ¬ index :: path <+: stop.path :=
      fun stop hstop hwithin => hothers stop hstop ((List.prefix_append [index] path).trans hwithin)
    simp only [List.mem_append, List.mem_map] at hchild hrest ⊢
    rintro stop ((hstop | ⟨inner, hinner, rfl⟩) | ⟨inner, hinner, rfl⟩ | hstop)
    · exact hrest stop (Or.inl hstop)
    · exact hchild inner (Or.inl hinner)
    · exact hchild inner (Or.inr hinner)
    · exact hrest stop (Or.inr hstop)

/-- The stops around one of several trees are those of its own tour, and no others are in
that tree. -/
theorem tourAll_split {trees : List Tree} {offset : Nat} {tree : Tree}
    (htree : trees[offset]? = some tree) :
    ∃ before after,
      tourAll 0 trees = before ++ tree.tour.map (Stop.under offset) ++ after ∧
        ∀ stop ∈ before ++ after, ¬ [offset] <+: stop.path := by
  obtain ⟨hoffset, rfl⟩ := List.getElem?_eq_some_iff.mp htree
  have hlength : (trees.take offset).length = offset :=
    List.length_take_of_le (Nat.le_of_lt hoffset)
  have hsplit := tourAll_append 0 (trees.take offset) (trees.drop offset)
  rw [List.take_append_drop, List.drop_eq_getElem_cons hoffset, tourAll, hlength, Nat.zero_add,
    ← List.append_assoc] at hsplit
  refine ⟨_, _, hsplit, fun stop hstop hwithin => ?_⟩
  rcases List.mem_append.mp hstop with hstop | hstop
  · obtain ⟨early, other, inner, hother, -, rfl⟩ := mem_tourAll.mp hstop
    have hearly := (List.getElem?_eq_some_iff.mp hother).1
    have hsame := (List.cons_prefix_cons.mp hwithin).1
    omega
  · obtain ⟨late, other, inner, -, -, rfl⟩ := mem_tourAll.mp hstop
    have hsame := (List.cons_prefix_cons.mp hwithin).1
    omega

/-- A node is left once, after all that is under it. -/
theorem tour_encloses {tree part : Tree} {path : List Nat} (hpart : tree.at? path = some part)
    (hnode : part.isNode = true) : Encloses tree.tour path part := by
  induction path generalizing tree with
  | nil =>
      obtain rfl : tree = part := by simpa using hpart
      cases tree with
      | leaf token => exact absurd hnode Bool.false_ne_true
      | node label children =>
          refine ⟨[], tourAll 0 children, [], by rw [tour]; rfl, fun stop hstop => ?_, nofun⟩
          obtain ⟨offset, child, inner, -, -, rfl⟩ := mem_tourAll.mp hstop
          exact ⟨List.nil_prefix, List.cons_ne_nil _ _⟩
  | cons index path ih =>
      obtain ⟨child, hchild, hinner⟩ := at?_cons_eq_some_iff.mp hpart
      cases tree with
      | leaf token => simp [Tree.children] at hchild
      | node label children =>
          rw [Tree.children] at hchild
          obtain ⟨before, after, hsplit, hothers⟩ := tourAll_split hchild
          have htour : (node label children).tour =
              (⟨[], node label children, false⟩ :: before) ++ child.tour.map (Stop.under index) ++
                (after ++ [⟨[], node label children, true⟩]) := by
            rw [tour, hsplit]
            simp
          rw [htour]
          refine (ih hinner).under ?_
          simp only [List.mem_append, List.mem_cons, List.not_mem_nil, or_false]
          rintro stop ((rfl | hstop) | hstop | rfl)
          · simp
          · exact hothers stop (List.mem_append_left _ hstop)
          · exact hothers stop (List.mem_append_right _ hstop)
          · simp

/-! ## Listing the parts of a kind -/

/-- Whether a tour comes to a part of a kind. -/
def Stop.arrivesAt (kind : Tree → Bool) (stop : Stop) : Bool :=
  !stop.leaving && kind stop.part

theorem Stop.arrivesAt_iff {kind : Tree → Bool} {stop : Stop} :
    stop.arrivesAt kind = true ↔ stop.leaving = false ∧ kind stop.part = true := by
  simp [arrivesAt]

/-- The parts of a kind that a tour comes to. -/
def partsOf (kind : Tree → Bool) (stops : List Stop) : List Tree :=
  (stops.filter (Stop.arrivesAt kind)).map Stop.part

theorem kind_of_mem_partsOf {kind : Tree → Bool} {stops : List Stop} {part : Tree}
    (hpart : part ∈ partsOf kind stops) : kind part = true := by
  obtain ⟨stop, hstop, rfl⟩ := List.mem_map.mp hpart
  exact (Stop.arrivesAt_iff.mp (List.mem_filter.mp hstop).2).2

/-- Whether a list has the parts of a kind that a tree has, every one of them once, in the
order of the document: the parts at ascending paths, which are all the paths that lead to a
part of the kind. -/
def ListsParts (tree : Tree) (kind : Tree → Bool) (listed : List Tree) : Prop :=
  ∃ paths : List (List Nat),
    paths.Pairwise (· < ·) ∧
      (∀ path, path ∈ paths ↔ ∃ part, tree.at? path = some part ∧ kind part = true) ∧
      listed.map some = paths.map tree.at?

theorem listsParts_partsOf (tree : Tree) (kind : Tree → Bool) :
    tree.ListsParts kind (partsOf kind tree.tour) := by
  refine ⟨(tree.tour.filter (Stop.arrivesAt kind)).map Stop.path, ?_, fun path => ?_, ?_⟩
  · rw [List.pairwise_map, List.pairwise_filter]
    refine tree.tour_ascends.imp fun hascends hearlier hlater => ?_
    exact hascends (Stop.arrivesAt_iff.mp hearlier).1 (Stop.arrivesAt_iff.mp hlater).1
  · rw [List.mem_map]
    constructor
    · rintro ⟨stop, hstop, rfl⟩
      obtain ⟨hmem, harrives⟩ := List.mem_filter.mp hstop
      exact ⟨stop.part, (mem_tour_iff.mp hmem).1, (Stop.arrivesAt_iff.mp harrives).2⟩
    · rintro ⟨part, hpart, hkind⟩
      have hstop : ⟨path, part, false⟩ ∈ tree.tour := mem_tour_iff.mpr ⟨hpart, nofun⟩
      exact ⟨_, List.mem_filter.mpr ⟨hstop, Stop.arrivesAt_iff.mpr ⟨rfl, hkind⟩⟩, rfl⟩
  · rw [partsOf, List.map_map, List.map_map]
    refine List.map_congr_left fun stop hstop => ?_
    exact (mem_tour_iff.mp (List.mem_filter.mp hstop).1).1.symm

theorem partsOf_append (kind : Tree → Bool) (first second : List Stop) :
    partsOf kind (first ++ second) = partsOf kind first ++ partsOf kind second := by
  rw [partsOf, List.filter_append, List.map_append]
  rfl

theorem partsOf_map_under (kind : Tree → Bool) (index : Nat) (stops : List Stop) :
    partsOf kind (stops.map (Stop.under index)) = partsOf kind stops := by
  rw [partsOf, partsOf, List.filter_map, List.map_map]
  rfl

theorem partsOf_filter (kind other : Tree → Bool) (stops : List Stop) :
    (partsOf kind stops).filter other = partsOf (fun part => kind part && other part) stops := by
  rw [partsOf, partsOf, List.filter_map, List.filter_filter]
  refine congrArg (List.map Stop.part) (List.filter_congr fun stop _ => ?_)
  simp only [Stop.arrivesAt, Function.comp_apply]
  grind

/-- The parts of a kind that a tour around a node comes to: the node itself, if it is of the
kind, and those under it. -/
theorem partsOf_tour_node (kind : Tree → Bool) (label : String) (children : List Tree) :
    partsOf kind (node label children).tour =
      [node label children].filter kind ++ partsOf kind (tourAll 0 children) := by
  have hends : ∀ leaving, partsOf kind [⟨[], node label children, leaving⟩] =
      if leaving then [] else [node label children].filter kind := by
    intro leaving
    cases leaving <;> cases hkind : kind (node label children) <;>
      simp [partsOf, Stop.arrivesAt, hkind]
  rw [tour, partsOf_append, ← List.singleton_append, partsOf_append, hends, hends]
  simp

mutual

/-- The tour comes to the nodes in the order of the document. -/
theorem partsOf_isNode_tour : ∀ tree : Tree, partsOf isNode tree.tour = tree.preorder
  | leaf _ => rfl
  | node label children => by
      rw [partsOf_tour_node, partsOf_isNode_tourAll 0 children]
      rfl

theorem partsOf_isNode_tourAll (index : Nat) :
    ∀ trees : List Tree, partsOf isNode (tourAll index trees) = preorderAll trees
  | [] => rfl
  | tree :: trees => by
      rw [tourAll, partsOf_append, partsOf_map_under, partsOf_isNode_tour tree,
        partsOf_isNode_tourAll (index + 1) trees, preorderAll]

end

mutual

/-- The tour comes to the tokens from left to right. -/
theorem partsOf_isLeaf_tour :
    ∀ tree : Tree, partsOf (fun part => !part.isNode) tree.tour = tree.leaves.map leaf
  | leaf _ => rfl
  | node label children => by
      rw [partsOf_tour_node, partsOf_isLeaf_tourAll 0 children]
      rfl

theorem partsOf_isLeaf_tourAll (index : Nat) : ∀ trees : List Tree,
    partsOf (fun part => !part.isNode) (tourAll index trees) = (leavesAll trees).map leaf
  | [] => rfl
  | tree :: trees => by
      rw [tourAll, partsOf_append, partsOf_map_under, partsOf_isLeaf_tour tree,
        partsOf_isLeaf_tourAll (index + 1) trees, leavesAll, List.map_append]

end

end JackSyntax.Tree
