import JackSyntax.Grammar.Parse

/-!
# Splitting at the weakest operators

What a precedence table means for a run of operands and operators, said without any
reading: the run is cut at all operators of the lowest level that occurs in it, and every
piece of more than one operand becomes a group, in which the same is done again
(`PrecedenceTable.group`).

In such a run operands and operators alternate (`Alternates`), and an operand is a node
while an operator is a leaf.  The laws here say what grouping does to a run:

* it keeps the alternation, and the operators that stay are among those of the run
  (`alternates_group`, `mem_of_leaf_mem_group`);
* an operand alone stays alone, and more of them stay more than one (`group_singleton`,
  `one_lt_length_group`);
* only the order of the levels counts (`group_congr`), and nothing is grouped where no
  operator binds tighter than another (`group_eq_self`).
-/

namespace JackSyntax

/-! ## Cutting a list -/

section Cutting

variable {isCut : Tree → Bool}

/-- The items before the first one to cut at, and each item to cut at with those after
it. -/
def cutAt (isCut : Tree → Bool) : List Tree → List Tree × List (Tree × List Tree)
  | [] => ([], [])
  | item :: items =>
      let parts := cutAt isCut items
      if isCut item then ([], (item, parts.1) :: parts.2) else (item :: parts.1, parts.2)

theorem cutAt_cons_of_cut {item : Tree} (items : List Tree) (hcut : isCut item = true) :
    cutAt isCut (item :: items) =
      ([], (item, (cutAt isCut items).1) :: (cutAt isCut items).2) := by
  simp [cutAt, hcut]

theorem cutAt_cons_of_not_cut {item : Tree} (items : List Tree) (hcut : isCut item = false) :
    cutAt isCut (item :: items) = (item :: (cutAt isCut items).1, (cutAt isCut items).2) := by
  simp [cutAt, hcut]

/-- The parts make up the list. -/
theorem cutAt_join (isCut : Tree → Bool) (items : List Tree) :
    (cutAt isCut items).1 ++ (cutAt isCut items).2.flatMap (fun part => part.1 :: part.2) =
      items := by
  induction items with
  | nil => rfl
  | cons item items ih =>
      cases hcut : isCut item with
      | true => simpa [cutAt_cons_of_cut items hcut] using ih
      | false => simpa [cutAt_cons_of_not_cut items hcut] using ih

theorem cutAt_of_not_cut {items : List Tree} (hitems : ∀ item ∈ items, isCut item = false) :
    cutAt isCut items = (items, []) := by
  induction items with
  | nil => rfl
  | cons item items ih =>
      rw [cutAt_cons_of_not_cut items (hitems item List.mem_cons_self),
        ih fun other hother => hitems other (List.mem_cons_of_mem item hother)]

theorem cutAt_append_cons {piece items : List Tree} {item : Tree}
    (hpiece : ∀ other ∈ piece, isCut other = false) (hcut : isCut item = true) :
    cutAt isCut (piece ++ item :: items) =
      (piece, (item, (cutAt isCut items).1) :: (cutAt isCut items).2) := by
  induction piece with
  | nil => exact cutAt_cons_of_cut items hcut
  | cons other piece ih =>
      rw [List.cons_append, cutAt_cons_of_not_cut _ (hpiece other List.mem_cons_self),
        ih fun later hlater => hpiece later (List.mem_cons_of_mem other hlater)]

/-- Where the list is cut at all, the first piece is shorter than the list. -/
theorem length_cutAt_fst_lt {items : List Tree} (hcut : ∃ item ∈ items, isCut item = true) :
    (cutAt isCut items).1.length < items.length := by
  induction items with
  | nil => simp at hcut
  | cons item items ih =>
      cases hitem : isCut item with
      | true => simp [cutAt_cons_of_cut items hitem]
      | false =>
          obtain ⟨other, hother, hcut⟩ := hcut
          rcases List.mem_cons.mp hother with rfl | hother
          · simp [hitem] at hcut
          · simpa [cutAt_cons_of_not_cut items hitem] using ih ⟨other, hother, hcut⟩

theorem length_cutAt_fst_le (isCut : Tree → Bool) (items : List Tree) :
    (cutAt isCut items).1.length ≤ items.length := by
  have hjoin := congrArg List.length (cutAt_join isCut items)
  simp only [List.length_append] at hjoin
  omega

theorem length_cutAt_snd_lt {items : List Tree} {part : Tree × List Tree}
    (hpart : part ∈ (cutAt isCut items).2) : part.2.length < items.length := by
  induction items with
  | nil => simp [cutAt] at hpart
  | cons item items ih =>
      cases hitem : isCut item with
      | true =>
          rw [cutAt_cons_of_cut items hitem] at hpart
          rcases List.mem_cons.mp hpart with rfl | hpart
          · exact Nat.lt_succ_of_le (length_cutAt_fst_le isCut items)
          · exact Nat.lt_succ_of_lt (ih hpart)
      | false =>
          rw [cutAt_cons_of_not_cut items hitem] at hpart
          exact Nat.lt_succ_of_lt (ih hpart)

theorem mem_of_mem_cutAt_fst {items : List Tree} {item : Tree}
    (hitem : item ∈ (cutAt isCut items).1) : item ∈ items := by
  rw [← cutAt_join isCut items]
  exact List.mem_append_left _ hitem

theorem mem_of_mem_cutAt_snd {items : List Tree} {part : Tree × List Tree} {item : Tree}
    (hpart : part ∈ (cutAt isCut items).2) (hitem : item ∈ part.1 :: part.2) :
    item ∈ items := by
  rw [← cutAt_join isCut items]
  exact List.mem_append_right _ (List.mem_flatMap.mpr ⟨part, hpart, hitem⟩)

/-- The list is cut at all places: no piece holds an item to cut at. -/
theorem not_cut_of_mem_cutAt (isCut : Tree → Bool) (items : List Tree) :
    (∀ item ∈ (cutAt isCut items).1, isCut item = false) ∧
      ∀ part ∈ (cutAt isCut items).2,
        isCut part.1 = true ∧ ∀ item ∈ part.2, isCut item = false := by
  induction items with
  | nil => simp [cutAt]
  | cons item items ih =>
      cases hitem : isCut item with
      | true =>
          rw [cutAt_cons_of_cut items hitem]
          refine ⟨by simp, fun part hpart => ?_⟩
          rcases List.mem_cons.mp hpart with rfl | hpart
          · exact ⟨hitem, ih.1⟩
          · exact ih.2 part hpart
      | false =>
          rw [cutAt_cons_of_not_cut items hitem]
          refine ⟨fun other hother => ?_, ih.2⟩
          rcases List.mem_cons.mp hother with rfl | hother
          · exact hitem
          · exact ih.1 other hother

theorem cutAt_congr {other : Tree → Bool} {items : List Tree}
    (hsame : ∀ item ∈ items, isCut item = other item) :
    cutAt isCut items = cutAt other items := by
  induction items with
  | nil => rfl
  | cons item items ih =>
      have hrest := ih fun later hlater => hsame later (List.mem_cons_of_mem item hlater)
      simp only [cutAt, hrest, hsame item List.mem_cons_self]

end Cutting

/-! ## The weakest operators of a list -/

namespace PrecedenceTable

variable {table : PrecedenceTable}

/-- The level of an item of a run: only operators have one. -/
def itemLevel? (table : PrecedenceTable) : Tree → Option Int
  | .leaf token => table.level? token
  | .node _ _ => none

/-- Whether an item is an operator of a level. -/
def atLevel (table : PrecedenceTable) (level : Int) (item : Tree) : Bool :=
  table.itemLevel? item = some level

/-- Whether a token is an operator of some level. -/
def hasLevel (table : PrecedenceTable) (token : Token) : Bool :=
  (table.level? token).isSome

theorem hasLevel_iff {token : Token} :
    table.hasLevel token = true ↔ ∃ level, table.level? token = some level :=
  Option.isSome_iff_exists

/-- Whether one operator binds less tightly than another. -/
def Looser (table : PrecedenceTable) (first second : Token) : Prop :=
  ∃ low high, table.level? first = some low ∧ table.level? second = some high ∧ low < high

/-- Whether two tables have the same operators among some tokens, in the same order. -/
structure SameOrder (first second : PrecedenceTable) (tokens : List Token) : Prop where
  hasLevel_eq : ∀ token ∈ tokens, first.hasLevel token = second.hasLevel token
  looser_iff : ∀ one ∈ tokens, ∀ other ∈ tokens,
    first.Looser one other ↔ second.Looser one other

/-- The lowest level of the operators among some items. -/
def weakest? (table : PrecedenceTable) (items : List Tree) : Option Int :=
  (items.filterMap table.itemLevel?).min?

theorem weakest?_eq_none_iff {items : List Tree} :
    table.weakest? items = none ↔ ∀ item ∈ items, table.itemLevel? item = none := by
  simp [weakest?, List.min?_eq_none_iff, List.filterMap_eq_nil_iff]

theorem weakest?_eq_some_iff {items : List Tree} {level : Int} :
    table.weakest? items = some level ↔
      (∃ item ∈ items, table.itemLevel? item = some level) ∧
        ∀ item ∈ items, ∀ other, table.itemLevel? item = some other → level ≤ other := by
  rw [weakest?, List.min?_eq_some_iff]
  simp only [List.mem_filterMap]
  constructor
  · rintro ⟨hlevel, hleast⟩
    exact ⟨hlevel, fun item hitem other hother => hleast other ⟨item, hitem, hother⟩⟩
  · rintro ⟨hlevel, hleast⟩
    exact ⟨hlevel, fun other ⟨item, hitem, hother⟩ => hleast item hitem other hother⟩

private theorem exists_atLevel {items : List Tree} {level : Int}
    (hweakest : table.weakest? items = some level) :
    ∃ item ∈ items, table.atLevel level item = true := by
  obtain ⟨⟨item, hitem, hlevel⟩, -⟩ := weakest?_eq_some_iff.mp hweakest
  exact ⟨item, hitem, by simp [atLevel, hlevel]⟩

/-- A run of operands and operators, grouped by the levels of a table: cut at all
operators of the lowest level, and each piece of several operands made a group. -/
def group (table : PrecedenceTable) (items : List Tree) : List Tree :=
  match _hweakest : table.weakest? items with
  | none => items
  | some level =>
      grouped (table.group (cutAt (table.atLevel level) items).1) ++
        (cutAt (table.atLevel level) items).2.attach.flatMap fun part =>
          part.1.1 :: grouped (table.group part.1.2)
termination_by items.length
decreasing_by
  · exact length_cutAt_fst_lt (exists_atLevel _hweakest)
  · exact length_cutAt_snd_lt part.2

/-- The run with its pieces between the operators of a level made operands. -/
def groupAt (table : PrecedenceTable) (level : Int) (items : List Tree) : List Tree :=
  grouped (table.group (cutAt (table.atLevel level) items).1) ++
    (cutAt (table.atLevel level) items).2.flatMap fun part =>
      part.1 :: grouped (table.group part.2)

theorem group_of_none {items : List Tree}
    (hitems : ∀ item ∈ items, table.itemLevel? item = none) : table.group items = items := by
  rw [group]
  split
  · rfl
  · next level hweakest =>
      rw [weakest?_eq_none_iff.mpr hitems] at hweakest
      simp at hweakest

theorem group_of_weakest {items : List Tree} {level : Int}
    (hweakest : table.weakest? items = some level) :
    table.group items = table.groupAt level items := by
  rw [group]
  split
  · next hnone => simp [hweakest] at hnone
  · next other hother =>
      obtain rfl : level = other := by simpa [hweakest] using hother
      have hparts := List.attach_map_subtype_val (cutAt (table.atLevel level) items).2
      rw [groupAt, ← hparts, List.flatMap_map, hparts]

/-- Induction along the cuts that grouping makes. -/
theorem group_induction (table : PrecedenceTable) {motive : List Tree → Prop}
    (uncut : ∀ items, (∀ item ∈ items, table.itemLevel? item = none) → motive items)
    (cut : ∀ items level, table.weakest? items = some level →
      motive (cutAt (table.atLevel level) items).1 →
      (∀ part ∈ (cutAt (table.atLevel level) items).2, motive part.2) → motive items)
    (items : List Tree) : motive items := by
  induction hlength : items.length using Nat.strongRecOn generalizing items with
  | ind length ih =>
      subst hlength
      cases hweakest : table.weakest? items with
      | none => exact uncut items (weakest?_eq_none_iff.mp hweakest)
      | some level =>
          refine cut items level hweakest ?_ fun part hpart => ?_
          · exact ih _ (length_cutAt_fst_lt (exists_atLevel hweakest)) _ rfl
          · exact ih _ (length_cutAt_snd_lt hpart) _ rfl

end PrecedenceTable

/-! ## Runs of operands and operators -/

/-- Operands with one operator between each two of them. -/
inductive Alternates (operand : Tree → Prop) (operator : Token → Prop) : List Tree → Prop
  | last {tree : Tree} (htree : operand tree) : Alternates operand operator [tree]
  | more {tree : Tree} {token : Token} {items : List Tree} (htree : operand tree)
      (htoken : operator token) (hitems : Alternates operand operator items) :
      Alternates operand operator (tree :: .leaf token :: items)

namespace Alternates

variable {operand : Tree → Prop} {operator : Token → Prop} {items : List Tree}

theorem ne_nil (hitems : Alternates operand operator items) : items ≠ [] := by
  cases hitems <;> simp

theorem mono {wider : Tree → Prop} {other : Token → Prop}
    (hitems : Alternates operand operator items) (hwider : ∀ tree, operand tree → wider tree)
    (hother : ∀ token, .leaf token ∈ items → operator token → other token) :
    Alternates wider other items := by
  induction hitems with
  | last htree => exact last (hwider _ htree)
  | more htree htoken hitems ih =>
      refine more (hwider _ htree) (hother _ (by simp) htoken) (ih fun token hmem => ?_)
      exact hother token (by simp [hmem])

/-- Every item is an operand or an operator. -/
theorem mem (hitems : Alternates operand operator items) {item : Tree} (hitem : item ∈ items) :
    operand item ∨ ∃ token, item = .leaf token ∧ operator token := by
  induction hitems with
  | last htree =>
      rw [List.mem_singleton] at hitem
      exact Or.inl (hitem ▸ htree)
  | more htree htoken hitems ih =>
      rcases List.mem_cons.mp hitem with rfl | hitem
      · exact Or.inl htree
      rcases List.mem_cons.mp hitem with rfl | hitem
      · exact Or.inr ⟨_, rfl, htoken⟩
      · exact ih hitem

theorem append_cons {more : List Tree} {token : Token}
    (hitems : Alternates operand operator items) (htoken : operator token)
    (hmore : Alternates operand operator more) :
    Alternates operand operator (items ++ .leaf token :: more) := by
  induction hitems with
  | last htree => exact .more htree htoken hmore
  | more htree hfirst _ ih => exact .more htree hfirst ih

/-- A run cut at operators falls into shorter runs. -/
theorem cutAt {isCut : Tree → Bool} (hitems : Alternates operand operator items)
    (hoperand : ∀ tree, operand tree → isCut tree = false) :
    Alternates operand operator (cutAt isCut items).1 ∧
      ∀ part ∈ (JackSyntax.cutAt isCut items).2,
        (∃ token, part.1 = .leaf token ∧ operator token) ∧ Alternates operand operator part.2 := by
  induction hitems with
  | last htree =>
      rw [cutAt_of_not_cut (by simpa using hoperand _ htree)]
      exact ⟨last htree, by simp⟩
  | @more tree token items htree htoken hitems ih =>
      rw [cutAt_cons_of_not_cut _ (hoperand tree htree)]
      cases hcut : isCut (.leaf token) with
      | true =>
          rw [cutAt_cons_of_cut _ hcut]
          refine ⟨last htree, fun part hpart => ?_⟩
          rcases List.mem_cons.mp hpart with rfl | hpart
          · exact ⟨⟨token, rfl, htoken⟩, ih.1⟩
          · exact ih.2 part hpart
      | false =>
          rw [cutAt_cons_of_not_cut _ hcut]
          exact ⟨more htree htoken ih.1, ih.2⟩

/-- Runs joined by operators are a run. -/
theorem append_flatMap (piece : List Tree → List Tree) {parts : List (Tree × List Tree)}
    (hitems : Alternates operand operator items)
    (hparts : ∀ part ∈ parts, (∃ token, part.1 = .leaf token ∧ operator token) ∧
      Alternates operand operator (piece part.2)) :
    Alternates operand operator
      (items ++ parts.flatMap fun part => part.1 :: piece part.2) := by
  induction parts generalizing items with
  | nil => simpa using hitems
  | cons part parts ih =>
      obtain ⟨⟨token, htoken, hoperator⟩, hpiece⟩ := hparts part List.mem_cons_self
      have hfirst := hitems.append_cons hoperator hpiece
      simpa [htoken] using ih hfirst fun other hother =>
        hparts other (List.mem_cons_of_mem part hother)

end Alternates

/-! ## Groups -/

/-- The group of some items: a term that holds nothing but an expression. -/
def Tree.groupOf (items : List Tree) : Tree :=
  .node Nonterminal.term.label [.node Nonterminal.expression.label items]

/-- Whether a tree is a group. -/
def Tree.IsGroup (tree : Tree) : Prop :=
  ∃ items, tree = .groupOf items

/-- Whether a tree is a term. -/
def Tree.IsTerm (tree : Tree) : Prop :=
  tree.hasLabel Nonterminal.term.label = true

theorem Tree.isTerm_node (children : List Tree) :
    (Tree.node Nonterminal.term.label children).IsTerm :=
  rfl

theorem grouped_of_length {items : List Tree} (hitems : items.length ≠ 1) :
    grouped items = [.groupOf items] := by
  match items with
  | [] => rfl
  | [item] => simp at hitems
  | _ :: _ :: _ => rfl

/-- A single item stays as it is, and any others become a group. -/
theorem grouped_cases (items : List Tree) :
    (∃ item, items = [item] ∧ grouped items = [item]) ∨ grouped items = [.groupOf items] := by
  by_cases hitems : items.length = 1
  · obtain ⟨item, rfl⟩ := List.length_eq_one_iff.mp hitems
    exact Or.inl ⟨item, rfl, rfl⟩
  · exact Or.inr (grouped_of_length hitems)

theorem length_grouped (items : List Tree) : (grouped items).length = 1 := by
  rcases grouped_cases items with ⟨item, -, hgrouped⟩ | hgrouped
  · rw [hgrouped, List.length_singleton]
  · rw [hgrouped, List.length_singleton]

theorem mem_grouped {items : List Tree} {item : Tree} (hitem : item ∈ grouped items) :
    item ∈ items ∨ item = .groupOf items := by
  rcases grouped_cases items with ⟨only, rfl, -⟩ | hgrouped
  · exact Or.inl hitem
  · rw [hgrouped] at hitem
    exact Or.inr (List.mem_singleton.mp hitem)

theorem Alternates.grouped {operator : Token → Prop} {items : List Tree}
    (hitems : Alternates Tree.IsTerm operator items) :
    Alternates Tree.IsTerm operator (grouped items) := by
  rcases grouped_cases items with ⟨only, rfl, -⟩ | hgrouped
  · exact hitems
  · rw [hgrouped]
    exact .last rfl

namespace PrecedenceTable

variable {table : PrecedenceTable} {items : List Tree}

theorem itemLevel?_of_isTerm {tree : Tree} (htree : tree.IsTerm) :
    table.itemLevel? tree = none := by
  cases tree with
  | leaf token => simp [Tree.IsTerm, Tree.hasLabel] at htree
  | node label children => rfl

theorem not_atLevel_of_isTerm (table : PrecedenceTable) (level : Int) (tree : Tree)
    (htree : tree.IsTerm) : table.atLevel level tree = false := by
  simp [atLevel, itemLevel?_of_isTerm htree]

/-- A grouped run is a run again. -/
theorem alternates_group (table : PrecedenceTable) {operator : Token → Prop}
    (hitems : Alternates Tree.IsTerm operator items) :
    Alternates Tree.IsTerm operator (table.group items) := by
  induction items using table.group_induction with
  | uncut items hnone => rwa [group_of_none hnone]
  | cut items level hweakest ihfirst ihpart =>
      have hcut := hitems.cutAt (table.not_atLevel_of_isTerm level)
      rw [group_of_weakest hweakest, groupAt]
      refine (ihfirst hcut.1).grouped.append_flatMap (JackSyntax.grouped ∘ table.group) ?_
      intro part hpart
      exact ⟨(hcut.2 part hpart).1, (ihpart part hpart (hcut.2 part hpart).2).grouped⟩

/-- An operand alone stays as it is. -/
theorem group_singleton {tree : Tree} (htree : tree.IsTerm) : table.group [tree] = [tree] :=
  group_of_none (by simpa using itemLevel?_of_isTerm htree)

private theorem exists_cut {level : Int} (hweakest : table.weakest? items = some level) :
    ∃ part, part ∈ (cutAt (table.atLevel level) items).2 := by
  have hlength := length_cutAt_fst_lt (exists_atLevel hweakest)
  have hjoin := cutAt_join (table.atLevel level) items
  cases hparts : (cutAt (table.atLevel level) items).2 with
  | nil =>
      rw [hparts, List.flatMap_nil, List.append_nil] at hjoin
      rw [hjoin] at hlength
      exact absurd hlength (Nat.lt_irrefl _)
  | cons part parts => exact ⟨part, List.mem_cons_self⟩

private theorem exists_weakest {operand : Tree → Prop}
    (hitems : Alternates operand (table.hasLevel ·) items) (hlength : 1 < items.length) :
    ∃ level, table.weakest? items = some level := by
  cases hitems with
  | last htree => simp at hlength
  | @more tree token items htree htoken hitems =>
      rw [← Option.isSome_iff_exists, Option.isSome_iff_ne_none, Ne, weakest?_eq_none_iff]
      intro hnone
      have hlevel : table.level? token = none := hnone (.leaf token) (by simp)
      obtain ⟨level, hsome⟩ := hasLevel_iff.mp htoken
      simp [hlevel] at hsome

/-- Several operands stay several. -/
theorem one_lt_length_group {operand : Tree → Prop}
    (hitems : Alternates operand (table.hasLevel ·) items) (hlength : 1 < items.length) :
    1 < (table.group items).length := by
  obtain ⟨level, hweakest⟩ := exists_weakest hitems hlength
  obtain ⟨part, hpart⟩ := exists_cut hweakest
  obtain ⟨before, after, hparts⟩ := List.append_of_mem hpart
  rw [group_of_weakest hweakest, groupAt, hparts]
  simp only [List.length_append, length_grouped, List.flatMap_append, List.flatMap_cons,
    List.length_cons]
  omega

/-- No operators come in by grouping. -/
theorem mem_of_leaf_mem_group {token : Token} (htoken : .leaf token ∈ table.group items) :
    .leaf token ∈ items := by
  induction items using table.group_induction with
  | uncut items hnone => rwa [group_of_none hnone] at htoken
  | cut items level hweakest ihfirst ihpart =>
      rw [group_of_weakest hweakest, groupAt] at htoken
      rcases List.mem_append.mp htoken with htoken | htoken
      · rcases mem_grouped htoken with htoken | hgroup
        · exact mem_of_mem_cutAt_fst (ihfirst htoken)
        · simp [Tree.groupOf] at hgroup
      obtain ⟨part, hpart, htoken⟩ := List.mem_flatMap.mp htoken
      apply mem_of_mem_cutAt_snd hpart
      rcases List.mem_cons.mp htoken with htoken | htoken
      · exact htoken ▸ List.mem_cons_self
      rcases mem_grouped htoken with htoken | hgroup
      · exact List.mem_cons_of_mem _ (ihpart part hpart htoken)
      · simp [Tree.groupOf] at hgroup

/-- A group that takes the place of a part of a run: the part has several operands, and
its operators all bind tighter than one that stays. -/
structure IsGroupFor (table : PrecedenceTable) (items : List Tree) (item : Tree)
    (piece : List Tree) : Prop where
  eq_groupOf : item = .groupOf (table.group piece)
  alternates : Alternates Tree.IsTerm (table.hasLevel ·) piece
  several : 1 < piece.length
  shorter : piece.length < items.length
  subset : piece ⊆ items
  tighter : ∃ beside, .leaf beside ∈ table.group items ∧
    ∀ inside, .leaf inside ∈ piece → table.Looser beside inside

/-- At a cut, an operator of the lowest level stays. -/
private theorem exists_stays {level : Int}
    (hitems : Alternates Tree.IsTerm (table.hasLevel ·) items)
    (hweakest : table.weakest? items = some level) :
    ∃ beside, .leaf beside ∈ table.group items ∧ table.level? beside = some level := by
  have hcut := hitems.cutAt (table.not_atLevel_of_isTerm level)
  obtain ⟨part, hpart⟩ := exists_cut hweakest
  obtain ⟨⟨beside, hbeside, -⟩, -⟩ := hcut.2 part hpart
  have hlevel := ((not_cut_of_mem_cutAt _ items).2 part hpart).1
  refine ⟨beside, ?_, by simpa [atLevel, hbeside, itemLevel?] using hlevel⟩
  rw [group_of_weakest hweakest, groupAt]
  refine List.mem_append_right _ (List.mem_flatMap.mpr ⟨part, hpart, ?_⟩)
  exact hbeside ▸ List.mem_cons_self

/-- The operators inside a piece bind tighter than those at which the run is cut. -/
private theorem looser_of_piece {level : Int} {piece : List Tree} {beside inside : Token}
    (hweakest : table.weakest? items = some level)
    (hpiece : Alternates Tree.IsTerm (table.hasLevel ·) piece) (hsubset : piece ⊆ items)
    (hnot : ∀ other ∈ piece, table.atLevel level other = false)
    (hbeside : table.level? beside = some level) (hinside : .leaf inside ∈ piece) :
    table.Looser beside inside := by
  rcases hpiece.mem hinside with hterm | ⟨other, hother, hlevel⟩
  · simp [Tree.IsTerm, Tree.hasLabel] at hterm
  obtain rfl : inside = other := by simpa using hother
  obtain ⟨high, hhigh⟩ := hasLevel_iff.mp hlevel
  have hle := (weakest?_eq_some_iff.mp hweakest).2 _ (hsubset hinside) high hhigh
  have hne : high ≠ level := by simpa [atLevel, itemLevel?, hhigh] using hnot _ hinside
  exact ⟨level, high, hbeside, hhigh, by omega⟩

/-- A piece of the cut, as one operand. -/
private theorem mem_or_isGroupFor {level : Int} {piece : List Tree} {item : Tree}
    (hitems : Alternates Tree.IsTerm (table.hasLevel ·) items)
    (hweakest : table.weakest? items = some level)
    (hpiece : Alternates Tree.IsTerm (table.hasLevel ·) piece)
    (hshorter : piece.length < items.length) (hsubset : piece ⊆ items)
    (hnot : ∀ other ∈ piece, table.atLevel level other = false)
    (hitem : item ∈ grouped (table.group piece)) :
    item ∈ items ∨ table.IsGroupFor items item piece := by
  -- only a piece with an operator becomes a group
  by_cases hseveral : 1 < piece.length
  · have hlength := one_lt_length_group hpiece hseveral
    rw [grouped_of_length (by omega), List.mem_singleton] at hitem
    obtain ⟨beside, hstays, hbeside⟩ := exists_stays hitems hweakest
    refine Or.inr ⟨hitem, hpiece, hseveral, hshorter, hsubset, beside, hstays, ?_⟩
    exact fun inside => looser_of_piece hweakest hpiece hsubset hnot hbeside
  · cases hpiece with
    | last htree =>
        rw [group_singleton htree] at hitem
        exact Or.inl (hsubset hitem)
    | more htree htoken hrest => simp at hseveral

/-- A grouped run holds items of the run, and groups in the place of its parts. -/
theorem mem_group (hitems : Alternates Tree.IsTerm (table.hasLevel ·) items) {item : Tree}
    (hitem : item ∈ table.group items) :
    item ∈ items ∨ ∃ piece, table.IsGroupFor items item piece := by
  cases hweakest : table.weakest? items with
  | none => exact Or.inl (by rwa [group_of_none (weakest?_eq_none_iff.mp hweakest)] at hitem)
  | some level =>
      have hcut := hitems.cutAt (table.not_atLevel_of_isTerm level)
      obtain ⟨hfirst, hparts⟩ := not_cut_of_mem_cutAt (table.atLevel level) items
      rw [group_of_weakest hweakest, groupAt] at hitem
      rcases List.mem_append.mp hitem with hitem | hitem
      · have hshorter := length_cutAt_fst_lt (exists_atLevel hweakest)
        have hpiece := mem_or_isGroupFor hitems hweakest hcut.1 hshorter
          (fun other hother => mem_of_mem_cutAt_fst hother) hfirst hitem
        exact hpiece.imp_right fun hgroup => ⟨_, hgroup⟩
      obtain ⟨part, hpart, hitem⟩ := List.mem_flatMap.mp hitem
      rcases List.mem_cons.mp hitem with rfl | hitem
      · exact Or.inl (mem_of_mem_cutAt_snd hpart List.mem_cons_self)
      · have hshorter := length_cutAt_snd_lt hpart
        have hpiece := mem_or_isGroupFor hitems hweakest (hcut.2 part hpart).2 hshorter
          (fun other hother => mem_of_mem_cutAt_snd hpart (List.mem_cons_of_mem _ hother))
          (hparts part hpart).2 hitem
        exact hpiece.imp_right fun hgroup => ⟨_, hgroup⟩

/-- Nothing is grouped where no operator binds tighter than another. -/
theorem group_eq_self (hitems : Alternates Tree.IsTerm (table.hasLevel ·) items)
    (hsame : ∀ first second, .leaf first ∈ items → .leaf second ∈ items →
      ¬ table.Looser first second) : table.group items = items := by
  cases hweakest : table.weakest? items with
  | none => exact group_of_none (weakest?_eq_none_iff.mp hweakest)
  | some level =>
      have hcut := hitems.cutAt (table.not_atLevel_of_isTerm level)
      obtain ⟨hfirst, hparts⟩ := not_cut_of_mem_cutAt (table.atLevel level) items
      obtain ⟨beside, hstays, hbeside⟩ := exists_stays hitems hweakest
      -- a piece with an operator would bind tighter than the operators around it
      have hpiece : ∀ piece, Alternates Tree.IsTerm (table.hasLevel ·) piece →
          piece ⊆ items → (∀ other ∈ piece, table.atLevel level other = false) →
          grouped (table.group piece) = piece := by
        intro piece hrun hsubset hnot
        cases hrun with
        | last htree => simp [group_singleton htree, grouped]
        | @more tree token rest htree htoken hrest =>
            have hinside : .leaf token ∈ tree :: .leaf token :: rest := by simp
            have hlooser := looser_of_piece hweakest (.more htree htoken hrest) hsubset hnot
              hbeside hinside
            exact absurd hlooser
              (hsame beside token (mem_of_leaf_mem_group hstays) (hsubset hinside))
      rw [group_of_weakest hweakest, groupAt, hpiece _ hcut.1
        (fun other hother => mem_of_mem_cutAt_fst hother) hfirst]
      have hrest : ∀ part ∈ (cutAt (table.atLevel level) items).2,
          part.1 :: grouped (table.group part.2) = part.1 :: part.2 := by
        intro part hpart
        rw [hpiece _ (hcut.2 part hpart).2
          (fun other hother => mem_of_mem_cutAt_snd hpart (List.mem_cons_of_mem _ hother))
          (hparts part hpart).2]
      rw [List.flatMap_def, List.map_congr_left hrest, ← List.flatMap_def]
      exact cutAt_join (table.atLevel level) items

/-- What takes lists of trees to lists part by part, and does not see groups, does not see
grouping. -/
theorem eq_of_group {α : Type} {view : List Tree → List α} (hnil : view [] = [])
    (happend : ∀ first second, view (first ++ second) = view first ++ view second)
    (hgrouped : ∀ items, view (grouped items) = view items) (items : List Tree) :
    view (table.group items) = view items := by
  have hflatMap : ∀ (parts : List (Tree × List Tree)) (part : Tree × List Tree → List Tree),
      view (parts.flatMap part) = parts.flatMap fun one => view (part one) := by
    intro parts part
    induction parts with
    | nil => exact hnil
    | cons one parts ih => rw [List.flatMap_cons, happend, ih, List.flatMap_cons]
  induction items using table.group_induction with
  | uncut items hnone => rw [group_of_none hnone]
  | cut items level hweakest ihfirst ihpart =>
      have hpart : ∀ part ∈ (cutAt (table.atLevel level) items).2,
          view (part.1 :: grouped (table.group part.2)) = view (part.1 :: part.2) := by
        intro part hpart
        rw [← List.singleton_append, happend, hgrouped, ihpart part hpart, ← happend,
          List.singleton_append]
      have hjoin := congrArg view (cutAt_join (table.atLevel level) items)
      rw [happend, hflatMap] at hjoin
      rw [group_of_weakest hweakest, groupAt, happend, hgrouped, ihfirst, hflatMap,
        List.flatMap_def, List.map_congr_left hpart, ← List.flatMap_def, hjoin]

/-! ## Only the order of the levels counts -/

namespace SameOrder

variable {other : PrecedenceTable} {tokens : List Token}

theorem level?_eq_none_iff (hsame : table.SameOrder other tokens) {token : Token}
    (htoken : token ∈ tokens) : table.level? token = none ↔ other.level? token = none := by
  have heq := hsame.hasLevel_eq token htoken
  simp only [hasLevel] at heq
  rw [← Option.isNone_iff_eq_none, ← Option.isNone_iff_eq_none, ← Option.not_isSome,
    ← Option.not_isSome, heq]

/-- Two operators are level in both tables or in none. -/
theorem level?_eq_iff (hsame : table.SameOrder other tokens) {first second : Token}
    (hfirst : first ∈ tokens) (hsecond : second ∈ tokens)
    (hoperator : table.hasLevel second = true) :
    table.level? first = table.level? second ↔ other.level? first = other.level? second := by
  have hoperator' := (hsame.hasLevel_eq second hsecond).symm.trans hoperator
  obtain ⟨high, hhigh⟩ := hasLevel_iff.mp hoperator
  obtain ⟨high', hhigh'⟩ := hasLevel_iff.mp hoperator'
  cases hlow : table.level? first with
  | none => simp [hhigh, hhigh', (hsame.level?_eq_none_iff hfirst).mp hlow]
  | some low =>
      cases hlow' : other.level? first with
      | none => simp [(hsame.level?_eq_none_iff hfirst).mpr hlow'] at hlow
      | some low' =>
          have hforth := hsame.looser_iff first hfirst second hsecond
          have hback := hsame.looser_iff second hsecond first hfirst
          simp only [Looser, hlow, hlow', hhigh, hhigh', Option.some.injEq,
            exists_and_left, exists_eq_left'] at hforth hback ⊢
          omega

/-- The operators of the lowest level are the same ones in both tables. -/
theorem weakest? (hsame : table.SameOrder other tokens)
    (hitems : ∀ token, .leaf token ∈ items → token ∈ tokens) {level : Int}
    (hweakest : table.weakest? items = some level) :
    ∃ level', other.weakest? items = some level' ∧
      ∀ item ∈ items, table.atLevel level item = other.atLevel level' item := by
  obtain ⟨⟨lowest, hlowest, hlevel⟩, hleast⟩ := weakest?_eq_some_iff.mp hweakest
  cases lowest with
  | node label children => simp [itemLevel?] at hlevel
  | leaf token =>
      have htoken := hitems token hlowest
      have hoperator : table.hasLevel token = true := hasLevel_iff.mpr ⟨level, hlevel⟩
      obtain ⟨level', hlevel'⟩ :=
        hasLevel_iff.mp ((hsame.hasLevel_eq token htoken).symm.trans hoperator)
      refine ⟨level', weakest?_eq_some_iff.mpr ⟨⟨_, hlowest, hlevel'⟩, ?_⟩, ?_⟩
      · intro item hitem high' hhigh'
        cases item with
        | node label children => simp [itemLevel?] at hhigh'
        | leaf second =>
            refine Int.not_lt.mp fun hlower => ?_
            have hlooser := (hsame.looser_iff second (hitems second hitem) token htoken).mpr
              ⟨high', level', hhigh', hlevel', hlower⟩
            obtain ⟨low, high, hlow, hhigh, hless⟩ := hlooser
            obtain rfl : level = high := Option.some.inj (hlevel.symm.trans hhigh)
            have := hleast _ hitem low hlow
            omega
      · intro item hitem
        cases item with
        | node label children => rfl
        | leaf second =>
            have hiff := hsame.level?_eq_iff (hitems second hitem) htoken hoperator
            rw [show table.level? token = some level from hlevel, hlevel'] at hiff
            exact decide_eq_decide.mpr hiff

end SameOrder

theorem group_congr {other : PrecedenceTable} {tokens : List Token}
    (hsame : table.SameOrder other tokens)
    (hitems : ∀ token, .leaf token ∈ items → token ∈ tokens) :
    table.group items = other.group items := by
  induction items using table.group_induction with
  | uncut items hnone =>
      rw [group_of_none hnone, group_of_none]
      intro item hitem
      cases item with
      | node label children => rfl
      | leaf token =>
          exact (hsame.level?_eq_none_iff (hitems token hitem)).mp (hnone _ hitem)
  | cut items level hweakest ihfirst ihpart =>
      -- the weakest operators are the same in both tables, and so are the cuts
      obtain ⟨level', hweakest', hatLevel⟩ := hsame.weakest? hitems hweakest
      rw [group_of_weakest hweakest, group_of_weakest hweakest', groupAt, groupAt,
        ← cutAt_congr hatLevel,
        ihfirst fun token htoken => hitems token (mem_of_mem_cutAt_fst htoken)]
      congr 1
      rw [List.flatMap_def, List.flatMap_def]
      congr 1
      refine List.map_congr_left fun part hpart => ?_
      rw [ihpart part hpart fun token htoken =>
        hitems token (mem_of_mem_cutAt_snd hpart (List.mem_cons_of_mem _ htoken))]

/-! ## The flat table -/

private theorem lookup_map_one (operators : List String) (text : String) :
    (operators.map fun operator => (operator, (1 : Int))).lookup text =
      if operators.contains text then some 1 else none := by
  induction operators with
  | nil => rfl
  | cons operator operators ih =>
      rw [List.map_cons, List.lookup_cons, ih]
      by_cases htext : text = operator
      · simp [htext]
      · simp [beq_eq_false_iff_ne.mpr htext, htext]

theorem level?_flat (token : Token) :
    flat.level? token = if token.isSymbol binaryOperators then some 1 else none := by
  cases hkind : token.kind <;> cases hvalue : token.value <;>
    simp [level?, levelOf?, flat, Token.isSymbol, Token.isOneOf, hkind, hvalue, lookup_map_one]

/-- The operators of the flat table are the binary operators of the language. -/
theorem hasLevel_flat : flat.hasLevel = fun token => token.isSymbol binaryOperators := by
  funext token
  cases hsymbol : token.isSymbol binaryOperators <;> simp [hasLevel, level?_flat, hsymbol]

theorem not_looser_flat (first second : Token) : ¬ flat.Looser first second := by
  rintro ⟨low, high, hlow, hhigh, hless⟩
  rw [level?_flat] at hlow hhigh
  split at hlow <;> split at hhigh <;> simp_all

end PrecedenceTable

end JackSyntax
