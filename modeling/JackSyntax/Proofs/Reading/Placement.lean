import JackSyntax.Analysis
import JackSyntax.Proofs.Documents.Layout
import JackSyntax.Proofs.Reading.Comparison
import JackSyntax.Proofs.Reading.Faithfulness

/-!
# Reading does not look at places

Tokens carry the line and the column at which they stand.  No step of a reading depends on
them: two lists of tokens with the same kinds and values are read alike
(`sameReading_of_content_eq`), to trees that differ in the places of their tokens only, or
to errors that differ in their places only.

The strategy is the comparison of two readings (`PrecedenceTable.placement`), for which
corresponding tokens have the same content and corresponding trees are the same without
places.  What is left to show is that grouping does not look at places either
(`group_map`).
-/

namespace JackSyntax

open JackSyntax.Tree

/-! ## Tokens with the same content -/

section Content

variable {one other : Token}

theorem Terminal.accepts_of_content_eq (hsame : one.content = other.content)
    (terminal : Terminal) : terminal.accepts one = terminal.accepts other := by
  obtain ⟨hkind, hvalue⟩ := Prod.mk.inj hsame
  induction terminal with
  | ofKind kind => simp only [accepts, hkind]
  | keyword words => simp only [accepts, Token.isKeyword, Token.isOneOf, hkind, hvalue]
  | symbol marks => simp only [accepts, Token.isSymbol, Token.isOneOf, hkind, hvalue]
  | either first second ihfirst ihsecond => simp only [accepts, ihfirst, ihsecond]

theorem PrecedenceTable.level?_of_content_eq (hsame : one.content = other.content)
    (table : PrecedenceTable) : table.level? one = table.level? other := by
  obtain ⟨hkind, hvalue⟩ := Prod.mk.inj hsame
  rw [level?, level?, hkind, hvalue]

end Content

/-! ## Grouping -/

theorem cutAt_map {isCut : Tree → Bool} {change : Tree → Tree}
    (hchange : ∀ item, isCut (change item) = isCut item) (items : List Tree) :
    cutAt isCut (items.map change) =
      ((cutAt isCut items).1.map change,
        (cutAt isCut items).2.map fun part => (change part.1, part.2.map change)) := by
  induction items with
  | nil => rfl
  | cons item items ih =>
      rw [List.map_cons]
      cases hcut : isCut item with
      | true =>
          rw [cutAt_cons_of_cut _ (by rw [hchange, hcut]), cutAt_cons_of_cut _ hcut, ih]
          rfl
      | false =>
          rw [cutAt_cons_of_not_cut _ (by rw [hchange, hcut]), cutAt_cons_of_not_cut _ hcut, ih]
          rfl

theorem grouped_map (change : Token → Token) (items : List Tree) :
    grouped (items.map (mapTokens change)) = (grouped items).map (mapTokens change) := by
  match items with
  | [] => rfl
  | [item] => rfl
  | first :: second :: items => simp [grouped, mapTokens, mapTokensAll_eq_map]

namespace PrecedenceTable

variable {table : PrecedenceTable} {change : Token → Token}

theorem itemLevel?_mapTokens (hlevel : ∀ token, table.level? (change token) = table.level? token)
    (item : Tree) : table.itemLevel? (item.mapTokens change) = table.itemLevel? item := by
  cases item with
  | leaf token => exact hlevel token
  | node label children => rfl

/-- Grouping commutes with changes of the tokens that keep their levels. -/
theorem group_map (hlevel : ∀ token, table.level? (change token) = table.level? token)
    (items : List Tree) :
    table.group (items.map (mapTokens change)) = (table.group items).map (mapTokens change) := by
  have hitem := itemLevel?_mapTokens hlevel
  induction items using table.group_induction with
  | uncut items hnone =>
      have hnone' : ∀ item ∈ items.map (mapTokens change), table.itemLevel? item = none := by
        intro _ hmapped
        obtain ⟨item, hmem, rfl⟩ := List.mem_map.mp hmapped
        rw [hitem, hnone item hmem]
      rw [group_of_none hnone, group_of_none hnone']
  | cut items level hweakest ihfirst ihpart =>
      have hweakest' : table.weakest? (items.map (mapTokens change)) = some level := by
        rw [← hweakest, weakest?, weakest?, List.filterMap_map]
        exact congrArg List.min? (List.filterMap_congr fun item _ => hitem item)
      have hcut : ∀ item, table.atLevel level (mapTokens change item) = table.atLevel level item :=
        fun item => by rw [atLevel, atLevel, hitem]
      rw [group_of_weakest hweakest, group_of_weakest hweakest', groupAt, groupAt, cutAt_map hcut,
        ihfirst, grouped_map, List.map_append, List.flatMap_map, List.map_flatMap]
      congr 1
      rw [List.flatMap_def, List.flatMap_def]
      congr 1
      refine List.map_congr_left fun part hpart => ?_
      rw [ihpart part hpart, grouped_map, List.map_cons]

theorem mapTokensAll_group (hlevel : ∀ token, table.level? (change token) = table.level? token)
    (items : List Tree) :
    mapTokensAll change (table.group items) = table.group (mapTokensAll change items) := by
  rw [mapTokensAll_eq_map, mapTokensAll_eq_map, group_map hlevel]

/-! ## Two readings -/

/-- Tokens of the same content make the same trees up to places. -/
def placement (table : PrecedenceTable) : Likeness table table where
  token one other := one.content = other.content
  trees first second := mapTokensAll Token.unplaced first = mapTokensAll Token.unplaced second
  accepts _ terminal _ _ _ hsame := terminal.accepts_of_content_eq hsame
  hasLevel _ _ hsame := by rw [hasLevel, hasLevel, table.level?_of_content_eq hsame]
  nil := rfl
  leaf one other hsame := by
    simp only [mapTokensAll, mapTokens, Token.unplaced_eq_iff.mpr hsame]
  append first first' second second' hfirst hsecond := by
    rw [mapTokensAll_append, mapTokensAll_append, hfirst, hsecond]
  node name children children' hchildren := by
    simp only [mapTokensAll, mapTokens, hchildren]
  expression items items' hitems := by
    have hlevel : ∀ token, table.level? token.unplaced = table.level? token := fun token =>
      table.level?_of_content_eq rfl
    simp only [mapTokensAll, mapTokens, mapTokensAll_group hlevel, hitems]

end PrecedenceTable

/-- Lists that correspond token by token are aligned as far as any place in the first. -/
theorem Aligned.of_forall₂ {same : Token → Token → Prop} {rest tokens tokens' : List Token}
    (hsame : List.Forall₂ same tokens tokens') (hrest : rest <:+ tokens) :
    ∃ left, left <:+ tokens' ∧ List.Forall₂ same rest left ∧
      Aligned same rest left tokens tokens' := by
  induction hsame with
  | nil =>
      obtain rfl := List.suffix_nil.mp hrest
      exact ⟨[], List.suffix_rfl, .nil, .here .none⟩
  | @cons token token' tokens tokens' htoken htokens ih =>
      rcases List.suffix_cons_iff.mp hrest with rfl | hrest
      · exact ⟨token' :: tokens', List.suffix_rfl, .cons htoken htokens, .here (.some htoken)⟩
      · obtain ⟨left, hleft, hends, haligned⟩ := ih hrest
        exact ⟨left, hleft.trans (List.suffix_cons token' tokens'), hends,
          .step htoken haligned⟩

/-- Two readings come to the same up to places. -/
inductive SameReading :
    Except SyntaxError Tree × Cursor → Except SyntaxError Tree × Cursor → Prop
  /-- Both find a tree, and the trees are the same without places, also when they are written
  as documents or shown as outlines. -/
  | parsed {tree tree' : Tree} {cursor cursor' : Cursor}
      (hplaces : tree.mapTokens Token.unplaced = tree'.mapTokens Token.unplaced)
      (hdocument : Document.ofTree tree = Document.ofTree tree')
      (houtline : tree.outline = tree'.outline)
      (hposition : cursor.position = cursor'.position) :
      SameReading (.ok tree, cursor) (.ok tree', cursor')
  /-- Both expect the same, and find tokens of the same content after as many tokens. -/
  | rejected {error error' : SyntaxError} {expected : Expected} {cursor cursor' : Cursor}
      (hobstacle : error.obstacle = .unexpected expected)
      (hobstacle' : error'.obstacle = .unexpected expected)
      (hfound : error.found?.map Token.content = error'.found?.map Token.content)
      (hposition : cursor.position = cursor'.position) :
      SameReading (.error error, cursor) (.error error', cursor')
  | tooDeep {error error' : SyntaxError} {cursor cursor' : Cursor}
      (hobstacle : error.obstacle = .tooDeep) (hobstacle' : error'.obstacle = .tooDeep) :
      SameReading (.error error, cursor) (.error error', cursor')

theorem Document.ofTree_eq_of_unplaced {tree tree' : Tree}
    (hplaces : tree.mapTokens Token.unplaced = tree'.mapTokens Token.unplaced) :
    Document.ofTree tree = Document.ofTree tree' := by
  have helement : ∀ token : Token, Document.element token.unplaced = Document.element token :=
    fun _ => rfl
  rw [← Document.ofTree_mapTokens helement, hplaces, Document.ofTree_mapTokens helement]

theorem Tree.outline_eq_of_unplaced {tree tree' : Tree}
    (hplaces : tree.mapTokens Token.unplaced = tree'.mapTokens Token.unplaced) :
    tree.outline = tree'.outline := by
  have hlexeme : ∀ token : Token, token.unplaced.lexeme = token.lexeme := fun _ => rfl
  rw [← Tree.outline_mapTokens hlexeme, hplaces, Tree.outline_mapTokens hlexeme]

theorem Cursor.position_moveTo_ofTokens (tokens rest : List Token) :
    ((ofTokens tokens).moveTo rest).position = tokens.length - rest.length := by
  simp [moveTo, position, ofTokens]

/-- Tokens of the same content are read alike. -/
theorem sameReading_of_content_eq (table : PrecedenceTable) (stack : CallStack)
    {tokens tokens' : List Token}
    (hsame : tokens.map Token.content = tokens'.map Token.content) :
    SameReading ((Cursor.ofTokens tokens).read (parseProgram table stack))
      ((Cursor.ofTokens tokens').read (parseProgram table stack)) := by
  have hcontents : List.Forall₂ (fun one other => one.content = other.content) tokens tokens' := by
    rwa [← List.forall₂_eq_eq_eq, List.forall₂_map_left_iff, List.forall₂_map_right_iff] at hsame
  obtain ⟨left, hleft, hends, haligned⟩ :=
    Aligned.of_forall₂ hcontents (forward_parseProgram table stack tokens)
  have hstack : stack = stack ∨ False := Or.inl rfl
  have hagree := alike_parseProgram table.placement hstack tokens tokens' left haligned
  have hposition :
      ((Cursor.ofTokens tokens).moveTo (parseProgram table stack tokens).rest).position =
        ((Cursor.ofTokens tokens').moveTo left).position := by
    rw [Cursor.position_moveTo_ofTokens, Cursor.position_moveTo_ofTokens, hcontents.length_eq,
      hends.length_eq]
  have hahead : ∀ tokens, (Cursor.ofTokens tokens).ahead = tokens := fun _ => rfl
  rw [Cursor.read, Cursor.read, hahead, hahead]
  generalize parseProgram table stack tokens = outcome at hends hagree hposition ⊢
  generalize parseProgram table stack tokens' = outcome' at hagree ⊢
  cases hagree with
  | done htrees =>
      have hplaces := List.singleton_inj.mp htrees
      exact .parsed hplaces (Document.ofTree_eq_of_unplaced hplaces)
        (Tree.outline_eq_of_unplaced hplaces) hposition
  | @stopped obstacle rest =>
      cases obstacle with
      | tooDeep => exact .tooDeep SyntaxError.obstacle_before SyntaxError.obstacle_before
      | unexpected expected =>
          refine .rejected SyntaxError.obstacle_before SyntaxError.obstacle_before ?_ hposition
          rw [SyntaxError.found?_before, SyntaxError.found?_before]
          cases hends with
          | nil => rfl
          | cons htoken hmore => exact congrArg some htoken
  | deepFirst hdeep => exact hdeep.elim
  | deepSecond hdeep => exact hdeep.elim

/-! ## The main result -/

/-- Two analyses with one precedence table come to the same up to places: either the table
lacks operators, or the readings come to the same. -/
inductive SameAnalysis : Except AnalysisError Tree → Except AnalysisError Tree → Prop
  | precedence (error : MissingLevels) :
      SameAnalysis (.error (.precedence error)) (.error (.precedence error))
  | read {first second : Except SyntaxError Tree} {cursor cursor' : Cursor}
      (hreading : SameReading (first, cursor) (second, cursor')) :
      SameAnalysis (first.mapError .grammatical) (second.mapError .grammatical)

/-- Where two source texts have tokens of the same kinds and values, however they are laid
out, they are read alike with every precedence table and within every call stack, and their
analyses come to the same. -/
theorem layout_never_matters {source source' : String} {tokens tokens' : List Token}
    (htokens : tokenize source = .ok tokens) (htokens' : tokenize source' = .ok tokens')
    (hsame : tokens.map Token.content = tokens'.map Token.content) :
    (∀ table stack, SameReading ((Cursor.ofTokens tokens).read (parseProgram table stack))
        ((Cursor.ofTokens tokens').read (parseProgram table stack))) ∧
      ∀ room entries,
        SameAnalysis (analyze room entries source) (analyze room entries source') := by
  refine ⟨fun table stack => sameReading_of_content_eq table stack hsame, fun room entries => ?_⟩
  rw [analyze, analyze, prepare, prepare, htokens, htokens']
  cases PrecedenceTable.ofEntries entries with
  | error error => exact .precedence error
  | ok table => exact .read (sameReading_of_content_eq table (table.callStack room) hsame)

/-- Where one of two such readings finds a tree, the other one does. -/
theorem SameReading.exists_tree {reading reading' : Except SyntaxError Tree × Cursor}
    (hsame : SameReading reading reading') {tree : Tree} (hread : reading.1 = .ok tree) :
    ∃ tree', reading'.1 = .ok tree' ∧
      tree.mapTokens Token.unplaced = tree'.mapTokens Token.unplaced := by
  cases hsame with
  | parsed hplaces _ _ _ =>
      cases hread
      exact ⟨_, rfl, hplaces⟩
  | rejected | tooDeep => cases hread

/-- An empty class on one line, and the same class with a comment and a line feed.  Both are
read, and their trees differ in nothing but the places of tokens. -/
theorem layout_never_matters_sample :
    let source := "class A\x7b\x7d"
    let source' := "class/**/A\n\x7b\x7d"
    let stack := PrecedenceTable.arithmetic.callStack 5
    ∃ tokens tokens' tree tree', tokenize source = .ok tokens ∧ tokenize source' = .ok tokens' ∧
      tokens ≠ tokens' ∧
      ((Cursor.ofTokens tokens).read (parseProgram .arithmetic stack)).1 = .ok tree ∧
      ((Cursor.ofTokens tokens').read (parseProgram .arithmetic stack)).1 = .ok tree' ∧
      tree.mapTokens Token.unplaced = tree'.mapTokens Token.unplaced := by
  intro source source' stack
  have htokens : tokenize source =
      .ok [⟨.keyword, .text "class", 1, 1⟩, ⟨.identifier, .text "A", 1, 7⟩,
        ⟨.symbol, .text "\x7b", 1, 8⟩, ⟨.symbol, .text "\x7d", 1, 9⟩] := by
    cbv
  have htokens' : tokenize source' =
      .ok [⟨.keyword, .text "class", 1, 1⟩, ⟨.identifier, .text "A", 1, 10⟩,
        ⟨.symbol, .text "\x7b", 2, 1⟩, ⟨.symbol, .text "\x7d", 2, 2⟩] := by
    cbv
  have hsame := (layout_never_matters htokens htokens' rfl).1 .arithmetic stack
  obtain ⟨tree', htree', hplaces⟩ := hsame.exists_tree rfl
  exact ⟨_, _, _, tree', htokens, htokens', by decide, rfl, htree', hplaces⟩

end JackSyntax
