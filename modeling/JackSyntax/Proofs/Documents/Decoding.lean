import JackSyntax.Proofs.Documents.Layout
import JackSyntax.Proofs.Grammar.Soundness
import JackSyntax.Proofs.Reading.Faithfulness
import JackSyntax.Proofs.Source.Spelling

/-!
# Documents determine trees

`decode` reads a document back, character by character, with a stack of open elements.  The
only decision is made where an element ends: a token has a space right after its opening
tag, and a node has a line feed there.  So a node that is named like a kind of tokens is
still told apart from a token of that kind.

* `unescape_escape`: the text of a value is not lost by escaping.
* `reads_layout`: the lines of a tree add just this tree to the innermost open element.
* `document_determines_tree`: decoding gives back the tree, with every value as a text.
  The tokens of a source text are known from their texts, so for them nothing is lost but
  the places.
-/

namespace JackSyntax

/-- A token as a document shows it: its kind, and its value as a text. -/
def Token.written (token : Token) : Token :=
  ⟨token.kind, .text token.value.toText, 0, 0⟩

/-- Whether a label is made of ASCII letters. -/
def IsLettered (label : String) : Prop :=
  ∀ c ∈ label.toList, c.isAlpha = true

theorem TokenKind.isLettered_tag (kind : TokenKind) : IsLettered kind.tag :=
  List.all_eq_true.mp (by cases kind <;> decide +kernel)

theorem Nonterminal.isLettered_label (name : Nonterminal) : IsLettered name.label :=
  List.all_eq_true.mp (by cases name <;> decide +kernel)

theorem IsLettered.not_mem {label : String} (hlabel : IsLettered label) {c : Char}
    (hc : c.isAlpha = false) : c ∉ label.toList := by
  intro hmem
  rw [hlabel c hmem] at hc
  exact Bool.noConfusion hc

theorem Tree.WellGrouped.isLettered {table : PrecedenceTable} {tree : Tree}
    (htree : tree.WellGrouped table) : tree.EveryLabel IsLettered := by
  refine htree.everyLabel.mono ?_
  rintro _ ⟨name, rfl⟩
  exact name.isLettered_label

namespace Document

open JackSyntax.Tree

/-! ## Values -/

/-- Every occurrence of a character, replaced by a text. -/
def replaceChar (old : Char) (new : String) (text : List Char) : List Char :=
  text.flatMap fun c => if c = old then new.toList else [c]

/-- Escaping at one go is the same as replacing the three characters one after the other,
the ampersand first. -/
theorem escape_eq_replaceChar (value : String) :
    (escape value).toList = replaceChar '<' "&lt;"
      (replaceChar '>' "&gt;" (replaceChar '&' "&amp;" value.toList)) := by
  rw [escape, String.toList_ofList]
  simp only [replaceChar, List.flatMap_assoc]
  refine List.flatMap_congr fun c _ => ?_
  by_cases hand : c = '&'
  · subst hand
    decide
  by_cases hless : c = '<'
  · subst hless
    decide
  by_cases hgreater : c = '>'
  · subst hgreater
    decide
  simp [escapeChar, hand, hless, hgreater]

/-- The text that was escaped. -/
def unescape : List Char → List Char
  | '&' :: 'a' :: 'm' :: 'p' :: ';' :: rest => '&' :: unescape rest
  | '&' :: 'l' :: 't' :: ';' :: rest => '<' :: unescape rest
  | '&' :: 'g' :: 't' :: ';' :: rest => '>' :: unescape rest
  | c :: rest => c :: unescape rest
  | [] => []

theorem unescape_cons {c : Char} (hand : c ≠ '&') (rest : List Char) :
    unescape (c :: rest) = c :: unescape rest := by
  rw [unescape] <;> simp [hand]

theorem unescape_escapeChar (c : Char) (rest : List Char) :
    unescape (escapeChar c ++ rest) = c :: unescape rest := by
  unfold escapeChar
  split
  · next hand => subst hand; rfl
  split
  · next hless => subst hless; rfl
  split
  · next hgreater => subst hgreater; rfl
  · next hand _ _ => exact unescape_cons hand rest

theorem unescape_escape (value : String) : unescape (escape value).toList = value.toList := by
  rw [escape, String.toList_ofList]
  induction value.toList with
  | nil => rfl
  | cons c text ih => rw [List.flatMap_cons, unescape_escapeChar, ih]

theorem not_mem_escape (value : String) : '<' ∉ (escape value).toList := by
  rw [escape, String.toList_ofList, List.mem_flatMap]
  rintro ⟨c, -, hmem⟩
  revert hmem
  unfold escapeChar
  split
  · decide
  split
  · decide
  split
  · decide
  · next hless _ => simpa using Ne.symm hless

/-! ## Decoding -/

/-- What has been read of a document. -/
structure Decoding where
  /-- The labels of the open elements and their parts so far, innermost first.  Below them
  stands a place for the root. -/
  opened : List (String × List Tree)
  /-- The characters since the last tag. -/
  text : List Char
  /-- The characters of the tag that has begun, if one has. -/
  tag? : Option (List Char)

/-- The element with the given label, text and parts: a token if the text begins with a
space and the label is a kind, and a node otherwise. -/
def elementOf (label : String) (text : List Char) (parts : List Tree) : Tree :=
  match text, TokenKind.ofTag? label with
  | ' ' :: padded, some kind =>
      .leaf ⟨kind, .text (String.ofList (unescape padded.dropLast)), 0, 0⟩
  | _, _ => .node label parts

namespace Decoding

/-- Nothing has been read. -/
def start : Decoding :=
  ⟨[("", [])], [], none⟩

/-- What a tag does: a slash ends the innermost element, and any other tag opens one. -/
def afterTag (decoding : Decoding) : List Char → Decoding
  | '/' :: _ =>
      match decoding.opened with
      | (label, parts) :: (outer, earlier) :: opened =>
          ⟨(outer, earlier ++ [elementOf label decoding.text parts]) :: opened, [], none⟩
      | opened => ⟨opened, [], none⟩
  | name => ⟨(String.ofList name, []) :: decoding.opened, [], none⟩

/-- Reads one character. -/
def next (decoding : Decoding) (c : Char) : Decoding :=
  match decoding.tag? with
  | none =>
      if c = '<' then { decoding with tag? := some [] }
      else { decoding with text := decoding.text ++ [c] }
  | some tag =>
      if c = '>' then decoding.afterTag tag else { decoding with tag? := some (tag ++ [c]) }

/-- Reads characters from left to right. -/
def reads (decoding : Decoding) (text : List Char) : Decoding :=
  text.foldl next decoding

end Decoding

/-- The tree of a document, with every value as a text. -/
def decode (document : String) : Option Tree :=
  match (Decoding.start.reads document.toList).opened with
  | [(_, [tree])] => some tree
  | _ => none

namespace Decoding

variable {opened : List (String × List Tree)} {text : List Char}

theorem reads_append (decoding : Decoding) (first second : List Char) :
    decoding.reads (first ++ second) = (decoding.reads first).reads second :=
  List.foldl_append

theorem reads_text {more : List Char} (hmore : '<' ∉ more) :
    (Decoding.mk opened text none).reads more = ⟨opened, text ++ more, none⟩ := by
  induction more generalizing text with
  | nil => simp [reads]
  | cons c more ih =>
      rw [List.mem_cons, not_or] at hmore
      have hnext : (Decoding.mk opened text none).next c = ⟨opened, text ++ [c], none⟩ :=
        if_neg (Ne.symm hmore.1)
      calc (Decoding.mk opened text none).reads (c :: more)
          = ((Decoding.mk opened text none).next c).reads more := rfl
        _ = ⟨opened, text ++ c :: more, none⟩ := by rw [hnext, ih hmore.2]; simp

theorem reads_name {tag name : List Char} (hname : '>' ∉ name) :
    (Decoding.mk opened text (some tag)).reads name = ⟨opened, text, some (tag ++ name)⟩ := by
  induction name generalizing tag with
  | nil => simp [reads]
  | cons c name ih =>
      rw [List.mem_cons, not_or] at hname
      have hnext : (Decoding.mk opened text (some tag)).next c =
          ⟨opened, text, some (tag ++ [c])⟩ := if_neg (Ne.symm hname.1)
      calc (Decoding.mk opened text (some tag)).reads (c :: name)
          = ((Decoding.mk opened text (some tag)).next c).reads name := rfl
        _ = ⟨opened, text, some (tag ++ c :: name)⟩ := by rw [hnext, ih hname.2]; simp

/-- Reading a whole tag. -/
theorem reads_tag {name : List Char} (hname : '>' ∉ name) (rest : List Char) :
    (Decoding.mk opened text none).reads ('<' :: name ++ '>' :: rest) =
      ((Decoding.mk opened text none).afterTag name).reads rest := by
  have hbegin : (Decoding.mk opened text none).reads ('<' :: name) =
      ⟨opened, text, some name⟩ := reads_name hname
  rw [reads_append, hbegin]
  rfl

theorem afterTag_of_isLettered {name : String} (hname : IsLettered name)
    (decoding : Decoding) :
    decoding.afterTag name.toList = ⟨(name, []) :: decoding.opened, [], none⟩ := by
  unfold afterTag
  split
  · next rest hslash =>
      exact absurd (hslash ▸ List.mem_cons_self) (hname.not_mem (c := '/') rfl)
  · rw [String.ofList_toList]

/-! ## Lines -/

theorem reads_openTag {label : String} (hlabel : IsLettered label)
    (rest : List Char) :
    (Decoding.mk opened text none).reads ((openTag label).toList ++ rest) =
      (Decoding.mk ((label, []) :: opened) [] none).reads rest := by
  have hchars : (openTag label).toList ++ rest = '<' :: label.toList ++ '>' :: rest := by
    simp [openTag]
  rw [hchars, reads_tag (hlabel.not_mem rfl), afterTag_of_isLettered hlabel]

theorem reads_closeTag {label : String} (hlabel : IsLettered label)
    (own outer : String) (parts earlier : List Tree) (rest : List Char) :
    (Decoding.mk ((own, parts) :: (outer, earlier) :: opened) text none).reads
        ((closeTag label).toList ++ rest) =
      (Decoding.mk ((outer, earlier ++ [elementOf own text parts]) :: opened) [] none).reads
        rest := by
  have hchars : (closeTag label).toList ++ rest =
      '<' :: ('/' :: label.toList) ++ '>' :: rest := by
    simp [closeTag]
  have hname : '>' ∉ '/' :: label.toList :=
    List.not_mem_cons_of_ne_of_not_mem (by decide) (hlabel.not_mem rfl)
  rw [hchars, reads_tag hname]
  rfl

/-- The spaces before a line are text. -/
theorem reads_indent (depth : Nat) (line : String) (rest : List Char) :
    (Decoding.mk opened text none).reads ((indent depth line).toList ++ rest) =
      (Decoding.mk opened (text ++ List.replicate (2 * depth) ' ') none).reads
        (line.toList ++ rest) := by
  have hspaces : '<' ∉ List.replicate (2 * depth) ' ' := by simp
  rw [indent, String.toList_append, String.toList_ofList, List.append_assoc, reads_append,
    reads_text hspaces]

/-- The padding of a value tells it from a node, and is taken off again. -/
theorem elementOf_tag (token : Token) (parts : List Tree) :
    elementOf token.kind.tag (' ' :: (escape token.value.toText).toList ++ [' ']) parts =
      .leaf token.written := by
  have hvalue : String.ofList (unescape
      ((escape token.value.toText).toList ++ [' ']).dropLast) = token.value.toText := by
    rw [List.dropLast_concat, unescape_escape, String.ofList_toList]
  simp only [elementOf, List.cons_append, TokenKind.ofTag?_tag, hvalue]
  rfl

theorem reads_element (token : Token) (outer : String) (earlier : List Tree)
    (rest : List Char) :
    (Decoding.mk ((outer, earlier) :: opened) text none).reads
        ((element token).toList ++ rest) =
      (Decoding.mk ((outer, earlier ++ [.leaf token.written]) :: opened) [] none).reads
        rest := by
  have hchars : (element token).toList ++ rest = (openTag token.kind.tag).toList ++
      ((' ' :: (escape token.value.toText).toList ++ [' ']) ++
        ((closeTag token.kind.tag).toList ++ rest)) := by
    simp [element]
  have hvalue : '<' ∉ ' ' :: (escape token.value.toText).toList ++ [' '] := by
    simpa using not_mem_escape token.value.toText
  rw [hchars, reads_openTag token.kind.isLettered_tag, reads_append, reads_text hvalue,
    List.nil_append, reads_closeTag token.kind.isLettered_tag, elementOf_tag]

/-- The end of a line is text. -/
theorem reads_feed (rest : List Char) :
    (Decoding.mk opened [] none).reads ('\n' :: rest) =
      (Decoding.mk opened ['\n'] none).reads rest :=
  rfl

/-! ## Trees -/

mutual

/-- The lines of a tree add the tree to the innermost open element, and leave the end of
their last line. -/
theorem reads_layout (depth : Nat) (outer : String) (opened : List (String × List Tree)) :
    ∀ (tree : Tree), tree.EveryLabel IsLettered → ∀ (earlier : List Tree) (text : List Char),
      (Decoding.mk ((outer, earlier) :: opened) text none).reads
          (unlines (layout depth tree)).toList =
        ⟨(outer, earlier ++ [tree.mapTokens Token.written]) :: opened, ['\n'], none⟩
  | leaf token, _, earlier, text => by
      rw [layout, toList_unlines_cons, reads_indent, reads_element, reads_feed]
      rfl
  | node label children, htree, earlier, text => by
      have hlabel := htree.root
      have hchildren := reads_layoutAll (depth + 1) label ((outer, earlier) :: opened) children
        htree.child []
      calc (Decoding.mk ((outer, earlier) :: opened) text none).reads
            (unlines (layout depth (node label children))).toList
          = ((Decoding.mk ((label, []) :: (outer, earlier) :: opened) ['\n'] none).reads
              (unlines (layoutAll (depth + 1) children)).toList).reads
                (unlines [indent depth (closeTag label)]).toList := by
            rw [layout, List.cons_append, toList_unlines_cons, toList_unlines_append,
              reads_indent, reads_openTag hlabel, reads_feed, reads_append]
        _ = (Decoding.mk ((label, mapTokensAll Token.written children) :: (outer, earlier) ::
              opened) ['\n'] none).reads (unlines [indent depth (closeTag label)]).toList := by
            rw [hchildren, List.nil_append]
        _ = ⟨(outer, earlier ++ [(node label children).mapTokens Token.written]) :: opened,
              ['\n'], none⟩ := by
            rw [toList_unlines_cons, reads_indent, reads_closeTag hlabel, reads_feed]
            -- a line feed stands after the opening tag, so this is a node
            rfl

theorem reads_layoutAll (depth : Nat) (outer : String) (opened : List (String × List Tree)) :
    ∀ (trees : List Tree), (∀ tree ∈ trees, tree.EveryLabel IsLettered) → ∀ (earlier : List Tree),
      (Decoding.mk ((outer, earlier) :: opened) ['\n'] none).reads
          (unlines (layoutAll depth trees)).toList =
        ⟨(outer, earlier ++ mapTokensAll Token.written trees) :: opened, ['\n'], none⟩
  | [], _, earlier => by
      rw [mapTokensAll, List.append_nil]
      rfl
  | tree :: trees, htrees, earlier => by
      have hrest := reads_layoutAll depth outer opened trees
        (fun other hother => htrees other (List.mem_cons_of_mem _ hother))
      rw [layoutAll, toList_unlines_append, reads_append,
        reads_layout depth outer opened tree (htrees tree List.mem_cons_self), hrest, mapTokensAll,
        List.append_assoc, List.singleton_append]

end

end Decoding

/-- Decoding gives back the tree of a document. -/
theorem decode_ofTree {tree : Tree} (htree : tree.EveryLabel IsLettered) :
    decode (ofTree tree) = some (tree.mapTokens Token.written) := by
  rw [decode, ofTree, treeLines_eq_layout, Decoding.start,
    Decoding.reads_layout 0 "" [] tree htree]
  rfl

/-- A node with the name of a kind, and a token of this kind with a space in its value. -/
example : decode "<symbol>\n</symbol>\n" = some (.node "symbol" []) ∧
    decode "<symbol>  &lt; </symbol>\n" = some (.leaf ⟨.symbol, .text " <", 0, 0⟩) :=
  ⟨by cbv, by cbv⟩

/-- Documents are the same exactly when the trees are, with their values as texts. -/
theorem ofTree_eq_iff {tree tree' : Tree} (htree : tree.EveryLabel IsLettered)
    (htree' : tree'.EveryLabel IsLettered) :
    ofTree tree = ofTree tree' ↔
      tree.mapTokens Token.written = tree'.mapTokens Token.written := by
  constructor
  · intro hsame
    rw [← Option.some_inj, ← decode_ofTree htree, ← decode_ofTree htree', hsame]
  · intro hsame
    have hwritten : ∀ token : Token, element token.written = element token := fun _ => rfl
    rw [← ofTree_mapTokens hwritten tree, hsame, ofTree_mapTokens hwritten]

/-! ## Programs -/

/-- The value of a token of a source text is known from its kind and its text. -/
theorem content_eq_of_written_eq {one other : Token} (hone : one.Scannable)
    (hother : other.Scannable) (hwritten : one.written = other.written) :
    one.content = other.content := by
  obtain ⟨kind, value, line, column⟩ := one
  obtain ⟨kind', value', line', column'⟩ := other
  simp only [Token.written, Token.mk.injEq, TokenValue.text.injEq, and_true] at hwritten
  obtain ⟨rfl, htext⟩ := hwritten
  cases value with
  | text content =>
      cases value' with
      | text content' => exact congrArg (kind, TokenValue.text ·) htext
      | integer number' => cases kind <;> first | exact hone.elim | exact hother.elim
  | integer number =>
      cases value' with
      | text content' => cases kind <;> first | exact hone.elim | exact hother.elim
      | integer number' =>
          cases kind with
          | integerConstant =>
              obtain ⟨digits, rfl⟩ := Int.eq_ofNat_of_zero_le hone.1
              obtain ⟨digits', rfl⟩ := Int.eq_ofNat_of_zero_le hother.1
              obtain rfl : digits = digits' := Nat.repr_inj.mp htext
              rfl
          | _ => exact hone.elim

/-- What is read of a program is a well-grouped class with the tokens of the program. -/
theorem sound_of_read {table : PrecedenceTable} {stack : CallStack} {tokens : List Token}
    {tree : Tree}
    (hread : ((Cursor.ofTokens tokens).read (parseProgram table stack)).1 = .ok tree) :
    (∃ children, tree = .node Nonterminal.classDec.label children) ∧
      tree.WellGrouped table ∧ tree.leaves = tokens :=
  sound_parseProgram (Cursor.parse_eq_done_of_read hread)

end Document

open Document in
/-- A document determines its tree.  With labels of letters, decoding the document gives the
tree back, with every value as a text, so trees with the same document are the same up to
this.  For two programs that are read, whatever the tables and the call stacks, it follows from
equal documents that the tokens have the same kinds and values, and that the trees are the
same up to places. -/
theorem document_determines_tree :
    (∀ tree : Tree, tree.EveryLabel IsLettered →
        decode (ofTree tree) = some (tree.mapTokens Token.written)) ∧
      (∀ tree tree' : Tree, tree.EveryLabel IsLettered → tree'.EveryLabel IsLettered →
        (ofTree tree = ofTree tree' ↔
          tree.mapTokens Token.written = tree'.mapTokens Token.written)) ∧
      ∀ (source source' : String) (tokens tokens' : List Token) (table table' : PrecedenceTable)
        (stack stack' : CallStack) (tree tree' : Tree),
        tokenize source = .ok tokens → tokenize source' = .ok tokens' →
        ((Cursor.ofTokens tokens).read (parseProgram table stack)).1 = .ok tree →
        ((Cursor.ofTokens tokens').read (parseProgram table' stack')).1 = .ok tree' →
        ofTree tree = ofTree tree' →
          tokens.map Token.content = tokens'.map Token.content ∧
            tree.mapTokens Token.unplaced = tree'.mapTokens Token.unplaced := by
  refine ⟨fun tree => decode_ofTree, fun tree tree' => ofTree_eq_iff, ?_⟩
  intro source source' tokens tokens' table table' stack stack' tree tree' htokens htokens'
    hread hread' hdocument
  obtain ⟨-, hgrouped, rfl⟩ := sound_of_read hread
  obtain ⟨-, hgrouped', rfl⟩ := sound_of_read hread'
  have hwritten := (ofTree_eq_iff hgrouped.isLettered hgrouped'.isLettered).mp hdocument
  have hplaces : tree.mapTokens Token.unplaced = tree'.mapTokens Token.unplaced := by
    refine Tree.mapTokens_congr tree tree' (fun one hone other hother hsame => ?_) hwritten
    exact Token.unplaced_eq_iff.mpr (content_eq_of_written_eq
      (scannable_of_tokenize htokens one hone) (scannable_of_tokenize htokens' other hother)
      hsame)
  refine ⟨?_, hplaces⟩
  have hleaves := congrArg Tree.leaves hplaces
  rw [Tree.leaves_mapTokens, Tree.leaves_mapTokens] at hleaves
  have hcontents := congrArg (List.map Token.content) hleaves
  rwa [List.map_map, List.map_map] at hcontents

end JackSyntax
