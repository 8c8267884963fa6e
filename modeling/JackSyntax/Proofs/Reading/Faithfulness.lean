import JackSyntax.Cursor
import JackSyntax.Proofs.Reading.Conservation
import JackSyntax.Proofs.Trees.Walks

/-!
# Reading moves the cursor over what it read

Where reading ends, the cursor has made one step forward for every token taken, and no
step back (`Cursor.advances`).  A tree that is read holds exactly these tokens; a reading
that fails leaves the cursor before the token that was in the way, and the error names
that token and its place.

`Parser.Faithful` puts this together, and `Parser.faithful` derives it for every reader
that goes forward and keeps the tokens.  All productions are such readers.
-/

namespace JackSyntax

namespace Cursor

/-! ## Steps forward -/

/-- The cursor after some steps forward. -/
def advances (cursor : Cursor) : Nat → Except CursorError Cursor
  | 0 => .ok cursor
  | count + 1 =>
      match cursor.advance with
      | .error error => .error error
      | .ok (_, moved) => moved.advances count

variable {cursor : Cursor} {taken rest : List Token}

theorem moveTo_eq (hahead : cursor.ahead = taken ++ rest) :
    cursor.moveTo rest =
      ⟨taken.reverse ++ cursor.behind, rest, cursor.mayRetreat || !taken.isEmpty⟩ := by
  simp [moveTo, hahead]

theorem position_moveTo (hahead : cursor.ahead = taken ++ rest) :
    (cursor.moveTo rest).position = cursor.position + taken.length := by
  rw [moveTo_eq hahead]
  simp [position, Nat.add_comm]

/-- Moving past some tokens is one step forward for each of them. -/
theorem advances_length (hahead : cursor.ahead = taken ++ rest) :
    cursor.advances taken.length = .ok (cursor.moveTo rest) := by
  induction taken generalizing cursor with
  | nil =>
      rw [moveTo_eq hahead]
      have hrest : cursor.ahead = rest := hahead
      simp [advances, ← hrest]
  | cons token taken ih =>
      have hstep : cursor.advance =
          .ok (token, ⟨token :: cursor.behind, taken ++ rest, true⟩) := by
        simp [advance, hahead]
      have hmore : advances ⟨token :: cursor.behind, taken ++ rest, true⟩ taken.length =
          .ok (moveTo ⟨token :: cursor.behind, taken ++ rest, true⟩ rest) := ih rfl
      rw [List.length_cons, advances, hstep]
      simp only [hmore]
      rw [moveTo_eq rfl, moveTo_eq hahead]
      simp

/-- The tokens between two places of the cursor. -/
theorem tokens_between (hahead : cursor.ahead = taken ++ rest) :
    (cursor.tokens.drop cursor.position).take taken.length = taken := by
  simp [tokens, position, hahead]

end Cursor

/-! ## Faithful readers -/

/-- Reading from a cursor moves it step by step over the tokens that the tree holds, or up
to the token that the error is about. -/
structure Parser.Faithful (parser : Parser Tree) (cursor : Cursor) : Prop where
  tokens_eq : (cursor.read parser).2.tokens = cursor.tokens
  position_le : cursor.position ≤ (cursor.read parser).2.position
  advances_eq :
    cursor.advances ((cursor.read parser).2.position - cursor.position) =
      .ok (cursor.read parser).2
  tree_tokens : ∀ tree, (cursor.read parser).1 = .ok tree →
    tree.tokens = (cursor.tokens.drop cursor.position).take
      ((cursor.read parser).2.position - cursor.position)
  found_eq : ∀ error, (cursor.read parser).1 = .error error →
    error.found? = (cursor.read parser).2.peek?
  place_of_found : ∀ error token, (cursor.read parser).1 = .error error →
    error.found? = some token → error.line = token.line ∧ error.column = token.column
  place_of_last : ∀ error token, (cursor.read parser).1 = .error error →
    error.found? = none → cursor.tokens.getLast? = some token →
    error.line = token.line ∧ error.column = token.column
  place_of_empty : ∀ error, (cursor.read parser).1 = .error error →
    cursor.tokens = [] → error.line = 1 ∧ error.column = 1

namespace SyntaxError

variable {obstacle : Obstacle} {rest : List Token} {last? : Option Token}

theorem found?_before : (before obstacle rest last?).found? = rest.head? := by
  cases rest with
  | nil => cases last? <;> rfl
  | cons token rest => rfl

theorem obstacle_before : (before obstacle rest last?).obstacle = obstacle := by
  rw [before]
  split <;> rfl

theorem place_before {token : Token} (hplace : rest.head?.or last? = some token) :
    (before obstacle rest last?).line = token.line ∧
      (before obstacle rest last?).column = token.column := by
  simp [before, hplace]

end SyntaxError

namespace Cursor

variable {parser : Parser Tree} {cursor : Cursor}

theorem snd_read (parser : Parser Tree) (cursor : Cursor) :
    (cursor.read parser).2 = cursor.moveTo (parser cursor.ahead).rest := by
  rw [read]
  cases parser cursor.ahead <;> rfl

theorem parse_eq_done_of_read {tree : Tree} (hread : (cursor.read parser).1 = .ok tree) :
    parser cursor.ahead = .done tree (parser cursor.ahead).rest := by
  rw [read] at hread
  cases hparse : parser cursor.ahead with
  | stopped obstacle rest => simp [hparse] at hread
  | done value rest =>
      rw [hparse] at hread
      rw [Except.ok.inj hread]
      rfl

theorem error_eq_before_of_read {error : SyntaxError}
    (hread : (cursor.read parser).1 = .error error) :
    ∃ obstacle, error = .before obstacle (parser cursor.ahead).rest cursor.last? := by
  rw [read] at hread
  cases hparse : parser cursor.ahead with
  | done tree rest => simp [hparse] at hread
  | stopped obstacle rest =>
      rw [hparse] at hread
      exact ⟨obstacle, (Except.error.inj hread).symm⟩

end Cursor

theorem Parser.faithful {parser : Parser Tree} (hforward : parser.Forward)
    (hkeeps : parser.KeepsTree) (cursor : Cursor) : parser.Faithful cursor := by
  obtain ⟨taken, htaken⟩ := hforward cursor.ahead
  have hahead : cursor.ahead = taken ++ (parser cursor.ahead).rest := htaken.symm
  have hmoved := Cursor.snd_read parser cursor
  have hsteps : (cursor.read parser).2.position - cursor.position = taken.length := by
    rw [hmoved, Cursor.position_moveTo hahead, Nat.add_sub_cancel_left]
  constructor
  case tokens_eq =>
    rw [hmoved]
    exact Cursor.tokens_moveTo ⟨taken, htaken⟩
  case position_le =>
    rw [hmoved, Cursor.position_moveTo hahead]
    exact Nat.le_add_right _ _
  case advances_eq =>
    rw [hsteps, hmoved]
    exact Cursor.advances_length hahead
  case tree_tokens =>
    intro tree hread
    have hleaves := hkeeps _ _ _ (Cursor.parse_eq_done_of_read hread)
    rw [hsteps, Cursor.tokens_between hahead, Tree.tokens_eq_leaves]
    exact List.append_cancel_right (hleaves.trans hahead)
  case found_eq =>
    intro error hread
    obtain ⟨obstacle, rfl⟩ := Cursor.error_eq_before_of_read hread
    rw [hmoved, SyntaxError.found?_before]
    rfl
  case place_of_found =>
    intro error token hread hfound
    obtain ⟨obstacle, rfl⟩ := Cursor.error_eq_before_of_read hread
    rw [SyntaxError.found?_before] at hfound
    exact SyntaxError.place_before (by rw [hfound]; rfl)
  case place_of_last =>
    intro error token hread hfound hlast
    obtain ⟨obstacle, rfl⟩ := Cursor.error_eq_before_of_read hread
    rw [SyntaxError.found?_before] at hfound
    rw [← Cursor.last?_eq] at hlast
    exact SyntaxError.place_before (by rw [hfound, hlast]; rfl)
  case place_of_empty =>
    intro error hread hempty
    obtain ⟨obstacle, rfl⟩ := Cursor.error_eq_before_of_read hread
    -- without tokens there is nothing ahead, and so nothing is left
    have hnil : cursor.ahead = [] := (List.append_eq_nil_iff.mp hempty).2
    have hrest : (parser cursor.ahead).rest = [] :=
      (List.append_eq_nil_iff.mp (htaken.trans hnil)).2
    rw [hrest, Cursor.last?_eq, hempty]
    exact ⟨rfl, rfl⟩

/-! ## All productions -/

theorem keepsTree_parseProgram (table : PrecedenceTable) (stack : CallStack) :
    (parseProgram table stack).KeepsTree := by
  intro tokens tree rest hread
  obtain ⟨hclass, rfl⟩ := parseProgram_eq_done_iff.mp hread
  exact Nonterminal.leaves_parse table stack.extended .classDec _ _ _ hclass

/-- Whatever production is read and wherever the cursor stands, it moves forward over just
the tokens that the tree holds, or stops before the token of the error.  A whole program
holds all tokens. -/
theorem faithful_parse (table : PrecedenceTable) (stack : CallStack) :
    (∀ (name : Nonterminal) (cursor : Cursor), (name.parse table stack).Faithful cursor) ∧
      (∀ cursor : Cursor, (parseProgram table stack).Faithful cursor) ∧
      ∀ tokens tree, ((Cursor.ofTokens tokens).read (parseProgram table stack)).1 = .ok tree →
        tree.tokens = tokens := by
  refine ⟨fun name cursor => ?_, fun cursor => ?_, fun tokens tree hread => ?_⟩
  · exact Parser.faithful ((Nonterminal.advancing_parse table stack).forward name)
      (Nonterminal.leaves_parse table stack name) cursor
  · exact Parser.faithful (forward_parseProgram table stack)
      (keepsTree_parseProgram table stack) cursor
  · have hparse := Cursor.parse_eq_done_of_read hread
    have hleaves := keepsTree_parseProgram table stack _ _ _ hparse
    rw [(parseProgram_eq_done_iff.mp hparse).2, List.append_nil] at hleaves
    rw [Tree.tokens_eq_leaves, hleaves]
    rfl

end JackSyntax
