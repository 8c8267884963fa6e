import JackSyntax.Proofs.Source.Locality

/-!
# Blanks and comments are void

Between two tokens, before the first and after the last one there is room for any blank, and
after it for blanks and comments of all sorts, as long as the comments are closed
(`ClosedTrivia`).  No token comes or goes by them, and no token is changed but for the
place of those that follow.

* The places with room are the ends of the tokens (`TokenEdge`).  They are found by the line
  and the column of a token, as these belong to one offset only
  (`Position.counted_take_inj`), and a scan is at a front there (`TokenEdge.exists_state`).
* The text that is put in is passed over whatever follows it
  (`ClosedTrivia.scanFrom_append`).
* What follows is scanned from another place (`scanFrom_moved`).
-/

namespace JackSyntax

/-! ## What is put in -/

/-- Blanks, block comments with their ends, and line comments with their line feeds, in any
number and order. -/
inductive ClosedTrivia : List Char → Prop
  | nil : ClosedTrivia []
  | blank {c : Char} {more : List Char} (hblank : isBlank c = true)
      (hmore : ClosedTrivia more) : ClosedTrivia (c :: more)
  | lineComment {content more : List Char} (hcontent : '\n' ∉ content)
      (hmore : ClosedTrivia more) : ClosedTrivia ('/' :: '/' :: (content ++ '\n' :: more))
  | blockComment {content more : List Char} (hcontent : ¬ ['*', '/'] <:+: content)
      (hmore : ClosedTrivia more) : ClosedTrivia ('/' :: '*' :: (content ++ '*' :: '/' :: more))

theorem scanFrom_of_separates (found : List Token) (position : Position)
    {piece rest : List Char} (hpiece : Separates piece rest) :
    scanFrom found position (piece ++ rest) = scanFrom found (position.after piece) rest :=
  scanFrom_of_trivia found position (Front.read?_of_separates hpiece)

/-- Closed trivia are passed over, whatever follows. -/
theorem ClosedTrivia.scanFrom_append {trivia : List Char} (htrivia : ClosedTrivia trivia)
    (found : List Token) (position : Position) (rest : List Char) :
    scanFrom found position (trivia ++ rest) = scanFrom found (position.after trivia) rest := by
  induction htrivia generalizing position with
  | nil => rfl
  | @blank c more hblank hmore ih =>
      have hpiece : Separates [c] (more ++ rest) := .blank hblank
      exact (scanFrom_of_separates found position hpiece).trans (ih _)
  | @lineComment content more hcontent hmore ih =>
      have hpiece : Separates ('/' :: '/' :: content) ('\n' :: (more ++ rest)) :=
        .lineComment hcontent (Or.inr rfl)
      have hfeed : Separates ['\n'] (more ++ rest) := .blank (by decide)
      calc scanFrom found position ('/' :: '/' :: (content ++ '\n' :: more) ++ rest)
          = scanFrom found position ('/' :: '/' :: content ++ '\n' :: (more ++ rest)) := by simp
        _ = scanFrom found (position.after ('/' :: '/' :: content)) ('\n' :: (more ++ rest)) :=
            scanFrom_of_separates found position hpiece
        _ = scanFrom found ((position.after ('/' :: '/' :: content)).after ['\n']) (more ++ rest) :=
            scanFrom_of_separates found _ hfeed
        _ = scanFrom found (position.after ('/' :: '/' :: (content ++ '\n' :: more))) rest := by
            rw [ih]
            simp
  | @blockComment content more hcontent hmore ih =>
      have hpiece : Separates ('/' :: '*' :: (content ++ ['*', '/'])) (more ++ rest) :=
        .blockComment hcontent
      calc scanFrom found position ('/' :: '*' :: (content ++ '*' :: '/' :: more) ++ rest)
          = scanFrom found position
              ('/' :: '*' :: (content ++ ['*', '/']) ++ (more ++ rest)) := by simp
        _ = scanFrom found (position.after ('/' :: '*' :: (content ++ ['*', '/'])))
              (more ++ rest) := scanFrom_of_separates found position hpiece
        _ = scanFrom found (position.after ('/' :: '*' :: (content ++ '*' :: '/' :: more)))
              rest := by
            rw [ih]
            simp

/-! ## Where it is put -/

/-- The offsets that are the beginning of a text, or the beginning or the end of one of its
tokens. -/
inductive TokenEdge (source : List Char) (tokens : List Token) : Nat → Prop
  | start : TokenEdge source tokens 0
  | before {token : Token} {span : Span} (htoken : token ∈ tokens)
      (hspan : token.StandsAt source span) : TokenEdge source tokens span.offset
  | after {token : Token} {span : Span} (htoken : token ∈ tokens)
      (hspan : token.StandsAt source span) : TokenEdge source tokens span.stop

theorem Spells.ne_nil {kind : TokenKind} {value : TokenValue} {spelled rest : List Char}
    (hspells : Spells kind value spelled rest) : spelled ≠ [] := by
  have hword : ∀ {word : List Char}, IsWord word → word ≠ [] := by
    rintro _ ⟨first, more, rfl, -, -⟩
    exact List.cons_ne_nil first more
  cases hspells with
  | keyword hisWord hreserved hend => exact hword hisWord
  | identifier hisWord hfree hend => exact hword hisWord
  | integer hdigits hvalue => exact hdigits.ne_nil
  | string hcontent => exact List.cons_ne_nil _ _
  | symbol hsymbol hslash => exact List.cons_ne_nil _ _

/-- With one more character a place is another line or another column. -/
theorem Position.after_cons_ne (place : Position) (c : Char) (text : List Char) :
    ¬ ((place.after (c :: text)).line = place.line ∧
      (place.after (c :: text)).column = place.column) := by
  rintro ⟨hline, hcolumn⟩
  obtain ⟨hbelow, hbeside⟩ := le_after (place.next c) text
  rw [after_cons] at hline hcolumn
  by_cases hfeed : c = '\n'
  · have hnext : (place.next c).line = place.line + 1 := by simp [next, hfeed]
    omega
  · have hnext : (place.next c).line = place.line ∧
        (place.next c).column = place.column + 1 := by simp [next, hfeed]
    omega

/-- A line and a column belong to one offset of a text. -/
theorem Position.counted_take_inj {source : List Char} {first second : Nat}
    (hfirst : first ≤ source.length) (hsecond : second ≤ source.length)
    (hline : (counted (source.take first)).line = (counted (source.take second)).line)
    (hcolumn : (counted (source.take first)).column = (counted (source.take second)).column) :
    first = second := by
  wlog hle : first ≤ second generalizing first second
  · exact (this hsecond hfirst hline.symm hcolumn.symm (Nat.le_of_not_le hle)).symm
  · have hsplit : source.take second =
        source.take first ++ (source.drop first).take (second - first) := by
      rw [← List.take_add, Nat.add_sub_cancel' hle]
    have hlength := congrArg List.length hsplit
    rw [hsplit, ← start_after, ← start_after, after_append] at hline hcolumn
    cases hmore : (source.drop first).take (second - first) with
    | nil =>
        rw [hmore] at hlength
        simp only [List.length_take, List.append_nil] at hlength
        omega
    | cons c more =>
        rw [hmore] at hline hcolumn
        exact absurd ⟨hline.symm, hcolumn.symm⟩ (after_cons_ne _ c more)

namespace ScanState

variable {source : List Char} {state : ScanState}

theorem Accurate.take_append (hstate : state.Accurate source) :
    source = source.take state.position.offset ++ state.ahead := by
  rw [← hstate.drop_eq, List.take_append_drop]

/-- Every token that was found was read from a state on the way. -/
theorem Reachable.exists_of_mem_found (hstate : Reachable source state) {token : Token}
    (htoken : token ∈ state.found) :
    ∃ (earlier : ScanState) (spelled rest : List Char), earlier.Reachable source ∧
      Front.read? earlier.ahead = some ⟨.token token.kind token.value, spelled, rest⟩ ∧
      token = earlier.token token.kind token.value := by
  induction hstate with
  | start => simp at htoken
  | trivia hstate hread ih => exact ih htoken
  | token hstate hread ih =>
      rcases List.mem_cons.mp htoken with rfl | htoken
      · exact ⟨_, _, _, hstate, hread, rfl⟩
      · exact ih htoken

/-- Where a token of the scan stands, the scan has read it. -/
theorem exists_of_standsAt {token : Token} {span : Span}
    (htoken : token ∈ (scanFrom [] .start source).tokens) (hspan : token.StandsAt source span) :
    ∃ (state : ScanState) (rest : List Char), state.Reachable source ∧
      state.position.offset = span.offset ∧
      Front.read? state.ahead = some ⟨.token token.kind token.value, span.lexeme, rest⟩ := by
  obtain ⟨last, hlast, hends⟩ := (@Reachable.start source).exists_ends
  have hfound : token ∈ last.found := by
    have htokens : (scanFrom [] .start source).tokens = last.found.reverse := hends.tokens_eq
    rwa [htokens, List.mem_reverse] at htoken
  obtain ⟨state, spelled, rest, hstate, hread, hsame⟩ := hlast.exists_of_mem_found hfound
  obtain ⟨after, hafter, hspells⟩ := hspan.spells
  have hexact := hstate.accurate.exactIn
  -- the token's line and column tell where the state is
  have hoffset : state.position.offset = span.offset := by
    have hwithin : span.offset ≤ source.length := by
      by_contra hbeyond
      rw [List.drop_of_length_le (by omega)] at hafter
      exact hspells.ne_nil (List.append_eq_nil_iff.mp hafter.symm).1
    have hline := hspan.line_eq
    have hcolumn := hspan.column_eq
    rw [hsame, ScanState.token, Nat.cast_inj, hexact.eq_counted] at hline hcolumn
    exact Position.counted_take_inj hexact.offset_le hwithin hline hcolumn
  have hahead : state.ahead = span.lexeme ++ after := by
    rw [← hstate.accurate.drop_eq, hoffset, hafter]
  -- and what is spelled there is what was read
  have hlexeme : spelled = span.lexeme := by
    by_cases hrun : DigitRun span.lexeme after
    · rw [hahead, Front.read?_of_digitRun hrun] at hread
      simp only [Option.some.injEq, Front.mk.injEq] at hread
      exact hread.2.1.symm
    · rw [hahead, Front.read?_of_spells hspells fun hdigits => absurd hdigits hrun] at hread
      simp only [Option.some.injEq, Front.mk.injEq] at hread
      exact hread.2.1.symm
  rw [hlexeme] at hread
  exact ⟨state, rest, hstate, hoffset, hread⟩

/-- The tokens that are found from a state on stand where the state is, or further on. -/
theorem Reachable.standsAt_ahead (hstate : Reachable source state) :
    ∃ spans, List.Forall₂ (Token.StandsAt source)
        (scanFrom [] state.position state.ahead).tokens spans ∧
      ∀ span ∈ spans, state.position.offset ≤ span.offset := by
  induction state using ScanState.induction with
  | finished state hahead => exact ⟨[], by simp [hahead, scanFrom]⟩
  | faulty state fault spelled rest hread =>
      exact ⟨[], by simp [scanFrom_of_fault [] state.position hread]⟩
  | trivia state spelled rest hread ih =>
      obtain ⟨spans, hstand, hafter⟩ := ih (hstate.trivia hread)
      rw [scanFrom_of_trivia _ _ hread]
      refine ⟨spans, hstand, fun span hspan => ?_⟩
      exact Nat.le_trans (by simp) (hafter span hspan)
  | token state kind value spelled rest hread ih =>
      obtain ⟨spans, hstand, hafter⟩ := ih (hstate.token hread)
      have hfound := scanFrom_append [] [state.token kind value]
        (state.position.after spelled) rest
      rw [scanFrom_of_token _ _ hread]
      refine ⟨⟨state.position.offset, spelled⟩ :: spans, ?_, fun span hspan => ?_⟩
      · rw [List.nil_append] at hfound
        change List.Forall₂ _ (scanFrom [state.token kind value] _ rest).tokens _
        rw [hfound]
        exact .cons (hstate.accurate.standsAt hread) hstand
      · rcases List.mem_cons.mp hspan with rfl | hspan
        · exact Nat.le_refl _
        · exact Nat.le_trans (by simp) (hafter span hspan)

end ScanState

/-- A blank may be put in before a token. -/
theorem EndsLike.of_token {text inserted spelled rest : List Char} {kind : TokenKind}
    {value : TokenValue} (hread : Front.read? text = some ⟨.token kind value, spelled, rest⟩)
    (hblank : inserted.head?.any isBlank = true) : EndsLike text (inserted ++ text) := by
  have hhead : (inserted ++ text).head?.any isBlank = true := by
    cases inserted with
    | nil => simp at hblank
    | cons c inserted => exact hblank
  obtain ⟨first, more, rfl, hfront⟩ := Front.read?_eq_some_iff.mp hread
  refine .blank hhead (List.cons_ne_nil first more) fun hfeed => ?_
  obtain rfl : first = '\n' := by simpa using hfeed
  rw [Front.read_of_isBlank (by decide)] at hfront
  simp at hfront

/-- At an edge the scan is between two fronts, also when a blank comes next there. -/
theorem TokenEdge.exists_state {source : List Char} {offset : Nat}
    (hedge : TokenEdge source (scanFrom [] .start source).tokens offset) :
    ∃ state : ScanState, state.Reachable source ∧ state.position.offset = offset ∧
      ∀ inserted, inserted.head?.any isBlank = true →
        ScanState.Reachable (source.take offset ++ (inserted ++ state.ahead))
          ⟨state.found, state.position, inserted ++ state.ahead⟩ := by
  cases hedge with
  | start => exact ⟨_, .start, rfl, fun inserted _ => .start⟩
  | @before token span htoken hspan =>
      obtain ⟨state, rest, hstate, hoffset, hread⟩ := ScanState.exists_of_standsAt htoken hspan
      refine ⟨state, hstate, hoffset, fun inserted hblank => ?_⟩
      rw [← hoffset]
      exact hstate.replace hstate.accurate.take_append (.of_token hread hblank)
  | @after token span htoken hspan =>
      obtain ⟨state, rest, hstate, hoffset, hread⟩ := ScanState.exists_of_standsAt htoken hspan
      have hstop : (state.find token.kind token.value span.lexeme rest).position.offset =
          span.stop := by
        rw [ScanState.offset_find, hoffset, Span.stop]
      refine ⟨_, hstate.token hread, hstop, fun inserted hblank => ?_⟩
      have hahead : state.ahead = span.lexeme ++ rest := (Front.text_of_read? hread).symm
      have hlexeme : LexemeEndsLike rest (inserted ++ rest) := by
        cases inserted with
        | nil => simp at hblank
        | cons c inserted => exact Or.inr hblank
      -- the token is read before the blank as it was before what follows it
      have hbefore : source.take span.stop = source.take state.position.offset ++ span.lexeme := by
        have hsource := hstate.accurate.take_append
        rw [hahead, ← List.append_assoc] at hsource
        have hlength : (source.take state.position.offset ++ span.lexeme).length = span.stop := by
          rw [List.length_append, List.length_take_of_le hstate.accurate.exactIn.offset_le,
            hoffset, Span.stop]
        calc source.take span.stop
            = (source.take state.position.offset ++ span.lexeme ++ rest).take span.stop := by
              rw [← hsource]
          _ = source.take state.position.offset ++ span.lexeme := by
              rw [← hlength, List.take_left]
      have hreached := hstate.replace hstate.accurate.take_append
        (hahead ▸ .append_left (Front.spelled_ne_nil_of_read? hread) :
          EndsLike state.ahead (span.lexeme ++ (inserted ++ rest)))
      rw [← List.append_assoc, ← hbefore] at hreached
      exact hreached.token (Front.read?_token_endsLike hread hlexeme)

/-! ## The main result -/

/-- In a text that scans, a blank and closed trivia may be put in at the beginning, and before
and after every token.  The text still scans, to the same tokens.  Those that stand before
are where they were; those that stand after are moved as the place is by what is put in: as
many lines further down as it has line feeds, and on the line of the place as many columns as
from the place to the end of what is put in. -/
theorem tokenize_insert {source : String} {tokens : List Token} {offset : Nat} {blank : Char}
    {more : List Char} (htokens : tokenize source = .ok tokens)
    (hedge : TokenEdge source.toList tokens offset) (hblank : isBlank blank = true)
    (hmore : ClosedTrivia more) :
    ∃ earlier later, tokens = earlier ++ later ∧
      (∃ spans, List.Forall₂ (Token.StandsAt source.toList) earlier spans ∧
        ∀ span ∈ spans, span.stop ≤ offset) ∧
      (∃ spans, List.Forall₂ (Token.StandsAt source.toList) later spans ∧
        ∀ span ∈ spans, offset ≤ span.offset) ∧
      tokenize (String.ofList
          (source.toList.take offset ++ (blank :: more ++ source.toList.drop offset))) =
        .ok (earlier ++ later.map
          (Token.moved (.counted (source.toList.take offset))
            (.counted (source.toList.take offset ++ blank :: more)))) := by
  obtain ⟨herror, rfl⟩ := tokenize_eq_ok_iff.mp htokens
  obtain ⟨state, hstate, rfl, hinsert⟩ := TokenEdge.exists_state hedge
  have hexact := hstate.accurate.exactIn.eq_counted
  have hscan : scan source =
      { scanFrom [] state.position state.ahead with
        tokens := state.found.reverse ++ (scanFrom [] state.position state.ahead).tokens } := by
    rw [scan, ← hstate.finish_eq, ScanState.finish, ← scanFrom_append, List.nil_append]
  -- the scan of the longer text comes to the same state, and then past what was put in
  have hlonger : scanFrom [] .start (source.toList.take state.position.offset ++
        (blank :: more ++ state.ahead)) =
      scanFrom state.found (state.position.after (blank :: more)) state.ahead := by
    rw [← (hinsert (blank :: more) hblank).finish_eq]
    exact (ClosedTrivia.blank hblank hmore).scanFrom_append _ _ _
  obtain ⟨spans, hstand, -, hbelow⟩ := hstate.accurate.placed
  refine ⟨state.found.reverse, (scanFrom [] state.position state.ahead).tokens,
    by rw [hscan], ⟨spans.reverse, List.forall₂_reverse_iff.mpr hstand, fun span hspan => ?_⟩,
    hstate.standsAt_ahead, ?_⟩
  · exact (hbelow span (List.mem_reverse.mp hspan)).2
  · have hnone : (scanFrom [] state.position state.ahead).error? = none := by
      rw [hscan] at herror
      exact herror
    have htarget : Position.counted (source.toList.take state.position.offset ++ blank :: more) =
        state.position.after (blank :: more) := by
      rw [← Position.start_after, Position.after_append, Position.start_after, ← hexact]
    rw [tokenize_eq_ok_iff, scan, String.toList_ofList, hstate.accurate.drop_eq, hlonger, htarget,
      ← hexact, scanFrom_moved state.found state.position]
    exact ⟨Option.map_eq_none_iff.mpr hnone, rfl⟩

/-- A line feed and a comment after a slash, which stays a symbol. -/
theorem tokenize_insert_slash :
    let source := "x/7"
    let tokens : List Token :=
      [⟨.identifier, .text "x", 1, 1⟩, ⟨.symbol, .text "/", 1, 2⟩,
        ⟨.integerConstant, .integer 7, 1, 3⟩]
    tokenize source = .ok tokens ∧ TokenEdge source.toList tokens 2 ∧
      isBlank '\n' = true ∧ ClosedTrivia "/*\"//*/".toList ∧
      ∃ earlier later, tokens = earlier ++ later ∧
        tokenize "x/\n/*\"//*/7" =
          .ok (earlier ++ later.map (Token.moved ⟨2, 1, 3⟩ ⟨10, 2, 8⟩)) := by
  intro source tokens
  have htokens : tokenize source = .ok tokens := by cbv
  have hsource : source.toList = ['x', '/', '7'] := by cbv
  have hspells : Spells .symbol (.text (String.singleton '/')) ['/'] ['7'] :=
    .symbol (by decide) fun _ => by decide
  have hspan : Token.StandsAt source.toList ⟨.symbol, .text "/", 1, 2⟩ ⟨1, ['/']⟩ := by
    rw [hsource]
    exact ⟨⟨['7'], rfl, hspells⟩, rfl, rfl⟩
  have hedge : TokenEdge source.toList tokens 2 := .after (by simp [tokens]) hspan
  have hmore : ClosedTrivia "/*\"//*/".toList :=
    @ClosedTrivia.blockComment ['"', '/', '/'] [] (by decide) .nil
  have hblank : isBlank '\n' = true := by decide
  obtain ⟨earlier, later, hsplit, -, -, hscan⟩ := tokenize_insert htokens hedge hblank hmore
  rw [hsource] at hscan
  exact ⟨htokens, hedge, hblank, hmore, earlier, later, hsplit, hscan⟩

end JackSyntax
