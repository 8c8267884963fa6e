import JackSyntax.Proofs.Source.Decomposition
import JackSyntax.Proofs.Source.Places
import JackSyntax.Proofs.Source.Spelling

/-!
# Scanning is local

A scan knows little of the text around the stretch that it is reading.

* **Where the text begins.**  The same text scanned from another place gives the same
  tokens, and the same fault, each moved along (`scanFrom_moved`).  What begins on the first
  line moves as that line does, and what begins on a later line keeps its column.
* **What comes later.**  A front ends before the text that follows it, and it ends before
  any other text as well that closes it off (`EndsLike`): one with the same first
  character, one that begins with a line feed, or one that begins with another blank where
  the first text did not end a line comment.  So the states that a scan goes through are
  reached with the other text ahead as well (`ScanState.Reachable.replace`).
* **Faults.**  What is wrong at the front of a text is still wrong when a line feed and
  more text are added, unless it is a comment without an end (`Front.read?_fault_append_feed`).
-/

namespace JackSyntax

/-! ## Moving a text -/

namespace Position

/-- The place that a place of a text comes to when the text, which began at `origin`,
begins at `target` instead. -/
def moved (origin target place : Position) : Position where
  offset := place.offset + target.offset - origin.offset
  line := place.line + target.line - origin.line
  column :=
    if place.line = origin.line then place.column + target.column - origin.column
    else place.column

/-- No place of a text is before its beginning. -/
theorem le_after (origin : Position) (text : List Char) :
    origin.line ≤ (origin.after text).line ∧
      ((origin.after text).line = origin.line → origin.column ≤ (origin.after text).column) := by
  induction text using List.reverseRecOn with
  | nil => simp
  | append_singleton text c ih =>
      rw [after_append, after_cons, after_nil, next]
      split <;> simp only <;> omega

/-- The places of a text move along with its beginning. -/
theorem moved_after (origin target : Position) (text : List Char) :
    moved origin target (origin.after text) = target.after text := by
  induction text using List.reverseRecOn with
  | nil => simp [moved]
  | append_singleton text c ih =>
      obtain ⟨hline, hcolumn⟩ := le_after origin text
      have hoffset := offset_after origin text
      rw [after_append, after_append, ← ih, after_cons, after_cons, after_nil, after_nil]
      generalize origin.after text = place at hline hcolumn hoffset
      by_cases hfeed : c = '\n'
      · have hbelow : place.line + 1 ≠ origin.line := by omega
        simp only [next, hfeed, if_true, moved, if_neg hbelow, Position.mk.injEq, and_true]
        omega
      · simp only [next, if_neg hfeed, moved, Position.mk.injEq]
        refine ⟨by omega, trivial, ?_⟩
        split
        · next hsame =>
            have hbeside := hcolumn hsame
            omega
        · rfl

end Position

/-- A token of a text that begins at `target` instead of `origin`. -/
def Token.moved (origin target : Position) (token : Token) : Token :=
  { token with
    line := token.line + (target.line - origin.line)
    column :=
      if token.line = origin.line then token.column + (target.column - origin.column)
      else token.column }

/-- A fault in a text that begins at `target` instead of `origin`. -/
def LexicalError.moved (origin target : Position) (error : LexicalError) : LexicalError :=
  { error with
    line := error.line + target.line - origin.line
    column :=
      if error.line = origin.line then error.column + target.column - origin.column
      else error.column }

/-- The scan of a text that begins at `target` instead of `origin`. -/
def Scan.moved (origin target : Position) (result : Scan) : Scan where
  tokens := result.tokens.map (Token.moved origin target)
  stop := .moved origin target result.stop
  error? := result.error?.map (LexicalError.moved origin target)

theorem Token.moved_after (origin target : Position) (text : List Char) (kind : TokenKind)
    (value : TokenValue) :
    Token.moved origin target
        ⟨kind, value, (origin.after text).line, (origin.after text).column⟩ =
      ⟨kind, value, (target.after text).line, (target.after text).column⟩ := by
  obtain ⟨hline, hcolumn⟩ := Position.le_after origin text
  rw [← Position.moved_after origin target text]
  generalize origin.after text = place at hline hcolumn
  simp only [Token.moved, Position.moved, Token.mk.injEq, true_and, Nat.cast_inj]
  refine ⟨by omega, ?_⟩
  split <;> omega

theorem LexicalError.moved_after (origin target : Position) (text : List Char)
    (fault : LexicalFault) :
    LexicalError.moved origin target ⟨fault, (origin.after text).line, (origin.after text).column⟩ =
      ⟨fault, (target.after text).line, (target.after text).column⟩ := by
  rw [← Position.moved_after origin target text]
  rfl

/-- The same text scanned from another place gives the same, moved along. -/
theorem ScanState.finish_moved (origin target : Position) {state : ScanState}
    {before : List Char} (hposition : state.position = origin.after before) :
    scanFrom (state.found.map (Token.moved origin target)) (target.after before) state.ahead =
      state.finish.moved origin target := by
  induction state using ScanState.induction generalizing before with
  | finished state hahead =>
      rw [finish_of_nil hahead, hahead, scanFrom, hposition]
      simp [Scan.moved, Position.moved_after]
  | faulty state fault spelled rest hread =>
      rw [finish_of_fault hread, scanFrom_of_fault _ _ hread, hposition, ← Position.after_append,
        ← Position.after_append]
      simp only [Scan.moved, Position.moved_after, List.map_reverse, Option.map_some,
        LexicalError.moved_after]
  | trivia state spelled rest hread ih =>
      rw [finish_of_trivia hread, scanFrom_of_trivia _ _ hread, ← Position.after_append]
      exact ih (by rw [past, hposition, Position.after_append])
  | token state kind value spelled rest hread ih =>
      rw [finish_of_token hread, scanFrom_of_token _ _ hread, ← Position.after_append,
        ← Token.moved_after origin target before, ← hposition]
      exact ih (by rw [find, hposition, Position.after_append])

/-- A text scanned from another place, after tokens that stay where they are. -/
theorem scanFrom_moved (found : List Token) (origin target : Position) (text : List Char) :
    scanFrom found target text =
      { (scanFrom [] origin text).moved origin target with
        tokens :=
          found.reverse ++ (scanFrom [] origin text).tokens.map (Token.moved origin target) } := by
  have hmoved := @ScanState.finish_moved origin target ⟨[], origin, text⟩ [] rfl
  change scanFrom [] target text = (scanFrom [] origin text).moved origin target at hmoved
  have hfound := scanFrom_append [] found target text
  rw [List.nil_append] at hfound
  rw [hfound, hmoved]
  rfl

/-! ## Another text ahead -/

/-- A lexeme before `rest` ends before `other` as well: as it did, or because of a blank. -/
def LexemeEndsLike (rest other : List Char) : Prop :=
  other.head? = rest.head? ∨ other.head?.any isBlank = true

/-- Whatever is read before `rest` ends before `other` as well.  A blank ends everything but
a line comment, which ends before a line feed or where the text does. -/
inductive EndsLike (rest other : List Char) : Prop
  | sameHead (hhead : other.head? = rest.head?)
  | feed (hfeed : other.head? = some '\n')
  | blank (hblank : other.head?.any isBlank = true) (hrest : rest ≠ [])
      (hfeed : rest.head? ≠ some '\n')

section Ends

variable {rest other : List Char}

/-- What does not go on with the first text does not go on with the other one, if it goes on
with no blank. -/
theorem LexemeEndsLike.not_any (hends : LexemeEndsLike rest other) {test : Char → Bool}
    (htest : ∀ c, isBlank c = true → test c = false) (hrest : rest.head?.any test = false) :
    other.head?.any test = false := by
  rcases hends with hhead | hblank
  · rwa [hhead]
  · cases other with
    | nil => rfl
    | cons c other => exact htest c hblank

theorem LexemeEndsLike.head?_ne (hends : LexemeEndsLike rest other) {c : Char}
    (hc : isBlank c = false) (hrest : rest.head? ≠ some c) : other.head? ≠ some c := by
  rcases hends with hhead | hblank
  · rwa [hhead]
  · intro hother
    rw [hother, Option.any_some, hc] at hblank
    exact Bool.false_ne_true hblank

theorem EndsLike.lexeme (hends : EndsLike rest other) : LexemeEndsLike rest other := by
  cases hends with
  | sameHead hhead => exact Or.inl hhead
  | feed hfeed => exact Or.inr (by rw [hfeed]; rfl)
  | blank hblank => exact Or.inr hblank

/-- A line comment ends before the other text. -/
theorem EndsLike.ends_line (hends : EndsLike rest other)
    (hrest : rest = [] ∨ rest.head? = some '\n') : other = [] ∨ other.head? = some '\n' := by
  cases hends with
  | sameHead hhead =>
      rw [hhead]
      exact hrest.imp_left fun hnil => by simpa [hnil] using hhead
  | feed hfeed => exact Or.inr hfeed
  | blank hblank hne hfeed => exact absurd hrest (not_or.mpr ⟨hne, hfeed⟩)

theorem EndsLike.append_left {spelled : List Char} (hspelled : spelled ≠ []) :
    EndsLike (spelled ++ rest) (spelled ++ other) := by
  cases spelled with
  | nil => exact absurd rfl hspelled
  | cons c spelled => exact .sameHead rfl

theorem EndsLike.append_feed (rest more : List Char) : EndsLike rest (rest ++ '\n' :: more) := by
  cases rest with
  | nil => exact .feed rfl
  | cons c rest => exact .sameHead rfl

end Ends

theorem not_isWordChar_of_isBlank {c : Char} (hblank : isBlank c = true) :
    isWordChar c = false := by
  simp only [isBlank, Bool.or_eq_true, decide_eq_true_eq] at hblank
  rcases hblank with (((rfl | rfl) | rfl) | rfl) | rfl <;> decide

section Ahead

variable {rest other : List Char}

theorem Separates.endsLike {piece : List Char} (hpiece : Separates piece rest)
    (hends : EndsLike rest other) : Separates piece other := by
  cases hpiece with
  | blank hblank => exact .blank hblank
  | lineComment hcontent hend => exact .lineComment hcontent (hends.ends_line hend)
  | blockComment hcontent => exact .blockComment hcontent

theorem DigitRun.endsLike {digits : List Char} (hdigits : DigitRun digits rest)
    (hends : LexemeEndsLike rest other) : DigitRun digits other where
  ne_nil := hdigits.ne_nil
  isDigit := hdigits.isDigit
  stops := hends.not_any (fun _ hblank => (apart_of_isBlank hblank).2.1) hdigits.stops

theorem Spells.endsLike {kind : TokenKind} {value : TokenValue} {spelled : List Char}
    (hspells : Spells kind value spelled rest) (hends : LexemeEndsLike rest other) :
    Spells kind value spelled other := by
  have hword : rest.head?.any isWordChar = false → other.head?.any isWordChar = false :=
    hends.not_any fun _ => not_isWordChar_of_isBlank
  cases hspells with
  | keyword hisWord hreserved hend => exact .keyword hisWord hreserved (hword hend)
  | identifier hisWord hfree hend => exact .identifier hisWord hfree (hword hend)
  | integer hdigits hvalue => exact .integer (hdigits.endsLike hends) hvalue
  | string hcontent => exact .string hcontent
  | symbol hsymbol hslash =>
      refine .symbol hsymbol fun hc => ?_
      obtain ⟨hline, hblock⟩ := hslash hc
      exact ⟨hends.head?_ne (by decide) hline, hends.head?_ne (by decide) hblock⟩

namespace Front

variable {text spelled : List Char}

theorem read?_trivia_endsLike (hread : read? text = some ⟨.trivia, spelled, rest⟩)
    (hends : EndsLike rest other) :
    read? (spelled ++ other) = some ⟨.trivia, spelled, other⟩ := by
  have hpiece : Separates spelled rest := sound_of_read? hread
  exact read?_of_separates (hpiece.endsLike hends)

/-- A run of digits that is read as a token is short enough. -/
theorem length_le_of_digitRun {kind : TokenKind} {value : TokenValue}
    (hread : read? text = some ⟨.token kind value, spelled, rest⟩)
    (hdigits : DigitRun spelled rest) : spelled.length ≤ Vocabulary.maxDigits := by
  rw [← text_of_read? hread, read?_of_digitRun hdigits, Option.some.injEq, Front.mk.injEq] at hread
  by_contra hlong
  rw [integerReading, if_pos (Nat.not_le.mp hlong)] at hread
  simp at hread

theorem read?_token_endsLike {kind : TokenKind} {value : TokenValue}
    (hread : read? text = some ⟨.token kind value, spelled, rest⟩)
    (hends : LexemeEndsLike rest other) :
    read? (spelled ++ other) = some ⟨.token kind value, spelled, other⟩ := by
  have hspells : Spells kind value spelled rest := sound_of_read? hread
  refine read?_of_spells (hspells.endsLike hends) fun hrun => ?_
  -- the run of digits was one before the first text too, as it is spelled as an integer
  obtain rfl := (hspells.endsLike hends).kind_of_digitRun hrun
  cases hspells with
  | integer hdigits hvalue => exact length_le_of_digitRun hread hdigits

end Front

end Ahead

theorem ScanState.Reachable.exists_before {source before spelled rest : List Char}
    {reading : Reading} {state : ScanState} (hstate : Reachable source state)
    (hread : Front.read? state.ahead = some ⟨reading, spelled, rest⟩)
    (hsource : source = before ++ rest) :
    ∃ earlier, source = earlier ++ state.ahead ∧ before = earlier ++ spelled := by
  obtain ⟨earlier, hearlier, -⟩ := hstate.accurate.split
  refine ⟨earlier, hearlier, ?_⟩
  rw [← Front.text_of_read? hread, hsource, ← List.append_assoc] at hearlier
  exact List.append_cancel_right hearlier

/-- A state of a scan is reached as well when other text is ahead that closes off what has
been read. -/
theorem ScanState.Reachable.replace {source before other : List Char} {state : ScanState}
    (hstate : Reachable source state) (hsource : source = before ++ state.ahead)
    (hends : EndsLike state.ahead other) :
    Reachable (before ++ other) ⟨state.found, state.position, other⟩ := by
  induction hstate generalizing before other with
  | start =>
      obtain rfl : before = [] := by simpa using hsource
      exact .start
  | @trivia state spelled rest hstate hread ih =>
      obtain ⟨earlier, hearlier, hbefore⟩ := hstate.exists_before hread hsource
      have hahead : EndsLike state.ahead (spelled ++ other) :=
        (Front.text_of_read? hread) ▸ .append_left (Front.spelled_ne_nil_of_read? hread)
      have hreached := ih hearlier hahead
      rw [← List.append_assoc, ← hbefore] at hreached
      exact hreached.trivia (Front.read?_trivia_endsLike hread hends)
  | @token state kind value spelled rest hstate hread ih =>
      obtain ⟨earlier, hearlier, hbefore⟩ := hstate.exists_before hread hsource
      have hahead : EndsLike state.ahead (spelled ++ other) :=
        (Front.text_of_read? hread) ▸ .append_left (Front.spelled_ne_nil_of_read? hread)
      have hreached := ih hearlier hahead
      rw [← List.append_assoc, ← hbefore] at hreached
      exact hreached.token (Front.read?_token_endsLike hread hends.lexeme)

/-! ## Faults -/

namespace Front

theorem read?_of_unexpected {c : Char} (hblank : isBlank c = false) (hquote : c ≠ '"')
    (hdigit : c.isDigit = false) (hstart : isWordStart c = false)
    (hsymbol : c ∉ Vocabulary.symbols) (rest : List Char) :
    read? (c :: rest) = some ⟨.fault (.unexpectedCharacter c), [c], rest⟩ := by
  have hslash : c ≠ '/' := by
    rintro rfl
    exact hsymbol (by decide)
  rw [read?, read, if_neg hquote, if_neg (by simp [hdigit]), if_neg (by simp [hstart]),
    if_neg (by simp [hblank]), if_neg hslash, readSymbol, if_neg hsymbol]

theorem read?_of_unterminated {content rest : List Char}
    (hcontent : '"' ∉ content ∧ '\n' ∉ content) (hend : rest = [] ∨ rest.head? = some '\n') :
    read? ('"' :: (content ++ rest)) =
      some ⟨.fault .unterminatedString, '"' :: content, rest⟩ := by
  have hrun := forall_isStringChar_iff.mpr hcontent
  have hstop : rest.head?.any isStringChar = false := by
    rcases hend with rfl | hend
    · rfl
    · simp [hend, isStringChar]
  have hquote : ∀ more, rest ≠ '"' :: more := by
    rintro more rfl
    simp at hend
  rw [read?, read, if_pos rfl, readString, takeWhile_run hrun hstop, dropWhile_run hrun hstop]
  split
  · exact absurd rfl (hquote _)
  · rfl

/-- What a run of digits is read as does not depend on what closes it off. -/
theorem read?_digits_endsLike {digits after other spelled rest : List Char} {reading : Reading}
    (hdigits : DigitRun digits after)
    (hread : read? (digits ++ after) = some ⟨reading, spelled, rest⟩)
    (hends : LexemeEndsLike after other) :
    digits = spelled ∧ after = rest ∧
      read? (digits ++ other) = some ⟨reading, digits, other⟩ := by
  rw [read?_of_digitRun hdigits, Option.some.injEq, Front.mk.injEq] at hread
  obtain ⟨hreading, hspelled, hrest⟩ := hread
  refine ⟨hspelled, hrest, ?_⟩
  rw [read?_of_digitRun (hdigits.endsLike hends), hreading]

/-- A fault stays the same when a line feed and more text are added, unless it is a comment
without an end, which may now have one. -/
theorem read?_fault_append_feed {text spelled rest : List Char} {fault : LexicalFault}
    (hread : read? text = some ⟨.fault fault, spelled, rest⟩)
    (hfault : fault ≠ .unterminatedComment) (more : List Char) :
    read? (text ++ '\n' :: more) = some ⟨.fault fault, spelled, rest ++ '\n' :: more⟩ := by
  have hnumber : ∀ {digits after : List Char}, DigitRun digits after → text = digits ++ after →
      read? (text ++ '\n' :: more) = some ⟨.fault fault, spelled, rest ++ '\n' :: more⟩ := by
    rintro digits after hdigits rfl
    obtain ⟨rfl, rfl, hother⟩ :=
      read?_digits_endsLike hdigits hread (EndsLike.append_feed after more).lexeme
    rwa [List.append_assoc]
  cases offends_of_read? hread with
  | unexpectedCharacter hblank hquote hdigit hstart hsymbol =>
      rw [read?_of_unexpected hblank hquote hdigit hstart hsymbol, Option.some.injEq,
        Front.mk.injEq] at hread
      obtain ⟨-, rfl, rfl⟩ := hread
      exact read?_of_unexpected hblank hquote hdigit hstart hsymbol _
  | @unterminatedString content after hcontent hend =>
      rw [read?_of_unterminated hcontent hend, Option.some.injEq, Front.mk.injEq] at hread
      obtain ⟨-, rfl, rfl⟩ := hread
      have hfeed := (EndsLike.append_feed after more).ends_line hend
      have hsplit : '"' :: (content ++ after) ++ '\n' :: more =
          '"' :: (content ++ (after ++ '\n' :: more)) := by simp
      rw [hsplit, read?_of_unterminated hcontent hfeed]
  | unterminatedComment hcontent => exact absurd rfl hfault
  | integerTooLarge hdigits hvalue => exact hnumber hdigits rfl
  | tooManyDigits hdigits hlength => exact hnumber hdigits rfl

end Front

end JackSyntax
