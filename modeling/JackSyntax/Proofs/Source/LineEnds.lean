import JackSyntax.Analysis
import JackSyntax.Proofs.Source.Locality

/-!
# Line ends

Lines may end with a line feed alone, or with a carriage return before it.  A text and the
same text with carriage returns added before some of its line feeds (`ReturnsAdded`) have the
same tokens at the same places, or the same fault at the same place, and so the same parse
tree or the same error.

Two scans are compared that go side by side (`ScanState.Beside`).  A carriage return that is
added stands before a line feed, so it is never in a string, a word or a number, and parts no
star from a slash.  It counts as a column, but only until the line feed after it: this
happens where it has been taken into a line comment, and then both scans have the line feed
ahead, at different columns of the same line.
-/

namespace JackSyntax

/-- The same text with carriage returns added before some of its line feeds. -/
inductive ReturnsAdded : List Char → List Char → Prop
  | nil : ReturnsAdded [] []
  | keep (c : Char) {text other : List Char} (hmore : ReturnsAdded text other) :
      ReturnsAdded (c :: text) (c :: other)
  | add {text other : List Char} (hmore : ReturnsAdded text other) :
      ReturnsAdded ('\n' :: text) ('\r' :: '\n' :: other)

namespace ReturnsAdded

variable {text other : List Char}

/-- What comes next is the same, or a carriage return and a line feed instead of a line
feed. -/
theorem cons_cases {c : Char} (hadded : ReturnsAdded (c :: text) other) :
    (∃ more, other = c :: more ∧ ReturnsAdded text more) ∨
      c = '\n' ∧ ∃ more, other = '\r' :: '\n' :: more ∧ ReturnsAdded text more := by
  cases hadded with
  | keep _ hmore => exact Or.inl ⟨_, rfl, hmore⟩
  | add hmore => exact Or.inr ⟨rfl, _, rfl, hmore⟩

theorem of_ne_feed {c : Char} (hadded : ReturnsAdded (c :: text) other) (hc : c ≠ '\n') :
    ∃ more, other = c :: more ∧ ReturnsAdded text more :=
  hadded.cons_cases.resolve_right fun hfeed => hc hfeed.1

theorem refl (text : List Char) : ReturnsAdded text text := by
  induction text with
  | nil => exact .nil
  | cons c text ih => exact .keep c ih

theorem eq_nil (hadded : ReturnsAdded [] other) : other = [] := by
  cases hadded
  rfl

/-- The two parts of a text have their returns added one by one. -/
theorem split {first second : List Char} (hadded : ReturnsAdded (first ++ second) other) :
    ∃ first' second', other = first' ++ second' ∧ ReturnsAdded first first' ∧
      ReturnsAdded second second' := by
  induction first generalizing other with
  | nil => exact ⟨[], other, rfl, .nil, hadded⟩
  | cons c first ih =>
      rcases cons_cases hadded with ⟨more, rfl, hmore⟩ | ⟨rfl, more, rfl, hmore⟩
      · obtain ⟨first', second', rfl, hfirst, hsecond⟩ := ih hmore
        exact ⟨c :: first', second', rfl, .keep c hfirst, hsecond⟩
      · obtain ⟨first', second', rfl, hfirst, hsecond⟩ := ih hmore
        exact ⟨'\r' :: '\n' :: first', second', rfl, .add hfirst, hsecond⟩

/-- In a line nothing is added. -/
theorem eq_of_line (hadded : ReturnsAdded text other) (hline : '\n' ∉ text) : other = text := by
  induction hadded with
  | nil => rfl
  | keep c hmore ih => rw [ih fun hfeed => hline (List.mem_cons_of_mem c hfeed)]
  | add hmore ih => exact absurd List.mem_cons_self hline

/-- The beginning of a text that is a line stays as it is. -/
theorem split_line {line rest : List Char} (hadded : ReturnsAdded (line ++ rest) other)
    (hline : '\n' ∉ line) : ∃ rest', other = line ++ rest' ∧ ReturnsAdded rest rest' := by
  obtain ⟨line', rest', rfl, hfirst, hrest⟩ := hadded.split
  rw [hfirst.eq_of_line hline]
  exact ⟨rest', rfl, hrest⟩

/-- A lexeme ends before an added return as it does before the line feed. -/
theorem lexemeEndsLike (hadded : ReturnsAdded text other) : LexemeEndsLike text other := by
  cases hadded with
  | nil => exact Or.inl rfl
  | keep c hmore => exact Or.inl rfl
  | add hmore => exact Or.inr rfl

/-- Returns do not make an end of a comment. -/
theorem not_infix (hadded : ReturnsAdded text other) (htext : ¬ ['*', '/'] <:+: text) :
    ¬ ['*', '/'] <:+: other := by
  induction hadded with
  | nil => exact htext
  | @keep c text other hmore ih =>
      rw [List.infix_cons_iff] at htext ⊢
      obtain ⟨hhere, hlater⟩ := not_or.mp htext
      rintro (hfront | hinside)
      · obtain ⟨after, hafter⟩ := hfront
        obtain ⟨rfl, rfl⟩ := List.cons.inj hafter
        cases hmore with
        | @keep _ text _ hmore => exact hhere ⟨text, rfl⟩
      · exact ih hlater hinside
  | @add text other hmore ih =>
      rw [List.infix_cons_iff] at htext
      rw [List.infix_cons_iff, List.infix_cons_iff]
      obtain ⟨-, hlater⟩ := not_or.mp htext
      rintro (⟨after, hafter⟩ | ⟨after, hafter⟩ | hinside)
      · simp at hafter
      · simp at hafter
      · exact ih hlater hinside

/-- Both texts come to the same line and column. -/
theorem after (hadded : ReturnsAdded text other) {place place' : Position}
    (hline : place'.line = place.line) (hcolumn : place'.column = place.column) :
    (place'.after other).line = (place.after text).line ∧
      (place'.after other).column = (place.after text).column := by
  induction hadded generalizing place place' with
  | nil => exact ⟨hline, hcolumn⟩
  | keep c hmore ih =>
      rw [Position.after_cons, Position.after_cons]
      apply ih <;> unfold Position.next <;> split <;> simp [hline, hcolumn]
  | add hmore ih =>
      rw [Position.after_cons, Position.after_cons, Position.after_cons]
      apply ih <;> simp [Position.next, hline]

end ReturnsAdded

/-! ## Faults -/

namespace Front

theorem readBlockComment_of_open {content : List Char} (hcontent : ¬ ['*', '/'] <:+: content)
    (before : List Char) :
    readBlockComment before content =
      ⟨.fault .unterminatedComment, before.reverse ++ content, []⟩ := by
  fun_induction readBlockComment before content with
  | case1 before rest => exact absurd ⟨[], rest, rfl⟩ hcontent
  | case2 before c rest hopen ih =>
      rw [ih fun hinside => hcontent (hinside.trans (List.suffix_cons c rest).isInfix)]
      simp
  | case3 before => simp

/-- A fault is found in the text with the returns as well. -/
theorem read?_fault_of_returnsAdded {text other spelled rest : List Char} {fault : LexicalFault}
    (hread : read? text = some ⟨.fault fault, spelled, rest⟩) (hadded : ReturnsAdded text other) :
    ∃ spelled' rest', read? other = some ⟨.fault fault, spelled', rest'⟩ := by
  have hnumber : ∀ {digits after : List Char}, DigitRun digits after → text = digits ++ after →
      ∃ spelled' rest', read? other = some ⟨.fault fault, spelled', rest'⟩ := by
    rintro digits after hdigits rfl
    have hline : '\n' ∉ digits := fun hfeed => absurd (hdigits.isDigit _ hfeed) (by decide)
    obtain ⟨after', rfl, hafter⟩ := hadded.split_line hline
    exact ⟨digits, after', (read?_digits_endsLike hdigits hread hafter.lexemeEndsLike).2.2⟩
  cases offends_of_read? hread with
  | @unexpectedCharacter c after hblank hquote hdigit hstart hsymbol =>
      have hc : c ≠ '\n' := by
        rintro rfl
        exact absurd hblank (by decide)
      obtain ⟨more, rfl, -⟩ := hadded.of_ne_feed hc
      exact ⟨_, _, read?_of_unexpected hblank hquote hdigit hstart hsymbol more⟩
  | @unterminatedString content after hcontent hend =>
      obtain ⟨more, rfl, hmore⟩ := hadded.of_ne_feed (by decide)
      obtain ⟨after', rfl, hafter⟩ := hmore.split_line hcontent.2
      rcases hend with rfl | hend
      · rw [hafter.eq_nil]
        exact ⟨_, _, read?_of_unterminated hcontent (Or.inl rfl)⟩
      · obtain ⟨line, rfl⟩ := List.head?_eq_some_iff.mp hend
        rcases hafter.cons_cases with ⟨more, rfl, -⟩ | ⟨-, more, rfl, -⟩
        · exact ⟨_, _, read?_of_unterminated hcontent (Or.inr rfl)⟩
        · -- the return is one more character of the string
          have hlonger : '"' ∉ content ++ ['\r'] ∧ '\n' ∉ content ++ ['\r'] := by
            simpa using hcontent
          have hreturn := read?_of_unterminated hlonger (Or.inr (rfl : ('\n' :: more).head? = _))
          rw [List.append_assoc] at hreturn
          exact ⟨_, _, hreturn⟩
  | @unterminatedComment content hcontent =>
      obtain ⟨more, rfl, hmore⟩ := hadded.of_ne_feed (by decide)
      obtain ⟨content', rfl, hcontent'⟩ := hmore.of_ne_feed (by decide)
      rw [read?, read_slash, readSlash, readBlockComment_of_open (hcontent'.not_infix hcontent)]
      exact ⟨_, _, rfl⟩
  | integerTooLarge hdigits hvalue => exact hnumber hdigits rfl
  | tooManyDigits hdigits hlength => exact hnumber hdigits rfl

/-- Only a blank begins with a line feed. -/
theorem trivia_of_feed {text spelled rest : List Char} {reading : Reading}
    (hread : read? text = some ⟨reading, spelled, rest⟩) (hfeed : text.head? = some '\n') :
    reading = .trivia := by
  obtain ⟨below, rfl⟩ := List.head?_eq_some_iff.mp hfeed
  have hblank : read? ('\n' :: below) = some ⟨.trivia, ['\n'], below⟩ :=
    read?_of_separates (.blank (by decide))
  rw [hblank, Option.some.injEq, Front.mk.injEq] at hread
  exact hread.1.symm

end Front

/-! ## Two scans side by side -/

/-- A scan and one of the text with the returns, after the same tokens and on the same line.
The columns may differ before a line feed only. -/
structure ScanState.Beside (state other : ScanState) : Prop where
  found : other.found = state.found
  ahead : ReturnsAdded state.ahead other.ahead
  line : other.position.line = state.position.line
  column : other.position.column = state.position.column ∨
    state.ahead.head? = some '\n' ∧ other.ahead.head? = some '\n'

/-- A scan that the other one goes on to be beside. -/
def ScanState.MetBy (state other : ScanState) : Prop :=
  ∃ further, other.finish = further.finish ∧ state.Beside further

namespace ScanState.Beside

variable {state other : ScanState}

theorem column_eq (hbeside : state.Beside other) (hahead : state.ahead.head? ≠ some '\n') :
    other.position.column = state.position.column :=
  hbeside.column.resolve_right fun hfeed => hahead hfeed.1

/-- Both scans pass over the same characters, but for the returns. -/
theorem past (hbeside : state.Beside other) (hahead : state.ahead.head? ≠ some '\n')
    {spelled spelled' rest rest' : List Char} (hspelled : ReturnsAdded spelled spelled')
    (hrest : ReturnsAdded rest rest') :
    (state.past spelled rest).Beside (other.past spelled' rest') := by
  obtain ⟨hline, hcolumn⟩ := hspelled.after hbeside.line (hbeside.column_eq hahead)
  exact ⟨hbeside.found, hrest, hline, Or.inl hcolumn⟩

/-- The scan with the returns passes over a blank as well, and over a return that stands
before it. -/
theorem past_blank (hbeside : state.Beside other) {c : Char} {rest : List Char}
    (hahead : state.ahead = c :: rest) (hblank : isBlank c = true) :
    (state.past [c] rest).MetBy other := by
  have hreturns := hahead ▸ hbeside.ahead
  have hread : ∀ {c : Char}, isBlank c = true → ∀ more,
      Front.read? (c :: more) = some ⟨.trivia, [c], more⟩ :=
    fun hc more => Front.read?_of_separates (.blank hc)
  rcases hreturns.cons_cases with ⟨more, hother, hmore⟩ | ⟨rfl, more, hother, hmore⟩
  · refine ⟨other.past [c] more, finish_of_trivia (hother ▸ hread hblank more), ?_⟩
    by_cases hfeed : c = '\n'
    · subst hfeed
      exact ⟨hbeside.found, hmore, congrArg (· + 1) hbeside.line, Or.inl rfl⟩
    · exact hbeside.past (by simpa [hahead] using hfeed) (.keep c .nil) hmore
  · have hreturn : Front.read? other.ahead = some ⟨.trivia, ['\r'], '\n' :: more⟩ :=
      hother ▸ hread (by decide) ('\n' :: more)
    refine ⟨(other.past ['\r'] ('\n' :: more)).past ['\n'] more, ?_, hbeside.found, hmore,
      congrArg (· + 1) hbeside.line, Or.inl rfl⟩
    rw [finish_of_trivia hreturn]
    exact finish_of_trivia (hread hblank more)

/-- The scan with the returns passes over a line comment as well.  A return at the end of the
line belongs to the comment. -/
theorem past_lineComment (hbeside : state.Beside other) {content rest : List Char}
    (hahead : state.ahead = '/' :: '/' :: content ++ rest) (hcontent : '\n' ∉ content)
    (hend : rest = [] ∨ rest.head? = some '\n') :
    (state.past ('/' :: '/' :: content) rest).MetBy other := by
  have hline : '\n' ∉ '/' :: '/' :: content := by simpa using hcontent
  have hreturns := hahead ▸ hbeside.ahead
  obtain ⟨rest', hother, hrest⟩ := hreturns.split_line hline
  have hhead : state.ahead.head? ≠ some '\n' := by simp [hahead]
  -- the comment is passed over up to `rest'`, if it ends there
  have hsame : rest' = [] ∨ rest'.head? = some '\n' →
      (state.past ('/' :: '/' :: content) rest).MetBy other := fun hend' =>
    ⟨_, finish_of_trivia (hother ▸ Front.read?_of_separates (.lineComment hcontent hend')),
      hbeside.past hhead (.refl _) hrest⟩
  rcases hend with rfl | hfeed
  · exact hsame (Or.inl hrest.eq_nil)
  obtain ⟨below, rfl⟩ := List.head?_eq_some_iff.mp hfeed
  rcases hrest.cons_cases with ⟨below', rfl, -⟩ | ⟨-, below', rfl, hbelow⟩
  · exact hsame (Or.inr rfl)
  · have hlonger : '\n' ∉ content ++ ['\r'] := by simpa using hcontent
    have hread : Front.read? other.ahead =
        some ⟨.trivia, '/' :: '/' :: (content ++ ['\r']), '\n' :: below'⟩ := by
      have hcomment := Front.read?_of_separates
        (Separates.lineComment hlonger (Or.inr (rfl : ('\n' :: below').head? = _)))
      rw [hother]
      simpa using hcomment
    refine ⟨_, finish_of_trivia hread, hbeside.found, .keep _ hbelow, ?_, Or.inr ⟨rfl, rfl⟩⟩
    rw [ScanState.past, ScanState.past, Position.after_of_not_mem_feed hline,
      Position.after_of_not_mem_feed (by simpa using hcontent)]
    exact hbeside.line

/-- The scan with the returns passes over a block comment as well, the returns in it
included. -/
theorem past_blockComment (hbeside : state.Beside other) {content rest : List Char}
    (hahead : state.ahead = '/' :: '*' :: (content ++ ['*', '/']) ++ rest)
    (hcontent : ¬ ['*', '/'] <:+: content) :
    (state.past ('/' :: '*' :: (content ++ ['*', '/'])) rest).MetBy other := by
  have hreturns := hahead ▸ hbeside.ahead
  obtain ⟨spelled, rest', hother, hspelled, hrest⟩ := hreturns.split
  have hpiece : Separates spelled rest' := by
    obtain ⟨more, rfl, hmore⟩ := hspelled.of_ne_feed (by decide)
    obtain ⟨inside, rfl, hinside⟩ := hmore.of_ne_feed (by decide)
    obtain ⟨content', stop, rfl, hcontent', hstop⟩ := hinside.split
    rw [hstop.eq_of_line (by decide)]
    exact .blockComment (hcontent'.not_infix hcontent)
  exact ⟨_, finish_of_trivia (hother ▸ Front.read?_of_separates hpiece),
    hbeside.past (by simp [hahead]) hspelled hrest⟩

/-- Both scans find the same token. -/
theorem find (hbeside : state.Beside other) {kind : TokenKind} {value : TokenValue}
    {spelled rest : List Char}
    (hread : Front.read? state.ahead = some ⟨.token kind value, spelled, rest⟩) :
    (state.find kind value spelled rest).MetBy other := by
  have hspells : Spells kind value spelled rest := Front.sound_of_read? hread
  have hreturns := Front.text_of_read? hread ▸ hbeside.ahead
  obtain ⟨rest', hother, hrest⟩ := hreturns.split_line hspells.not_mem_feed
  have hread' := hother ▸ Front.read?_token_endsLike hread hrest.lexemeEndsLike
  have hcolumn := hbeside.column_eq fun hfeed => nomatch Front.trivia_of_feed hread hfeed
  obtain ⟨hline', hcolumn'⟩ := (ReturnsAdded.refl spelled).after hbeside.line hcolumn
  refine ⟨_, finish_of_token hread', ?_, hrest, hline', Or.inl hcolumn'⟩
  simp only [ScanState.find, token, hbeside.found, hbeside.line, hcolumn]

/-- Two scans side by side find the same tokens and the same fault. -/
theorem finish (hbeside : state.Beside other) :
    other.finish.tokens = state.finish.tokens ∧ other.finish.error? = state.finish.error? := by
  induction state using ScanState.induction generalizing other with
  | finished state hahead =>
      rw [finish_of_nil hahead, finish_of_nil (hahead ▸ hbeside.ahead).eq_nil, hbeside.found]
      exact ⟨rfl, rfl⟩
  | faulty state fault spelled rest hread =>
      obtain ⟨spelled', rest', hread'⟩ := Front.read?_fault_of_returnsAdded hread hbeside.ahead
      rw [finish_of_fault hread, finish_of_fault hread', hbeside.found, hbeside.line,
        hbeside.column_eq fun hfeed => nomatch Front.trivia_of_feed hread hfeed]
      exact ⟨rfl, rfl⟩
  | trivia state spelled rest hread ih =>
      have hmet : (state.past spelled rest).MetBy other := by
        have hahead := (Front.text_of_read? hread).symm
        have hpiece : Separates spelled rest := Front.sound_of_read? hread
        cases hpiece with
        | blank hblank => exact hbeside.past_blank hahead hblank
        | lineComment hcontent hend => exact hbeside.past_lineComment hahead hcontent hend
        | blockComment hcontent => exact hbeside.past_blockComment hahead hcontent
      obtain ⟨further, hother, hfurther⟩ := hmet
      rw [finish_of_trivia hread, hother]
      exact ih hfurther
  | token state kind value spelled rest hread ih =>
      obtain ⟨further, hother, hfurther⟩ := hbeside.find hread
      rw [finish_of_token hread, hother]
      exact ih hfurther

end ScanState.Beside

/-! ## The main result -/

/-- A text and the same text with carriage returns added before some of its line feeds are
the same program: they have the same tokens at the same places, or the same fault after the
same tokens, and the same parse tree or the same error for every precedence table and every
limit on the calls. -/
theorem analyze_returnsAdded {source other : String}
    (hadded : ReturnsAdded source.toList other.toList) :
    (scan other).tokens = (scan source).tokens ∧ (scan other).error? = (scan source).error? ∧
      tokenize other = tokenize source ∧
      ∀ room entries, analyze room entries other = analyze room entries source := by
  have hbeside : ScanState.Beside ⟨[], .start, source.toList⟩ ⟨[], .start, other.toList⟩ :=
    ⟨rfl, hadded, rfl, Or.inl rfl⟩
  obtain ⟨htokens, herror⟩ : (scan other).tokens = (scan source).tokens ∧
      (scan other).error? = (scan source).error? := hbeside.finish
  have htokenize : tokenize other = tokenize source := by
    simp only [tokenize, htokens, herror]
  exact ⟨htokens, herror, htokenize, fun room entries => by
    simp only [analyze, prepare, htokenize]⟩

/-- Returns after a line comment and within a block comment, before a string that is not
closed on its line. -/
theorem analyze_returnsAdded_comments :
    let source := "x//a\n/*\n*/\"b\n"
    let other := "x//a\r\n/*\r\n*/\"b\r\n"
    ReturnsAdded source.toList other.toList ∧
      (scan other).tokens = [⟨.identifier, .text "x", 1, 1⟩] ∧
      tokenize other = .error ⟨.unterminatedString, 3, 3⟩ ∧
      analyze 0 [] other = analyze 0 [] source := by
  intro source other
  have hadded : ReturnsAdded source.toList other.toList := by
    have hsource : source.toList =
        ['x', '/', '/', 'a', '\n', '/', '*', '\n', '*', '/', '"', 'b', '\n'] := by cbv
    have hother : other.toList =
        ['x', '/', '/', 'a', '\r', '\n', '/', '*', '\r', '\n', '*', '/', '"', 'b', '\r', '\n'] := by
      cbv
    rw [hsource, hother]
    exact .keep _ (.keep _ (.keep _ (.keep _ (.add (.keep _ (.keep _ (.add (.keep _ (.keep _
      (.keep _ (.keep _ (.add .nil))))))))))))
  obtain ⟨htokens, -, htokenize, hanalyze⟩ := analyze_returnsAdded hadded
  have hscan : (scan source).tokens = [⟨.identifier, .text "x", 1, 1⟩] := by cbv
  have herror : tokenize source = .error ⟨.unterminatedString, 3, 3⟩ := by cbv
  exact ⟨hadded, htokens.trans hscan, htokenize.trans herror, hanalyze 0 []⟩

end JackSyntax
