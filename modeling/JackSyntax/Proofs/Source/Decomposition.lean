import JackSyntax.Proofs.Source.Lexemes

/-!
# A source text and its decomposition

A text is cut up into segments, each a stretch of trivia and the lexeme after it, and a
last stretch of trivia (`Decomposes`).  What is left over is empty, or no piece and no
lexeme begins it (`Stuck`).  There is only one way to cut a text up like this
(`Decomposes.unique`), and it is the way a scan goes (`scanFrom_decomposes`).

All of this is about texts whose runs of digits are not too long to be read as numbers
(`DigitRunsWithin`).
-/

namespace JackSyntax

/-! ## Cutting up a text -/

/-- Pieces that separate tokens, one after the other, before the rest of the text. -/
inductive Trivia : List Char → List Char → Prop
  | nil {rest : List Char} : Trivia [] rest
  | cons {piece more rest : List Char} (hpiece : Separates piece (more ++ rest))
      (hmore : Trivia more rest) : Trivia (piece ++ more) rest

/-- Trivia, and the lexeme of a token after it. -/
structure Segment where
  trivia : List Char
  kind : TokenKind
  value : TokenValue
  lexeme : List Char
deriving DecidableEq

/-- The kind and the value of the token in a segment. -/
def Segment.content (segment : Segment) : TokenKind × TokenValue :=
  (segment.kind, segment.value)

/-- The kind and the value of a token. -/
def Token.content (token : Token) : TokenKind × TokenValue :=
  (token.kind, token.value)

/-- A text consists of segments, a last stretch of trivia, and what is left over. -/
inductive Decomposes (left : List Char) : List Segment → List Char → List Char → Prop
  | last {trivia : List Char} (htrivia : Trivia trivia left) :
      Decomposes left [] trivia (trivia ++ left)
  | more {kind : TokenKind} {value : TokenValue} {trivia lexeme rest last : List Char}
      {segments : List Segment} (htrivia : Trivia trivia (lexeme ++ rest))
      (hlexeme : Spells kind value lexeme rest) (hrest : Decomposes left segments last rest) :
      Decomposes left (⟨trivia, kind, value, lexeme⟩ :: segments) last
        (trivia ++ (lexeme ++ rest))

/-- No separating piece stands at the beginning of a text. -/
def NoPiece (text : List Char) : Prop :=
  ∀ piece rest, text = piece ++ rest → ¬ Separates piece rest

/-- Neither a separating piece nor a lexeme stands at the beginning of a text. -/
structure Stuck (text : List Char) : Prop where
  noPiece : NoPiece text
  noLexeme : ∀ kind value lexeme rest, text = lexeme ++ rest → ¬ Spells kind value lexeme rest

/-- No run of digits in a text is longer than a limit. -/
def DigitRunsWithin (limit : Nat) (text : List Char) : Prop :=
  ∀ run, run <:+: text → (∀ c ∈ run, c.isDigit = true) → run.length ≤ limit

theorem DigitRunsWithin.mono {limit : Nat} {text part : List Char}
    (hdigits : DigitRunsWithin limit text) (hpart : part <:+: text) :
    DigitRunsWithin limit part :=
  fun run hrun => hdigits run (hrun.trans hpart)

theorem DigitRunsWithin.of_length_le {limit : Nat} {text : List Char}
    (hlength : text.length ≤ limit) : DigitRunsWithin limit text :=
  fun _ hrun _ => Nat.le_trans hrun.length_le hlength

/-! ## The beginning of a text -/

section Beginning

open Front

variable {text : List Char}

theorem read?_of_separates_eq {piece rest : List Char} (htext : text = piece ++ rest)
    (hpiece : Separates piece rest) : read? text = some ⟨.trivia, piece, rest⟩ := by
  rw [htext]
  exact read?_of_separates hpiece

theorem read?_of_spells_eq {kind : TokenKind} {value : TokenValue} {lexeme rest : List Char}
    (hdigits : DigitRunsWithin Vocabulary.maxDigits text) (htext : text = lexeme ++ rest)
    (hspells : Spells kind value lexeme rest) :
    read? text = some ⟨.token kind value, lexeme, rest⟩ := by
  have hlexeme : lexeme <:+: text := ⟨[], rest, by rw [htext]; rfl⟩
  rw [htext]
  exact read?_of_spells hspells fun hrun => hdigits lexeme hlexeme hrun.isDigit

/-- A lexeme is no trivia. -/
theorem noPiece_of_spells {kind : TokenKind} {value : TokenValue} {lexeme rest : List Char}
    (hdigits : DigitRunsWithin Vocabulary.maxDigits text) (htext : text = lexeme ++ rest)
    (hspells : Spells kind value lexeme rest) : NoPiece text := by
  intro piece other hother hpiece
  have hread := read?_of_spells_eq hdigits htext hspells
  rw [read?_of_separates_eq hother hpiece] at hread
  simp at hread

theorem stuck_nil : Stuck [] where
  noPiece := by
    intro piece rest htext hpiece
    have hread := read?_of_separates_eq htext hpiece
    simp [read?] at hread
  noLexeme := by
    intro kind value lexeme rest htext hspells
    have hread := read?_of_spells_eq (.of_length_le (Nat.zero_le _)) htext hspells
    simp [read?] at hread

/-- Where a fault is found, nothing else could have been. -/
theorem stuck_of_fault {first : Char} {fault : LexicalFault}
    (hdigits : DigitRunsWithin Vocabulary.maxDigits (first :: text))
    (hfault : (read first text).reading = .fault fault) : Stuck (first :: text) where
  noPiece := by
    intro piece rest htext hpiece
    have hread := read?_of_separates_eq htext hpiece
    rw [read?, Option.some.injEq] at hread
    simp [hread] at hfault
  noLexeme := by
    intro kind value lexeme rest htext hspells
    have hread := read?_of_spells_eq hdigits htext hspells
    rw [read?, Option.some.injEq] at hread
    simp [hread] at hfault

end Beginning

/-! ## There is one way only -/

theorem Trivia.unique {trivia trivia' rest rest' : List Char} (htrivia : Trivia trivia rest)
    (htrivia' : Trivia trivia' rest') (htext : trivia ++ rest = trivia' ++ rest')
    (hrest : NoPiece rest) (hrest' : NoPiece rest') : trivia = trivia' ∧ rest = rest' := by
  induction htrivia generalizing trivia' with
  | nil =>
      cases htrivia' with
      | nil => exact ⟨rfl, htext⟩
      | cons hpiece hmore =>
          rw [List.nil_append, List.append_assoc] at htext
          exact absurd hpiece (hrest _ _ htext)
  | cons hpiece hmore ih =>
      cases htrivia' with
      | nil =>
          rw [List.nil_append, List.append_assoc] at htext
          exact absurd hpiece (hrest' _ _ htext.symm)
      | cons hpiece' hmore' =>
          -- both begin with the piece that is read there
          rw [List.append_assoc, List.append_assoc] at htext
          have hread := Front.read?_of_separates hpiece
          rw [read?_of_separates_eq htext hpiece'] at hread
          simp only [Option.some.injEq, Front.mk.injEq, true_and] at hread
          obtain ⟨rfl, hrests⟩ := hread
          obtain ⟨rfl, rfl⟩ := ih hmore' hrests.symm hrest
          exact ⟨rfl, rfl⟩

/-- What is in a decomposition after some trivia, or what it leaves over, is no trivia. -/
private theorem segments_unique {left left' last last' text text' : List Char}
    {segments segments' : List Segment}
    (hdigits : DigitRunsWithin Vocabulary.maxDigits text)
    (hparts : Decomposes left segments last text) (hleft : Stuck left)
    (hparts' : Decomposes left' segments' last' text') (hleft' : Stuck left')
    (htext : text = text') : segments = segments' ∧ last = last' ∧ left = left' := by
  induction hparts generalizing segments' text' with
  | last htrivia =>
      cases hparts' with
      | last htrivia' =>
          exact ⟨rfl, htrivia.unique htrivia' htext hleft.noPiece hleft'.noPiece⟩
      | more htrivia' hlexeme' hrest' =>
          rw [htext] at hdigits
          have hnext := noPiece_of_spells (hdigits.mono (List.suffix_append _ _).isInfix) rfl
            hlexeme'
          obtain ⟨-, hsame⟩ := htrivia.unique htrivia' htext hleft.noPiece hnext
          exact absurd hlexeme' (hleft.noLexeme _ _ _ _ hsame)
  | more htrivia hlexeme hrest ih =>
      have hwithin := hdigits.mono (List.suffix_append _ _).isInfix
      have hnext := noPiece_of_spells hwithin rfl hlexeme
      cases hparts' with
      | last htrivia' =>
          obtain ⟨-, hsame⟩ := htrivia.unique htrivia' htext hnext hleft'.noPiece
          exact absurd hlexeme (hleft'.noLexeme _ _ _ _ hsame.symm)
      | more htrivia' hlexeme' hrest' =>
          rw [htext] at hdigits
          have hwithin' := hdigits.mono (List.suffix_append _ _).isInfix
          have hnext' := noPiece_of_spells hwithin' rfl hlexeme'
          obtain ⟨rfl, hsame⟩ := htrivia.unique htrivia' htext hnext hnext'
          -- the same lexeme is read there
          have hread := read?_of_spells_eq hwithin rfl hlexeme
          rw [read?_of_spells_eq hwithin hsame hlexeme'] at hread
          simp only [Option.some.injEq, Front.mk.injEq, Reading.token.injEq] at hread
          obtain ⟨⟨rfl, rfl⟩, rfl, hrests⟩ := hread
          obtain ⟨rfl, rfl, rfl⟩ :=
            ih (hwithin.mono (List.suffix_append _ _).isInfix) hrest' hrests.symm
          exact ⟨rfl, rfl, rfl⟩

theorem Decomposes.unique {left left' last last' text : List Char}
    {segments segments' : List Segment}
    (hdigits : DigitRunsWithin Vocabulary.maxDigits text)
    (hparts : Decomposes left segments last text) (hleft : Stuck left)
    (hparts' : Decomposes left' segments' last' text) (hleft' : Stuck left') :
    segments = segments' ∧ last = last' ∧ left = left' :=
  segments_unique hdigits hparts hleft hparts' hleft' rfl

/-- A piece before a text becomes the beginning of its first trivia. -/
theorem Decomposes.cons_piece {left last text piece : List Char} {segments : List Segment}
    (hparts : Decomposes left segments last text) (hpiece : Separates piece text) :
    ∃ segments' last', Decomposes left segments' last' (piece ++ text) ∧
      segments'.map Segment.content = segments.map Segment.content := by
  cases hparts with
  | last htrivia =>
      have hlonger := Decomposes.last (.cons hpiece htrivia)
      rw [List.append_assoc] at hlonger
      exact ⟨_, _, hlonger, rfl⟩
  | more htrivia hlexeme hrest =>
      have hlonger := Decomposes.more (.cons hpiece htrivia) hlexeme hrest
      rw [List.append_assoc] at hlonger
      exact ⟨_, _, hlonger, rfl⟩

theorem Decomposes.left_suffix {left last text : List Char} {segments : List Segment}
    (hparts : Decomposes left segments last text) : left <:+ text := by
  induction hparts with
  | last htrivia => exact List.suffix_append _ _
  | more htrivia hlexeme hrest ih =>
      exact ih.trans ((List.suffix_append _ _).trans (List.suffix_append _ _))

/-! ## The way a scan goes -/

/-- A scan ends where some text is left: at the end, or at a fault found there. -/
def Scan.EndsBefore (result : Scan) (left : List Char) : Prop :=
  match result.error? with
  | none => left = []
  | some error => ∃ first more, left = first :: more ∧
      (Front.read first more).reading = .fault error.fault

theorem Scan.EndsBefore.error?_eq_none_iff {result : Scan} {left : List Char}
    (hend : result.EndsBefore left) : result.error? = none ↔ left = [] := by
  unfold EndsBefore at hend
  cases herror : result.error? with
  | none => simpa [herror] using hend
  | some error =>
      simp only [herror] at hend
      obtain ⟨first, more, rfl, -⟩ := hend
      simp

theorem Scan.EndsBefore.exists_fault {result : Scan} {first : Char} {more : List Char}
    (hend : result.EndsBefore (first :: more)) :
    ∃ error, result.error? = some error ∧
      (Front.read first more).reading = .fault error.fault := by
  cases herror : result.error? with
  | none => exact absurd (hend.error?_eq_none_iff.mp herror) (List.cons_ne_nil first more)
  | some error =>
      simp only [EndsBefore, herror] at hend
      obtain ⟨_, _, heq, hfault⟩ := hend
      obtain ⟨rfl, rfl⟩ := List.cons.inj heq
      exact ⟨error, rfl, hfault⟩

/-- A scan finds the tokens of a decomposition, and ends where this is stuck. -/
theorem scanFrom_decomposes (found : List Token) (position : Position) {text : List Char}
    (hdigits : DigitRunsWithin Vocabulary.maxDigits text) :
    ∃ segments last left, Decomposes left segments last text ∧ Stuck left ∧
      (scanFrom found position text).tokens.map Token.content =
        found.reverse.map Token.content ++ segments.map Segment.content ∧
      (scanFrom found position text).EndsBefore left := by
  fun_induction scanFrom found position text with
  | case1 found position => exact ⟨[], [], [], .last .nil, stuck_nil, by simp, rfl⟩
  | case2 found position first text front stop htrivia ih =>
      have htext : front.spelled ++ front.rest = first :: text := Front.read_text first text
      have hsound : front.Sound := Front.sound_read first text
      rw [Front.Sound, htrivia] at hsound
      rw [← htext] at hdigits ⊢
      obtain ⟨segments, last, left, hparts, hstuck, htokens, hend⟩ :=
        ih (hdigits.mono (List.suffix_append _ _).isInfix)
      obtain ⟨segments', last', hparts', hsame⟩ := hparts.cons_piece hsound
      exact ⟨segments', last', left, hparts', hstuck, by rw [hsame, htokens], hend⟩
  | case3 found position first text front stop kind value htoken ih =>
      have htext : front.spelled ++ front.rest = first :: text := Front.read_text first text
      have hsound : front.Sound := Front.sound_read first text
      rw [Front.Sound, htoken] at hsound
      rw [← htext] at hdigits ⊢
      obtain ⟨segments, last, left, hparts, hstuck, htokens, hend⟩ :=
        ih (hdigits.mono (List.suffix_append _ _).isInfix)
      refine ⟨_, last, left, .more .nil hsound hparts, hstuck, ?_, hend⟩
      rw [htokens]
      simp [Token.content, Segment.content]
  | case4 found position first text front stop fault hfault =>
      exact ⟨[], [], first :: text, .last .nil, stuck_of_fault hdigits hfault, by simp,
        first, text, rfl, hfault⟩

/-! ## Numbers that cannot be read -/

/-- A run of digits above the greatest integer constant stands at the beginning of a text. -/
def OpensTooLarge (text : List Char) : Prop :=
  ∃ digits rest, text = digits ++ rest ∧ DigitRun digits rest ∧
    Vocabulary.maxInteger < digitsValue digits

/-- Whether a fault is about a number. -/
def LexicalFault.isNumeric : LexicalFault → Bool
  | .integerTooLarge _ | .tooManyDigits _ => true
  | _ => false

namespace Front

section Faults

variable {text : List Char} {fault : LexicalFault}

theorem isNumeric_of_readString (hfault : (readString text).reading = .fault fault) :
    fault.isNumeric = false := by
  unfold readString at hfault
  split at hfault
  · simp at hfault
  · rw [← Reading.fault.inj hfault]
    rfl

theorem isNumeric_of_readSymbol {c : Char} (hfault : (readSymbol c text).reading = .fault fault) :
    fault.isNumeric = false := by
  unfold readSymbol at hfault
  split at hfault
  · simp at hfault
  · rw [← Reading.fault.inj hfault]
    rfl

theorem isNumeric_of_readBlockComment {before : List Char}
    (hfault : (readBlockComment before text).reading = .fault fault) :
    fault.isNumeric = false := by
  fun_induction readBlockComment before text with
  | case1 before rest => simp at hfault
  | case2 before c rest hopen ih => exact ih hfault
  | case3 before =>
      rw [← Reading.fault.inj hfault]
      rfl

theorem isNumeric_of_readSlash (hfault : (readSlash text).reading = .fault fault) :
    fault.isNumeric = false := by
  unfold readSlash at hfault
  split at hfault
  · simp [readLineComment] at hfault
  · exact isNumeric_of_readBlockComment hfault
  · exact isNumeric_of_readSymbol hfault

/-- Only a run of digits is faulty as a number. -/
theorem isNumeric_of_not_isDigit {first : Char} (hdigit : ¬ first.isDigit = true)
    (hfault : (read first text).reading = .fault fault) : fault.isNumeric = false := by
  unfold read at hfault
  split at hfault
  · exact isNumeric_of_readString hfault
  split at hfault
  · simp [readWord] at hfault
  split at hfault
  · simp at hfault
  split at hfault
  · exact isNumeric_of_readSlash hfault
  · exact isNumeric_of_readSymbol hfault

end Faults

/-- A run of digits that is not too long is judged by its value. -/
theorem integerReading_of_within {digits : List Char}
    (hlength : digits.length ≤ Vocabulary.maxDigits) :
    integerReading digits =
      if Vocabulary.maxInteger < digitsValue digits then
        .fault (.integerTooLarge (String.ofList digits))
      else .token .integerConstant (.integer (digitsValue digits)) := by
  rw [integerReading, if_neg (Nat.not_lt.mpr hlength)]

section Numbers

variable {first : Char} {text : List Char} {fault : LexicalFault}

/-- A fault about a number is that of a run of digits above the greatest integer. -/
theorem opensTooLarge_of_numeric_fault
    (hdigits : DigitRunsWithin Vocabulary.maxDigits (first :: text))
    (hfault : (read first text).reading = .fault fault) (hnumeric : fault.isNumeric = true) :
    OpensTooLarge (first :: text) ∧ ∃ digits, fault = .integerTooLarge digits := by
  have hdigit : first.isDigit = true := by
    by_contra hdigit
    simp [isNumeric_of_not_isDigit hdigit hfault] at hnumeric
  have hrun := digitRun_takeWhile hdigit text
  have htext : first :: text =
      first :: text.takeWhile Char.isDigit ++ text.dropWhile Char.isDigit := by simp
  have hlength := hdigits _ ⟨[], _, htext.symm⟩ hrun.isDigit
  rw [read_of_isDigit hdigit, readInteger, integerReading_of_within hlength] at hfault
  split at hfault
  · next hvalue =>
      exact ⟨⟨_, _, htext, hrun, hvalue⟩, _, (Reading.fault.inj hfault).symm⟩
  · simp at hfault

theorem numeric_of_opensTooLarge
    (hdigits : DigitRunsWithin Vocabulary.maxDigits (first :: text))
    (hfault : (read first text).reading = .fault fault) (hlarge : OpensTooLarge (first :: text)) :
    fault.isNumeric = true := by
  obtain ⟨digits, rest, htext, hrun, hvalue⟩ := hlarge
  have hlength := hdigits digits ⟨[], rest, htext.symm⟩ hrun.isDigit
  have hread : read? (first :: text) = some ⟨integerReading digits, digits, rest⟩ := by
    rw [htext]
    exact read?_of_digitRun hrun
  rw [read?, Option.some.injEq] at hread
  rw [hread, integerReading_of_within hlength, if_pos hvalue, Reading.fault.injEq] at hfault
  rw [← hfault]
  rfl

end Numbers

end Front

/-! ## The main result -/

theorem tokenize_eq_ok_iff {source : String} {tokens : List Token} :
    tokenize source = .ok tokens ↔
      (scan source).error? = none ∧ (scan source).tokens = tokens := by
  unfold tokenize
  cases herror : (scan source).error? <;> simp [herror]

theorem tokenize_eq_error_iff {source : String} {error : LexicalError} :
    tokenize source = .error error ↔ (scan source).error? = some error := by
  unfold tokenize
  cases herror : (scan source).error? <;> simp [herror]

/-- A source text gives tokens of some kinds and values just when it decomposes into
lexemes of these with trivia around them, and it does so in one way only.  If it does not,
the scan ends with a fault where a decomposition of the text before is stuck, after the
tokens of that decomposition; the fault is that of an integer above the greatest one just
when a run of digits of such a value stands there. -/
theorem tokenize_iff_decomposes {source : String}
    (hdigits : DigitRunsWithin Vocabulary.maxDigits source.toList) :
    (∀ contents, (∃ tokens, tokenize source = .ok tokens ∧
          tokens.map Token.content = contents) ↔
        ∃ segments last, Decomposes [] segments last source.toList ∧
          segments.map Segment.content = contents) ∧
      (∀ segments segments' last last', Decomposes [] segments last source.toList →
        Decomposes [] segments' last' source.toList → segments = segments' ∧ last = last') ∧
      ((¬ ∃ segments last, Decomposes [] segments last source.toList) →
        ∃ error segments last left, tokenize source = .error error ∧
          Decomposes left segments last source.toList ∧ left ≠ [] ∧ Stuck left ∧
          (scan source).tokens.map Token.content = segments.map Segment.content ∧
          ((∃ digits, error.fault = .integerTooLarge digits) ↔ OpensTooLarge left) ∧
          (∀ count, error.fault ≠ .tooManyDigits count) ∧
          ∀ segments' last' left', Decomposes left' segments' last' source.toList →
            Stuck left' → segments' = segments ∧ last' = last ∧ left' = left) := by
  obtain ⟨segments, last, left, hparts, hstuck, htokens, hend⟩ :=
    scanFrom_decomposes [] .start hdigits
  rw [List.reverse_nil, List.map_nil, List.nil_append] at htokens
  change (scan source).tokens.map Token.content = _ at htokens
  change (scan source).EndsBefore left at hend
  refine ⟨fun contents => ⟨?_, ?_⟩, ?_, ?_⟩
  · rintro ⟨tokens, hread, rfl⟩
    obtain ⟨herror, rfl⟩ := tokenize_eq_ok_iff.mp hread
    obtain rfl := hend.error?_eq_none_iff.mp herror
    exact ⟨segments, last, hparts, htokens.symm⟩
  · rintro ⟨segments', last', hparts', rfl⟩
    obtain ⟨rfl, rfl, rfl⟩ := hparts'.unique hdigits stuck_nil hparts hstuck
    have herror := hend.error?_eq_none_iff.mpr rfl
    exact ⟨_, tokenize_eq_ok_iff.mpr ⟨herror, rfl⟩, htokens⟩
  · intro segments segments' last last' hparts hparts'
    obtain ⟨hsegments, hlast, -⟩ := hparts.unique hdigits stuck_nil hparts' stuck_nil
    exact ⟨hsegments, hlast⟩
  · intro hnone
    cases left with
    | nil => exact absurd ⟨segments, last, hparts⟩ hnone
    | cons first more =>
        obtain ⟨error, herror, hfault⟩ := hend.exists_fault
        have hwithin := hdigits.mono hparts.left_suffix.isInfix
        refine ⟨error, segments, last, first :: more, tokenize_eq_error_iff.mpr herror, hparts,
          List.cons_ne_nil _ _, hstuck, htokens, ⟨?_, ?_⟩, ?_, ?_⟩
        · rintro ⟨digits, hlarge⟩
          exact (Front.opensTooLarge_of_numeric_fault hwithin hfault (by rw [hlarge]; rfl)).1
        · intro hlarge
          have hnumeric := Front.numeric_of_opensTooLarge hwithin hfault hlarge
          exact (Front.opensTooLarge_of_numeric_fault hwithin hfault hnumeric).2
        · intro count hcount
          obtain ⟨-, digits, hlarge⟩ :=
            Front.opensTooLarge_of_numeric_fault hwithin hfault (by rw [hcount]; rfl)
          simp [hcount] at hlarge
        · intro segments' last' left' hparts' hstuck'
          exact hparts'.unique hdigits hstuck' hparts hstuck

/-- A slash is a symbol of its own, the opening of a comment, or part of a string. -/
theorem tokenize_iff_decomposes_slashes :
    let source := "a/7/*/*/\"//\""
    DigitRunsWithin Vocabulary.maxDigits source.toList ∧
      ∃ segments last, Decomposes [] segments last source.toList ∧
        segments.map Segment.content =
          [(.identifier, .text "a"), (.symbol, .text "/"), (.integerConstant, .integer 7),
            (.stringConstant, .text "//")] := by
  intro source
  have hdigits : DigitRunsWithin Vocabulary.maxDigits source.toList :=
    .of_length_le (by decide)
  have htokens : tokenize source =
      .ok [⟨.identifier, .text "a", 1, 1⟩, ⟨.symbol, .text "/", 1, 2⟩,
        ⟨.integerConstant, .integer 7, 1, 3⟩, ⟨.stringConstant, .text "//", 1, 9⟩] := by
    cbv
  exact ⟨hdigits, ((tokenize_iff_decomposes hdigits).1 _).mp ⟨_, htokens, rfl⟩⟩

end JackSyntax
