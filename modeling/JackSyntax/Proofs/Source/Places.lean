import JackSyntax.Proofs.Source.Lexemes

/-!
# Places are exact

A position is kept up to date character by character.  `Position.counted` says what it has
to be: the characters before it, one line more than there are line feeds among them, and
one column more than there are characters after the last of these.

The strategy is an invariant of the states that a scan goes through
(`ScanState.Reachable`): the position counts what has been read, the rest is ahead, and
the tokens found so far stand in what has been read, one after the other
(`ScanState.Accurate`).  Every front that is read keeps it (`Accurate.read`).

* `Passes` names the places that a scan comes by, the ones inside a front included;
  `passes_iff` says that these are the counted ones, up to where the scan stops.
* `Offends` says what stands where a fault is reported.
-/

namespace JackSyntax

/-! ## Counting -/

namespace Position

/-- The place after a text, found by counting. -/
def counted (text : List Char) : Position where
  offset := text.length
  line := 1 + text.count '\n'
  column := 1 + (text.reverse.takeWhile (· ≠ '\n')).length

/-- Stepping over a text counts it. -/
theorem start_after (text : List Char) : start.after text = counted text := by
  induction text using List.reverseRecOn with
  | nil => rfl
  | append_singleton text c ih =>
      rw [after_append, ih, after_cons, after_nil, next]
      split
      · next hfeed => simp [counted, hfeed, Nat.add_assoc]
      · next hfeed => simp [counted, hfeed, Nat.add_comm]

theorem offset_counted (text : List Char) : (counted text).offset = text.length := rfl

end Position

/-! ## Faults -/

/-- What stands at the beginning of a text that is no token. -/
inductive Offends : LexicalFault → List Char → Prop
  | unexpectedCharacter {c : Char} {rest : List Char} (hblank : isBlank c = false)
      (hquote : c ≠ '"') (hdigit : c.isDigit = false) (hstart : isWordStart c = false)
      (hsymbol : c ∉ Vocabulary.symbols) : Offends (.unexpectedCharacter c) (c :: rest)
  /-- An opening quote, and no other one on the line. -/
  | unterminatedString {content rest : List Char} (hcontent : '"' ∉ content ∧ '\n' ∉ content)
      (hend : rest = [] ∨ rest.head? = some '\n') :
      Offends .unterminatedString ('"' :: (content ++ rest))
  /-- The opening of a comment, and no end of it in the whole text. -/
  | unterminatedComment {content : List Char} (hcontent : ¬ ['*', '/'] <:+: content) :
      Offends .unterminatedComment ('/' :: '*' :: content)
  | integerTooLarge {digits rest : List Char} (hdigits : DigitRun digits rest)
      (hvalue : Vocabulary.maxInteger < digitsValue digits) :
      Offends (.integerTooLarge (String.ofList digits)) (digits ++ rest)
  | tooManyDigits {digits rest : List Char} (hdigits : DigitRun digits rest)
      (hlength : Vocabulary.maxDigits < digits.length) :
      Offends (.tooManyDigits digits.length) (digits ++ rest)

namespace Front

variable {text : List Char} {fault : LexicalFault}

theorem offends_readString (hfault : (readString text).reading = .fault fault) :
    Offends fault ('"' :: text) := by
  have hcontent : ∀ c ∈ text.takeWhile isStringChar, isStringChar c = true := fun c hc =>
    List.mem_takeWhile_imp hc
  have hstop := head?_dropWhile isStringChar text
  have hsplit : text.takeWhile isStringChar ++ text.dropWhile isStringChar = text :=
    List.takeWhile_append_dropWhile
  unfold readString at hfault
  split at hfault
  · simp at hfault
  · next hquote =>
      rw [← Reading.fault.inj hfault, ← hsplit]
      refine .unterminatedString (forall_isStringChar_iff.mp hcontent) ?_
      cases hrest : text.dropWhile isStringChar with
      | nil => exact Or.inl rfl
      | cons c rest =>
          -- the next character is neither a part of the string nor a quote
          rw [hrest] at hstop
          have hc : c ≠ '"' := by
            rintro rfl
            exact hquote rest hrest
          right
          simpa [isStringChar, hc] using hstop

theorem offends_integer {digits rest : List Char} (hdigits : DigitRun digits rest)
    (hfault : integerReading digits = .fault fault) : Offends fault (digits ++ rest) := by
  unfold integerReading at hfault
  split at hfault
  · next hlength =>
      rw [← Reading.fault.inj hfault]
      exact .tooManyDigits hdigits hlength
  split at hfault
  · next hvalue =>
      rw [← Reading.fault.inj hfault]
      exact .integerTooLarge hdigits hvalue
  · simp at hfault

theorem offends_readBlockComment {content : List Char} (hcontent : ¬ ['*', '/'] <:+: content)
    (hlast : content.getLast? = some '*' → text.head? ≠ some '/')
    (hfault : (readBlockComment (content.reverse ++ ['*', '/']) text).reading = .fault fault) :
    Offends fault ('/' :: '*' :: (content ++ text)) := by
  generalize hbefore : content.reverse ++ ['*', '/'] = before at hfault
  fun_induction readBlockComment before text generalizing content with
  | case1 before rest => simp at hfault
  | case2 before c rest hopen ih =>
      obtain ⟨hmore, hend⟩ := open_concat hcontent hlast hopen
      have hoffends := ih hmore hend (by simp [← hbefore]) hfault
      rwa [List.append_assoc] at hoffends
  | case3 before =>
      rw [← Reading.fault.inj hfault, List.append_nil]
      exact .unterminatedComment hcontent

/-- What is read as a fault is one. -/
theorem offends_read {first : Char} (hfault : (read first text).reading = .fault fault) :
    Offends fault (first :: text) := by
  unfold read at hfault
  split at hfault
  · next hquote =>
      rw [hquote]
      exact offends_readString hfault
  next hquote =>
  split at hfault
  · next hdigit =>
      have hrun := digitRun_takeWhile hdigit text
      have hoffends := offends_integer hrun hfault
      rwa [List.cons_append, List.takeWhile_append_dropWhile] at hoffends
  next hdigit =>
  split at hfault
  · simp [readWord] at hfault
  next hstart =>
  split at hfault
  · simp at hfault
  next hblank =>
  have hsymbol : ∀ {rest : List Char}, (readSymbol first rest).reading = .fault fault →
      Offends fault (first :: rest) := by
    intro rest hfault
    unfold readSymbol at hfault
    split at hfault
    · simp at hfault
    · next hsymbol =>
        rw [← Reading.fault.inj hfault]
        exact .unexpectedCharacter (by simpa using hblank) hquote (by simpa using hdigit)
          (by simpa using hstart) hsymbol
  split at hfault
  · next hslash =>
      subst hslash
      unfold readSlash at hfault
      split at hfault
      · simp [readLineComment] at hfault
      · exact @offends_readBlockComment _ _ [] (by simp) (by simp) hfault
      · exact hsymbol hfault
  · exact hsymbol hfault

/-- What is read, and what there is after it, make up the text. -/
theorem text_of_read? {front : Front} (hread : read? text = some front) :
    front.spelled ++ front.rest = text := by
  obtain ⟨first, more, rfl, rfl⟩ := read?_eq_some_iff.mp hread
  exact read_text first more

theorem spelled_ne_nil_of_read? {front : Front} (hread : read? text = some front) :
    front.spelled ≠ [] := by
  obtain ⟨first, more, rfl, rfl⟩ := read?_eq_some_iff.mp hread
  exact read_spelled_ne_nil first more

theorem sound_of_read? {front : Front} (hread : read? text = some front) : front.Sound := by
  obtain ⟨first, more, rfl, rfl⟩ := read?_eq_some_iff.mp hread
  exact sound_read first more

theorem offends_of_read? {spelled rest : List Char}
    (hread : read? text = some ⟨.fault fault, spelled, rest⟩) : Offends fault text := by
  obtain ⟨first, more, rfl, hfront⟩ := read?_eq_some_iff.mp hread
  exact offends_read (by rw [hfront])

end Front

/-! ## The states of a scan -/

/-- A scan before its next front: the tokens found so far (last one first), the place, and
the text ahead. -/
structure ScanState where
  found : List Token
  position : Position
  ahead : List Char

namespace ScanState

/-- A token that is found here. -/
def token (state : ScanState) (kind : TokenKind) (value : TokenValue) : Token :=
  ⟨kind, value, state.position.line, state.position.column⟩

/-- The state after some characters that are passed over. -/
def past (state : ScanState) (spelled rest : List Char) : ScanState :=
  ⟨state.found, state.position.after spelled, rest⟩

/-- The state after the lexeme of a token. -/
def find (state : ScanState) (kind : TokenKind) (value : TokenValue)
    (spelled rest : List Char) : ScanState :=
  ⟨state.token kind value :: state.found, state.position.after spelled, rest⟩

@[simp] theorem offset_past (state : ScanState) (spelled rest : List Char) :
    (state.past spelled rest).position.offset = state.position.offset + spelled.length :=
  Position.offset_after state.position spelled

@[simp] theorem offset_find (state : ScanState) (kind : TokenKind) (value : TokenValue)
    (spelled rest : List Char) :
    (state.find kind value spelled rest).position.offset =
      state.position.offset + spelled.length :=
  Position.offset_after state.position spelled

/-- The scan of what is ahead. -/
def finish (state : ScanState) : Scan :=
  scanFrom state.found state.position state.ahead

/-- The states that the scan of a text goes through. -/
inductive Reachable (source : List Char) : ScanState → Prop
  | start : Reachable source ⟨[], .start, source⟩
  | trivia {state : ScanState} {spelled rest : List Char} (hstate : Reachable source state)
      (hread : Front.read? state.ahead = some ⟨.trivia, spelled, rest⟩) :
      Reachable source (state.past spelled rest)
  | token {state : ScanState} {kind : TokenKind} {value : TokenValue}
      {spelled rest : List Char} (hstate : Reachable source state)
      (hread : Front.read? state.ahead = some ⟨.token kind value, spelled, rest⟩) :
      Reachable source (state.find kind value spelled rest)

/-- A scan ends where nothing is ahead, or just past a fault. -/
inductive Ends : ScanState → Scan → Prop
  | finished {state : ScanState} (hahead : state.ahead = []) :
      Ends state ⟨state.found.reverse, state.position, none⟩
  | faulty {state : ScanState} {fault : LexicalFault} {spelled rest : List Char}
      (hread : Front.read? state.ahead = some ⟨.fault fault, spelled, rest⟩) :
      Ends state ⟨state.found.reverse, state.position.after spelled,
        some ⟨fault, state.position.line, state.position.column⟩⟩

variable {source : List Char} {state : ScanState}

/-- Induction along what is left of a scan. -/
@[elab_as_elim]
theorem induction {motive : ScanState → Prop}
    (finished : ∀ state : ScanState, state.ahead = [] → motive state)
    (faulty : ∀ (state : ScanState) (fault : LexicalFault) (spelled rest : List Char),
      Front.read? state.ahead = some ⟨.fault fault, spelled, rest⟩ → motive state)
    (trivia : ∀ (state : ScanState) (spelled rest : List Char),
      Front.read? state.ahead = some ⟨.trivia, spelled, rest⟩ →
      motive (state.past spelled rest) → motive state)
    (token : ∀ (state : ScanState) (kind : TokenKind) (value : TokenValue)
      (spelled rest : List Char),
      Front.read? state.ahead = some ⟨.token kind value, spelled, rest⟩ →
      motive (state.find kind value spelled rest) → motive state) (state : ScanState) :
    motive state := by
  obtain ⟨found, position, text⟩ := state
  fun_induction scanFrom found position text with
  | case1 found position => exact finished _ rfl
  | case2 found position first text front stop htrivia ih =>
      exact trivia _ _ _ (congrArg some (by rw [← htrivia])) ih
  | case3 found position first text front stop kind value htoken ih =>
      exact token _ _ _ _ _ (congrArg some (by rw [← htoken])) ih
  | case4 found position first text front stop fault hfault =>
      exact faulty _ _ _ _ (congrArg some (by rw [← hfault]))

theorem finish_of_trivia {spelled rest : List Char}
    (hread : Front.read? state.ahead = some ⟨.trivia, spelled, rest⟩) :
    state.finish = (state.past spelled rest).finish :=
  scanFrom_of_trivia _ _ hread

theorem finish_of_token {kind : TokenKind} {value : TokenValue} {spelled rest : List Char}
    (hread : Front.read? state.ahead = some ⟨.token kind value, spelled, rest⟩) :
    state.finish = (state.find kind value spelled rest).finish :=
  scanFrom_of_token _ _ hread

theorem finish_of_fault {fault : LexicalFault} {spelled rest : List Char}
    (hread : Front.read? state.ahead = some ⟨.fault fault, spelled, rest⟩) :
    state.finish =
      ⟨state.found.reverse, state.position.after spelled,
        some ⟨fault, state.position.line, state.position.column⟩⟩ :=
  scanFrom_of_fault _ _ hread

theorem finish_of_nil (hahead : state.ahead = []) :
    state.finish = ⟨state.found.reverse, state.position, none⟩ := by
  rw [finish, hahead, scanFrom]

/-- Every state on the way leads to the same result. -/
theorem Reachable.finish_eq (hstate : Reachable source state) :
    state.finish = scanFrom [] .start source := by
  induction hstate with
  | start => rfl
  | trivia hstate hread ih => rw [← ih, finish_of_trivia hread]
  | token hstate hread ih => rw [← ih, finish_of_token hread]

/-- From every state on the way, the scan goes on to a state where it ends. -/
theorem Reachable.exists_ends (hstate : Reachable source state) :
    ∃ last, Reachable source last ∧ last.Ends state.finish := by
  induction state using ScanState.induction with
  | finished state hahead =>
      rw [finish_of_nil hahead]
      exact ⟨_, hstate, .finished hahead⟩
  | faulty state fault spelled rest hread =>
      rw [finish_of_fault hread]
      exact ⟨_, hstate, .faulty hread⟩
  | trivia state spelled rest hread ih =>
      rw [finish_of_trivia hread]
      exact ih (hstate.trivia hread)
  | token state kind value spelled rest hread ih =>
      rw [finish_of_token hread]
      exact ih (hstate.token hread)

end ScanState

/-! ## Accuracy -/

/-- A position is the one that counting the text before it gives. -/
structure Position.ExactIn (source : List Char) (position : Position) : Prop where
  offset_le : position.offset ≤ source.length
  eq_counted : position = .counted (source.take position.offset)

theorem Position.exactIn_counted (before after : List Char) :
    (counted before).ExactIn (before ++ after) where
  offset_le := by simp [offset_counted]
  eq_counted := by rw [offset_counted, List.take_left]

/-- A stretch of a text, by the number of characters before it. -/
structure Span where
  offset : Nat
  lexeme : List Char

/-- The number of characters before the end of a stretch. -/
def Span.stop (span : Span) : Nat :=
  span.offset + span.lexeme.length

/-- A text spells a token in a stretch, and the token has the line and the column that
counting the text before it gives. -/
structure Token.StandsAt (source : List Char) (token : Token) (span : Span) : Prop where
  spells : ∃ rest, source.drop span.offset = span.lexeme ++ rest ∧
    Spells token.kind token.value span.lexeme rest
  line_eq : token.line = (Position.counted (source.take span.offset)).line
  column_eq : token.column = (Position.counted (source.take span.offset)).column

/-- One stretch begins before another one and does not go into it. -/
def Span.Precedes (earlier later : Span) : Prop :=
  earlier.offset < later.offset ∧ earlier.stop ≤ later.offset

namespace ScanState

/-- What has been read is counted, and the tokens found stand in it one after the other. -/
structure Accurate (source : List Char) (state : ScanState) : Prop where
  split : ∃ before, source = before ++ state.ahead ∧ state.position = .counted before
  placed : ∃ spans, List.Forall₂ (Token.StandsAt source) state.found spans ∧
    (spans.Pairwise fun later earlier => earlier.Precedes later) ∧
    ∀ span ∈ spans, span.offset < state.position.offset ∧ span.stop ≤ state.position.offset

variable {source : List Char} {state : ScanState}

theorem Accurate.exactIn (hstate : state.Accurate source) : state.position.ExactIn source := by
  obtain ⟨before, hsource, hposition⟩ := hstate.split
  rw [hsource, hposition]
  exact Position.exactIn_counted before state.ahead

theorem Accurate.drop_eq (hstate : state.Accurate source) :
    source.drop state.position.offset = state.ahead := by
  obtain ⟨before, hsource, hposition⟩ := hstate.split
  rw [hsource, hposition, Position.offset_counted, List.drop_left]

/-- The place after some characters that are ahead is exact. -/
theorem Accurate.split_after {taken more : List Char} (hstate : state.Accurate source)
    (hahead : state.ahead = taken ++ more) :
    ∃ before, source = before ++ more ∧ state.position.after taken = .counted before := by
  obtain ⟨before, hsource, hposition⟩ := hstate.split
  refine ⟨before ++ taken, by rw [hsource, hahead, List.append_assoc], ?_⟩
  rw [hposition, ← Position.start_after, ← Position.after_append, Position.start_after]

theorem accurate_start (source : List Char) : Accurate source ⟨[], .start, source⟩ where
  split := ⟨[], rfl, rfl⟩
  placed := ⟨[], .nil, .nil, by simp⟩

/-- Passing over a front that is no token keeps a state accurate. -/
theorem Accurate.past {front : Front} (hstate : state.Accurate source)
    (hread : Front.read? state.ahead = some front) :
    (state.past front.spelled front.rest).Accurate source where
  split := hstate.split_after (Front.text_of_read? hread).symm
  placed := by
    obtain ⟨spans, hstand, hordered, hbelow⟩ := hstate.placed
    refine ⟨spans, hstand, hordered, fun span hspan => ?_⟩
    obtain ⟨hoffset, hstop⟩ := hbelow span hspan
    rw [offset_past]
    omega

/-- A token that is read stands where the state is. -/
theorem Accurate.standsAt {kind : TokenKind} {value : TokenValue} {spelled rest : List Char}
    (hstate : state.Accurate source)
    (hread : Front.read? state.ahead = some ⟨.token kind value, spelled, rest⟩) :
    (state.token kind value).StandsAt source ⟨state.position.offset, spelled⟩ where
  spells := by
    refine ⟨rest, ?_, Front.sound_of_read? hread⟩
    rw [hstate.drop_eq]
    exact (Front.text_of_read? hread).symm
  line_eq := by rw [← hstate.exactIn.eq_counted, token]
  column_eq := by rw [← hstate.exactIn.eq_counted, token]

/-- So does finding a token. -/
theorem Accurate.find {kind : TokenKind} {value : TokenValue} {spelled rest : List Char}
    (hstate : state.Accurate source)
    (hread : Front.read? state.ahead = some ⟨.token kind value, spelled, rest⟩) :
    (state.find kind value spelled rest).Accurate source where
  split := (hstate.past hread).split
  placed := by
    obtain ⟨spans, hstand, hordered, hbelow⟩ := hstate.placed
    have hpos : 0 < spelled.length :=
      List.length_pos_iff.mpr (Front.spelled_ne_nil_of_read? hread)
    refine ⟨⟨state.position.offset, spelled⟩ :: spans, .cons (hstate.standsAt hread) hstand,
      .cons hbelow hordered, fun span hspan => ?_⟩
    rw [offset_find]
    rcases List.mem_cons.mp hspan with rfl | hspan
    · simp only [Span.stop]
      omega
    · obtain ⟨hoffset, hstop⟩ := hbelow span hspan
      omega

theorem Reachable.accurate (hstate : Reachable source state) : state.Accurate source := by
  induction hstate with
  | start => exact accurate_start source
  | trivia hstate hread ih => exact ih.past hread
  | token hstate hread ih => exact ih.find hread

end ScanState

/-! ## The places on the way -/

/-- The places that a scan comes by, one after each character that it reads. -/
inductive Passes (source : List Char) : Position → Prop
  | before {state : ScanState} (hstate : state.Reachable source) :
      Passes source state.position
  | inside {state : ScanState} {front : Front} {taken more : List Char}
      (hstate : state.Reachable source) (hread : Front.read? state.ahead = some front)
      (hspelled : front.spelled = taken ++ more) : Passes source (state.position.after taken)

namespace ScanState

theorem offset_le_stop (state : ScanState) : state.position.offset ≤ state.finish.stop.offset := by
  induction state using ScanState.induction with
  | finished state hahead => rw [finish_of_nil hahead]
  | faulty state fault spelled rest hread => simp [finish_of_fault hread]
  | trivia state spelled rest hread ih =>
      rw [finish_of_trivia hread]
      exact Nat.le_trans (by simp) ih
  | token state kind value spelled rest hread ih =>
      rw [finish_of_token hread]
      exact Nat.le_trans (by simp) ih

/-- A scan reads every front to its end. -/
theorem offset_spelled_le_stop {state : ScanState} {front : Front}
    (hread : Front.read? state.ahead = some front) :
    state.position.offset + front.spelled.length ≤ state.finish.stop.offset := by
  obtain ⟨reading, spelled, rest⟩ := front
  rw [← Position.offset_after]
  cases reading with
  | trivia =>
      rw [finish_of_trivia hread]
      exact offset_le_stop (state.past spelled rest)
  | token kind value =>
      rw [finish_of_token hread]
      exact offset_le_stop (state.find kind value spelled rest)
  | fault fault => rw [finish_of_fault hread]

variable {source : List Char} {state : ScanState} {count : Nat}

theorem Reachable.exists_inside {front : Front} (hstate : Reachable source state)
    (hread : Front.read? state.ahead = some front) (hcount : state.position.offset ≤ count)
    (hwithin : count ≤ state.position.offset + front.spelled.length) :
    ∃ place, Passes source place ∧ place.offset = count := by
  have hsplit := List.take_append_drop (count - state.position.offset) front.spelled
  refine ⟨_, .inside hstate hread hsplit.symm, ?_⟩
  rw [Position.offset_after, List.length_take]
  omega

/-- Whatever number of characters is read, there is a place on the way after so many. -/
theorem Reachable.exists_passes (hstate : Reachable source state)
    (hcount : state.position.offset ≤ count) (hstop : count ≤ state.finish.stop.offset) :
    ∃ place, Passes source place ∧ place.offset = count := by
  induction state using ScanState.induction with
  | finished state hahead =>
      rw [finish_of_nil hahead] at hstop
      exact ⟨_, .before hstate, Nat.le_antisymm hcount hstop⟩
  | faulty state fault spelled rest hread =>
      rw [finish_of_fault hread] at hstop
      exact hstate.exists_inside hread hcount (by simpa using hstop)
  | trivia state spelled rest hread ih =>
      rw [finish_of_trivia hread] at hstop
      rcases Nat.le_total count (state.position.after spelled).offset with hle | hle
      · exact hstate.exists_inside hread hcount (by simpa using hle)
      · exact ih (hstate.trivia hread) hle hstop
  | token state kind value spelled rest hread ih =>
      rw [finish_of_token hread] at hstop
      rcases Nat.le_total count (state.position.after spelled).offset with hle | hle
      · exact hstate.exists_inside hread hcount (by simpa using hle)
      · exact ih (hstate.token hread) hle hstop

end ScanState

theorem Passes.exactIn {source : List Char} {place : Position} (hplace : Passes source place) :
    place.ExactIn source := by
  cases hplace with
  | before hstate => exact hstate.accurate.exactIn
  | inside hstate hread hspelled =>
      have htext := Front.text_of_read? hread
      rw [hspelled, List.append_assoc] at htext
      obtain ⟨before, hsource, hplace⟩ := hstate.accurate.split_after htext.symm
      rw [hsource, hplace]
      exact Position.exactIn_counted before _

theorem Passes.offset_le {source : List Char} {place : Position} (hplace : Passes source place) :
    place.offset ≤ (scanFrom [] .start source).stop.offset := by
  cases hplace with
  | @before state hstate =>
      rw [← hstate.finish_eq]
      exact state.offset_le_stop
  | @inside state front taken more hstate hread hspelled =>
      have hwithin := ScanState.offset_spelled_le_stop hread
      rw [hstate.finish_eq, hspelled, List.length_append] at hwithin
      rw [Position.offset_after]
      omega

/-- The places that a scan comes by are the counted ones, up to where it stops. -/
theorem passes_iff {source : List Char} {place : Position} :
    Passes source place ↔
      ∃ count ≤ (scanFrom [] .start source).stop.offset,
        place = .counted (source.take count) := by
  constructor
  · intro hplace
    exact ⟨place.offset, hplace.offset_le, hplace.exactIn.eq_counted⟩
  · rintro ⟨count, hcount, rfl⟩
    obtain ⟨place, hplace, rfl⟩ :=
      ScanState.Reachable.start.exists_passes (Nat.zero_le count) hcount
    rwa [← hplace.exactIn.eq_counted]

/-! ## Where a scan ends -/

namespace ScanState.Ends

variable {source : List Char} {last : ScanState} {result : Scan}

theorem tokens_eq (hends : last.Ends result) : result.tokens = last.found.reverse := by
  cases hends <;> rfl

theorem passes_stop (hends : last.Ends result) (hlast : last.Reachable source) :
    Passes source result.stop := by
  cases hends with
  | finished hahead => exact .before hlast
  | faulty hread => exact .inside hlast hread (List.append_nil _).symm

theorem eq_of_no_error (hends : last.Ends result) (herror : result.error? = none) :
    last.ahead = [] ∧ result.stop = last.position := by
  cases hends with
  | finished hahead => exact ⟨hahead, rfl⟩
  | faulty hread => simp at herror

/-- The fault is reported at the place of the last state, where the offending characters are
ahead. -/
theorem offends_of_error {error : LexicalError} (hends : last.Ends result)
    (herror : result.error? = some error) :
    Offends error.fault last.ahead ∧ error.line = last.position.line ∧
      error.column = last.position.column := by
  cases hends with
  | finished hahead => simp at herror
  | faulty hread =>
      rw [Option.some.injEq] at herror
      subst herror
      exact ⟨Front.offends_of_read? hread, rfl, rfl⟩

end ScanState.Ends

/-! ## The main result -/

/-- A scan counts exactly, at every place that it comes by and where it stops, also after a
fault.  The tokens that it found stand in the text, one after the other, each with the line
and the column of the first character of its lexeme.  A fault has the line and the column
at which the offending characters begin, where the scan had found all its tokens; and a
scan without a fault stops at the end of the text. -/
theorem scan_places_exact (source : String) :
    (∀ place, Passes source.toList place ↔
        ∃ count ≤ (scan source).stop.offset, place = .counted (source.toList.take count)) ∧
      (scan source).stop.ExactIn source.toList ∧
      (∃ spans, List.Forall₂ (Token.StandsAt source.toList) (scan source).tokens spans ∧
        spans.Pairwise Span.Precedes ∧ ∀ span ∈ spans, span.stop ≤ (scan source).stop.offset) ∧
      (∀ error, (scan source).error? = some error →
        ∃ last : ScanState, last.Reachable source.toList ∧
          last.found.reverse = (scan source).tokens ∧
          Offends error.fault (source.toList.drop last.position.offset) ∧
          error.line = (Position.counted (source.toList.take last.position.offset)).line ∧
          error.column =
            (Position.counted (source.toList.take last.position.offset)).column) ∧
      ((scan source).error? = none → (scan source).stop.offset = source.length) := by
  obtain ⟨last, hlast, hends⟩ := (@ScanState.Reachable.start source.toList).exists_ends
  change last.Ends (scan source) at hends
  have hplace := hlast.accurate.exactIn
  have hahead := hlast.accurate.drop_eq
  have hstop : last.position.offset ≤ (scan source).stop.offset := by
    have hle := last.offset_le_stop
    rwa [hlast.finish_eq] at hle
  refine ⟨fun place => passes_iff, (hends.passes_stop hlast).exactIn, ?_, ?_, ?_⟩
  · obtain ⟨spans, hstand, hordered, hbelow⟩ := hlast.accurate.placed
    refine ⟨spans.reverse, ?_, List.pairwise_reverse.mpr hordered, fun span hspan => ?_⟩
    · rw [hends.tokens_eq]
      exact List.forall₂_reverse_iff.mpr hstand
    · exact Nat.le_trans (hbelow span (List.mem_reverse.mp hspan)).2 hstop
  · intro error herror
    obtain ⟨hoffends, hline, hcolumn⟩ := hends.offends_of_error herror
    refine ⟨last, hlast, hends.tokens_eq.symm, by rwa [hahead], ?_, ?_⟩
    · rw [hline, ← hplace.eq_counted]
    · rw [hcolumn, ← hplace.eq_counted]
  · intro herror
    obtain ⟨hnil, hlastStop⟩ := hends.eq_of_no_error herror
    rw [hnil, List.drop_eq_nil_iff] at hahead
    rw [hlastStop, ← String.length_toList]
    exact Nat.le_antisymm hplace.offset_le hahead

/-- A comment over two lines, a string, and a fault on the third line. -/
example :
    scan "a /*\n*/ \"b\"\n 7 #" =
      ⟨[⟨.identifier, .text "a", 1, 1⟩, ⟨.stringConstant, .text "b", 2, 4⟩,
          ⟨.integerConstant, .integer 7, 3, 2⟩], ⟨16, 3, 5⟩,
        some ⟨.unexpectedCharacter '#', 3, 4⟩⟩ := by
  cbv

end JackSyntax
