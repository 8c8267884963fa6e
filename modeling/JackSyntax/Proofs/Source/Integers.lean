import JackSyntax.Proofs.Source.Decomposition
import JackSyntax.Proofs.Source.Places

/-!
# Integers are judged by their values

A run of digits that a scan comes to is an integer constant of its value, or a fault at its
first digit where this value is above the greatest one.  Leading zeros make no difference to
that, but there is a limit: a run of more than `Vocabulary.maxDigits` digits is not read as
a number at all, and its fault is of another sort.

`JudgesByValue` is the law without the limit.  The main result says that the sources scanned
by it are those in which the scan comes to no run beyond the limit
(`judgesByValue_iff`).  Every run that is reached is read from a state of the scan
(`ReachesDigits.exists_state`), and what is read there decides.
-/

namespace JackSyntax

/-- The scan of a text comes to a run of digits, after the text before it. -/
structure ReachesDigits (source before digits rest : List Char) : Prop where
  split : source = before ++ (digits ++ rest)
  run : DigitRun digits rest
  reached : ∃ state : ScanState, state.Reachable source ∧ state.ahead = digits ++ rest

/-- Every run of digits that is reached is judged by its value, and there are no faults but
those of the lexical grammar. -/
structure JudgesByValue (source : String) : Prop where
  fits : ∀ before digits rest, ReachesDigits source.toList before digits rest →
    digitsValue digits ≤ Vocabulary.maxInteger →
    ⟨.integerConstant, .integer (digitsValue digits), (Position.counted before).line,
      (Position.counted before).column⟩ ∈ (scan source).tokens
  overflows : ∀ before digits rest, ReachesDigits source.toList before digits rest →
    Vocabulary.maxInteger < digitsValue digits →
    tokenize source = .error ⟨.integerTooLarge (String.ofList digits),
      (Position.counted before).line, (Position.counted before).column⟩
  within : ∀ error count, tokenize source = .error error → error.fault ≠ .tooManyDigits count

/-! ## What is found stays found -/

namespace ScanState

variable {source : List Char} {state : ScanState}

theorem Reachable.found_subset (hstate : Reachable source state) :
    state.found ⊆ (scanFrom [] .start source).tokens := by
  intro token htoken
  rw [← hstate.finish_eq, finish, ← List.nil_append state.found, scanFrom_append]
  exact List.mem_append_left _ (List.mem_reverse.mpr htoken)

theorem Reachable.error?_of_fault {fault : LexicalFault} {spelled rest : List Char}
    (hstate : Reachable source state)
    (hread : Front.read? state.ahead = some ⟨.fault fault, spelled, rest⟩) :
    (scanFrom [] .start source).error? =
      some ⟨fault, state.position.line, state.position.column⟩ := by
  rw [← hstate.finish_eq, finish_of_fault hread]

end ScanState

/-! ## Reading a run -/

namespace ReachesDigits

variable {source : String} {before digits rest : List Char}

/-- The run is read from a state of the scan, at the place of its first digit. -/
theorem exists_state (hreach : ReachesDigits source.toList before digits rest) :
    ∃ state : ScanState, state.Reachable source.toList ∧
      state.position = .counted before ∧
      Front.read? state.ahead = some ⟨Front.integerReading digits, digits, rest⟩ := by
  obtain ⟨state, hstate, hahead⟩ := hreach.reached
  obtain ⟨earlier, hearlier, hposition⟩ := hstate.accurate.split
  have hsame : earlier = before := by
    rw [hahead, hreach.split] at hearlier
    exact (List.append_cancel_right hearlier).symm
  refine ⟨state, hstate, by rw [hposition, hsame], ?_⟩
  rw [hahead]
  exact Front.read?_of_digitRun hreach.run

theorem tokenize_of_fault {fault : LexicalFault}
    (hreach : ReachesDigits source.toList before digits rest)
    (hreading : Front.integerReading digits = .fault fault) :
    tokenize source =
      .error ⟨fault, (Position.counted before).line, (Position.counted before).column⟩ := by
  obtain ⟨state, hstate, hposition, hread⟩ := hreach.exists_state
  rw [hreading] at hread
  rw [tokenize_eq_error_iff, ← hposition]
  exact hstate.error?_of_fault hread

theorem mem_tokens {value : TokenValue}
    (hreach : ReachesDigits source.toList before digits rest)
    (hreading : Front.integerReading digits = .token .integerConstant value) :
    ⟨.integerConstant, value, (Position.counted before).line,
      (Position.counted before).column⟩ ∈ (scan source).tokens := by
  obtain ⟨state, hstate, hposition, hread⟩ := hreach.exists_state
  rw [hreading] at hread
  rw [← hposition]
  exact (hstate.token hread).found_subset List.mem_cons_self

/-- Beyond the limit the value does not count. -/
theorem tokenize_of_long (hreach : ReachesDigits source.toList before digits rest)
    (hlength : Vocabulary.maxDigits < digits.length) :
    tokenize source =
      .error ⟨.tooManyDigits digits.length, (Position.counted before).line,
        (Position.counted before).column⟩ :=
  hreach.tokenize_of_fault (by rw [Front.integerReading, if_pos hlength])

end ReachesDigits

/-- The fault of excessive length is that of a run that the scan has reached. -/
theorem exists_reachesDigits_of_tooManyDigits {source : String} {error : LexicalError}
    {count : Nat} (herror : tokenize source = .error error)
    (hfault : error.fault = .tooManyDigits count) :
    ∃ before digits rest, ReachesDigits source.toList before digits rest ∧
      Vocabulary.maxDigits < digits.length := by
  obtain ⟨last, hlast, hends⟩ := (@ScanState.Reachable.start source.toList).exists_ends
  change last.Ends (scan source) at hends
  obtain ⟨hoffends, -, -⟩ := hends.offends_of_error (tokenize_eq_error_iff.mp herror)
  rw [hfault] at hoffends
  generalize hahead : last.ahead = ahead at hoffends
  cases hoffends with
  | @tooManyDigits digits rest hrun hlength =>
      obtain ⟨before, hsource, -⟩ := hlast.accurate.split
      rw [hahead] at hsource
      exact ⟨before, digits, rest, ⟨hsource, hrun, last, hlast, hahead⟩, hlength⟩

/-! ## The main result -/

/-- A source is scanned by the values of its integers just when no run of digits that the
scan reaches has more digits than can be read.  The first run that has more ends the scan
with a fault of its own, whatever its value is. -/
theorem judgesByValue_iff (source : String) :
    (JudgesByValue source ↔
        ∀ before digits rest, ReachesDigits source.toList before digits rest →
          digits.length ≤ Vocabulary.maxDigits) ∧
      ∀ before digits rest, ReachesDigits source.toList before digits rest →
        Vocabulary.maxDigits < digits.length →
        tokenize source =
          .error ⟨.tooManyDigits digits.length, (Position.counted before).line,
            (Position.counted before).column⟩ := by
  refine ⟨⟨?_, ?_⟩, fun before digits rest hreach => hreach.tokenize_of_long⟩
  · intro hjudges before digits rest hreach
    by_contra hlength
    exact hjudges.within _ _ (hreach.tokenize_of_long (Nat.not_le.mp hlength)) rfl
  · intro hlimit
    constructor
    case fits =>
      intro before digits rest hreach hvalue
      apply hreach.mem_tokens
      rw [Front.integerReading_of_within (hlimit _ _ _ hreach), if_neg (Nat.not_lt.mpr hvalue)]
    case overflows =>
      intro before digits rest hreach hvalue
      apply hreach.tokenize_of_fault
      rw [Front.integerReading_of_within (hlimit _ _ _ hreach), if_pos hvalue]
    case within =>
      intro error count herror hfault
      obtain ⟨before, digits, rest, hreach, hlength⟩ :=
        exists_reachesDigits_of_tooManyDigits herror hfault
      exact Nat.not_lt.mpr (hlimit _ _ _ hreach) hlength

/-- No run of digits is as long as the limit in a short source, so its leading zeros are
read. -/
theorem judgesByValue_iff_short : JudgesByValue "let x = 00032767;" := by
  refine (judgesByValue_iff _).1.mpr fun before digits rest hreach => ?_
  have hlength : "let x = 00032767;".toList.length = 17 := rfl
  rw [hreach.split, List.length_append, List.length_append] at hlength
  have hlimit : 17 ≤ Vocabulary.maxDigits := by decide
  omega

theorem reachesDigits_zeros {count : Nat} (hcount : 0 < count) :
    ReachesDigits (String.ofList (List.replicate count '0')).toList []
      (List.replicate count '0') [] := by
  rw [String.toList_ofList]
  have hne : List.replicate count '0' ≠ [] := by
    rw [Ne, List.replicate_eq_nil_iff]
    omega
  have hdigits : ∀ c ∈ List.replicate count '0', c.isDigit = true := fun c hc =>
    List.eq_of_mem_replicate hc ▸ rfl
  refine ⟨(List.append_nil _).symm, ⟨hne, hdigits, rfl⟩, _, .start, ?_⟩
  exact (List.append_nil _).symm

/-- A zero that is written with one digit too many is no integer constant. -/
theorem not_judgesByValue_zeros :
    ¬ JudgesByValue (String.ofList (List.replicate 4301 '0')) := by
  intro hjudges
  have hreach := reachesDigits_zeros (show 0 < 4301 by decide)
  have hlength : Vocabulary.maxDigits < (List.replicate 4301 '0').length := by
    rw [List.length_replicate]
    decide
  exact hjudges.within _ _ (hreach.tokenize_of_long hlength) rfl

end JackSyntax
