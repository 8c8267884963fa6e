import JackSyntax.Proofs.Source.Locality

/-!
# Scanning line by line

A line feed ends whatever is being read, except for a block comment.  So the scan of a text
that goes on after a line feed is made up of two scans.

* Where the first part has no fault, its scan comes to the line feed with nothing open, and
  the second part is scanned as if it stood alone, some lines further down
  (`scanFrom_line_of_success`).
* Where the first part has a fault, that fault is found again, and what follows is not
  looked at (`scanFrom_line_of_fault`).  A block comment without an end is the exception,
  since the second part may bring its end.
-/

namespace JackSyntax

/-! ## Further down -/

/-- A token some lines further down. -/
def Token.lowered (lines : Nat) (token : Token) : Token :=
  { token with line := token.line + lines }

/-- A fault some lines further down. -/
def LexicalError.lowered (lines : Nat) (error : LexicalError) : LexicalError :=
  { error with line := error.line + lines }

section Lowered

variable {origin target : Position} {lines : Nat}

theorem Token.moved_eq_lowered (hline : target.line = origin.line + lines)
    (hcolumn : target.column = origin.column) :
    Token.moved origin target = Token.lowered lines := by
  funext token
  simp [moved, lowered, hline, hcolumn]

theorem LexicalError.moved_eq_lowered (hline : target.line = origin.line + lines)
    (hcolumn : target.column = origin.column) :
    LexicalError.moved origin target = LexicalError.lowered lines := by
  funext error
  simp only [moved, lowered, hline, hcolumn, LexicalError.mk.injEq, true_and]
  exact ⟨by omega, by simp⟩

end Lowered

/-! ## Two parts -/

/-- The lines that a text before a line feed takes. -/
def linesBefore (text : List Char) : Nat :=
  1 + text.count '\n'

theorem line_counted_next_feed (text : List Char) :
    ((Position.counted text).next '\n').line = Position.start.line + linesBefore text := by
  simp only [Position.next, if_true, Position.counted, Position.start, linesBefore]
  omega

section Parts

variable {first : List Char} (second : List Char)

/-- After a text without a fault and a line feed, the scan goes on as it would begin. -/
theorem scanFrom_line_of_success (herror : (scanFrom [] .start first).error? = none) :
    (scanFrom [] .start (first ++ '\n' :: second)).tokens =
        (scanFrom [] .start first).tokens ++
          (scanFrom [] .start second).tokens.map (Token.lowered (linesBefore first)) ∧
      (scanFrom [] .start (first ++ '\n' :: second)).error? =
        (scanFrom [] .start second).error?.map (LexicalError.lowered (linesBefore first)) := by
  obtain ⟨last, hlast, hends⟩ := (@ScanState.Reachable.start first).exists_ends
  change last.Ends (scanFrom [] .start first) at hends
  obtain ⟨hahead, -⟩ := hends.eq_of_no_error herror
  have hposition : last.position = .counted first := by
    obtain ⟨before, hbefore, hposition⟩ := hlast.accurate.split
    rw [hahead, List.append_nil] at hbefore
    rw [hposition, hbefore]
  have hclosed : EndsLike last.ahead ('\n' :: second) := .feed rfl
  have hreached := hlast.replace (by rw [hahead, List.append_nil]) hclosed
  have hfeed : Front.read? ('\n' :: second) = some ⟨.trivia, ['\n'], second⟩ :=
    Front.read?_of_separates (.blank (by decide))
  -- the second text begins right below the beginning of the first one
  rw [← Token.moved_eq_lowered (line_counted_next_feed first) rfl,
    ← LexicalError.moved_eq_lowered (line_counted_next_feed first) rfl, ← hreached.finish_eq,
    ScanState.finish, scanFrom_of_trivia _ _ hfeed, hends.tokens_eq, scanFrom_moved _ .start,
    hposition]
  exact ⟨rfl, rfl⟩

/-- A fault in a text ends the scan, whatever comes after the line. -/
theorem scanFrom_line_of_fault {error : LexicalError}
    (herror : (scanFrom [] .start first).error? = some error)
    (hfault : error.fault ≠ .unterminatedComment) :
    scanFrom [] .start (first ++ '\n' :: second) = scanFrom [] .start first := by
  obtain ⟨last, hlast, hends⟩ := (@ScanState.Reachable.start first).exists_ends
  obtain ⟨before, hbefore, -⟩ := hlast.accurate.split
  have hreached := hlast.replace hbefore (.append_feed last.ahead second)
  rw [← List.append_assoc, ← hbefore] at hreached
  change last.Ends (scanFrom [] .start first) at hends
  rw [← hreached.finish_eq]
  generalize scanFrom [] .start first = result at hends herror
  cases hends with
  | finished hahead => simp at herror
  | faulty hread =>
      rw [Option.some.injEq] at herror
      subst herror
      exact ScanState.finish_of_fault (Front.read?_fault_append_feed hread hfault second)

end Parts

/-! ## The main result -/

/-- Scanning goes line by line.  Where a text has tokens, it keeps them when a line feed and
a second text are added; after them come the tokens of the second text, or those before its
fault and then the fault, all with their columns and as many lines further down as the first
text takes.  Where the first text has a fault that is no comment without an end, the scan is
the one of the first text, whatever the second is. -/
theorem tokenize_append_line (first second : String) :
    (∀ tokens, tokenize first = .ok tokens →
        (scan (first ++ "\n" ++ second)).tokens =
            tokens ++ (scan second).tokens.map (Token.lowered (linesBefore first.toList)) ∧
          (∀ more, tokenize second = .ok more →
            tokenize (first ++ "\n" ++ second) =
              .ok (tokens ++ more.map (Token.lowered (linesBefore first.toList)))) ∧
          ∀ error, tokenize second = .error error →
            tokenize (first ++ "\n" ++ second) =
              .error (error.lowered (linesBefore first.toList))) ∧
      ∀ error, tokenize first = .error error → error.fault ≠ .unterminatedComment →
        tokenize (first ++ "\n" ++ second) = .error error ∧
          scan (first ++ "\n" ++ second) = scan first := by
  have htext : (first ++ "\n" ++ second).toList = first.toList ++ '\n' :: second.toList := by
    simp
  refine ⟨fun tokens hfirst => ?_, fun error hfirst hfault => ?_⟩
  · obtain ⟨herror, rfl⟩ := tokenize_eq_ok_iff.mp hfirst
    obtain ⟨htokens, hfaults⟩ := scanFrom_line_of_success second.toList herror
    rw [← htext] at htokens hfaults
    refine ⟨htokens, fun more hsecond => ?_, fun error hsecond => ?_⟩
    · obtain ⟨hnone, rfl⟩ := tokenize_eq_ok_iff.mp hsecond
      refine tokenize_eq_ok_iff.mpr ⟨?_, htokens⟩
      exact hfaults.trans (congrArg _ hnone)
    · refine tokenize_eq_error_iff.mpr ?_
      exact hfaults.trans (congrArg _ (tokenize_eq_error_iff.mp hsecond))
  · have hsame : scan (first ++ "\n" ++ second) = scan first := by
      rw [scan, htext]
      exact scanFrom_line_of_fault second.toList (tokenize_eq_error_iff.mp hfirst) hfault
    refine ⟨?_, hsame⟩
    rw [tokenize_eq_error_iff, hsame]
    exact tokenize_eq_error_iff.mp hfirst

/-- A comment may go on after the line feed, and end there. -/
example :
    tokenize "a /* b" = .error ⟨.unterminatedComment, 1, 3⟩ ∧
      tokenize ("a /* b" ++ "\n" ++ "*/ c") =
        .ok [⟨.identifier, .text "a", 1, 1⟩, ⟨.identifier, .text "c", 2, 4⟩] := by
  constructor <;> cbv

end JackSyntax
