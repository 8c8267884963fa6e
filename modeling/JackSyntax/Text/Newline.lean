/-!
# Line ends

A text file may end its lines with a line feed, a carriage return, or the two
together.  `Text.normalizeNewlines` turns each of them into one line feed, so that
what reads the text has to know one line end only.
-/

namespace JackSyntax.Text

/-- The text with every line end as one line feed, after the characters already
written (last one first). -/
def normalizeNewlinesFrom (written : List Char) : List Char → List Char
  | [] => written.reverse
  | '\r' :: '\n' :: rest => normalizeNewlinesFrom ('\n' :: written) rest
  | c :: rest => normalizeNewlinesFrom ((if c = '\r' then '\n' else c) :: written) rest

/-- A text with every line end as one line feed. -/
def normalizeNewlines (text : List Char) : List Char :=
  normalizeNewlinesFrom [] text

/-- No carriage return is left. -/
theorem not_mem_normalizeNewlines (text : List Char) : '\r' ∉ normalizeNewlines text := by
  suffices h : ∀ written : List Char, '\r' ∉ written →
      '\r' ∉ normalizeNewlinesFrom written text from h [] (by simp)
  intro written hwritten
  fun_induction normalizeNewlinesFrom written text with
  | case1 => simpa using hwritten
  | case2 written rest ih => exact ih (by simpa using hwritten)
  | case3 written c rest _ ih =>
      refine ih ?_
      by_cases hreturn : c = '\r'
      · simpa [hreturn] using hwritten
      · simpa [hreturn, Ne.symm hreturn] using hwritten

/-- A text without carriage returns stays as it is. -/
theorem normalizeNewlines_eq_self {text : List Char} (hfree : '\r' ∉ text) :
    normalizeNewlines text = text := by
  suffices h : ∀ written : List Char,
      normalizeNewlinesFrom written text = written.reverse ++ text from h []
  intro written
  fun_induction normalizeNewlinesFrom written text with
  | case1 => simp
  | case2 written rest ih => simp at hfree
  | case3 written c rest _ ih =>
      simp only [List.mem_cons, not_or] at hfree
      rw [ih hfree.2, if_neg (Ne.symm hfree.1)]
      simp

end JackSyntax.Text
