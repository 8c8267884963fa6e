import JackSyntax.Proofs.Reading.Faithfulness
import JackSyntax.Session
import Mathlib

/-!
# Sessions keep the laws of their cursor

Operations of a session come in any order, and any of them may fail.  Still the cursor is
only ever moved by single steps, forward over a token or back over the last one
(`Cursor.Reached`), and the history of these steps tells everything about it.

* What a history says about the cursor it leads to is an invariant of single steps
  (`Cursor.Reached.accounted`).  The tokens taken since the last step back are the ones
  right behind the cursor, so a step back is allowed while there is one of them.
* `Session.Step` lists what an operation can do.  All operations do one of these things
  (`Session.steps_perform`), and all of these things are made of single steps
  (`Session.Step.reached`).

The main result, `session_lawful`, holds after any operations.
-/

namespace JackSyntax

/-! ## Histories -/

/-- The steps that a cursor has made, the last one outermost. -/
inductive History
  | start
  | take (token : Token) (earlier : History)
  | back (earlier : History)

namespace History

/-- The tokens taken, last one first. -/
def taken : History → List Token
  | start => []
  | take token earlier => token :: earlier.taken
  | back earlier => earlier.taken

/-- The tokens taken since the last step back, last one first. -/
def takenSinceBack : History → List Token
  | start | back _ => []
  | take token earlier => token :: earlier.takenSinceBack

/-- The number of steps back. -/
def backs : History → Nat
  | start => 0
  | take _ earlier => earlier.backs
  | back earlier => earlier.backs + 1

/-- The history after some more tokens are taken. -/
def takeAll : History → List Token → History
  | history, [] => history
  | history, token :: tokens => (history.take token).takeAll tokens

theorem takenSinceBack_prefix_taken (history : History) :
    history.takenSinceBack <+: history.taken := by
  induction history with
  | start => exact List.prefix_rfl
  | take token earlier ih => exact (List.prefix_cons_inj token).mpr ih
  | back earlier _ => exact List.nil_prefix

end History

/-! ## What a history says about the cursor -/

namespace Cursor

variable {cursor moved : Cursor} {token : Token}

theorem advance_eq_ok_iff :
    cursor.advance = .ok (token, moved) ↔
      ∃ rest, cursor.ahead = token :: rest ∧ moved = ⟨token :: cursor.behind, rest, true⟩ := by
  unfold advance
  cases cursor.ahead with
  | nil => simp
  | cons next rest =>
      simp only [Except.ok.injEq, Prod.mk.injEq, List.cons.injEq]
      constructor
      · rintro ⟨rfl, rfl⟩
        exact ⟨rest, ⟨rfl, rfl⟩, rfl⟩
      · rintro ⟨_, ⟨rfl, rfl⟩, rfl⟩
        exact ⟨rfl, rfl⟩

theorem retreat_eq_ok_iff :
    cursor.retreat = .ok moved ↔
      ∃ token behind, cursor.mayRetreat = true ∧ cursor.behind = token :: behind ∧
        moved = ⟨behind, token :: cursor.ahead, false⟩ := by
  unfold retreat
  cases cursor.mayRetreat with
  | false => simp
  | true =>
      cases cursor.behind with
      | nil => simp
      | cons token behind =>
          simp only [Except.ok.injEq, List.cons.injEq, true_and]
          constructor
          · rintro rfl
            exact ⟨token, behind, ⟨rfl, rfl⟩, rfl⟩
          · rintro ⟨_, _, ⟨rfl, rfl⟩, rfl⟩
            rfl

theorem moveTo_ahead (cursor : Cursor) : cursor.moveTo cursor.ahead = cursor := by
  rw [moveTo_eq (List.nil_append _).symm]
  simp

theorem current_error_iff : (∃ error, cursor.current = .error error) ↔ cursor.position = 0 := by
  unfold current position
  cases cursor.behind <;> simp

/-- The steps of a history lead from the beginning of some tokens to a cursor. -/
inductive Reached (tokens : List Token) : History → Cursor → Prop
  | start : Reached tokens .start (.ofTokens tokens)
  | take {history : History} {cursor moved : Cursor} {token : Token}
      (hreached : Reached tokens history cursor)
      (hadvance : cursor.advance = .ok (token, moved)) :
      Reached tokens (history.take token) moved
  | back {history : History} {cursor moved : Cursor} (hreached : Reached tokens history cursor)
      (hretreat : cursor.retreat = .ok moved) : Reached tokens history.back moved

/-- What the history of a cursor says about it. -/
structure Accounted (tokens : List Token) (history : History) (cursor : Cursor) : Prop where
  tokens_eq : cursor.tokens = tokens
  position_add_backs : cursor.position + history.backs = history.taken.length
  recent : history.takenSinceBack <+: cursor.behind
  mayRetreat_iff : cursor.mayRetreat = true ↔ history.takenSinceBack ≠ []

variable {tokens : List Token} {history : History}

theorem Accounted.take (haccounted : Accounted tokens history cursor)
    (hadvance : cursor.advance = .ok (token, moved)) :
    Accounted tokens (history.take token) moved := by
  have htokens := tokens_advance hadvance
  have hposition := haccounted.position_add_backs
  obtain ⟨rest, -, rfl⟩ := advance_eq_ok_iff.mp hadvance
  constructor
  case tokens_eq => rw [htokens, haccounted.tokens_eq]
  case position_add_backs =>
    simp only [position, History.backs, History.taken, List.length_cons] at hposition ⊢
    omega
  case recent => exact (List.prefix_cons_inj token).mpr haccounted.recent
  case mayRetreat_iff => simp [History.takenSinceBack]

theorem Accounted.back (haccounted : Accounted tokens history cursor)
    (hretreat : cursor.retreat = .ok moved) : Accounted tokens history.back moved := by
  have htokens := tokens_retreat hretreat
  have hposition := haccounted.position_add_backs
  obtain ⟨token, behind, -, hbehind, rfl⟩ := retreat_eq_ok_iff.mp hretreat
  constructor
  case tokens_eq => rw [htokens, haccounted.tokens_eq]
  case position_add_backs =>
    simp only [position, History.backs, History.taken, hbehind, List.length_cons] at hposition ⊢
    omega
  case recent => exact List.nil_prefix
  case mayRetreat_iff => simp [History.takenSinceBack]

theorem Reached.accounted (hreached : Reached tokens history cursor) :
    Accounted tokens history cursor := by
  induction hreached with
  | start => exact ⟨rfl, rfl, List.prefix_rfl, by simp [History.takenSinceBack, ofTokens]⟩
  | take _ hadvance ih => exact ih.take hadvance
  | back _ hretreat ih => exact ih.back hretreat

/-- Moving past some tokens is taking them one by one. -/
theorem Reached.moveTo {taken rest : List Token} (hreached : Reached tokens history cursor)
    (hahead : cursor.ahead = taken ++ rest) :
    Reached tokens (history.takeAll taken) (cursor.moveTo rest) := by
  induction taken generalizing history cursor with
  | nil =>
      have hrest : cursor.ahead = rest := hahead
      rw [← hrest, moveTo_ahead]
      exact hreached
  | cons token taken ih =>
      have hadvance : cursor.advance =
          .ok (token, ⟨token :: cursor.behind, taken ++ rest, true⟩) :=
        advance_eq_ok_iff.mpr ⟨taken ++ rest, hahead, rfl⟩
      have hmore := ih (hreached.take hadvance) rfl
      rw [moveTo_eq rfl] at hmore
      rw [moveTo_eq hahead]
      simpa [History.takeAll] using hmore

namespace Accounted

variable (haccounted : Accounted tokens history cursor)
include haccounted

theorem position_le : cursor.position ≤ tokens.length := by
  rw [← haccounted.tokens_eq, position, Cursor.tokens, List.length_append, List.length_reverse]
  omega

theorem position_pos (hmay : cursor.mayRetreat = true) : 0 < cursor.position := by
  apply List.length_pos_iff.mpr
  intro hbehind
  have hrecent := haccounted.recent
  rw [hbehind, List.prefix_nil] at hrecent
  exact haccounted.mayRetreat_iff.mp hmay hrecent

theorem retreat_iff : (∃ moved, cursor.retreat = .ok moved) ↔ history.takenSinceBack ≠ [] := by
  constructor
  · rintro ⟨moved, hretreat⟩
    obtain ⟨token, behind, hmay, -, -⟩ := retreat_eq_ok_iff.mp hretreat
    exact haccounted.mayRetreat_iff.mp hmay
  · intro hsince
    have hmay := haccounted.mayRetreat_iff.mpr hsince
    obtain ⟨token, behind, hbehind⟩ :=
      List.exists_cons_of_length_pos (haccounted.position_pos hmay)
    exact ⟨_, retreat_eq_ok_iff.mpr ⟨token, behind, hmay, hbehind, rfl⟩⟩

/-- A step back leads to the place before the token taken last, and a step forward over the
same token to where it began. -/
theorem advance_of_retreat (hretreat : cursor.retreat = .ok moved) :
    moved.position + 1 = cursor.position ∧
      ∃ token, history.taken.head? = some token ∧ moved.advance = .ok (token, cursor) := by
  have hsince := haccounted.retreat_iff.mp ⟨moved, hretreat⟩
  obtain ⟨token, behind, hmay, hbehind, rfl⟩ := retreat_eq_ok_iff.mp hretreat
  refine ⟨by simp [position, hbehind], token, ?_, ?_⟩
  · obtain ⟨recent, earlier, hcons⟩ := List.exists_cons_of_ne_nil hsince
    have hrecent := haccounted.recent
    have htaken := history.takenSinceBack_prefix_taken
    rw [hcons] at hrecent htaken
    rw [hbehind, List.cons_prefix_cons] at hrecent
    obtain ⟨others, hothers⟩ := htaken
    rw [← hothers, ← hrecent.1]
    rfl
  · refine advance_eq_ok_iff.mpr ⟨cursor.ahead, rfl, ?_⟩
    rw [← hbehind, ← hmay]

theorem peek?_eq : cursor.peek? = tokens[cursor.position]? := by
  rw [← haccounted.tokens_eq, peek?, Cursor.tokens, position]
  rw [List.getElem?_append_right (by simp)]
  simp [List.head?_eq_getElem?]

/-- The token taken last is the one before the next one. -/
theorem getElem?_of_current (hcurrent : cursor.current = .ok token) :
    tokens[cursor.position - 1]? = some token := by
  cases hbehind : cursor.behind with
  | nil => simp [current, hbehind] at hcurrent
  | cons last behind =>
      simp only [current, hbehind, Except.ok.injEq] at hcurrent
      rw [← haccounted.tokens_eq, Cursor.tokens, position, hbehind, hcurrent]
      simp

end Accounted

end Cursor

/-! ## Steps of a session -/

namespace Operation

/-- The operations that have productions read. -/
def reads : Operation → Bool
  | read _ | readProgram => true
  | _ => false

/-- The operations that neither move the cursor nor change the node. -/
def looks : Operation → Bool
  | peek | hasMore | current | last | kind | value _ | isNext _ => true
  | _ => false

end Operation

namespace Session

/-- What an operation can do: its answer, the session after it, and the history after it. -/
inductive Step (session : Session) (history : History) :
    Operation → Except SessionError Answer → Session → History → Prop
  | looked {operation : Operation} {answer : Answer} (hlooks : operation.looks = true) :
      Step session history operation (.ok answer) session history
  /-- What fails changes nothing, unless it reads productions. -/
  | refused {operation : Operation} {error : SessionError} (hreads : operation.reads = false) :
      Step session history operation (.error error) session history
  | advanced {token : Token} {cursor : Cursor}
      (hadvance : session.cursor.advance = .ok (token, cursor)) :
      Step session history .advance (.ok (.token token)) ⟨cursor, session.children⟩
        (history.take token)
  | retreated {cursor : Cursor} (hretreat : session.cursor.retreat = .ok cursor) :
      Step session history .retreat (.ok .nothing) ⟨cursor, session.children⟩ history.back
  | required {requirement : Requirement} {token : Token} {cursor : Cursor}
      (haccepts : requirement.terminal.accepts token = true)
      (hadvance : session.cursor.advance = .ok (token, cursor)) :
      Step session history (.require requirement) (.ok (.token token))
        ⟨cursor, session.children ++ [.leaf token]⟩ (history.take token)
  | read {operation : Operation} {tree : Tree} {rest : List Token}
      (hreads : operation.reads = true) (hahead : session.cursor.ahead = tree.tokens ++ rest) :
      Step session history operation (.ok (.tree tree))
        ⟨session.cursor.moveTo rest, session.children⟩ (history.takeAll tree.tokens)
  /-- A reading may fail after some tokens. -/
  | stopped {operation : Operation} {error : SessionError} {taken rest : List Token}
      (hreads : operation.reads = true) (hahead : session.cursor.ahead = taken ++ rest) :
      Step session history operation (.error error)
        ⟨session.cursor.moveTo rest, session.children⟩ (history.takeAll taken)

variable {session : Session} {history : History}

theorem Step.reached {tokens : List Token} {operation : Operation}
    {result : Except SessionError Answer} {after : Session} {later : History}
    (hreached : Cursor.Reached tokens history session.cursor)
    (hstep : session.Step history operation result after later) :
    Cursor.Reached tokens later after.cursor := by
  cases hstep with
  | looked _ => exact hreached
  | refused _ => exact hreached
  | advanced hadvance => exact hreached.take hadvance
  | retreated hretreat => exact hreached.back hretreat
  | required _ hadvance => exact hreached.take hadvance
  | read _ hahead => exact hreached.moveTo hahead
  | stopped _ hahead => exact hreached.moveTo hahead

theorem Step.eq_of_error {operation : Operation} {error : SessionError} {after : Session}
    {later : History} (hstep : session.Step history operation (.error error) after later)
    (hreads : operation.reads = false) : after = session := by
  cases hstep with
  | refused _ => rfl
  | stopped htrue _ =>
      rw [hreads] at htrue
      cases htrue

/-! ## What the operations do -/

/-- The history after an operation: one more step back, or the tokens between the places of
the cursor before and after it. -/
def record (session : Session) (history : History) :
    Operation → Except SessionError Answer → Session → History
  | .retreat, .ok _, _ => history.back
  | _, _, after =>
      history.takeAll
        (session.cursor.ahead.take (after.cursor.position - session.cursor.position))

theorem record_eq_takeAll {operation : Operation} (hmoves : operation ≠ .retreat)
    (result : Except SessionError Answer) {after : Session} {taken rest : List Token}
    (hahead : session.cursor.ahead = taken ++ rest)
    (hposition : after.cursor.position = session.cursor.position + taken.length) :
    session.record history operation result after = history.takeAll taken := by
  have htaken : session.cursor.ahead.take (after.cursor.position - session.cursor.position) =
      taken := by
    rw [hposition, hahead]
    simp
  cases operation <;> first | exact absurd rfl hmoves | exact congrArg history.takeAll htaken

theorem record_error (operation : Operation) (error : SessionError) :
    session.record history operation (.error error) session = history := by
  by_cases hoperation : operation = .retreat
  · subst hoperation
    change history.takeAll (session.cursor.ahead.take (_ - _)) = history
    rw [Nat.sub_self]
    rfl
  · exact record_eq_takeAll hoperation _ (List.nil_append _).symm rfl

/-- What comes of an operation is one of the listed steps, with the history recorded. -/
def Steps (session : Session) (history : History) (operation : Operation)
    (outcome : Except SessionError Answer × Session) : Prop :=
  session.Step history operation outcome.1 outcome.2
    (session.record history operation outcome.1 outcome.2)

theorem steps_of_record {operation : Operation} {result : Except SessionError Answer}
    {after : Session} {later : History}
    (hrecord : session.record history operation result after = later)
    (hstep : session.Step history operation result after later) :
    session.Steps history operation (result, after) := by
  subst hrecord
  exact hstep

theorem steps_refused {operation : Operation} (hreads : operation.reads = false)
    (error : SessionError) : session.Steps history operation (.error error, session) :=
  steps_of_record (record_error operation error) (.refused hreads)

theorem steps_look {α : Type} {operation : Operation} (hlooks : operation.looks = true)
    (seen : Except CursorError α) (answer : α → Answer) :
    session.Steps history operation (session.look seen answer) := by
  have hmoves : operation ≠ .retreat := by
    rintro rfl
    cases hlooks
  have hreads : operation.reads = false := by
    cases operation <;> first | rfl | cases hlooks
  cases seen with
  | ok seen =>
      have hrecord : session.record history operation (.ok (answer seen)) session = history :=
        record_eq_takeAll hmoves _ (List.nil_append _).symm rfl
      exact steps_of_record hrecord (.looked hlooks)
  | error error => exact steps_refused hreads (.cursor error)

/-- Taking a token, with whatever answer and whatever becomes of the node. -/
theorem steps_take {operation : Operation} (hmoves : operation ≠ .retreat)
    {result : Except SessionError Answer} {token : Token} {cursor : Cursor} {children : List Tree}
    (hadvance : session.cursor.advance = .ok (token, cursor))
    (hstep : session.Step history operation result ⟨cursor, children⟩ (history.take token)) :
    session.Steps history operation (result, ⟨cursor, children⟩) := by
  obtain ⟨rest, hahead, rfl⟩ := Cursor.advance_eq_ok_iff.mp hadvance
  have htaken : session.cursor.ahead = [token] ++ rest := hahead
  exact steps_of_record (record_eq_takeAll hmoves result htaken rfl) hstep

theorem require_of_accepts {requirement : Requirement} {token : Token} {cursor : Cursor}
    (haccepts : requirement.terminal.accepts token = true)
    (hadvance : session.cursor.advance = .ok (token, cursor)) :
    session.require requirement =
      (.ok (.token token), ⟨cursor, session.children ++ [.leaf token]⟩) := by
  obtain ⟨rest, hahead, rfl⟩ := Cursor.advance_eq_ok_iff.mp hadvance
  have hread : readToken requirement.terminal requirement.expected session.cursor.ahead =
      .done token rest := readToken_eq_done_iff.mpr ⟨haccepts, hahead⟩
  have hmoved : session.cursor.moveTo rest = ⟨token :: session.cursor.behind, rest, true⟩ := by
    have htaken : session.cursor.ahead = [token] ++ rest := hahead
    rw [Cursor.moveTo_eq htaken]
    simp
  rw [require, Cursor.read, hread, ← hmoved]

theorem require_of_not_acceptsNext {requirement : Requirement}
    (hnext : requirement.terminal.acceptsNext session.cursor.ahead = false) :
    ∃ error, session.require requirement = (.error error, session) := by
  have hread : readToken requirement.terminal requirement.expected session.cursor.ahead =
      .stopped (.unexpected requirement.expected) session.cursor.ahead := by
    cases hahead : session.cursor.ahead with
    | nil => rfl
    | cons token rest =>
        rw [hahead, Terminal.acceptsNext_cons] at hnext
        rw [readToken, hnext]
        rfl
  refine ⟨.grammatical (.before (.unexpected requirement.expected) session.cursor.ahead
    session.cursor.last?), ?_⟩
  rw [require, Cursor.read, hread]
  simp only [Cursor.moveTo_ahead]

theorem steps_require (session : Session) (history : History) (requirement : Requirement) :
    session.Steps history (.require requirement) (session.require requirement) := by
  by_cases hnext : requirement.terminal.acceptsNext session.cursor.ahead = true
  · cases hahead : session.cursor.ahead with
    | nil => simp [hahead] at hnext
    | cons token rest =>
        rw [hahead, Terminal.acceptsNext_cons] at hnext
        have hadvance : session.cursor.advance =
            .ok (token, ⟨token :: session.cursor.behind, rest, true⟩) :=
          Cursor.advance_eq_ok_iff.mpr ⟨rest, hahead, rfl⟩
        rw [require_of_accepts hnext hadvance]
        exact steps_take Operation.noConfusion hadvance (.required hnext hadvance)
  · obtain ⟨error, hrequire⟩ := require_of_not_acceptsNext (Bool.eq_false_iff.mpr hnext)
    rw [hrequire]
    exact steps_refused rfl error

theorem steps_readTree {operation : Operation} {parser : Parser Tree}
    (hforward : parser.Forward) (hkeeps : parser.KeepsTree) (hreads : operation.reads = true)
    (session : Session) (history : History) :
    session.Steps history operation (session.readTree parser) := by
  have hmoves : operation ≠ .retreat := by
    rintro rfl
    cases hreads
  obtain ⟨taken, htaken⟩ := hforward session.cursor.ahead
  have hahead : session.cursor.ahead = taken ++ (parser session.cursor.ahead).rest := htaken.symm
  have hrecord : ∀ result, session.record history operation result
      ⟨session.cursor.moveTo (parser session.cursor.ahead).rest, session.children⟩ =
        history.takeAll taken := fun result =>
    record_eq_takeAll hmoves result hahead (Cursor.position_moveTo hahead)
  rw [readTree, Cursor.read]
  cases hread : parser session.cursor.ahead with
  | done tree rest =>
      rw [hread] at hahead hrecord
      -- the tokens of the tree are those between the two places
      have hleaves := hkeeps _ _ _ hread
      have htree : taken = tree.tokens := by
        rw [Tree.tokens_eq_leaves]
        exact (List.append_cancel_right (hleaves.trans hahead)).symm
      rw [htree] at hahead hrecord
      exact steps_of_record (hrecord _) (.read hreads hahead)
  | stopped obstacle rest =>
      rw [hread] at hahead hrecord
      exact steps_of_record (hrecord _) (.stopped hreads hahead)

/-- Every operation takes one of the listed steps. -/
theorem steps_perform (table : PrecedenceTable) (stack : CallStack) (session : Session)
    (history : History) (operation : Operation) :
    session.Steps history operation (session.perform table stack operation) := by
  cases operation with
  | advance =>
      unfold perform
      cases hadvance : session.cursor.advance with
      | error error => exact steps_refused rfl (.cursor error)
      | ok moved => exact steps_take Operation.noConfusion hadvance (.advanced hadvance)
  | retreat =>
      unfold perform
      cases hretreat : session.cursor.retreat with
      | error error => exact steps_refused rfl (.cursor error)
      | ok cursor => exact steps_of_record rfl (.retreated hretreat)
  | peek => exact steps_look rfl _ _
  | hasMore => exact steps_look rfl _ _
  | current => exact steps_look rfl _ _
  | last => exact steps_look rfl _ _
  | kind => exact steps_look rfl _ _
  | value kind => exact steps_look rfl _ _
  | isNext terminal => exact steps_look rfl _ _
  | require requirement => exact steps_require session history requirement
  | read name =>
      exact steps_readTree ((Nonterminal.advancing_parse table stack).forward name)
        (Nonterminal.leaves_parse table stack name) rfl session history
  | readProgram =>
      exact steps_readTree (forward_parseProgram table stack)
        (keepsTree_parseProgram table stack) rfl session history

/-! ## Whole sessions -/

/-- The session after some operations. -/
def after (table : PrecedenceTable) (stack : CallStack) : Session → List Operation → Session
  | session, [] => session
  | session, operation :: operations =>
      after table stack (session.perform table stack operation).2 operations

/-- The history after some operations. -/
def historyAfter (table : PrecedenceTable) (stack : CallStack) :
    Session → History → List Operation → History
  | _, history, [] => history
  | session, history, operation :: operations =>
      let (result, next) := session.perform table stack operation
      historyAfter table stack next (session.record history operation result next) operations

theorem after_concat (table : PrecedenceTable) (stack : CallStack) (session : Session)
    (operations : List Operation) (operation : Operation) :
    session.after table stack (operations ++ [operation]) =
      ((session.after table stack operations).perform table stack operation).2 := by
  induction operations generalizing session with
  | nil => rfl
  | cons first operations ih => exact ih _

theorem historyAfter_concat (table : PrecedenceTable) (stack : CallStack) (session : Session)
    (history : History) (operations : List Operation) (operation : Operation) :
    session.historyAfter table stack history (operations ++ [operation]) =
      (session.after table stack operations).record
        (session.historyAfter table stack history operations) operation
        ((session.after table stack operations).perform table stack operation).1
        ((session.after table stack operations).perform table stack operation).2 := by
  induction operations generalizing session history with
  | nil => rfl
  | cons first operations ih => exact ih _ _

theorem reached_after {tokens : List Token} (table : PrecedenceTable) (stack : CallStack)
    (operations : List Operation) (hreached : Cursor.Reached tokens history session.cursor) :
    Cursor.Reached tokens (session.historyAfter table stack history operations)
      (session.after table stack operations).cursor := by
  induction operations generalizing session history with
  | nil => exact hreached
  | cons operation operations ih =>
      exact ih ((steps_perform table stack session history operation).reached hreached)

/-- The laws of a session whose cursor has a history over some tokens. -/
structure Lawful (table : PrecedenceTable) (stack : CallStack) (tokens : List Token)
    (history : History) (session : Session) : Prop where
  reached : Cursor.Reached tokens history session.cursor
  tokens_eq : session.cursor.tokens = tokens
  position_le : session.cursor.position ≤ tokens.length
  position_pos : session.cursor.mayRetreat = true → 0 < session.cursor.position
  /-- What fails without reading a production changes neither the cursor nor the node. -/
  unchanged : ∀ operation error, operation.reads = false →
    (session.perform table stack operation).1 = .error error →
    (session.perform table stack operation).2 = session
  /-- The position is the number of tokens taken, less the number of steps back. -/
  position_add_backs : session.cursor.position + history.backs = history.taken.length
  retreat_iff : (∃ answer, (session.perform table stack .retreat).1 = .ok answer) ↔
    history.takenSinceBack ≠ []
  /-- A step back is one token long, and an advance after it takes the last token again. -/
  retreat_advance : ∀ answer before, session.perform table stack .retreat = (.ok answer, before) →
    before.cursor.position + 1 = session.cursor.position ∧
      ∃ token, history.taken.head? = some token ∧
        before.perform table stack .advance = (.ok (.token token), session)
  current_error_iff : (∃ error, (session.perform table stack .current).1 = .error error) ↔
    session.cursor.position = 0
  current_eq : ∀ answer, (session.perform table stack .current).1 = .ok answer →
    ∃ token, answer = .token token ∧ tokens[session.cursor.position - 1]? = some token
  peek_eq : (session.perform table stack .peek).1 =
    .ok (.place tokens[session.cursor.position]?)

theorem lawful_of_reached {tokens : List Token} (table : PrecedenceTable) (stack : CallStack)
    (hreached : Cursor.Reached tokens history session.cursor) :
    session.Lawful table stack tokens history := by
  have haccounted := hreached.accounted
  constructor
  case reached => exact hreached
  case tokens_eq => exact haccounted.tokens_eq
  case position_le => exact haccounted.position_le
  case position_pos => exact haccounted.position_pos
  case unchanged =>
    intro operation error hreads herror
    have hstep := steps_perform table stack session history operation
    rw [Steps, herror] at hstep
    exact hstep.eq_of_error hreads
  case position_add_backs => exact haccounted.position_add_backs
  case retreat_iff =>
    rw [← haccounted.retreat_iff, perform]
    cases session.cursor.retreat <;> simp
  case retreat_advance =>
    intro answer before hperform
    rw [perform] at hperform
    cases hretreat : session.cursor.retreat with
    | error error => simp [hretreat] at hperform
    | ok cursor =>
        rw [hretreat] at hperform
        cases hperform
        obtain ⟨hposition, token, htoken, hadvance⟩ := haccounted.advance_of_retreat hretreat
        refine ⟨hposition, token, htoken, ?_⟩
        rw [perform, hadvance]
  case current_error_iff =>
    rw [← Cursor.current_error_iff, perform, look]
    cases session.cursor.current <;> simp [Except.map, Except.mapError]
  case current_eq =>
    intro answer hanswer
    rw [perform, look] at hanswer
    cases hcurrent : session.cursor.current with
    | error error =>
        rw [hcurrent] at hanswer
        cases hanswer
    | ok token =>
        rw [hcurrent] at hanswer
        cases hanswer
        exact ⟨token, rfl, haccounted.getElem?_of_current hcurrent⟩
  case peek_eq =>
    change Except.ok (Answer.place session.cursor.peek?) = _
    rw [haccounted.peek?_eq]

end Session

open Session in
/-- After any operations of a session, succeeding or failing, its laws hold, and any further
operation takes one of the listed steps. -/
theorem session_lawful (table : PrecedenceTable) (stack : CallStack) (tokens : List Token)
    (children : List Tree) (operations : List Operation) :
    let before := start tokens children
    let session := before.after table stack operations
    let history := before.historyAfter table stack .start operations
    session.Lawful table stack tokens history ∧
      ∀ operation, session.Step history operation (session.perform table stack operation).1
        (before.after table stack (operations ++ [operation]))
        (before.historyAfter table stack .start (operations ++ [operation])) := by
  intro before session history
  refine ⟨?_, fun operation => ?_⟩
  · exact lawful_of_reached table stack (reached_after table stack operations .start)
  · rw [after_concat, historyAfter_concat]
    exact steps_perform table stack session history operation

end JackSyntax
