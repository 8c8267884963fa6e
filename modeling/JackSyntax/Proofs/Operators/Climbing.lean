import JackSyntax.Proofs.Operators.Grouping
import JackSyntax.Proofs.Reading.Progress

/-!
# Reading level by level

`readLevels` reads the operands of every level by the tighter levels, and groups while it
reads.  The same comes out when the whole run of operands and operators is read first,
whatever the levels (`readChain`), and grouped afterwards by splitting at the weakest
operators: this is `readLevels_eq`, for every table, and for readings that stop half way
as well.

The induction is on the levels from the tightest to the loosest.  One more level splits
the run at the operators of that level (`readChain_or`), and as the level is lower than
all before, these are the weakest operators of the run.
-/

namespace JackSyntax

/-! ## Runs of operands and operators -/

/-- Takes the next token as an operator, and an operand after it. -/
def readLink (operand : Parser Tree) : Parser (List Tree) :=
  readOperation fun tokens => (operand tokens).map ([·])

/-- Reads operands with operators between them, whatever the levels of these. -/
def readChain (isOperator : Token → Bool) (operand : Parser Tree) : Parser (List Tree) :=
  fun tokens => (operand tokens).andThen fun first rest =>
    (repeatWhile isOperator (readLink operand) rest).map (first :: ·)

/-- A run that is read from some tokens: operands, each as `operand` reads it where it
stands, and between them operators; it ends where no operator follows. -/
inductive ReadsRun (isOperator : Token → Bool) (operand : Parser Tree) :
    List Token → List Tree → List Token → Prop
  | last {tokens rest : List Token} {tree : Tree} (hread : operand tokens = .done tree rest)
      (hend : rest.head?.any isOperator = false) :
      ReadsRun isOperator operand tokens [tree] rest
  | more {tokens after rest : List Token} {tree : Tree} {token : Token} {items : List Tree}
      (hread : operand tokens = .done tree (token :: after)) (htoken : isOperator token = true)
      (hmore : ReadsRun isOperator operand after items rest) :
      ReadsRun isOperator operand tokens (tree :: .leaf token :: items) rest

section Chains

variable {isOperator : Token → Bool} {operand : Parser Tree}

theorem readLink_cons (token : Token) (rest : List Token) :
    readLink operand (token :: rest) = (operand rest).map fun tree => [.leaf token, tree] := by
  rw [readLink, readOperation, Outcome.map_map]
  rfl

theorem forward_readLink (hoperand : Parser.Forward operand) :
    Parser.Forward (readLink operand) :=
  forward_readOperation (hoperand.map ([·]))

theorem productive_readLink (hoperand : Parser.Forward operand) :
    Parser.Productive (readLink operand) :=
  productive_readOperation (hoperand.map ([·]))

theorem forward_readChain (hoperand : Parser.Forward operand) :
    Parser.Forward (readChain isOperator operand) :=
  hoperand.andThen fun first =>
    (forward_repeatWhile (forward_readLink hoperand)).map (first :: ·)

theorem readChain_of_stopped {tokens rest : List Token} {obstacle : Obstacle}
    (hread : operand tokens = .stopped obstacle rest) :
    readChain isOperator operand tokens = .stopped obstacle rest := by
  simp [readChain, hread]

theorem readChain_of_end {tokens rest : List Token} {tree : Tree}
    (hread : operand tokens = .done tree rest) (hend : rest.head?.any isOperator = false) :
    readChain isOperator operand tokens = .done [tree] rest := by
  simp [readChain, hread, repeatWhile_of_not_begins hend]

theorem readChain_of_operator (hoperand : Parser.Forward operand) {tokens after : List Token}
    {tree : Tree} {token : Token} (hread : operand tokens = .done tree (token :: after))
    (htoken : isOperator token = true) :
    readChain isOperator operand tokens =
      (readChain isOperator operand after).map (tree :: .leaf token :: ·) := by
  rw [readChain, hread, Outcome.andThen_done,
    repeatWhile_of_begins (productive_readLink hoperand) after htoken, readLink_cons, readChain]
  cases operand after with
  | stopped obstacle rest => rfl
  | done next rest =>
      simp only [Outcome.map_done, Outcome.andThen_done, Outcome.map_map]
      rfl

/-- An operator and what follows it are left over from the tokens, so there are fewer. -/
theorem length_after_lt (hoperand : Parser.Forward operand) {tokens after : List Token}
    {tree : Tree} {token : Token} (hread : operand tokens = .done tree (token :: after)) :
    after.length < tokens.length :=
  (hoperand.rest_suffix hread).length_le

theorem readChain_eq_done_iff (hoperand : Parser.Forward operand) {tokens rest : List Token}
    {items : List Tree} :
    readChain isOperator operand tokens = .done items rest ↔
      ReadsRun isOperator operand tokens items rest := by
  constructor
  · induction hlength : tokens.length using Nat.strongRecOn generalizing tokens items with
    | ind length ih =>
        subst hlength
        intro hchain
        cases hread : operand tokens with
        | stopped obstacle left => simp [readChain_of_stopped hread] at hchain
        | done tree left =>
            cases hany : left.head?.any isOperator with
            | false =>
                rw [readChain_of_end hread hany] at hchain
                simp only [Outcome.done.injEq] at hchain
                obtain ⟨rfl, rfl⟩ := hchain
                exact .last hread hany
            | true =>
                cases left with
                | nil => simp at hany
                | cons token after =>
                    rw [readChain_of_operator hoperand hread (by simpa using hany)] at hchain
                    obtain ⟨more, hmore, rfl⟩ := Outcome.map_eq_done_iff.mp hchain
                    have hlength := length_after_lt hoperand hread
                    exact .more hread (by simpa using hany) (ih _ hlength rfl hmore)
  · intro hrun
    induction hrun with
    | last hread hend => exact readChain_of_end hread hend
    | more hread htoken _ ih => rw [readChain_of_operator hoperand hread htoken, ih]; rfl

theorem ReadsRun.alternates {tokens rest : List Token} {items : List Tree}
    (hrun : ReadsRun isOperator operand tokens items rest) :
    Alternates (fun tree => ∃ before after, operand before = .done tree after)
      (isOperator ·) items := by
  induction hrun with
  | last hread hend => exact .last ⟨_, _, hread⟩
  | more hread htoken _ ih => exact .more ⟨_, _, hread⟩ htoken ih

/-- With more operators a run goes on where it would have ended. -/
theorem readChain_or (hoperand : Parser.Forward operand) (outer inner : Token → Bool)
    (tokens : List Token) :
    readChain (fun token => outer token || inner token) operand tokens =
      match readChain inner operand tokens with
      | .stopped obstacle rest => .stopped obstacle rest
      | .done piece [] => .done piece []
      | .done piece (token :: after) =>
          if outer token then
            (readChain (fun token => outer token || inner token) operand after).map
              (piece ++ .leaf token :: ·)
          else .done piece (token :: after) := by
  induction hlength : tokens.length using Nat.strongRecOn generalizing tokens with
  | ind length ih =>
      subst hlength
      cases hread : operand tokens with
      | stopped obstacle rest => simp [readChain_of_stopped hread]
      | done tree rest =>
          cases rest with
          | nil => rw [readChain_of_end hread rfl, readChain_of_end hread rfl]
          | cons token after =>
              cases hinner : inner token with
              | true =>
                  -- both runs go on here, so they differ only later
                  rw [readChain_of_operator hoperand hread hinner,
                    readChain_of_operator hoperand hread (by simp [hinner]),
                    ih _ (length_after_lt hoperand hread) after rfl]
                  cases readChain inner operand after with
                  | stopped obstacle rest => rfl
                  | done piece rest =>
                      cases rest with
                      | nil => rfl
                      | cons next after =>
                          cases houter : outer next with
                          | true =>
                              simp only [Outcome.map_done, houter, if_true, Outcome.map_map]
                              rfl
                          | false => simp [houter]
              | false =>
                  -- the inner run ends here, and the outer one if this is no operator at all
                  have hpiece : readChain inner operand tokens = .done [tree] (token :: after) :=
                    readChain_of_end hread (by simpa using hinner)
                  rw [hpiece]
                  cases houter : outer token with
                  | true =>
                      rw [readChain_of_operator hoperand hread (by simp [houter])]
                      simp [houter]
                  | false =>
                      rw [readChain_of_end hread (by simp [houter, hinner])]
                      simp [houter]

end Chains

/-! ## One level after the other -/

section Levels

variable {table : PrecedenceTable} {operand : Parser Tree}

/-- Whether a token is an operator of one of some levels. -/
def PrecedenceTable.hasLevelIn (table : PrecedenceTable) (levels : List Int)
    (token : Token) : Bool :=
  (table.level? token).any (levels.contains ·)

theorem hasLevelIn_cons (level : Int) (tighter : List Int) :
    table.hasLevelIn (level :: tighter) =
      fun token => table.isOperator level token || table.hasLevelIn tighter token := by
  funext token
  cases hlevel : table.level? token with
  | none => simp [PrecedenceTable.hasLevelIn, PrecedenceTable.isOperator, hlevel]
  | some own => simp [PrecedenceTable.hasLevelIn, PrecedenceTable.isOperator, hlevel]

/-- All levels that tokens have are levels of the table. -/
theorem mem_levels_of_level? {token : Token} {level : Int}
    (hlevel : table.level? token = some level) : level ∈ table.levels := by
  rw [PrecedenceTable.mem_levels]
  unfold PrecedenceTable.level? at hlevel
  split at hlevel
  · next content _ _ =>
      obtain ⟨before, after, hentries, -⟩ := List.lookup_eq_some_iff.mp hlevel
      exact List.mem_map.mpr ⟨(content, level), by simp [hentries], rfl⟩
  · simp at hlevel

theorem hasLevelIn_levels : table.hasLevelIn table.levels = table.hasLevel := by
  funext token
  cases hlevel : table.level? token with
  | none => simp [PrecedenceTable.hasLevelIn, PrecedenceTable.hasLevel, hlevel]
  | some level =>
      simp [PrecedenceTable.hasLevelIn, PrecedenceTable.hasLevel, hlevel,
        mem_levels_of_level? hlevel]

/-- The operators of a run over some levels have these levels. -/
private theorem mem_levels_of_mem_run {levels : List Int} {items : List Tree} {item : Tree}
    {level : Int} (hitems : Alternates Tree.IsTerm (table.hasLevelIn levels ·) items)
    (hitem : item ∈ items) (hlevel : table.itemLevel? item = some level) : level ∈ levels := by
  rcases hitems.mem hitem with hterm | ⟨token, rfl, htoken⟩
  · simp [PrecedenceTable.itemLevel?_of_isTerm hterm] at hlevel
  · have htoken' : table.level? token = some level := hlevel
    simpa [PrecedenceTable.hasLevelIn, htoken'] using htoken

section Cut

variable {level : Int} {tighter : List Int} {piece items : List Tree} {token : Token}

private theorem not_atLevel_of_mem_run (htighter : ∀ other ∈ tighter, level < other)
    (hpiece : Alternates Tree.IsTerm (table.hasLevelIn tighter ·) piece) :
    ∀ item ∈ piece, table.atLevel level item = false := by
  intro item hitem
  cases hlevel : table.itemLevel? item with
  | none => simp [PrecedenceTable.atLevel, hlevel]
  | some other =>
      have hless := htighter other (mem_levels_of_mem_run hpiece hitem hlevel)
      simp only [PrecedenceTable.atLevel, hlevel, Option.some.injEq, decide_eq_false_iff_not]
      omega

private theorem groupAt_of_run (htighter : ∀ other ∈ tighter, level < other)
    (hpiece : Alternates Tree.IsTerm (table.hasLevelIn tighter ·) piece) :
    table.groupAt level piece = grouped (table.group piece) := by
  rw [PrecedenceTable.groupAt, cutAt_of_not_cut (not_atLevel_of_mem_run htighter hpiece)]
  simp

private theorem groupAt_append_cons (htighter : ∀ other ∈ tighter, level < other)
    (hpiece : Alternates Tree.IsTerm (table.hasLevelIn tighter ·) piece)
    (htoken : table.isOperator level token = true) :
    table.groupAt level (piece ++ .leaf token :: items) =
      grouped (table.group piece) ++ .leaf token :: table.groupAt level items := by
  have hcut : table.atLevel level (.leaf token) = true := htoken
  rw [PrecedenceTable.groupAt, cutAt_append_cons (not_atLevel_of_mem_run htighter hpiece) hcut]
  simp [PrecedenceTable.groupAt]

/-- Where a run goes on after a piece of tighter operators, the operator there is one of
the weakest. -/
private theorem group_append_cons (htighter : ∀ other ∈ tighter, level < other)
    (hpiece : Alternates Tree.IsTerm (table.hasLevelIn tighter ·) piece)
    (htoken : table.isOperator level token = true)
    (hitems : Alternates Tree.IsTerm (table.hasLevelIn (level :: tighter) ·) items) :
    table.group (piece ++ .leaf token :: items) =
      grouped (table.group piece) ++ .leaf token :: table.groupAt level items := by
  have hlevel : table.itemLevel? (.leaf token) = some level := of_decide_eq_true htoken
  -- the levels of the piece are higher, and no level of the run is lower
  have hweakest : table.weakest? (piece ++ .leaf token :: items) = some level := by
    refine PrecedenceTable.weakest?_eq_some_iff.mpr ⟨⟨_, by simp, hlevel⟩, ?_⟩
    intro item hitem other hother
    rcases List.mem_append.mp hitem with hitem | hitem
    · exact Int.le_of_lt (htighter other (mem_levels_of_mem_run hpiece hitem hother))
    rcases List.mem_cons.mp hitem with rfl | hitem
    · exact Int.le_of_eq (Option.some.inj (hlevel.symm.trans hother))
    rcases List.mem_cons.mp (mem_levels_of_mem_run hitems hitem hother) with rfl | hmem
    · exact Int.le_refl _
    · exact Int.le_of_lt (htighter other hmem)
  rw [PrecedenceTable.group_of_weakest hweakest, groupAt_append_cons htighter hpiece htoken]

end Cut

private theorem alternates_of_readChain (hoperand : Parser.Forward operand)
    (hterm : ∀ tokens tree rest, operand tokens = .done tree rest → tree.IsTerm)
    {isOperator : Token → Bool} {tokens rest : List Token} {items : List Tree}
    (hread : readChain isOperator operand tokens = .done items rest) :
    Alternates Tree.IsTerm (isOperator ·) items := by
  refine ((readChain_eq_done_iff hoperand).mp hread).alternates.mono ?_ fun _ _ h => h
  rintro tree ⟨before, after, htree⟩
  exact hterm before tree after htree

/-- After an operator of a level, the repetition of that level reads the rest of the run
and makes operands of its pieces. -/
private theorem repeatWhile_eq_readChain (hoperand : Parser.Forward operand)
    (hterm : ∀ tokens tree rest, operand tokens = .done tree rest → tree.IsTerm) {level : Int}
    {tighter : List Int} (htighter : ∀ other ∈ tighter, level < other)
    {inner : Parser (List Tree)} (hforward : Parser.Forward inner)
    (hinner : ∀ tokens, inner tokens =
      (readChain (table.hasLevelIn tighter) operand tokens).map table.group)
    {token : Token} (htoken : table.isOperator level token = true) (tokens : List Token) :
    repeatWhile (table.isOperator level) (readOperation inner) (token :: tokens) =
      (readChain (table.hasLevelIn (level :: tighter)) operand tokens).map fun items =>
        .leaf token :: table.groupAt level items := by
  induction hlength : tokens.length using Nat.strongRecOn generalizing token tokens with
  | ind length ih =>
      subst hlength
      rw [repeatWhile_of_begins (productive_readOperation hforward) tokens htoken,
        readOperation, hinner, hasLevelIn_cons, readChain_or hoperand, ← hasLevelIn_cons]
      cases hread : readChain (table.hasLevelIn tighter) operand tokens with
      | stopped obstacle rest => rfl
      | done piece rest =>
          have hpiece := alternates_of_readChain hoperand hterm hread
          simp only [Outcome.map_done, Outcome.andThen_done]
          -- the piece becomes one operand; it ends at an operator of this level, or the run does
          cases rest with
          | nil =>
              rw [repeatWhile_of_not_begins rfl]
              simp [groupAt_of_run htighter hpiece]
          | cons next after =>
              cases hnext : table.isOperator level next with
              | false =>
                  rw [repeatWhile_of_not_begins (by simpa using hnext)]
                  simp [hnext, groupAt_of_run htighter hpiece]
              | true =>
                  have hless := ((forward_readChain hoperand).rest_suffix hread).length_le
                  rw [ih after.length hless hnext after rfl]
                  simp only [hnext, if_true, Outcome.map_map]
                  refine Outcome.map_congr fun items _ _ => ?_
                  simp [groupAt_append_cons htighter hpiece hnext]

/-- The levels of a table from some level on read what the run has in operators of these
levels, and group it. -/
private theorem readLevels_eq_of_ascending (hoperand : Parser.Forward operand)
    (hterm : ∀ tokens tree rest, operand tokens = .done tree rest → tree.IsTerm)
    {levels : List Int} (hlevels : levels.Pairwise (· < ·)) (tokens : List Token) :
    readLevels table (fun tokens => (operand tokens).map ([·])) levels tokens =
      (readChain (table.hasLevelIn levels) operand tokens).map table.group := by
  induction levels generalizing tokens with
  | nil =>
      cases hread : operand tokens with
      | stopped obstacle rest => simp [readLevels, hread, readChain_of_stopped hread]
      | done tree rest =>
          have hend : rest.head?.any (table.hasLevelIn []) = false := by
            cases rest <;> simp [PrecedenceTable.hasLevelIn]
          simp [readLevels, hread, readChain_of_end hread hend,
            PrecedenceTable.group_singleton (hterm tokens tree rest hread)]
  | cons level tighter ih =>
      obtain ⟨htighter, hrest⟩ := List.pairwise_cons.mp hlevels
      have hinner := ih hrest
      have hforward := forward_readLevels table (hoperand.map ([·])) tighter
      simp only [readLevels]
      -- with one more level the run goes on at the operators of that level
      rw [hinner, hasLevelIn_cons, readChain_or hoperand, ← hasLevelIn_cons]
      cases hread : readChain (table.hasLevelIn tighter) operand tokens with
      | stopped obstacle rest => rfl
      | done piece rest =>
          have hpiece := alternates_of_readChain hoperand hterm hread
          simp only [Outcome.map_done, Outcome.andThen_done]
          cases rest with
          | nil =>
              rw [repeatWhile_of_not_begins rfl]
              simp [joined]
          | cons next after =>
              cases hnext : table.isOperator level next with
              | false =>
                  rw [repeatWhile_of_not_begins (by simpa using hnext)]
                  simp [hnext, joined]
              | true =>
                  rw [repeatWhile_eq_readChain hoperand hterm htighter hforward hinner hnext]
                  simp only [hnext, if_true, Outcome.map_map]
                  refine Outcome.map_congr fun items left hitems => ?_
                  have hmore := alternates_of_readChain hoperand hterm hitems
                  simp [joined, group_append_cons htighter hpiece hnext hmore]

end Levels

/-- Reading level by level is reading the whole run and splitting it at the weakest
operators. -/
theorem readLevels_eq (table : PrecedenceTable) {operand : Parser Tree}
    (hoperand : Parser.Forward operand)
    (hterm : ∀ tokens tree rest, operand tokens = .done tree rest → tree.IsTerm)
    (tokens : List Token) :
    readLevels table (fun tokens => (operand tokens).map ([·])) table.levels tokens =
      (readChain table.hasLevel operand tokens).map table.group := by
  rw [readLevels_eq_of_ascending hoperand hterm table.pairwise_levels, hasLevelIn_levels]

/-- Whatever a production reads becomes a node with its label. -/
theorem Nonterminal.exists_children {table : PrecedenceTable} {stack : CallStack}
    {name : Nonterminal} {tokens rest : List Token} {tree : Tree}
    (hread : name.parse table stack tokens = .done tree rest) :
    ∃ children, tree = .node name.label children := by
  obtain ⟨-, children, -, rfl⟩ := parse_eq_done_iff.mp hread
  exact ⟨children, rfl⟩

/-- An expression is read as a run of terms, and grouped. -/
theorem parse_expression_eq (table : PrecedenceTable) {stack : CallStack} (hroom : 0 < stack.room)
    (tokens : List Token) :
    Nonterminal.expression.parse table stack tokens =
      (readChain table.hasLevel (Nonterminal.expression.parseInner table stack .term) tokens).map
        fun items => .node Nonterminal.expression.label (table.group items) := by
  have hterm : ∀ tokens tree rest,
      Nonterminal.expression.parseInner table stack .term tokens = .done tree rest →
        tree.IsTerm := by
    intro tokens tree rest hread
    obtain ⟨children, rfl⟩ := Nonterminal.exists_children hread
    exact Tree.isTerm_node children
  have hforward := (Nonterminal.advancing_parseInner table stack .expression).forward .term
  rw [Nonterminal.parse_eq hroom, Nonterminal.rule, Rule.parse,
    readLevels_eq table hforward hterm, Outcome.map_map]
  rfl

end JackSyntax
