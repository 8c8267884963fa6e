import JackSyntax.Grammar.Expected

/-!
# Outcomes of reading tokens

Reading a production either succeeds, with a value and the tokens after it, or stops at
some token for a reason.  Either way the outcome holds the tokens that are left, so that
reading can go on, or report the place, from there.
-/

namespace JackSyntax

/-- Why reading stops. -/
inductive Obstacle
  /-- The next token is not one that the grammar allows here. -/
  | unexpected (expected : Expected)
  /-- Productions contain each other more deeply than there is room for their calls. -/
  | tooDeep
deriving DecidableEq

/-- The result of reading some tokens, and the tokens left. -/
inductive Outcome (α : Type)
  | done (value : α) (rest : List Token)
  | stopped (obstacle : Obstacle) (rest : List Token)

namespace Outcome

/-- The tokens left. -/
def rest {α : Type} : Outcome α → List Token
  | done _ rest => rest
  | stopped _ rest => rest

/-- Whether reading stopped because it went too deep. -/
def wentTooDeep {α : Type} : Outcome α → Bool
  | stopped .tooDeep _ => true
  | _ => false

/-- Another value in place of the one read. -/
def map {α β : Type} (f : α → β) : Outcome α → Outcome β
  | done value rest => done (f value) rest
  | stopped obstacle rest => stopped obstacle rest

/-- Reads on from where the first part ended. -/
def andThen {α β : Type} (first : Outcome α) (next : α → List Token → Outcome β) : Outcome β :=
  match first with
  | done value rest => next value rest
  | stopped obstacle rest => stopped obstacle rest

@[simp] theorem map_done {α β : Type} (f : α → β) (value : α) (rest : List Token) :
    (done value rest).map f = done (f value) rest := rfl

@[simp] theorem map_stopped {α β : Type} (f : α → β) (obstacle : Obstacle)
    (rest : List Token) : (stopped obstacle rest : Outcome α).map f = stopped obstacle rest :=
  rfl

@[simp] theorem rest_map {α β : Type} (f : α → β) (outcome : Outcome α) :
    (outcome.map f).rest = outcome.rest := by
  cases outcome <;> rfl

@[simp] theorem andThen_done {α β : Type} (value : α) (rest : List Token)
    (next : α → List Token → Outcome β) : (done value rest).andThen next = next value rest :=
  rfl

@[simp] theorem andThen_stopped {α β : Type} (obstacle : Obstacle) (rest : List Token)
    (next : α → List Token → Outcome β) :
    (stopped obstacle rest : Outcome α).andThen next = stopped obstacle rest :=
  rfl

theorem map_map {α β γ : Type} (g : β → γ) (f : α → β) (outcome : Outcome α) :
    (outcome.map f).map g = outcome.map (g ∘ f) := by
  cases outcome <;> rfl

theorem map_congr {α β : Type} {f g : α → β} {outcome : Outcome α}
    (hsame : ∀ value rest, outcome = done value rest → f value = g value) :
    outcome.map f = outcome.map g := by
  cases outcome with
  | done value rest => exact congrArg (done · rest) (hsame value rest rfl)
  | stopped obstacle rest => rfl

theorem map_eq_done_iff {α β : Type} {f : α → β} {outcome : Outcome α} {value : β}
    {rest : List Token} :
    outcome.map f = done value rest ↔ ∃ read, outcome = done read rest ∧ f read = value := by
  cases outcome with
  | done read left =>
      simp only [map_done, done.injEq]
      constructor
      · rintro ⟨rfl, rfl⟩
        exact ⟨read, ⟨rfl, rfl⟩, rfl⟩
      · rintro ⟨_, ⟨rfl, rfl⟩, rfl⟩
        exact ⟨rfl, rfl⟩
  | stopped obstacle left => simp

theorem andThen_eq_done_iff {α β : Type} {first : Outcome α}
    {next : α → List Token → Outcome β} {value : β} {rest : List Token} :
    first.andThen next = done value rest ↔
      ∃ read middle, first = done read middle ∧ next read middle = done value rest := by
  cases first with
  | done read middle =>
      simp only [andThen_done, done.injEq]
      constructor
      · intro hnext
        exact ⟨read, middle, ⟨rfl, rfl⟩, hnext⟩
      · rintro ⟨_, _, ⟨rfl, rfl⟩, hnext⟩
        exact hnext
  | stopped obstacle left => simp

end Outcome

end JackSyntax
