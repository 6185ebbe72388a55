import Mathlib.Data.List.Induction
/-!
# Replaying a log on one value

`advance` folds a log into a state; `act` is what an entry does to a value, given the state before it.  `fold` is the value
after a log.  Whether a value can be replayed from another is a question of what `act` commutes with (`fold_comm`) and what
it leaves alone (`fold_id`).
-/
namespace Replay

universe u v w
variable {ε : Type u} {σ : Type v} {ρ : Type w} (advance : σ → ε → σ) (s₀ : σ)

/-- The state after a log. -/
def state (es : List ε) : σ := es.foldl advance s₀

/-- The value after a log. -/
def fold (act : σ → ε → ρ → ρ) (es : List ε) (r : ρ) : ρ :=
  (es.foldl (fun p e => (advance p.1 e, act p.1 e p.2)) (s₀, r)).2

variable {advance} {s₀} {act : σ → ε → ρ → ρ} {es : List ε} {e : ε} {r : ρ}

@[simp] theorem state_snoc : state advance s₀ (es ++ [e]) = advance (state advance s₀ es) e := by
  simp [state]

theorem fold_state (es : List ε) (r : ρ) :
    (es.foldl (fun p e => (advance p.1 e, act p.1 e p.2)) (s₀, r)).1 = state advance s₀ es := by
  induction es using List.reverseRecOn with
  | nil => rfl
  | append_singleton es e ih => rw [List.foldl_append, state_snoc, List.foldl_cons, List.foldl_nil, ih]

@[simp] theorem fold_snoc :
    fold advance s₀ act (es ++ [e]) r = act (state advance s₀ es) e (fold advance s₀ act es r) := by
  rw [fold, List.foldl_append, List.foldl_cons, List.foldl_nil, fold_state]
  rfl

/-- A change of the value that every entry commutes with can be made before the log or after it. -/
theorem fold_comm {f : ρ → ρ} (hf : ∀ s e r, act s e (f r) = f (act s e r)) (es : List ε) (r : ρ) :
    fold advance s₀ act es (f r) = f (fold advance s₀ act es r) := by
  induction es using List.reverseRecOn with
  | nil => rfl
  | append_singleton es e ih => rw [fold_snoc, fold_snoc, ih, hf]

/-- A value no entry changes stays. -/
theorem fold_id (h : ∀ e ∈ es, ∀ s, act s e r = r) : fold advance s₀ act es r = r := by
  induction es using List.reverseRecOn with
  | nil => rfl
  | append_singleton es e ih =>
    rw [fold_snoc, ih fun e' he' => h e' (List.mem_append_left _ he')]
    exact h e (List.mem_append_right _ (List.mem_singleton_self e)) _

/-- What an entry brings about and no entry undoes holds after any log with such an entry. -/
theorem fold_after {Q : ρ → Prop} (hkeep : ∀ s e r, Q r → Q (act s e r)) (hmake : ∀ s r, Q (act s e r)) (he : e ∈ es)
    (r : ρ) : Q (fold advance s₀ act es r) := by
  induction es using List.reverseRecOn with
  | nil => exact absurd he List.not_mem_nil
  | append_singleton es e' ih =>
    rw [fold_snoc]
    obtain he | he := List.mem_append.1 he
    · exact hkeep _ _ _ (ih he)
    · rw [← List.mem_singleton.1 he]
      exact hmake _ _

end Replay
