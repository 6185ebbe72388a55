import Kryon.Lib.Program
/-!
# Reverts — which errors a program may revert with

`RevertsOnly P x` says that every error of `x` is one that `P` allows.  Its rules are equivalences, one for each way to
build a program, so that a program's errors are read off its text by rewriting with them.
-/
namespace Program

universe u v w
variable {ε : Type u} {α β : Type v} {P : ε → Prop}

/-- **If `x` reverts, it reverts with an error that `P` allows.** -/
def RevertsOnly (P : ε → Prop) (x : Except ε α) : Prop := ∀ e, x = .error e → P e

@[simp] theorem revertsOnly_ok (a : α) : RevertsOnly P (.ok a : Except ε α) := by
  intro e h
  cases h

@[simp] theorem revertsOnly_pure (a : α) : RevertsOnly P (pure a : Except ε α) := revertsOnly_ok a

@[simp] theorem revertsOnly_error (e : ε) : RevertsOnly P (.error e : Except ε α) ↔ P e := by
  simp [RevertsOnly]

@[simp] theorem revertsOnly_bind (x : Except ε α) (f : α → Except ε β) :
    RevertsOnly P (x >>= f) ↔ RevertsOnly P x ∧ ∀ a, x = .ok a → RevertsOnly P (f a) := by
  cases x with
  | error e => simp [RevertsOnly, bind, Except.bind]
  | ok a => simp [RevertsOnly, bind, Except.bind]

@[simp] theorem revertsOnly_map (f : α → β) (x : Except ε α) : RevertsOnly P (f <$> x) ↔ RevertsOnly P x := by
  cases x with
  | error e => simp [RevertsOnly, Functor.map, Except.map]
  | ok a => simp [RevertsOnly, Functor.map, Except.map]

@[simp] theorem revertsOnly_revertIf (c : Prop) [Decidable c] (e : ε) :
    RevertsOnly P (revertIf.{u, v} c e) ↔ (c → P e) := by
  unfold revertIf
  split <;> simp [*]

@[simp] theorem revertsOnly_ite (c : Prop) [Decidable c] (x y : Except ε α) :
    RevertsOnly P (if c then x else y) ↔ (c → RevertsOnly P x) ∧ (¬ c → RevertsOnly P y) := by
  split <;> simp [*]

theorem revertsOnly_foldlM {σ : Type v} {ι : Type w} {f : σ → ι → Except ε σ} :
    ∀ (l : List ι) (s : σ), (∀ s, ∀ i ∈ l, RevertsOnly P (f s i)) → RevertsOnly P (l.foldlM f s)
  | [], s, _ => by simp
  | i :: l, s, h => by
    rw [List.foldlM_cons, revertsOnly_bind]
    exact ⟨h s i List.mem_cons_self,
      fun t _ => revertsOnly_foldlM l t fun s j hj => h s j (List.mem_cons_of_mem i hj)⟩

theorem revertsOnly_mapM {ι : Type v} {f : ι → Except ε α} :
    ∀ l : List ι, (∀ i ∈ l, RevertsOnly P (f i)) → RevertsOnly P (l.mapM f)
  | [], _ => by simp
  | i :: l, h => by
    rw [List.mapM_cons, revertsOnly_bind]
    refine ⟨h i List.mem_cons_self, fun a _ => ?_⟩
    rw [revertsOnly_bind]
    exact ⟨revertsOnly_mapM l fun j hj => h j (List.mem_cons_of_mem i hj), fun b _ => revertsOnly_pure _⟩

/-- Whether a program reverts with an error that meets `P`. -/
def revertsWith (P : ε → Bool) (x : Except ε α) : Bool :=
  match x with
  | .ok _ => false
  | .error e => P e

theorem error_of_revertsWith {P : ε → Bool} {x : Except ε α} (h : revertsWith P x = true) :
    ∃ e, x = .error e ∧ P e = true := by
  cases x with
  | error e => exact ⟨e, rfl, h⟩
  | ok a => exact absurd h Bool.false_ne_true

end Program
