import Mathlib.Algebra.BigOperators.Group.List.Basic
import Mathlib.Algebra.Order.Monoid.Defs
/-!
# Labelled transition systems

A machine is its initial states and its labelled steps.  `Run` is a finite run with the labels of its steps in order;
an invariant is proved once for a step and holds along every run (`Run.preserves`, `Reachable.invariant`).
`Machine.restrict` keeps the steps that meet a condition, so a run of the restricted machine is a run whose steps all
meet it.
-/
namespace Transition

universe u v w
variable {σ : Type u} {ℓ : Type v}

structure Machine (σ : Type u) (ℓ : Type v) where
  init : σ → Prop
  step : σ → ℓ → σ → Prop

/-- A run from a state to a state, with the labels of its steps in order. -/
inductive Run (M : Machine σ ℓ) (s : σ) : List ℓ → σ → Prop where
  | nil : Run M s [] s
  | snoc {t u : σ} {ls : List ℓ} {l : ℓ} (h : Run M s ls t) (hl : M.step t l u) : Run M s (ls ++ [l]) u

def Reachable (M : Machine σ ℓ) (s : σ) : Prop := ∃ s₀ ls, M.init s₀ ∧ Run M s₀ ls s

/-- The machine with only the steps that meet `P`, read at the state before the step. -/
def Machine.restrict (M : Machine σ ℓ) (P : σ → ℓ → Prop) : Machine σ ℓ :=
  ⟨M.init, fun s l t => P s l ∧ M.step s l t⟩

variable {M : Machine σ ℓ}

theorem Run.single {s t : σ} {l : ℓ} (h : M.step s l t) : Run M s [l] t := by
  simpa using (Run.nil (M := M) (s := s)).snoc h

theorem Run.append {s t u : σ} {ls ms : List ℓ} (h : Run M s ls t) (h' : Run M t ms u) : Run M s (ls ++ ms) u := by
  induction h' with
  | nil => simpa using h
  | snoc _ hl ih =>
    rw [← List.append_assoc]
    exact ih.snoc hl

theorem Run.mono {M' : Machine σ ℓ} (hstep : ∀ s l t, M.step s l t → M'.step s l t) {s t : σ} {ls : List ℓ}
    (h : Run M s ls t) : Run M' s ls t := by
  induction h with
  | nil => exact Run.nil
  | snoc _ hl ih => exact ih.snoc (hstep _ _ _ hl)

theorem Run.of_restrict {P : σ → ℓ → Prop} {s t : σ} {ls : List ℓ} (h : Run (M.restrict P) s ls t) : Run M s ls t :=
  h.mono (M := M.restrict P) (fun _ _ _ hl => hl.2)

theorem Run.weaken {P Q : σ → ℓ → Prop} (hPQ : ∀ s l, P s l → Q s l) {s t : σ} {ls : List ℓ}
    (h : Run (M.restrict P) s ls t) : Run (M.restrict Q) s ls t := by
  refine Run.mono (M := M.restrict P) (fun s l t hl => ?_) h
  exact ⟨hPQ s l hl.1, hl.2⟩

/-- A condition met by each label of a list at the state that the labels before it lead to. -/
def Along (f : σ → ℓ → σ) (P : σ → ℓ → Prop) : σ → List ℓ → Prop
  | _, [] => True
  | s, l :: ls => P s l ∧ Along f P (f s l) ls

instance Along.decidable (f : σ → ℓ → σ) (P : σ → ℓ → Prop) [∀ s l, Decidable (P s l)] :
    ∀ s ls, Decidable (Along f P s ls)
  | _, [] => isTrue trivial
  | s, l :: ls => @instDecidableAnd _ _ _ (Along.decidable f P (f s l) ls)

/-- Labels whose condition lets the machine step as `f` says are a run. -/
theorem Run.of_along {f : σ → ℓ → σ} {P : σ → ℓ → Prop} (hP : ∀ s l, P s l → M.step s l (f s l)) {ls : List ℓ} {s : σ}
    (h : Along f P s ls) : Run M s ls (ls.foldl f s) := by
  induction ls generalizing s with
  | nil => exact .nil
  | cons l ls ih => exact (Run.single (hP s l h.1)).append (ih h.2)

/-- **What every step keeps, every run keeps.** -/
theorem Run.preserves (I : σ → Prop) (hstep : ∀ s l t, I s → M.step s l t → I t) {s t : σ} {ls : List ℓ}
    (h : Run M s ls t) (hs : I s) : I t := by
  induction h with
  | nil => exact hs
  | snoc _ hl ih => exact hstep _ _ _ ih hl

/-- What the steps with good labels keep, a run of such steps keeps. -/
theorem Run.preserves_on (I : σ → Prop) (P : ℓ → Prop) (hstep : ∀ s l t, P l → I s → M.step s l t → I t) {s t : σ}
    {ls : List ℓ} (h : Run M s ls t) (hls : ∀ l ∈ ls, P l) (hs : I s) : I t := by
  induction h with
  | nil => exact hs
  | snoc _ hl ih =>
    have hlast := hls _ (List.mem_append.2 (Or.inr (List.mem_singleton_self _)))
    exact hstep _ _ _ hlast (ih fun l hmem => hls l (List.mem_append.2 (Or.inl hmem))) hl

/-- **A measure every step raises by its label's amount is raised by the run's total.** -/
theorem Run.accumulates {A : Type w} [AddCommMonoid A] (f : σ → A) (g : ℓ → A)
    (hstep : ∀ s l t, M.step s l t → f t = f s + g l) {s t : σ} {ls : List ℓ} (h : Run M s ls t) :
    f t = f s + (ls.map g).sum := by
  induction h with
  | nil => simp
  | snoc _ hl ih =>
    rw [hstep _ _ _ hl, ih]
    simp [add_assoc]

/-- **A measure every step raises by its label's gain, up to its label's slack, is raised by the run's total gain**, up to
its total slack, where the steps may use what they keep. -/
theorem Run.raises {A : Type w} [AddCommMonoid A] [PartialOrder A] [IsOrderedAddMonoid A] (I : σ → Prop) (f : σ → A)
    (gain slack : ℓ → A) (hI : ∀ s l t, I s → M.step s l t → I t)
    (hstep : ∀ s l t, I s → M.step s l t → f s + gain l ≤ f t + slack l) {s t : σ} {ls : List ℓ} (h : Run M s ls t)
    (hs : I s) : f s + (ls.map gain).sum ≤ f t + (ls.map slack).sum := by
  induction h with
  | nil => simp
  | @snoc t u ls l h hl ih =>
    have hlast := hstep _ _ _ (h.preserves I hI hs) hl
    calc f s + ((ls ++ [l]).map gain).sum = f s + (ls.map gain).sum + gain l := by simp [add_assoc]
      _ ≤ f t + (ls.map slack).sum + gain l := add_le_add_left ih _
      _ = f t + gain l + (ls.map slack).sum := add_right_comm _ _ _
      _ ≤ f u + slack l + (ls.map slack).sum := add_le_add_left hlast _
      _ = f u + ((ls ++ [l]).map slack).sum := by simp [add_assoc, add_comm]

/-- **A run that breaks what every step without `P` keeps takes a step with `P`**, and the first one that breaks it. -/
theorem Run.breaks (I : σ → Prop) (P : σ → ℓ → Prop) (hkeep : ∀ s l t, ¬ P s l → I s → M.step s l t → I t) {s t : σ}
    {ls : List ℓ} (h : Run M s ls t) (hs : I s) (ht : ¬ I t) :
    ∃ before u l v after, ls = before ++ l :: after ∧ Run M s before u ∧ M.step u l v ∧ Run M v after t ∧ I u ∧
      ¬ I v ∧ P u l := by
  induction h with
  | nil => exact absurd hs ht
  | @snoc u v ls l h hl ih =>
    by_cases hu : I u
    · refine ⟨ls, u, l, v, [], rfl, h, hl, Run.nil, hu, ht, ?_⟩
      by_contra hP
      exact ht (hkeep u l v hP hu hl)
    · obtain ⟨before, u', l', v', after, rfl, hbefore, hstep, hafter, hI, hbroken, hP⟩ := ih hu
      exact ⟨before, u', l', v', after ++ [l], by rw [List.append_assoc, List.cons_append], hbefore, hstep,
        hafter.snoc hl, hI, hbroken, hP⟩

/-- **A run that ends where `P` holds and starts where it does not takes a last step into `P`**: from there on every step
starts and ends in `P`. -/
theorem Run.establishes (P : σ → Prop) {s t : σ} {ls : List ℓ} (h : Run M s ls t) (hs : ¬ P s) (ht : P t) :
    ∃ before u l v after, ls = before ++ l :: after ∧ Run M s before u ∧ M.step u l v ∧ ¬ P u ∧ P v ∧
      Run M v after t ∧ ∀ l' ∈ after, ∃ x y, P x ∧ P y ∧ M.step x l' y := by
  induction h with
  | nil => exact absurd ht hs
  | @snoc u v ls l h hl ih =>
    by_cases hu : P u
    · obtain ⟨before, u', l', v', after, rfl, hbefore, hstep, hnot, hP, hafter, hkept⟩ := ih hu
      refine ⟨before, u', l', v', after ++ [l], by rw [List.append_assoc, List.cons_append], hbefore, hstep, hnot, hP,
        hafter.snoc hl, fun m hm => ?_⟩
      rcases List.mem_append.1 hm with hm | hm
      · exact hkept m hm
      · rw [List.mem_singleton.1 hm]
        exact ⟨u, v, hu, ht, hl⟩
    · exact ⟨ls, u, l, v, [], rfl, h, hl, hu, ht, Run.nil, fun _ hm => absurd hm List.not_mem_nil⟩

theorem Run.forall_labels (P : ℓ → Prop) (hstep : ∀ s l t, M.step s l t → P l) {s t : σ} {ls : List ℓ}
    (h : Run M s ls t) : ∀ l ∈ ls, P l := by
  induction h with
  | nil => exact fun _ hl => absurd hl List.not_mem_nil
  | snoc _ hl ih =>
    intro l hmem
    rcases List.mem_append.1 hmem with hmem | hmem
    · exact ih l hmem
    · rw [List.mem_singleton.1 hmem]
      exact hstep _ _ _ hl

/-- Every label of a run is the label of a step from a state the run passes. -/
theorem Run.mem {s t : σ} {ls : List ℓ} (h : Run M s ls t) {l : ℓ} (hl : l ∈ ls) :
    ∃ u v ms, Run M s ms u ∧ M.step u l v := by
  induction h with
  | nil => exact absurd hl List.not_mem_nil
  | @snoc u v ls l' h hstep ih =>
    rcases List.mem_append.1 hl with hl | hl
    · exact ih hl
    · rw [List.mem_singleton.1 hl]
      exact ⟨u, v, ls, h, hstep⟩

theorem Reachable.of_run {s t : σ} {ls : List ℓ} (hs : Reachable M s) (h : Run M s ls t) : Reachable M t := by
  obtain ⟨s₀, ms, h₀, hr⟩ := hs
  exact ⟨s₀, ms ++ ls, h₀, hr.append h⟩

theorem Reachable.step {s t : σ} {l : ℓ} (hs : Reachable M s) (h : M.step s l t) : Reachable M t :=
  hs.of_run (Run.single h)

/-- **What holds initially and every step keeps holds of every reachable state**; a step may use that its source is
reachable. -/
theorem Reachable.invariant (I : σ → Prop) (hinit : ∀ s, M.init s → I s)
    (hstep : ∀ s l t, Reachable M s → I s → M.step s l t → I t) {s : σ} (h : Reachable M s) : I s := by
  obtain ⟨s₀, ls, h₀, hr⟩ := h
  induction hr with
  | nil => exact hinit s₀ h₀
  | snoc hr hl ih => exact hstep _ _ _ ⟨_, _, h₀, hr⟩ ih hl

end Transition
