import Kryon.Lib.Program
/-!
# Agreement of two programs

Two programs over different values and different errors agree when both return related values or both revert with
related errors.  The rules follow the shape the two programs share: a step after a step, a guard, a choice, a loop.
-/
namespace Program

universe u v
variable {ε ε' : Type u} {α α' β β' : Type v}

/-- **Both return related values, or both revert with related errors.** -/
def Agree (E : ε → ε' → Prop) (R : α → α' → Prop) : Except ε α → Except ε' α' → Prop
  | .ok a, .ok b => R a b
  | .error e, .error e' => E e e'
  | _, _ => False

section
variable {E : ε → ε' → Prop} {R : α → α' → Prop} {S : β → β' → Prop}

@[simp] theorem agree_ok (a : α) (b : α') : Agree E R (.ok a) (.ok b) ↔ R a b := Iff.rfl

@[simp] theorem agree_error (e : ε) (e' : ε') : Agree E R (.error e) (.error e') ↔ E e e' := Iff.rfl

@[simp] theorem agree_pure (a : α) (b : α') : Agree E R (pure a) (pure b) ↔ R a b := Iff.rfl

/-- **The rule for one step after another.** -/
theorem Agree.bind {x : Except ε α} {y : Except ε' α'} {f : α → Except ε β} {g : α' → Except ε' β'}
    (hxy : Agree E R x y) (hfg : ∀ a b, R a b → Agree E S (f a) (g b)) : Agree E S (x >>= f) (y >>= g) := by
  cases x with
  | error e =>
    cases y with
    | error e' => exact hxy
    | ok b => exact hxy.elim
  | ok a =>
    cases y with
    | error e' => exact hxy.elim
    | ok b => exact hfg a b hxy

theorem Agree.mono {R' : α → α' → Prop} {x : Except ε α} {y : Except ε' α'} (hxy : Agree E R x y)
    (himp : ∀ a b, R a b → R' a b) : Agree E R' x y := by
  cases x with
  | error e =>
    cases y with
    | error e' => exact hxy
    | ok b => exact hxy.elim
  | ok a =>
    cases y with
    | error e' => exact hxy.elim
    | ok b => exact himp a b hxy

/-- The rule for a guard: both check the same condition, and go on where it fails. -/
theorem Agree.guard {c c' : Prop} {_ : Decidable c} {_ : Decidable c'} (hcc : c ↔ c') {e : ε} {e' : ε'} (he : E e e')
    {x : Except ε α} {y : Except ε' α'} (hneg : ¬ c → Agree E R x y) :
    Agree E R (revertIf.{u, v} c e >>= fun _ => x) (revertIf.{u, v} c' e' >>= fun _ => y) := by
  unfold revertIf
  by_cases hc : c
  · rw [if_pos hc, if_pos (hcc.1 hc)]
    exact he
  · rw [if_neg hc, if_neg (fun hc' => hc (hcc.2 hc'))]
    exact hneg hc

/-- Choices on the same condition agree. -/
theorem Agree.ite {c c' : Prop} {_ : Decidable c} {_ : Decidable c'} (hcc : c ↔ c') {x x' : Except ε α} {y y' : Except ε' α'}
    (hpos : c → Agree E R x y) (hneg : ¬ c → Agree E R x' y') :
    Agree E R (if c then x else x') (if c' then y else y') := by
  by_cases hc : c
  · rw [if_pos hc, if_pos (hcc.1 hc)]
    exact hpos hc
  · rw [if_neg hc, if_neg (fun hc' => hc (hcc.2 hc'))]
    exact hneg hc

/-- **The rule for a loop** whose one side runs over the images of the other's elements. -/
theorem Agree.foldlM_map {σ σ' : Type v} {ι ι' : Type*} {I : σ → σ' → Prop} {f : σ → ι → Except ε σ}
    {g : σ' → ι' → Except ε' σ'} {φ : ι → ι'} (hstep : ∀ s s' i, I s s' → Agree E I (f s i) (g s' (φ i))) :
    ∀ (l : List ι) {s : σ} {s' : σ'}, I s s' → Agree E I (l.foldlM f s) ((l.map φ).foldlM g s')
  | [], _, _, hs => hs
  | i :: l, s, s', hs => by
    rw [List.map_cons, List.foldlM_cons, List.foldlM_cons]
    apply Agree.bind (hstep s s' i hs)
    intro t t' ht
    exact Agree.foldlM_map hstep l ht

/-- The rule for a loop that counts its turns on that side only. -/
theorem Agree.foldlM_zipIdx {σ σ' : Type v} {ι ι' : Type*} {I : Nat → σ → σ' → Prop} {f : σ → ι → Except ε σ}
    {g : σ' → ι' × Nat → Except ε' σ'} {φ : ι → ι'}
    (hstep : ∀ n s s' i, I n s s' → Agree E (I (n + 1)) (f s i) (g s' (φ i, n))) :
    ∀ (l : List ι) (n : Nat) (s : σ) (s' : σ'), I n s s' →
      Agree E (I (n + l.length)) (l.foldlM f s) (((l.map φ).zipIdx n).foldlM g s')
  | [], _, _, _, hs => hs
  | i :: l, n, s, s', hs => by
    rw [List.map_cons, List.zipIdx_cons, List.foldlM_cons, List.foldlM_cons, List.length_cons,
      Nat.add_comm l.length 1, ← Nat.add_assoc]
    apply Agree.bind (hstep n s s' i hs)
    intro t t' ht
    exact Agree.foldlM_zipIdx hstep l (n + 1) t t' ht

end
end Program
