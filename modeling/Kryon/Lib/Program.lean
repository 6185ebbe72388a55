import Mathlib.Tactic.Common
import Mathlib.Algebra.BigOperators.Group.List.Basic
/-!
# Programs that may revert

A program is an `Except ε α`: it returns a value or reverts with an error, and a revert leaves no trace.  Two ways to
read one are used.  `x = .ok a` inverts a run that returned (`bind_ok_iff` peels one step off, `revertIf_ok` reads a
guard).  `Succeeds excuse x post` is total correctness up to excused errors: `x` returns a value with `post`, or reverts
with an error `excuse` accepts; its rules follow the program's own shape.
-/
namespace Program

universe u v w
variable {ε : Type u} {α β : Type v}

/-- Revert with `e` when `c` holds. -/
def revertIf (c : Prop) [Decidable c] (e : ε) : Except ε PUnit.{v + 1} :=
  if c then .error e else .ok ⟨⟩

@[simp] theorem bind_ok_iff (x : Except ε α) (f : α → Except ε β) (b : β) :
    (x >>= f) = .ok b ↔ ∃ a, x = .ok a ∧ f a = .ok b := by
  cases x with
  | error e => simp [bind, Except.bind]
  | ok a => simp [bind, Except.bind]

theorem ok_bind (a : α) (f : α → Except ε β) : ((.ok a : Except ε α) >>= f) = f a := rfl

@[simp] theorem revertIf_ok (c : Prop) [Decidable c] (e : ε) (u : PUnit.{v + 1}) :
    revertIf c e = .ok u ↔ ¬ c := by
  unfold revertIf
  split <;> simp [*]

theorem revertIf_of_not {c : Prop} [Decidable c] (hc : ¬ c) (e : ε) : revertIf.{u, v} c e = .ok ⟨⟩ := if_neg hc

@[simp] theorem pure_ok (a b : α) : (pure a : Except ε α) = .ok b ↔ a = b := by
  simp [pure, Except.pure]

@[simp] theorem map_ok (f : α → β) (x : Except ε α) (b : β) : (f <$> x) = .ok b ↔ ∃ a, x = .ok a ∧ f a = b := by
  cases x <;> simp [Functor.map, Except.map]

/-- Two ways to go on that agree on what a step may return. -/
theorem bind_congr_ok {x : Except ε α} {f g : α → Except ε β} (h : ∀ a, x = .ok a → f a = g a) :
    (x >>= f) = (x >>= g) := by
  cases x with
  | error e => rfl
  | ok a => exact h a rfl

theorem ok_unique {x : Except ε α} {a b : α} (ha : x = .ok a) (hb : x = .ok b) : a = b := by
  rw [ha] at hb; exact Except.ok.inj hb

theorem ok_of_isOk {x : Except ε α} (h : x.isOk = true) : ∃ a, x = .ok a := by
  cases x with
  | error e => exact absurd h (by simp [Except.isOk, Except.toBool])
  | ok a => exact ⟨a, rfl⟩

/-- Whether a program returns a value that meets `P`. -/
def returnsWith (P : α → Bool) (x : Except ε α) : Bool :=
  match x with
  | .ok a => P a
  | .error _ => false

theorem ok_of_returnsWith {P : α → Bool} {x : Except ε α} (h : returnsWith P x = true) : ∃ a, x = .ok a ∧ P a = true := by
  cases x with
  | error e => exact absurd h Bool.false_ne_true
  | ok a => exact ⟨a, rfl, h⟩

/-- Every state of a left fold of programs keeps what one step keeps. -/
theorem foldlM_invariant {σ : Type v} {ι : Type w} (I : σ → Prop) (f : σ → ι → Except ε σ) :
    ∀ (l : List ι) (s t : σ), I s → (∀ s i t, i ∈ l → I s → f s i = .ok t → I t) → l.foldlM f s = .ok t → I t
  | [], s, t, hs, _, h => by
    simp only [List.foldlM_nil, pure_ok] at h
    exact h ▸ hs
  | i :: l, s, t, hs, hstep, h => by
    rw [List.foldlM_cons, bind_ok_iff] at h
    obtain ⟨m, hm, h⟩ := h
    exact foldlM_invariant I f l m t (hstep s i m (by simp) hs hm)
      (fun s i t hi => hstep s i t (List.mem_cons_of_mem _ hi)) h

/-- A left fold of programs that each add their own amount adds the sum of them. -/
theorem foldlM_accumulates {A : Type v} {ι : Type w} [AddCommMonoid A] (g : ι → A) (f : A → ι → Except ε A) :
    ∀ (l : List ι) (s t : A), (∀ s i t, i ∈ l → f s i = .ok t → t = s + g i) → l.foldlM f s = .ok t →
      t = s + (l.map g).sum
  | [], s, t, _, h => by
    simp only [List.foldlM_nil, pure_ok] at h
    simp [h]
  | i :: l, s, t, hstep, h => by
    rw [List.foldlM_cons, bind_ok_iff] at h
    obtain ⟨m, hm, h⟩ := h
    have hrest := foldlM_accumulates g f l m t (fun s i t hi => hstep s i t (List.mem_cons_of_mem _ hi)) h
    rw [hrest, hstep s i m List.mem_cons_self hm, List.map_cons, List.sum_cons, add_assoc]

theorem mapM_ok {ι : Type v} (g : ι → α) (f : ι → Except ε α) :
    ∀ (l : List ι) (r : List α), (∀ i a, i ∈ l → f i = .ok a → a = g i) → l.mapM f = .ok r →
      r = l.map g ∧ ∀ i ∈ l, f i = .ok (g i)
  | [], r, _, h => by
    simp only [List.mapM_nil, pure_ok] at h
    exact ⟨h.symm, fun _ hi => absurd hi List.not_mem_nil⟩
  | i :: l, r, hf, h => by
    simp only [List.mapM_cons, bind_ok_iff, pure_ok] at h
    obtain ⟨a, ha, r', hr', rfl⟩ := h
    obtain ⟨rfl, hrest⟩ := mapM_ok g f l r' (fun i a hi => hf i a (List.mem_cons_of_mem _ hi)) hr'
    have hhead := hf i a List.mem_cons_self ha
    refine ⟨by rw [hhead, List.map_cons], fun j hj => ?_⟩
    rcases List.mem_cons.1 hj with rfl | hj
    · rw [ha, hhead]
    · exact hrest j hj

/-! ## What a program returns -/

/-- **If `x` returns, it returns a value with `post`.** -/
def Returns (post : α → Prop) (x : Except ε α) : Prop := ∀ a, x = .ok a → post a

theorem Returns.pure {post : α → Prop} {a : α} (h : post a) : Returns post (Pure.pure a : Except ε α) := by
  intro b hb
  rw [pure_ok] at hb
  exact hb ▸ h

/-- The rule for one step after another, when the first does not matter. -/
theorem Returns.bind {post : β → Prop} {x : Except ε α} {f : α → Except ε β} (h : ∀ a, Returns post (f a)) :
    Returns post (x >>= f) := by
  intro b hb
  rw [bind_ok_iff] at hb
  obtain ⟨a, -, hf⟩ := hb
  exact h a b hf

/-! ## Success up to excused errors -/

/-- **`x` returns a value with `post`, or reverts with an excused error.** -/
def Succeeds (excuse : ε → Prop) (x : Except ε α) (post : α → Prop) : Prop :=
  match x with
  | .ok a => post a
  | .error e => excuse e

variable {excuse : ε → Prop} {post : α → Prop}

@[simp] theorem succeeds_ok (a : α) : Succeeds excuse (.ok a) post ↔ post a := Iff.rfl

@[simp] theorem succeeds_error (e : ε) : Succeeds excuse (.error e) post ↔ excuse e := Iff.rfl

@[simp] theorem succeeds_pure (a : α) : Succeeds excuse (pure a : Except ε α) post ↔ post a := Iff.rfl

theorem Succeeds.mono {x : Except ε α} {post' : α → Prop} (h : Succeeds excuse x post)
    (himp : ∀ a, x = .ok a → post a → post' a) : Succeeds excuse x post' := by
  cases x with
  | error e => exact h
  | ok a => exact himp a rfl h

/-- **The rule for one step after another.** -/
theorem Succeeds.bind {x : Except ε α} {f : α → Except ε β} {post' : β → Prop} (hx : Succeeds excuse x post)
    (hf : ∀ a, x = .ok a → post a → Succeeds excuse (f a) post') : Succeeds excuse (x >>= f) post' := by
  cases x with
  | error e => exact hx
  | ok a => exact hf a rfl hx

theorem Succeeds.ok_or {x : Except ε α} (h : Succeeds excuse x post) :
    (∃ a, x = .ok a ∧ post a) ∨ ∃ e, x = .error e ∧ excuse e := by
  cases x with
  | error e => exact Or.inr ⟨e, rfl, h⟩
  | ok a => exact Or.inl ⟨a, rfl, h⟩

end Program
