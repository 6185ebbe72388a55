import Mathlib.Data.List.Infix
/-!
# Hysteresis — a signal that is raised and cleared by streaks

A history of observations, each failing or passing.  What is raised by enough failing observations in a row is held until
enough passing ones in a row clear it; `Held` says so of a whole history, and `held_fail` and `held_pass` say how one more
observation changes it, so that a machine that counts the two streaks holds exactly then.
-/
namespace Kryon.Hysteresis

/-- How many observations are `b` in a row at the end of a history. -/
def streak (b : Bool) (h : List Bool) : Nat := (h.reverse.takeWhile fun x => decide (x = b)).length

/-- After `fails` failing observations in a row there were not `passes` passing ones in a row. -/
def Held (fails passes : Nat) (h : List Bool) : Prop :=
  ∃ a b, h = a ++ b ∧ fails ≤ streak true a ∧ ¬ List.replicate passes false <:+: b

variable {b b' : Bool} {h : List Bool} {n fails passes : Nat}

theorem streak_nil : streak b [] = 0 := rfl

theorem streak_same (b : Bool) (h : List Bool) : streak b (h ++ [b]) = streak b h + 1 := by simp [streak]

theorem streak_other (hne : b' ≠ b) (h : List Bool) : streak b (h ++ [b']) = 0 := by simp [streak, hne]

theorem replicate_prefix (b : Bool) (l : List Bool) (n : Nat) :
    List.replicate n b <+: l ↔ n ≤ (l.takeWhile fun x => decide (x = b)).length := by
  induction l generalizing n with
  | nil =>
    rw [List.prefix_nil, List.replicate_eq_nil_iff]
    exact Nat.le_zero.symm
  | cons x l ih =>
    cases n with
    | zero => simp
    | succ n =>
      rw [List.replicate_succ, List.cons_prefix_cons, ih]
      by_cases hx : x = b
      · subst hx
        simp
      · simp [hx, Ne.symm hx]

theorem le_streak : n ≤ streak b h ↔ List.replicate n b <:+ h := by
  rw [streak, ← replicate_prefix, ← List.reverse_suffix, List.reverse_reverse, List.reverse_replicate]

theorem streak_append (hzero : streak b h = 0) (c : List Bool) : streak b (h ++ c) = streak b c := by
  induction c using List.reverseRecOn with
  | nil => rw [List.append_nil, hzero, streak_nil]
  | append_singleton c x ih =>
    rw [← List.append_assoc]
    by_cases hx : x = b
    · rw [hx, streak_same, streak_same, ih]
    · rw [streak_other hx, streak_other hx]

theorem streak_false_eq_zero (hpos : 0 < streak true h) : streak false h = 0 := by
  rcases List.eq_nil_or_concat h with rfl | ⟨h, x, rfl⟩
  · rfl
  · rw [List.concat_eq_append] at hpos ⊢
    cases x with
    | true => exact streak_other (by decide) h
    | false => exact absurd hpos (by rw [streak_other (by decide)]; exact lt_irrefl 0)

/-- One more failing observation raises what it makes a long enough streak of, and clears nothing. -/
theorem held_fail (hpasses : 0 < passes) :
    Held fails passes (h ++ [true]) ↔ Held fails passes h ∨ fails ≤ streak true (h ++ [true]) := by
  have hclear : ∀ b : List Bool, List.replicate passes false <:+: b ++ [true] ↔ List.replicate passes false <:+: b := by
    intro b
    rw [List.infix_concat_iff]
    refine or_iff_right fun hend => ?_
    have hpos := le_streak.2 hend
    rw [streak_other (by decide)] at hpos
    omega
  constructor
  · rintro ⟨a, b, heq, hfails, hno⟩
    rcases List.eq_nil_or_concat b with rfl | ⟨b, x, rfl⟩
    · rw [List.append_nil] at heq
      exact .inr (heq ▸ hfails)
    · rw [List.concat_eq_append, ← List.append_assoc] at heq
      obtain ⟨rfl, hx⟩ := List.append_inj' heq rfl
      rw [List.concat_eq_append, ← hx, hclear] at hno
      exact .inl ⟨a, b, rfl, hfails, hno⟩
  · rintro (⟨a, b, rfl, hfails, hno⟩ | hfails)
    · exact ⟨a, b ++ [true], List.append_assoc .., hfails, (hclear b).not.2 hno⟩
    · refine ⟨h ++ [true], [], (List.append_nil _).symm, hfails, fun hinfix => ?_⟩
      rw [List.infix_nil, List.replicate_eq_nil_iff] at hinfix
      omega

/-- One more passing observation clears what it makes a long enough streak for, and raises nothing. -/
theorem held_pass (hfails : 0 < fails) :
    Held fails passes (h ++ [false]) ↔ Held fails passes h ∧ streak false (h ++ [false]) < passes := by
  constructor
  · rintro ⟨a, b, heq, hraised, hno⟩
    rcases List.eq_nil_or_concat b with rfl | ⟨b, x, rfl⟩
    · rw [List.append_nil] at heq
      rw [← heq, streak_other (by decide)] at hraised
      omega
    · rw [List.concat_eq_append, ← List.append_assoc] at heq
      obtain ⟨rfl, hx⟩ := List.append_inj' heq rfl
      rw [List.concat_eq_append, ← hx] at hno
      refine ⟨⟨a, b, rfl, hraised, fun hinfix => hno (List.infix_concat_iff.2 (.inr hinfix))⟩, ?_⟩
      -- A streak that clears would lie after the one that raised, which ends with a failing observation.
      by_contra hlong
      rw [List.append_assoc, streak_append (streak_false_eq_zero (hfails.trans_le hraised)), not_lt] at hlong
      exact hno (le_streak.1 hlong).isInfix
  · rintro ⟨⟨a, b, rfl, hraised, hno⟩, hshort⟩
    refine ⟨a, b ++ [false], List.append_assoc .., hraised, fun hinfix => ?_⟩
    rcases List.infix_concat_iff.1 hinfix with hsuffix | hinfix
    · have hlong := le_streak.2 (hsuffix.trans (List.suffix_append a (b ++ [false])))
      rw [← List.append_assoc] at hlong
      omega
    · exact hno hinfix

end Kryon.Hysteresis
