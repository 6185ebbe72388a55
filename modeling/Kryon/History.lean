import Kryon.Effects
/-!
# History — the fills of a run, in order

A run's labels carry the fills its batches settled.  Every one of them settled in the world that the run up to its batch,
and the batch's fills before it, led to (`history_split`).
-/
namespace Kryon

open Transition
open OrderGateway (Settled settleOne)

universe u
variable {D : Deployment} {env : Env} {w w' : World} {msg : Msg} {l : Label} {ls : List Label} {x : Settled}

/-- The fills a run settled, in order. -/
def history (ls : List Label) : List Settled := ls.flatMap (·.settled)

theorem history_snoc (ls : List Label) (l : Label) : history (ls ++ [l]) = history ls ++ l.settled := by
  simp only [history, List.flatMap_append, List.flatMap_cons, List.flatMap_nil, List.append_nil]

/-- **A measure every settled fill raises by its own amount is raised by a chain's total.** -/
theorem Chain.accumulates {A : Type u} [AddCommMonoid A] {settled : List Settled} (f : World → A) (g : Settled → A)
    (hone : ∀ x wallet, settleOne D env x.before msg wallet x.settlement.fill = .ok (x.after, x.settlement) →
      f x.after = f x.before + g x)
    (h : Chain D env msg w settled w') : f w' = f w + (settled.map g).sum := by
  induction h with
  | nil w => simp
  | @cons x l w' wallet h _ ih => rw [ih, hone x wallet h, List.map_cons, List.sum_cons, add_assoc]

theorem Chain.split {pre post : List Settled} (h : Chain D env msg w (pre ++ x :: post) w') :
    Chain D env msg w pre x.before ∧ ∃ wallet,
      settleOne D env x.before msg wallet x.settlement.fill = .ok (x.after, x.settlement) := by
  induction pre generalizing w with
  | nil =>
    cases h with
    | cons wallet h hl => exact ⟨Chain.nil _, wallet, h⟩
  | cons y pre ih =>
    cases h with
    | cons wallet h hl =>
      obtain ⟨hpre, hone⟩ := ih hl
      exact ⟨Chain.cons wallet h hpre, hone⟩

theorem step_chain (h : (machine D env).step w l w') (hl : l.settled ≠ []) :
    Chain D env l.call.msg w l.settled w' := by
  have heffect := exec_effect h.1 h.2
  generalize l.call.tx = tx at heffect
  generalize l.settled = settled at heffect hl ⊢
  cases heffect with
  | settled h => exact h
  | _ => exact absurd rfl hl

/-- **Every fill of a run settled in the world the run before it led to**, first by whole steps and then by the fills of
its own batch. -/
theorem history_split (h : Run (machine D env) w ls w') {pre post : List Settled}
    (hx : history ls = pre ++ x :: post) :
    ∃ ls₁ w₁ earlier msg wallet, Run (machine D env) w ls₁ w₁ ∧ pre = history ls₁ ++ earlier ∧
      Chain D env msg w₁ earlier x.before ∧
      settleOne D env x.before msg wallet x.settlement.fill = .ok (x.after, x.settlement) := by
  induction h generalizing post with
  | nil => exact absurd hx (by simp [history])
  | @snoc s t ls l hr hl ih =>
    rw [history_snoc, List.append_eq_append_iff] at hx
    rcases hx with ⟨earlier, rfl, hsettled⟩ | ⟨rest, hhistory, hrest⟩
    · -- The fill is one of the last step's.
      have hchain := step_chain hl (by rw [hsettled]; simp)
      rw [hsettled] at hchain
      obtain ⟨hpre, wallet, hone⟩ := hchain.split
      exact ⟨ls, s, earlier, _, wallet, hr, rfl, hpre, hone⟩
    · cases rest with
      | nil =>
        rw [List.append_nil] at hhistory
        rw [List.nil_append] at hrest
        have hchain := step_chain hl (by rw [← hrest]; simp)
        rw [← hrest, ← List.nil_append (x :: post)] at hchain
        obtain ⟨hpre, wallet, hone⟩ := hchain.split
        exact ⟨ls, s, [], _, wallet, hr, by rw [List.append_nil, hhistory], hpre, hone⟩
      | cons y rest =>
        rw [List.cons_append, List.cons.injEq] at hrest
        obtain ⟨rfl, -⟩ := hrest
        exact ih hhistory

end Kryon
