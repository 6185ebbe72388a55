import Mathlib.Algebra.BigOperators.Group.List.Basic
import Mathlib.Algebra.Ring.Nat
import Mathlib.Tactic.Common
/-!
# Work queues — items that are emitted whole or put back in parts

A loop takes the item at the head of its queue and either emits a result for it or puts its parts back at the head.  What a
turn does may depend on when it is taken, and a turn may fail.  The loop ends where an item weighs more than its parts
together (`run_ends`); what every turn keeps holds of its results (`run_keeps`, `run_flatMap`, `run_forall`).
-/
namespace WorkQueue

universe u v w
variable {α : Type u} {β : Type v} {γ : Type w} {ε : Type}

/-- What one turn does with the item at the head. -/
inductive Turn (α : Type u) (β : Type v) where
  | emit (b : β)
  | split (parts : List α)

/-- The loop from turn `k` on, with the results so far; `none` when the fuel runs out first. -/
def run (turn : Nat → α → Except ε (Turn α β)) : (fuel k : Nat) → List α → List β → Option (Except ε (List β))
  | 0, _, _, _ => none
  | _ + 1, _, [], out => some (.ok out)
  | fuel + 1, k, a :: queue, out =>
    match turn k a with
    | .error e => some (.error e)
    | .ok (.emit b) => run turn fuel (k + 1) queue (out ++ [b])
    | .ok (.split parts) => run turn fuel (k + 1) (parts ++ queue) out

variable {turn : Nat → α → Except ε (Turn α β)}

/-- **Where an item weighs more than its parts together, more fuel than the queue weighs is enough.** -/
theorem run_ends (weight : α → Nat) (hpos : ∀ a, 0 < weight a)
    (hsplit : ∀ k a parts, turn k a = .ok (.split parts) → (parts.map weight).sum < weight a) :
    ∀ (fuel k : Nat) (queue : List α) (out : List β), (queue.map weight).sum < fuel →
      ∃ r, run turn fuel k queue out = some r := by
  intro fuel
  induction fuel with
  | zero => exact fun k queue out h => absurd h (Nat.not_lt_zero _)
  | succ fuel ih =>
    intro k queue out h
    cases queue with
    | nil => exact ⟨.ok out, rfl⟩
    | cons a queue =>
      rw [List.map_cons, List.sum_cons] at h
      have ha := hpos a
      rw [run]
      split
      · exact ⟨_, rfl⟩
      · exact ih (k + 1) queue _ (by omega)
      · rename_i parts hturn
        have hparts := hsplit k a parts hturn
        refine ih (k + 1) (parts ++ queue) out ?_
        rw [List.map_append, List.sum_append]
        omega

/-- **What every turn keeps of the queue and the results, the loop keeps.** -/
theorem run_keeps (I : List α → List β → Prop)
    (hemit : ∀ k a b queue out, turn k a = .ok (.emit b) → I (a :: queue) out → I queue (out ++ [b]))
    (hsplit : ∀ k a parts queue out, turn k a = .ok (.split parts) → I (a :: queue) out → I (parts ++ queue) out) :
    ∀ (fuel k : Nat) (queue : List α) (out r : List β), I queue out → run turn fuel k queue out = some (.ok r) → I [] r
  | 0, _, _, _, _, _, h => by cases h
  | _ + 1, _, [], out, r, hI, h => by
    obtain rfl : out = r := Except.ok.inj (Option.some.inj h)
    exact hI
  | fuel + 1, k, a :: queue, out, r, hI, h => by
    rw [run] at h
    split at h
    · cases h
    · rename_i b hturn
      exact run_keeps I hemit hsplit fuel (k + 1) queue _ r (hemit k a b queue out hturn hI) h
    · rename_i parts hturn
      exact run_keeps I hemit hsplit fuel (k + 1) _ out r (hsplit k a parts queue out hturn hI) h

/-- **Where a result holds what its item held, and the parts of an item hold it in order, the results hold what the queue
did.** -/
theorem run_flatMap (held : α → List γ) (kept : β → List γ) (hemit : ∀ k a b, turn k a = .ok (.emit b) → kept b = held a)
    (hsplit : ∀ k a parts, turn k a = .ok (.split parts) → parts.flatMap held = held a)
    {fuel k : Nat} {queue : List α} {r : List β} (h : run turn fuel k queue [] = some (.ok r)) :
    r.flatMap kept = queue.flatMap held := by
  have hend := run_keeps (fun q out => out.flatMap kept ++ q.flatMap held = queue.flatMap held) ?_ ?_ fuel k queue [] r rfl h
  · rwa [List.flatMap_nil, List.append_nil] at hend
  · intro k a b q out hturn hI
    rw [List.flatMap_append, List.flatMap_singleton, hemit k a b hturn, List.append_assoc, ← List.flatMap_cons]
    exact hI
  · intro k a parts q out hturn hI
    rw [List.flatMap_append, hsplit k a parts hturn, ← List.flatMap_cons]
    exact hI

/-- What holds of the items and of their parts, and makes a turn's result meet `P`, makes every result meet it. -/
theorem run_forall (Q : α → Prop) (P : β → Prop) (hemit : ∀ k a b, turn k a = .ok (.emit b) → Q a → P b)
    (hsplit : ∀ k a parts, turn k a = .ok (.split parts) → Q a → ∀ p ∈ parts, Q p)
    {fuel k : Nat} {queue : List α} {r : List β} (hqueue : ∀ a ∈ queue, Q a)
    (h : run turn fuel k queue [] = some (.ok r)) : ∀ b ∈ r, P b := by
  have hend := run_keeps (fun q out => (∀ a ∈ q, Q a) ∧ ∀ b ∈ out, P b) ?_ ?_ fuel k queue [] r ⟨hqueue, by simp⟩ h
  · exact hend.2
  · rintro k a b q out hturn ⟨hq, hout⟩
    refine ⟨fun x hx => hq x (List.mem_cons_of_mem a hx), fun x hx => ?_⟩
    rcases List.mem_append.1 hx with hx | hx
    · exact hout x hx
    · rw [List.mem_singleton.1 hx]
      exact hemit k a b hturn (hq a List.mem_cons_self)
  · rintro k a parts q out hturn ⟨hq, hout⟩
    refine ⟨fun x hx => ?_, hout⟩
    rcases List.mem_append.1 hx with hx | hx
    · exact hsplit k a parts hturn (hq a List.mem_cons_self) x hx
    · exact hq x (List.mem_cons_of_mem a hx)

/-- An error of the loop is the error of one of its turns. -/
theorem run_error {e : ε} : ∀ (fuel k : Nat) (queue : List α) (out : List β),
    run turn fuel k queue out = some (.error e) → ∃ k a, turn k a = .error e
  | 0, _, _, _, h => by cases h
  | _ + 1, _, [], _, h => by cases h
  | fuel + 1, k, a :: queue, out, h => by
    rw [run] at h
    split at h
    · rename_i e' hturn
      obtain rfl : e' = e := Except.error.inj (Option.some.inj h)
      exact ⟨k, a, hturn⟩
    · exact run_error fuel (k + 1) _ _ h
    · exact run_error fuel (k + 1) _ _ h

end WorkQueue
