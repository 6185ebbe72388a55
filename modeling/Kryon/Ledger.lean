import Kryon.World
import Kryon.Lib.Book
/-!
# Ledger — the vault's internal balances

The three ways a vault balance moves: a zero-sum transfer between two accounts, realized PnL from the engine, and the
credit or debit of a token movement.  Each is a posting or a transfer of the book `balances`.
-/
namespace Kryon

open Program
open Function (update)

/-- The world with another book of vault balances. -/
def World.withBalances (w : World) (b : Address → Int) : World := { w with vault := { w.vault with balances := b } }

namespace Vault

/-- Zero-sum move between two ledger accounts.  Protocol contracts only. -/
def transferInternal (w : World) (caller src dst : Address) (amount : Int) : Except Error World := do
  w.onlyRole .vault .ledger caller
  w.whenNotPaused .vault
  revertIf (amount < 0) .invalidAmount
  if amount = 0 ∨ src = dst then pure w
  else do
    let debited ← M.sub (w.vault.balances src) amount
    let balances := update w.vault.balances src debited
    let credited ← M.add (balances dst) amount
    pure (w.withBalances (update balances dst credited))

def move (w : World) (account : Address) (amount : Int) : Except Error World := do
  let balance ← M.add (w.vault.balances account) amount
  let totalLedger ← M.add w.vault.totalLedger amount
  pure { w with vault := { w.vault with
    balances := update w.vault.balances account balance
    totalLedger := totalLedger } }

/-- Credits or debits realized trading PnL.  Engine only. -/
def applyPnl (D : Deployment) (w : World) (caller account : Address) (amount : Int) : Except Error World := do
  w.whenNotPaused .vault
  revertIf (caller ≠ D.engine) .unauthorized
  if amount = 0 then pure w else move w account amount

/-! ## What they do -/

/-- The world after `amount` is posted to one account and to the ledger total. -/
def posted (w : World) (account : Address) (amount : Int) : World :=
  { w with vault := { w.vault with
    balances := Book.post w.vault.balances account amount
    totalLedger := w.vault.totalLedger + amount } }

theorem posted_zero (w : World) (account : Address) : posted w account 0 = w := by
  simp [posted, Book.post]

/-- **A transfer that returns moved exactly its amount.** -/
theorem transferInternal_ok {w w' : World} {caller src dst : Address} {amount : Int}
    (h : transferInternal w caller src dst amount = .ok w') :
    0 ≤ amount ∧ w' = w.withBalances (Book.transfer w.vault.balances src dst amount) := by
  simp only [transferInternal, bind_ok_iff, World.onlyRole_ok, World.whenNotPaused_ok, revertIf_ok, not_lt,
    exists_const] at h
  obtain ⟨-, -, h0, h⟩ := h
  refine ⟨h0, ?_⟩
  split at h
  · rename_i hnop
    rw [pure_ok] at h
    subst h
    rcases hnop with hz | rfl
    · rw [hz, Book.transfer_zero]; rfl
    · rw [Book.transfer_self]; rfl
  · rename_i hne
    simp only [M.sub_ok, M.add_ok, bind_ok_iff, pure_ok] at h
    obtain ⟨_, ⟨-, rfl⟩, _, ⟨-, rfl⟩, rfl⟩ := h
    rw [Book.transfer, Book.post, Book.post, ← sub_eq_add_neg]

theorem move_ok {w w' : World} {account : Address} {amount : Int} (h : move w account amount = .ok w') :
    w' = posted w account amount := by
  simp only [move, M.add_ok, bind_ok_iff, pure_ok] at h
  obtain ⟨_, ⟨-, rfl⟩, _, ⟨-, rfl⟩, rfl⟩ := h
  rfl

theorem applyPnl_ok {D : Deployment} {w w' : World} {caller account : Address} {amount : Int}
    (h : applyPnl D w caller account amount = .ok w') : w' = posted w account amount := by
  simp only [applyPnl, bind_ok_iff, World.whenNotPaused_ok, revertIf_ok, exists_const] at h
  obtain ⟨-, -, h⟩ := h
  split at h
  · rename_i hz
    rw [pure_ok] at h
    rw [← h, hz, posted_zero]
  · exact move_ok h

end Vault
end Kryon
