import Kryon.Engine
/-!
# Vault — USDC custody, deposits and withdrawals

A deposit pulls tokens in and credits the ledger; a withdrawal debits it and pays tokens out, once the engine has checked
the equity left against initial margin.  A deposit that repays a negative balance tells Insurance, which then shrinks the
debt it has on record.
-/
namespace Kryon

open Program
open Function (update)

namespace Insurance

/-- Records `debt` as what `trader` still owes. -/
def recordDebt (w : World) (trader : Address) (debt : Int) : World :=
  { w with insurance := { w.insurance with
    recordedDebt := update w.insurance.recordedDebt trader debt
    badDebt := w.insurance.badDebt - w.insurance.recordedDebt trader + debt } }

/-- Shrinks a recorded debt to what is still owed.  Vault only; never raises the record. -/
def refreshDebt (D : Deployment) (w : World) (caller trader : Address) : Except Error World := do
  revertIf (caller ≠ D.vault) .unauthorized
  let previous := w.insurance.recordedDebt trader
  if previous = 0 then pure w
  else
    let bal := w.vault.balances trader
    let owed := if bal < 0 then -bal else 0
    if owed ≥ previous then pure w else pure (recordDebt w trader owed)

/-- Covers a closed-out account's negative balance from operating capital and records what is left. -/
def settleBadDebt (D : Deployment) (w : World) (trader : Address) : Except Error (World × Int) := do
  w.whenNotPaused .insurance
  revertIf (trader = D.insurance) .insuranceAccount
  revertIf (Engine.positionCount w trader ≠ 0) .hasOpenPositions
  let bal := w.vault.balances trader
  let deficit := if bal < 0 then -bal else 0
  let available := M.max (operatingBalance D w) 0
  let covered := M.min deficit available
  let w ← (if covered > 0 then Vault.transferInternal w D.insurance D.insurance trader covered else pure w)
  let remaining := deficit - covered
  let w := if remaining ≠ w.insurance.recordedDebt trader then recordDebt w trader remaining else w
  pure (w, covered)

end Insurance

namespace Vault

/-! ## Configuration -/

def setDepositCaps (w : World) (msg : Msg) (total perAccount : Nat) : Except Error World := do
  w.onlyRole .vault .riskAdmin msg.sender
  pure { w with vault := { w.vault with depositCap := total, accountDepositCap := perAccount } }

def setCapExempt (w : World) (msg : Msg) (account : Address) (exempt : Bool) : Except Error World := do
  w.onlyRole .vault .defaultAdmin msg.sender
  pure { w with vault := { w.vault with capExempt := update w.vault.capExempt account exempt } }

def setCollateral (D : Deployment) (w : World) (msg : Msg) (token : Address) (active : Bool) : Except Error World := do
  w.onlyRole .vault .riskAdmin msg.sender
  revertIf (token ≠ D.usdc) (.collateralNotSupported token)
  pure { w with vault := { w.vault with collateralActive := active } }

/-! ## Deposits -/

/-- A checked `uint256` sum. -/
def addU256 (a b : Nat) : Except Error Nat := do
  revertIf (a + b > U256_MAX) .panic
  pure (a + b)

def checkDeposit (w : World) (account : Address) (amount : Nat) : Except Error Unit := do
  revertIf (account = 0) .zeroAddress
  revertIf (amount = 0) .invalidAmount
  revertIf (w.vault.collateralActive = false) .assetDisabled
  if w.vault.capExempt account then pure ()
  else do
    let total ← addU256 w.vault.totalDeposited amount
    revertIf (total > w.vault.depositCap) .depositCapExceeded
    let net ← addU256 (w.vault.netDeposited account) amount
    revertIf (net > w.vault.accountDepositCap) .depositCapExceeded

/-- Net deposits, which back the caps; exempt accounts are not counted. -/
def countDeposit (w : World) (account : Address) (amount : Nat) : World :=
  if w.vault.capExempt account then w
  else { w with vault := { w.vault with
    totalDeposited := w.vault.totalDeposited + amount
    netDeposited := update w.vault.netDeposited account (w.vault.netDeposited account + amount) } }

def credit (D : Deployment) (w : World) (account : Address) (amount : Nat) : Except Error World := do
  let internalAmount ← Decimals.toInternal amount
  let wasNegative := decide (w.vault.balances account < 0)
  let w ← move (countDeposit w account amount) account internalAmount
  if wasNegative then Insurance.refreshDebt D w D.vault account else pure w

def pullAndCredit (D : Deployment) (w : World) (msg : Msg) (payer account : Address) (amount : Nat) :
    Except Error World := do
  checkDeposit w account amount
  let w ← w.usdcTransfer msg payer D.vault amount
  credit D w account amount

/-- `deposit` and `depositWithPermit`, whose permit only changes the allowance. -/
def deposit (D : Deployment) (w : World) (msg : Msg) (amount : Nat) : Except Error World := do
  w.whenNotPaused .vault
  pullAndCredit D w msg msg.sender msg.sender amount

def depositFor (D : Deployment) (w : World) (msg : Msg) (caller account : Address) (amount : Nat) :
    Except Error World := do
  w.whenNotPaused .vault
  pullAndCredit D w msg caller account amount

def depositWithPermit2 (D : Deployment) (w : World) (msg : Msg) (token : Address) (amount : Nat) :
    Except Error World := do
  w.whenNotPaused .vault
  revertIf (token ≠ D.usdc) (.collateralNotSupported token)
  pullAndCredit D w msg msg.sender msg.sender amount

/-! ## Withdrawals -/

/-- Net deposits after a withdrawal, floored at zero. -/
def countWithdrawal (w : World) (account : Address) (amount : Nat) : World :=
  if w.vault.capExempt account then w
  else { w with vault := { w.vault with
    totalDeposited := w.vault.totalDeposited - amount
    netDeposited := update w.vault.netDeposited account (w.vault.netDeposited account - amount) } }

/-- Pays `account`'s balance to `recipient` once the equity left covers initial margin. -/
def withdrawTo (D : Deployment) (w : World) (msg : Msg) (account recipient : Address) (amount : Nat) :
    Except Error World := do
  w.whenNotPaused .vault
  revertIf (recipient = 0) .zeroAddress
  revertIf (amount = 0) .invalidAmount
  let internalAmount ← Decimals.toInternal amount
  revertIf (w.vault.balances account < internalAmount) .insufficientCollateral
  let _ ← Engine.validateWithdrawal w account internalAmount
  let w ← move w account (-internalAmount)
  (countWithdrawal w account amount).usdcTransfer msg D.vault recipient amount

end Vault
end Kryon
