import Kryon.Books
import Kryon.Projections
import Kryon.Sample
/-!
# BadDebtKeeper — the accounts that the keeper settles, and where it looks for them

The keeper reads the accounts with a negative `ledgerBalance` off the indexer's table and asks the chain about each.  The
balances are in the vault's events, each of which says what it posts (`VaultEvent.post`), but every writer of an account's
row leaves `ledgerBalance` at its default, so no account is ever a candidate (`candidates_nil`).
-/
namespace Kryon.BadDebtKeeper

open Program Transition
open Matcher (OrderRow)
open Indexer (StoredEvent)

/-! ## Events -/

inductive VaultEvent where
  | deposited (payer account : Address) (amount : Nat) (internalAmount : Int)
  | withdrawn (account recipient : Address) (amount : Nat) (internalAmount : Int)
  | internalTransfer (src dst : Address) (amount : Int) (reason : Bytes32)
  | pnlApplied (account : Address) (amount balanceAfter : Int)
deriving DecidableEq

inductive Event where
  | vault (e : VaultEvent)
  | protocol (e : Projections.Event)
deriving DecidableEq

def VaultEvent.post (balances : Address → Int) : VaultEvent → Address → Int
  | .deposited _ account _ internalAmount => Book.post balances account internalAmount
  | .withdrawn account _ _ internalAmount => Book.post balances account (-internalAmount)
  | .internalTransfer src dst amount _ => Book.transfer balances src dst amount
  | .pnlApplied account amount _ => Book.post balances account amount

def Event.post (balances : Address → Int) : Event → Address → Int
  | .vault e => e.post balances
  | .protocol _ => balances

/-- The vault's balances that a log of events implies. -/
def implied (events : List (StoredEvent Event)) : Address → Int := (events.map (·.event)).foldl Event.post fun _ => 0

/-! ## Tables -/

structure AccountRow where
  address : Address
  feeTier : Nat
  minValidNonce : Nat
  ledgerBalance : Int
deriving DecidableEq

inductive BalanceChangeKind where
  | deposit
  | withdrawal
  | transferOut
  | transferIn
deriving DecidableEq

structure BalanceChange where
  blockNumber : Nat
  txHash : Bytes32
  logIndex : Nat
  address : Address
  kind : BalanceChangeKind
  counterparty : Address
  /-- In tokens; null for transfers. -/
  amount : Option Nat
  internalAmount : Int
  reason : Option Bytes32
deriving DecidableEq

structure Tables where
  base : Projections.Tables
  accounts : List AccountRow
  balanceChanges : List BalanceChange

/-- A row as it is inserted: the columns that are not named take their defaults. -/
def AccountRow.fresh (address : Address) : AccountRow := ⟨address, 0, 0, 0⟩

def ensureAccount (rows : List AccountRow) (address : Address) : List AccountRow :=
  if address ∈ rows.map (·.address) then rows else rows ++ [.fresh address]

/-- `UPDATE "Account" … WHERE "address" = address`. -/
def updateAccount (rows : List AccountRow) (address : Address) (f : AccountRow → AccountRow) : List AccountRow :=
  rows.map fun r => if r.address = address then f r else r

/-- The key that `BalanceChange` is unique under. -/
def BalanceChange.key (r : BalanceChange) : Bytes32 × Nat × Address × BalanceChangeKind :=
  (r.txHash, r.logIndex, r.address, r.kind)

def insertRow (rows : List BalanceChange) (r : BalanceChange) : List BalanceChange :=
  if r.key ∈ rows.map (·.key) then rows else rows ++ [r]

/-! ## Handlers -/

/-- The accounts after an event: three handlers write to them. -/
def projectAccounts (rows : List AccountRow) : Projections.Event → List AccountRow
  | .positionChanged trader _ _ _ _ _ => ensureAccount rows trader
  | .noncesCancelledUpTo owner minNonce => updateAccount (ensureAccount rows owner) owner fun r =>
      { r with minValidNonce := max r.minValidNonce minNonce }
  | .feeTierSet account tier => updateAccount (ensureAccount rows account) account fun r => { r with feeTier := tier }
  | _ => rows

/-- The rows of a vault event.  `PnlApplied` has no handler. -/
def balanceChanges (ev : StoredEvent Event) : VaultEvent → List BalanceChange
  | .deposited payer account amount internalAmount =>
    [⟨ev.blockNumber, ev.txHash, ev.logIndex, account, .deposit, payer, some amount, internalAmount, none⟩]
  | .withdrawn account recipient amount internalAmount =>
    [⟨ev.blockNumber, ev.txHash, ev.logIndex, account, .withdrawal, recipient, some amount, internalAmount, none⟩]
  | .internalTransfer src dst amount reason =>
    let (src, dst, amount) := if amount < 0 then (dst, src, -amount) else (src, dst, amount)
    [⟨ev.blockNumber, ev.txHash, ev.logIndex, src, .transferOut, dst, none, amount, some reason⟩,
      ⟨ev.blockNumber, ev.txHash, ev.logIndex, dst, .transferIn, src, none, amount, some reason⟩]
  | .pnlApplied _ _ _ => []

/-- The event as the handlers outside the vault see it. -/
def asProtocol (ev : StoredEvent Event) (e : Projections.Event) : StoredEvent Projections.Event :=
  ⟨ev.blockNumber, ev.blockHash, ev.blockTimestamp, ev.txHash, ev.logIndex, ev.contract, ev.topic0, e⟩

/-- Applies one event; one that throws aborts the transaction. -/
def applyEvent (now : Int) (t : Tables) (ev : StoredEvent Event) : Option Tables :=
  match ev.event with
  | .vault e => some { t with balanceChanges := (balanceChanges ev e).foldl insertRow t.balanceChanges }
  | .protocol e => (Projections.applyEvent now t.base (asProtocol ev e)).map fun base =>
      { t with base := base, accounts := projectAccounts t.accounts e }

def resetProjections (t : Tables) : Tables where
  base := Projections.resetProjections t.base
  accounts := t.accounts.map fun r => { r with feeTier := 0, minValidNonce := 0 }
  balanceChanges := []

/-- The intake's insert, which makes the owner's row with the order.  A nonce taken by another order fails the whole
statement. -/
def insertOrder (t : Tables) (o : OrderRow) : Tables :=
  if t.base.db.orders.all (·.orderHash ≠ o.orderHash) = true ∧
      t.base.db.orders.any (fun r => r.order.owner = o.order.owner ∧ r.order.nonce = o.order.nonce) = true then t
  else { t with
    base := { t.base with db := Matcher.insertOrder t.base.db o }
    accounts := ensureAccount t.accounts o.order.owner }

/-! ## Runs -/

structure State where
  tables : Tables
  events : List (StoredEvent Event)

inductive Act where
  | index (now : Int) (ev : StoredEvent Event)
  | insertOrder (o : OrderRow)
  /-- Any other statement of the intake and the matcher: none of them names `Account`. -/
  | write (db : Matcher.Db)
  | rebuild (now : Int)

def step (s : State) : Act → Option State
  | .index now ev => (applyEvent now s.tables ev).map fun tables => ⟨tables, s.events ++ [ev]⟩
  | .insertOrder o => some { s with tables := insertOrder s.tables o }
  | .write db => some { s with tables := { s.tables with base := { s.tables.base with db := db } } }
  | .rebuild now => (s.events.foldlM (applyEvent now) (resetProjections s.tables)).map fun tables =>
      { s with tables := tables }

/-- Nothing is indexed, and no account has a row yet. -/
structure State.Empty (s : State) : Prop where
  events : s.events = []
  accounts : s.tables.accounts = []

def machine : Machine State Act := ⟨State.Empty, fun s a t => step s a = some t⟩

/-! ## The keeper -/

/-- `SELECT "address" … LIMIT 50`. -/
def candidates (insurance : Address) (rows : List AccountRow) : List Address :=
  ((rows.filter fun r => decide (r.ledgerBalance < 0 ∧ r.address ≠ insurance)).take 50).map (·.address)

structure BadDebtState where
  positionCount : Nat
  balance : Int
  recordedDebt : Int
  operating : Int

variable (D : Deployment)

def badDebtState (w : World) (trader : Address) : BadDebtState where
  positionCount := Engine.positionCount w trader
  balance := w.vault.balances trader
  recordedDebt := w.insurance.recordedDebt trader
  operating := Insurance.operatingBalance D w

def settleOne (s : World × List Address) (trader : Address) : World × List Address :=
  let st := badDebtState D s.1 trader
  if st.positionCount ≠ 0 ∨ st.balance ≥ 0 then s
  -- Only when something would change: capital to cover it, or a stale record.
  else if st.operating ≤ 0 ∧ st.recordedDebt = -st.balance then s
  else
    match Insurance.settleBadDebt D s.1 trader with
    | .ok (w, _) => (w, s.2 ++ [trader])
    | .error _ => s

def settleBadDebts (rows : List AccountRow) (w : World) : World × List Address :=
  (candidates D.insurance rows).foldl (settleOne D) (w, [])

/-! ## What the events imply -/

/-- A call of the ledger, and the events it emits. -/
inductive Emits : World → List VaultEvent → World → Prop where
  | transferInternal {w w' : World} {caller src dst : Address} {amount : Int}
      (h : Vault.transferInternal w caller src dst amount = .ok w') (reason : Bytes32) :
      Emits w (if amount = 0 ∨ src = dst then [] else [.internalTransfer src dst amount reason]) w'
  | applyPnl {w w' : World} {caller account : Address} {amount : Int}
      (h : Vault.applyPnl D w caller account amount = .ok w') :
      Emits w (if amount = 0 then [] else [.pnlApplied account amount (w'.vault.balances account)]) w'
  | credit {w w' : World} {account : Address} {amount : Nat} (h : Vault.credit D w account amount = .ok w')
      (payer : Address) : Emits w [.deposited payer account amount (amount * Decimals.SCALE)] w'
  | withdrawTo {w w' : World} {msg : Msg} {account recipient : Address} {amount : Nat}
      (h : Vault.withdrawTo D w msg account recipient amount = .ok w') :
      Emits w [.withdrawn account recipient amount (amount * Decimals.SCALE)] w'
  /-- Anything that leaves the balances as they are. -/
  | other {w w' : World} (h : w'.vault.balances = w.vault.balances) : Emits w [] w'

def ledger : Machine World (List VaultEvent) := ⟨fun w => w.vault.balances = fun _ => 0, Emits D⟩

section
variable {D : Deployment} {w w' : World}

theorem withdrawTo_balances {msg : Msg} {account recipient : Address} {amount : Nat}
    (h : Vault.withdrawTo D w msg account recipient amount = .ok w') :
    w'.vault.balances = Book.post w.vault.balances account (-(amount * Decimals.SCALE)) := by
  simp only [Vault.withdrawTo, bind_ok_iff, World.whenNotPaused_ok, revertIf_ok, Decimals.toInternal_ok,
    exists_const] at h
  obtain ⟨-, -, -, _, ⟨-, rfl⟩, -, _, -, w₁, hmove, hpay⟩ := h
  obtain ⟨-, rfl⟩ := usdcTransfer_ok hpay
  obtain rfl := Vault.move_ok hmove
  simp only [Vault.countWithdrawal]
  split <;> rfl

/-- **The events of a call say what it did to the balances.** -/
theorem emits_post {es : List VaultEvent} (h : Emits D w es w') :
    w'.vault.balances = es.foldl VaultEvent.post w.vault.balances := by
  cases h with
  | transferInternal h reason =>
    rw [(Vault.transferInternal_ok h).2]
    split
    · rename_i hnop
      rcases hnop with rfl | rfl
      · exact Book.transfer_zero _ _ _
      · exact Book.transfer_self _ _ _
    · rfl
  | applyPnl h =>
    rw [Vault.applyPnl_ok h]
    split
    · rename_i h0
      rw [h0, Vault.posted_zero]
      rfl
    · rfl
  | credit h payer => exact congrArg Clearing.State.bal (credit_books h).2.2.2
  | withdrawTo h => exact withdrawTo_balances h
  | other h => exact h

theorem ledger_run {ls : List (List VaultEvent)} (h : Run (ledger D) w ls w') :
    w'.vault.balances = ls.flatten.foldl VaultEvent.post w.vault.balances := by
  induction h with
  | nil => rfl
  | snoc _ hl ih => rw [List.flatten_append, List.flatten_singleton, List.foldl_append, ← ih, emits_post hl]

def Event.asVault : Event → Option VaultEvent
  | .vault e => some e
  | .protocol _ => none

theorem foldl_post : ∀ (es : List Event) (b : Address → Int),
    es.foldl Event.post b = (es.filterMap Event.asVault).foldl VaultEvent.post b
  | [], _ => rfl
  | .vault e :: es, b => foldl_post es (e.post b)
  | .protocol _ :: es, b => foldl_post es b

/-- **The balances that the vault's events imply are its balances.** -/
theorem implied_eq {w₀ : World} {ls : List (List VaultEvent)} {events : List (StoredEvent Event)}
    (h₀ : (ledger D).init w₀) (h : Run (ledger D) w₀ ls w)
    (hlog : (events.map (·.event)).filterMap Event.asVault = ls.flatten) : implied events = w.vault.balances := by
  rw [implied, foldl_post, hlog, ledger_run h, h₀]

end

/-! ## What is indexed -/

def Unprojected (rows : List AccountRow) : Prop := ∀ r ∈ rows, r.ledgerBalance = 0

section
variable {rows : List AccountRow} {s s₀ t : State} {now : Int}

theorem Unprojected.ensure (h : Unprojected rows) (address : Address) : Unprojected (ensureAccount rows address) := by
  unfold ensureAccount
  split
  · exact h
  · intro r hr
    rcases List.mem_append.1 hr with hr | hr
    · exact h r hr
    · rw [List.mem_singleton.1 hr]
      rfl

theorem Unprojected.map (h : Unprojected rows) {f : AccountRow → AccountRow}
    (hf : ∀ r, (f r).ledgerBalance = r.ledgerBalance) : Unprojected (rows.map f) := by
  intro r hr
  obtain ⟨r', hr', rfl⟩ := List.mem_map.1 hr
  rw [hf, h r' hr']

theorem Unprojected.update (h : Unprojected rows) (address : Address) {f : AccountRow → AccountRow}
    (hf : ∀ r, (f r).ledgerBalance = r.ledgerBalance) : Unprojected (updateAccount rows address f) := by
  refine h.map fun r => ?_
  split
  · exact hf r
  · rfl

theorem projectAccounts_unprojected (h : Unprojected rows) (e : Projections.Event) :
    Unprojected (projectAccounts rows e) := by
  cases e with
  | positionChanged trader _ _ _ _ _ => exact h.ensure trader
  | noncesCancelledUpTo owner _ => exact (h.ensure owner).update owner fun _ => rfl
  | feeTierSet account _ => exact (h.ensure account).update account fun _ => rfl
  | _ => exact h

theorem applyEvent_unprojected {t t' : Tables} {ev : StoredEvent Event} (h : Unprojected t.accounts)
    (happly : applyEvent now t ev = some t') : Unprojected t'.accounts := by
  unfold applyEvent at happly
  split at happly
  · cases happly
    exact h
  · obtain ⟨base, -, rfl⟩ := Option.map_eq_some_iff.1 happly
    exact projectAccounts_unprojected h _

theorem replay_unprojected : ∀ (events : List (StoredEvent Event)) (t t' : Tables), Unprojected t.accounts →
    events.foldlM (applyEvent now) t = some t' → Unprojected t'.accounts
  | [], t, t', h, hreplay => by
    cases hreplay
    exact h
  | ev :: events, t, t', h, hreplay => by
    rw [List.foldlM_cons] at hreplay
    obtain ⟨u, hu, hrest⟩ := Option.bind_eq_some_iff.1 hreplay
    exact replay_unprojected events u t' (applyEvent_unprojected h hu) hrest

/-- No writer of an account's row names its balance. -/
theorem step_unprojected {a : Act} (h : Unprojected s.tables.accounts) (hstep : step s a = some t) :
    Unprojected t.tables.accounts := by
  cases a with
  | index now ev =>
    obtain ⟨tables, hu, rfl⟩ := Option.map_eq_some_iff.1 hstep
    exact applyEvent_unprojected h hu
  | insertOrder o =>
    cases hstep
    simp only [insertOrder]
    split
    · exact h
    · exact h.ensure _
  | write db =>
    cases hstep
    exact h
  | rebuild now =>
    obtain ⟨tables, hu, rfl⟩ := Option.map_eq_some_iff.1 hstep
    exact replay_unprojected _ _ _ (h.map (f := fun r => { r with feeTier := 0, minValidNonce := 0 }) fun _ => rfl) hu

theorem run_unprojected {as : List Act} (h₀ : s₀.Empty) (h : Run machine s₀ as s) : Unprojected s.tables.accounts :=
  h.preserves (fun s => Unprojected s.tables.accounts) (fun _ _ _ => step_unprojected) (by simp [Unprojected, h₀.accounts])

theorem candidates_nil (h : Unprojected rows) (insurance : Address) : candidates insurance rows = [] := by
  have hnone : rows.filter (fun r => decide (r.ledgerBalance < 0 ∧ r.address ≠ insurance)) = [] := by
    refine List.filter_eq_nil_iff.2 fun r hr => ?_
    simp [h r hr]
  rw [candidates, hnone]
  rfl

theorem settleBadDebts_idle (h : Unprojected rows) (D : Deployment) (w : World) : settleBadDebts D rows w = (w, []) := by
  rw [settleBadDebts, candidates_nil h]
  rfl

end

/-! ## Bad debt is not found -/

/-- A closed-out account in debt that Insurance's operating capital covers. -/
structure InNeed (w : World) (a : Address) : Prop where
  trader : a ≠ D.insurance
  closed : Engine.positionCount w a = 0
  negative : w.vault.balances a < 0
  covered : -w.vault.balances a ≤ Insurance.operatingBalance D w

/-- Every account in need is a candidate, and the balance that selects it is the one the events imply. -/
def Found (w : World) (s : State) : Prop :=
  (∀ a, InNeed D w a → a ∈ candidates D.insurance s.tables.accounts) ∧
    ∀ r ∈ s.tables.accounts, r.ledgerBalance = implied s.events r.address

variable {D}

def start : State where
  tables := ⟨⟨⟨[], fun _ => 0, fun _ => 0, [], []⟩, fun _ => ⟨⟨0, 0, 0, 0⟩, none⟩, fun _ => 0, [], fun _ => none⟩, [], []⟩
  events := []

theorem start_empty : start.Empty := ⟨rfl, rfl⟩

def stored (events : List Event) : List (StoredEvent Event) :=
  events.mapIdx fun i e => ⟨i, 0, 0, Fin.ofNat (2 ^ 256) i, 0, 0, 0, e⟩

def indexed (events : List Event) : Option State :=
  (stored events).foldlM (fun s ev => step s (.index 0 ev)) start

theorem indexed_run {events : List Event} {s : State} (h : indexed events = some s) :
    ∃ as, Run machine start as s := by
  have hgen : ∀ (l : List (StoredEvent Event)) (s t : State), l.foldlM (fun s ev => step s (.index 0 ev)) s = some t →
      ∃ as, Run machine s as t := by
    intro l
    induction l with
    | nil =>
      intro s t h
      cases h
      exact ⟨[], Run.nil⟩
    | cons ev l ih =>
      intro s t h
      rw [List.foldlM_cons] at h
      obtain ⟨u, hu, hrest⟩ := Option.bind_eq_some_iff.1 h
      obtain ⟨as, has⟩ := ih u t hrest
      exact ⟨_, (Run.single hu).append has⟩
  exact hgen _ _ _ h

def after (events : List Event) : State := (indexed events).getD start

theorem after_run {events : List Event} (h : (indexed events).isSome = true) : ∃ as, Run machine start as (after events) := by
  have hsome : indexed events = some (after events) := by
    rw [after]
    cases hs : indexed events with
    | none => simp [hs] at h
    | some s => rfl
  exact indexed_run hsome

/-- A deposit that is withdrawn again, and a floor that makes the account's row. -/
def squared : List Event := [
  .vault (.deposited Sample.alice Sample.alice (1000 * 10 ^ 6) (1000 * 10 ^ 18)),
  .protocol (.noncesCancelledUpTo Sample.alice 5),
  .vault (.withdrawn Sample.alice Sample.alice (1000 * 10 ^ 6) (1000 * 10 ^ 18))]

/-- Alice is liquidated in debt, and then a donation would cover her. -/
def insolvent : List Call :=
  Sample.crashing ++ [Sample.call Sample.carol (.liquidate Sample.alice 1 (10 ^ 30)),
    Sample.call Sample.carol (.donate (700 * 10 ^ 6))]

/-- What `insolvent` emits: markets, deposits, a fill and its fee, a liquidation with its reward and its cover. -/
def insolventLog : List Event := [
  .protocol (.marketListed 1 1), .protocol (.marketParamsSet 1 (Sample.market 1000 500 100)),
  .protocol (.marketListed 2 1), .protocol (.marketParamsSet 2 (Sample.market 1000 500 100)),
  .protocol (.marketFeesSet 1 0 500), .protocol (.marketFeesSet 2 0 500), .protocol (.priceUpdated 1 (100 * 10 ^ 18)),
  .vault (.deposited Sample.alice Sample.alice (1000 * 10 ^ 6) (1000 * 10 ^ 18)),
  .vault (.deposited Sample.bob Sample.bob (1000 * 10 ^ 6) (1000 * 10 ^ 18)),
  .protocol (.positionChanged Sample.alice 1 (80 * 10 ^ 18) (8000 * 10 ^ 18) (100 * 10 ^ 18) 0),
  .protocol (.positionChanged Sample.bob 1 (-(80 * 10 ^ 18)) (-(8000 * 10 ^ 18)) (100 * 10 ^ 18) 0),
  .vault (.internalTransfer Sample.bob Sample.deployment.feeRouter (4 * 10 ^ 18) 1),
  .vault (.internalTransfer Sample.deployment.feeRouter Sample.deployment.insurance (8 * 10 ^ 17) 2),
  .protocol (.fillSettled ⟨1, 1, Sample.alice, Sample.bob, 21, 22, false, 80 * 10 ^ 18, 100 * 10 ^ 18⟩
    ⟨0, 4 * 10 ^ 18, 0, 0⟩),
  .protocol (.priceUpdated 1 (80 * 10 ^ 18)),
  .vault (.pnlApplied Sample.alice (-(1600 * 10 ^ 18)) (-(600 * 10 ^ 18))),
  .protocol (.positionChanged Sample.alice 1 0 0 (80 * 10 ^ 18) (-(1600 * 10 ^ 18))),
  .protocol (.positionChanged Sample.deployment.insurance 1 (80 * 10 ^ 18) (6400 * 10 ^ 18) (80 * 10 ^ 18) 0),
  .vault (.internalTransfer Sample.alice Sample.carol (64 * 10 ^ 18) 3),
  .vault (.internalTransfer Sample.deployment.insurance Sample.alice (8 * 10 ^ 17) 4),
  .vault (.deposited Sample.deployment.insurance Sample.deployment.insurance (700 * 10 ^ 6) (700 * 10 ^ 18))]

def parties : List Address :=
  [Sample.alice, Sample.bob, Sample.carol, Sample.deployment.feeRouter, Sample.deployment.insurance]

end Kryon.BadDebtKeeper
