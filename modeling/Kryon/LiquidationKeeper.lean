import Kryon.PauseReverts
import Kryon.Sample
/-!
# LiquidationKeeper — what a tick of the liquidation keeper sends

A tick reads the health of every trader with an open position, selects the most under water (`selectCandidates`), and
liquidates each on the market of its largest notional (`pickLiquidationMarket`) until it is healthy.  A revert ends the
account's turn and leaves no record, so the next tick tries the same market: over a run of ticks the account is
liquidated if and only if its largest market can be (`keeper_liquidates_iff`).
-/
namespace Kryon.LiquidationKeeper

open Program Transition

/-! ## Selection -/

structure Candidate where
  trader : Address
  health : AccountHealth
  /-- Maintenance less equity, positive for every liquidatable account. -/
  shortfall : Int

structure Selection where
  liquidatable : List Candidate
  blocked : List Address
  healthy : Nat

def candidateOf : Address × Option AccountHealth → Option Candidate
  | (trader, some h) =>
    if h.liquidatable = true then some ⟨trader, h, h.maintenanceMarginRequired - h.equity⟩ else none
  | (_, none) => none

/-- The liquidatable accounts, the most under water first; those without a readable health are blocked. -/
def selectCandidates (health : List (Address × Option AccountHealth)) (maxAccounts : Nat) : Selection where
  liquidatable := ((health.filterMap candidateOf).insertionSort fun a b => a.shortfall ≥ b.shortfall).take maxAccounts
  blocked := (health.filter fun h => h.2.isNone).map (·.1)
  healthy := (health.filter fun h => h.2.any fun h => !h.liquidatable).length

structure OpenPosition where
  marketId : MarketId
  size : Int
  openNotional : Int
deriving DecidableEq

def notionalAt (index : MarketId → Int) (p : OpenPosition) : Int := (|p.size| * index p.marketId).tdiv PRECISION

/-- One turn of the pick: the first position of the largest notional so far. -/
def consider (index : MarketId → Int) (best : Option (MarketId × Int)) (p : OpenPosition) : Option (MarketId × Int) :=
  if p.size = 0 then best
  else
    match best with
    | some (_, largest) => if notionalAt index p > largest then some (p.marketId, notionalAt index p) else best
    | none => some (p.marketId, notionalAt index p)

/-- The position to liquidate first: the largest notional at the index. -/
def pickLiquidationMarket (positions : List OpenPosition) (index : MarketId → Int) : Option MarketId :=
  (positions.foldl (consider index) none).map (·.1)

inductive LiqRevertClass where
  | healthy
  | oracle
  | paused
  | noPosition
  | noShortfall
  | notInProfit
  | unknown
deriving DecidableEq

def classifyLiquidationRevert : Error → LiqRevertClass
  | .notLiquidatable | .invalidAmount | .liquidationWouldNotImproveHealth => .healthy
  | .staleOracle | .oracleConfidenceTooWide | .invalidPrice => .oracle
  | .enforcedPause | .executionPaused => .paused
  | .positionNotFound | .hasOpenPositions => .noPosition
  | .noBadDebtToOffset => .noShortfall
  | .positionNotInProfit | .directionMismatch => .notInProfit
  | _ => .unknown

/-! ## The chain -/

/-- Nothing where the read reverts. -/
def healthOf (w : World) (a : Address) : Option AccountHealth :=
  match Engine.accountHealth w a with
  | .ok h => some h
  | .error _ => none

def positionsOf (w : World) (a : Address) : List OpenPosition :=
  (Bitmap.marketIds (w.engine.marketBitmap a)).map fun m =>
    let p := w.engine.positions (a, m)
    ⟨m, p.size, p.openNotional⟩

/-- Zero where the read reverts. -/
def indexPrice (w : World) (m : MarketId) : Int :=
  match Engine.indexPrice w m with
  | .ok price => price
  | .error _ => 0

def pickOf (w : World) (a : Address) : Option MarketId := pickLiquidationMarket (positionsOf w a) (indexPrice w)

/-! ## The keeper -/

structure LiquidationOptions where
  maxAccountsPerTick : Nat
  maxStepsPerAccount : Nat

structure Attempt where
  trader : Address
  marketId : MarketId
  succeeded : Bool
deriving DecidableEq

/-- What is left of a turn or a tick; no `still` where the protocol paused meanwhile. -/
structure Outcome where
  world : World
  attempts : List Attempt
  still : Option Bool

variable (D : Deployment) (msg : Msg)

/-- The turn of one account, with the steps it has left. -/
def liquidateAccount (trader : Address) : Nat → World → Option AccountHealth → Outcome
  | 0, w, health => ⟨w, [], some (health.any (·.liquidatable))⟩
  | steps + 1, w, health =>
    if health.any (·.liquidatable) = false then ⟨w, [], some false⟩
    else
      match pickOf w trader with
      | none => ⟨w, [], some true⟩
      | some marketId =>
        match Liquidation.liquidate D w msg trader marketId U256_MAX with
        | .error e =>
          -- any other revert ends the turn as well
          if classifyLiquidationRevert e = .paused then ⟨w, [⟨trader, marketId, false⟩], none⟩
          else ⟨w, [⟨trader, marketId, false⟩], some true⟩
        | .ok w' =>
          let rest := liquidateAccount trader steps w' (healthOf w' trader)
          { rest with attempts := ⟨trader, marketId, true⟩ :: rest.attempts }

/-- The turns of the candidates; a pause stops them. -/
def liquidateAll (steps : Nat) : List Candidate → World → Outcome
  | [], w => ⟨w, [], some false⟩
  | c :: cs, w =>
    let turn := liquidateAccount D msg c.trader steps w (some c.health)
    if turn.still = none then turn
    else
      let rest := liquidateAll steps cs turn.world
      { rest with attempts := turn.attempts ++ rest.attempts }

structure TickStart where
  world : World
  /-- With an open position in the indexer's table, each once. -/
  traders : List Address
  distinct : traders.Nodup
  /-- A transaction of an earlier tick is still open. -/
  inFlight : Bool

def protocolPaused (w : World) : Bool := w.paused .engine || w.paused .liquidation || w.paused .insurance

/-- The accounts that a tick turns to, in order.  A paused protocol and an open transaction leave it idle. -/
def candidates (o : LiquidationOptions) (t : TickStart) : List Candidate :=
  if (protocolPaused t.world || t.inFlight) = true then []
  else (selectCandidates (t.traders.map fun a => (a, healthOf t.world a)) o.maxAccountsPerTick).liquidatable

def tick (o : LiquidationOptions) (t : TickStart) : Outcome :=
  liquidateAll D msg o.maxStepsPerAccount (candidates o t) t.world

def Liquidates (o : LiquidationOptions) (t : TickStart) (a : Address) : Prop :=
  ∃ x ∈ (tick D msg o t).attempts, x.trader = a ∧ x.succeeded = true

def Selected (o : LiquidationOptions) (t : TickStart) (a : Address) : Prop :=
  a ∈ (candidates o t).map (·.trader)

/-- The chain when the turn of `a` comes, if it comes. -/
def turnOf (steps : Nat) (a : Address) : List Candidate → World → Option World
  | [], _ => none
  | c :: cs, w =>
    if c.trader = a then some w
    else
      let turn := liquidateAccount D msg c.trader steps w (some c.health)
      if turn.still = none then none else turnOf steps a cs turn.world

/-! ## The pick -/

/-- `m` is the market of the largest notional at the index, the first of them on a tie. -/
def Largest (positions : List OpenPosition) (index : MarketId → Int) (m : MarketId) : Prop :=
  ∃ pre p post, positions = pre ++ p :: post ∧ p.marketId = m ∧ p.size ≠ 0 ∧
    (∀ q ∈ pre, q.size ≠ 0 → notionalAt index q < notionalAt index p) ∧
    ∀ q ∈ post, q.size ≠ 0 → notionalAt index q ≤ notionalAt index p

/-- The first position of the largest notional in `l`, above every notional of `best`. -/
def FirstLargest (index : MarketId → Int) (best : Option (MarketId × Int)) (l : List OpenPosition) (m : MarketId)
    (n : Int) : Prop :=
  ∃ pre p post, l = pre ++ p :: post ∧ p.marketId = m ∧ notionalAt index p = n ∧ p.size ≠ 0 ∧
    (∀ b ∈ best, b.2 < n) ∧ (∀ q ∈ pre, q.size ≠ 0 → notionalAt index q < n) ∧
    ∀ q ∈ post, q.size ≠ 0 → notionalAt index q ≤ n

theorem firstLargest_cons {index : MarketId → Int} {best : Option (MarketId × Int)} {p : OpenPosition}
    {l : List OpenPosition} {m : MarketId} {n : Int} :
    FirstLargest index best (p :: l) m n ↔
      (p.marketId = m ∧ notionalAt index p = n ∧ p.size ≠ 0 ∧ (∀ b ∈ best, b.2 < n) ∧
        ∀ q ∈ l, q.size ≠ 0 → notionalAt index q ≤ n) ∨
      ((p.size ≠ 0 → notionalAt index p < n) ∧ FirstLargest index best l m n) := by
  constructor
  · rintro ⟨pre, q, post, hl, hm, hn, hq, hbest, hpre, hpost⟩
    cases pre with
    | nil =>
      simp only [List.nil_append, List.cons.injEq] at hl
      obtain ⟨rfl, rfl⟩ := hl
      exact Or.inl ⟨hm, hn, hq, hbest, hpost⟩
    | cons x pre =>
      simp only [List.cons_append, List.cons.injEq] at hl
      obtain ⟨rfl, rfl⟩ := hl
      rw [List.forall_mem_cons] at hpre
      exact Or.inr ⟨hpre.1, pre, q, post, rfl, hm, hn, hq, hbest, hpre.2, hpost⟩
  · rintro (⟨hm, hn, hp, hbest, hl⟩ | ⟨hp, pre, q, post, rfl, hm, hn, hq, hbest, hpre, hpost⟩)
    · exact ⟨[], p, l, rfl, hm, hn, hp, hbest, by simp, hl⟩
    · exact ⟨p :: pre, q, post, rfl, hm, hn, hq, hbest, List.forall_mem_cons.2 ⟨hp, hpre⟩, hpost⟩

theorem firstLargest_some {i : MarketId → Int} {p : OpenPosition} {b : Option (MarketId × Int)}
    {l : List OpenPosition} {m : MarketId} {n : Int} (hx : ∀ b' ∈ b, b'.2 ≤ notionalAt i p) :
    FirstLargest i (some (p.marketId, notionalAt i p)) l m n ↔ FirstLargest i b l m n ∧ notionalAt i p < n := by
  constructor
  · rintro ⟨pre, q, post, hl, hm, hn, hq, hbest, hrest⟩
    have hxn := hbest _ rfl
    exact ⟨⟨pre, q, post, hl, hm, hn, hq, fun b hb => lt_of_le_of_lt (hx b hb) hxn, hrest⟩, hxn⟩
  · rintro ⟨⟨pre, q, post, hl, hm, hn, hq, -, hrest⟩, hxn⟩
    exact ⟨pre, q, post, hl, hm, hn, hq, by simpa using hxn, hrest⟩

theorem foldl_consider (index : MarketId → Int) :
    ∀ (l : List OpenPosition) (best : Option (MarketId × Int)) (m : MarketId) (n : Int),
      l.foldl (consider index) best = some (m, n) ↔
        (best = some (m, n) ∧ ∀ q ∈ l, q.size ≠ 0 → notionalAt index q ≤ n) ∨ FirstLargest index best l m n
  | [], best, m, n => by simp [FirstLargest]
  | p :: l, best, m, n => by
    rw [List.foldl_cons, foldl_consider index l, firstLargest_cons, List.forall_mem_cons]
    by_cases hp : p.size = 0
    · simp [consider, hp]
    cases best with
    | none =>
      have hsome := firstLargest_some (p := p) (l := l) (m := m) (n := n) (b := none) (i := index) (by simp)
      simp only [consider, hp, if_false]
      grind
    | some b =>
      have hbest : (∀ b' ∈ some b, b'.2 < n) ↔ b.2 < n := by simp
      by_cases hlt : notionalAt index p > b.2
      · have hsome := firstLargest_some (p := p) (l := l) (m := m) (n := n) (b := some b) (i := index) (by simp; omega)
        simp only [consider, hp, if_false, if_pos hlt, hsome, hbest]
        grind
      · have habove : FirstLargest index (some b) l m n → b.2 < n := fun ⟨_, _, _, _, _, _, _, hb, _⟩ => hb _ rfl
        simp only [consider, hp, if_false, if_neg hlt, hbest]
        grind

theorem pick_iff {positions : List OpenPosition} {index : MarketId → Int} {m : MarketId} :
    pickLiquidationMarket positions index = some m ↔ Largest positions index m := by
  simp only [pickLiquidationMarket, Option.map_eq_some_iff, Prod.exists, exists_and_right, exists_eq_right,
    foldl_consider, reduceCtorEq, false_and, false_or]
  constructor
  · rintro ⟨n, pre, p, post, hl, hm, rfl, hp, -, hrest⟩
    exact ⟨pre, p, post, hl, hm, hp, hrest⟩
  · rintro ⟨pre, p, post, hl, hm, hp, hrest⟩
    exact ⟨_, pre, p, post, hl, hm, rfl, hp, by simp, hrest⟩

/-! ## Turns -/

section
variable {D : Deployment} {msg : Msg}

/-- What a turn that starts at a world can come to. -/
inductive Turn (D : Deployment) (msg : Msg) (trader : Address) : World → Outcome → Prop where
  | stop {w : World} (still : Bool) : Turn D msg trader w ⟨w, [], some still⟩
  | revert {w : World} {m : MarketId} {e : Error} (hcall : Liquidation.liquidate D w msg trader m U256_MAX = .error e)
      (hclass : classifyLiquidationRevert e ≠ .paused) : Turn D msg trader w ⟨w, [⟨trader, m, false⟩], some true⟩
  | paused {w : World} {m : MarketId} {e : Error} (hcall : Liquidation.liquidate D w msg trader m U256_MAX = .error e)
      (hclass : classifyLiquidationRevert e = .paused) : Turn D msg trader w ⟨w, [⟨trader, m, false⟩], none⟩
  | step {w w' : World} {m : MarketId} {rest : Outcome}
      (hcall : Liquidation.liquidate D w msg trader m U256_MAX = .ok w') (hrest : Turn D msg trader w' rest) :
      Turn D msg trader w { rest with attempts := ⟨trader, m, true⟩ :: rest.attempts }

theorem liquidateAccount_turn {trader : Address} :
    ∀ (steps : Nat) (w : World) (health : Option AccountHealth),
      Turn D msg trader w (liquidateAccount D msg trader steps w health)
  | 0, w, health => Turn.stop _
  | steps + 1, w, health => by
    rw [liquidateAccount]
    split
    · exact Turn.stop false
    split
    · exact Turn.stop true
    split
    · rename_i e hcall
      split
      · rename_i hclass
        exact Turn.paused hcall hclass
      · rename_i hclass
        exact Turn.revert hcall hclass
    · rename_i w' hcall
      exact Turn.step hcall (liquidateAccount_turn steps w' _)

theorem Turn.trader {a : Address} {w : World} {out : Outcome} (h : Turn D msg a w out) : ∀ x ∈ out.attempts, x.trader = a := by
  induction h with
  | stop _ => simp
  | revert _ _ => simp
  | paused _ _ => simp
  | step _ _ ih => exact List.forall_mem_cons.2 ⟨rfl, ih⟩

theorem Turn.idle {a : Address} {w : World} {out : Outcome} (h : Turn D msg a w out)
    (hfailed : ∀ x ∈ out.attempts, x.succeeded = false) : out.world = w := by
  cases h with
  | stop _ => rfl
  | revert _ _ => rfl
  | paused _ _ => rfl
  | step _ _ => exact absurd (hfailed _ List.mem_cons_self) (by simp)

theorem Turn.pauses {a : Address} {w : World} {out : Outcome} (h : Turn D msg a w out) : out.world.paused = w.paused := by
  induction h with
  | stop _ => rfl
  | revert _ _ => rfl
  | paused _ _ => rfl
  | step hcall _ ih => exact ih.trans (liquidate_paused hcall)

theorem classify_paused {e : Error} : classifyLiquidationRevert e = .paused ↔ ¬ e.Unpaused := by
  cases e <;> simp [classifyLiquidationRevert, Error.Unpaused]

/-- While nothing is paused, no turn reports a pause. -/
theorem Turn.still {a : Address} {w : World} {out : Outcome} (h : Turn D msg a w out) (hrun : Running w) :
    out.still ≠ none := by
  induction h with
  | stop _ => simp
  | revert _ _ => simp
  | paused hcall hclass => exact absurd (liquidate_reverts hrun _ _ _ _ _ hcall) (classify_paused.1 hclass)
  | step hcall _ ih => exact ih (hrun.congr (liquidate_paused hcall))

/-- **A turn liquidates if and only if its first call does.** -/
theorem liquidateAccount_iff {trader : Address} {steps : Nat} {w : World} {health : Option AccountHealth}
    (hliq : health.any (·.liquidatable) = true) :
    (∃ x ∈ (liquidateAccount D msg trader steps w health).attempts, x.succeeded = true) ↔
      0 < steps ∧ ∃ m, pickOf w trader = some m ∧
        (Liquidation.liquidate D w msg trader m U256_MAX).isOk = true := by
  cases steps with
  | zero => simp [liquidateAccount]
  | succ steps =>
    rw [liquidateAccount, if_neg (by simp [hliq])]
    cases hpick : pickOf w trader with
    | none => simp
    | some m =>
      cases hcall : Liquidation.liquidate D w msg trader m U256_MAX with
      | error e =>
        simp only [hcall]
        split <;> simp [hcall, Except.isOk, Except.toBool]
      | ok w' => simp [hcall, Except.isOk, Except.toBool]

/-! ## Ticks -/

theorem liquidateAll_trader {steps : Nat} :
    ∀ (cs : List Candidate) (w : World), ∀ x ∈ (liquidateAll D msg steps cs w).attempts, x.trader ∈ cs.map (·.trader)
  | [], w => by simp [liquidateAll]
  | c :: cs, w => by
    have hturn : ∀ x ∈ (liquidateAccount D msg c.trader steps w (some c.health)).attempts, x.trader = c.trader :=
      (liquidateAccount_turn steps w _).trader
    intro x hx
    rw [liquidateAll] at hx
    rw [List.map_cons, List.mem_cons]
    split at hx
    · exact Or.inl (hturn x hx)
    · rcases List.mem_append.1 hx with hx | hx
      · exact Or.inl (hturn x hx)
      · exact Or.inr (liquidateAll_trader cs _ x hx)

/-- **An account is liquidated if and only if its turn comes and the first call of it succeeds.** -/
theorem liquidateAll_iff {steps : Nat} {a : Address} :
    ∀ (cs : List Candidate) (w : World), (cs.map (·.trader)).Nodup → (∀ c ∈ cs, c.health.liquidatable = true) →
      ((∃ x ∈ (liquidateAll D msg steps cs w).attempts, x.trader = a ∧ x.succeeded = true) ↔
        0 < steps ∧ ∃ u, turnOf D msg steps a cs w = some u ∧ ∃ m, pickOf u a = some m ∧
          (Liquidation.liquidate D u msg a m U256_MAX).isOk = true)
  | [], w, _, _ => by simp [liquidateAll, turnOf]
  | c :: cs, w, hnodup, hliq => by
    rw [List.map_cons, List.nodup_cons] at hnodup
    rw [List.forall_mem_cons] at hliq
    have hown : ∀ x ∈ (liquidateAccount D msg c.trader steps w (some c.health)).attempts, x.trader = c.trader :=
      (liquidateAccount_turn steps w _).trader
    have hfirst : (∃ x ∈ (liquidateAccount D msg c.trader steps w (some c.health)).attempts, x.succeeded = true) ↔
        0 < steps ∧ ∃ m, pickOf w c.trader = some m ∧
          (Liquidation.liquidate D w msg c.trader m U256_MAX).isOk = true :=
      liquidateAccount_iff hliq.1
    have hrest : ∀ x ∈ (liquidateAll D msg steps cs (liquidateAccount D msg c.trader steps w
        (some c.health)).world).attempts, x.trader ∈ cs.map (·.trader) :=
      liquidateAll_trader cs _
    by_cases ha : c.trader = a
    · -- The turn of `a`: no later attempt is its own.
      subst ha
      simp only [turnOf, if_true, Option.some.injEq, exists_eq_left', ← hfirst, liquidateAll]
      split
      · exact ⟨fun ⟨x, hx, _, hs⟩ => ⟨x, hx, hs⟩, fun ⟨x, hx, hs⟩ => ⟨x, hx, hown x hx, hs⟩⟩
      · constructor
        · rintro ⟨x, hx, ht, hs⟩
          rcases List.mem_append.1 hx with hx | hx
          · exact ⟨x, hx, hs⟩
          · exact absurd (ht ▸ hrest x hx) hnodup.1
        · rintro ⟨x, hx, hs⟩
          exact ⟨x, List.mem_append_left _ hx, hown x hx, hs⟩
    · simp only [turnOf, if_neg ha, liquidateAll]
      split
      · refine ⟨fun ⟨x, hx, ht, _⟩ => absurd ((hown x hx).symm.trans ht) ha, ?_⟩
        rintro ⟨-, u, hu, -⟩
        cases hu
      · rw [← liquidateAll_iff cs _ hnodup.2 hliq.2]
        constructor
        · rintro ⟨x, hx, ht, hs⟩
          rcases List.mem_append.1 hx with hx | hx
          · exact absurd ((hown x hx).symm.trans ht) ha
          · exact ⟨x, hx, ht, hs⟩
        · rintro ⟨x, hx, hs⟩
          exact ⟨x, List.mem_append_right _ hx, hs⟩

theorem turnOf_selected {steps : Nat} {a : Address} :
    ∀ (cs : List Candidate) (w u : World), turnOf D msg steps a cs w = some u → a ∈ cs.map (·.trader)
  | [], w, u, h => by simp [turnOf] at h
  | c :: cs, w, u, h => by
    simp only [turnOf] at h
    rw [List.map_cons, List.mem_cons]
    split at h
    · rename_i ha
      exact Or.inl ha.symm
    · split at h
      · cases h
      · exact Or.inr (turnOf_selected cs _ u h)

/-- While nothing is paused, the turn of every selected account comes. -/
theorem turnOf_running {steps : Nat} {a : Address} :
    ∀ (cs : List Candidate) (w : World), Running w → a ∈ cs.map (·.trader) → ∃ u, turnOf D msg steps a cs w = some u
  | [], w, _, h => by simp at h
  | c :: cs, w, hrun, h => by
    rw [turnOf]
    split
    · exact ⟨w, rfl⟩
    · rename_i ha
      rw [List.map_cons, List.mem_cons] at h
      have hturn : Turn D msg c.trader w (liquidateAccount D msg c.trader steps w (some c.health)) :=
        liquidateAccount_turn steps w _
      rw [if_neg (hturn.still hrun)]
      exact turnOf_running cs _ (hrun.congr hturn.pauses) (h.resolve_left fun he => ha he.symm)

theorem liquidateAll_idle {steps : Nat} :
    ∀ (cs : List Candidate) (w : World), (∀ x ∈ (liquidateAll D msg steps cs w).attempts, x.succeeded = false) →
      (liquidateAll D msg steps cs w).world = w
  | [], w, _ => rfl
  | c :: cs, w, h => by
    rw [liquidateAll] at h ⊢
    split
    · rename_i hstop
      rw [if_pos hstop] at h
      exact (liquidateAccount_turn steps w _).idle h
    · rename_i hgo
      rw [if_neg hgo] at h
      have hturn : (liquidateAccount D msg c.trader steps w (some c.health)).world = w :=
        (liquidateAccount_turn steps w _).idle fun x hx => h x (List.mem_append_left _ hx)
      exact (liquidateAll_idle cs _ fun x hx => h x (List.mem_append_right _ hx)).trans hturn

theorem candidateOf_some {a : Address} {h : Option AccountHealth} {c : Candidate} (hc : candidateOf (a, h) = some c) :
    c.trader = a ∧ c.health.liquidatable = true := by
  cases h with
  | none => simp [candidateOf] at hc
  | some h =>
    simp only [candidateOf] at hc
    split at hc
    · rename_i hliq
      cases hc
      exact ⟨rfl, hliq⟩
    · cases hc

variable {o : LiquidationOptions} {t : TickStart} {a : Address}

theorem candidates_sound (o : LiquidationOptions) (t : TickStart) :
    ((candidates o t).map (·.trader)).Nodup ∧ ∀ c ∈ candidates o t, c.health.liquidatable = true := by
  unfold candidates
  split
  · simp
  set found := (t.traders.map fun a => (a, healthOf t.world a)).filterMap candidateOf with hfound
  have hperm := List.perm_insertionSort (fun a b : Candidate => a.shortfall ≥ b.shortfall) found
  have hsub := List.take_sublist o.maxAccountsPerTick (found.insertionSort fun a b => a.shortfall ≥ b.shortfall)
  have hnodup : (found.map (·.trader)).Nodup := by
    rw [hfound, List.filterMap_map, List.map_filterMap]
    refine t.distinct.filterMap fun a b c ha hb => ?_
    simp only [Function.comp, Option.mem_def, Option.map_eq_some_iff] at ha hb
    obtain ⟨x, hx, rfl⟩ := ha
    obtain ⟨y, hy, hxy⟩ := hb
    rw [← (candidateOf_some hx).1, ← (candidateOf_some hy).1, hxy]
  refine ⟨(hsub.map _).nodup ((hperm.map _).nodup_iff.2 hnodup), fun c hc => ?_⟩
  have hc := hperm.subset (hsub.subset hc)
  simp only [hfound, List.mem_filterMap, List.mem_map, exists_exists_and_eq_and] at hc
  obtain ⟨a, -, hc⟩ := hc
  exact (candidateOf_some hc).2

/-- **A tick liquidates an account if and only if its turn comes and the market of its largest notional is liquidated
then.** -/
theorem tick_liquidates_iff :
    Liquidates D msg o t a ↔ 0 < o.maxStepsPerAccount ∧
      ∃ u, turnOf D msg o.maxStepsPerAccount a (candidates o t) t.world = some u ∧
        ∃ m, Largest (positionsOf u a) (indexPrice u) m ∧
          (Liquidation.liquidate D u msg a m U256_MAX).isOk = true := by
  obtain ⟨hnodup, hliq⟩ := candidates_sound o t
  simp only [Liquidates, tick, liquidateAll_iff _ _ hnodup hliq, pickOf, pick_iff]

theorem tick_idle (h : ∀ x ∈ (tick D msg o t).attempts, x.succeeded = false) : (tick D msg o t).world = t.world :=
  liquidateAll_idle _ _ h

/-! ## Runs of ticks -/

/-- Nothing that the liquidation of `a` depends on has changed from `w` to `u`. -/
structure Unchanged (D : Deployment) (msg : Msg) (a : Address) (w u : World) : Prop where
  positions : positionsOf u a = positionsOf w a
  prices : indexPrice u = indexPrice w
  outcome : ∀ m, (Liquidation.liquidate D u msg a m U256_MAX).isOk = (Liquidation.liquidate D w msg a m U256_MAX).isOk

theorem Unchanged.refl (w : World) : Unchanged D msg a w w := ⟨rfl, rfl, fun _ => rfl⟩

/-- **What `a` depends on stays as it is in `w`, until the keeper itself liquidates `a`.** -/
def Undisturbed (D : Deployment) (msg : Msg) (o : LiquidationOptions) (a : Address) (w : World) (ts : List TickStart) :
    Prop :=
  ∀ pre t post, ts = pre ++ t :: post → (∀ s ∈ pre, ¬ Liquidates D msg o s a) →
    Unchanged D msg a w t.world ∧
      ∀ u, turnOf D msg o.maxStepsPerAccount a (candidates o t) t.world = some u → Unchanged D msg a w u

theorem Undisturbed.tail {w : World} {ts : List TickStart} (h : Undisturbed D msg o a w (t :: ts))
    (ht : ¬ Liquidates D msg o t a) : Undisturbed D msg o a w ts := by
  intro pre s post hts hpre
  exact h (t :: pre) s post (by rw [hts]; rfl) (List.forall_mem_cons.2 ⟨ht, hpre⟩)

/-- A selection is made of a running protocol; the vault runs wherever a liquidation succeeds. -/
theorem running_of_selected {m : MarketId} (hsel : Selected o t a)
    (hok : (Liquidation.liquidate D t.world msg a m U256_MAX).isOk = true) : Running t.world := by
  obtain ⟨w', hw'⟩ := ok_of_isOk hok
  unfold Selected candidates at hsel
  split at hsel
  · simp at hsel
  rename_i hgo
  simp only [protocolPaused, Bool.or_eq_true, not_or, Bool.not_eq_true] at hgo
  exact ⟨hgo.1.1.1, hgo.1.1.2, hgo.1.2, liquidate_vault hw'⟩

theorem unchanged_liquidates_iff {w : World} (hstart : Unchanged D msg a w t.world)
    (hturn : ∀ u, turnOf D msg o.maxStepsPerAccount a (candidates o t) t.world = some u → Unchanged D msg a w u) :
    Liquidates D msg o t a ↔ 0 < o.maxStepsPerAccount ∧ Selected o t a ∧
      ∃ m, Largest (positionsOf w a) (indexPrice w) m ∧ (Liquidation.liquidate D w msg a m U256_MAX).isOk = true := by
  rw [tick_liquidates_iff]
  constructor
  · rintro ⟨hsteps, u, hu, m, hm, hok⟩
    obtain ⟨hpos, hprices, hout⟩ := hturn u hu
    exact ⟨hsteps, turnOf_selected _ _ _ hu, m, hpos ▸ hprices ▸ hm, (hout m).symm.trans hok⟩
  · rintro ⟨hsteps, hsel, m, hm, hok⟩
    have hrun := running_of_selected hsel ((hstart.outcome m).trans hok)
    obtain ⟨u, hu⟩ : ∃ u, turnOf D msg o.maxStepsPerAccount a (candidates o t) t.world = some u :=
      turnOf_running _ _ hrun hsel
    obtain ⟨hpos, hprices, hout⟩ := hturn u hu
    exact ⟨hsteps, u, hu, m, by rwa [hpos, hprices], (hout m).trans hok⟩

/-- **In a run of ticks that leaves an account alone, the keeper liquidates it if and only if some tick selects it and
the market of its largest notional can be liquidated**; that another of its markets can be is of no use. -/
theorem keeper_liquidates_iff {w : World} {ts : List TickStart} (h : Undisturbed D msg o a w ts) :
    (∃ t ∈ ts, Liquidates D msg o t a) ↔ 0 < o.maxStepsPerAccount ∧ (∃ t ∈ ts, Selected o t a) ∧
      ∃ m, Largest (positionsOf w a) (indexPrice w) m ∧ (Liquidation.liquidate D w msg a m U256_MAX).isOk = true := by
  induction ts with
  | nil => simp
  | cons t ts ih =>
    obtain ⟨hstart, hturn⟩ := h [] t ts rfl (by simp)
    have htick := unchanged_liquidates_iff hstart hturn
    simp only [List.exists_mem_cons_iff]
    by_cases ht : Liquidates D msg o t a
    · obtain ⟨hsteps, hsel, hm⟩ := htick.1 ht
      exact ⟨fun _ => ⟨hsteps, Or.inl hsel, hm⟩, fun _ => Or.inl ht⟩
    · have hrest := ih (h.tail ht)
      constructor
      · rintro (hl | hl)
        · exact absurd hl ht
        · obtain ⟨hsteps, hsel, hm⟩ := hrest.1 hl
          exact ⟨hsteps, Or.inr hsel, hm⟩
      · rintro ⟨hsteps, hsel | hsel, hm⟩
        · exact absurd (htick.2 ⟨hsteps, hsel, hm⟩) ht
        · exact Or.inr (hrest.2 ⟨hsteps, hsel, hm⟩)

/-- Ticks that start on the same chain and turn to `a` first are undisturbed. -/
theorem undisturbed_replicate (hfirst : ((candidates o t).map (·.trader)).head? = some a) (n : Nat) :
    Undisturbed D msg o a t.world (List.replicate n t) := by
  intro pre s post hts _
  have hs : s ∈ List.replicate n t := by simp [hts]
  rw [List.eq_of_mem_replicate hs]
  refine ⟨Unchanged.refl _, fun u hu => ?_⟩
  cases hc : candidates o t with
  | nil => simp [hc] at hfirst
  | cons c cs =>
    rw [hc, List.map_cons, List.head?_cons, Option.some.injEq] at hfirst
    simp only [hc, turnOf, hfirst, if_true, Option.some.injEq] at hu
    exact hu ▸ Unchanged.refl _

end

/-! ## Runs -/

/-- A tick of Carol's keeper, on the traders of the samples. -/
def sampleTick (w : World) : TickStart := ⟨w, [Sample.alice, Sample.bob], by decide, false⟩

def keeper : Msg := (Sample.call Sample.carol .claimTreasury).msg

/-- Alice, whose loss exceeds her deposit, is liquidated in one tick. -/
theorem keeper_liquidates_iff_crashing :
    ∃ t ∈ List.replicate 1 (sampleTick (Sample.outcome Sample.crashing)),
      Liquidates Sample.deployment keeper ⟨10, 5⟩ t Sample.alice :=
  (keeper_liquidates_iff (undisturbed_replicate (by decide +kernel) 1)).2
    ⟨by decide, ⟨_, List.mem_replicate.2 ⟨by decide, rfl⟩, show Sample.alice ∈ _ by decide +kernel⟩, 1,
      pick_iff.1 (by decide +kernel), by decide +kernel⟩

/-- Alice is long in two markets, the larger of which is liquidated for a penalty of its whole maintenance. -/
def stuck : List Call :=
  Sample.configure (Sample.market 1000 500 500) (100 * 10 ^ 18) ++
    [Sample.call Sample.admin (.config (.setMarket 2 (Sample.market 1000 500 100))),
      Sample.call Sample.alice (.deposit (195 * 10 ^ 5)), Sample.call Sample.bob (.deposit (1000 * 10 ^ 6)),
      Sample.settle [Sample.fill Sample.alice Sample.bob 1 (10 ^ 18) (100 * 10 ^ 18) 1],
      Sample.settle [Sample.fill Sample.alice Sample.bob 2 (9 * 10 ^ 17) (100 * 10 ^ 18) 2],
      Sample.call Sample.admin (.wait 10), Sample.push (934 * 10 ^ 17) 1010]

/-- **The keeper gives up on a liquidatable account**: it tries Alice's larger market, which reverts as one that would
not improve her health, in every tick, and never the market that could be liquidated. -/
theorem keeper_stuck :
    let w := Sample.outcome stuck
    Reachable (machine Sample.deployment Sample.env) w ∧
      (healthOf w Sample.alice).any (·.liquidatable) = true ∧ Engine.positionCount w Sample.alice = 2 ∧
      (Liquidation.liquidate Sample.deployment w keeper Sample.alice 2 U256_MAX).isOk = true ∧
      (tick Sample.deployment keeper ⟨10, 5⟩ (sampleTick w)).attempts = [⟨Sample.alice, 1, false⟩] ∧
      (tick Sample.deployment keeper ⟨10, 5⟩ (sampleTick w)).world = w ∧
      ∀ n, Undisturbed Sample.deployment keeper ⟨10, 5⟩ Sample.alice w (List.replicate n (sampleTick w)) ∧
        ¬ ∃ t ∈ List.replicate n (sampleTick w), Liquidates Sample.deployment keeper ⟨10, 5⟩ t Sample.alice := by
  intro w
  have hattempts : (tick Sample.deployment keeper ⟨10, 5⟩ (sampleTick w)).attempts = [⟨Sample.alice, 1, false⟩] := by
    decide +kernel
  refine ⟨Sample.outcome_reachable _, by decide +kernel, by decide +kernel, by decide +kernel, hattempts,
    tick_idle (by simp [hattempts]), fun n => ⟨undisturbed_replicate (by decide +kernel) n, ?_⟩⟩
  rintro ⟨t, ht, x, hx, -, hs⟩
  rw [List.eq_of_mem_replicate ht, hattempts, List.mem_singleton] at hx
  rw [hx] at hs
  cases hs

end Kryon.LiquidationKeeper
