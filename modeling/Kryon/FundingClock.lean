import Kryon.MarkTwap
/-!
# FundingClock — the time a funding update charges for

A funding update charges for the time since the last one, up to an hour, at a premium averaged over the mark's window.
The two start together, except in a market's first window when a funding update came before the first fill (`Behind`):
the funding clock then started at that update and the window at the fill.
-/
namespace Kryon

open Program Transition
open MarketClock

variable {D : Deployment} {env : Env} {w w' w₀ v : World} {l : Label} {ls : List Label} {m : MarketId} {start : Nat}

/-- The time a funding update charges for: none in a market that never traded, whose premium is zero. -/
def chargedPeriod (m : MarketId) (w : World) : Nat :=
  let f := w.engine.funding m
  let since := if f.lastUpdate = 0 then w.timestamp else f.lastUpdate
  if standing m w ≤ 0 then 0 else Nat.min (w.timestamp - since) FundingLib.MAX_FUNDING_ELAPSED_SECS

/-- The length of the window a funding update averages the price over. -/
def averagedPeriod (m : MarketId) (w : World) : Nat := w.timestamp - (w.engine.marks m).windowStart

/-- A step is the first fill of a market whose funding clock started at an earlier time. -/
def StartsBehind (m : MarketId) (w : World) (l : Label) : Prop :=
  ¬ (clock m w).Traded ∧ tradedPrices m l.settled ≠ [] ∧ (clock m w).lastUpdate ≠ 0 ∧
    (clock m w).lastUpdate ≠ w.timestamp

/-- A run is in the market's first window, which opened at `start` behind its funding clock. -/
inductive Behind (D : Deployment) (env : Env) (m : MarketId) (w₀ : World) : List Label → World → Nat → Prop where
  | opened {ls : List Label} {v u : World} {l : Label} (h : Run (machine D env) w₀ ls v)
      (hl : (machine D env).step v l u) (ho : StartsBehind m v l) : Behind D env m w₀ (ls ++ [l]) u v.timestamp
  | kept {ls : List Label} {v u : World} {l : Label} {start : Nat} (h : Behind D env m w₀ ls v start)
      (hl : (machine D env).step v l u) (hn : l.call.tx ≠ .updateFunding m) : Behind D env m w₀ (ls ++ [l]) u start

/-! ## The charge -/

theorem clamp_zero {hi : Int} (h : 0 < hi) : M.clamp 0 (-hi) hi = 0 := by
  unfold M.clamp
  rw [if_neg (by omega), if_neg (by omega)]

theorem updateFromPremium_charges {cfg : FundingConfig} {state next : FundingState} {premium : Int} {now : Nat}
    (h : FundingLib.updateFromPremium cfg state premium now = .ok next) :
    let elapsed := Nat.min (now - state.lastUpdate) FundingLib.MAX_FUNDING_ELAPSED_SECS
    let δ := (next.ratePerHour * elapsed).tdiv M.SECS_PER_HOUR
    next.longIndex = state.longIndex + δ ∧ next.shortIndex = state.shortIndex - δ ∧ (premium = 0 → δ = 0) := by
  simp only [FundingLib.updateFromPremium, bind_ok_iff, revertIf_ok, exists_const] at h
  obtain ⟨hcfg, h⟩ := h
  split at h
  · rename_i hnow
    rw [pure_ok] at h
    have hzero : Nat.min (now - state.lastUpdate) FundingLib.MAX_FUNDING_ELAPSED_SECS = 0 := by
      rw [Nat.sub_eq_zero_of_le hnow]
      rfl
    subst h
    simp [hzero]
  · simp only [bind_ok_iff, pure_ok, M.add_ok, M.sub_ok, M.mulDiv_ok, M.mulPrecision_ok] at h
    obtain ⟨raw, ⟨-, hraw⟩, δ, ⟨-, hδ⟩, _, ⟨-, rfl⟩, _, ⟨-, rfl⟩, rfl⟩ := h
    refine ⟨by rw [← hδ], by rw [← hδ], fun hp => ?_⟩
    have hzero : raw = 0 := by
      rw [← hraw, hp, zero_mul]
      rfl
    show (M.clamp raw (-cfg.maxRatePerHour) cfg.maxRatePerHour * _).tdiv _ = 0
    rw [hzero, clamp_zero (by omega), zero_mul]
    rfl

/-- **A funding update moves the indexes by its rate over the time it charges for.** -/
theorem updateFunding_charges {msg : Msg} (h : Engine.updateFunding w msg m = .ok w') :
    let δ := ((w'.engine.funding m).ratePerHour * chargedPeriod m w).tdiv M.SECS_PER_HOUR
    (w'.engine.funding m).longIndex = (w.engine.funding m).longIndex + δ ∧
      (w'.engine.funding m).shortIndex = (w.engine.funding m).shortIndex - δ := by
  simp only [Engine.updateFunding, bind_ok_iff, World.onlyRole_ok, World.whenNotPaused_ok, M.bound128_ok, pure_ok,
    exists_const] at h
  obtain ⟨-, -, p, -, ⟨w₁, mark⟩, htwap, premium, hpremium, next, hnext, _, ⟨-, rfl⟩, _, ⟨-, rfl⟩, _, ⟨-, rfl⟩, rfl⟩ := h
  obtain rfl := consumeTwap_mark htwap
  obtain ⟨hlong, hshort, hfree⟩ := updateFromPremium_charges hnext
  unfold chargedPeriod
  simp only [Function.update_self]
  by_cases hc : standing m w ≤ 0
  · have hmark : mark = 0 := untraded_consumes (not_lt.2 hc) htwap
    rw [hmark, if_neg (lt_irrefl 0), pure_ok] at hpremium
    have hδ := hfree hpremium.symm
    rw [hδ] at hlong hshort
    rw [if_pos hc, Nat.cast_zero, mul_zero, Int.zero_tdiv, hlong, hshort]
    split <;> exact ⟨rfl, rfl⟩
  · rw [if_neg hc]
    split at hlong
    · rename_i hzero
      rw [if_pos hzero] at hshort
      rw [if_pos hzero]
      exact ⟨hlong, hshort⟩
    · rename_i hzero
      rw [if_neg hzero] at hshort
      rw [if_neg hzero]
      exact ⟨hlong, hshort⟩

/-! ## The two clocks of a run -/

theorem observedAll_lastUpdate (now : Nat) {c : MarketClock} (hc : c.Traded) {prices : List Int}
    (hp : ∀ p ∈ prices, 0 < p) : (prices.foldl (observed now) c).lastUpdate = c.lastUpdate ∧
      (prices.foldl (observed now) c).mark.windowStart = c.mark.windowStart := by
  induction prices generalizing c with
  | nil => exact ⟨rfl, rfl⟩
  | cons p prices ih =>
    rw [List.forall_mem_cons] at hp
    have hkept : (observed now c p).lastUpdate = c.lastUpdate ∧
        (observed now c p).mark.windowStart = c.mark.windowStart := by
      unfold observed
      rw [if_neg (not_le.2 hc)]
      exact ⟨rfl, rfl⟩
    obtain ⟨hlast, hstart⟩ := ih (observed_traded hp.1) hp.2
    exact ⟨hlast.trans hkept.1, hstart.trans hkept.2⟩

theorem firstFill_clock (now : Nat) {c : MarketClock} (hc : ¬ c.Traded) {p : Int} {prices : List Int}
    (hp : ∀ q ∈ p :: prices, 0 < q) :
    ((p :: prices).foldl (observed now) c).lastUpdate = (if c.lastUpdate = 0 then now else c.lastUpdate) ∧
      ((p :: prices).foldl (observed now) c).mark.windowStart = now := by
  rw [List.forall_mem_cons] at hp
  obtain ⟨hlast, hstart⟩ := observedAll_lastUpdate now (observed_traded (c := c) hp.1) hp.2
  have hfirst : observed now c p = ⟨⟨p, now, 0, now⟩, if c.lastUpdate = 0 then now else c.lastUpdate⟩ := by
    unfold observed
    rw [if_pos (not_lt.1 hc)]
  rw [List.foldl_cons, hlast, hstart, hfirst]
  exact ⟨rfl, rfl⟩

/-- In a market that trades the clocks started together, or it is in a first window behind its funding clock. -/
inductive Started (D : Deployment) (env : Env) (m : MarketId) (w₀ : World) (ls : List Label) (w : World) : Prop where
  | untraded (hc : ¬ (clock m w).Traded)
  | together (hc : (clock m w).Traded) (heq : (clock m w).lastUpdate = (clock m w).mark.windowStart)
  | behind (hc : (clock m w).Traded) (hb : Behind D env m w₀ ls w (clock m w).mark.windowStart)

theorem Started.kept (h : Started D env m w₀ ls w) (hl : (machine D env).step w l w')
    (hn : l.call.tx ≠ .updateFunding m) (hlast : (clock m w').lastUpdate = (clock m w).lastUpdate)
    (hstart : (clock m w').mark.windowStart = (clock m w).mark.windowStart)
    (hc : (clock m w').Traded ↔ (clock m w).Traded) : Started D env m w₀ (ls ++ [l]) w' := by
  cases h with
  | untraded h => exact .untraded fun ht => h (hc.1 ht)
  | together h heq => exact .together (hc.2 h) (by rw [hlast, hstart, heq])
  | behind h hb => exact .behind (hc.2 h) (hstart ▸ hb.kept hl hn)

theorem observedAll_traded {now : Nat} {c : MarketClock} (hc : c.Traded) {prices : List Int}
    (hp : ∀ p ∈ prices, 0 < p) : (prices.foldl (observed now) c).Traded := by
  induction prices generalizing c with
  | nil => exact hc
  | cons p prices ih =>
    rw [List.forall_mem_cons] at hp
    exact ih (observed_traded hp.1) hp.2

/-- **What starts a market's two clocks**, over a run. -/
theorem run_started (hw₀ : Genesis D w₀) (h : Run (machine D env) w₀ ls w) : Started D env m w₀ ls w := by
  induction h with
  | nil =>
    refine .untraded fun hc => ?_
    have hpos : 0 < (w₀.engine.marks m).lastPrice := hc
    rw [hw₀.engine] at hpos
    exact absurd hpos (lt_irrefl 0)
  | @snoc v w ls l hr hl ih =>
    cases reachable_ticks ⟨w₀, ls, hw₀, hr⟩ hl m with
    | passed hn _ _ hclock =>
      exact ih.kept hl hn (by rw [hclock]) (by rw [hclock]) (by rw [hclock])
    | charged _ _ _ _ hclock =>
      by_cases hc : (clock m v).Traded
      · have hupdated : clock m w = ⟨⟨standing m v, v.timestamp, 0, v.timestamp⟩, v.timestamp⟩ := by
          rw [hclock]
          exact congrArg₂ MarketClock.mk (if_neg (not_le.2 hc)) rfl
        refine .together ?_ ?_
        · rw [hupdated]
          exact hc
        · rw [hupdated]
      · refine .untraded ?_
        rw [hclock]
        unfold updated
        rw [if_pos (not_lt.1 hc)]
        exact hc
    | traded hn _ hprices hclock =>
      by_cases hc : (clock m v).Traded
      · obtain ⟨hlast, hstart⟩ := observedAll_lastUpdate v.timestamp hc hprices
        rw [← hclock] at hlast hstart
        refine ih.kept hl hn hlast hstart ⟨fun _ => hc, fun _ => ?_⟩
        rw [hclock]
        exact observedAll_traded hc hprices
      · cases hsome : tradedPrices m l.settled with
        | nil =>
          rw [hsome] at hclock
          have hsame : clock m w = clock m v := hclock
          exact ih.kept hl hn (by rw [hsame]) (by rw [hsame]) (by rw [hsame])
        | cons p prices =>
          rw [hsome] at hprices hclock
          obtain ⟨hlast, hstart⟩ := firstFill_clock v.timestamp hc hprices
          rw [← hclock] at hlast hstart
          have htraded : (clock m w).Traded := by
            rw [hclock, List.foldl_cons]
            rw [List.forall_mem_cons] at hprices
            exact observedAll_traded (observed_traded hprices.1) hprices.2
          by_cases hbehind : (clock m v).lastUpdate ≠ 0 ∧ (clock m v).lastUpdate ≠ v.timestamp
          · refine .behind htraded ?_
            rw [hstart]
            exact .opened hr hl ⟨hc, by rw [hsome]; exact List.cons_ne_nil p prices, hbehind⟩
          · refine .together htraded ?_
            rw [hlast, hstart]
            split
            · rfl
            · rename_i hne
              by_contra hne'
              exact hbehind ⟨hne, hne'⟩

/-- A first window behind its funding clock stays so until the next funding update. -/
theorem Behind.started (hw₀ : Genesis D w₀) (h : Behind D env m w₀ ls w start) :
    Run (machine D env) w₀ ls w ∧ (clock m w).Traded ∧ (clock m w).mark.windowStart = start ∧
      (clock m w).lastUpdate ≠ 0 ∧ (clock m w).lastUpdate < start := by
  induction h with
  | @opened ls v u l hr hl ho =>
    refine ⟨hr.snoc hl, ?_⟩
    obtain ⟨hc, hfills, hstarted, hearlier⟩ := ho
    have hlt : (clock m v).lastUpdate < v.timestamp :=
      lt_of_le_of_ne (reachable_soundClocks ⟨w₀, ls, hw₀, hr⟩ m).lastUpdate_le hearlier
    cases reachable_ticks ⟨w₀, ls, hw₀, hr⟩ hl m with
    | charged _ _ hsettled _ _ =>
      rw [hsettled] at hfills
      exact absurd rfl hfills
    | passed _ hsettled _ _ =>
      rw [hsettled] at hfills
      exact absurd rfl hfills
    | traded _ _ hprices hclock =>
      cases hsome : tradedPrices m l.settled with
      | nil => exact absurd hsome hfills
      | cons p prices =>
        rw [hsome] at hprices hclock
        obtain ⟨hlast, hstart⟩ := firstFill_clock v.timestamp hc hprices
        rw [← hclock] at hlast hstart
        rw [if_neg hstarted] at hlast
        refine ⟨?_, hstart, ?_, ?_⟩
        · rw [hclock, List.foldl_cons]
          rw [List.forall_mem_cons] at hprices
          exact observedAll_traded (observed_traded hprices.1) hprices.2
        · rw [hlast]
          exact hstarted
        · rw [hlast]
          exact hlt
  | @kept ls v u l start _ hl hn ih =>
    obtain ⟨hr, hc, hstart, hstarted, hlt⟩ := ih
    refine ⟨hr.snoc hl, ?_⟩
    cases reachable_ticks ⟨w₀, ls, hw₀, hr⟩ hl m with
    | charged hl' _ _ _ _ => exact absurd hl' hn
    | passed _ _ _ hclock =>
      rw [hclock]
      exact ⟨hc, hstart, hstarted, hlt⟩
    | traded _ _ hprices hclock =>
      obtain ⟨hlast', hstart'⟩ := observedAll_lastUpdate v.timestamp hc hprices
      rw [← hclock] at hlast' hstart'
      rw [hlast', hstart']
      refine ⟨?_, hstart, hstarted, hlt⟩
      rw [hclock]
      exact observedAll_traded hc hprices

/-- A window opens after the last time the market had not traded. -/
theorem run_windowStart (hw₀ : Genesis D w₀) {ls' : List Label} (hr : Run (machine D env) w₀ ls v)
    (hc : ¬ (clock m v).Traded) (h : Run (machine D env) v ls' w) : v.timestamp ≤ w.timestamp ∧
      ((clock m w).Traded → v.timestamp ≤ (clock m w).mark.windowStart) := by
  induction h with
  | nil => exact ⟨le_refl _, fun ht => absurd ht hc⟩
  | @snoc u w ls' l hr' hl ih =>
    obtain ⟨hle, hwindow⟩ := ih
    have hticks := reachable_ticks ⟨w₀, ls ++ ls', hw₀, hr.append hr'⟩ hl m
    refine ⟨hle.trans hticks.timestamp_le, fun ht => ?_⟩
    cases hticks with
    | passed _ _ _ hclock =>
      rw [hclock] at ht ⊢
      exact hwindow ht
    | charged _ _ _ _ hclock =>
      rw [hclock] at ht ⊢
      unfold updated Traded at ht
      unfold updated
      by_cases hc' : (clock m u).mark.lastPrice ≤ 0
      · rw [if_pos hc'] at ht
        exact absurd ht (not_lt.2 hc')
      · rw [if_neg hc']
        exact hle
    | traded _ _ hprices hclock =>
      by_cases hc' : (clock m u).Traded
      · rw [hclock, (observedAll_lastUpdate _ hc' hprices).2]
        exact hwindow hc'
      · cases hsome : tradedPrices m l.settled with
        | nil =>
          rw [hsome] at hclock
          rw [hclock] at ht
          exact absurd ht hc'
        | cons p prices =>
          rw [hsome] at hprices hclock
          rw [hclock, (firstFill_clock _ hc' hprices).2]
          exact hle

/-! ## Priced time -/

theorem chargedPeriod_traded (hc : (clock m w).Traded) (hne : (w.engine.funding m).lastUpdate ≠ 0) :
    chargedPeriod m w =
      Nat.min (w.timestamp - (w.engine.funding m).lastUpdate) FundingLib.MAX_FUNDING_ELAPSED_SECS := by
  have hpos : ¬ standing m w ≤ 0 := not_le.2 hc
  unfold chargedPeriod
  simp only
  rw [if_neg hpos, if_neg hne]

/-- **A funding update charges at most an hour and at most for the window it read**, unless the market's first window
opened behind its funding clock less than an hour ago. -/
theorem charged_priced (hw₀ : Genesis D w₀) (hr : Run (machine D env) w₀ ls w) :
    chargedPeriod m w ≤ Nat.min FundingLib.MAX_FUNDING_ELAPSED_SECS (averagedPeriod m w) ↔
      ∀ start, Behind D env m w₀ ls w start → FundingLib.MAX_FUNDING_ELAPSED_SECS ≤ w.timestamp - start := by
  have hcap : chargedPeriod m w ≤ FundingLib.MAX_FUNDING_ELAPSED_SECS := by
    unfold chargedPeriod
    simp only
    split
    · exact Nat.zero_le _
    · exact Nat.min_le_right _ _
  have hsplit : chargedPeriod m w ≤ Nat.min FundingLib.MAX_FUNDING_ELAPSED_SECS (averagedPeriod m w) ↔
      chargedPeriod m w ≤ averagedPeriod m w := by
    constructor
    · intro h
      exact h.trans (Nat.min_le_right _ _)
    · intro h
      exact Nat.le_min.2 ⟨hcap, h⟩
  have hs := reachable_soundClocks ⟨w₀, ls, hw₀, hr⟩ m
  rw [hsplit]
  cases run_started (m := m) hw₀ hr with
  | untraded hc =>
    have hfree : chargedPeriod m w = 0 := if_pos (not_lt.1 hc)
    rw [hfree]
    exact ⟨fun _ start hb => absurd (hb.started hw₀).2.1 hc, fun _ => Nat.zero_le _⟩
  | together hc heq =>
    obtain ⟨hpos, -, -, -⟩ := hs.window hc
    constructor
    · intro _ start hb
      obtain ⟨-, -, hstart, -, hlt⟩ := hb.started hw₀
      omega
    · intro _
      have hlast : (w.engine.funding m).lastUpdate = (w.engine.marks m).windowStart := heq
      have hne : (w.engine.funding m).lastUpdate ≠ 0 := by
        rw [hlast]
        exact Nat.ne_of_gt hpos
      rw [chargedPeriod_traded hc hne, hlast]
      exact Nat.min_le_left _ _
  | behind hc hb =>
    obtain ⟨-, -, -, hstarted, hlt⟩ := hb.started hw₀
    obtain ⟨-, hstart, hlast, -⟩ := hs.window hc
    have hle : (w.engine.marks m).windowStart ≤ w.timestamp := hstart.trans hlast
    have hlt' : (w.engine.funding m).lastUpdate < (w.engine.marks m).windowStart := hlt
    rw [chargedPeriod_traded hc hstarted]
    unfold averagedPeriod
    constructor
    · intro h start hb'
      obtain ⟨-, -, hwindow, -, -⟩ := hb'.started hw₀
      have hwindow' : (w.engine.marks m).windowStart = start := hwindow
      rw [← hwindow']
      by_contra hshort
      have hlonger : w.timestamp - (w.engine.marks m).windowStart < w.timestamp - (w.engine.funding m).lastUpdate := by
        omega
      exact absurd h (not_le.2 (Nat.lt_min.2 ⟨hlonger, not_le.1 hshort⟩))
    · intro h
      exact (Nat.min_le_right _ _).trans (h _ hb)

/-- **Funding is charged for priced time exactly when the market's first window did not just open behind its funding
clock.**  Every funding update moves the indexes by its rate over the time it charges for.  That time is at most an
hour and at most the window the update read, and none of it is before the market's first fill, unless a funding update
came at an earlier time than the market's first fill, which was less than an hour ago. -/
theorem funding_priced (D : Deployment) (env : Env) (m : MarketId) (w₀ w w' : World) (ls : List Label) (msg : Msg)
    (hw₀ : Genesis D w₀) (hr : Run (machine D env) w₀ ls w) (h : Engine.updateFunding w msg m = .ok w') :
    let δ := ((w'.engine.funding m).ratePerHour * chargedPeriod m w).tdiv M.SECS_PER_HOUR
    ((w'.engine.funding m).longIndex = (w.engine.funding m).longIndex + δ ∧
      (w'.engine.funding m).shortIndex = (w.engine.funding m).shortIndex - δ) ∧
    ((chargedPeriod m w ≤ Nat.min FundingLib.MAX_FUNDING_ELAPSED_SECS (averagedPeriod m w) ∧
        ∀ ls₁ ls₂ v, ls = ls₁ ++ ls₂ → Run (machine D env) w₀ ls₁ v → Run (machine D env) v ls₂ w →
          standing m v ≤ 0 → v.timestamp + chargedPeriod m w ≤ w.timestamp) ↔
      ∀ start, Behind D env m w₀ ls w start → FundingLib.MAX_FUNDING_ELAPSED_SECS ≤ w.timestamp - start) := by
  refine ⟨updateFunding_charges h, ?_⟩
  rw [← charged_priced hw₀ hr]
  constructor
  · exact fun hpriced => hpriced.1
  · intro hpriced
    refine ⟨hpriced, fun ls₁ ls₂ v _ hr₁ hr₂ hv => ?_⟩
    obtain ⟨hle, hwindow⟩ := run_windowStart hw₀ hr₁ (not_lt.2 hv) hr₂
    by_cases hc : (clock m w).Traded
    · have hcharged : chargedPeriod m w ≤ averagedPeriod m w := hpriced.trans (Nat.min_le_right _ _)
      have hstart : v.timestamp ≤ (w.engine.marks m).windowStart := hwindow hc
      unfold averagedPeriod at hcharged
      omega
    · have hfree : chargedPeriod m w = 0 := if_pos (not_lt.1 hc)
      rw [hfree]
      exact hle

theorem funding_priced_poked : ∃ w', Engine.updateFunding (Sample.outcome Sample.poked)
      (Sample.call Sample.admin (.updateFunding 1)).msg 1 = .ok w' ∧
    ¬ ∀ start, Behind Sample.deployment Sample.env 1 Sample.genesis
        (trace Sample.deployment Sample.env Sample.genesis Sample.poked) (Sample.outcome Sample.poked) start →
      FundingLib.MAX_FUNDING_ELAPSED_SECS ≤ (Sample.outcome Sample.poked).timestamp - start := by
  obtain ⟨w', hw'⟩ := ok_of_isOk (x := Engine.updateFunding (Sample.outcome Sample.poked)
    (Sample.call Sample.admin (.updateFunding 1)).msg 1) (by decide +kernel)
  have hr := Sample.outcome_run Sample.poked (by decide +kernel)
  refine ⟨w', hw', fun hbehind => ?_⟩
  have hpriced := ((funding_priced _ _ 1 _ _ w' _ _ Sample.genesis_ok hr hw').2.2 hbehind).1
  exact absurd hpriced (by decide +kernel)

/-- The update after `poked` charges an hour at the average of one second. -/
theorem funding_unpriced : ¬ ∀ (D : Deployment) (env : Env) (m : MarketId) (w₀ w w' : World) (ls : List Label)
    (msg : Msg), Genesis D w₀ → Run (machine D env) w₀ ls w → Engine.updateFunding w msg m = .ok w' →
      chargedPeriod m w ≤ Nat.min FundingLib.MAX_FUNDING_ELAPSED_SECS (averagedPeriod m w) := by
  intro hall
  obtain ⟨w', hw'⟩ := ok_of_isOk (x := Engine.updateFunding (Sample.outcome Sample.poked)
    (Sample.call Sample.admin (.updateFunding 1)).msg 1) (by decide +kernel)
  have hr := Sample.outcome_run Sample.poked (by decide +kernel)
  exact absurd (hall _ _ 1 _ _ w' _ _ Sample.genesis_ok hr hw') (by decide +kernel)

end Kryon
