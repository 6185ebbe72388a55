import Kryon.History
import Kryon.Lib.Tally
import Kryon.Sample
/-!
# Orders — one order for each nonce, filled within its size, limit and lifetime

A nonce's word is a tally (`orderTally`): its first fill binds it to the order's digest prefix, and every later one must
bring the same prefix and is counted up to the order's size.  Cancels are never undone, so a cancelled nonce or one below
the minimum settles no more.
-/
namespace Kryon

open Program Transition
open OrderGateway

variable {D : Deployment} {env : Env} {w w' : World} {msg : Msg}

/-! ## The tally -/

/-- What a nonce's word says: the digest prefix it is bound to and the amount filled. -/
def boundSlot (state : Nat) : Option (Nat × Nat) := if state = 0 then none else some (state >>> 128, state % 2 ^ 128)

def orderTally (s : GatewayStorage) : Tally.State (Address × Nat) Nat := fun key => boundSlot (s.orderState key)

def orderEntry (env : Env) (o : Order) (size : Nat) : Tally.Entry (Address × Nat) Nat where
  key := (o.owner, o.nonce)
  tag := digestPrefix (env.hashOrder o)
  amount := size
  cap := o.size

/-- The two orders of a settled fill. -/
def OrderGateway.Settled.orders (x : Settled) : List Order := [x.settlement.fill.maker, x.settlement.fill.taker]

def OrderGateway.Settled.entries (env : Env) (x : Settled) : List (Tally.Entry (Address × Nat) Nat) :=
  x.orders.map fun o => orderEntry env o x.settlement.fill.size

def entries (env : Env) (settled : List Settled) : List (Tally.Entry (Address × Nat) Nat) :=
  settled.flatMap (Settled.entries env)

theorem boundState_slot {state amount : Nat} (digest : Bytes32) (h0 : amount ≠ 0)
    (hfits : state % 2 ^ 128 + amount < 2 ^ 128) :
    boundSlot (boundState state digest amount) = some (digestPrefix digest, state % 2 ^ 128 + amount) := by
  have hor : boundState state digest amount = digestPrefix digest <<< 128 + (state % 2 ^ 128 + amount) :=
    (Nat.shiftLeft_add_eq_or_of_lt hfits _).symm
  rw [hor, Nat.shiftLeft_eq, boundSlot, Nat.shiftRight_eq_div_pow, if_neg (by omega)]
  congr 2
  · omega
  · omega

/-- **A consumed order is one entry of the tally.** -/
theorem consume_tally {wallet : Address → Bytes32 → Bytes → Bool} {o : Order} {signature : Bytes}
    {fillSize fillPrice : Nat} (h0 : fillSize ≠ 0)
    (h : consume D env w msg wallet o (env.hashOrder o) signature fillSize fillPrice = .ok w') :
    Tally.Step (orderTally w.gateway) (orderEntry env o fillSize) (orderTally w'.gateway) := by
  obtain ⟨hc, rfl⟩ := consume_ok h
  have hfits := hc.fits
  have hsize := hc.size
  have hbound := hc.bound
  simp only [filled, orderPrefixForNonce] at hfits hsize hbound
  generalize hstate : w.gateway.orderState (o.owner, o.nonce) = state at hfits hsize hbound
  have hafter : orderTally (withOrderState w (o.owner, o.nonce) (boundState state (env.hashOrder o) fillSize)).gateway =
      Function.update (orderTally w.gateway) (orderEntry env o fillSize).key
        (some ((orderEntry env o fillSize).tag, state % 2 ^ 128 + fillSize)) := by
    rw [orderEntry, ← boundState_slot (env.hashOrder o) h0 hfits]
    exact Book.map_update boundSlot w.gateway.orderState (o.owner, o.nonce) _
  rw [hafter]
  by_cases hz : state = 0
  · have hnone : orderTally w.gateway (orderEntry env o fillSize).key = none := by
      simp only [orderTally, orderEntry, hstate, boundSlot, hz, if_true]
    rw [hz, Nat.zero_mod, zero_add] at hsize ⊢
    exact Tally.Step.bind hnone hsize
  · have hsome : orderTally w.gateway (orderEntry env o fillSize).key =
        some ((orderEntry env o fillSize).tag, state % 2 ^ 128) := by
      simp only [orderTally, orderEntry, hstate, boundSlot, if_neg hz, hbound hz]
    exact Tally.Step.count hsome hsize

theorem settlesOne_gateway {wallet : Address → Bytes32 → Bytes → Bool} {f : Fill} {st : Settlement}
    {w₁ w₂ w₃ : World} (hs : SettlesOne D env w msg wallet f st w₁ w₂ w₃ w') : w'.gateway = w₂.gateway := by
  obtain ⟨u, hu⟩ := backstopHook_frame hs.hook
  rw [(apply_clears hs.market hs.opposite hs.applied).1.gateway, hu]

variable {settled : List Settled} {l : Label} {ls : List Label}

theorem settleOne_counts {wallet : Address → Bytes32 → Bytes → Bool} {x : Settled}
    {es : List (Tally.Entry (Address × Nat) Nat)} (hc : Tally.Counts (orderTally x.before.gateway) es)
    (h : settleOne D env x.before msg wallet x.settlement.fill = .ok (x.after, x.settlement)) :
    Tally.Counts (orderTally x.after.gateway) (es ++ x.entries env) := by
  obtain ⟨w₁, w₂, w₃, hs⟩ := settleOne_ok h
  have hmaker := Tally.step_counts hc (consume_tally hs.size hs.maker)
  have htaker := Tally.step_counts hmaker (consume_tally hs.size hs.taker)
  rw [← settlesOne_gateway hs, List.append_assoc] at htaker
  exact htaker

theorem chain_counts (h : Chain D env msg w settled w') : ∀ es, Tally.Counts (orderTally w.gateway) es →
    Tally.Counts (orderTally w'.gateway) (es ++ entries env settled) := by
  induction h with
  | nil w =>
    intro es hc
    rwa [entries, List.flatMap_nil, List.append_nil]
  | cons wallet h _ ih =>
    intro es hc
    rw [entries, List.flatMap_cons, ← List.append_assoc]
    exact ih _ (settleOne_counts hc h)

/-! ## Transactions -/

/-- Cancels are kept: no cancelled nonce is revived and no minimum nonce moves down. -/
structure KeepsCancels (w w' : World) : Prop where
  cancelled : ∀ k, w.gateway.cancelled k = true → w'.gateway.cancelled k = true
  minNonce : ∀ a, w.gateway.minNonce a ≤ w'.gateway.minNonce a

theorem KeepsCancels.of_eq (hc : w'.gateway.cancelled = w.gateway.cancelled)
    (hn : w'.gateway.minNonce = w.gateway.minNonce) : KeepsCancels w w' :=
  ⟨fun k h => by rwa [hc], fun a => by rw [hn]⟩

theorem KeepsCancels.refl (w : World) : KeepsCancels w w := .of_eq rfl rfl

theorem KeepsCancels.trans {w₁ w₂ w₃ : World} (h : KeepsCancels w₁ w₂) (h' : KeepsCancels w₂ w₃) :
    KeepsCancels w₁ w₃ :=
  ⟨fun k hk => h'.cancelled k (h.cancelled k hk), fun a => (h.minNonce a).trans (h'.minNonce a)⟩

theorem chain_keepsCancels (h : Chain D env msg w settled w') : KeepsCancels w w' := by
  refine h.relates KeepsCancels KeepsCancels.refl (fun _ _ _ => KeepsCancels.trans) ?_
  intro w wallet f w' st hone
  obtain ⟨w₁, w₂, w₃, hs⟩ := settleOne_ok hone
  have hgateway := settlesOne_gateway hs
  obtain ⟨-, rfl⟩ := consume_ok hs.maker
  obtain ⟨-, rfl⟩ := consume_ok hs.taker
  exact .of_eq (by rw [hgateway]; rfl) (by rw [hgateway]; rfl)

theorem step_keepsCancels (h : (machine D env).step w l w') : KeepsCancels w w' := by
  have heffect := exec_effect h.1 h.2
  generalize l.call.tx = tx at heffect
  generalize l.settled = settled at heffect
  cases heffect with
  | configured h =>
    have hgateway := (execConfig_configures _ _ h).gateway
    exact .of_eq (by rw [hgateway]) (by rw [hgateway])
  | charged _ h => exact .of_eq (by rw [h.gateway]) (by rw [h.gateway])
  | settled h => exact chain_keepsCancels h
  | cancelled cancelled minNonce hc hn => exact ⟨hc, hn⟩
  | staked _ h _ => exact .of_eq (by rw [h.gateway]; rfl) (by rw [h.gateway]; rfl)
  | outside _ _ => exact .of_eq rfl rfl

/-- **Every step counts the fills it settles.** -/
theorem step_counts {es : List (Tally.Entry (Address × Nat) Nat)} (hc : Tally.Counts (orderTally w.gateway) es)
    (h : (machine D env).step w l w') : Tally.Counts (orderTally w'.gateway) (es ++ entries env l.settled) := by
  have heffect := exec_effect h.1 h.2
  have hsame : ∀ {w' : World}, w'.gateway.orderState = w.gateway.orderState →
      Tally.Counts (orderTally w'.gateway) (es ++ entries env []) := by
    intro w' heq
    have htally : orderTally w'.gateway = orderTally w.gateway := by
      funext key
      simp only [orderTally, heq]
    rw [entries, List.flatMap_nil, List.append_nil, htally]
    exact hc
  generalize l.call.tx = tx at heffect
  generalize l.settled = settled at heffect ⊢
  cases heffect with
  | configured h => exact hsame (by rw [(execConfig_configures _ _ h).gateway])
  | charged _ h => exact hsame (by rw [h.gateway])
  | settled h => exact chain_counts h es hc
  | cancelled _ _ _ _ => exact hsame rfl
  | staked _ h _ => exact hsame (by rw [h.gateway]; rfl)
  | outside _ _ => exact hsame rfl

/-! ## Runs -/

/-- **A run from the genesis counts the fills it settles.** -/
theorem run_counts {w₀ : World} (h₀ : Genesis D w₀) (h : Run (machine D env) w₀ ls w) :
    Tally.Counts (orderTally w.gateway) (entries env (history ls)) := by
  induction h with
  | nil =>
    have hnone : orderTally w₀.gateway = fun _ => none := by
      rw [h₀.gateway]
      rfl
    rw [hnone]
    exact Tally.counts_nil
  | snoc _ hl ih =>
    have hstep := step_counts ih hl
    rw [history_snoc, entries, List.flatMap_append]
    exact hstep

theorem run_keepsCancels (h : Run (machine D env) w ls w') : KeepsCancels w w' :=
  h.preserves (KeepsCancels w) (fun _ _ _ hk hl => hk.trans (step_keepsCancels hl)) (.refl w)

/-- A fill of a run settled with every cancel made before the run in place. -/
theorem history_settled (h : Run (machine D env) w ls w') {x : Settled} (hx : x ∈ history ls) :
    KeepsCancels w x.before ∧ ∃ msg wallet,
      settleOne D env x.before msg wallet x.settlement.fill = .ok (x.after, x.settlement) := by
  obtain ⟨pre, post, hsplit⟩ := List.append_of_mem hx
  obtain ⟨ls₁, w₁, earlier, msg, wallet, hrun, -, hchain, hone⟩ := history_split h hsplit
  exact ⟨(run_keepsCancels hrun).trans (chain_keepsCancels hchain), msg, wallet, hone⟩

/-- What a settled fill found true of one of its orders. -/
structure InForce (w : World) (o : Order) (price : Nat) : Prop where
  limit : outsideLimit o price = false
  unexpired : w.timestamp ≤ o.expiry
  lifetime : o.expiry ≤ w.timestamp + MAX_ORDER_TTL
  nonce : w.gateway.minNonce o.owner ≤ o.nonce
  uncancelled : w.gateway.cancelled (o.owner, o.nonce) = false

theorem settleOne_inForce {wallet : Address → Bytes32 → Bytes → Bool} {x : Settled}
    (h : settleOne D env x.before msg wallet x.settlement.fill = .ok (x.after, x.settlement)) :
    ∀ o ∈ x.orders, InForce x.before o x.settlement.fill.price := by
  obtain ⟨w₁, w₂, w₃, hs⟩ := settleOne_ok h
  obtain ⟨hmaker, rfl⟩ := consume_ok hs.maker
  obtain ⟨htaker, -⟩ := consume_ok hs.taker
  simp only [Settled.orders, List.forall_mem_cons]
  exact ⟨⟨hmaker.limit, hmaker.unexpired, hmaker.lifetime, hmaker.nonce, hmaker.uncancelled⟩,
    ⟨htaker.limit, htaker.unexpired, htaker.lifetime, htaker.nonce, htaker.uncancelled⟩,
    fun _ h => absurd h List.not_mem_nil⟩

/-- The size settled under a nonce. -/
def settledSize (settled : List Settled) (owner : Address) (nonce : Nat) : Nat :=
  (settled.map fun x => (x.orders.map fun o =>
    if o.owner = owner ∧ o.nonce = nonce then x.settlement.fill.size else 0).sum).sum

theorem settledSize_eq (env : Env) (settled : List Settled) (owner : Address) (nonce : Nat) :
    settledSize settled owner nonce = Tally.total (entries env settled) (owner, nonce) := by
  induction settled with
  | nil => rfl
  | cons x settled ih =>
    rw [entries, List.flatMap_cons, Tally.total_append, ← entries, ← ih]
    simp only [settledSize, List.map_cons, List.sum_cons, Settled.entries, Tally.total, List.map_map, Function.comp_def,
      orderEntry, Prod.mk.injEq]

/-- No two orders of one nonce settled on different terms with the same stored digest prefix. -/
def PrefixesDistinct (env : Env) (settled : List Settled) : Prop :=
  ∀ x ∈ settled, ∀ o ∈ x.orders, ∀ y ∈ settled, ∀ o' ∈ y.orders, o'.owner = o.owner → o'.nonce = o.nonce →
    digestPrefix (env.hashOrder o') = digestPrefix (env.hashOrder o) → o' = o

instance (env : Env) (settled : List Settled) : Decidable (PrefixesDistinct env settled) :=
  inferInstanceAs (Decidable (∀ x ∈ settled, ∀ o ∈ x.orders, ∀ y ∈ settled, ∀ o' ∈ y.orders, _))

theorem mem_entries {x : Settled} (hx : x ∈ settled) {o : Order} (ho : o ∈ x.orders) :
    orderEntry env o x.settlement.fill.size ∈ entries env settled :=
  List.mem_flatMap.2 ⟨x, hx, List.mem_map.2 ⟨o, ho, rfl⟩⟩

/-- **One nonce, one order.** -/
theorem one_order {es : Tally.State (Address × Nat) Nat} (hc : Tally.Counts es (entries env settled))
    (hd : PrefixesDistinct env settled) {x y : Settled} {o o' : Order} (hx : x ∈ settled) (ho : o ∈ x.orders)
    (hy : y ∈ settled) (ho' : o' ∈ y.orders) (howner : o'.owner = o.owner) (hnonce : o'.nonce = o.nonce) : o' = o := by
  have htag := hc.tag_eq (mem_entries hx ho) (mem_entries hy ho') (Prod.ext howner hnonce)
  exact hd x hx o ho y hy o' ho' howner hnonce htag

/-- **A nonce settles at most its order's size.** -/
theorem settledSize_le {es : Tally.State (Address × Nat) Nat} (hc : Tally.Counts es (entries env settled))
    (hd : PrefixesDistinct env settled) {x : Settled} {o : Order} (hx : x ∈ settled) (ho : o ∈ x.orders) :
    settledSize settled o.owner o.nonce ≤ o.size := by
  rw [settledSize_eq env]
  refine hc.total_le (mem_entries hx ho) fun e' he' hkey => ?_
  obtain ⟨y, hy, he'⟩ := List.mem_flatMap.1 he'
  obtain ⟨o', ho', rfl⟩ := List.mem_map.1 he'
  obtain ⟨howner, hnonce⟩ := Prod.mk.inj hkey
  show o'.size = o.size
  rw [one_order hc hd hx ho hy ho' howner hnonce]

/-- **Order integrity.** Unless two orders of a nonce share a stored digest prefix, every fill of a run settled one order
for each nonce, within its size, limit and lifetime; cancels are final; and a batch is its settled fills one after
another, a failed fill leaving the world as it was. -/
theorem order_integrity {w₀ : World} (h₀ : Genesis D w₀) (h : Run (machine D env) w₀ ls w)
    (hd : PrefixesDistinct env (history ls)) :
    (∀ x ∈ history ls, ∀ o ∈ x.orders,
      settledSize (history ls) o.owner o.nonce ≤ o.size ∧
      InForce x.before o x.settlement.fill.price ∧
      ∀ y ∈ history ls, ∀ o' ∈ y.orders, o'.owner = o.owner → o'.nonce = o.nonce →
        env.hashOrder o' = env.hashOrder o ∧ outsideLimit o y.settlement.fill.price = false) ∧
    (∀ ls' w', Run (machine D env) w ls' w' →
      (∀ a, w.gateway.minNonce a ≤ w'.gateway.minNonce a) ∧
      ∀ x ∈ history ls', ∀ o ∈ x.orders,
        w.gateway.cancelled (o.owner, o.nonce) = false ∧ w.gateway.minNonce o.owner ≤ o.nonce) ∧
    ∀ l w' fills, (machine D env).step w l w' → l.call.tx = .settleFillsSigned fills →
      Batch D env l.call.msg w fills l.settled w' ∧ Chain D env l.call.msg w l.settled w' := by
  have hc := run_counts h₀ h
  have hforce : ∀ x ∈ history ls, ∀ o ∈ x.orders, InForce x.before o x.settlement.fill.price := by
    intro x hx o ho
    obtain ⟨-, msg, wallet, hone⟩ := history_settled h hx
    exact settleOne_inForce hone o ho
  refine ⟨fun x hx o ho => ⟨settledSize_le hc hd hx ho, hforce x hx o ho, fun y hy o' ho' howner hnonce => ?_⟩,
    fun ls' w' hrun => ⟨(run_keepsCancels hrun).minNonce, fun x hx o ho => ?_⟩, ?_⟩
  · obtain rfl := one_order hc hd hx ho hy ho' howner hnonce
    exact ⟨rfl, (hforce y hy o' ho').limit⟩
  · obtain ⟨hkeeps, msg, wallet, hone⟩ := history_settled hrun hx
    have hin := settleOne_inForce hone o ho
    refine ⟨?_, (hkeeps.minNonce _).trans hin.nonce⟩
    by_contra hcancelled
    have hlater := hkeeps.cancelled _ (by simpa using hcancelled)
    rw [hin.uncancelled] at hlater
    exact absurd hlater (by decide)
  · rintro ⟨⟨msg, tx⟩, settled⟩ w' fills hstep rfl
    have hexec := hstep.2
    simp only [exec, OrderGateway.settleFillsSigned, bind_ok_iff] at hexec
    obtain ⟨_, -, _, -, _, -, hexec⟩ := hexec
    have hbatch := settleFills_batch fills w w' settled hexec
    exact ⟨hbatch, hbatch.chain⟩

/-- Alice buys 10 at 100 from Bob in two fills of one order each. -/
theorem order_integrity_partial :
    let ls := trace Sample.deployment Sample.env Sample.genesis Sample.partialFills
    settledSize (history ls) Sample.alice 1 = 10 * 10 ^ 18 ∧ ∀ x ∈ history ls, ∀ o ∈ x.orders,
      settledSize (history ls) o.owner o.nonce ≤ o.size := by
  intro ls
  have hrun := Sample.outcome_run Sample.partialFills (by decide +kernel)
  refine ⟨by decide +kernel, fun x hx o ho => ?_⟩
  exact ((order_integrity Sample.genesis_ok hrun (by decide +kernel)).1 x hx o ho).1

end Kryon
