import Kryon.StreamDelivery
/-!
# TradeTape — every print, once and in order

A market's tape is its settled fills in chain order.  The server reads it from a cursor, statement by statement, while
subscribers come and go; a cursor nobody is left on is forgotten, also under a poll that has read from it.  Whatever
happens in between, a subscriber is sent one segment of the tape (`tape_delivered`).
-/
namespace Kryon.StreamServer

open Function (update)
open Wire (Channel ServerMessage StreamFill MarketState)
open PublicBook (BookLevel)
open Transition

variable {setup : Setup} {s t : Server} {v w x : Service} {id k m : Nat} {ch : Channel} {c c' : Conn} {a : Act} {now : Int}

/-! ## The poll's place in the tape -/

/-- The statement's position is the cursor's, or the cursor has been forgotten since; its answer is read from there. -/
def StageOk (v : Service) : Prop :=
  match v.stage with
  | .tip m _ answer =>
    v.server.tradeCursors m = none ∧ ∀ tip, answer = some tip → Cursor.At keyOf (v.tape m) tip
  | .tape m after _ answer =>
    (v.server.tradeCursors m = some after ∨ v.server.tradeCursors m = none) ∧ Cursor.At keyOf (v.tape m) after ∧
      ∀ fills, answer = some fills → Cursor.Next keyOf (v.tape m) after fills
  | .idle | .markets _ | .books _ _ _ _ | .fills _ => True

/-- The poll is before a statement: nothing has been read. -/
def Entered (v : Service) : Prop :=
  match v.stage with
  | .tip m _ answer => v.server.tradeCursors m = none ∧ answer = none
  | .tape m after _ answer => v.server.tradeCursors m = some after ∧ answer = none
  | .idle | .markets _ | .books _ _ _ _ | .fills _ => True

/-- Every tape is in chain order, and every cursor at a place in it. -/
structure Taped (v : Service) : Prop where
  ordered : ∀ m, Cursor.Ordered keyOf (v.tape m)
  settled : ∀ m, ∀ f ∈ v.tape m, f.status = .settled ∧ f.marketId.val = m
  cursors : ∀ m pos, v.server.tradeCursors m = some pos → Cursor.At keyOf (v.tape m) pos

/-- So is the statement the poll waits for. -/
structure Placed (v : Service) : Prop extends Taped v where
  stage : StageOk v

/-- Cursors are kept or forgotten. -/
def Lessened (s t : Server) : Prop := ∀ m, t.tradeCursors m = s.tradeCursors m ∨ t.tradeCursors m = none

theorem moves_lessened (h : Moves setup s t) : Lessened s t := by
  intro m
  induction h with
  | refl => exact .inl rfl
  | tail _ hm ih =>
    rcases (move_kept (m := m) hm).2.1 with hkept | ⟨hnone, -⟩
    · exact ih.imp hkept.trans hkept.trans
    · exact .inr hnone

theorem lessened_stepped (h : Stepped setup v a t) (ha : ∀ now, a ≠ .resume now) : Lessened v.server t := by
  cases h with
  | moves hm => exact moves_lessened hm
  | @subscribed _ id now raws _ ht =>
    intro m
    have hjoined := joined_joins setup (v.server.onConn id (Server.counted setup now)) id raws
    have hmoves := moves_lessened (moves_subscribe id (v.server.onConn id (Server.counted setup now)) raws : Moves setup _ _) m
    rw [ht]
    exact hmoves.imp_left fun heq => heq.trans (congrFun hjoined.tradeCursors m)
  | book => exact absurd rfl (ha _)
  | tip => exact absurd rfl (ha _)
  | tape => exact absurd rfl (ha _)

/-! ### Coming to a statement -/

/-- The poll goes on to a statement: neither the tapes nor the cursors change. -/
structure EntersFrom (v w : Service) : Prop where
  entered : Entered w
  tape : w.tape = v.tape
  cursors : w.server.tradeCursors = v.server.tradeCursors

theorem enterFills_from (v : Service) (now : Int) : EntersFrom v (v.enterFills now) := by
  unfold Service.enterFills
  dsimp only
  split <;> exact ⟨trivial, rfl, rfl⟩

theorem enterTrades_from (v : Service) (now : Int) (rest : List Nat) : EntersFrom v (v.enterTrades now rest) := by
  cases rest with
  | nil => exact enterFills_from v now
  | cons marketId rest =>
    simp only [Service.enterTrades]
    split
    · rename_i hnone
      exact ⟨⟨hnone, rfl⟩, rfl, rfl⟩
    · rename_i after hafter
      exact ⟨⟨hafter, rfl⟩, rfl, rfl⟩

theorem enterBooks_from (v : Service) (now nowSec : Int) (rest : List Nat) : EntersFrom v (v.enterBooks now nowSec rest) := by
  cases rest with
  | nil => exact enterTrades_from v now _
  | cons marketId rest => exact ⟨trivial, rfl, rfl⟩

theorem startBooks_from (v : Service) (now : Int) : EntersFrom v (v.startBooks now) := enterBooks_from v now _ _

theorem Entered.stageOk (h : Entered v) (hcursors : ∀ m pos, v.server.tradeCursors m = some pos →
    Cursor.At keyOf (v.tape m) pos) : StageOk v := by
  unfold StageOk
  unfold Entered at h
  split <;> rename_i hstage <;> simp only [hstage] at h
  · exact ⟨h.1, fun tip htip => absurd (h.2.symm.trans htip) (by simp)⟩
  · exact ⟨.inl h.1, hcursors _ _ h.1, fun fills hfills => absurd (h.2.symm.trans hfills) (by simp)⟩
  all_goals trivial

/-! ### Steps that read nothing -/

theorem Taped.entered (h : Taped v) (hw : EntersFrom v w) : Placed w := by
  obtain ⟨hentered, htape, hcursors⟩ := hw
  have htaped : Taped w := ⟨htape ▸ h.ordered, htape ▸ h.settled, htape ▸ hcursors ▸ h.cursors⟩
  exact ⟨htaped, hentered.stageOk htaped.cursors⟩

theorem Taped.withServer {f : Server → Server} (h : Taped v)
    (hf : ∀ m pos, (f v.server).tradeCursors m = some pos → Cursor.At keyOf (v.tape m) pos) : Taped (v.withServer f) :=
  ⟨h.ordered, h.settled, hf⟩

theorem Taped.lessened {f : Server → Server} (h : Taped v) (hf : Lessened v.server (f v.server)) : Taped (v.withServer f) := by
  refine h.withServer fun m pos hpos => ?_
  rcases hf m with hkept | hnone
  · exact h.cursors m pos (hkept ▸ hpos)
  · exact absurd (hnone ▸ hpos) (by simp)

/-- Where the tapes only grow and the cursors are kept or forgotten, the poll's place stays one. -/
theorem stageOk_kept (h : StageOk v) (htape : ∀ m, ∃ more, w.tape m = v.tape m ++ more)
    (hl : Lessened v.server w.server) (hstage : w.stage = v.stage) : StageOk w := by
  have hat : ∀ m pos, Cursor.At keyOf (v.tape m) pos → Cursor.At keyOf (w.tape m) pos := by
    intro m pos hat
    obtain ⟨more, hmore⟩ := htape m
    exact hmore ▸ hat.append more
  unfold StageOk at h ⊢
  rw [hstage]
  split at h
  · rename_i m _ answer _
    refine ⟨?_, fun tip htip => hat m tip (h.2 tip htip)⟩
    rcases hl m with hkept | hnone
    · exact hkept.trans h.1
    · exact hnone
  · rename_i m after _ answer _
    refine ⟨?_, hat m after h.2.1, fun fills hfills => ?_⟩
    · rcases hl m with hkept | hnone
      · exact h.1.imp hkept.trans hkept.trans
      · exact .inr hnone
    · obtain ⟨more, hmore⟩ := htape m
      exact hmore ▸ (h.2.2 fills hfills).append more
  all_goals trivial

theorem Placed.kept (h : Placed v) (htape : w.tape = v.tape) (hl : Lessened v.server w.server)
    (hstage : w.stage = v.stage) : Placed w := by
  obtain ⟨hordered, hsettled, hcursors⟩ := h.toTaped.lessened (f := fun _ => w.server) hl
  exact ⟨⟨htape ▸ hordered, htape ▸ hsettled, htape ▸ hcursors⟩,
    stageOk_kept h.stage (fun m => ⟨[], by rw [htape, List.append_nil]⟩) hl hstage⟩

theorem placed_settle {f : StreamFill} (h : Placed v) (ha : enabled v (.settle f)) : Placed (act setup v (.settle f)) := by
  have htape : ∀ m, (act setup v (.settle f)).tape m = v.tape m ++ if m = f.marketId.val then [f] else [] := by
    intro m
    show update v.tape f.marketId.val (v.tape f.marketId.val ++ [f]) m = _
    rw [Function.update_apply]
    split
    · rename_i hm
      rw [hm]
    · rw [List.append_nil]
  obtain ⟨hf, hkeyed, hlast⟩ := ha
  obtain ⟨key, hkey⟩ := Option.isSome_iff_exists.1 hkeyed
  refine ⟨⟨fun m => ?_, fun m g hg => ?_, fun m pos hpos => ?_⟩, ?_⟩
  · rw [htape]
    split
    · rename_i hm
      subst hm
      exact (h.ordered _).push hkey (hlast key hkey)
    · rw [List.append_nil]
      exact h.ordered m
  · rw [htape] at hg
    rcases List.mem_append.1 hg with hg | hg
    · exact h.settled m g hg
    · split at hg
      · rename_i hm
        rw [List.mem_singleton.1 hg]
        exact ⟨hf, hm.symm⟩
      · exact absurd hg List.not_mem_nil
  · rw [htape]
    exact (h.cursors m pos hpos).append _
  · exact stageOk_kept h.stage (fun m => ⟨_, htape m⟩) (fun m => .inl rfl) rfl

/-- A statement's answer is the tip, or the entries right after the position it was put for. -/
theorem placed_query (h : Placed v) : Placed (v.query setup) := by
  have hstage := h.stage
  unfold Service.query
  split
  · exact ⟨⟨h.ordered, h.settled, h.cursors⟩, trivial⟩
  · rename_i marketId rest heq
    simp only [StageOk, heq] at hstage
    refine ⟨⟨h.ordered, h.settled, h.cursors⟩, hstage.1, fun tip htip => ?_⟩
    rw [Option.some.injEq] at htip
    exact htip ▸ Cursor.at_lastKey (v.tape marketId)
  · rename_i marketId after rest heq
    simp only [StageOk, heq] at hstage
    refine ⟨⟨h.ordered, h.settled, h.cursors⟩, hstage.1, hstage.2.1, fun fills hfills => ?_⟩
    rw [Option.some.injEq] at hfills
    exact hfills ▸ (h.ordered marketId).next hstage.2.1 setup.limits.batchLimit
  · exact h

/-! ### Taking up an answer -/

theorem pollTip_cursors (marketId : Nat) (tip : Option TradeKey) (s : Server) (m : Nat) :
    (s.pollTip marketId tip).tradeCursors m = if m = marketId then some tip else s.tradeCursors m := by
  simp only [Server.pollTip, Function.update_apply]

theorem pollTape_cursors (marketId : Nat) (fills : List StreamFill) (s : Server) (m : Nat) :
    (s.pollTape setup marketId fills).tradeCursors m =
      if m = marketId ∧ (lastKey fills).isSome then some (lastKey fills) else s.tradeCursors m := by
  have hfold : ∀ (xs : List StreamFill) (x : Server),
      (xs.foldl (fun s f => s.broadcast setup (.trades marketId) (.trade f)) x).tradeCursors = x.tradeCursors := by
    intro xs
    induction xs with
    | nil => exact fun _ => rfl
    | cons f xs ih => exact fun x => ih _
  unfold Server.pollTape
  dsimp only
  split
  · rename_i key hkey
    have hkey' : lastKey fills = some key := hkey
    simp only [hfold, Function.update_apply, hkey', Option.isSome_some, and_true]
  · rename_i hnone
    have hnone' : lastKey fills = none := hnone
    simp [hfold, hnone']

theorem pollBook_cursors (now : Int) (marketId : Nat) (bids asks : List BookLevel) (s : Server) :
    (s.pollBook setup now marketId bids asks).tradeCursors = s.tradeCursors := by
  unfold Server.pollBook
  split <;> rfl

theorem lastKey_eq_none {fills : List StreamFill} {after : Option TradeKey} {log : List StreamFill}
    (hordered : Cursor.Ordered keyOf log) (h : Cursor.Next keyOf log after fills) :
    lastKey fills = none ↔ fills = [] := by
  constructor
  · intro hnone
    rcases List.eq_nil_or_concat fills with rfl | ⟨xs, f, rfl⟩
    · rfl
    · obtain ⟨pre, post, rfl, -⟩ := h
      rw [List.concat_eq_append, lastKey, Cursor.lastKey_concat] at hnone
      have hkeyed := hordered.keyed f (by simp)
      rw [hnone] at hkeyed
      exact absurd hkeyed (by simp)
  · rintro rfl
    rfl

theorem placed_resume (h : Placed v) (now : Int) : Placed (v.resume setup now) := by
  have hstage := h.stage
  unfold Service.resume
  split
  · rename_i nowSec marketId rest bids asks _
    refine (h.toTaped.withServer fun m pos hpos => ?_).entered (enterBooks_from _ now nowSec rest)
    have hpos' : (v.server.pollBook setup now marketId bids asks).tradeCursors m = some pos := hpos
    rw [pollBook_cursors] at hpos'
    exact h.cursors m pos hpos'
  · rename_i marketId rest tip heq
    simp only [StageOk, heq] at hstage
    refine (h.toTaped.withServer fun m pos hpos => ?_).entered (enterTrades_from _ now rest)
    have hpos' : (v.server.pollTip marketId tip).tradeCursors m = some pos := hpos
    rw [pollTip_cursors] at hpos'
    split at hpos'
    · rename_i hm
      exact hm ▸ hstage.2 pos (by rw [Option.some.inj hpos'])
    · exact h.cursors m pos hpos'
  · rename_i marketId after rest fills heq
    simp only [StageOk, heq] at hstage
    have hnext := hstage.2.2 fills rfl
    refine (h.toTaped.withServer fun m pos hpos => ?_).entered (enterTrades_from _ now rest)
    have hpos' : (v.server.pollTape setup marketId fills).tradeCursors m = some pos := hpos
    rw [pollTape_cursors] at hpos'
    split at hpos'
    · rename_i hm
      have hne : fills ≠ [] := by
        rintro rfl
        exact absurd hm.2 (by simp [lastKey, Cursor.lastKey_nil])
      rw [← Option.some.inj hpos', hm.1]
      exact hnext.last hne
    · exact h.cursors m pos hpos'
  · exact h

theorem step_placed (h : Placed v) (hstep : (machine setup).step v a w) : Placed w := by
  obtain ⟨ha, rfl⟩ := hstep
  have hl : (∀ now, a ≠ .resume now) → Lessened v.server (act setup v a).server := lessened_stepped (act_stepped ha)
  cases a with
  | settle f => exact placed_settle h ha
  | query => exact placed_query h
  | resume now => exact placed_resume h now
  | poll now =>
    show Placed (v.poll setup now)
    unfold Service.poll
    split
    · exact h.toTaped.entered (startBooks_from v now)
    · exact h.toTaped.entered ⟨trivial, rfl, rfl⟩
  | refresh ms now =>
    show Placed (v.refresh setup ms now)
    unfold Service.refresh
    split
    · rename_i startedAt _
      exact (h.toTaped.lessened (moves_lessened (moves_refreshMarkets startedAt ms v.server))).entered (startBooks_from _ now)
    · exact h.kept rfl (moves_lessened (moves_refreshMarkets now ms v.server)) rfl
  | fills rows =>
    show Placed (v.readFills setup rows)
    unfold Service.readFills
    split
    · rename_i addresses _
      have htaped : Taped (v.withServer fun x => x.pollFills setup addresses rows) :=
        h.toTaped.lessened (moves_lessened (moves_pollFills addresses rows v.server))
      exact htaped.entered ⟨trivial, rfl, rfl⟩
    · exact h
  | fail now =>
    show Placed (v.fail now)
    unfold Service.fail
    split
    · exact h
    · exact h.toTaped.entered (startBooks_from v now)
    · exact h.toTaped.entered (enterTrades_from v now _)
    · exact h.toTaped.entered (enterFills_from v now)
    · exact h.toTaped.entered (enterFills_from v now)
    · exact h.toTaped.entered ⟨trivial, rfl, rfl⟩
  | write | upgrade | connected | abandoned | message | pong | drained | closed | beat | shutdown =>
    exact h.kept rfl (hl fun _ => by simp) rfl

theorem reachable_placed (h : Reachable (machine setup) v) : Placed v := by
  refine h.invariant Placed (fun v hv => ?_) fun v a w _ hv hstep => step_placed hv hstep
  obtain ⟨hserver, hstage, htape⟩ := hv
  refine ⟨⟨fun m => ?_, fun m f hf => ?_, fun m pos hpos => ?_⟩, ?_⟩
  · rw [htape]
    exact Cursor.ordered_nil
  · rw [htape] at hf
    exact absurd hf List.not_mem_nil
  · rw [hserver] at hpos
    exact absurd hpos (by simp [Server.new])
  · simp only [StageOk, hstage]

/-! ## What one subscriber was sent -/

/-- The connection is on the channel. -/
def On (k : Nat) (ch : Channel) (s : Server) : Prop := ∃ c, s.conns.get k = some c ∧ ch ∈ c.channels

instance (k : Nat) (ch : Channel) (s : Server) : Decidable (On k ch s) :=
  decidable_of_iff ((s.conns.get k).any (fun c => decide (ch ∈ c.channels)) = true) (by simp [On, Option.any_eq_true])

theorem move_on (hm : Move setup s t) (h : On k ch t) : On k ch s := by
  obtain ⟨c', hc', hch⟩ := h
  have hshape : ∀ {t : Server}, SameShape s t → ∀ {c' : Conn}, t.conns.get k = some c' → ch ∈ c'.channels → On k ch s := by
    intro t hst c' hc' hch
    obtain ⟨g, hget, hchannels⟩ := hst.conns
    rw [hget, Option.map_eq_some_iff] at hc'
    obtain ⟨c, hc, rfl⟩ := hc'
    exact ⟨c, hc, hchannels k c ▸ hch⟩
  cases hm with
  | edit g hg => exact hshape (sameShape_mapValues g fun k c => (hg k c).channels) hc' hch
  | reply id msg _ => exact hshape (sameShape_reply id s msg) hc' hch
  | snapshot id marketId f _ => exact hshape (sameShape_reply id s _) hc' hch
  | announce ch msg _ => exact hshape (sameShape_broadcast ch s msg) hc' hch
  | leave id ch c _ _ =>
    rw [leave_eq] at hc'
    have hget : (s.onConn id fun c => { c with channels := c.channels.erase ch }).conns.get k = some c' := hc'
    rw [get_onConn, Option.map_eq_some_iff] at hget
    obtain ⟨c, hc, rfl⟩ := hget
    refine ⟨c, hc, ?_⟩
    split at hch
    · exact List.mem_of_mem_erase hch
    · exact hch
  | connect now _ =>
    have hget : (s.conns.set s.nextId (Conn.new now)).get k = some c' := hc'
    rw [OrderedMap.get_set] at hget
    split at hget
    · rw [Option.some.injEq] at hget
      exact absurd (hget ▸ hch) List.not_mem_nil
    · exact ⟨c', hget, hch⟩
  | remove id c _ _ =>
    have hget : (s.conns.delete id).get k = some c' := hc'
    rw [OrderedMap.get_delete] at hget
    split at hget
    · exact absurd hget (by simp)
    · exact ⟨c', hget, hch⟩
  | reserve n _ => exact ⟨c', hc', hch⟩
  | data t hd => exact ⟨c', hd.conns ▸ hc', hch⟩

/-- Since it was `c`, the connection `k` has been sent the segment `seg` of the market's tape, after `pre`; `start` was the
cursor then. -/
structure Followed (m k : Nat) (c : Conn) (start : Option (Option TradeKey)) (pre seg : List StreamFill) (s : Server) :
    Prop where
  known : k < s.nextId
  sent : ∀ c', s.conns.get k = some c' → c'.healthy → printsOf m c'.sent = printsOf m c.sent ++ seg
  anchored : ∀ pos, start = some pos → lastKey pre = pos
  cursor : ∀ pos, s.tradeCursors m = some pos → lastKey (pre ++ seg) = pos
  fresh : s.tradeCursors m = none → seg = [] ∧ start = none

variable {start : Option (Option TradeKey)} {pre seg : List StreamFill}

theorem move_followed (hs : Registered setup s) (h : Followed m k c start pre seg s) (hm : Move setup s t)
    (hon : On k (.trades m) t) : Followed m k c start pre seg t := by
  obtain ⟨-, hcursors, hnextId⟩ := move_kept (m := m) hm
  have hkept : t.tradeCursors m = s.tradeCursors m := by
    refine hcursors.resolve_right fun hnone => ?_
    have hmem := ((move_registered hs hm).subscribed (.trades m) k).2 hon
    rw [hnone.2] at hmem
    exact absurd hmem List.not_mem_nil
  refine ⟨h.known.trans_le hnextId, fun c' hc' hh => ?_, h.anchored, hkept ▸ h.cursor, hkept ▸ h.fresh⟩
  rcases move_through hm hc' hh with ⟨c₁, hthrough⟩ | ⟨hk, -⟩
  · rw [hthrough.prints]
    exact h.sent c₁ hthrough.conn hthrough.healthy
  · exact absurd hk h.known.ne

theorem moves_followed (hs : Registered setup s) (h : Followed m k c start pre seg s) (hm : Moves setup s t)
    (hon : On k (.trades m) t) : Followed m k c start pre seg t := by
  induction hm with
  | refl => exact h
  | tail hms hm ih => exact move_followed (moves_registered hs hms) (ih (move_on hm hon)) hm hon

theorem subscribe_followed (hs : Registered setup s) (h : Followed m k c start pre seg s) (id : Nat)
    (raws : List (List Char)) (hon : On k (.trades m) (s.subscribe setup id raws)) :
    Followed m k c start pre seg (s.subscribe setup id raws) := by
  have hjoined := joined_joins setup s id raws
  have hjoins : Followed m k c start pre seg (s.joins setup id raws).server := by
    refine ⟨hjoined.nextId ▸ h.known, fun c' hc' hh => ?_, h.anchored, hjoined.tradeCursors ▸ h.cursor,
      hjoined.tradeCursors ▸ h.fresh⟩
    obtain ⟨c₁, hc₁, hsent, hhealthy, -⟩ := hjoined.conns k c' hc'
    rw [hsent]
    exact h.sent c₁ hc₁ (hhealthy hh)
  exact moves_followed (registered_joins hs id raws) hjoins (moves_subscribe id s raws) hon

theorem pollBook_followed (hs : Registered setup s) (h : Followed m k c start pre seg s) (now : Int) (marketId : Nat)
    (bids asks : List BookLevel) : Followed m k c start pre seg (s.pollBook setup now marketId bids asks) := by
  have hcursors : (s.pollBook setup now marketId bids asks).tradeCursors = s.tradeCursors := pollBook_cursors ..
  refine ⟨(sameShape_pollBook now marketId bids asks s).nextId ▸ h.known, fun c' hc' hh => ?_, h.anchored,
    hcursors ▸ h.cursor, hcursors ▸ h.fresh⟩
  obtain ⟨c₁, hwas | hwas⟩ := pollBook_was hs now marketId bids asks hc' hh
  · rw [hwas.sent, List.append_nil]
    exact h.sent c₁ hwas.conn hwas.healthy
  · rw [hwas.sent, printsOf_append, printsOf_book, List.append_nil]
    exact h.sent c₁ hwas.conn hwas.healthy

theorem printsOf_trades {fills : List StreamFill} {marketId : Nat} (h : ∀ f ∈ fills, f.marketId.val = marketId) :
    printsOf m (fills.map .trade) = if marketId = m then fills else [] := by
  induction fills with
  | nil => simp [printsOf]
  | cons f fills ih =>
    have hf := h f List.mem_cons_self
    have hsplit : printsOf m ((f :: fills).map .trade) = printsOf m [.trade f] ++ printsOf m (fills.map .trade) :=
      printsOf_append [.trade f] (fills.map .trade)
    rw [hsplit, ih fun g hg => h g (List.mem_cons_of_mem _ hg)]
    by_cases hm : marketId = m <;> simp [printsOf, hf, hm]

/-- What was read of a tape is all printed. -/
theorem prints_eq {fills : List StreamFill} (h : ∀ f ∈ fills, f.status = .settled ∧ (keyOf f).isSome) :
    Server.prints fills = fills :=
  List.filter_eq_self.2 fun f hf => by simp [h f hf]

variable {fills log : List StreamFill} {after : Option TradeKey} {marketId : Nat}

/-- What taking up a read of a tape sends a subscriber. -/
theorem pollTape_sent (hs : Registered setup s) (h : Followed m k c start pre seg s) (hon : On k (.trades m) s)
    (hfills : ∀ f ∈ fills, f.status = .settled ∧ f.marketId.val = marketId ∧ (keyOf f).isSome)
    (hc' : (s.pollTape setup marketId fills).conns.get k = some c') (hh : c'.healthy) :
    printsOf m c'.sent = printsOf m c.sent ++ seg ++ if marketId = m then fills else [] := by
  obtain ⟨c₁, hwas⟩ := pollTape_was hs marketId fills hc' hh
  have hold := h.sent c₁ hwas.conn hwas.healthy
  rw [hwas.sent, printsOf_append, hold, prints_eq fun f hf => ⟨(hfills f hf).1, (hfills f hf).2.2⟩]
  obtain ⟨c₂, hc₂, hch⟩ := hon
  rw [hwas.conn, Option.some.injEq] at hc₂
  by_cases hm : marketId = m
  · rw [if_pos (hm ▸ hc₂ ▸ hch), printsOf_trades fun f hf => (hfills f hf).2.1]
  · rw [if_neg hm]
    split
    · rw [printsOf_trades fun f hf => (hfills f hf).2.1, if_neg hm]
    · rfl

theorem pollTape_other (hs : Registered setup s) (h : Followed m k c start pre seg s) (hon : On k (.trades m) s)
    (hfills : ∀ f ∈ fills, f.status = .settled ∧ f.marketId.val = marketId ∧ (keyOf f).isSome) (hne : marketId ≠ m) :
    Followed m k c start pre seg (s.pollTape setup marketId fills) := by
  have hcursors : (s.pollTape setup marketId fills).tradeCursors m = s.tradeCursors m := by
    rw [pollTape_cursors, if_neg fun hm => hne hm.1.symm]
  refine ⟨(sameShape_pollTape marketId fills s).nextId ▸ h.known, fun c' hc' hh => ?_, h.anchored,
    hcursors ▸ h.cursor, hcursors ▸ h.fresh⟩
  rw [pollTape_sent hs h hon hfills hc' hh, if_neg hne, List.append_nil]

theorem next_settled (hordered : Cursor.Ordered keyOf log)
    (hlog : ∀ f ∈ log, f.status = .settled ∧ f.marketId.val = marketId) (hnext : Cursor.Next keyOf log after fills) :
    ∀ f ∈ fills, f.status = .settled ∧ f.marketId.val = marketId ∧ (keyOf f).isSome := by
  intro f hf
  obtain ⟨pre, post, hlog', -⟩ := hnext
  have hmem : f ∈ log := hlog' ▸ List.mem_append_left _ (List.mem_append_right _ hf)
  exact ⟨(hlog f hmem).1, (hlog f hmem).2, hordered.keyed f hmem⟩

/-- **Taking up a read of the tape extends what the subscriber was sent by it**: it begins where that ended, or the cursor
has been forgotten and nothing was sent yet. -/
theorem pollTape_same (hs : Registered setup s) (h : Followed m k c start pre seg s) (hon : On k (.trades m) s)
    (hordered : Cursor.Ordered keyOf log) (hlog : ∀ f ∈ log, f.status = .settled ∧ f.marketId.val = m)
    (hnext : Cursor.Next keyOf log after fills) (hafter : s.tradeCursors m = some after ∨ s.tradeCursors m = none)
    (htape : ∃ post, log = pre ++ seg ++ post) :
    ∃ pre' post', log = pre' ++ (seg ++ fills) ++ post' ∧
      Followed m k c start pre' (seg ++ fills) (s.pollTape setup m fills) := by
  have hempty := lastKey_eq_none hordered hnext
  have hfills := next_settled hordered hlog hnext
  obtain ⟨pre₁, post₁, hlog₁, hpos⟩ := hnext
  -- Where the read starts is where what was sent ends.
  have hjoin : ∃ pre', pre' ++ seg = pre₁ ∧ (∀ pos, start = some pos → lastKey pre' = pos) := by
    obtain ⟨post, hpost⟩ := htape
    rcases hafter with hsome | hnone
    · refine ⟨pre, ?_, h.anchored⟩
      have hkey : lastKey (pre ++ seg) = lastKey pre₁ := (h.cursor after hsome).trans hpos.symm
      have heq : pre ++ seg ++ post = pre₁ ++ (fills ++ post₁) := by rw [← hpost, hlog₁, List.append_assoc]
      exact Cursor.Ordered.unique (hpost ▸ hordered) heq hkey
    · obtain ⟨rfl, hstart⟩ := h.fresh hnone
      exact ⟨pre₁, List.append_nil _, fun pos hpos => absurd (hstart.symm.trans hpos) (by simp)⟩
  obtain ⟨pre', rfl, hanchored⟩ := hjoin
  refine ⟨pre', post₁, by rw [hlog₁, List.append_assoc pre'], ?_, fun c' hc' hh => ?_, hanchored, fun pos hcursor => ?_,
    fun hcursor => ?_⟩
  · exact (sameShape_pollTape m fills s).nextId ▸ h.known
  · rw [pollTape_sent hs h hon hfills hc' hh, if_pos rfl, List.append_assoc]
  · rw [pollTape_cursors] at hcursor
    split at hcursor
    · rename_i hsome
      have hne : fills ≠ [] := by
        rintro rfl
        exact absurd hsome.2 (by simp [lastKey, Cursor.lastKey_nil])
      rw [← Option.some.inj hcursor, ← List.append_assoc]
      exact Cursor.lastKey_append _ hne
    · rename_i hnone
      have hfills : fills = [] := hempty.1 (by simpa using hnone)
      rw [hfills, List.append_nil]
      rcases hafter with hsome | hnone
      · rw [hsome, Option.some.injEq] at hcursor
        exact hpos.trans hcursor
      · exact absurd (hnone ▸ hcursor) (by simp)
  · rw [pollTape_cursors] at hcursor
    split at hcursor
    · exact absurd hcursor (by simp)
    · rename_i hnone
      obtain ⟨hseg, hstart⟩ := h.fresh hcursor
      exact ⟨by rw [hseg, hempty.1 (by simpa using hnone)]; rfl, hstart⟩

theorem pollTip_other (h : Followed m k c start pre seg s) (tip : Option TradeKey) (hne : marketId ≠ m) :
    Followed m k c start pre seg (s.pollTip marketId tip) := by
  have hcursors : (s.pollTip marketId tip).tradeCursors m = s.tradeCursors m := by
    rw [pollTip_cursors, if_neg hne.symm]
  exact ⟨h.known, h.sent, h.anchored, hcursors ▸ h.cursor, hcursors ▸ h.fresh⟩

/-- Taking up the tip starts the segment there. -/
theorem pollTip_same (h : Followed m k c start pre seg s) {tip : Option TradeKey} (hnone : s.tradeCursors m = none)
    (hat : Cursor.At keyOf log tip) :
    ∃ pre' post', log = pre' ++ seg ++ post' ∧ Followed m k c start pre' seg (s.pollTip m tip) := by
  obtain ⟨rfl, hstart⟩ := h.fresh hnone
  obtain ⟨pre', post', hlog, hpos⟩ := hat
  have hcursor : (s.pollTip m tip).tradeCursors m = some tip := by rw [pollTip_cursors, if_pos rfl]
  refine ⟨pre', post', by rw [List.append_nil, hlog], h.known, h.sent, fun pos hs => absurd (hstart.symm.trans hs) (by simp),
    fun pos hs => ?_, fun hs => absurd (hcursor.symm.trans hs) (by simp)⟩
  rw [List.append_nil]
  exact hpos.trans (Option.some.inj (hcursor.symm.trans hs))

/-! ## Runs -/

theorem act_tape (v : Service) (a : Act) (m : Nat) : ∃ more, (act setup v a).tape m = v.tape m ++ more := by
  have hsame : ∀ {w : Service}, w.tape = v.tape → ∃ more, w.tape m = v.tape m ++ more := fun h =>
    ⟨[], by rw [h, List.append_nil]⟩
  cases a with
  | settle f =>
    show ∃ more, update v.tape f.marketId.val (v.tape f.marketId.val ++ [f]) m = v.tape m ++ more
    rw [Function.update_apply]
    split
    · rename_i hm
      exact ⟨[f], by rw [hm]⟩
    · exact ⟨[], (List.append_nil _).symm⟩
  | query =>
    refine hsame ?_
    show (v.query setup).tape = v.tape
    unfold Service.query
    split <;> rfl
  | resume now =>
    refine hsame ?_
    show (v.resume setup now).tape = v.tape
    unfold Service.resume
    split
    · exact (enterBooks_from _ _ _ _).tape
    · exact (enterTrades_from _ _ _).tape
    · exact (enterTrades_from _ _ _).tape
    · rfl
  | poll now =>
    refine hsame ?_
    show (v.poll setup now).tape = v.tape
    unfold Service.poll
    split
    · exact (startBooks_from v now).tape
    · rfl
  | refresh ms now =>
    refine hsame ?_
    show (v.refresh setup ms now).tape = v.tape
    unfold Service.refresh
    split
    · exact (startBooks_from _ now).tape
    · rfl
  | fills rows =>
    refine hsame ?_
    show (v.readFills setup rows).tape = v.tape
    unfold Service.readFills
    split <;> rfl
  | fail now =>
    refine hsame ?_
    show (v.fail now).tape = v.tape
    unfold Service.fail
    split
    · rfl
    · exact (startBooks_from v now).tape
    · exact (enterTrades_from v now _).tape
    · exact (enterFills_from v now).tape
    · exact (enterFills_from v now).tape
    · rfl
  | write | upgrade | connected | abandoned | message | pong | drained | closed | beat | shutdown => exact hsame rfl

/-- Since it was `c`, the connection has been sent a segment of the market's tape. -/
def Tracked (m k : Nat) (c : Conn) (start : Option (Option TradeKey)) (v : Service) : Prop :=
  ∃ pre seg post, v.tape m = pre ++ seg ++ post ∧ Followed m k c start pre seg v.server

theorem step_tracked (hs : Registered setup v.server) (hp : Placed v) (hon : On k (.trades m) v.server)
    (h : Tracked m k c start v) (hstep : (machine setup).step v a w) (hon' : On k (.trades m) w.server) :
    Tracked m k c start w := by
  obtain ⟨ha, rfl⟩ := hstep
  obtain ⟨pre, seg, post, htape, h⟩ := h
  obtain ⟨more, hmore⟩ : ∃ more, (act setup v a).tape m = v.tape m ++ more := act_tape v a m
  -- A segment of the tape before the step is one after it.
  have hgrow : ∀ {pre' seg' post' : List StreamFill}, v.tape m = pre' ++ seg' ++ post' →
      Followed m k c start pre' seg' (act setup v a).server → Tracked m k c start (act setup v a) := by
    intro pre' seg' post' htape' hfollowed
    exact ⟨pre', seg', post' ++ more, by rw [hmore, htape', List.append_assoc], hfollowed⟩
  have hstage := hp.stage
  cases (act_stepped ha : Stepped setup v a _) with
  | moves hm => exact hgrow htape (moves_followed hs h hm hon')
  | @subscribed _ id now raws _ ht =>
    have hcounted := moves_counted setup id now v.server
    have hon₁ : On k (.trades m) (v.server.onConn id (Server.counted setup now)) := by
      obtain ⟨c, hc, hch⟩ := hon
      refine ⟨_, by rw [get_onConn, hc]; rfl, ?_⟩
      split <;> exact hch
    have hfollowed := moves_followed hs h hcounted hon₁
    rw [ht] at hon'
    exact hgrow htape (ht ▸ subscribe_followed (moves_registered hs hcounted) hfollowed id raws hon')
  | @book now nowSec marketId rest bids asks _ _ hm =>
    exact hgrow htape (moves_followed (hs.sameShape (sameShape_pollBook ..)) (pollBook_followed hs h now marketId bids asks)
      hm hon')
  | @tip now marketId rest tip _ hstage' hm =>
    simp only [StageOk, hstage'] at hstage
    have hpolled : Registered setup (v.server.pollTip marketId tip) := hs.sameShape (sameShape_data rfl rfl rfl rfl)
    by_cases hmarket : marketId = m
    · subst hmarket
      obtain ⟨pre', post', htape', hfollowed⟩ := pollTip_same h hstage.1 (hstage.2 tip rfl)
      exact hgrow htape' (moves_followed hpolled hfollowed hm hon')
    · exact hgrow htape (moves_followed hpolled (pollTip_other h tip hmarket) hm hon')
  | @tape now marketId after rest fills _ hstage' hm =>
    simp only [StageOk, hstage'] at hstage
    obtain ⟨hafter, -, hnext⟩ := hstage
    have hpolled : Registered setup (v.server.pollTape setup marketId fills) := hs.sameShape (sameShape_pollTape ..)
    by_cases hmarket : marketId = m
    · subst hmarket
      obtain ⟨pre', post', htape', hfollowed⟩ := pollTape_same hs h hon (hp.ordered marketId) (hp.settled marketId)
        (hnext fills rfl) hafter ⟨post, htape⟩
      exact hgrow htape' (moves_followed hpolled hfollowed hm hon')
    · have hfills := next_settled (hp.ordered marketId) (hp.settled marketId) (hnext fills rfl)
      exact hgrow htape (moves_followed hpolled (pollTape_other hs h hon hfills hmarket) hm hon')

/-- The step leaves the connection on the market's trades. -/
def Stays (setup : Setup) (k m : Nat) (v : Service) (a : Act) : Prop := On k (.trades m) (act setup v a).server

instance (setup : Setup) (k m : Nat) (v : Service) (a : Act) : Decidable (Stays setup k m v a) :=
  inferInstanceAs (Decidable (On k (.trades m) (act setup v a).server))

/-- **A subscriber is sent every print, once and in order.**  While a connection that keeps up is on a market's trades,
what it is sent of them is one segment of the market's tape, without a gap, a repetition or a change of order: the segment
begins where the server's cursor stood, and ends where it stands now, whatever other connections do and whatever settles
or fails between a poll's statements and their answers. -/
theorem tape_delivered {u : Service} {ls : List Act} (hv : Reachable (machine setup) v)
    (hc : v.server.conns.get k = some c) (hch : .trades m ∈ c.channels)
    (h : Run ((machine setup).restrict (Stays setup k m)) v ls u) (hc' : u.server.conns.get k = some c') (hh : c'.healthy) :
    ∃ pre seg post, u.tape m = pre ++ seg ++ post ∧ printsOf m c'.sent = printsOf m c.sent ++ seg ∧
      (∀ pos, v.server.tradeCursors m = some pos → lastKey pre = pos) ∧
      ∀ pos, u.server.tradeCursors m = some pos → lastKey (pre ++ seg) = pos := by
  have hplaced := reachable_placed hv
  have hbase : Tracked m k c (v.server.tradeCursors m) v := by
    obtain ⟨pre, post, htape, hpos⟩ : ∃ pre post, v.tape m = pre ++ post ∧
        ∀ pos, v.server.tradeCursors m = some pos → lastKey pre = pos := by
      cases hcursor : v.server.tradeCursors m with
      | none => exact ⟨[], v.tape m, rfl, fun pos hpos => absurd hpos (by simp)⟩
      | some pos =>
        obtain ⟨pre, post, htape, hpos⟩ := hplaced.cursors m pos hcursor
        exact ⟨pre, post, htape, fun pos' hpos' => hpos.trans (Option.some.inj hpos')⟩
    refine ⟨pre, [], post, by rw [List.append_nil, htape], (server_registered hv).ids k (OrderedMap.mem_keys.2 ⟨c, hc⟩),
      fun c₁ hc₁ _ => ?_, hpos, fun pos hcursor => ?_, fun hnone => ⟨rfl, hnone⟩⟩
    · rw [hc, Option.some.injEq] at hc₁
      rw [hc₁, List.append_nil]
    · rw [List.append_nil]
      exact hpos pos hcursor
  have hend := h.preserves (fun x => Reachable (machine setup) x ∧ On k (.trades m) x.server ∧
    Tracked m k c (v.server.tradeCursors m) x) (by
      rintro x a y ⟨hx, hon, ht⟩ ⟨hstays, hstep⟩
      have hon' : On k (.trades m) y.server := hstep.2 ▸ hstays
      exact ⟨hx.step hstep, hon', step_tracked (server_registered hx) (reachable_placed hx) hon ht hstep hon'⟩)
    ⟨hv, ⟨c, hc, hch⟩, hbase⟩
  obtain ⟨-, -, pre, seg, post, htape, hfollowed⟩ := hend
  exact ⟨pre, seg, post, htape, hfollowed.sent c' hc' hh, hfollowed.anchored, hfollowed.cursor⟩

/-! ## Two prints -/

def printAt (block : Nat) : StreamFill where
  fillId := Fin.ofNat _ block
  status := .settled
  rejectReason := none
  marketId := 1
  maker := 11
  taker := 12
  makerOrderHash := 1
  takerOrderHash := 2
  takerIsBuy := true
  size := 1
  price := 100
  txJobId := none
  createdAt := 0
  updatedAt := 0
  makerFee := 0
  takerFee := 0
  txHash := none
  blockNumber := some block
  logIndex := some 0

/-- The client that joined is polled for: its cursor is set at the tip, two fills settle, and the next poll reads them. -/
def following : List Act :=
  [.settle (printAt 5), .poll 1000, .query, .resume 1001, .query, .resume 1002, .settle (printAt 6), .settle (printAt 7),
    .poll 1500, .query, .resume 1501, .query, .resume 1502]

theorem tape_delivered_following : ∃ c, (sampleAt (joining ++ following)).server.conns.get 1 = some c ∧
    printsOf 1 c.sent = [printAt 6, printAt 7] ∧ ∃ pre seg post,
      (sampleAt (joining ++ following)).tape 1 = pre ++ seg ++ post ∧ printsOf 1 c.sent = seg := by
  obtain ⟨c₀, hc₀, hch, hnone⟩ := sampleAt_conn joining 1 (fun c => .trades 1 ∈ c.channels ∧ printsOf 1 c.sent = [])
    (by decide +kernel)
  obtain ⟨c, hc, hh, hprints⟩ := sampleAt_conn (joining ++ following) 1
    (fun c => c.healthy ∧ printsOf 1 c.sent = [printAt 6, printAt 7]) (by decide +kernel)
  have hrun : Run ((machine sampleSetup).restrict (Stays sampleSetup 1 1)) (sampleAt joining) following
      (sampleAt (joining ++ following)) := by
    have halong : Along (act sampleSetup) (fun v a => Stays sampleSetup 1 1 v a ∧ enabled v a) (sampleAt joining) following := by
      decide +kernel
    have happend : sampleAt (joining ++ following) = following.foldl (act sampleSetup) (sampleAt joining) := List.foldl_append
    exact happend ▸ Run.weaken (fun _ _ h => h.1) (sampleAt_run (fun _ _ h => h.2) halong)
  obtain ⟨pre, seg, post, htape, hsent, -⟩ := tape_delivered (sampleAt_reachable (by decide +kernel)) hc₀ hch hrun hc hh
  exact ⟨c, hc, hprints, pre, seg, post, htape, by rw [hsent, hnone, List.nil_append]⟩

end Kryon.StreamServer
