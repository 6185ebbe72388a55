import Kryon.StreamServer
import Mathlib.Logic.Relation
/-!
# StreamRegister — who is on which channel

Every handler and every step of a poll is a sequence of small moves (`Move`), apart from the joins of a subscription, and
every invariant is proved of one move.  The register of subscribers and the connections' own channels say the same in every
state the server reaches (`server_registered`).
-/
namespace Kryon.StreamServer

open Function (update)
open Wire (Channel ServerMessage StreamFill MarketState)
open PublicBook (BookLevel)
open Transition

variable {setup : Setup} {s t u : Server} {id : Nat} {ch : Channel} {msg : ServerMessage}

/-! ## What a handler does, move by move -/

def Conn.healthy (c : Conn) : Prop := c.dropped = false ∧ c.readyState = .open_

instance : DecidablePred Conn.healthy := fun _ => inferInstanceAs (Decidable (_ ∧ _))

/-- Nothing is sent and no channel changes; a connection may only fail. -/
structure Still (c c' : Conn) : Prop where
  channels : c'.channels = c.channels
  sent : c'.sent = c.sent
  healthy : c'.healthy → c.healthy

theorem Still.refl (c : Conn) : Still c c := ⟨rfl, rfl, id⟩

/-- A message that is no book and no print. -/
def Plain : ServerMessage → Prop
  | .orderbook _ _ _ _ | .trade _ => False
  | .subscribed _ | .unsubscribed _ | .pong | .error _ _ | .fill _ _ | .markets _ _ => True

/-- What changes of a server apart from its connections, their channels and what is kept of books and tapes. -/
structure SameData (s t : Server) : Prop where
  conns : t.conns = s.conns
  subs : t.subs = s.subs
  reserved : t.reserved = s.reserved
  nextId : t.nextId = s.nextId
  books : t.books = s.books
  tradeCursors : t.tradeCursors = s.tradeCursors

/-- One thing a handler does, but for taking a connection on a channel. -/
inductive Move (setup : Setup) (s : Server) : Server → Prop where
  | edit (g : Nat → Conn → Conn) (hg : ∀ k c, Still c (g k c)) : Move setup s { s with conns := s.conns.mapValues g }
  | reply (id : Nat) (msg : ServerMessage) (h : Plain msg) : Move setup s (s.reply setup id msg)
  | snapshot (id marketId : Nat) (f : BookFrame) (h : s.books marketId = some f) :
      Move setup s (s.reply setup id (f.message marketId))
  | announce (ch : Channel) (msg : ServerMessage) (h : Plain msg) : Move setup s (s.broadcast setup ch msg)
  | leave (id : Nat) (ch : Channel) (c : Conn) (hc : s.conns.get id = some c) (hmem : ch ∈ c.channels) :
      Move setup s (s.leave id ch)
  | connect (now : Int) (h : 0 < s.reserved) : Move setup s (s.onConnection now)
  | remove (id : Nat) (c : Conn) (hc : s.conns.get id = some c) (hempty : c.channels = []) :
      Move setup s { s with conns := s.conns.delete id }
  | reserve (n : Nat) (h : n ≤ s.reserved ∨ s.conns.keys.length + n ≤ setup.limits.maxConnections) :
      Move setup s { s with reserved := n }
  | data (t : Server) (h : SameData s t) : Move setup s t

abbrev Moves (setup : Setup) : Server → Server → Prop := Relation.ReflTransGen (Move setup)

theorem Move.moves (h : Move setup s t) : Moves setup s t := Relation.ReflTransGen.single h

theorem moves_data (h : SameData s t) : Moves setup s t := (Move.data t h).moves

/-- Handling a list item by item is moves if handling one is. -/
theorem moves_foldl {α β : Type} (server : β → Server) (f : β → α → β)
    (hf : ∀ p x, Moves setup (server p) (server (f p x))) (xs : List α) (p : β) :
    Moves setup (server p) (server (xs.foldl f p)) := by
  induction xs generalizing p with
  | nil => exact .refl
  | cons x xs ih => exact (hf p x).trans (ih (f p x))

theorem moves_onConn (id : Nat) {f : Conn → Conn} (hf : ∀ c, Still c (f c)) : Moves setup s (s.onConn id f) := by
  refine (Move.edit _ fun k c => ?_).moves
  split
  · exact hf c
  · exact Still.refl c

theorem moves_snapshot (id : Nat) (s : Server) (ch : Channel) : Moves setup s (Server.snapshot setup id s ch) := by
  unfold Server.snapshot
  split
  · split
    · exact (Move.reply id _ (by trivial)).moves
    · exact .refl
  · split
    · rename_i f h
      exact (Move.snapshot id _ f h).moves
    · exact .refl
  · exact .refl
  · exact .refl

/-- Once a subscription has joined its channels, it is answered and then handed what is current of them. -/
theorem subscribe_eq (setup : Setup) (id : Nat) (s : Server) (raws : List (List Char)) :
    ∃ t, Moves setup (s.joins setup id raws).server t ∧
      s.subscribe setup id raws = (s.joins setup id raws).added.foldl (Server.snapshot setup id) t := by
  set p := s.joins setup id raws
  have hif : ∀ (P : Prop) [Decidable P] (x : Server) (msg : ServerMessage), Plain msg →
      Moves setup x (if P then x else x.reply setup id msg) := by
    intro P _ x msg hmsg
    split
    · exact .refl
    · exact (Move.reply id msg hmsg).moves
  have hreply := (show Moves setup p.server _ from (Move.reply id (.subscribed p.accepted) trivial).moves)
  have hunknown := hif (p.unknown = []) (p.server.reply setup id (.subscribed p.accepted))
    (.error "unknown_channel" (some p.unknown)) trivial
  have hlimit := hif (p.overLimit = []) (if p.unknown = [] then p.server.reply setup id (.subscribed p.accepted)
    else (p.server.reply setup id (.subscribed p.accepted)).reply setup id (.error "unknown_channel" (some p.unknown)))
    (.error "channel_limit" (some p.overLimit)) trivial
  exact ⟨_, (hreply.trans hunknown).trans hlimit, rfl⟩

theorem moves_subscribe (id : Nat) (s : Server) (raws : List (List Char)) :
    Moves setup (s.joins setup id raws).server (s.subscribe setup id raws) := by
  obtain ⟨t, ht, heq⟩ := subscribe_eq setup id s raws
  exact heq ▸ ht.trans (moves_foldl (fun s => s) (Server.snapshot setup id) (moves_snapshot id) _ t)

theorem moves_reply (id : Nat) (s : Server) {msg : ServerMessage} (h : Plain msg) : Moves setup s (s.reply setup id msg) :=
  (Move.reply id msg h).moves

theorem moves_unsubscribe (id : Nat) (s : Server) (raws : List (List Char)) : Moves setup s (s.unsubscribe setup id raws) := by
  have hone : ∀ (p : Server × List (List Char)) (raw : List Char),
      Moves setup p.1 (Server.unsubscribeOne setup id p raw).1 := by
    intro p raw
    unfold Server.unsubscribeOne
    split
    · rename_i c ch hc _
      split
      · rename_i hmem
        exact (Move.leave id ch c hc hmem).moves
      · exact .refl
    · exact .refl
  exact (moves_foldl Prod.fst (Server.unsubscribeOne setup id) hone raws (s, [])).trans (moves_reply id _ (by trivial))

theorem still_counted (now : Int) (c : Conn) : Still c (Server.counted setup now c) := ⟨rfl, rfl, fun h => h⟩

theorem moves_counted (setup : Setup) (id : Nat) (now : Int) (s : Server) :
    Moves setup s (s.onConn id (Server.counted setup now)) := moves_onConn id (still_counted now)

theorem still_close (c : Conn) : Still c c.close := ⟨rfl, rfl, fun h => absurd h.2 (by simp [Conn.close])⟩

/-- A message is moves, or moves and then a subscription. -/
theorem moves_onMessage (id : Nat) (now : Int) (data : Inbound) (s : Server) :
    Moves setup s (s.onMessage setup id now data) ∨
      ∃ raws, s.onMessage setup id now data = (s.onConn id (Server.counted setup now)).subscribe setup id raws := by
  unfold Server.onMessage
  split
  · exact .inl .refl
  · rename_i c hc
    have hcounted := moves_counted setup id now s
    dsimp only
    split
    · exact .inl ((hcounted.trans (moves_reply id _ (by trivial))).trans (moves_onConn id still_close))
    · cases data with
      | binary => exact .inl (hcounted.trans (moves_reply id _ (by trivial)))
      | text msg =>
        dsimp only
        cases parseClientMessage msg with
        | ping => exact .inl (hcounted.trans (moves_reply id _ (by trivial)))
        | subscribe raws => exact .inr ⟨raws, rfl⟩
        | unsubscribe raws => exact .inl (hcounted.trans (moves_unsubscribe id _ raws))
        | invalid reason => exact .inl (hcounted.trans (moves_reply id _ (by trivial)))

def Server.withConns (conns : OrderedMap Nat Conn) (s : Server) : Server := { s with conns := conns }

theorem removeSub_withConns (conns : OrderedMap Nat Conn) (s : Server) (id : Nat) (ch : Channel) :
    (s.withConns conns).removeSub id ch = (s.removeSub id ch).withConns conns := by
  simp only [Server.removeSub, Server.withConns]
  cases s.subs.get ch with
  | none => rfl
  | some ids =>
    dsimp only
    split
    · rfl
    · cases ch <;> rfl

theorem get_onConn (s : Server) (id k : Nat) (f : Conn → Conn) :
    (s.onConn id f).conns.get k = (s.conns.get k).map fun c => if k = id then f c else c := by
  simp [Server.onConn]

theorem leave_eq (s : Server) (id : Nat) (ch : Channel) : s.leave id ch =
    (s.removeSub id ch).withConns (s.onConn id fun c => { c with channels := c.channels.erase ch }).conns :=
  removeSub_withConns _ s id ch

/-- A connection that leaves its channels one by one and is then removed leaves the server as its close does. -/
theorem leaveAll : ∀ (chs : List Channel) (s : Server) (c : Conn), s.conns.get id = some c → c.channels = chs →
    ∃ t c', Moves setup s t ∧ t.conns.get id = some c' ∧ c'.channels = [] ∧
      t.withConns (t.conns.delete id) = chs.foldl (fun s ch => s.removeSub id ch) (s.withConns (s.conns.delete id))
  | [], s, c, hc, hchs => ⟨s, c, .refl, hc, hchs, rfl⟩
  | ch :: chs, s, c, hc, hchs => by
    have hnext : (s.leave id ch).conns.get id = some { c with channels := chs } := by
      rw [leave_eq]
      simp [Server.withConns, get_onConn, hc, hchs]
    obtain ⟨t, c', hmoves, hc', hempty, heq⟩ := leaveAll chs (s.leave id ch) _ hnext rfl
    refine ⟨t, c', (Move.leave id ch c hc (hchs ▸ List.mem_cons_self)).moves.trans hmoves, hc', hempty, ?_⟩
    have hdelete : (s.leave id ch).conns.delete id = s.conns.delete id := by
      rw [leave_eq]
      exact OrderedMap.delete_mapValues _ fun k hk c => if_neg hk
    rw [heq, List.foldl_cons, hdelete, removeSub_withConns, leave_eq]
    rfl

theorem moves_onClose (id : Nat) (s : Server) : Moves setup s (s.onClose id) := by
  unfold Server.onClose
  split
  · exact .refl
  · rename_i c hc
    obtain ⟨t, c', hmoves, hc', hempty, heq⟩ := leaveAll c.channels s c hc rfl
    exact heq ▸ hmoves.trans (Move.remove id c' hc' hempty).moves

theorem moves_onUpgrade (s : Server) : Moves setup s (s.onUpgrade setup) := by
  unfold Server.onUpgrade
  split
  · exact .refl
  · rename_i h
    rw [not_or, not_le] at h
    exact (Move.reserve _ (Or.inr (by omega))).moves

theorem moves_beat (now : Int) (s : Server) : Moves setup s (s.beat setup now) := by
  refine (Move.edit _ fun _ c => ?_).moves
  split
  · exact still_close c
  · exact Still.refl c

theorem moves_close (s : Server) : Moves setup s s.close :=
  Relation.ReflTransGen.trans (Move.edit _ fun _ c => still_close c).moves (moves_data ⟨rfl, rfl, rfl, rfl, rfl, rfl⟩)

theorem moves_refreshMarkets (now : Int) (ms : List MarketState) (s : Server) :
    Moves setup s (s.refreshMarkets setup now ms) := by
  unfold Server.refreshMarkets
  dsimp only
  split
  · exact moves_data ⟨rfl, rfl, rfl, rfl, rfl, rfl⟩
  · have hdata : Move setup s { s with
        lastMarketsAt := some now, validMarkets := ms.map (fun m => m.marketId.val), marketsFrame := some (ms, now) } :=
      Move.data _ ⟨rfl, rfl, rfl, rfl, rfl, rfl⟩
    exact hdata.moves.trans (Move.announce .markets (.markets ms now) trivial).moves

theorem moves_readFill (addresses : List (List Char)) (s : Server) (f : StreamFill) :
    Moves setup s (Server.readFill setup addresses s f) := by
  unfold Server.readFill
  split
  · exact .refl
  · have hseen : Move setup s { s with fillSeen := update s.fillSeen f.seenKey (some f.updatedAt) } :=
      Move.data _ ⟨rfl, rfl, rfl, rfl, rfl, rfl⟩
    have hsent := fun (xs : List Address) (x : Server) => moves_foldl (fun s : Server => s)
      (fun s a => s.broadcast setup (.fills (Wire.hexText 40 a.val)) (.fill a f))
      (fun s a => (Move.announce _ (.fill a f) trivial).moves) xs x
    exact (hseen.moves.trans (hsent _ _)).trans (moves_data ⟨rfl, rfl, rfl, rfl, rfl, rfl⟩)

theorem moves_pollFills (addresses : List (List Char)) (rows : List StreamFill) (s : Server) :
    Moves setup s (s.pollFills setup addresses rows) :=
  (moves_foldl (fun s => s) (Server.readFill setup addresses) (moves_readFill addresses) rows s).trans
    (moves_data ⟨rfl, rfl, rfl, rfl, rfl, rfl⟩)

/-! ## What is registered -/

/-- A connection is under a channel exactly when the channel is the connection's, and every bound holds. -/
structure Registered (setup : Setup) (s : Server) : Prop where
  subscribed : ∀ ch id, id ∈ (s.subs.get ch).getD [] ↔ ∃ c, s.conns.get id = some c ∧ ch ∈ c.channels
  inhabited : ∀ ch ids, s.subs.get ch = some ids → ids ≠ [] ∧ ids.Nodup
  channels : ∀ id c, s.conns.get id = some c →
    c.channels.Nodup ∧ c.channels.length ≤ setup.limits.maxChannelsPerConnection
  ids : ∀ id ∈ s.conns.keys, id < s.nextId
  capacity : s.conns.keys.length + s.reserved ≤ setup.limits.maxConnections

/-- The connections are changed in place, their channels kept. -/
structure SameShape (s t : Server) : Prop where
  conns : ∃ g : Nat → Conn → Conn, (∀ k, t.conns.get k = (s.conns.get k).map (g k)) ∧
    ∀ k c, (g k c).channels = c.channels
  keys : t.conns.keys = s.conns.keys
  subs : t.subs = s.subs
  reserved : t.reserved = s.reserved
  nextId : t.nextId = s.nextId

theorem Registered.sameShape (h : Registered setup s) (hst : SameShape s t) : Registered setup t := by
  obtain ⟨⟨g, hconns, hg⟩, hkeys, hsubs, hreserved, hnextId⟩ := hst
  refine ⟨fun ch id => ?_, hsubs ▸ h.inhabited, fun id c hc => ?_, hkeys ▸ hnextId ▸ h.ids, ?_⟩
  · rw [hsubs, h.subscribed, hconns]
    simp only [Option.map_eq_some_iff]
    constructor
    · rintro ⟨c, hc, hch⟩
      exact ⟨g id c, ⟨c, hc, rfl⟩, (hg id c).symm ▸ hch⟩
    · rintro ⟨_, ⟨c, hc, rfl⟩, hch⟩
      exact ⟨c, hc, hg id c ▸ hch⟩
  · rw [hconns, Option.map_eq_some_iff] at hc
    obtain ⟨c, hc, rfl⟩ := hc
    exact (hg id c).symm ▸ h.channels id c hc
  · rw [hkeys, hreserved]
    exact h.capacity

theorem channels_send (msg : ServerMessage) (c : Conn) : (c.send setup msg).channels = c.channels := by
  unfold Conn.send
  split
  · rfl
  · split <;> rfl

theorem sameShape_mapValues (g : Nat → Conn → Conn) (hg : ∀ k c, (g k c).channels = c.channels) :
    SameShape s { s with conns := s.conns.mapValues g } :=
  ⟨⟨g, fun _ => OrderedMap.get_mapValues g, hg⟩, OrderedMap.keys_mapValues _ g, rfl, rfl, rfl⟩

theorem sameShape_reply (id : Nat) (s : Server) (msg : ServerMessage) : SameShape s (s.reply setup id msg) :=
  sameShape_mapValues _ fun k c => by
    split
    · exact channels_send msg c
    · rfl

theorem sameShape_broadcast (ch : Channel) (s : Server) (msg : ServerMessage) : SameShape s (s.broadcast setup ch msg) :=
  sameShape_mapValues _ fun k c => by
    split
    · exact channels_send msg c
    · rfl

theorem sameShape_data (hconns : t.conns = s.conns) (hsubs : t.subs = s.subs) (hreserved : t.reserved = s.reserved)
    (hnextId : t.nextId = s.nextId) : SameShape s t :=
  ⟨⟨fun _ c => c, fun k => by rw [hconns]; simp, fun _ _ => rfl⟩, by rw [hconns], hsubs, hreserved, hnextId⟩

theorem registered_join {c : Conn} (h : Registered setup s) (hc : s.conns.get id = some c) (hnew : ch ∉ c.channels)
    (hroom : c.channels.length < setup.limits.maxChannelsPerConnection) : Registered setup (s.addSub id ch) := by
  have hget : ∀ k, (s.addSub id ch).conns.get k =
      (s.conns.get k).map fun c => if k = id then { c with channels := c.channels ++ [ch] } else c := fun k =>
    get_onConn s id k _
  have hnotin : id ∉ (s.subs.get ch).getD [] := by
    rw [h.subscribed]
    rintro ⟨c', hc', hmem⟩
    rw [hc, Option.some.injEq] at hc'
    exact hnew (hc' ▸ hmem)
  have hsubs : ∀ ch', ((s.addSub id ch).subs.get ch').getD [] =
      if ch' = ch then (s.subs.get ch).getD [] ++ [id] else (s.subs.get ch').getD [] := by
    intro ch'
    simp only [Server.addSub, OrderedMap.get_set]
    split <;> rfl
  have hmember : ∀ ch' k, (∃ c', (s.addSub id ch).conns.get k = some c' ∧ ch' ∈ c'.channels) ↔
      (∃ c', s.conns.get k = some c' ∧ ch' ∈ c'.channels) ∨ (ch' = ch ∧ k = id) := by
    intro ch' k
    simp only [hget, Option.map_eq_some_iff]
    constructor
    · rintro ⟨_, ⟨c', hc', rfl⟩, hmem⟩
      split at hmem
      · rename_i hk
        rcases List.mem_append.1 hmem with hmem | hmem
        · exact .inl ⟨c', hc', hmem⟩
        · exact .inr ⟨List.mem_singleton.1 hmem, hk⟩
      · exact .inl ⟨c', hc', hmem⟩
    · rintro (⟨c', hc', hmem⟩ | ⟨rfl, rfl⟩)
      · refine ⟨_, ⟨c', hc', rfl⟩, ?_⟩
        split
        · exact List.mem_append_left _ hmem
        · exact hmem
      · exact ⟨_, ⟨c, hc, rfl⟩, by simp⟩
  refine ⟨fun ch' k => ?_, fun ch' ids hids => ?_, fun k c' hc' => ?_, ?_, ?_⟩
  · rw [hmember, ← h.subscribed, hsubs]
    split
    · rename_i hch
      subst hch
      simp
    · rename_i hch
      simp [hch]
  · simp only [Server.addSub, OrderedMap.get_set] at hids
    split at hids
    · rw [Option.some.injEq] at hids
      subst hids
      refine ⟨by simp, List.Nodup.append ?_ (List.nodup_singleton id) ?_⟩
      · cases hold : s.subs.get ch with
        | none => exact List.nodup_nil
        | some old => exact (h.inhabited ch old hold).2
      · intro x hx hx'
        exact hnotin (List.mem_singleton.1 hx' ▸ hx)
    · exact h.inhabited ch' ids hids
  · rw [hget, Option.map_eq_some_iff] at hc'
    obtain ⟨c₀, hc₀, rfl⟩ := hc'
    split
    · rename_i hk
      subst hk
      rw [hc, Option.some.injEq] at hc₀
      subst hc₀
      refine ⟨List.Nodup.append (h.channels k c hc).1 (List.nodup_singleton ch) ?_, ?_⟩
      · intro x hx hx'
        exact hnew (List.mem_singleton.1 hx' ▸ hx)
      · simp only [List.length_append, List.length_singleton]
        omega
    · exact h.channels k c₀ hc₀
  · intro k hk
    exact h.ids k (by simpa [Server.addSub, Server.onConn] using hk)
  · have hkeys : (s.addSub id ch).conns.keys = s.conns.keys := OrderedMap.keys_mapValues _ _
    rw [hkeys]
    exact h.capacity

/-- What is left under a channel. -/
theorem get_removeSub (s : Server) (id : Nat) (ch ch' : Channel) : ((s.removeSub id ch).subs.get ch').getD [] =
    if ch' = ch then ((s.subs.get ch).getD []).filter fun k => decide (k ≠ id) else (s.subs.get ch').getD [] := by
  unfold Server.removeSub
  cases hids : s.subs.get ch with
  | none =>
    dsimp only
    split
    · rename_i h
      subst h
      rw [hids]
      rfl
    · rfl
  | some ids =>
    dsimp only
    split
    · simp only [OrderedMap.get_set]
      split <;> rfl
    · rename_i hleft
      have hforget : (Server.forget { s with subs := s.subs.delete ch } ch).subs = s.subs.delete ch := by cases ch <;> rfl
      rw [hforget, OrderedMap.get_delete]
      split
      · simpa using (not_not.1 hleft).symm
      · rfl

theorem removeSub_inhabited (hs : ∀ ch ids, s.subs.get ch = some ids → ids ≠ [] ∧ ids.Nodup) (id : Nat) (ch : Channel) :
    ∀ ch' ids, (s.removeSub id ch).subs.get ch' = some ids → ids ≠ [] ∧ ids.Nodup := by
  intro ch' ids hids
  unfold Server.removeSub at hids
  cases hold : s.subs.get ch with
  | none =>
    rw [hold] at hids
    exact hs ch' ids hids
  | some old =>
    simp only [hold] at hids
    split at hids
    · rename_i hleft
      simp only [OrderedMap.get_set] at hids
      split at hids
      · rw [Option.some.injEq] at hids
        subst hids
        exact ⟨hleft, (hs ch old hold).2.filter _⟩
      · exact hs ch' ids hids
    · have hforget : (Server.forget { s with subs := s.subs.delete ch } ch).subs = s.subs.delete ch := by cases ch <;> rfl
      rw [hforget, OrderedMap.get_delete] at hids
      split at hids
      · exact absurd hids (by simp)
      · exact hs ch' ids hids

theorem removeSub_frame (s : Server) (id : Nat) (ch : Channel) : (s.removeSub id ch).conns = s.conns ∧
    (s.removeSub id ch).reserved = s.reserved ∧ (s.removeSub id ch).nextId = s.nextId := by
  unfold Server.removeSub
  split
  · exact ⟨rfl, rfl, rfl⟩
  · dsimp only
    split
    · exact ⟨rfl, rfl, rfl⟩
    · cases ch <;> exact ⟨rfl, rfl, rfl⟩

theorem registered_leave (h : Registered setup s) : Registered setup (s.leave id ch) := by
  obtain ⟨-, hreserved, hnextId⟩ := removeSub_frame s id ch
  have hget : ∀ k, (s.leave id ch).conns.get k =
      (s.conns.get k).map fun c => if k = id then { c with channels := c.channels.erase ch } else c := by
    intro k
    rw [leave_eq]
    exact get_onConn s id k _
  have hkeys : (s.leave id ch).conns.keys = s.conns.keys := by
    rw [leave_eq]
    exact OrderedMap.keys_mapValues _ _
  have hsubs : (s.leave id ch).subs = (s.removeSub id ch).subs := by rw [leave_eq]; rfl
  refine ⟨fun ch' k => ?_, ?_, fun k c' hc' => ?_, ?_, ?_⟩
  · rw [hsubs, get_removeSub, hget]
    simp only [Option.map_eq_some_iff]
    constructor
    · intro hmem
      split at hmem
      · rename_i hch
        subst hch
        obtain ⟨hmem, hne⟩ := List.mem_filter.1 hmem
        obtain ⟨c, hc, hin⟩ := (h.subscribed ch' k).1 hmem
        exact ⟨c, ⟨c, hc, if_neg (of_decide_eq_true hne)⟩, hin⟩
      · rename_i hch
        obtain ⟨c, hc, hin⟩ := (h.subscribed ch' k).1 hmem
        refine ⟨_, ⟨c, hc, rfl⟩, ?_⟩
        split
        · exact (List.mem_erase_of_ne hch).2 hin
        · exact hin
    · rintro ⟨_, ⟨c, hc, rfl⟩, hin⟩
      have hnodup := (h.channels k c hc).1
      split at hin
      · rename_i hk
        obtain ⟨hne, hin⟩ := hnodup.mem_erase_iff.1 hin
        rw [if_neg hne]
        exact (h.subscribed ch' k).2 ⟨c, hc, hin⟩
      · rename_i hk
        have hmem := (h.subscribed ch' k).2 ⟨c, hc, hin⟩
        split
        · rename_i hch
          subst hch
          exact List.mem_filter.2 ⟨hmem, by simpa using hk⟩
        · exact hmem
  · rw [hsubs]
    exact removeSub_inhabited h.inhabited id ch
  · rw [hget, Option.map_eq_some_iff] at hc'
    obtain ⟨c, hc, rfl⟩ := hc'
    obtain ⟨hnodup, hlen⟩ := h.channels k c hc
    split
    · exact ⟨hnodup.erase ch, List.length_erase_le.trans hlen⟩
    · exact ⟨hnodup, hlen⟩
  · have hnext : (s.leave id ch).nextId = s.nextId := by rw [leave_eq]; exact hnextId
    rw [hkeys, hnext]
    exact h.ids
  · have hres : (s.leave id ch).reserved = s.reserved := by rw [leave_eq]; exact hreserved
    rw [hkeys, hres]
    exact h.capacity

theorem registered_connect (h : Registered setup s) (now : Int) (hreserved : 0 < s.reserved) :
    Registered setup (s.onConnection now) := by
  have hfresh : s.nextId ∉ s.conns.keys := fun hmem => absurd (h.ids _ hmem) (lt_irrefl _)
  have hnone : s.conns.get s.nextId = none := OrderedMap.get_eq_none.2 hfresh
  have hget : ∀ k, (s.onConnection now).conns.get k = if k = s.nextId then some (Conn.new now) else s.conns.get k :=
    fun k => OrderedMap.get_set
  have hkeys : (s.onConnection now).conns.keys = s.conns.keys ++ [s.nextId] := by
    show (s.conns.set s.nextId (Conn.new now)).keys = _
    rw [OrderedMap.keys_set, if_neg hfresh]
  refine ⟨fun ch k => (h.subscribed ch k).trans ?_, h.inhabited, fun k c hc => ?_, fun k hk => ?_, ?_⟩
  · rw [hget]
    split
    · rename_i hk
      subst hk
      simp [hnone, Conn.new]
    · rfl
  · rw [hget] at hc
    split at hc
    · rw [Option.some.injEq] at hc
      subst hc
      exact ⟨List.nodup_nil, Nat.zero_le _⟩
    · exact h.channels k c hc
  · rw [hkeys] at hk
    show k < s.nextId + 1
    rcases List.mem_append.1 hk with hk | hk
    · have := h.ids k hk
      omega
    · have := List.mem_singleton.1 hk
      omega
  · have hcap := h.capacity
    rw [hkeys]
    show _ + (s.reserved - 1) ≤ _
    simp only [List.length_append, List.length_singleton]
    omega

theorem registered_remove {c : Conn} (h : Registered setup s) (hc : s.conns.get id = some c) (hempty : c.channels = []) :
    Registered setup { s with conns := s.conns.delete id } := by
  have hget : ∀ k, (s.conns.delete id).get k = if k = id then none else s.conns.get k := fun k => OrderedMap.get_delete
  have hkeys : (s.conns.delete id).keys = s.conns.keys.filter fun x => decide (x ≠ id) := OrderedMap.keys_delete
  refine ⟨fun ch k => (h.subscribed ch k).trans ?_, h.inhabited, fun k c' hc' => ?_, fun k hk => ?_, ?_⟩
  · rw [hget]
    split
    · rename_i hk
      subst hk
      simp [hc, hempty]
    · rfl
  · rw [hget] at hc'
    split at hc'
    · exact absurd hc' (by simp)
    · exact h.channels k c' hc'
  · exact h.ids k (OrderedMap.mem_keys_delete.1 hk).2
  · have hlen := List.length_filter_le (fun x => decide (x ≠ id)) s.conns.keys
    have hcap := h.capacity
    show (s.conns.delete id).keys.length + s.reserved ≤ _
    rw [hkeys]
    omega

/-- **Every move keeps the register.** -/
theorem move_registered (h : Registered setup s) (hm : Move setup s t) : Registered setup t := by
  cases hm with
  | edit g hg => exact h.sameShape (sameShape_mapValues g fun k c => (hg k c).channels)
  | reply id msg _ => exact h.sameShape (sameShape_reply id s msg)
  | snapshot id marketId f _ => exact h.sameShape (sameShape_reply id s _)
  | announce ch msg _ => exact h.sameShape (sameShape_broadcast ch s msg)
  | leave id ch c _ _ => exact registered_leave h
  | connect now hreserved => exact registered_connect h now hreserved
  | remove id c hc hempty => exact registered_remove h hc hempty
  | reserve n hn =>
    refine ⟨h.subscribed, h.inhabited, h.channels, h.ids, ?_⟩
    have hcap := h.capacity
    show s.conns.keys.length + n ≤ _
    omega
  | data t hd => exact h.sameShape (sameShape_data hd.conns hd.subs hd.reserved hd.nextId)

theorem moves_registered (h : Registered setup s) (hm : Moves setup s t) : Registered setup t := by
  induction hm with
  | refl => exact h
  | tail _ hm ih => exact move_registered ih hm

theorem registered_joins (h : Registered setup s) (id : Nat) (raws : List (List Char)) :
    Registered setup (s.joins setup id raws).server := by
  suffices hall : ∀ p : Server.Subscribing, Registered setup p.server →
      Registered setup (raws.foldl (Server.subscribeOne setup id) p).server from hall ⟨s, [], [], [], []⟩ h
  induction raws with
  | nil => exact fun _ hp => hp
  | cons raw raws ih =>
    intro p hp
    refine ih _ ?_
    unfold Server.subscribeOne
    split
    · exact hp
    · rename_i c hc
      split
      · exact hp
      · rename_i ch _
        dsimp only
        split
        · exact hp
        · rename_i hnew
          split
          · exact hp
          · rename_i hroom
            exact registered_join hp hc hnew (not_le.1 hroom)

theorem registered_subscribe (h : Registered setup s) (id : Nat) (raws : List (List Char)) :
    Registered setup (s.subscribe setup id raws) := moves_registered (registered_joins h id raws) (moves_subscribe id s raws)

/-! ## The service, step by step -/

variable {v w : Service} {a : Act} {now : Int}

theorem moves_enterFills (v : Service) (now : Int) : Moves setup v.server (v.enterFills now).server := by
  unfold Service.enterFills
  dsimp only
  split
  · exact moves_data ⟨rfl, rfl, rfl, rfl, rfl, rfl⟩
  · exact moves_data ⟨rfl, rfl, rfl, rfl, rfl, rfl⟩

theorem moves_enterTrades (v : Service) (now : Int) (rest : List Nat) :
    Moves setup v.server (v.enterTrades now rest).server := by
  cases rest with
  | nil => exact moves_enterFills v now
  | cons marketId rest =>
    simp only [Service.enterTrades]
    split <;> exact .refl

theorem moves_enterBooks (v : Service) (now nowSec : Int) (rest : List Nat) :
    Moves setup v.server (v.enterBooks now nowSec rest).server := by
  cases rest with
  | nil => exact moves_enterTrades v now _
  | cons marketId rest => exact .refl

theorem moves_startBooks (v : Service) (now : Int) : Moves setup v.server (v.startBooks now).server :=
  moves_enterBooks v now _ _

/-- What a step does to the server: moves, a subscription, or moves after it has taken up the poll's answer. -/
inductive Stepped (setup : Setup) (v : Service) : Act → Server → Prop where
  | moves {a : Act} {t : Server} (h : Moves setup v.server t) : Stepped setup v a t
  | subscribed {a : Act} {id : Nat} {now : Int} {raws : List (List Char)} {t : Server}
      (h : t = (v.server.onConn id (Server.counted setup now)).subscribe setup id raws) : Stepped setup v a t
  | book {now nowSec : Int} {marketId : Nat} {rest : List Nat} {bids asks : List BookLevel} {t : Server}
      (hstage : v.stage = .books nowSec marketId rest (some (bids, asks)))
      (h : Moves setup (v.server.pollBook setup now marketId bids asks) t) : Stepped setup v (.resume now) t
  | tip {now : Int} {marketId : Nat} {rest : List Nat} {tip : Option TradeKey} {t : Server}
      (hstage : v.stage = .tip marketId rest (some tip)) (h : Moves setup (v.server.pollTip marketId tip) t) :
      Stepped setup v (.resume now) t
  | tape {now : Int} {marketId : Nat} {after : Option TradeKey} {rest : List Nat} {fills : List StreamFill} {t : Server}
      (hstage : v.stage = .tape marketId after rest (some fills))
      (h : Moves setup (v.server.pollTape setup marketId fills) t) : Stepped setup v (.resume now) t

theorem act_stepped (ha : enabled v a) : Stepped setup v a (act setup v a).server := by
  cases a with
  | write db => exact .moves .refl
  | settle f => exact .moves .refl
  | upgrade => exact .moves (moves_onUpgrade v.server)
  | connected now => exact .moves (Move.connect now ha).moves
  | abandoned => exact .moves (Move.reserve _ (Or.inl (Nat.sub_le _ _))).moves
  | message id now data =>
    rcases (moves_onMessage id now data v.server : Moves setup _ _ ∨ _) with h | ⟨raws, h⟩
    · exact .moves h
    · exact .subscribed h
  | pong id now => exact .moves (moves_onConn id fun c => ⟨rfl, rfl, fun h => h⟩)
  | drained id left => exact .moves (moves_onConn id fun c => ⟨rfl, rfl, fun h => h⟩)
  | closed id => exact .moves (moves_onClose id v.server)
  | beat now => exact .moves (moves_beat now v.server)
  | shutdown => exact .moves (moves_close v.server)
  | poll now =>
    refine .moves ?_
    show Moves setup v.server (v.poll setup now).server
    unfold Service.poll
    split
    · exact moves_startBooks v now
    · exact .refl
  | refresh ms now =>
    refine .moves ?_
    show Moves setup v.server (v.refresh setup ms now).server
    unfold Service.refresh
    split
    · rename_i startedAt _
      exact (moves_refreshMarkets startedAt ms v.server).trans
        (moves_startBooks (v.withServer fun x => x.refreshMarkets setup startedAt ms) now)
    · exact moves_refreshMarkets now ms v.server
  | query =>
    refine .moves ?_
    show Moves setup v.server (v.query setup).server
    unfold Service.query
    split <;> exact .refl
  | resume now =>
    show Stepped setup v (.resume now) (v.resume setup now).server
    unfold Service.resume
    split
    · rename_i nowSec marketId rest bids asks hstage
      exact .book hstage (moves_enterBooks (v.withServer fun x => x.pollBook setup now marketId bids asks) now nowSec rest)
    · rename_i marketId rest tip hstage
      exact .tip hstage (moves_enterTrades (v.withServer fun x => x.pollTip marketId tip) now rest)
    · rename_i marketId after rest fills hstage
      exact .tape hstage (moves_enterTrades (v.withServer fun x => x.pollTape setup marketId fills) now rest)
    · exact .moves .refl
  | fills rows =>
    refine .moves ?_
    show Moves setup v.server (v.readFills setup rows).server
    unfold Service.readFills
    split
    · exact moves_pollFills _ rows v.server
    · exact .refl
  | fail now =>
    refine .moves ?_
    show Moves setup v.server (v.fail now).server
    unfold Service.fail
    split
    · exact .refl
    · exact moves_startBooks v now
    · exact moves_enterTrades v now _
    · exact moves_enterFills v now
    · exact moves_enterFills v now
    · exact .refl

theorem sameShape_trans (h : SameShape s t) (h' : SameShape t u) : SameShape s u := by
  obtain ⟨g, hg, hch⟩ := h.conns
  obtain ⟨g', hg', hch'⟩ := h'.conns
  refine ⟨⟨fun k c => g' k (g k c), fun k => ?_, fun k c => (hch' k _).trans (hch k c)⟩, h'.keys.trans h.keys,
    h'.subs.trans h.subs, h'.reserved.trans h.reserved, h'.nextId.trans h.nextId⟩
  rw [hg', hg, Option.map_map]
  rfl

theorem sameShape_pollBook (now : Int) (marketId : Nat) (bids asks : List BookLevel) (s : Server) :
    SameShape s (s.pollBook setup now marketId bids asks) := by
  unfold Server.pollBook
  split
  · exact sameShape_data rfl rfl rfl rfl
  · have hset : SameShape s { s with books := update s.books marketId (some ⟨bids, asks, now⟩) } :=
      sameShape_data rfl rfl rfl rfl
    exact sameShape_trans hset (sameShape_broadcast _ _ _)

theorem sameShape_pollTape (marketId : Nat) (fills : List StreamFill) (s : Server) :
    SameShape s (s.pollTape setup marketId fills) := by
  have hprints : ∀ (xs : List StreamFill) (x : Server),
      SameShape x (xs.foldl (fun s f => s.broadcast setup (.trades marketId) (.trade f)) x) := by
    intro xs
    induction xs with
    | nil => exact fun _ => sameShape_data rfl rfl rfl rfl
    | cons f xs ih => exact fun x => sameShape_trans (sameShape_broadcast _ x _) (ih _)
  unfold Server.pollTape
  dsimp only
  split
  · exact sameShape_trans (hprints _ s) (sameShape_data rfl rfl rfl rfl)
  · exact hprints _ s

theorem step_registered (h : Registered setup v.server) (hstep : (machine setup).step v a w) : Registered setup w.server := by
  obtain ⟨ha, rfl⟩ := hstep
  cases (act_stepped ha : Stepped setup v a _) with
  | moves hm => exact moves_registered h hm
  | subscribed ht => exact ht ▸ registered_subscribe (moves_registered h (moves_counted setup _ _ _)) _ _
  | book _ hm => exact moves_registered (h.sameShape (sameShape_pollBook _ _ _ _ _)) hm
  | @tip _ marketId _ tip _ _ hm =>
    have hshape : SameShape v.server (v.server.pollTip marketId tip) := sameShape_data rfl rfl rfl rfl
    exact moves_registered (h.sameShape hshape) hm
  | tape _ hm => exact moves_registered (h.sameShape (sameShape_pollTape _ _ _)) hm

/-- **The register is exact and bounded.**  In every state the server can reach, whatever sockets open, send and close
while a poll waits for the database: a connection is under a channel exactly when it is subscribed to it, once, no channel
is kept that nobody is on, no connection has more channels than the limit, and open connections and accepted upgrades
together are never more than the limit. -/
theorem server_registered (h : Reachable (machine setup) v) : Registered setup v.server := by
  refine h.invariant (fun v => Registered setup v.server) (fun v hv => ?_) fun v a w _ hv hstep => step_registered hv hstep
  rw [hv.server]
  refine ⟨fun ch id => ?_, fun ch ids hids => ?_, fun id c hc => ?_, fun id hid => ?_, Nat.zero_le _⟩
  · simp [Server.new]
  · exact absurd hids (by simp [Server.new])
  · exact absurd hc (by simp [Server.new])
  · exact absurd hid (by simp [Server.new])

/-! ## A client that joins -/

def sampleSetup : Setup := ⟨DEFAULT_LIMITS, fun address => address, fun _ => 100⟩

def sampleMarket : MarketState := ⟨1, "BTC-PERP", true, 100, 100, 0, 0, 0⟩

/-- A market is listed, a client connects and subscribes to its book and its trades. -/
def joining : List Act :=
  [.refresh [sampleMarket] 0, .upgrade, .connected 0,
    .message 1 0 (.text (some (.obj [("type", .str "subscribe".toList),
      ("channels", .arr [.str "orderbook:1".toList, .str "trades:1".toList])])))]

def sampleStart : Service where
  db := PublicBook.Sample.resting
  tape := fun _ => []
  server := Server.new
  stage := .idle

def sampleAt (acts : List Act) : Service := acts.foldl (act sampleSetup) sampleStart

theorem sampleAt_run {acts : List Act} {P : Service → Act → Prop} {v : Service} (hP : ∀ v a, P v a → enabled v a)
    (h : Along (act sampleSetup) P v acts) : Run ((machine sampleSetup).restrict P) v acts (acts.foldl (act sampleSetup) v) :=
  Run.of_along (M := (machine sampleSetup).restrict P) (fun v a ha => ⟨ha, hP v a ha, rfl⟩) h

theorem sampleAt_reachable {acts : List Act} (h : Along (act sampleSetup) enabled sampleStart acts) :
    Reachable (machine sampleSetup) (sampleAt acts) :=
  ⟨sampleStart, acts, ⟨rfl, rfl, fun _ => rfl⟩, (sampleAt_run (fun _ _ ha => ha) h).of_restrict⟩

theorem sampleAt_conn (acts : List Act) (k : Nat) (P : Conn → Prop) [DecidablePred P]
    (h : ((sampleAt acts).server.conns.get k).any (fun c => decide (P c)) = true) :
    ∃ c, (sampleAt acts).server.conns.get k = some c ∧ P c := by
  obtain ⟨c, hc, hP⟩ := (Option.any_eq_true _ _).1 h
  exact ⟨c, hc, of_decide_eq_true hP⟩

theorem server_registered_joining : Registered sampleSetup (sampleAt joining).server ∧
    (sampleAt joining).server.subs.get (.trades 1) = some [1] :=
  ⟨server_registered (sampleAt_reachable (by decide +kernel)), by decide +kernel⟩

end Kryon.StreamServer
