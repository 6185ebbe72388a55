import Kryon.StreamRegister
/-!
# StreamDelivery — what a subscriber has been sent

A subscriber that keeps up has, as its last book of a market, the book the server last read there (`books_current`), and as
its prints the tape itself, without a gap, a repetition or a change of order, from where the server's cursor stood
(`tape_delivered`); whatever else happens between a poll's statements and their answers.
-/
namespace Kryon.StreamServer

open Function (update)
open Wire (Channel ServerMessage StreamFill MarketState Json)
open PublicBook (BookLevel)
open Transition

/-- The books of a market among messages. -/
def booksOf (marketId : Nat) (sent : List ServerMessage) : List (List BookLevel × List BookLevel) :=
  sent.filterMap fun msg => match msg with
    | .orderbook m bids asks _ => if m = marketId then some (bids, asks) else none
    | .trade _ | .subscribed _ | .unsubscribed _ | .pong | .error _ _ | .fill _ _ | .markets _ _ => none

def lastBook (marketId : Nat) (sent : List ServerMessage) : Option (List BookLevel × List BookLevel) :=
  (booksOf marketId sent).getLast?

/-- The prints of a market among messages. -/
def printsOf (marketId : Nat) (sent : List ServerMessage) : List StreamFill :=
  sent.filterMap fun msg => match msg with
    | .trade f => if f.marketId.val = marketId then some f else none
    | .orderbook _ _ _ _ | .subscribed _ | .unsubscribed _ | .pong | .error _ _ | .fill _ _ | .markets _ _ => none

def BookFrame.levels (f : BookFrame) : List BookLevel × List BookLevel := (f.bids, f.asks)

variable {setup : Setup} {s t u : Server} {v w x : Service} {id k m : Nat} {ch : Channel} {msg : ServerMessage}
  {c c' : Conn} {a : Act} {now : Int}

theorem printsOf_append (sent sent' : List ServerMessage) : printsOf m (sent ++ sent') = printsOf m sent ++ printsOf m sent' :=
  List.filterMap_append

theorem printsOf_plain (h : Plain msg) : printsOf m [msg] = [] := by
  cases msg <;> first | rfl | exact absurd h id

theorem lastBook_plain (h : Plain msg) (sent : List ServerMessage) : lastBook m (sent ++ [msg]) = lastBook m sent := by
  have hnone : booksOf m [msg] = [] := by cases msg <;> first | rfl | exact absurd h id
  have happend : booksOf m (sent ++ [msg]) = booksOf m sent ++ booksOf m [msg] := List.filterMap_append
  rw [lastBook, happend, hnone, List.append_nil, lastBook]

theorem lastBook_book (f : BookFrame) (m' : Nat) (sent : List ServerMessage) :
    lastBook m (sent ++ [f.message m']) = if m' = m then some f.levels else lastBook m sent := by
  have happend : booksOf m (sent ++ [f.message m']) = booksOf m sent ++ booksOf m [f.message m'] := List.filterMap_append
  rw [lastBook, happend]
  by_cases h : m' = m
  · have hone : booksOf m [f.message m'] = [f.levels] := by simp [booksOf, BookFrame.message, BookFrame.levels, h]
    rw [if_pos h, hone]
    simp
  · have hnone : booksOf m [f.message m'] = [] := by simp [booksOf, BookFrame.message, h]
    rw [if_neg h, hnone, List.append_nil, lastBook]

theorem printsOf_book (f : BookFrame) (m' : Nat) : printsOf m [f.message m'] = [] := rfl

/-- **A healthy connection was sent what was to be sent.** -/
theorem send_healthy (h : (c.send setup msg).healthy) : c.healthy ∧ (c.send setup msg).sent = c.sent ++ [msg] := by
  unfold Conn.send at h ⊢
  split
  · rename_i hbad
    rw [if_pos hbad] at h
    exact absurd hbad (by simp [h.1, h.2])
  · rename_i hok
    rw [if_neg hok] at h
    split
    · rename_i hslow
      rw [if_pos hslow] at h
      exact absurd h.2 (by simp)
    · rename_i hkeeps
      rw [if_neg hkeeps] at h
      exact ⟨h, rfl⟩

/-! ## A connection through a move -/

/-- What a connection was, and what it has been sent since. -/
structure Was (s : Server) (k : Nat) (c' : Conn) (msgs : List ServerMessage) (c : Conn) : Prop where
  conn : s.conns.get k = some c
  healthy : c.healthy
  sent : c'.sent = c.sent ++ msgs
  channels : c'.channels ⊆ c.channels

theorem was_mapValues {g : Nat → Conn → Conn} {msgs : List ServerMessage} (hc' : (s.conns.mapValues g).get k = some c')
    (hg : ∀ c, (g k c).channels = c.channels ∧ ((g k c).healthy → c.healthy ∧ (g k c).sent = c.sent ++ msgs))
    (h : c'.healthy) : ∃ c, Was s k c' msgs c := by
  rw [OrderedMap.get_mapValues, Option.map_eq_some_iff] at hc'
  obtain ⟨c, hc, rfl⟩ := hc'
  obtain ⟨hhealthy, hsent⟩ := (hg c).2 h
  exact ⟨c, hc, hhealthy, hsent, fun ch hch => (hg c).1 ▸ hch⟩

theorem was_reply (hc' : (s.reply setup id msg).conns.get k = some c') (h : c'.healthy) :
    ∃ c, Was s k c' (if k = id then [msg] else []) c := by
  refine was_mapValues hc' (fun c => ?_) h
  split
  · exact ⟨channels_send msg c, send_healthy⟩
  · exact ⟨rfl, fun hh => ⟨hh, (List.append_nil _).symm⟩⟩

theorem was_broadcast (hc' : (s.broadcast setup ch msg).conns.get k = some c') (h : c'.healthy) :
    ∃ c, Was s k c' (if k ∈ (s.subs.get ch).getD [] then [msg] else []) c := by
  refine was_mapValues hc' (fun c => ?_) h
  split
  · exact ⟨channels_send msg c, send_healthy⟩
  · exact ⟨rfl, fun hh => ⟨hh, (List.append_nil _).symm⟩⟩

theorem was_leave (hc' : (s.leave id ch).conns.get k = some c') (h : c'.healthy) : ∃ c, Was s k c' [] c := by
  rw [leave_eq] at hc'
  have hget : (s.onConn id fun c => { c with channels := c.channels.erase ch }).conns.get k = some c' := hc'
  rw [get_onConn, Option.map_eq_some_iff] at hget
  obtain ⟨c, hc, rfl⟩ := hget
  refine ⟨c, hc, ?_, ?_, ?_⟩
  · split at h <;> exact h
  · split <;> exact (List.append_nil _).symm
  · split
    · exact List.erase_subset
    · exact fun _ hx => hx

/-- The books and cursors of a server that a connection leaves: those of the channel it leaves may be forgotten. -/
theorem leave_forgets (s : Server) (id : Nat) (ch : Channel) :
    ((s.leave id ch).books m = s.books m ∨ (s.leave id ch).books m = none) ∧
      ((s.leave id ch).tradeCursors m = s.tradeCursors m ∨
        ((s.leave id ch).tradeCursors m = none ∧ (s.leave id ch).subs.get (.trades m) = none)) := by
  rw [leave_eq]
  simp only [Server.withConns, Server.removeSub]
  cases s.subs.get ch with
  | none => exact ⟨.inl rfl, .inl rfl⟩
  | some ids =>
    dsimp only
    split
    · exact ⟨.inl rfl, .inl rfl⟩
    · cases ch with
      | orderbook m' =>
        refine ⟨?_, .inl rfl⟩
        simp only [Server.forget, Function.update_apply]
        split
        · exact .inr rfl
        · exact .inl rfl
      | trades m' =>
        refine ⟨.inl rfl, ?_⟩
        simp only [Server.forget, Function.update_apply, OrderedMap.get_delete]
        split
        · rename_i h
          subst h
          exact .inr ⟨rfl, if_pos rfl⟩
        · exact .inl rfl
      | fills address => exact ⟨.inl rfl, .inl rfl⟩
      | markets => exact ⟨.inl rfl, .inl rfl⟩

/-- What a healthy connection was before a move: its prints are the same, and its last book of a market too or the cached
one. -/
structure Through (s : Server) (k : Nat) (c c' : Conn) : Prop where
  conn : s.conns.get k = some c
  healthy : c.healthy
  channels : c'.channels ⊆ c.channels
  prints : ∀ m, printsOf m c'.sent = printsOf m c.sent
  books : ∀ m, lastBook m c'.sent = lastBook m c.sent ∨ ∃ f, s.books m = some f ∧ lastBook m c'.sent = some f.levels

theorem Was.through_nil (h : Was s k c' [] c) : Through s k c c' := by
  have hsent : c'.sent = c.sent := h.sent.trans (List.append_nil _)
  exact ⟨h.conn, h.healthy, h.channels, fun m => by rw [hsent], fun m => .inl (by rw [hsent])⟩

theorem Was.through_plain (h : Was s k c' [msg] c) (hmsg : Plain msg) : Through s k c c' :=
  ⟨h.conn, h.healthy, h.channels, fun m => by rw [h.sent, printsOf_append, printsOf_plain hmsg, List.append_nil],
    fun m => .inl (by rw [h.sent, lastBook_plain hmsg])⟩

theorem Was.through_book {f : BookFrame} (h : Was s k c' [f.message m] c) (hf : s.books m = some f) : Through s k c c' := by
  refine ⟨h.conn, h.healthy, h.channels, fun m' => ?_, fun m' => ?_⟩
  · rw [h.sent, printsOf_append, printsOf_book, List.append_nil]
  · rw [h.sent, lastBook_book]
    split
    · rename_i heq
      exact .inr ⟨f, heq ▸ hf, rfl⟩
    · exact .inl rfl

/-- **What a move leaves of a healthy connection**, unless the move connected it. -/
theorem move_through (hm : Move setup s t) (hc' : t.conns.get k = some c') (h : c'.healthy) :
    (∃ c, Through s k c c') ∨ (k = s.nextId ∧ c'.channels = []) := by
  cases hm with
  | edit g hg =>
    have hwas : ∃ c, Was s k c' [] c := was_mapValues hc' (fun c =>
      ⟨(hg k c).channels, fun hh => ⟨(hg k c).healthy hh, by rw [(hg k c).sent, List.append_nil]⟩⟩) h
    obtain ⟨c, hwas⟩ := hwas
    exact .inl ⟨c, hwas.through_nil⟩
  | reply id msg hmsg =>
    obtain ⟨c, hwas⟩ := was_reply hc' h
    split at hwas
    · exact .inl ⟨c, hwas.through_plain hmsg⟩
    · exact .inl ⟨c, hwas.through_nil⟩
  | snapshot id m f hf =>
    obtain ⟨c, hwas⟩ := was_reply hc' h
    split at hwas
    · exact .inl ⟨c, hwas.through_book hf⟩
    · exact .inl ⟨c, hwas.through_nil⟩
  | announce ch msg hmsg =>
    obtain ⟨c, hwas⟩ := was_broadcast hc' h
    split at hwas
    · exact .inl ⟨c, hwas.through_plain hmsg⟩
    · exact .inl ⟨c, hwas.through_nil⟩
  | leave id ch c _ _ =>
    obtain ⟨c, hwas⟩ := was_leave hc' h
    exact .inl ⟨c, hwas.through_nil⟩
  | connect now _ =>
    have hget : (s.conns.set s.nextId (Conn.new now)).get k = some c' := hc'
    rw [OrderedMap.get_set] at hget
    split at hget
    · rename_i hk
      rw [Option.some.injEq] at hget
      exact .inr ⟨hk, hget ▸ rfl⟩
    · exact .inl ⟨c', hget, h, fun _ hx => hx, fun _ => rfl, fun _ => .inl rfl⟩
  | remove id c hc hempty =>
    have hget : (s.conns.delete id).get k = some c' := hc'
    rw [OrderedMap.get_delete] at hget
    split at hget
    · exact absurd hget (by simp)
    · exact .inl ⟨c', hget, h, fun _ hx => hx, fun _ => rfl, fun _ => .inl rfl⟩
  | reserve n _ => exact .inl ⟨c', hc', h, fun _ hx => hx, fun _ => rfl, fun _ => .inl rfl⟩
  | data t hd => exact .inl ⟨c', hd.conns ▸ hc', h, fun _ hx => hx, fun _ => rfl, fun _ => .inl rfl⟩

/-- A move takes up no book and moves no cursor, and forgets a cursor only where nobody is left. -/
theorem move_kept (hm : Move setup s t) : (t.books m = s.books m ∨ t.books m = none) ∧
    (t.tradeCursors m = s.tradeCursors m ∨ (t.tradeCursors m = none ∧ t.subs.get (.trades m) = none)) ∧
    s.nextId ≤ t.nextId := by
  cases hm with
  | leave id ch c _ _ =>
    obtain ⟨hbooks, hcursors⟩ := leave_forgets (m := m) s id ch
    refine ⟨hbooks, hcursors, ?_⟩
    rw [leave_eq]
    exact (removeSub_frame s id ch).2.2.ge
  | connect now _ => exact ⟨.inl rfl, .inl rfl, Nat.le_succ _⟩
  | data t hd => exact ⟨.inl (by rw [hd.books]), .inl (by rw [hd.tradeCursors]), hd.nextId.ge⟩
  | edit | reply | snapshot | announce | remove | reserve => exact ⟨.inl rfl, .inl rfl, le_refl _⟩

/-! ## Books -/

/-- Healthy subscribers were last sent the cached book, but for a connection on channels in `E`. -/
def UpToDateBut (id : Nat) (E : Channel → Prop) (s : Server) : Prop :=
  ∀ m k c f, s.conns.get k = some c → c.healthy → .orderbook m ∈ c.channels → s.books m = some f →
    (k = id → ¬ E (.orderbook m)) → lastBook m c.sent = some f.levels

/-- Every healthy subscriber was last sent the cached book. -/
def UpToDate (s : Server) : Prop :=
  ∀ m k c f, s.conns.get k = some c → c.healthy → .orderbook m ∈ c.channels → s.books m = some f →
    lastBook m c.sent = some f.levels

theorem UpToDate.but (h : UpToDate s) (id : Nat) (E : Channel → Prop) : UpToDateBut id E s :=
  fun m k c f hc hh hch hf _ => h m k c f hc hh hch hf

theorem UpToDateBut.none (h : UpToDateBut id (fun _ => False) s) : UpToDate s :=
  fun m k c f hc hh hch hf => h m k c f hc hh hch hf fun _ => not_false

theorem move_upToDate {E : Channel → Prop} (h : UpToDateBut id E s) (hm : Move setup s t) : UpToDateBut id E t := by
  intro m k c' f hc' hh hch hf hE
  have hf' : s.books m = some f := by
    rcases (move_kept (m := m) hm).1 with hbooks | hbooks
    · exact hbooks ▸ hf
    · exact absurd (hbooks ▸ hf) (by simp)
  rcases move_through hm hc' hh with ⟨c, hthrough⟩ | ⟨-, hempty⟩
  · rcases hthrough.books m with hlast | ⟨f', hcached, hlast⟩
    · exact hlast.trans (h m k c f hthrough.conn hthrough.healthy (hthrough.channels hch) hf' hE)
    · rw [hlast, Option.some.inj (hcached.symm.trans hf')]
  · exact absurd (hempty ▸ hch) List.not_mem_nil

theorem moves_upToDateBut {E : Channel → Prop} (h : UpToDateBut id E s) (hm : Moves setup s t) : UpToDateBut id E t := by
  induction hm with
  | refl => exact h
  | tail _ hm ih => exact move_upToDate ih hm

theorem moves_upToDate (h : UpToDate s) (hm : Moves setup s t) : UpToDate t :=
  (moves_upToDateBut (h.but 0 fun _ => False) hm).none

/-- What joining channels leaves of the server: only the connection's channels, and who is on them, change. -/
structure Joined (s : Server) (id : Nat) (p : Server.Subscribing) : Prop where
  conns : ∀ k c', p.server.conns.get k = some c' → ∃ c, s.conns.get k = some c ∧ c'.sent = c.sent ∧
    (c'.healthy → c.healthy) ∧ ∀ ch ∈ c'.channels, ch ∈ c.channels ∨ (k = id ∧ ch ∈ p.added)
  books : p.server.books = s.books
  tradeCursors : p.server.tradeCursors = s.tradeCursors
  nextId : p.server.nextId = s.nextId

theorem joined_one {p : Server.Subscribing} (h : Joined s id p) (raw : List Char) :
    Joined s id (Server.subscribeOne setup id p raw) := by
  unfold Server.subscribeOne
  split
  · exact h
  · split
    · exact ⟨h.conns, h.books, h.tradeCursors, h.nextId⟩
    · rename_i ch _
      dsimp only
      split
      · exact ⟨h.conns, h.books, h.tradeCursors, h.nextId⟩
      · split
        · exact ⟨h.conns, h.books, h.tradeCursors, h.nextId⟩
        · refine ⟨fun k c' hc' => ?_, h.books, h.tradeCursors, h.nextId⟩
          have hget : (p.server.onConn id fun c => { c with channels := c.channels ++ [ch] }).conns.get k = some c' := hc'
          rw [get_onConn, Option.map_eq_some_iff] at hget
          obtain ⟨c₁, hc₁, rfl⟩ := hget
          obtain ⟨c, hc, hsent, hhealthy, hchannels⟩ := h.conns k c₁ hc₁
          split
          · rename_i hk
            refine ⟨c, hc, hsent, hhealthy, fun x hx => ?_⟩
            rcases List.mem_append.1 hx with hx | hx
            · exact (hchannels x hx).imp_right fun hadd => ⟨hk, List.mem_append_left _ hadd.2⟩
            · exact .inr ⟨hk, List.mem_append_right _ hx⟩
          · exact ⟨c, hc, hsent, hhealthy, fun x hx =>
              (hchannels x hx).imp_right fun hadd => ⟨hadd.1, List.mem_append_left _ hadd.2⟩⟩

theorem joined_joins (setup : Setup) (s : Server) (id : Nat) (raws : List (List Char)) :
    Joined s id (s.joins setup id raws) := by
  suffices h : ∀ p, Joined s id p → Joined s id (raws.foldl (Server.subscribeOne setup id) p) from
    h _ ⟨fun k c' hc' => ⟨c', hc', rfl, fun hh => hh, fun _ hch => .inl hch⟩, rfl, rfl, rfl⟩
  induction raws with
  | nil => exact fun _ h => h
  | cons raw raws ih => exact fun p h => ih _ (joined_one h raw)

theorem snapshot_upToDate {chs : List Channel} (h : UpToDateBut id (· ∈ ch :: chs) s) :
    UpToDateBut id (· ∈ chs) (Server.snapshot setup id s ch) := by
  intro m k c' f hc' hh hch hf hE
  by_cases hthis : k = id ∧ ch = .orderbook m
  · obtain ⟨rfl, rfl⟩ := hthis
    unfold Server.snapshot at hc' hf
    dsimp only at hc' hf
    cases hbook : s.books m with
    | none =>
      rw [hbook] at hf
      exact absurd (hbook ▸ hf) (by simp)
    | some g =>
      rw [hbook] at hc' hf
      have hf' : s.books m = some f := hf
      obtain ⟨c, hwas⟩ := was_reply hc' hh
      rw [if_pos rfl] at hwas
      rw [hwas.sent, lastBook_book, if_pos rfl, Option.some.inj (hbook.symm.trans hf')]
  · have hmoves : Moves setup s (Server.snapshot setup id s ch) := moves_snapshot id s ch
    have hmoved := moves_upToDateBut h hmoves
    refine hmoved m k c' f hc' hh hch hf fun hk hmem => ?_
    rcases List.mem_cons.1 hmem with heq | hmem
    · exact hthis ⟨hk, heq.symm⟩
    · exact hE hk hmem

theorem subscribe_upToDate (h : UpToDate s) (id : Nat) (raws : List (List Char)) : UpToDate (s.subscribe setup id raws) := by
  obtain ⟨t, hmoves, heq⟩ := subscribe_eq setup id s raws
  have hjoined := joined_joins setup s id raws
  generalize s.joins setup id raws = p at hjoined hmoves heq
  have hp : UpToDateBut id (· ∈ p.added) p.server := by
    intro m k c' f hc' hh hch hf hE
    obtain ⟨c, hc, hsent, hhealthy, hchannels⟩ := hjoined.conns k c' hc'
    rcases hchannels _ hch with hch | ⟨hk, hadd⟩
    · rw [hsent]
      exact h m k c f hc (hhealthy hh) hch (hjoined.books ▸ hf)
    · exact absurd hadd (hE hk)
  have hall : ∀ (chs : List Channel) (x : Server), UpToDateBut id (· ∈ chs) x →
      UpToDateBut id (fun _ => False) (chs.foldl (Server.snapshot setup id) x) := by
    intro chs
    induction chs with
    | nil => exact fun x hx m k c f hc hh hch hf _ => hx m k c f hc hh hch hf fun _ => List.not_mem_nil
    | cons ch chs ih => exact fun x hx => ih _ (snapshot_upToDate hx)
  rw [heq]
  exact (hall p.added t (moves_upToDateBut hp hmoves)).none

/-- A broadcast leaves a healthy connection with what it had, and the message where it was on the channel. -/
theorem broadcast_was (hc' : (s.broadcast setup ch msg).conns.get k = some c') (h : c'.healthy)
    (hs : Registered setup s) : ∃ c, Was s k c' (if ch ∈ c.channels then [msg] else []) c := by
  obtain ⟨c, hwas⟩ := was_broadcast hc' h
  refine ⟨c, ?_⟩
  have hiff : k ∈ (s.subs.get ch).getD [] ↔ ch ∈ c.channels := by
    rw [hs.subscribed]
    constructor
    · rintro ⟨c₁, hc₁, hch⟩
      rw [hwas.conn, Option.some.injEq] at hc₁
      exact hc₁ ▸ hch
    · exact fun hch => ⟨c, hwas.conn, hch⟩
  simpa only [hiff] using hwas

/-- What a poll of a book leaves of a healthy connection. -/
theorem pollBook_was (hs : Registered setup s) (now : Int) (marketId : Nat) (bids asks : List BookLevel)
    (hc' : (s.pollBook setup now marketId bids asks).conns.get k = some c') (h : c'.healthy) :
    ∃ c, Was s k c' [] c ∨ Was s k c' [BookFrame.message ⟨bids, asks, now⟩ marketId] c := by
  unfold Server.pollBook at hc'
  split at hc'
  · exact ⟨c', .inl ⟨hc', h, (List.append_nil _).symm, fun _ hx => hx⟩⟩
  · have hset : Registered setup { s with books := update s.books marketId (some ⟨bids, asks, now⟩) } :=
      hs.sameShape (sameShape_data rfl rfl rfl rfl)
    obtain ⟨c, hwas⟩ := broadcast_was hc' h hset
    split at hwas
    · exact ⟨c, .inr ⟨hwas.conn, hwas.healthy, hwas.sent, hwas.channels⟩⟩
    · exact ⟨c, .inl ⟨hwas.conn, hwas.healthy, hwas.sent, hwas.channels⟩⟩

/-- **A poll of a book brings its healthy subscribers to what was read**, and leaves the other books as they were. -/
theorem pollBook_upToDate (hs : Registered setup s) (h : UpToDate s) (now : Int) (marketId : Nat)
    (bids asks : List BookLevel) :
    UpToDate (s.pollBook setup now marketId bids asks) ∧
      ∃ f, (s.pollBook setup now marketId bids asks).books marketId = some f ∧ f.levels = (bids, asks) := by
  unfold Server.pollBook
  split
  · rename_i hsame
    obtain ⟨f, hf, hlevels⟩ := Option.map_eq_some_iff.1 hsame
    exact ⟨h, f, hf, hlevels⟩
  · dsimp only
    refine ⟨fun m k c' f hc' hh hch hf => ?_, ⟨bids, asks, now⟩, Function.update_self .., rfl⟩
    have hset : Registered setup { s with books := update s.books marketId (some ⟨bids, asks, now⟩) } :=
      hs.sameShape (sameShape_data rfl rfl rfl rfl)
    obtain ⟨c, hwas⟩ := broadcast_was hc' hh hset
    have hf' : update s.books marketId (some ⟨bids, asks, now⟩) m = some f := hf
    rw [Function.update_apply] at hf'
    split at hf'
    · rename_i hm
      subst hm
      rw [hwas.sent, if_pos (hwas.channels hch), lastBook_book, if_pos rfl, Option.some.inj hf']
    · rename_i hm
      have hold := h m k c f hwas.conn hwas.healthy (hwas.channels hch) hf'
      rw [hwas.sent]
      split
      · rw [lastBook_book, if_neg (Ne.symm hm)]
        exact hold
      · rwa [List.append_nil]

theorem pollTape_books (marketId : Nat) (fills : List StreamFill) (s : Server) :
    (s.pollTape setup marketId fills).books = s.books := by
  have hfold : ∀ (xs : List StreamFill) (x : Server),
      (xs.foldl (fun s f => s.broadcast setup (.trades marketId) (.trade f)) x).books = x.books := by
    intro xs
    induction xs with
    | nil => exact fun _ => rfl
    | cons f xs ih => exact fun x => ih _
  unfold Server.pollTape
  dsimp only
  split <;> exact hfold _ s

/-- What the prints of a poll leave of a healthy connection. -/
theorem foldl_prints_was (marketId : Nat) : ∀ (xs : List StreamFill) (s : Server), Registered setup s →
    ∀ {c' : Conn}, (xs.foldl (fun s f => s.broadcast setup (.trades marketId) (.trade f)) s).conns.get k = some c' →
    c'.healthy → ∃ c, Was s k c' (if .trades marketId ∈ c.channels then xs.map .trade else []) c
  | [], s, _, c', hc', h => ⟨c', hc', h, by simp, fun _ hx => hx⟩
  | f :: xs, s, hs, c', hc', h => by
    obtain ⟨c₁, hwas₁⟩ := foldl_prints_was marketId xs _ (hs.sameShape (sameShape_broadcast _ s _)) hc' h
    obtain ⟨c, hwas⟩ := broadcast_was hwas₁.conn hwas₁.healthy hs
    have hshape := (sameShape_broadcast (.trades marketId) s (.trade f) : SameShape s (s.broadcast setup _ _)).conns
    obtain ⟨g, hg, hchannels⟩ := hshape
    have hsame : c₁.channels = c.channels := by
      have hget := hg k
      rw [hwas₁.conn, hwas.conn, Option.map_some, Option.some.injEq] at hget
      rw [hget, hchannels]
    refine ⟨c, hwas.conn, hwas.healthy, ?_, hsame ▸ hwas₁.channels⟩
    rw [hwas₁.sent, hwas.sent, hsame]
    split <;> simp

theorem pollTape_was (hs : Registered setup s) (marketId : Nat) (fills : List StreamFill)
    (hc' : (s.pollTape setup marketId fills).conns.get k = some c') (h : c'.healthy) :
    ∃ c, Was s k c' (if .trades marketId ∈ c.channels then (Server.prints fills).map .trade else []) c := by
  refine foldl_prints_was marketId (Server.prints fills) s hs ?_ h
  unfold Server.pollTape at hc'
  dsimp only at hc'
  split at hc' <;> exact hc'

theorem lastBook_trades (fills : List StreamFill) (sent : List ServerMessage) :
    lastBook m (sent ++ fills.map .trade) = lastBook m sent := by
  have hnone : booksOf m (fills.map .trade) = [] := by
    induction fills with
    | nil => rfl
    | cons f fills ih => exact ih
  have happend : booksOf m (sent ++ fills.map .trade) = booksOf m sent ++ booksOf m (fills.map .trade) :=
    List.filterMap_append
  rw [lastBook, happend, hnone, List.append_nil, lastBook]

theorem pollTape_upToDate (hs : Registered setup s) (h : UpToDate s) (marketId : Nat) (fills : List StreamFill) :
    UpToDate (s.pollTape setup marketId fills) := by
  intro m k c' f hc' hh hch hf
  rw [pollTape_books] at hf
  obtain ⟨c, hwas⟩ := pollTape_was hs marketId fills hc' hh
  rw [hwas.sent]
  have hold := h m k c f hwas.conn hwas.healthy (hwas.channels hch) hf
  split
  · rwa [lastBook_trades]
  · rwa [List.append_nil]

theorem step_upToDate (hs : Registered setup v.server) (h : UpToDate v.server) (hstep : (machine setup).step v a w) :
    UpToDate w.server := by
  obtain ⟨ha, rfl⟩ := hstep
  cases (act_stepped ha : Stepped setup v a _) with
  | moves hm => exact moves_upToDate h hm
  | subscribed ht => exact ht ▸ subscribe_upToDate (moves_upToDate h (moves_counted setup _ _ _)) _ _
  | book _ hm => exact moves_upToDate (pollBook_upToDate hs h _ _ _ _).1 hm
  | @tip _ marketId _ tip _ _ hm =>
    have htip : UpToDate (v.server.pollTip marketId tip) := fun m k c f hc hh hch hf => h m k c f hc hh hch hf
    exact moves_upToDate htip hm
  | tape _ hm => exact moves_upToDate (pollTape_upToDate hs h _ _) hm

theorem reachable_upToDate (h : Reachable (machine setup) v) : UpToDate v.server := by
  refine h.invariant (fun v => UpToDate v.server) (fun v hv => ?_) fun v a w hr hv hstep =>
    step_upToDate (server_registered hr) hv hstep
  intro m k c f hc
  rw [hv.server] at hc
  exact absurd hc (by simp [Server.new])

variable {L : List BookLevel × List BookLevel}

/-- The market's book, where it is cached, is `L`. -/
def Cached (m : Nat) (L : List BookLevel × List BookLevel) (s : Server) : Prop := ∀ f, s.books m = some f → f.levels = L

/-- The connection `k`, where it keeps up, was last sent `L`. -/
structure LastSent (m : Nat) (L : List BookLevel × List BookLevel) (k : Nat) (s : Server) : Prop where
  known : k < s.nextId
  shown : ∀ c, s.conns.get k = some c → c.healthy → lastBook m c.sent = some L

theorem moves_cached (h : Cached m L s) (hm : Moves setup s t) : Cached m L t := by
  induction hm with
  | refl => exact h
  | tail _ hm ih =>
    intro f hf
    rcases (move_kept (m := m) hm).1 with hbooks | hbooks
    · exact ih f (hbooks ▸ hf)
    · exact absurd (hbooks ▸ hf) (by simp)

theorem move_lastSent (hcached : Cached m L s) (h : LastSent m L k s) (hm : Move setup s t) : LastSent m L k t := by
  refine ⟨h.known.trans_le (move_kept (m := m) hm).2.2, fun c' hc' hh => ?_⟩
  rcases move_through hm hc' hh with ⟨c, hthrough⟩ | ⟨hk, -⟩
  · rcases hthrough.books m with hlast | ⟨f, hf, hlast⟩
    · exact hlast.trans (h.shown c hthrough.conn hthrough.healthy)
    · rw [hlast, hcached f hf]
  · exact absurd hk h.known.ne

theorem moves_lastSent (hcached : Cached m L s) (h : LastSent m L k s) (hm : Moves setup s t) : LastSent m L k t := by
  induction hm with
  | refl => exact h
  | tail hms hm ih => exact move_lastSent (moves_cached hcached hms) ih hm

theorem subscribe_cached (h : Cached m L s) (id : Nat) (raws : List (List Char)) :
    Cached m L (s.subscribe setup id raws) := by
  have hjoined := joined_joins setup s id raws
  have hstart : Cached m L (s.joins setup id raws).server := fun f hf =>
    h f (hjoined.books ▸ hf)
  exact moves_cached hstart (moves_subscribe id s raws)

theorem subscribe_lastSent (hcached : Cached m L s) (h : LastSent m L k s) (id : Nat) (raws : List (List Char)) :
    LastSent m L k (s.subscribe setup id raws) := by
  have hjoined := joined_joins setup s id raws
  have hstart : Cached m L (s.joins setup id raws).server := fun f hf =>
    hcached f (hjoined.books ▸ hf)
  refine moves_lastSent hstart ⟨hjoined.nextId ▸ h.known, fun c' hc' hh => ?_⟩ (moves_subscribe id s raws)
  obtain ⟨c, hc, hsent, hhealthy, -⟩ := hjoined.conns k c' hc'
  rw [hsent]
  exact h.shown c hc (hhealthy hh)

theorem pollBook_cached (h : Cached m L s) (now : Int) {marketId : Nat} (hne : marketId ≠ m) (bids asks : List BookLevel) :
    Cached m L (s.pollBook setup now marketId bids asks) := by
  unfold Server.pollBook
  split
  · exact h
  · intro f hf
    have hf' : update s.books marketId (some ⟨bids, asks, now⟩) m = some f := hf
    rw [Function.update_of_ne hne.symm] at hf'
    exact h f hf'

theorem pollBook_lastSent (hs : Registered setup s) (h : LastSent m L k s) (now : Int) {marketId : Nat}
    (hne : marketId ≠ m) (bids asks : List BookLevel) : LastSent m L k (s.pollBook setup now marketId bids asks) := by
  refine ⟨(sameShape_pollBook now marketId bids asks s).nextId ▸ h.known, fun c' hc' hh => ?_⟩
  obtain ⟨c, hwas | hwas⟩ := pollBook_was hs now marketId bids asks hc' hh
  · rw [hwas.sent, List.append_nil]
    exact h.shown c hwas.conn hwas.healthy
  · have hother := lastBook_book (m := m) ⟨bids, asks, now⟩ marketId c.sent
    rw [if_neg hne] at hother
    rw [hwas.sent]
    exact hother.trans (h.shown c hwas.conn hwas.healthy)

theorem pollTape_lastSent (hs : Registered setup s) (h : LastSent m L k s) (marketId : Nat) (fills : List StreamFill) :
    LastSent m L k (s.pollTape setup marketId fills) := by
  refine ⟨(sameShape_pollTape marketId fills s).nextId ▸ h.known, fun c' hc' hh => ?_⟩
  obtain ⟨c, hwas⟩ := pollTape_was hs marketId fills hc' hh
  have hold := h.shown c hwas.conn hwas.healthy
  rw [hwas.sent]
  split
  · rwa [lastBook_trades]
  · rwa [List.append_nil]

/-- The step takes up no answer about the market's book. -/
def NoRead (m : Nat) (v : Service) (a : Act) : Prop :=
  ∀ now nowSec rest levels, a = .resume now → v.stage ≠ .books nowSec m rest (some levels)

theorem step_cached (h : Cached m L v.server) (hno : NoRead m v a) (hstep : (machine setup).step v a w) :
    Cached m L w.server := by
  obtain ⟨ha, rfl⟩ := hstep
  cases (act_stepped ha : Stepped setup v a _) with
  | moves hm => exact moves_cached h hm
  | subscribed ht => exact ht ▸ subscribe_cached (moves_cached h (moves_counted setup _ _ _)) _ _
  | @book now nowSec marketId rest bids asks _ hstage hm =>
    have hne : marketId ≠ m := fun heq => hno now nowSec rest (bids, asks) rfl (heq ▸ hstage)
    exact moves_cached (pollBook_cached h now hne bids asks) hm
  | @tip _ marketId _ tip _ _ hm =>
    have htip : Cached m L (v.server.pollTip marketId tip) := h
    exact moves_cached htip hm
  | @tape _ marketId _ _ fills _ _ hm =>
    have htape : Cached m L (v.server.pollTape setup marketId fills) := fun f hf => by
      rw [pollTape_books] at hf
      exact h f hf
    exact moves_cached htape hm

theorem step_lastSent (hs : Registered setup v.server) (hcached : Cached m L v.server) (h : LastSent m L k v.server)
    (hno : NoRead m v a) (hstep : (machine setup).step v a w) : LastSent m L k w.server := by
  obtain ⟨ha, rfl⟩ := hstep
  cases (act_stepped ha : Stepped setup v a _) with
  | moves hm => exact moves_lastSent hcached h hm
  | @subscribed _ id now _ _ ht =>
    have hm := moves_counted setup id now v.server
    exact ht ▸ subscribe_lastSent (moves_cached hcached hm) (moves_lastSent hcached h hm) _ _
  | @book now nowSec marketId rest bids asks _ hstage hm =>
    have hne : marketId ≠ m := fun heq => hno now nowSec rest (bids, asks) rfl (heq ▸ hstage)
    exact moves_lastSent (pollBook_cached hcached now hne bids asks) (pollBook_lastSent hs h now hne bids asks) hm
  | @tip _ marketId _ tip _ _ hm =>
    have hcached' : Cached m L (v.server.pollTip marketId tip) := hcached
    have htip : LastSent m L k (v.server.pollTip marketId tip) := ⟨h.known, h.shown⟩
    exact moves_lastSent hcached' htip hm
  | @tape _ marketId _ _ fills _ _ hm =>
    have hcached' : Cached m L (v.server.pollTape setup marketId fills) := fun f hf => by
      rw [pollTape_books] at hf
      exact hcached f hf
    exact moves_lastSent hcached' (pollTape_lastSent hs h marketId fills) hm

/-- **A subscriber that keeps up shows the book the server last read.**  Once a poll has taken up what it read of a market's
book, every connection that was subscribed to it and still keeps up has that book as the last one it was sent, whatever it
and others send, open and close since, until the market's book is read again; and so has everyone who has subscribed in
between and was handed the book. -/
theorem books_current {nowSec : Int} {marketId : Nat} {rest : List Nat} {bids asks : List BookLevel} {ls : List Act}
    (hv : Reachable (machine setup) v) (hstage : v.stage = .books nowSec marketId rest (some (bids, asks)))
    (hw : (machine setup).step v (.resume now) w) (h : Run ((machine setup).restrict (NoRead marketId)) w ls x) :
    (∀ k c c', v.server.conns.get k = some c → .orderbook marketId ∈ c.channels → x.server.conns.get k = some c' →
      c'.healthy → lastBook marketId c'.sent = some (bids, asks)) ∧
      ∀ k c' f, x.server.conns.get k = some c' → c'.healthy → .orderbook marketId ∈ c'.channels →
        x.server.books marketId = some f → lastBook marketId c'.sent = some (bids, asks) := by
  have hregistered := server_registered hv
  have hreachable : Reachable (machine setup) w := hv.step hw
  obtain ⟨hupToDate, f₀, hf₀, hlevels⟩ :=
    pollBook_upToDate hregistered (reachable_upToDate hv) now marketId bids asks
  have hmoves : Moves setup (v.server.pollBook setup now marketId bids asks) w.server := by
    rw [← hw.2]
    show Moves setup _ (v.resume setup now).server
    simp only [Service.resume, hstage]
    exact moves_enterBooks (v.withServer fun x => x.pollBook setup now marketId bids asks) now nowSec rest
  have hpolled : Cached marketId (bids, asks) (v.server.pollBook setup now marketId bids asks) := fun f hf => by
    rw [← hlevels, Option.some.inj (hf₀.symm.trans hf)]
  have hcached : Cached marketId (bids, asks) w.server := moves_cached hpolled hmoves
  have hrun : Reachable (machine setup) x ∧ Cached marketId (bids, asks) x.server := by
    refine h.preserves (fun x => Reachable (machine setup) x ∧ Cached marketId (bids, asks) x.server) ?_
      ⟨hreachable, hcached⟩
    rintro y a z ⟨hy, hc⟩ ⟨hno, hstep⟩
    exact ⟨hy.step hstep, step_cached hc hno hstep⟩
  constructor
  · intro k c c' hc hch hc' hh
    have hshape : SameShape v.server (v.server.pollBook setup now marketId bids asks) :=
      sameShape_pollBook now marketId bids asks v.server
    obtain ⟨g, hg, hchannels⟩ := hshape.conns
    have hlast : LastSent marketId (bids, asks) k (v.server.pollBook setup now marketId bids asks) := by
      refine ⟨hshape.nextId ▸ hregistered.ids k (OrderedMap.mem_keys.2 ⟨c, hc⟩), fun c₁ hc₁ hh₁ => ?_⟩
      have hsame : c₁.channels = c.channels := by
        have hget := hg k
        rw [hc₁, hc, Option.map_some, Option.some.injEq] at hget
        rw [hget, hchannels]
      rw [← hlevels]
      exact hupToDate marketId k c₁ f₀ hc₁ hh₁ (hsame ▸ hch) hf₀
    have hend : Reachable (machine setup) x ∧ Cached marketId (bids, asks) x.server ∧
        LastSent marketId (bids, asks) k x.server := by
      refine h.preserves (fun x => Reachable (machine setup) x ∧ Cached marketId (bids, asks) x.server ∧
        LastSent marketId (bids, asks) k x.server) ?_ ⟨hreachable, hcached, moves_lastSent hpolled hlast hmoves⟩
      rintro y a z ⟨hy, hcy, hly⟩ ⟨hno, hstep⟩
      exact ⟨hy.step hstep, step_cached hcy hno hstep, step_lastSent (server_registered hy) hcy hly hno hstep⟩
    exact hend.2.2.shown c' hc' hh
  · intro k c' f hc' hh hch hf
    rw [← hrun.2 f hf]
    exact reachable_upToDate hrun.1 marketId k c' f hc' hh hch hf

/-- The client that joined, before the poll goes on with the book it read: two bids, the best of them half reserved. -/
def reading : List Act := joining ++ [.poll 1000, .query]

theorem books_current_joining : ∃ c, (sampleAt (reading ++ [.resume 1001, .beat 2000])).server.conns.get 1 = some c ∧
    lastBook 1 c.sent = some ([⟨105, 2, 1⟩, ⟨101, 5, 1⟩, ⟨99, 3, 1⟩], []) := by
  obtain ⟨c₀, hc₀, hch⟩ := sampleAt_conn reading 1 (fun c => .orderbook 1 ∈ c.channels) (by decide +kernel)
  obtain ⟨c, hc, hh⟩ := sampleAt_conn (reading ++ [.resume 1001, .beat 2000]) 1 Conn.healthy (by decide +kernel)
  have hstep : (machine sampleSetup).step (sampleAt reading) (.resume 1001) (act sampleSetup (sampleAt reading) (.resume 1001)) :=
    ⟨trivial, rfl⟩
  have hrun : Run ((machine sampleSetup).restrict (NoRead 1)) (act sampleSetup (sampleAt reading) (.resume 1001)) [.beat 2000]
      (sampleAt (reading ++ [.resume 1001, .beat 2000])) :=
    Run.single ⟨fun _ _ _ _ hact => absurd hact (by simp), trivial, rfl⟩
  exact ⟨c, hc, (books_current (sampleAt_reachable (by decide +kernel)) rfl hstep hrun).1 1 c₀ c hc₀ hch hc hh⟩

end Kryon.StreamServer
