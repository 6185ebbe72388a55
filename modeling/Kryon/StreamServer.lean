import Kryon.Wire
import Kryon.Lib.Cursor
import Kryon.Lib.Transition
/-!
# StreamServer — the streaming server, its connections and its poll loop

Connections come and go and send messages between the statements of a poll: each poll reads the markets, every watched
book, every watched tape and the watched accounts' fills one statement after another, and what happened while a statement
was answered is there when its answer is.  A step is one event of the server or of the database (`act`).
-/
namespace Kryon.StreamServer

open Function (update)
open Wire (Channel ServerMessage StreamFill MarketState Json)
open PublicBook (BookLevel)
open Transition

/-- Of the server's limits, those that decide something here. -/
structure Limits where
  maxConnections : Nat
  maxChannelsPerConnection : Nat
  /-- Outbound bytes queued for one client before it is dropped as a slow consumer. -/
  maxBufferedBytes : Nat
  maxMessagesPerWindow : Nat
  messageWindowMs : Int
  idleTimeoutMs : Int
  marketsPollMs : Int
  /-- How far back each account-fills poll re-reads. -/
  fillOverlapMs : Int
  /-- Max rows per stream per poll. -/
  batchLimit : Nat

def DEFAULT_LIMITS : Limits where
  maxConnections := 2000
  maxChannelsPerConnection := 32
  maxBufferedBytes := 1024 * 1024
  maxMessagesPerWindow := 100
  messageWindowMs := 10000
  idleTimeoutMs := 75000
  marketsPollMs := 2000
  fillOverlapMs := 10000
  batchLimit := 500

/-- The limits, the checksum of an address and the length of a message's text. -/
structure Setup where
  limits : Limits
  checksumAddress : List Char → List Char
  bytes : ServerMessage → Nat

/-! ## What a client sends -/

inductive ClientMessage where
  | subscribe (channels : List (List Char))
  | unsubscribe (channels : List (List Char))
  | ping
  | invalid (reason : String)

/-- A text frame; none is a text that is not JSON. -/
def parseClientMessage : Option Json → ClientMessage
  | some (.obj fields) =>
    let type := Wire.str ((Json.obj fields).get "type")
    if type = some "ping".toList then .ping
    else if type = some "subscribe".toList ∨ type = some "unsubscribe".toList then
      match Wire.arr ((Json.obj fields).get "channels") with
      | none => .invalid "malformed"
      | some xs =>
        if xs.length > 256 then .invalid "malformed"
        else
          let channels := xs.filterMap fun x => Wire.str (some x)
          if type = some "subscribe".toList then .subscribe channels else .unsubscribe channels
    else .invalid "unknown_type"
  | some .null | some (.bool _) | some (.num _) | some (.str _) | some (.arr _) | none => .invalid "malformed"

/-- What arrives on a socket. -/
inductive Inbound where
  | binary
  | text (msg : Option Json)

/-! ## Connections -/

inductive ReadyState where
  | open_
  | closing
deriving DecidableEq

/-- A connection; `sent` is what was handed to its socket, oldest first. -/
structure Conn where
  readyState : ReadyState
  channels : List Channel
  lastSeen : Int
  windowStart : Int
  windowCount : Nat
  dropped : Bool
  bufferedAmount : Nat
  sent : List ServerMessage

def Conn.new (now : Int) : Conn := ⟨.open_, [], now, now, 0, false, 0, []⟩

/-- `close` and `terminate`: nothing more is sent, and the socket's close follows. -/
def Conn.close (c : Conn) : Conn := { c with readyState := .closing }

/-- A client that does not read what is queued for it is dropped. -/
def Conn.send (setup : Setup) (msg : ServerMessage) (c : Conn) : Conn :=
  if c.dropped = true ∨ c.readyState ≠ .open_ then c
  else if c.bufferedAmount > setup.limits.maxBufferedBytes then { c with dropped := true, readyState := .closing }
  else { c with bufferedAmount := c.bufferedAmount + setup.bytes msg, sent := c.sent ++ [msg] }

/-! ## The server -/

/-- A settled fill's position in chain order. -/
structure TradeKey where
  blockNumber : Nat
  logIndex : Nat
deriving DecidableEq

/-- Chain order. -/
def TradeKey.lt (a b : TradeKey) : Prop :=
  a.blockNumber < b.blockNumber ∨ a.blockNumber = b.blockNumber ∧ a.logIndex < b.logIndex

instance : Preorder TradeKey where
  lt := TradeKey.lt
  le a b := a.lt b ∨ a = b
  le_refl _ := .inr rfl
  le_trans a b c := by
    rintro (hab | rfl) (hbc | rfl)
    · simp only [TradeKey.lt] at *
      exact .inl (by omega)
    · exact .inl hab
    · exact .inl hbc
    · exact .inr rfl
  lt_iff_le_not_ge a b := by
    constructor
    · refine fun hab => ⟨.inl hab, ?_⟩
      rintro (hba | rfl) <;> simp only [TradeKey.lt] at * <;> omega
    · rintro ⟨hab | rfl, hba⟩
      · exact hab
      · exact absurd (.inr rfl) hba

instance : DecidableLT TradeKey := fun _ _ => inferInstanceAs (Decidable (_ ∨ _))

def keyOf (f : StreamFill) : Option TradeKey := f.blockNumber.bind fun b => f.logIndex.map fun i => ⟨b, i⟩

/-- A book as it was last sent; the levels are what "changed" is decided on. -/
structure BookFrame where
  bids : List BookLevel
  asks : List BookLevel
  timestamp : Int
deriving DecidableEq

def BookFrame.message (f : BookFrame) (marketId : Nat) : ServerMessage := .orderbook marketId f.bids f.asks f.timestamp

structure Server where
  conns : OrderedMap Nat Conn
  subs : OrderedMap Channel (List Nat)
  /-- Upgrades accepted but not yet connected. -/
  reserved : Nat
  nextId : Nat
  validMarkets : List Nat
  marketsFrame : Option (List MarketState × Int)
  lastMarketsAt : Option Int
  books : Nat → Option BookFrame
  /-- None until the first poll after someone subscribes; then the tape position. -/
  tradeCursors : Nat → Option (Option TradeKey)
  fillCursor : Option Int
  fillSeen : Stream.SeenKey → Option Int
  closing : Bool

def Server.new : Server where
  conns := .empty
  subs := .empty
  reserved := 0
  nextId := 1
  validMarkets := []
  marketsFrame := none
  lastMarketsAt := none
  books := fun _ => none
  tradeCursors := fun _ => none
  fillCursor := none
  fillSeen := fun _ => none
  closing := false

namespace Server

variable (setup : Setup) (s : Server)

def onConn (id : Nat) (f : Conn → Conn) : Server :=
  { s with conns := s.conns.mapValues fun k c => if k = id then f c else c }

def reply (id : Nat) (msg : ServerMessage) : Server := s.onConn id (Conn.send setup msg)

/-- Every subscriber of the channel is sent the message. -/
def broadcast (ch : Channel) (msg : ServerMessage) : Server :=
  { s with conns := s.conns.mapValues fun k c => if k ∈ (s.subs.get ch).getD [] then c.send setup msg else c }

def addSub (id : Nat) (ch : Channel) : Server :=
  { s.onConn id (fun c => { c with channels := c.channels ++ [ch] }) with
    subs := s.subs.set ch ((s.subs.get ch).getD [] ++ [id]) }

/-- Forget what is kept of a channel nobody is left on. -/
def forget : Channel → Server
  | .orderbook marketId => { s with books := update s.books marketId none }
  | .trades marketId => { s with tradeCursors := update s.tradeCursors marketId none }
  | .fills _ | .markets => s

def removeSub (id : Nat) (ch : Channel) : Server :=
  match s.subs.get ch with
  | none => s
  | some ids =>
    let left := ids.filter fun k => decide (k ≠ id)
    if left ≠ [] then { s with subs := s.subs.set ch left } else forget { s with subs := s.subs.delete ch } ch

/-! ### Messages -/

def known : Channel → Bool
  | .orderbook marketId | .trades marketId => decide (marketId ∈ s.validMarkets)
  | .fills _ | .markets => true

/-- The state of a subscription's loop. -/
structure Subscribing where
  server : Server
  accepted : List (List Char)
  unknown : List (List Char)
  overLimit : List (List Char)
  added : List Channel

def subscribeOne (id : Nat) (p : Subscribing) (raw : List Char) : Subscribing :=
  match p.server.conns.get id with
  | none => p
  | some c =>
    match (Wire.parseChannel setup.checksumAddress raw).filter p.server.known with
    | none => { p with unknown := p.unknown ++ [raw.take 64] }
    | some ch =>
      let name := Wire.channelName ch
      if ch ∈ c.channels then { p with accepted := if name ∈ p.accepted then p.accepted else p.accepted ++ [name] }
      else if c.channels.length ≥ setup.limits.maxChannelsPerConnection then
        { p with overLimit := p.overLimit ++ [name] }
      else
        { p with server := p.server.addSub id ch, accepted := p.accepted ++ [name], added := p.added ++ [ch] }

/-- The newcomer is handed the current frame instead of waiting for a change. -/
def snapshot (id : Nat) (s : Server) : Channel → Server
  | .markets =>
    match s.marketsFrame with
    | some (ms, timestamp) => s.reply setup id (.markets ms timestamp)
    | none => s
  | .orderbook marketId =>
    match s.books marketId with
    | some f => s.reply setup id (f.message marketId)
    | none => s
  | .trades _ | .fills _ => s

def joins (id : Nat) (raws : List (List Char)) : Subscribing := raws.foldl (subscribeOne setup id) ⟨s, [], [], [], []⟩

def subscribe (id : Nat) (raws : List (List Char)) : Server :=
  let p := s.joins setup id raws
  let s := p.server.reply setup id (.subscribed p.accepted)
  let s := if p.unknown = [] then s else s.reply setup id (.error "unknown_channel" (some p.unknown))
  let s := if p.overLimit = [] then s else s.reply setup id (.error "channel_limit" (some p.overLimit))
  p.added.foldl (snapshot setup id) s

def leave (id : Nat) (ch : Channel) : Server :=
  (s.onConn id fun c => { c with channels := c.channels.erase ch }).removeSub id ch

def unsubscribeOne (id : Nat) (p : Server × List (List Char)) (raw : List Char) : Server × List (List Char) :=
  match p.1.conns.get id, Wire.parseChannel setup.checksumAddress raw with
  | some c, some ch => if ch ∈ c.channels then (p.1.leave id ch, p.2 ++ [Wire.channelName ch]) else p
  | _, _ => p

def unsubscribe (id : Nat) (raws : List (List Char)) : Server :=
  let p := raws.foldl (unsubscribeOne setup id) (s, [])
  p.1.reply setup id (.unsubscribed p.2)

def answer (id : Nat) : ClientMessage → Server
  | .ping => s.reply setup id .pong
  | .subscribe raws => s.subscribe setup id raws
  | .unsubscribe raws => s.unsubscribe setup id raws
  | .invalid reason => s.reply setup id (.error reason none)

/-- Whether a message opens a new window of the rate limit. -/
def opensWindow (now : Int) (c : Conn) : Bool := decide (now - c.windowStart ≥ setup.limits.messageWindowMs)

def counted (now : Int) (c : Conn) : Conn :=
  { c with
    lastSeen := now
    windowStart := if opensWindow setup now c then now else c.windowStart
    windowCount := (if opensWindow setup now c then 0 else c.windowCount) + 1 }

def onMessage (id : Nat) (now : Int) (data : Inbound) : Server :=
  match s.conns.get id with
  | none => s
  | some c =>
    let s := s.onConn id (counted setup now)
    if (counted setup now c).windowCount > setup.limits.maxMessagesPerWindow then
      (s.reply setup id (.error "rate_limited" none)).onConn id Conn.close
    else
      match data with
      | .binary => s.reply setup id (.error "binary_not_supported" none)
      | .text msg => s.answer setup id (parseClientMessage msg)

/-! ### Connecting and closing -/

def onUpgrade : Server :=
  if s.closing = true ∨ s.conns.keys.length + s.reserved ≥ setup.limits.maxConnections then s
  else { s with reserved := s.reserved + 1 }

def onConnection (now : Int) : Server :=
  { s with reserved := s.reserved - 1, conns := s.conns.set s.nextId (Conn.new now), nextId := s.nextId + 1 }

def onClose (id : Nat) : Server :=
  match s.conns.get id with
  | none => s
  | some c => c.channels.foldl (fun s ch => s.removeSub id ch) { s with conns := s.conns.delete id }

/-- Drop the connections nothing was heard from. -/
def beat (now : Int) : Server :=
  { s with conns := s.conns.mapValues fun _ c => if now - c.lastSeen > setup.limits.idleTimeoutMs then c.close else c }

/-- Every client is closed as going away. -/
def close : Server := { s with closing := true, conns := s.conns.mapValues fun _ c => c.close }

/-! ### What a poll does with an answer -/

def refreshMarkets (now : Int) (ms : List MarketState) : Server :=
  let s := { s with lastMarketsAt := some now, validMarkets := ms.map fun m => m.marketId.val }
  if s.marketsFrame.map Prod.fst = some ms then s
  else { s with marketsFrame := some (ms, now) }.broadcast setup .markets (.markets ms now)

def pollBook (now : Int) (marketId : Nat) (bids asks : List BookLevel) : Server :=
  if (s.books marketId).map (fun f => (f.bids, f.asks)) = some (bids, asks) then s
  else
    let f : BookFrame := ⟨bids, asks, now⟩
    { s with books := update s.books marketId (some f) }.broadcast setup (.orderbook marketId) (f.message marketId)

/-- The first poll since someone subscribed starts at the tip. -/
def pollTip (marketId : Nat) (tip : Option TradeKey) : Server :=
  { s with tradeCursors := update s.tradeCursors marketId (some tip) }

/-- What is printed of the rows read. -/
def prints (fills : List StreamFill) : List StreamFill :=
  fills.filter fun f => decide (f.status = .settled) && (keyOf f).isSome

def pollTape (marketId : Nat) (fills : List StreamFill) : Server :=
  let s := (prints fills).foldl (fun s f => s.broadcast setup (.trades marketId) (.trade f)) s
  match Cursor.lastKey keyOf fills with
  | some k => { s with tradeCursors := update s.tradeCursors marketId (some (some k)) }
  | none => s

/-- One row of the account fills. -/
def readFill (addresses : List (List Char)) (s : Server) (f : StreamFill) : Server :=
  if (s.fillSeen f.seenKey).isSome then s
  else
    let s := { s with fillSeen := update s.fillSeen f.seenKey (some f.updatedAt) }
    let parties := if f.maker = f.taker then [f.maker] else [f.maker, f.taker]
    let s := (parties.filter fun a => decide (Wire.hexText 40 a.val ∈ addresses)).foldl
      (fun s a => s.broadcast setup (.fills (Wire.hexText 40 a.val)) (.fill a f)) s
    { s with fillCursor := s.fillCursor.map fun c => max c f.updatedAt }

def pollFills (addresses : List (List Char)) (rows : List StreamFill) : Server :=
  let s := rows.foldl (readFill setup addresses) s
  { s with fillSeen := fun k => (s.fillSeen k).filter fun at_ =>
      s.fillCursor.all fun c => !decide (at_ < c - setup.limits.fillOverlapMs) }

/-- The markets whose book, or whose tape, is watched. -/
def watchedBooks : List Nat := s.subs.keys.filterMap fun ch => match ch with
  | .orderbook marketId => some marketId
  | .trades _ | .fills _ | .markets => none

def watchedTapes : List Nat := s.subs.keys.filterMap fun ch => match ch with
  | .trades marketId => some marketId
  | .orderbook _ | .fills _ | .markets => none

def watchedAccounts : List (List Char) := s.subs.keys.filterMap fun ch => match ch with
  | .fills address => some address
  | .orderbook _ | .trades _ | .markets => none

end Server

/-! ## The service -/

/-- The statement a poll waits for, with its answer once it has one. -/
inductive Stage where
  | idle
  | markets (now : Int)
  | books (nowSec : Int) (marketId : Nat) (rest : List Nat) (answer : Option (List BookLevel × List BookLevel))
  | tip (marketId : Nat) (rest : List Nat) (answer : Option (Option TradeKey))
  | tape (marketId : Nat) (after : Option TradeKey) (rest : List Nat) (answer : Option (List StreamFill))
  | fills (addresses : List (List Char))

/-- The database, the server and its poll; a market's settled fills are in chain order. -/
structure Service where
  db : Matcher.Db
  tape : Nat → List StreamFill
  server : Server
  stage : Stage

def lastKey (fills : List StreamFill) : Option TradeKey := Cursor.lastKey keyOf fills

/-- The newest settled print in a market. -/
def latestTradeKey (s : Service) (marketId : Nat) : Option TradeKey := lastKey (s.tape marketId)

/-- Settled prints strictly after a key, oldest first. -/
def listTradesAfter (s : Service) (marketId : Nat) (after : Option TradeKey) (limit : Nat) : List StreamFill :=
  ((s.tape marketId).filter (Cursor.isAfter keyOf after)).take limit

def orderbook (s : Service) (marketId : Nat) (nowSec : Int) (side : PublicBook.Side) : List BookLevel :=
  PublicBook.aggregateBook
    (PublicBook.listWorkingOrdersForMarket s.db (MarketId.ofNat marketId) nowSec) side

/-- What happens: the database is written, a socket does something, or the poll moves on. -/
inductive Act where
  /-- The matcher or the indexer writes. -/
  | write (db : Matcher.Db)
  /-- A fill settles, the next on its market's tape. -/
  | settle (f : StreamFill)
  | upgrade
  | connected (now : Int)
  /-- An accepted upgrade's socket closes before it is connected. -/
  | abandoned
  | message (id : Nat) (now : Int) (data : Inbound)
  | pong (id : Nat) (now : Int)
  /-- The network takes what is queued for a client. -/
  | drained (id : Nat) (left : Nat)
  | closed (id : Nat)
  | beat (now : Int)
  | shutdown
  /-- A tick of the poll loop. -/
  | poll (now : Int)
  /-- The market list as it was read at startup or by a poll. -/
  | refresh (markets : List MarketState) (now : Int)
  /-- The statement of the stage is answered from the database as it stands. -/
  | query
  /-- The poll goes on with the answer. -/
  | resume (now : Int)
  /-- The account fills that were read. -/
  | fills (rows : List StreamFill)
  /-- The statement fails, and with it the rest of the stream's step. -/
  | fail (now : Int)

namespace Service

variable (setup : Setup) (s : Service)

def withServer (f : Server → Server) : Service := { s with server := f s.server }

/-- `pollFills` up to its statement. -/
def enterFills (now : Int) : Service :=
  let addresses := s.server.watchedAccounts
  if addresses = [] then
    -- Nobody is listening: the next subscriber starts from now.
    { s with server := { s.server with fillCursor := none, fillSeen := fun _ => none }, stage := .idle }
  else
    { s with server := { s.server with fillCursor := some (s.server.fillCursor.getD now) }, stage := .fills addresses }

/-- `pollTrades` up to its next statement. -/
def enterTrades (now : Int) : List Nat → Service
  | [] => s.enterFills now
  | marketId :: rest =>
    match s.server.tradeCursors marketId with
    | none => { s with stage := .tip marketId rest none }
    | some after => { s with stage := .tape marketId after rest none }

/-- `pollBooks` up to its next statement. -/
def enterBooks (now nowSec : Int) : List Nat → Service
  | [] => s.enterTrades now s.server.watchedTapes
  | marketId :: rest => { s with stage := .books nowSec marketId rest none }

def startBooks (now : Int) : Service := s.enterBooks now (now.ediv 1000) s.server.watchedBooks

def poll (now : Int) : Service :=
  if s.server.lastMarketsAt.any fun last => decide (now - last < setup.limits.marketsPollMs) then s.startBooks now
  else { s with stage := .markets now }

def query : Service :=
  match s.stage with
  | .books nowSec marketId rest none =>
    { s with stage := .books nowSec marketId rest (some (orderbook s marketId nowSec .bid, orderbook s marketId nowSec .ask)) }
  | .tip marketId rest none => { s with stage := .tip marketId rest (some (latestTradeKey s marketId)) }
  | .tape marketId after rest none =>
    { s with stage := .tape marketId after rest (some (listTradesAfter s marketId after setup.limits.batchLimit)) }
  | _ => s

def resume (now : Int) : Service :=
  match s.stage with
  | .books nowSec marketId rest (some (bids, asks)) =>
    (s.withServer fun x => x.pollBook setup now marketId bids asks).enterBooks now nowSec rest
  | .tip marketId rest (some tip) => (s.withServer fun x => x.pollTip marketId tip).enterTrades now rest
  | .tape marketId _ rest (some fills) => (s.withServer fun x => x.pollTape setup marketId fills).enterTrades now rest
  | _ => s

def fail (now : Int) : Service :=
  match s.stage with
  | .idle => s
  | .markets _ => s.startBooks now
  | .books _ _ _ _ => s.enterTrades now s.server.watchedTapes
  | .tip _ _ _ | .tape _ _ _ _ => s.enterFills now
  | .fills _ => { s with stage := .idle }

def refresh (ms : List MarketState) (now : Int) : Service :=
  match s.stage with
  | .markets startedAt => (s.withServer fun x => x.refreshMarkets setup startedAt ms).startBooks now
  | _ => s.withServer fun x => x.refreshMarkets setup now ms

def readFills (rows : List StreamFill) : Service :=
  match s.stage with
  | .fills addresses => { s.withServer fun x => x.pollFills setup addresses rows with stage := .idle }
  | _ => s

end Service

/-- No poll is under way. -/
def Stage.atRest : Stage → Bool
  | .idle => true
  | .markets _ | .books _ _ _ _ | .tip _ _ _ | .tape _ _ _ _ | .fills _ => false

def Stage.readsMarkets : Stage → Bool
  | .markets _ => true
  | .idle | .books _ _ _ _ | .tip _ _ _ | .tape _ _ _ _ | .fills _ => false

/-- What an event needs to happen. -/
def enabled (s : Service) : Act → Prop
  | .settle f => f.status = .settled ∧ (keyOf f).isSome ∧
      ∀ k ∈ keyOf f, ∀ last ∈ lastKey (s.tape f.marketId.val), last < k
  | .connected _ | .abandoned => 0 < s.server.reserved
  | .poll _ => s.stage.atRest = true
  | .refresh _ _ => s.stage.atRest = true ∨ s.stage.readsMarkets = true
  | .write _ | .upgrade | .message _ _ _ | .pong _ _ | .drained _ _ | .closed _ | .beat _ | .shutdown | .query
  | .resume _ | .fills _ | .fail _ => True

instance (s : Service) : ∀ a, Decidable (enabled s a)
  | .settle f => inferInstanceAs (Decidable (f.status = .settled ∧ (keyOf f).isSome ∧
      ∀ k ∈ keyOf f, ∀ last ∈ lastKey (s.tape f.marketId.val), last < k))
  | .connected _ | .abandoned => inferInstanceAs (Decidable (0 < s.server.reserved))
  | .poll _ => inferInstanceAs (Decidable (s.stage.atRest = true))
  | .refresh _ _ => inferInstanceAs (Decidable (s.stage.atRest = true ∨ s.stage.readsMarkets = true))
  | .write _ | .upgrade | .message _ _ _ | .pong _ _ | .drained _ _ | .closed _ | .beat _ | .shutdown | .query
  | .resume _ | .fills _ | .fail _ => inferInstanceAs (Decidable True)

def act (setup : Setup) (s : Service) : Act → Service
  | .write db => { s with db := db }
  | .settle f => { s with tape := update s.tape f.marketId.val (s.tape f.marketId.val ++ [f]) }
  | .upgrade => s.withServer fun x => x.onUpgrade setup
  | .connected now => s.withServer fun x => x.onConnection now
  | .abandoned => s.withServer fun x => { x with reserved := x.reserved - 1 }
  | .message id now data => s.withServer fun x => x.onMessage setup id now data
  | .pong id now => s.withServer fun x => x.onConn id fun c => { c with lastSeen := now }
  | .drained id left => s.withServer fun x => x.onConn id fun c => { c with bufferedAmount := min c.bufferedAmount left }
  | .closed id => s.withServer fun x => x.onClose id
  | .beat now => s.withServer fun x => x.beat setup now
  | .shutdown => s.withServer Server.close
  | .poll now => s.poll setup now
  | .refresh ms now => s.refresh setup ms now
  | .query => s.query setup
  | .resume now => s.resume setup now
  | .fills rows => s.readFills setup rows
  | .fail now => s.fail now

/-- A server that has not been connected to, over any database whose tapes are in chain order. -/
structure Started (s : Service) : Prop where
  server : s.server = Server.new
  stage : s.stage = .idle
  tape : ∀ marketId, s.tape marketId = []

def machine (setup : Setup) : Machine Service Act where
  init := Started
  step s a t := enabled s a ∧ act setup s a = t

end Kryon.StreamServer
