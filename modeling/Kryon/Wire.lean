import Kryon.Amounts
import Kryon.PublicBook
import Kryon.Stream
/-!
# Wire — the streaming protocol's channel names and frames

The server names a channel canonically, whatever form it was asked for in (`parseChannel_iff`, `channelName_injective`), and
sends every amount as a rounded display decimal and as the exact integer.  The browser reads the integers, so what it reads
of a frame is what the server had (`frames_read`).
-/
namespace Kryon.Wire

open Matcher (FillStatus)
open PublicBook (BookLevel Side)

/-! ## Channels -/

inductive Channel where
  | orderbook (marketId : Nat)
  | trades (marketId : Nat)
  | fills (address : List Char)
  | markets
deriving DecidableEq

def channelName : Channel → List Char
  | .orderbook marketId => "orderbook:".toList ++ Nat.toDigits 10 marketId
  | .trades marketId => "trades:".toList ++ Nat.toDigits 10 marketId
  | .fills address => "fills:".toList ++ address
  | .markets => "markets".toList

/-- An on-chain `uint32` market id from a path or query segment. -/
def parseMarketId (raw : List Char) : Option Nat :=
  if raw ≠ [] ∧ raw.length ≤ 10 ∧ raw.all Char.isDigit = true then
    let n := Nat.ofDigitChars 10 raw 0
    if 1 ≤ n ∧ n ≤ 0xffffffff then some n else none
  else none

def hexDigits : List Char := "0123456789abcdefABCDEF".toList

/-- `isAddress`, strict: 40 hex digits after `0x`, in lowercase or under a valid checksum. -/
def isAddress (checksumAddress : List Char → List Char) (raw : List Char) : Bool :=
  decide (raw.length = 42) && decide (raw.take 2 = ['0', 'x']) && ((raw.drop 2).all hexDigits.contains) &&
    (decide (raw.map Char.toLower = raw) || decide (checksumAddress raw = raw))

/-- An address in the form the database stores. -/
def parseAddress (checksumAddress : List Char → List Char) (raw : List Char) : Option (List Char) :=
  if raw.length ≠ 42 then none
  else if isAddress checksumAddress raw = true then some (raw.map Char.toLower) else none

/-- What a channel is asked for by; its canonical name is `channelName` of it. -/
def parseChannel (checksumAddress : List Char → List Char) (raw : List Char) : Option Channel :=
  if raw.length > 64 then none
  else if raw = "markets".toList then some .markets
  else if ':' ∉ raw then none
  else
    let kind := raw.takeWhile (· ≠ ':')
    let arg := (raw.dropWhile (· ≠ ':')).drop 1
    if kind = "orderbook".toList then (parseMarketId arg).map .orderbook
    else if kind = "trades".toList then (parseMarketId arg).map .trades
    else if kind = "fills".toList then (parseAddress checksumAddress arg).map .fills
    else none

variable {checksumAddress : List Char → List Char} {raw : List Char} {c : Channel}

/-- A text of a market id: up to ten digits, leading zeros among them. -/
structure SpellsMarket (raw : List Char) (marketId : Nat) : Prop where
  nonempty : raw ≠ []
  length : raw.length ≤ 10
  digits : ∀ d ∈ raw, d.isDigit = true
  value : Nat.ofDigitChars 10 raw 0 = marketId
  range : 1 ≤ marketId ∧ marketId ≤ 0xffffffff

/-- The texts of a channel. -/
inductive Spells (checksumAddress : List Char → List Char) : List Char → Channel → Prop where
  | orderbook {arg : List Char} {marketId : Nat} (h : SpellsMarket arg marketId) :
      Spells checksumAddress ("orderbook:".toList ++ arg) (.orderbook marketId)
  | trades {arg : List Char} {marketId : Nat} (h : SpellsMarket arg marketId) :
      Spells checksumAddress ("trades:".toList ++ arg) (.trades marketId)
  | fills {arg : List Char} (h : isAddress checksumAddress arg = true) :
      Spells checksumAddress ("fills:".toList ++ arg) (.fills (arg.map Char.toLower))
  | markets : Spells checksumAddress "markets".toList .markets

theorem parseMarketId_iff {marketId : Nat} : parseMarketId raw = some marketId ↔ SpellsMarket raw marketId := by
  unfold parseMarketId
  constructor
  · intro h
    split at h
    · rename_i hraw
      dsimp only at h
      split at h
      · rename_i hrange
        rw [Option.some.injEq] at h
        subst h
        exact ⟨hraw.1, hraw.2.1, List.all_eq_true.1 hraw.2.2, rfl, hrange⟩
      · exact absurd h (by simp)
    · exact absurd h (by simp)
  · rintro ⟨hne, hlen, hdigits, rfl, hrange⟩
    rw [if_pos ⟨hne, hlen, List.all_eq_true.2 hdigits⟩, if_pos hrange]

theorem isAddress_length {arg : List Char} (h : isAddress checksumAddress arg = true) : arg.length = 42 := by
  simp only [isAddress, Bool.and_eq_true, decide_eq_true_eq] at h
  exact h.1.1.1

theorem parseAddress_iff {address : List Char} : parseAddress checksumAddress raw = some address ↔
    isAddress checksumAddress raw = true ∧ raw.map Char.toLower = address := by
  unfold parseAddress
  constructor
  · intro h
    split_ifs at h with hlen haddr
    exact ⟨haddr, by simpa using h⟩
  · rintro ⟨haddr, rfl⟩
    rw [if_neg (by simp [isAddress_length haddr]), if_pos haddr]

/-- Where the kind ends and the argument begins. -/
theorem split_at_colon {kind : List Char} (h : ':' ∉ kind) (arg : List Char) :
    (kind ++ ':' :: arg).takeWhile (· ≠ ':') = kind ∧ ((kind ++ ':' :: arg).dropWhile (· ≠ ':')).drop 1 = arg := by
  induction kind with
  | nil => simp
  | cons x kind ih =>
    have hx : x ≠ ':' := fun hx => h (hx ▸ List.mem_cons_self)
    obtain ⟨htake, hdrop⟩ := ih fun hmem => h (List.mem_cons_of_mem x hmem)
    simp only [List.cons_append, List.takeWhile_cons, List.dropWhile_cons, hx, ne_eq, not_false_eq_true, decide_true,
      if_true]
    exact ⟨congrArg (x :: ·) htake, hdrop⟩

theorem split_colon (h : ':' ∈ raw) :
    raw = raw.takeWhile (· ≠ ':') ++ ':' :: (raw.dropWhile (· ≠ ':')).drop 1 := by
  induction raw with
  | nil => exact absurd h List.not_mem_nil
  | cons x raw ih =>
    by_cases hx : x = ':'
    · subst hx
      simp
    · have hmem : ':' ∈ raw := (List.mem_cons.1 h).resolve_left fun heq => hx heq.symm
      simp only [List.takeWhile_cons, List.dropWhile_cons, hx, ne_eq, not_false_eq_true, decide_true, if_true,
        List.cons_append]
      exact congrArg (x :: ·) (ih hmem)

theorem parseChannel_cons (checksumAddress : List Char → List Char) {kind arg : List Char} (hkind : ':' ∉ kind) (hlen : kind.length + arg.length < 64) :
    parseChannel checksumAddress (kind ++ ':' :: arg) =
      if kind = "orderbook".toList then (parseMarketId arg).map .orderbook
      else if kind = "trades".toList then (parseMarketId arg).map .trades
      else if kind = "fills".toList then (parseAddress checksumAddress arg).map .fills
      else none := by
  have hcolon : ':' ∈ kind ++ ':' :: arg := List.mem_append_right _ List.mem_cons_self
  have hmarkets : kind ++ ':' :: arg ≠ "markets".toList := by
    intro h
    rw [h] at hcolon
    exact absurd hcolon (by decide)
  obtain ⟨htake, hdrop⟩ := split_at_colon hkind arg
  unfold parseChannel
  rw [if_neg (by simp; omega), if_neg hmarkets, if_neg (not_not.2 hcolon)]
  simp only [htake, hdrop]

/-- **A text is parsed as the channel it spells**, and as no other. -/
theorem parseChannel_iff : parseChannel checksumAddress raw = some c ↔ Spells checksumAddress raw c := by
  constructor
  · intro h
    unfold parseChannel at h
    dsimp only at h
    split_ifs at h with hlen hmarkets hcolon horderbook htrades hfills
    · rw [Option.some.injEq] at h
      exact hmarkets ▸ h ▸ .markets
    all_goals
      have hraw := split_colon hcolon
      rw [hraw]
      rw [Option.map_eq_some_iff] at h
      obtain ⟨x, hx, rfl⟩ := h
    · rw [horderbook]
      exact .orderbook (parseMarketId_iff.1 hx)
    · rw [htrades]
      exact .trades (parseMarketId_iff.1 hx)
    · rw [hfills]
      obtain ⟨haddr, rfl⟩ := parseAddress_iff.1 hx
      exact .fills haddr
  · intro h
    cases h with
    | @orderbook arg marketId h =>
      have hlen := h.length
      have hcons := parseChannel_cons checksumAddress (show ':' ∉ "orderbook".toList by decide)
        (show _ + arg.length < 64 by simp; omega)
      exact hcons.trans (by simp [parseMarketId_iff.2 h])
    | @trades arg marketId h =>
      have hlen := h.length
      have hcons := parseChannel_cons checksumAddress (show ':' ∉ "trades".toList by decide)
        (show _ + arg.length < 64 by simp; omega)
      exact hcons.trans (by simp [parseMarketId_iff.2 h])
    | @fills arg h =>
      have hlen := isAddress_length h
      have hcons := parseChannel_cons checksumAddress (show ':' ∉ "fills".toList by decide)
        (show _ + arg.length < 64 by simp; omega)
      exact hcons.trans (by simp [parseAddress_iff.2 ⟨h, rfl⟩])
    | markets => rfl

/-- Lowercase hex digits are hex digits, and stay as they are. -/
theorem toLower_hexDigit : ∀ d ∈ hexDigits, d.toLower ∈ hexDigits ∧ d.toLower.toLower = d.toLower := by
  have hall : hexDigits.all (fun d => hexDigits.contains d.toLower && d.toLower.toLower == d.toLower) = true := by rfl
  simpa [List.all_eq_true] using hall

theorem isAddress_toLower (h : isAddress checksumAddress raw = true) :
    isAddress checksumAddress (raw.map Char.toLower) = true ∧
      (raw.map Char.toLower).map Char.toLower = raw.map Char.toLower := by
  simp only [isAddress, Bool.and_eq_true, List.all_eq_true, List.contains_iff_mem, decide_eq_true_eq] at h
  obtain ⟨⟨⟨hlen, hprefix⟩, hdigits⟩, -⟩ := h
  have hsplit : raw = ['0', 'x'] ++ raw.drop 2 := by
    rw [← hprefix, List.take_append_drop]
  have htwice : (raw.map Char.toLower).map Char.toLower = raw.map Char.toLower := by
    rw [hsplit, List.map_append, List.map_append, List.map_map (l := raw.drop 2)]
    refine congrArg _ (List.map_congr_left fun d hd => ?_)
    exact (toLower_hexDigit d (hdigits d hd)).2
  have hlower : ∀ d ∈ (raw.map Char.toLower).drop 2, d ∈ hexDigits := by
    intro d hd
    rw [← List.map_drop] at hd
    obtain ⟨e, he, rfl⟩ := List.mem_map.1 hd
    exact (toLower_hexDigit e (hdigits e he)).1
  refine ⟨?_, htwice⟩
  simp only [isAddress, Bool.and_eq_true, Bool.or_eq_true, List.all_eq_true, List.contains_iff_mem, decide_eq_true_eq,
    List.length_map]
  refine ⟨⟨⟨hlen, ?_⟩, hlower⟩, Or.inl htwice⟩
  rw [← List.map_take, hprefix]
  decide

theorem spellsMarket_toDigits {marketId : Nat} (h : 1 ≤ marketId ∧ marketId ≤ 0xffffffff) :
    SpellsMarket (Nat.toDigits 10 marketId) marketId where
  nonempty := Nat.toDigits_ne_nil
  length := (Nat.length_toDigits_le_iff (by decide) (by decide)).2 (by omega)
  digits := Format.toDigits_isDigit marketId
  value := Nat.ofDigitChars_ten_toDigits
  range := h

/-- **The canonical name of a channel spells it.** -/
theorem Spells.name (h : Spells checksumAddress raw c) : Spells checksumAddress (channelName c) c := by
  cases h with
  | orderbook h => exact .orderbook (spellsMarket_toDigits h.range)
  | trades h => exact .trades (spellsMarket_toDigits h.range)
  | fills h =>
    obtain ⟨haddr, htwice⟩ := isAddress_toLower h
    have hspells := Spells.fills haddr
    rwa [htwice] at hspells
  | markets => exact .markets

theorem toDigits_injective {m n : Nat} (h : Nat.toDigits 10 m = Nat.toDigits 10 n) : m = n := by
  rw [← Nat.ofDigitChars_ten_toDigits (n := m), h, Nat.ofDigitChars_ten_toDigits]

/-- The first letter of a channel's name tells its kind. -/
def initial : Channel → Char
  | .orderbook _ => 'o'
  | .trades _ => 't'
  | .fills _ => 'f'
  | .markets => 'm'

theorem head_channelName (c : Channel) : (channelName c).head? = some (initial c) := by
  cases c <;> rfl

theorem channelName_injective {c c' : Channel} (h : channelName c = channelName c') : c = c' := by
  have hinitial : initial c = initial c' := by
    rw [← Option.some.injEq, ← head_channelName, ← head_channelName, h]
  cases c with
  | orderbook m =>
    cases c' with
    | orderbook n => exact congrArg _ (toDigits_injective (List.append_cancel_left h))
    | trades _ | fills _ | markets => exact absurd hinitial (by simp [initial])
  | trades m =>
    cases c' with
    | trades n => exact congrArg _ (toDigits_injective (List.append_cancel_left h))
    | orderbook _ | fills _ | markets => exact absurd hinitial (by simp [initial])
  | fills a =>
    cases c' with
    | fills b => exact congrArg _ (List.append_cancel_left h)
    | orderbook _ | trades _ | markets => exact absurd hinitial (by simp [initial])
  | markets =>
    cases c' with
    | markets => rfl
    | orderbook _ | trades _ | fills _ => exact absurd hinitial (by simp [initial])

/-- **Channel names are exact.**  A text is parsed as a channel exactly when it spells it, in any of its forms; the
canonical name of what was parsed parses to it again; and distinct channels have distinct names. -/
theorem channels_named (checksumAddress : List Char → List Char) :
    (∀ raw c, parseChannel checksumAddress raw = some c ↔ Spells checksumAddress raw c) ∧
      (∀ raw c, parseChannel checksumAddress raw = some c → parseChannel checksumAddress (channelName c) = some c) ∧
      Function.Injective channelName :=
  ⟨fun _ _ => parseChannel_iff, fun _ _ h => parseChannel_iff.2 (parseChannel_iff.1 h).name, fun _ _ => channelName_injective⟩

/-! ## Frames -/

/-- A JSON value; the numbers of the frames are integers. -/
inductive Json where
  | null
  | bool (b : Bool)
  | num (n : Int)
  | str (s : List Char)
  | arr (xs : List Json)
  | obj (fields : List (String × Json))

/-- A bigint's text. -/
def bigText (n : Int) : List Char := if n < 0 then '-' :: Nat.toDigits 10 n.natAbs else Nat.toDigits 10 n.natAbs

/-- A hash or an address as the database stores it. -/
def hexText (digits n : Nat) : List Char := '0' :: 'x' :: Format.padStart (Nat.toDigits 16 n) digits '0'

def orNull {α : Type} (f : α → Json) : Option α → Json
  | some x => f x
  | none => .null

inductive TradeSide where
  | buy
  | sell
deriving DecidableEq

def TradeSide.text : TradeSide → List Char
  | .buy => "buy".toList
  | .sell => "sell".toList

inductive Role where
  | maker
  | taker
  | both
deriving DecidableEq

def Role.text : Role → List Char
  | .maker => "maker".toList
  | .taker => "taker".toList
  | .both => "both".toList

def statusText : FillStatus → List Char
  | .pending => "PENDING".toList
  | .settled => "SETTLED".toList
  | .rejected => "REJECTED".toList

/-- A fill as the stream's statements select it. -/
structure StreamFill extends Stream.StreamFill where
  makerFee : Int
  takerFee : Int
  txHash : Option Bytes32
  blockNumber : Option Nat
  logIndex : Option Nat
deriving DecidableEq

/-- A market's mark, index, funding rate and open interest. -/
structure MarketState where
  marketId : MarketId
  symbol : String
  active : Bool
  lastMark : Int
  lastIndex : Int
  fundingRatePerHour : Int
  longOpenInterest : Int
  shortOpenInterest : Int
deriving DecidableEq

inductive ServerMessage where
  | subscribed (channels : List (List Char))
  | unsubscribed (channels : List (List Char))
  | pong
  | error (message : String) (channels : Option (List (List Char)))
  | orderbook (marketId : Nat) (bids asks : List BookLevel) (timestamp : Int)
  | trade (f : StreamFill)
  /-- One fill as the address sees it. -/
  | fill (address : Address) (f : StreamFill)
  | markets (markets : List MarketState) (timestamp : Int)
deriving DecidableEq

section Server

-- `formatFixed` goes through a double, for display only.
variable (formatFixed : Int → Nat → Nat → List Char)

def levelJson (l : BookLevel) : Json :=
  .obj [("price", .str (formatFixed l.price 18 4)), ("size", .str (formatFixed l.size 18 4)),
    ("price_raw", .str (bigText l.price)), ("size_raw", .str (bigText l.size)), ("orders", .num l.orders)]

def tradeMessage (f : StreamFill) : Json :=
  .obj [("type", .str "trade".toList), ("market_id", .num f.marketId.val), ("price", .str (formatFixed f.price 18 4)),
    ("size", .str (formatFixed f.size 18 4)),
    ("side", .str (if f.takerIsBuy then TradeSide.buy else .sell).text), ("timestamp", .num f.createdAt),
    ("fill_id", .str (hexText 64 f.fillId.val)), ("tx_hash", orNull (fun h => .str (hexText 64 h.val)) f.txHash),
    ("price_raw", .str (bigText f.price)), ("size_raw", .str (bigText f.size)),
    ("block_number", orNull (fun n : Nat => .str (bigText n)) f.blockNumber)]

def roleOf (address : Address) (f : StreamFill) : Role :=
  if f.maker = address then if f.taker = address then .both else .maker else .taker

/-- The maker traded against the taker, so it took the other side. -/
def sideOf (address : Address) (f : StreamFill) : TradeSide :=
  let buys := if roleOf address f = .maker then !f.takerIsBuy else f.takerIsBuy
  if buys then .buy else .sell

def feeOf (address : Address) (f : StreamFill) : Int :=
  match roleOf address f with
  | .maker => f.makerFee
  | .taker => f.takerFee
  | .both => f.makerFee + f.takerFee

def fillMessage (address : Address) (f : StreamFill) : Json :=
  .obj [("type", .str "fill".toList), ("address", .str (hexText 40 address.val)),
    ("fill_id", .str (hexText 64 f.fillId.val)), ("status", .str (statusText f.status)),
    ("reject_reason", orNull (fun r : String => .str r.toList) f.rejectReason), ("market_id", .num f.marketId.val),
    ("role", .str (roleOf address f).text), ("side", .str (sideOf address f).text),
    ("price", .str (formatFixed f.price 18 4)), ("size", .str (formatFixed f.size 18 4)),
    ("price_raw", .str (bigText f.price)), ("size_raw", .str (bigText f.size)), ("fee_raw", .str (bigText (feeOf address f))),
    ("tx_hash", orNull (fun h => .str (hexText 64 h.val)) f.txHash),
    ("block_number", orNull (fun n : Nat => .str (bigText n)) f.blockNumber), ("timestamp", .num f.createdAt),
    ("updated_at", .num f.updatedAt)]

def marketJson (m : MarketState) : Json :=
  .obj [("market_id", .num m.marketId.val), ("symbol", .str m.symbol.toList), ("active", .bool m.active),
    ("mark_price", .str (formatFixed m.lastMark 18 4)), ("index_price", .str (formatFixed m.lastIndex 18 4)),
    ("funding_rate_per_hour", .str (formatFixed m.fundingRatePerHour 18 10)),
    ("funding_rate_per_hour_raw", .str (bigText m.fundingRatePerHour)),
    ("long_open_interest", .str (formatFixed m.longOpenInterest 18 4)),
    ("short_open_interest", .str (formatFixed m.shortOpenInterest 18 4)),
    ("mark_price_raw", .str (bigText m.lastMark)), ("index_price_raw", .str (bigText m.lastIndex)),
    ("long_open_interest_raw", .str (bigText m.longOpenInterest)),
    ("short_open_interest_raw", .str (bigText m.shortOpenInterest))]

/-- A message as it is sent. -/
def frame : ServerMessage → Json
  | .subscribed channels => .obj [("type", .str "subscribed".toList), ("channels", .arr (channels.map .str))]
  | .unsubscribed channels => .obj [("type", .str "unsubscribed".toList), ("channels", .arr (channels.map .str))]
  | .pong => .obj [("type", .str "pong".toList)]
  | .error message none => .obj [("type", .str "error".toList), ("message", .str message.toList)]
  | .error message (some channels) =>
    .obj [("type", .str "error".toList), ("message", .str message.toList), ("channels", .arr (channels.map .str))]
  | .orderbook marketId bids asks timestamp =>
    .obj [("type", .str "orderbook".toList), ("market_id", .num marketId),
      ("bids", .arr (bids.map (levelJson formatFixed))), ("asks", .arr (asks.map (levelJson formatFixed))),
      ("timestamp", .num timestamp)]
  | .trade f => tradeMessage formatFixed f
  | .fill address f => fillMessage formatFixed address f
  | .markets markets timestamp =>
    .obj [("type", .str "markets".toList), ("markets", .arr (markets.map (marketJson formatFixed))),
      ("timestamp", .num timestamp)]

end Server

/-! ## Reading -/

/-- A field of an object; a missing one is undefined. -/
def Json.get : Json → String → Option Json
  | .obj fields, name => fields.lookup name
  | .null, _ | .bool _, _ | .num _, _ | .str _, _ | .arr _, _ => none

/-- A decimal integer string as bigint. -/
def big : Option Json → Option Int
  | some (.str raw) =>
    let digits := if raw.head? = some '-' then raw.tail else raw
    if digits ≠ [] ∧ digits.length ≤ 80 ∧ digits.all Char.isDigit = true then
      let n : Int := Nat.ofDigitChars 10 digits 0
      some (if raw.head? = some '-' then -n else n)
    else none
  | _ => none

def num : Option Json → Option Int
  | some (.num n) => some n
  | _ => none

def str : Option Json → Option (List Char)
  | some (.str s) => some s
  | _ => none

def arr : Option Json → Option (List Json)
  | some (.arr xs) => some xs
  | _ => none

def boolean : Option Json → Option Bool
  | some (.bool b) => some b
  | _ => none

/-- The one of the values whose text the field is. -/
def oneOf {α : Type} (text : α → List Char) (values : List α) (raw : Option Json) : Option α :=
  (str raw).bind fun s => values.find? fun v => decide (text v = s)

def side : Option Json → Option TradeSide := oneOf TradeSide.text [.buy, .sell]

def parseLevel (raw : Json) : Option BookLevel := do
  let price ← big (raw.get "price_raw")
  let size ← big (raw.get "size_raw")
  if price ≤ 0 ∨ size ≤ 0 then none else some ⟨price, size, (num (raw.get "orders")).getD 0⟩

structure OrderBook where
  /-- Highest first. -/
  bids : List BookLevel
  /-- Lowest first. -/
  asks : List BookLevel
  timestamp : Int
deriving DecidableEq

/-- Bad levels are dropped, and the rest sorted best first. -/
def levels (side : Side) (xs : List Json) : List BookLevel :=
  (xs.filterMap parseLevel).insertionSort fun a b => side.le a.price b.price

def parseOrderBook (now : Int) (raw : Json) : Option OrderBook := do
  let bids ← arr (raw.get "bids")
  let asks ← arr (raw.get "asks")
  some ⟨levels .bid bids, levels .ask asks, (num (raw.get "timestamp")).getD now⟩

/-- A settled print on a market's tape. -/
structure Trade where
  fillId : List Char
  price : Int
  size : Int
  /-- The taker's. -/
  side : TradeSide
  timestamp : Int
  txHash : Option (List Char)
deriving DecidableEq

def parseTrade (raw : Json) : Option Trade := do
  let price ← big (raw.get "price_raw")
  let size ← big (raw.get "size_raw")
  let s ← side (raw.get "side")
  let fillId ← str (raw.get "fill_id")
  let timestamp ← num (raw.get "timestamp")
  some ⟨fillId, price, size, s, timestamp, str (raw.get "tx_hash")⟩

/-- One of the caller's fills. -/
structure OwnFill where
  fillId : List Char
  status : FillStatus
  rejectReason : Option (List Char)
  marketId : Int
  role : Role
  side : TradeSide
  price : Int
  size : Int
  fee : Int
  txHash : Option (List Char)
  blockNumber : Option Int
  timestamp : Int
  updatedAt : Int
deriving DecidableEq

def parseOwnFill (raw : Json) : Option OwnFill := do
  let status ← oneOf statusText [.pending, .settled, .rejected] (raw.get "status")
  let role ← oneOf Role.text [.maker, .taker, .both] (raw.get "role")
  let price ← big (raw.get "price_raw")
  let size ← big (raw.get "size_raw")
  let fee ← big (raw.get "fee_raw")
  let s ← side (raw.get "side")
  let fillId ← str (raw.get "fill_id")
  let marketId ← num (raw.get "market_id")
  let timestamp ← num (raw.get "timestamp")
  some
    { fillId := fillId
      status := status
      rejectReason := str (raw.get "reject_reason")
      marketId := marketId
      role := role
      side := s
      price := price
      size := size
      fee := fee
      txHash := str (raw.get "tx_hash")
      blockNumber := big (raw.get "block_number")
      timestamp := timestamp
      updatedAt := (num (raw.get "updated_at")).getD timestamp }

structure MarketTicker where
  marketId : Int
  symbol : List Char
  active : Bool
  markPrice : Int
  indexPrice : Int
  fundingRatePerHour : Int
  longOpenInterest : Int
  shortOpenInterest : Int
deriving DecidableEq

def parseTicker (raw : Json) : Option MarketTicker := do
  let marketId ← num (raw.get "market_id")
  let symbol ← str (raw.get "symbol")
  let active ← boolean (raw.get "active")
  let markPrice ← big (raw.get "mark_price_raw")
  let indexPrice ← big (raw.get "index_price_raw")
  let fundingRatePerHour ← big (raw.get "funding_rate_per_hour_raw")
  let longOpenInterest ← big (raw.get "long_open_interest_raw")
  let shortOpenInterest ← big (raw.get "short_open_interest_raw")
  some ⟨marketId, symbol, active, markPrice, indexPrice, fundingRatePerHour, longOpenInterest, shortOpenInterest⟩

inductive StreamEvent where
  | orderbook (marketId : Int) (book : OrderBook)
  | trade (marketId : Int) (trade : Trade)
  | fill (address : List Char) (fill : OwnFill)
  | markets (markets : List MarketTicker) (timestamp : Int)
  | error (message : List Char) (channels : List (List Char))
deriving DecidableEq

/-- A server frame as a typed event; an acknowledgement, a pong and what is malformed is none. -/
def parseServerMessage (now : Int) (msg : Json) : Option StreamEvent :=
  match str (msg.get "type") with
  | none => none
  | some type =>
    if type = "orderbook".toList then do
      let marketId ← num (msg.get "market_id")
      let book ← parseOrderBook now msg
      some (.orderbook marketId book)
    else if type = "trade".toList then do
      let marketId ← num (msg.get "market_id")
      let trade ← parseTrade msg
      some (.trade marketId trade)
    else if type = "fill".toList then do
      let address ← str (msg.get "address")
      let fill ← parseOwnFill msg
      some (.fill address fill)
    else if type = "markets".toList then do
      let markets ← arr (msg.get "markets")
      some (.markets (markets.filterMap parseTicker) ((num (msg.get "timestamp")).getD now))
    else if type = "error".toList then
      some (.error ((str (msg.get "message")).getD "unknown".toList)
        (((arr (msg.get "channels")).getD []).filterMap fun c => str (some c)))
    else none

/-! ## What is read of a frame -/

variable {formatFixed : Int → Nat → Nat → List Char} {now : Int}

/-- At most 80 digits, as many as are read. -/
def Fits (n : Int) : Prop := n.natAbs < 10 ^ 80

instance (n : Int) : Decidable (Fits n) := inferInstanceAs (Decidable (_ < _))

theorem head_toDigits (n : Nat) : (Nat.toDigits 10 n).head? ≠ some '-' := by
  intro h
  have hmem := List.mem_of_mem_head? h
  exact absurd (Format.toDigits_isDigit n '-' hmem) (by decide)

theorem big_bigText {n : Int} (h : Fits n) : big (some (.str (bigText n))) = some n := by
  have hdigits : Nat.toDigits 10 n.natAbs ≠ [] ∧ (Nat.toDigits 10 n.natAbs).length ≤ 80 ∧
      (Nat.toDigits 10 n.natAbs).all Char.isDigit = true :=
    ⟨Nat.toDigits_ne_nil, (Nat.length_toDigits_le_iff (by decide) (by decide)).2 h,
      List.all_eq_true.2 (Format.toDigits_isDigit _)⟩
  by_cases hneg : n < 0
  · simp only [big, bigText, if_pos hneg, List.head?_cons, if_true, List.tail_cons, if_pos hdigits,
      Nat.ofDigitChars_ten_toDigits, Option.some.injEq]
    omega
  · simp only [big, bigText, if_neg hneg, if_neg (head_toDigits n.natAbs), if_pos hdigits,
      Nat.ofDigitChars_ten_toDigits, Option.some.injEq]
    omega

/-- A level that can be read: its price and size positive, and neither too long. -/
structure LevelFits (l : BookLevel) : Prop where
  price : 0 < l.price ∧ Fits l.price
  size : 0 < l.size ∧ Fits l.size

theorem parseLevel_levelJson {l : BookLevel} (h : LevelFits l) : parseLevel (levelJson formatFixed l) = some l := by
  have hprice : (levelJson formatFixed l).get "price_raw" = some (.str (bigText l.price)) := rfl
  have hsize : (levelJson formatFixed l).get "size_raw" = some (.str (bigText l.size)) := rfl
  have horders : (levelJson formatFixed l).get "orders" = some (.num l.orders) := rfl
  rw [parseLevel, hprice, hsize, horders, big_bigText h.price.2, big_bigText h.size.2]
  exact if_neg (by have := h.price.1; have := h.size.1; omega)

theorem levels_levelJson {s : Side} {ls : List BookLevel} (h : ∀ l ∈ ls, LevelFits l)
    (hs : ls.Pairwise fun a b => s.le a.price b.price) : levels s (ls.map (levelJson formatFixed)) = ls := by
  have hread : (ls.map (levelJson formatFixed)).filterMap parseLevel = ls := by
    rw [List.filterMap_map]
    refine (List.filterMap_congr fun l hl => ?_).trans (List.filterMap_some)
    exact parseLevel_levelJson (h l hl)
  rw [levels, hread]
  exact hs.insertionSort_eq

theorem read_orderbook {marketId : Nat} {bids asks : List BookLevel} {timestamp : Int}
    (hfits : ∀ l ∈ bids ++ asks, LevelFits l) (hbids : bids.Pairwise fun a b => Side.bid.le a.price b.price)
    (hasks : asks.Pairwise fun a b => Side.ask.le a.price b.price) :
    parseServerMessage now (frame formatFixed (.orderbook marketId bids asks timestamp)) =
      some (.orderbook marketId ⟨bids, asks, timestamp⟩) := by
  have hread : parseServerMessage now (frame formatFixed (.orderbook marketId bids asks timestamp)) =
      some (.orderbook marketId ⟨levels .bid (bids.map (levelJson formatFixed)),
        levels .ask (asks.map (levelJson formatFixed)), timestamp⟩) := rfl
  rw [hread, levels_levelJson (fun l hl => hfits l (List.mem_append_left _ hl)) hbids,
    levels_levelJson (fun l hl => hfits l (List.mem_append_right _ hl)) hasks]

/-- The print a settled fill makes. -/
def printOf (f : StreamFill) : Trade where
  fillId := hexText 64 f.fillId.val
  price := f.price
  size := f.size
  side := if f.takerIsBuy then .buy else .sell
  timestamp := f.createdAt
  txHash := f.txHash.map fun h => hexText 64 h.val

theorem side_text (s : TradeSide) : side (some (.str s.text)) = some s := by
  cases s <;> rfl

theorem str_orNull {α : Type} (f : α → List Char) (x : Option α) :
    str (some (orNull (fun a => .str (f a)) x)) = x.map f := by
  cases x <;> rfl

theorem read_trade {f : StreamFill} (hprice : Fits f.price) (hsize : Fits f.size) :
    parseServerMessage now (frame formatFixed (.trade f)) = some (.trade f.marketId.val (printOf f)) := by
  have hread : parseServerMessage now (frame formatFixed (.trade f)) = (do
      let trade ← parseTrade (tradeMessage formatFixed f)
      some (.trade f.marketId.val trade)) := rfl
  have htrade : parseTrade (tradeMessage formatFixed f) = (do
      let price ← big (some (.str (bigText f.price)))
      let size ← big (some (.str (bigText f.size)))
      let s ← side (some (.str (if f.takerIsBuy then TradeSide.buy else .sell).text))
      some ⟨hexText 64 f.fillId.val, price, size, s, f.createdAt,
        str (some (orNull (fun h : Bytes32 => .str (hexText 64 h.val)) f.txHash))⟩) := rfl
  rw [hread, htrade, big_bigText hprice, big_bigText hsize, side_text, str_orNull]
  rfl

/-- A fill as the account on one side of it sees it. -/
def ownFillOf (address : Address) (f : StreamFill) : OwnFill where
  fillId := hexText 64 f.fillId.val
  status := f.status
  rejectReason := f.rejectReason.map String.toList
  marketId := f.marketId.val
  role := roleOf address f
  side := sideOf address f
  price := f.price
  size := f.size
  fee := feeOf address f
  txHash := f.txHash.map fun h => hexText 64 h.val
  blockNumber := f.blockNumber.map Int.ofNat
  timestamp := f.createdAt
  updatedAt := f.updatedAt

theorem oneOf_status (s : FillStatus) :
    oneOf statusText [.pending, .settled, .rejected] (some (.str (statusText s))) = some s := by
  cases s <;> rfl

theorem oneOf_role (r : Role) : oneOf Role.text [.maker, .taker, .both] (some (.str r.text)) = some r := by
  cases r <;> rfl

theorem big_orNull {n : Option Nat} (h : ∀ k ∈ n, Fits k) :
    big (some (orNull (fun k : Nat => .str (bigText k)) n)) = n.map Int.ofNat := by
  cases n with
  | none => rfl
  | some k => exact big_bigText (h k rfl)

/-- The amounts of a fill frame are not too long to read. -/
structure FillFits (address : Address) (f : StreamFill) : Prop where
  price : Fits f.price
  size : Fits f.size
  fee : Fits (feeOf address f)
  block : ∀ n ∈ f.blockNumber, Fits n

theorem read_fill {address : Address} {f : StreamFill} (h : FillFits address f) :
    parseServerMessage now (frame formatFixed (.fill address f)) =
      some (.fill (hexText 40 address.val) (ownFillOf address f)) := by
  have hread : parseServerMessage now (frame formatFixed (.fill address f)) = (do
      let fill ← parseOwnFill (fillMessage formatFixed address f)
      some (.fill (hexText 40 address.val) fill)) := rfl
  have hfill : parseOwnFill (fillMessage formatFixed address f) = (do
      let status ← oneOf statusText [.pending, .settled, .rejected] (some (.str (statusText f.status)))
      let role ← oneOf Role.text [.maker, .taker, .both] (some (.str (roleOf address f).text))
      let price ← big (some (.str (bigText f.price)))
      let size ← big (some (.str (bigText f.size)))
      let fee ← big (some (.str (bigText (feeOf address f))))
      let s ← side (some (.str (sideOf address f).text))
      some
        { ownFillOf address f with
          status := status
          role := role
          price := price
          size := size
          fee := fee
          side := s
          rejectReason := str (some (orNull (fun r : String => .str r.toList) f.rejectReason))
          txHash := str (some (orNull (fun h : Bytes32 => .str (hexText 64 h.val)) f.txHash))
          blockNumber := big (some (orNull (fun n : Nat => .str (bigText n)) f.blockNumber)) }) := rfl
  rw [hread, hfill, oneOf_status, oneOf_role, big_bigText h.price, big_bigText h.size, big_bigText h.fee, side_text,
    str_orNull, str_orNull, big_orNull h.block]
  rfl

def tickerOf (m : MarketState) : MarketTicker :=
  ⟨m.marketId.val, m.symbol.toList, m.active, m.lastMark, m.lastIndex, m.fundingRatePerHour, m.longOpenInterest,
    m.shortOpenInterest⟩

structure MarketFits (m : MarketState) : Prop where
  mark : Fits m.lastMark
  index : Fits m.lastIndex
  rate : Fits m.fundingRatePerHour
  long : Fits m.longOpenInterest
  short : Fits m.shortOpenInterest

theorem parseTicker_marketJson {m : MarketState} (h : MarketFits m) :
    parseTicker (marketJson formatFixed m) = some (tickerOf m) := by
  have hread : parseTicker (marketJson formatFixed m) = (do
      let markPrice ← big (some (.str (bigText m.lastMark)))
      let indexPrice ← big (some (.str (bigText m.lastIndex)))
      let fundingRatePerHour ← big (some (.str (bigText m.fundingRatePerHour)))
      let longOpenInterest ← big (some (.str (bigText m.longOpenInterest)))
      let shortOpenInterest ← big (some (.str (bigText m.shortOpenInterest)))
      some ⟨m.marketId.val, m.symbol.toList, m.active, markPrice, indexPrice, fundingRatePerHour, longOpenInterest,
        shortOpenInterest⟩) := rfl
  rw [hread, big_bigText h.mark, big_bigText h.index, big_bigText h.rate, big_bigText h.long, big_bigText h.short]
  rfl

theorem read_markets {ms : List MarketState} {timestamp : Int} (h : ∀ m ∈ ms, MarketFits m) :
    parseServerMessage now (frame formatFixed (.markets ms timestamp)) =
      some (.markets (ms.map tickerOf) timestamp) := by
  have hread : parseServerMessage now (frame formatFixed (.markets ms timestamp)) =
      some (.markets ((ms.map (marketJson formatFixed)).filterMap parseTicker) timestamp) := rfl
  have hms : (ms.map (marketJson formatFixed)).filterMap parseTicker = ms.map tickerOf := by
    rw [List.filterMap_map, ← List.filterMap_eq_map]
    exact List.filterMap_congr fun m hm => parseTicker_marketJson (h m hm)
  rw [hread, hms]

theorem parseLevel_pos {raw : Json} {l : BookLevel} (h : parseLevel raw = some l) : 0 < l.price ∧ 0 < l.size := by
  simp only [parseLevel, Option.bind_eq_bind, Option.bind_eq_some_iff] at h
  obtain ⟨price, -, size, -, hif⟩ := h
  split_ifs at hif with hbad
  rw [Option.some.injEq] at hif
  subst hif
  rw [not_or, not_le, not_le] at hbad
  exact hbad

/-- **Whatever was sent, levels that are read are positive and best first.** -/
theorem levels_sound (s : Side) (xs : List Json) :
    (∀ l ∈ levels s xs, 0 < l.price ∧ 0 < l.size) ∧ (levels s xs).Pairwise fun a b => s.le a.price b.price := by
  constructor
  · intro l hl
    obtain ⟨raw, -, hraw⟩ := List.mem_filterMap.1 ((List.mem_insertionSort _).1 hl)
    exact parseLevel_pos hraw
  · have : Std.Total fun a b : BookLevel => s.le a.price b.price := ⟨fun a b => s.le_total _ _⟩
    have : IsTrans BookLevel fun a b => s.le a.price b.price := ⟨fun _ _ _ => Side.le_trans⟩
    exact List.pairwise_insertionSort _ _

theorem parseOrderBook_levels {raw : Json} {book : OrderBook} (h : parseOrderBook now raw = some book) :
    ∃ bids asks, book.bids = levels .bid bids ∧ book.asks = levels .ask asks := by
  simp only [parseOrderBook, Option.bind_eq_bind, Option.bind_eq_some_iff] at h
  obtain ⟨bids, -, asks, -, heq⟩ := h
  rw [Option.some.injEq] at heq
  subst heq
  exact ⟨bids, asks, rfl, rfl⟩

/-- A book whose levels are positive and best first. -/
structure Sound (book : OrderBook) : Prop where
  positive : ∀ l ∈ book.bids ++ book.asks, 0 < l.price ∧ 0 < l.size
  bids : book.bids.Pairwise fun a b => Side.bid.le a.price b.price
  asks : book.asks.Pairwise fun a b => Side.ask.le a.price b.price

theorem parseOrderBook_sound {raw : Json} {book : OrderBook} (h : parseOrderBook now raw = some book) : Sound book := by
  obtain ⟨bids, asks, hbids, hasks⟩ := parseOrderBook_levels h
  refine ⟨fun l hl => ?_, hbids ▸ (levels_sound .bid bids).2, hasks ▸ (levels_sound .ask asks).2⟩
  rcases List.mem_append.1 hl with hl | hl
  · exact (levels_sound .bid bids).1 l (hbids ▸ hl)
  · exact (levels_sound .ask asks).1 l (hasks ▸ hl)

/-- **What the browser reads of a frame is what the server had.**  Whatever the display decimals are, a book, a print, an
account's fill and the markets are read back exactly, up to 80 digits, the account's side and fee as they are its own; and
of whatever text a book is read, its levels are positive and best first. -/
theorem frames_read (formatFixed : Int → Nat → Nat → List Char) (now : Int) :
    (∀ marketId bids asks timestamp, (∀ l ∈ bids ++ asks, LevelFits l) →
      (bids.Pairwise fun a b => Side.bid.le a.price b.price) → (asks.Pairwise fun a b => Side.ask.le a.price b.price) →
      parseServerMessage now (frame formatFixed (.orderbook marketId bids asks timestamp)) =
        some (.orderbook marketId ⟨bids, asks, timestamp⟩)) ∧
      (∀ f, Fits f.price → Fits f.size →
        parseServerMessage now (frame formatFixed (.trade f)) = some (.trade f.marketId.val (printOf f))) ∧
      (∀ address f, FillFits address f → parseServerMessage now (frame formatFixed (.fill address f)) =
        some (.fill (hexText 40 address.val) (ownFillOf address f))) ∧
      (∀ ms timestamp, (∀ m ∈ ms, MarketFits m) →
        parseServerMessage now (frame formatFixed (.markets ms timestamp)) = some (.markets (ms.map tickerOf) timestamp)) ∧
      ∀ msg book, parseOrderBook now msg = some book → Sound book :=
  ⟨fun _ _ _ _ hfits hbids hasks => read_orderbook hfits hbids hasks, fun _ hprice hsize => read_trade hprice hsize,
    fun _ _ h => read_fill h, fun _ _ h => read_markets h, fun _ _ h => parseOrderBook_sound h⟩

theorem frames_read_book : parseServerMessage 0 (frame (fun _ _ _ => []) (.orderbook 7 [⟨101, 5, 1⟩, ⟨99, 3, 2⟩] [] 12)) =
    some (.orderbook 7 ⟨[⟨101, 5, 1⟩, ⟨99, 3, 2⟩], [], 12⟩) := by
  have hfits : ∀ l ∈ ([⟨101, 5, 1⟩, ⟨99, 3, 2⟩] : List BookLevel) ++ [], LevelFits l := by
    intro l hl
    simp only [List.append_nil, List.mem_cons, List.not_mem_nil, or_false] at hl
    rcases hl with rfl | rfl <;> exact ⟨⟨by decide, by decide⟩, ⟨by decide, by decide⟩⟩
  exact (frames_read (fun _ _ _ => []) 0).1 7 _ [] 12 hfits (by simp [Side.le]) List.Pairwise.nil

end Kryon.Wire
