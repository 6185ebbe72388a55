import Kryon.Wire
import Kryon.Lib.Transition
/-!
# MarketStream — the browser's side of the stream

One socket for every component that listens: channels are reference-counted, the socket is opened for the first listener,
reopened with a delay after it closes, and closed some time after the last listener is gone.  A socket's open and close are
events of their own, which come after the call that led to them, and other calls may come in between.
-/
namespace Kryon.MarketStream

open Function (update)
open Wire (StreamEvent Json parseServerMessage)
open Transition

/-! ## Sockets -/

inductive ReadyState where
  | connecting
  | open_
  | closing
  | closed
deriving DecidableEq

inductive ClientMessage where
  | subscribe (channels : List (List Char))
  | unsubscribe (channels : List (List Char))
  | ping
deriving DecidableEq

/-- A socket, with what was sent on it. -/
structure Socket where
  readyState : ReadyState
  sent : List ClientMessage
deriving DecidableEq

/-- `close`: the close event follows. -/
def Socket.close (s : Socket) : Socket :=
  match s.readyState with
  | .connecting | .open_ => { s with readyState := .closing }
  | .closing | .closed => s

/-- Connected to the server, or about to be. -/
def Socket.Live (s : Socket) : Prop := s.readyState = .connecting ∨ s.readyState = .open_

instance (s : Socket) : Decidable s.Live := inferInstanceAs (Decidable (_ ∨ _))

/-- The channels a client has asked for, as its server counts them. -/
def asked (sent : List ClientMessage) : List (List Char) :=
  sent.foldl (fun chs msg => match msg with
    | .subscribe channels => chs ++ channels
    | .unsubscribe channels => chs.filter fun ch => !channels.contains ch
    | .ping => chs) []

/-! ## The stream -/

/-- The first reconnect delay; it doubles up to the greatest. -/
structure Options where
  reconnectMs : Int
  maxReconnectMs : Int

def DEFAULT_OPTIONS : Options := ⟨1000, 30000⟩

/-- A subscription and whether it has been released. -/
structure Handle where
  channel : List Char
  listener : Nat
  released : Bool
deriving DecidableEq

/-- The sockets are those it has opened so far, by number; what its listeners and status listeners were called with is kept,
oldest first. -/
structure Stream where
  sockets : Nat → Socket
  opened : Nat
  socket : Option Nat
  listeners : OrderedMap (List Char) (List Nat)
  handles : List Handle
  reconnectDelay : Int
  /-- The delay of the pending timer, before jitter. -/
  reconnectTimer : Option Int
  idleTimer : Bool
  pingTimer : Bool
  isConnected : Bool
  closed : Bool
  statuses : List Bool
  events : List (Nat × StreamEvent)

def Stream.new (o : Options) : Stream where
  sockets := fun _ => ⟨.closed, []⟩
  opened := 0
  socket := none
  listeners := .empty
  handles := []
  reconnectDelay := o.reconnectMs
  reconnectTimer := none
  idleTimer := false
  pingTimer := false
  isConnected := false
  closed := false
  statuses := []
  events := []

/-- The channel an event belongs to. -/
def channelOf : StreamEvent → Option (List Char)
  | .orderbook marketId _ => some ("orderbook:".toList ++ Wire.bigText marketId)
  | .trade marketId _ => some ("trades:".toList ++ Wire.bigText marketId)
  | .fill address _ => some (Wire.channelName (.fills address))
  | .markets _ _ => some (Wire.channelName .markets)
  | .error _ _ => none

namespace Stream

variable (o : Options) (s : Stream)

def send (payload : ClientMessage) : Stream :=
  match s.socket with
  | none => s
  | some i =>
    if (s.sockets i).readyState = .open_ then
      { s with sockets := update s.sockets i { s.sockets i with sent := (s.sockets i).sent ++ [payload] } }
    else s

def setConnected (v : Bool) : Stream :=
  if s.isConnected = v then s else { s with isConnected := v, statuses := s.statuses ++ [v] }

def scheduleReconnect : Stream :=
  match s.reconnectTimer with
  | some _ => s
  | none =>
    { s with
      reconnectTimer := some s.reconnectDelay
      reconnectDelay := min (s.reconnectDelay * 2) o.maxReconnectMs }

/-- `throws`: the socket cannot be constructed. -/
def connect (throws : Bool) : Stream :=
  if s.closed = true ∨ s.listeners.keys = [] then s
  else if throws = true then s.scheduleReconnect o
  else { s with sockets := update s.sockets s.opened ⟨.connecting, []⟩, socket := some s.opened, opened := s.opened + 1 }

def ensureSocket (throws : Bool) : Stream :=
  if s.closed = true ∨ s.socket.isSome = true ∨ s.reconnectTimer.isSome = true then s else s.connect o throws

/-- Closes the current socket and lets go of it. -/
def dropSocket : Stream :=
  match s.socket with
  | none => s
  | some i => { s with socket := none, sockets := update s.sockets i (s.sockets i).close }

def subscribe (channel : List Char) (listener : Nat) (throws : Bool) : Stream :=
  let set := (s.listeners.get channel).getD []
  let isNew := (s.listeners.get channel).isNone
  let s := { s with
    listeners := s.listeners.set channel (if listener ∈ set then set else set ++ [listener])
    handles := s.handles ++ [Handle.mk channel listener false]
    idleTimer := false }
  let s := if isNew then s.send (.subscribe [channel]) else s
  s.ensureSocket o throws

/-- A listener is taken off its channel, and the channel with its last listener. -/
def unlisten (channel : List Char) (listener : Nat) : Stream :=
  match s.listeners.get channel with
  | none => s
  | some current =>
    let left := current.erase listener
    if left = [] then
      let s := { s with listeners := s.listeners.delete channel }.send (.unsubscribe [channel])
      if s.listeners.keys = [] then { s with idleTimer := true } else s
    else { s with listeners := s.listeners.set channel left }

/-- The function a subscription returned is called. -/
def release (i : Nat) : Stream :=
  match s.handles[i]? with
  | none => s
  | some h =>
    if h.released = true then s
    else { s with handles := s.handles.set i { h with released := true } }.unlisten h.channel h.listener

/-- Tear down for good. -/
def close : Stream :=
  let s := { s with
    closed := true, pingTimer := false, idleTimer := false, reconnectTimer := none, listeners := .empty }
  s.dropSocket.setConnected false

def onopen : Stream :=
  let s := { s with reconnectDelay := o.reconnectMs }.setConnected true
  let s := { s with pingTimer := true }
  if s.listeners.keys = [] then s else s.send (.subscribe s.listeners.keys)

def letGo (i : Nat) : Stream := { s with socket := if s.socket = some i then none else s.socket }

def onclose (i : Nat) : Stream :=
  let s := { s.letGo i with pingTimer := false }.setConnected false
  if s.closed = false ∧ s.listeners.keys ≠ [] then s.scheduleReconnect o else s

def dispatch : Option StreamEvent → Stream
  | none => s
  | some (.error message channels) =>
    { s with events := s.events ++ channels.flatMap fun ch =>
        ((s.listeners.get ch).getD []).map fun l => (l, .error message channels) }
  | some ev =>
    { s with events := s.events ++ (((channelOf ev).bind s.listeners.get).getD []).map fun l => (l, ev) }

/-- The reconnect timer fires. -/
def onReconnect (throws : Bool) : Stream := { s with reconnectTimer := none }.connect o throws

/-- The idle timer fires. -/
def onIdle : Stream :=
  let s := { s with idleTimer := false }
  if s.listeners.keys ≠ [] then s else { s with pingTimer := false }.dropSocket.setConnected false

def setState (i : Nat) (r : ReadyState) : Stream :=
  { s with sockets := update s.sockets i { s.sockets i with readyState := r } }

end Stream

/-- A call of a component, an event of a socket or a timer. -/
inductive Act where
  | subscribe (channel : List Char) (listener : Nat) (throws : Bool)
  | release (i : Nat)
  | close
  | opened (i : Nat)
  /-- The closing handshake is started by the other side, or the connection fails. -/
  | closing (i : Nat)
  | closed (i : Nat)
  | message (i : Nat) (now : Int) (data : Option Json)
  | reconnect (throws : Bool)
  | idle
  | ping

def enabled (s : Stream) : Act → Prop
  | .subscribe _ _ _ | .release _ | .close => True
  | .opened i => (s.sockets i).readyState = .connecting
  | .closing i => (s.sockets i).Live
  | .closed i => (s.sockets i).readyState ≠ .closed
  | .message i _ _ => (s.sockets i).readyState = .open_
  | .reconnect _ => s.reconnectTimer.isSome = true
  | .idle => s.idleTimer = true
  | .ping => s.pingTimer = true

instance (s : Stream) : ∀ a, Decidable (enabled s a)
  | .subscribe _ _ _ | .release _ | .close => inferInstanceAs (Decidable True)
  | .opened i => inferInstanceAs (Decidable ((s.sockets i).readyState = .connecting))
  | .closing i => inferInstanceAs (Decidable (s.sockets i).Live)
  | .closed i => inferInstanceAs (Decidable ((s.sockets i).readyState ≠ .closed))
  | .message i _ _ => inferInstanceAs (Decidable ((s.sockets i).readyState = .open_))
  | .reconnect _ => inferInstanceAs (Decidable (s.reconnectTimer.isSome = true))
  | .idle => inferInstanceAs (Decidable (s.idleTimer = true))
  | .ping => inferInstanceAs (Decidable (s.pingTimer = true))

def act (o : Options) (s : Stream) : Act → Stream
  | .subscribe channel listener throws => s.subscribe o channel listener throws
  | .release i => s.release i
  | .close => s.close
  | .opened i => (s.setState i .open_).onopen o
  | .closing i => s.setState i .closing
  | .closed i => (s.setState i .closed).onclose o i
  -- What is no text is dropped.
  | .message _ now data => s.dispatch (data.bind (parseServerMessage now))
  | .reconnect throws => s.onReconnect o throws
  | .idle => s.onIdle
  | .ping => s.send .ping

def machine (o : Options) : Machine Stream Act where
  init s := s = Stream.new o
  step s a t := enabled s a ∧ act o s a = t

variable {o : Options} {s t : Stream} {v w : Stream} {a : Act} {i j : Nat} {ch : List Char}

/-! ## What each part of a call leaves -/

theorem mem_asked_snoc (sent : List ClientMessage) (msg : ClientMessage) : ch ∈ asked (sent ++ [msg]) ↔
    match msg with
    | .subscribe channels => ch ∈ asked sent ∨ ch ∈ channels
    | .unsubscribe channels => ch ∈ asked sent ∧ ch ∉ channels
    | .ping => ch ∈ asked sent := by
  rw [asked, List.foldl_append, List.foldl_cons, List.foldl_nil]
  cases msg with
  | subscribe channels => exact List.mem_append
  | unsubscribe channels => rw [List.mem_filter, Bool.not_eq_true', ← Bool.not_eq_true, List.contains_iff_mem]; rfl
  | ping => rfl

/-- The sockets' numbers, and the current one's state. -/
structure Numbered (sockets : Nat → Socket) (opened : Nat) (socket : Option Nat) : Prop where
  unopened : ∀ i, opened ≤ i → sockets i = ⟨.closed, []⟩
  current : ∀ i, socket = some i → (sockets i).readyState ≠ .closed
  fresh : ∀ i, (sockets i).readyState = .connecting → (sockets i).sent = []

/-- On an open current socket, exactly the channels of `K` have been asked for. -/
def Asks (K : List Char → Prop) (s : Stream) : Prop :=
  ∀ i, s.socket = some i → (s.sockets i).readyState = .open_ → ∀ ch, ch ∈ asked (s.sockets i).sent ↔ K ch

theorem Numbered.lt (h : Numbered s.sockets s.opened s.socket) (hi : (s.sockets i).readyState ≠ .closed) : i < s.opened := by
  by_contra hlt
  exact hi (by rw [h.unopened i (not_lt.1 hlt)])

theorem Numbered.current_lt (h : Numbered s.sockets s.opened s.socket) (hi : s.socket = some i) : i < s.opened := h.lt (h.current i hi)

/-- Only what was sent on an open current socket changes. -/
structure SentOn (s t : Stream) : Prop where
  frame : ∃ sockets, t = { s with sockets := sockets }
  readyState : ∀ i, (t.sockets i).readyState = (s.sockets i).readyState
  sent : ∀ i, (s.socket = some i → (s.sockets i).readyState ≠ .open_) → t.sockets i = s.sockets i

theorem sentOn_send (payload : ClientMessage) (s : Stream) : SentOn s (s.send payload) := by
  unfold Stream.send
  split
  · exact ⟨⟨s.sockets, rfl⟩, fun _ => rfl, fun _ _ => rfl⟩
  · rename_i i hi
    split
    · rename_i hopen
      refine ⟨⟨_, rfl⟩, fun k => ?_, fun k hk => ?_⟩
      · by_cases hki : k = i
        · subst hki
          simp
        · simp [Function.update_of_ne hki]
      · have hki : k ≠ i := fun heq => hk (heq ▸ hi) (heq ▸ hopen)
        simp [Function.update_of_ne hki]
    · exact ⟨⟨s.sockets, rfl⟩, fun _ => rfl, fun _ _ => rfl⟩

theorem SentOn.numbered (hst : SentOn s t) (h : Numbered s.sockets s.opened s.socket) :
    Numbered t.sockets t.opened t.socket := by
  obtain ⟨⟨sockets, rfl⟩, hstate, hsent⟩ := hst
  refine ⟨fun i hi => ?_, fun i hi => hstate i ▸ h.current i hi, fun i hi => ?_⟩
  · rw [hsent i fun _ hopen => absurd (h.lt (by rw [hopen]; decide)) (not_lt.2 hi), h.unopened i hi]
  · have hconnecting := (hstate i).symm.trans hi
    rw [hsent i fun _ => by rw [hconnecting]; decide]
    exact h.fresh i hconnecting

/-- A message that leaves exactly the channels of `K` asked for. -/
theorem asks_send {K : List Char → Prop} {payload : ClientMessage} (h : ∀ i, s.socket = some i →
    (s.sockets i).readyState = .open_ → ∀ ch, ch ∈ asked ((s.sockets i).sent ++ [payload]) ↔ K ch) :
    Asks K (s.send payload) := by
  unfold Stream.send
  split
  · rename_i hnone
    intro i hi
    exact absurd (hnone.symm.trans hi) (by simp)
  · rename_i k hk
    split
    · rename_i hopen
      intro i hi _ ch
      have hik : i = k := Option.some.inj (hi.symm.trans hk)
      subst hik
      simp only [Function.update_self]
      exact h i hk hopen ch
    · rename_i hopen
      intro i hi hopen'
      have hik : i = k := Option.some.inj (hi.symm.trans hk)
      exact absurd (hik ▸ hopen') hopen

/-- Nothing of the sockets, the listeners or the timers changes. -/
structure SameCore (s t : Stream) : Prop where
  sockets : t.sockets = s.sockets
  opened : t.opened = s.opened
  socket : t.socket = s.socket
  listeners : t.listeners = s.listeners
  reconnectTimer : t.reconnectTimer = s.reconnectTimer
  idleTimer : t.idleTimer = s.idleTimer
  closed : t.closed = s.closed

theorem sameCore_setConnected (b : Bool) (s : Stream) : SameCore s (s.setConnected b) := by
  unfold Stream.setConnected
  split <;> exact ⟨rfl, rfl, rfl, rfl, rfl, rfl, rfl⟩

/-! ## What every event keeps -/

/-- Of what every event keeps, all but that someone who listens is served. -/
structure Sound (s : Stream) : Prop where
  numbered : Numbered s.sockets s.opened s.socket
  /-- What an open current socket has asked for is what is listened to. -/
  asks : Asks (· ∈ s.listeners.keys) s
  /-- A socket nobody listens to is about to be closed. -/
  idle : s.listeners.keys = [] → s.socket.isSome = true → s.idleTimer = true
  ended : s.closed = true → s.socket = none ∧ s.reconnectTimer = none
  /-- A channel is kept as long as it has a listener. -/
  held : ∀ ch ls, s.listeners.get ch = some ls → ls ≠ []

/-- Unless it has been closed, a stream that is listened to has a socket or is about to open one. -/
def Served (s : Stream) : Prop :=
  s.closed = false → s.listeners.keys ≠ [] → s.socket.isSome = true ∨ s.reconnectTimer.isSome = true

theorem Sound.sameCore (h : Sound s) (hst : SameCore s t) : Sound t := by
  obtain ⟨hsockets, hopened, hsocket, hlisteners, hreconnect, hidle, hclosed⟩ := hst
  obtain ⟨⟨hunopened, hcurrent, hfresh⟩, hasks, hidles, hended, hheld⟩ := h
  refine ⟨⟨?_, ?_, ?_⟩, ?_, ?_, ?_, ?_⟩
  · rwa [hsockets, hopened]
  · rwa [hsockets, hsocket]
  · rwa [hsockets]
  · intro i
    rw [hsockets, hsocket, hlisteners]
    exact hasks i
  · rwa [hlisteners, hsocket, hidle]
  · rwa [hclosed, hsocket, hreconnect]
  · rwa [hlisteners]

theorem Served.sameCore (h : Served s) (hst : SameCore s t) : Served t := by
  unfold Served
  rw [hst.closed, hst.listeners, hst.socket, hst.reconnectTimer]
  exact h

theorem scheduleReconnect_eq (o : Options) (s : Stream) : ∃ delay timer, timer.isSome = true ∧
    s.scheduleReconnect o = { s with reconnectDelay := delay, reconnectTimer := timer } := by
  unfold Stream.scheduleReconnect
  split
  · rename_i d hd
    exact ⟨s.reconnectDelay, s.reconnectTimer, by rw [hd]; rfl, rfl⟩
  · exact ⟨_, _, rfl, rfl⟩

theorem sound_scheduleReconnect (h : Sound s) (hopen : s.closed = false) :
    Sound (s.scheduleReconnect o) ∧ (s.scheduleReconnect o).reconnectTimer.isSome = true := by
  obtain ⟨delay, timer, htimer, heq⟩ := scheduleReconnect_eq o s
  rw [heq]
  exact ⟨⟨h.numbered, h.asks, h.idle,
    fun hclosed => absurd (hopen.symm.trans hclosed) (by simp), h.held⟩, htimer⟩

theorem sound_connect (h : Sound s) (throws : Bool) : Sound (s.connect o throws) ∧ Served (s.connect o throws) := by
  unfold Stream.connect
  split
  · rename_i hno
    exact ⟨h, fun hopen hkeys => hno.elim (fun hc => absurd (hopen.symm.trans hc) (by simp)) (absurd · hkeys)⟩
  · rename_i hgo
    rw [not_or] at hgo
    have hopen : s.closed = false := Bool.eq_false_iff.2 hgo.1
    split
    · obtain ⟨hsound, htimer⟩ := sound_scheduleReconnect h hopen
      exact ⟨hsound, fun _ _ => .inr htimer⟩
    · refine ⟨⟨⟨fun i hi => ?_, fun i hi => ?_, fun i hi => ?_⟩, fun i hi hstate => ?_, fun hkeys => absurd hkeys hgo.2,
        fun hclosed => absurd (hopen.symm.trans hclosed) (by simp), h.held⟩, fun _ _ => .inl rfl⟩
      · have hlt : s.opened + 1 ≤ i := hi
        simp only [Function.update_of_ne (show i ≠ s.opened by omega)]
        exact h.numbered.unopened i (by omega)
      · rw [← Option.some.inj hi]
        simp
      · simp only [Function.update_apply] at hi ⊢
        split at hi
        · rename_i hne
          rw [if_pos hne]
        · rename_i hne
          rw [if_neg hne]
          exact h.numbered.fresh i hi
      · rw [← Option.some.inj hi] at hstate
        simp at hstate

theorem sound_ensureSocket (h : Sound s) (throws : Bool) :
    Sound (s.ensureSocket o throws) ∧ Served (s.ensureSocket o throws) := by
  unfold Stream.ensureSocket
  split
  · rename_i hno
    refine ⟨h, fun hopen _ => ?_⟩
    rcases hno with hc | hs | ht
    · exact absurd (hopen.symm.trans hc) (by simp)
    · exact .inl hs
    · exact .inr ht
  · exact sound_connect h throws

/-! ### Listening -/

theorem sound_subscribe (h : Sound s) (channel : List Char) (listener : Nat) (throws : Bool) :
    Sound (s.subscribe o channel listener throws) ∧ Served (s.subscribe o channel listener throws) := by
  unfold Stream.subscribe
  dsimp only
  refine sound_ensureSocket ?_ throws
  generalize hset : (if listener ∈ (s.listeners.get channel).getD [] then (s.listeners.get channel).getD []
    else (s.listeners.get channel).getD [] ++ [listener]) = set
  generalize s.handles ++ [Handle.mk channel listener false] = handles
  have hne : set ≠ [] := by
    rw [← hset]
    split
    · rename_i hmem
      exact List.ne_nil_of_mem hmem
    · simp
  have hkeys : (s.listeners.set channel set).keys ≠ [] := List.ne_nil_of_mem (OrderedMap.mem_keys_set.2 (.inl rfl))
  have hheld : ∀ ch ls, (s.listeners.set channel set).get ch = some ls → ls ≠ [] := by
    intro ch ls hls
    rw [OrderedMap.get_set] at hls
    split at hls
    · rwa [← Option.some.inj hls]
    · exact h.held ch ls hls
  split
  · -- The channel is new: it is asked for.
    have hst := sentOn_send (.subscribe [channel]) { s with
      listeners := s.listeners.set channel set, handles := handles, idleTimer := false }
    have hasks : Asks (fun ch => ch ∈ (s.listeners.set channel set).keys) (Stream.send { s with
        listeners := s.listeners.set channel set, handles := handles, idleTimer := false } (.subscribe [channel])) := by
      refine asks_send fun i hi hopen ch => ?_
      rw [mem_asked_snoc, OrderedMap.mem_keys_set]
      exact (or_congr (h.asks i hi hopen ch) List.mem_singleton).trans or_comm
    have hnumbered := hst.numbered h.numbered
    obtain ⟨sockets, hframe⟩ := hst.frame
    rw [hframe] at hasks hnumbered ⊢
    exact ⟨hnumbered, hasks, fun hnone => absurd hnone hkeys, h.ended, hheld⟩
  · rename_i hold
    refine ⟨h.numbered, ?_, fun hnone => absurd hnone hkeys, h.ended, hheld⟩
    obtain ⟨ls, hls⟩ := Option.ne_none_iff_exists'.1 (by simpa using hold)
    have hmem : channel ∈ s.listeners.keys := OrderedMap.mem_keys.2 ⟨ls, hls⟩
    have hsame : (s.listeners.set channel set).keys = s.listeners.keys := by rw [OrderedMap.keys_set, if_pos hmem]
    intro i hi hopen ch
    show _ ↔ ch ∈ (s.listeners.set channel set).keys
    rw [hsame]
    exact h.asks i hi hopen ch

theorem sound_unlisten (h : Sound s) (hserved : Served s) (channel : List Char) (listener : Nat) :
    Sound (s.unlisten channel listener) ∧ Served (s.unlisten channel listener) := by
  unfold Stream.unlisten
  split
  · exact ⟨h, hserved⟩
  · rename_i current hcurrent
    dsimp only
    split
    · have hst := sentOn_send (.unsubscribe [channel]) { s with listeners := s.listeners.delete channel }
      have hasks : Asks (fun ch => ch ∈ (s.listeners.delete channel).keys)
          (Stream.send { s with listeners := s.listeners.delete channel } (.unsubscribe [channel])) := by
        refine asks_send fun i hi hopen ch => ?_
        rw [mem_asked_snoc, OrderedMap.mem_keys_delete]
        exact (and_congr (h.asks i hi hopen ch) (not_congr List.mem_singleton)).trans and_comm
      have hnumbered := hst.numbered h.numbered
      obtain ⟨sockets, hframe⟩ := hst.frame
      rw [hframe] at hasks hnumbered ⊢
      have hheld : ∀ ch ls, (s.listeners.delete channel).get ch = some ls → ls ≠ [] := by
        intro ch ls hls
        rw [OrderedMap.get_delete] at hls
        split at hls
        · exact absurd hls (by simp)
        · exact h.held ch ls hls
      have hkeys : s.listeners.keys ≠ [] := List.ne_nil_of_mem (OrderedMap.mem_keys.2 ⟨current, hcurrent⟩)
      split
      · rename_i hnone
        exact ⟨⟨hnumbered, hasks, fun _ _ => rfl, h.ended, hheld⟩,
          fun _ hsome => absurd hnone hsome⟩
      · rename_i hsome
        exact ⟨⟨hnumbered, hasks, fun hnone => absurd hnone hsome, h.ended, hheld⟩, fun hopen _ => hserved hopen hkeys⟩
    · rename_i hleft
      have hmem : channel ∈ s.listeners.keys := OrderedMap.mem_keys.2 ⟨current, hcurrent⟩
      have hsame : (s.listeners.set channel (current.erase listener)).keys = s.listeners.keys := by
        rw [OrderedMap.keys_set, if_pos hmem]
      refine ⟨⟨h.numbered, ?_, ?_, h.ended, ?_⟩, ?_⟩
      · intro i hi hopen ch
        show _ ↔ ch ∈ (s.listeners.set channel (current.erase listener)).keys
        rw [hsame]
        exact h.asks i hi hopen ch
      · show (s.listeners.set channel (current.erase listener)).keys = [] → _
        rw [hsame]
        exact h.idle
      · intro ch ls hls
        have hls' : (s.listeners.set channel (current.erase listener)).get ch = some ls := hls
        rw [OrderedMap.get_set] at hls'
        split at hls'
        · rwa [← Option.some.inj hls']
        · exact h.held ch ls hls'
      · show s.closed = false → (s.listeners.set channel (current.erase listener)).keys ≠ [] → _
        rw [hsame]
        exact hserved

theorem sound_release (h : Sound s) (hserved : Served s) (i : Nat) : Sound (s.release i) ∧ Served (s.release i) := by
  unfold Stream.release
  split
  · exact ⟨h, hserved⟩
  · split
    · exact ⟨h, hserved⟩
    · rename_i handle _ _
      have hcore : SameCore s { s with handles := s.handles.set i { handle with released := true } } :=
        ⟨rfl, rfl, rfl, rfl, rfl, rfl, rfl⟩
      exact sound_unlisten (h.sameCore hcore) (hserved.sameCore hcore) _ _

/-! ### Letting go of a socket -/

theorem numbered_dropSocket (h : Numbered s.sockets s.opened s.socket) :
    Numbered s.dropSocket.sockets s.dropSocket.opened none ∧ s.dropSocket.socket = none := by
  unfold Stream.dropSocket
  split
  · rename_i hnone
    exact ⟨hnone ▸ h, hnone⟩
  · rename_i i hi
    refine ⟨⟨fun k hk => ?_, fun k hk => absurd hk (by simp), fun k hk => ?_⟩, rfl⟩
    · have hki : k ≠ i := fun heq => absurd (h.current_lt hi) (not_lt.2 (heq ▸ hk))
      simp only [Function.update_of_ne hki]
      exact h.unopened k hk
    · simp only [Function.update_apply] at hk ⊢
      split at hk
      · unfold Socket.close at hk
        split at hk
        · exact absurd hk (by simp)
        · exact absurd hk (by simp)
        · rename_i hstate
          exact absurd (hstate.symm.trans hk) (by simp)
        · rename_i hstate
          exact absurd (hstate.symm.trans hk) (by simp)
      · rename_i hne
        rw [if_neg hne]
        exact h.fresh k hk

theorem dropSocket_frame (s : Stream) : ∃ sockets, s.dropSocket = { s with sockets := sockets, socket := none } := by
  unfold Stream.dropSocket
  split
  · rename_i hnone
    exact ⟨s.sockets, by rw [← hnone]⟩
  · exact ⟨_, rfl⟩

theorem sound_close (h : Sound s) : Sound s.close ∧ Served s.close := by
  have hcore := sameCore_setConnected false (Stream.dropSocket { s with
    closed := true, pingTimer := false, idleTimer := false, reconnectTimer := none, listeners := .empty })
  obtain ⟨hnumbered, -⟩ := numbered_dropSocket (s := { s with
    closed := true, pingTimer := false, idleTimer := false, reconnectTimer := none, listeners := .empty }) h.numbered
  obtain ⟨sockets, hframe⟩ := dropSocket_frame { s with
    closed := true, pingTimer := false, idleTimer := false, reconnectTimer := none, listeners := .empty }
  have hsound : Sound (Stream.dropSocket { s with
      closed := true, pingTimer := false, idleTimer := false, reconnectTimer := none, listeners := .empty }) := by
    rw [hframe] at hnumbered ⊢
    exact ⟨hnumbered, fun i hi => absurd hi (by simp), fun _ hsome => absurd hsome (by simp), fun _ => ⟨rfl, rfl⟩,
      fun ch ls hls => absurd hls (by simp)⟩
  have hserved : Served (Stream.dropSocket { s with
      closed := true, pingTimer := false, idleTimer := false, reconnectTimer := none, listeners := .empty }) := by
    rw [hframe]
    exact fun hopen => absurd hopen (by simp)
  exact ⟨hsound.sameCore hcore, hserved.sameCore hcore⟩

theorem sound_onIdle (h : Sound s) (hserved : Served s) : Sound s.onIdle ∧ Served s.onIdle := by
  unfold Stream.onIdle
  dsimp only
  split
  · rename_i hkeys
    exact ⟨⟨h.numbered, h.asks, fun hnone => absurd hnone hkeys, h.ended,
      h.held⟩, hserved⟩
  · rename_i hkeys
    have hcore := sameCore_setConnected false (Stream.dropSocket { s with idleTimer := false, pingTimer := false })
    obtain ⟨hnumbered, -⟩ := numbered_dropSocket (s := { s with idleTimer := false, pingTimer := false }) h.numbered
    obtain ⟨sockets, hframe⟩ := dropSocket_frame { s with idleTimer := false, pingTimer := false }
    have hsound : Sound (Stream.dropSocket { s with idleTimer := false, pingTimer := false }) := by
      rw [hframe] at hnumbered ⊢
      exact ⟨hnumbered, fun i hi => absurd hi (by simp), fun _ hsome => absurd hsome (by simp),
        fun hclosed => ⟨rfl, (h.ended hclosed).2⟩, h.held⟩
    have hserved' : Served (Stream.dropSocket { s with idleTimer := false, pingTimer := false }) := by
      rw [hframe]
      exact fun _ hsome => absurd (not_not.1 hkeys) hsome
    exact ⟨hsound.sameCore hcore, hserved'.sameCore hcore⟩

/-! ### A socket's events -/

/-- A socket that opens asks for every channel that is listened to. -/
theorem sound_opened (h : Sound s) (hserved : Served s) (hi : (s.sockets i).readyState = .connecting) :
    Sound ((s.setState i .open_).onopen o) ∧ Served ((s.setState i .open_).onopen o) := by
  have hnumbered : Numbered (s.setState i .open_).sockets s.opened s.socket := by
    refine ⟨fun k hk => ?_, fun k hk => ?_, fun k hk => ?_⟩
    · have hki : k ≠ i := fun heq => absurd (h.numbered.lt (by rw [hi]; decide)) (not_lt.2 (heq ▸ hk))
      simp only [Stream.setState, Function.update_of_ne hki]
      exact h.numbered.unopened k hk
    · by_cases hki : k = i
      · subst hki
        simp [Stream.setState]
      · simp only [Stream.setState, Function.update_of_ne hki]
        exact h.numbered.current k hk
    · have hki : k ≠ i := by
        rintro rfl
        simp [Stream.setState] at hk
      simp only [Stream.setState, Function.update_of_ne hki] at hk ⊢
      exact h.numbered.fresh k hk
  -- Nothing was sent on the socket while it was connecting; on another one, what is listened to was asked for.
  have hasks : ∀ k, s.socket = some k → ((s.setState i .open_).sockets k).readyState = .open_ →
      ∀ ch, ch ∈ asked ((s.setState i .open_).sockets k).sent → ch ∈ s.listeners.keys := by
    intro k hk hopen ch hch
    by_cases hki : k = i
    · subst hki
      simp only [Stream.setState, Function.update_self, h.numbered.fresh k hi] at hch
      exact absurd hch List.not_mem_nil
    · simp only [Stream.setState, Function.update_of_ne hki] at hopen hch
      exact (h.asks k hk hopen ch).1 hch
  unfold Stream.onopen
  dsimp only
  obtain ⟨hsockets, hopened, hsocket, hlisteners, hreconnect, hidle, hclosed⟩ :=
    sameCore_setConnected true { s.setState i .open_ with reconnectDelay := o.reconnectMs }
  generalize Stream.setConnected { s.setState i .open_ with reconnectDelay := o.reconnectMs } true = x at *
  have hnumbered' : Numbered x.sockets x.opened x.socket := by
    rw [hsockets, hopened, hsocket]
    exact hnumbered
  have hserved' : Served x := by
    unfold Served
    rw [hclosed, hlisteners, hsocket, hreconnect]
    exact hserved
  have hasks' : ∀ k, x.socket = some k → (x.sockets k).readyState = .open_ →
      ∀ ch, ch ∈ asked (x.sockets k).sent → ch ∈ x.listeners.keys := by
    rw [hsockets, hsocket, hlisteners]
    exact hasks
  have hsound : Asks (· ∈ x.listeners.keys) x → Sound x := by
    refine fun hall => ⟨hnumbered', hall, ?_, ?_, ?_⟩
    · rw [hlisteners, hsocket, hidle]
      exact h.idle
    · rw [hclosed, hsocket, hreconnect]
      exact h.ended
    · rw [hlisteners]
      exact h.held
  have hcore : SameCore x { x with pingTimer := true } := ⟨rfl, rfl, rfl, rfl, rfl, rfl, rfl⟩
  split
  · rename_i hnone
    have hall : Asks (· ∈ x.listeners.keys) x := fun k hk hopen ch =>
      ⟨hasks' k hk hopen ch, fun hch => absurd ((show x.listeners.keys = [] from hnone) ▸ hch) List.not_mem_nil⟩
    exact ⟨(hsound hall).sameCore hcore, hserved'.sameCore hcore⟩
  · have hst := sentOn_send (.subscribe x.listeners.keys) { x with pingTimer := true }
    have hall : Asks (· ∈ x.listeners.keys) (Stream.send { x with pingTimer := true } (.subscribe x.listeners.keys)) := by
      refine asks_send fun k hk hopen ch => ?_
      rw [mem_asked_snoc]
      exact ⟨fun hch => hch.elim (hasks' k hk hopen ch) fun hch => hch, .inr⟩
    have hsent := hst.numbered hnumbered'
    obtain ⟨sockets, hframe⟩ := hst.frame
    rw [hframe] at hall hsent ⊢
    refine ⟨⟨hsent, hall, ?_, ?_, ?_⟩, hserved'⟩
    · show x.listeners.keys = [] → x.socket.isSome = true → x.idleTimer = true
      rw [hlisteners, hsocket, hidle]
      exact h.idle
    · show x.closed = true → x.socket = none ∧ x.reconnectTimer = none
      rw [hclosed, hsocket, hreconnect]
      exact h.ended
    · show ∀ ch ls, x.listeners.get ch = some ls → ls ≠ []
      rw [hlisteners]
      exact h.held

theorem sound_closing (h : Sound s) (i : Nat) (hi : (s.sockets i).Live) : Sound (s.setState i .closing) := by
  have hlt : i < s.opened := h.numbered.lt (by rcases hi with hi | hi <;> rw [hi] <;> decide)
  refine ⟨⟨fun k hk => ?_, fun k hk => ?_, fun k hk => ?_⟩, fun k hk hopen => ?_, h.idle, h.ended, h.held⟩
  · have hki : k ≠ i := fun heq => absurd hlt (not_lt.2 (heq ▸ hk))
    simp only [Stream.setState, Function.update_of_ne hki]
    exact h.numbered.unopened k hk
  · by_cases hki : k = i
    · subst hki
      simp [Stream.setState]
    · simp only [Stream.setState, Function.update_of_ne hki]
      exact h.numbered.current k hk
  · have hki : k ≠ i := by
      rintro rfl
      simp [Stream.setState] at hk
    simp only [Stream.setState, Function.update_of_ne hki] at hk ⊢
    exact h.numbered.fresh k hk
  · have hki : k ≠ i := by
      rintro rfl
      simp [Stream.setState] at hopen
    simp only [Stream.setState, Function.update_of_ne hki] at hopen ⊢
    exact h.asks k hk hopen

/-- A socket that has closed is let go of, and opened again later for whoever listens. -/
theorem sound_closed (h : Sound s) (i : Nat) (hi : (s.sockets i).readyState ≠ .closed) :
    Sound ((s.setState i .closed).onclose o i) ∧ Served ((s.setState i .closed).onclose o i) := by
  -- The stream once it has let go of the socket.
  let y : Stream := { (s.setState i .closed).letGo i with pingTimer := false }
  have hy : Sound y := by
    have hother : ∀ k, y.socket = some k → k ≠ i ∧ s.socket = some k := by
      intro k hk
      have hk' : (if s.socket = some i then none else s.socket) = some k := hk
      split at hk'
      · exact absurd hk' (by simp)
      · rename_i hne
        exact ⟨fun hki => hne (hki ▸ hk'), hk'⟩
    refine ⟨⟨fun k hk => ?_, fun k hk => ?_, fun k hk => ?_⟩, fun k hk hopen => ?_, fun hkeys hsome => ?_, fun hclosed => ?_,
      h.held⟩
    · have hki : k ≠ i := fun heq => absurd (h.numbered.lt hi) (not_lt.2 (heq ▸ hk))
      simp only [y, Stream.letGo, Stream.setState, Function.update_of_ne hki]
      exact h.numbered.unopened k hk
    · obtain ⟨hki, hk⟩ := hother k hk
      simp only [y, Stream.letGo, Stream.setState, Function.update_of_ne hki]
      exact h.numbered.current k hk
    · have hki : k ≠ i := by
        rintro rfl
        simp [y, Stream.letGo, Stream.setState] at hk
      simp only [y, Stream.letGo, Stream.setState, Function.update_of_ne hki] at hk ⊢
      exact h.numbered.fresh k hk
    · obtain ⟨hki, hk⟩ := hother k hk
      simp only [y, Stream.letGo, Stream.setState, Function.update_of_ne hki] at hopen ⊢
      exact h.asks k hk hopen
    · obtain ⟨k, hk⟩ := Option.isSome_iff_exists.1 hsome
      exact h.idle hkeys (by rw [(hother k hk).2]; rfl)
    · obtain ⟨hnone, htimer⟩ := h.ended hclosed
      refine ⟨?_, htimer⟩
      show (if s.socket = some i then none else s.socket) = none
      rw [hnone]
      rfl
  have hz := hy.sameCore (sameCore_setConnected false y)
  unfold Stream.onclose
  dsimp only
  split
  · rename_i hgo
    obtain ⟨hsound, htimer⟩ := sound_scheduleReconnect (o := o) hz hgo.1
    exact ⟨hsound, fun _ _ => .inr htimer⟩
  · rename_i hno
    exact ⟨hz, fun hopen hkeys => absurd ⟨hopen, hkeys⟩ hno⟩

theorem sameCore_dispatch (ev : Option StreamEvent) (s : Stream) : SameCore s (s.dispatch ev) := by
  unfold Stream.dispatch
  split <;> exact ⟨rfl, rfl, rfl, rfl, rfl, rfl, rfl⟩

/-- What holds of a stream in every state it reaches. -/
structure Kept (s : Stream) : Prop extends Sound s where
  served : Served s

theorem step_kept (h : Kept v) (hstep : (machine o).step v a w) : Kept w := by
  obtain ⟨ha, rfl⟩ := hstep
  suffices hboth : Sound (act o v a) ∧ Served (act o v a) from ⟨hboth.1, hboth.2⟩
  cases a with
  | subscribe channel listener throws => exact sound_subscribe h.toSound channel listener throws
  | release i => exact sound_release h.toSound h.served i
  | close => exact sound_close h.toSound
  | opened i => exact sound_opened h.toSound h.served ha
  | closing i => exact ⟨sound_closing h.toSound i ha, h.served⟩
  | closed i => exact sound_closed h.toSound i ha
  | message i now data => exact ⟨h.toSound.sameCore (sameCore_dispatch _ v), h.served.sameCore (sameCore_dispatch _ v)⟩
  | reconnect throws =>
    have hcleared : Sound { v with reconnectTimer := none } :=
      ⟨h.numbered, h.asks, h.idle, fun hclosed => ⟨(h.ended hclosed).1, rfl⟩, h.held⟩
    exact sound_connect hcleared throws
  | idle => exact sound_onIdle h.toSound h.served
  | ping =>
    have hst := sentOn_send .ping v
    have hall : Asks (· ∈ v.listeners.keys) (v.send .ping) := asks_send fun i hi hopen ch => by
      rw [mem_asked_snoc]
      exact h.asks i hi hopen ch
    have hnumbered := hst.numbered h.numbered
    obtain ⟨sockets, hframe⟩ := hst.frame
    show Sound (v.send .ping) ∧ Served (v.send .ping)
    rw [hframe] at hall hnumbered ⊢
    exact ⟨⟨hnumbered, hall, h.idle, h.ended, h.held⟩, h.served⟩

/-- **Whoever listens is served, and nothing else is asked for.**  In every state a stream reaches, in whatever order
components subscribe and release, sockets open, fail and close and timers fire: an open current socket has asked its
server for exactly the channels that are listened to; unless the stream was closed, a channel that is listened to has a
socket or a reconnect to come; and a socket nobody listens to is about to be closed. -/
theorem listening_kept (h : Reachable (machine o) v) : Kept v := by
  refine h.invariant Kept (fun v hv => ?_) fun v a w _ hv hstep => step_kept hv hstep
  have hv' : v = Stream.new o := hv
  rw [hv']
  refine ⟨⟨⟨fun _ _ => rfl, fun i hi => absurd hi (by simp [Stream.new]), fun i hi => absurd hi (by simp [Stream.new])⟩,
    fun i hi => absurd hi (by simp [Stream.new]), fun _ hsome => absurd hsome (by simp [Stream.new]),
    fun hclosed => absurd hclosed (by simp [Stream.new]), fun ch ls hls => absurd hls (by simp [Stream.new])⟩,
    fun _ hkeys => absurd rfl hkeys⟩

def sampleAt (acts : List Act) : Stream := acts.foldl (act DEFAULT_OPTIONS) (Stream.new DEFAULT_OPTIONS)

theorem sampleAt_reachable {P : Stream → Act → Prop} (acts : List Act) (hP : ∀ v a, P v a → enabled v a)
    (h : Along (act DEFAULT_OPTIONS) P (Stream.new DEFAULT_OPTIONS) acts) :
    Reachable ((machine DEFAULT_OPTIONS).restrict P) (sampleAt acts) :=
  ⟨Stream.new DEFAULT_OPTIONS, acts, rfl,
    Run.of_along (M := (machine DEFAULT_OPTIONS).restrict P) (fun v a ha => ⟨ha, hP v a ha, rfl⟩) h⟩

/-- Two components listen, the socket fails, one of them is gone before the next one opens. -/
def reopened : List Act :=
  [.subscribe "markets".toList 0 false, .opened 0, .subscribe "trades:1".toList 1 false, .closed 0, .release 0,
    .reconnect false, .opened 1]

theorem listening_kept_reopened : Kept (sampleAt reopened) ∧
    asked ((sampleAt reopened).sockets 1).sent = ["trades:1".toList] := by
  obtain ⟨s₀, ls, hs₀, hrun⟩ := sampleAt_reachable reopened (fun _ _ h => h) (by decide +kernel)
  exact ⟨listening_kept ⟨s₀, ls, hs₀, hrun.of_restrict⟩, by decide +kernel⟩

end Kryon.MarketStream
