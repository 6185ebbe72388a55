import Kryon.MarketStream
/-!
# MarketSockets — one socket at a time

The stream keeps one current socket, and forgets a socket it closes before that socket's close event comes.  If close events
come in turn there is one socket at a time (`one_socket`); if one comes after a newer socket was opened, the reconnect it
starts leaves the newer socket behind, open and subscribed (`late_close_leaves`).
-/
namespace Kryon.MarketStream

open Function (update)
open Wire (parseServerMessage)
open Transition

variable {o : Options} {s t : Stream} {v w : Stream} {a : Act} {i j : Nat}

/-! ## One socket at a time -/

/-- No socket's close comes after a newer socket was opened. -/
def InTurn (v : Stream) : Act → Prop
  | .closed i => v.socket = none ∨ v.socket = some i
  | .subscribe _ _ _ | .release _ | .close | .opened _ | .closing _ | .message _ _ _ | .reconnect _ | .idle | .ping => True

instance (v : Stream) : ∀ a, Decidable (InTurn v a)
  | .closed i => inferInstanceAs (Decidable (v.socket = none ∨ v.socket = some i))
  | .subscribe _ _ _ | .release _ | .close | .opened _ | .closing _ | .message _ _ _ | .reconnect _ | .idle | .ping =>
    inferInstanceAs (Decidable True)

/-- The current socket is the only one; the stream is connected while it is open, and only while there is one past
connecting. -/
structure Sole (s : Stream) : Prop where
  live : ∀ i, (s.sockets i).Live → s.socket = some i
  waiting : s.reconnectTimer.isSome = true → s.socket = none
  connected : s.isConnected = true → ∃ i, s.socket = some i ∧ (s.sockets i).readyState ≠ .connecting
  open_ : ∀ i, (s.sockets i).readyState = .open_ → s.isConnected = true
  pings : s.pingTimer = s.isConnected

theorem Sole.same (h : Sole s) (hsockets : t.sockets = s.sockets) (hsocket : t.socket = s.socket)
    (htimer : t.reconnectTimer = s.reconnectTimer) (hconnected : t.isConnected = s.isConnected)
    (hping : t.pingTimer = s.pingTimer) : Sole t := by
  obtain ⟨hlive, hwaiting, hconn, hopen, hpings⟩ := h
  refine ⟨?_, ?_, ?_, ?_, ?_⟩
  · rwa [hsockets, hsocket]
  · rwa [htimer, hsocket]
  · rwa [hconnected, hsocket, hsockets]
  · rwa [hsockets, hconnected]
  · rwa [hping, hconnected]

theorem Sole.disconnected (h : Sole s) (hnone : s.socket = none) : s.isConnected = false := by
  by_contra hne
  obtain ⟨i, hi, -⟩ := h.connected (by simpa using hne)
  exact absurd (hnone.symm.trans hi) (by simp)

theorem sole_send (h : Sole s) (payload : ClientMessage) : Sole (s.send payload) := by
  obtain ⟨⟨sockets, hframe⟩, hstate, -⟩ := sentOn_send payload s
  rw [hframe] at hstate ⊢
  have hlive : ∀ i, (sockets i).Live ↔ (s.sockets i).Live := fun i => by
    have hi : (sockets i).readyState = (s.sockets i).readyState := hstate i
    simp only [Socket.Live, hi]
  refine ⟨fun i hi => h.live i ((hlive i).1 hi), h.waiting, fun hc => ?_, fun i hi => h.open_ i ((hstate i).symm.trans hi),
    h.pings⟩
  obtain ⟨i, hi, hne⟩ := h.connected hc
  exact ⟨i, hi, fun heq => hne ((hstate i).symm.trans heq)⟩

theorem sole_setConnected_false (hlive : ∀ i, (s.sockets i).Live → s.socket = some i)
    (hwaiting : s.reconnectTimer.isSome = true → s.socket = none) (hopen : ∀ i, (s.sockets i).readyState ≠ .open_)
    (hping : s.pingTimer = false) : Sole (s.setConnected false) := by
  have hcore := sameCore_setConnected false s
  have hfalse : (s.setConnected false).isConnected = false := by
    unfold Stream.setConnected
    split
    · assumption
    · rfl
  have hpings : (s.setConnected false).pingTimer = false := by
    unfold Stream.setConnected
    split <;> exact hping
  refine ⟨?_, ?_, fun hc => absurd (hfalse.symm.trans hc) (by simp), fun i hi => ?_, hpings.trans hfalse.symm⟩
  · rw [hcore.sockets, hcore.socket]
    exact hlive
  · rw [hcore.reconnectTimer, hcore.socket]
    exact hwaiting
  · rw [hcore.sockets] at hi
    exact absurd hi (hopen i)

theorem sole_scheduleReconnect (h : Sole s) (hnone : s.socket = none) : Sole (s.scheduleReconnect o) := by
  obtain ⟨delay, timer, -, heq⟩ := scheduleReconnect_eq o s
  rw [heq]
  exact ⟨h.live, fun _ => hnone, h.connected, h.open_, h.pings⟩

theorem sole_connect (h : Sole s) (hnone : s.socket = none) (htimer : s.reconnectTimer = none) (throws : Bool) :
    Sole (s.connect o throws) := by
  unfold Stream.connect
  split
  · exact h
  · split
    · exact sole_scheduleReconnect h hnone
    · have hdisconnected := h.disconnected hnone
      refine ⟨fun i hi => ?_, fun hsome => absurd hsome (by simp [htimer]), fun hc => absurd (hdisconnected.symm.trans hc) (by simp),
        fun i hi => ?_, h.pings⟩
      · by_cases heq : i = s.opened
        · rw [heq]
        · simp only [Function.update_of_ne heq] at hi
          exact absurd (hnone.symm.trans (h.live i hi)) (by simp)
      · by_cases heq : i = s.opened
        · subst heq
          simp at hi
        · simp only [Function.update_of_ne heq] at hi
          exact h.open_ i hi

theorem sole_ensureSocket (h : Sole s) (throws : Bool) : Sole (s.ensureSocket o throws) := by
  unfold Stream.ensureSocket
  split
  · exact h
  · rename_i hgo
    simp only [not_or, Bool.not_eq_true, Option.isSome_eq_false_iff, Option.isNone_iff_eq_none] at hgo
    exact sole_connect h hgo.2.1 hgo.2.2 throws

/-- Once the current socket is dropped, none is open or opening. -/
theorem dropSocket_dead (h : ∀ i, (s.sockets i).Live → s.socket = some i) : ∀ i, ¬ (s.dropSocket.sockets i).Live := by
  intro i hi
  unfold Stream.dropSocket at hi
  split at hi
  · rename_i hnone
    exact absurd (hnone.symm.trans (h i hi)) (by simp)
  · rename_i k hk
    by_cases hik : i = k
    · subst hik
      simp only [Function.update_self, Socket.close] at hi
      split at hi
      · rcases hi with hi | hi <;> simp at hi
      · rcases hi with hi | hi <;> simp at hi
      · rename_i hstate
        rcases hi with hi | hi <;> exact absurd (hstate.symm.trans hi) (by simp)
      · rename_i hstate
        rcases hi with hi | hi <;> exact absurd (hstate.symm.trans hi) (by simp)
    · simp only [Function.update_of_ne hik] at hi
      exact hik (Option.some.inj ((h i hi).symm.trans hk))

theorem sole_dropped (h : ∀ i, (s.sockets i).Live → s.socket = some i) (hping : s.pingTimer = false) :
    Sole (s.dropSocket.setConnected false) := by
  have hdead := dropSocket_dead h
  obtain ⟨sockets, hframe⟩ := dropSocket_frame s
  rw [hframe] at hdead ⊢
  exact sole_setConnected_false (fun i hi => absurd hi (hdead i)) (fun _ => rfl) (fun i hi => hdead i (.inr hi)) hping

theorem sole_unlisten (h : Sole s) (channel : List Char) (listener : Nat) : Sole (s.unlisten channel listener) := by
  unfold Stream.unlisten
  split
  · exact h
  · dsimp only
    split
    · have hleft : Sole { s with listeners := s.listeners.delete channel } := h.same rfl rfl rfl rfl rfl
      have hsend := sole_send hleft (.unsubscribe [channel])
      split
      · exact hsend.same rfl rfl rfl rfl rfl
      · exact hsend
    · exact h.same rfl rfl rfl rfl rfl

theorem setState_of_ne (s : Stream) (r : ReadyState) (hij : j ≠ i) : (s.setState i r).sockets j = s.sockets j :=
  Function.update_of_ne hij ..

theorem setState_self (s : Stream) (i : Nat) (r : ReadyState) : ((s.setState i r).sockets i).readyState = r := by
  simp [Stream.setState]

theorem sole_opened (h : Sole s) (hi : (s.sockets i).readyState = .connecting) : Sole ((s.setState i .open_).onopen o) := by
  have hcurrent := h.live i (.inl hi)
  have honly : ∀ k, ((s.setState i .open_).sockets k).Live → s.socket = some k := by
    intro k hk
    by_cases hki : k = i
    · exact hki ▸ hcurrent
    · rw [setState_of_ne s _ hki] at hk
      exact h.live k hk
  obtain ⟨hsockets, -, hsocket, -, hreconnect, -, -⟩ :=
    sameCore_setConnected true { s.setState i .open_ with reconnectDelay := o.reconnectMs }
  have htrue : (Stream.setConnected { s.setState i .open_ with reconnectDelay := o.reconnectMs } true).isConnected = true := by
    unfold Stream.setConnected
    split
    · assumption
    · rfl
  unfold Stream.onopen
  dsimp only
  generalize Stream.setConnected { s.setState i .open_ with reconnectDelay := o.reconnectMs } true = x at *
  have hx : Sole { x with pingTimer := true } := by
    refine ⟨?_, ?_, fun _ => ⟨i, ?_, ?_⟩, fun _ _ => htrue, htrue.symm⟩
    · show ∀ k, (x.sockets k).Live → x.socket = some k
      rw [hsockets, hsocket]
      exact honly
    · show x.reconnectTimer.isSome = true → x.socket = none
      rw [hreconnect, hsocket]
      exact h.waiting
    · exact hsocket.trans hcurrent
    · show (x.sockets i).readyState ≠ .connecting
      rw [hsockets, setState_self]
      decide
  split
  · exact hx
  · exact sole_send hx _

theorem sole_closing (h : Sole s) (hi : (s.sockets i).Live) : Sole (s.setState i .closing) := by
  have hcurrent := h.live i hi
  refine ⟨fun k hk => ?_, h.waiting, fun hc => ⟨i, hcurrent, by rw [setState_self]; decide⟩, fun k hk => ?_, h.pings⟩
  · have hki : k ≠ i := by
      rintro rfl
      rw [Socket.Live, setState_self] at hk
      exact absurd hk (by decide)
    rw [setState_of_ne s _ hki] at hk
    exact h.live k hk
  · have hki : k ≠ i := by
      rintro rfl
      rw [setState_self] at hk
      exact absurd hk (by decide)
    rw [setState_of_ne s _ hki] at hk
    exact h.open_ k hk

/-- After a close in turn there is no socket. -/
theorem sole_closed (h : Sole s) (hturn : s.socket = none ∨ s.socket = some i) :
    Sole ((s.setState i .closed).onclose o i) := by
  have hnone : ((s.setState i .closed).letGo i).socket = none := by
    show (if s.socket = some i then none else s.socket) = none
    rcases hturn with hs | hs
    · rw [hs]
      rfl
    · rw [if_pos hs]
  have hdead : ∀ k, ¬ ((s.setState i .closed).sockets k).Live := by
    intro k hk
    have hki : k ≠ i := by
      rintro rfl
      rw [Socket.Live, setState_self] at hk
      exact absurd hk (by decide)
    rw [setState_of_ne s _ hki] at hk
    have hs := h.live k hk
    rcases hturn with hs' | hs'
    · exact absurd (hs'.symm.trans hs) (by simp)
    · exact hki (Option.some.inj (hs.symm.trans hs'))
  have hclosed : Sole (Stream.setConnected { (s.setState i .closed).letGo i with pingTimer := false } false) :=
    sole_setConnected_false (fun k hk => absurd hk (hdead k)) (fun _ => hnone) (fun k hk => hdead k (.inr hk)) rfl
  unfold Stream.onclose
  dsimp only
  split
  · have hcore := sameCore_setConnected false { (s.setState i .closed).letGo i with pingTimer := false }
    exact sole_scheduleReconnect hclosed (hcore.socket.trans hnone)
  · exact hclosed

theorem step_sole (h : Sole v) (hturn : InTurn v a) (hstep : (machine o).step v a w) : Sole w := by
  obtain ⟨ha, rfl⟩ := hstep
  cases a with
  | subscribe channel listener throws =>
    show Sole (v.subscribe o channel listener throws)
    unfold Stream.subscribe
    dsimp only
    refine sole_ensureSocket ?_ throws
    split
    · apply sole_send
      exact h.same rfl rfl rfl rfl rfl
    · exact h.same rfl rfl rfl rfl rfl
  | release i =>
    show Sole (v.release i)
    unfold Stream.release
    split
    · exact h
    · split
      · exact h
      · apply sole_unlisten
        exact h.same rfl rfl rfl rfl rfl
  | close => exact sole_dropped h.live rfl
  | opened i => exact sole_opened h ha
  | closing i => exact sole_closing h ha
  | closed i => exact sole_closed h hturn
  | message i now data =>
    show Sole (v.dispatch _)
    unfold Stream.dispatch
    split <;> exact h.same rfl rfl rfl rfl rfl
  | reconnect throws =>
    obtain ⟨delay, hdelay⟩ := Option.isSome_iff_exists.1 (show v.reconnectTimer.isSome = true from ha)
    have hnone := h.waiting (by rw [hdelay]; rfl)
    have hcleared : Sole { v with reconnectTimer := none } :=
      ⟨h.live, fun hsome => absurd hsome (by simp), h.connected, h.open_, h.pings⟩
    exact sole_connect hcleared hnone rfl throws
  | idle =>
    show Sole v.onIdle
    unfold Stream.onIdle
    dsimp only
    split
    · exact h.same rfl rfl rfl rfl rfl
    · have hcleared : Sole (Stream.dropSocket { v with idleTimer := false, pingTimer := false } |>.setConnected false) :=
        sole_dropped h.live rfl
      exact hcleared
  | ping => exact sole_send h .ping

/-- **There is one socket at a time**, and the stream says it is connected while it is open, if no socket's close comes after
a newer socket was opened. -/
theorem one_socket (h : Reachable ((machine o).restrict InTurn) v) : Sole v := by
  refine h.invariant Sole (fun v hv => ?_) (by
    rintro v a w - hv ⟨hturn, hstep⟩
    exact step_sole hv hturn hstep)
  have hv' : v = Stream.new o := hv
  rw [hv']
  exact ⟨fun i hi => absurd hi (by simp [Stream.new, Socket.Live]), fun hsome => absurd hsome (by simp [Stream.new]),
    fun hc => absurd hc (by simp [Stream.new]), fun i hi => absurd hi (by simp [Stream.new]), rfl⟩

theorem one_socket_reopened : Sole (sampleAt reopened) ∧ (sampleAt reopened).isConnected = true := by
  have hinTurn : Reachable ((machine DEFAULT_OPTIONS).restrict fun v a => InTurn v a ∧ enabled v a) (sampleAt reopened) :=
    sampleAt_reachable reopened (fun _ _ h => h.2) (by decide +kernel)
  obtain ⟨s₀, ls, hs₀, hrun⟩ := hinTurn
  exact ⟨one_socket ⟨s₀, ls, hs₀, hrun.weaken fun _ _ h => h.1⟩, by decide +kernel⟩

/-! ## A late close -/

/-- Neither the other side nor the network ends the socket. -/
def Unended (j : Nat) (_ : Stream) (a : Act) : Prop := a ≠ .closing j ∧ a ≠ .closed j

/-- A socket that is live, though not the current one. -/
structure Left (j : Nat) (sent : List ClientMessage) (s : Stream) : Prop where
  lt : j < s.opened
  other : s.socket ≠ some j
  live : (s.sockets j).Live
  sent : (s.sockets j).sent = sent

variable {sent : List ClientMessage}

theorem Left.same (h : Left j sent s) (hsockets : t.sockets j = s.sockets j) (hopened : t.opened = s.opened)
    (hsocket : t.socket = s.socket ∨ t.socket = none) : Left j sent t := by
  refine ⟨hopened ▸ h.lt, ?_, hsockets ▸ h.live, hsockets ▸ h.sent⟩
  rcases hsocket with hsocket | hsocket
  · exact hsocket ▸ h.other
  · rw [hsocket]
    simp

theorem Left.setConnected (h : Left j sent s) (b : Bool) : Left j sent (s.setConnected b) := by
  have hcore := sameCore_setConnected b s
  exact h.same (congrFun hcore.sockets j) hcore.opened (.inl hcore.socket)

theorem Left.send (h : Left j sent s) (payload : ClientMessage) : Left j sent (s.send payload) := by
  obtain ⟨⟨sockets, hframe⟩, -, hsent⟩ := sentOn_send payload s
  have hsame := hsent j fun hj => absurd hj h.other
  rw [hframe] at hsame ⊢
  exact h.same hsame rfl (.inl rfl)

theorem Left.scheduleReconnect (h : Left j sent s) : Left j sent (s.scheduleReconnect o) := by
  obtain ⟨delay, timer, -, heq⟩ := scheduleReconnect_eq o s
  rw [heq]
  exact h.same rfl rfl (.inl rfl)

theorem Left.connect (h : Left j sent s) (throws : Bool) : Left j sent (s.connect o throws) := by
  unfold Stream.connect
  split
  · exact h
  · split
    · exact h.scheduleReconnect
    · have hne : j ≠ s.opened := h.lt.ne
      refine ⟨Nat.lt_succ_of_lt h.lt, fun heq => hne (Option.some.inj heq).symm, ?_, ?_⟩
      · simp only [Function.update_of_ne hne]
        exact h.live
      · simp only [Function.update_of_ne hne]
        exact h.sent

theorem Left.ensureSocket (h : Left j sent s) (throws : Bool) : Left j sent (s.ensureSocket o throws) := by
  unfold Stream.ensureSocket
  split
  · exact h
  · exact h.connect throws

theorem Left.dropSocket (h : Left j sent s) : Left j sent s.dropSocket := by
  unfold Stream.dropSocket
  split
  · exact h
  · rename_i i hi
    have hne : j ≠ i := fun heq => h.other (heq ▸ hi)
    exact h.same (Function.update_of_ne hne ..) rfl (.inr rfl)

theorem Left.unlisten (h : Left j sent s) (channel : List Char) (listener : Nat) :
    Left j sent (s.unlisten channel listener) := by
  unfold Stream.unlisten
  split
  · exact h
  · dsimp only
    split
    · have hdeleted : Left j sent { s with listeners := s.listeners.delete channel } := h.same rfl rfl (.inl rfl)
      have hsend := hdeleted.send (.unsubscribe [channel])
      split
      · exact hsend.same rfl rfl (.inl rfl)
      · exact hsend
    · exact h.same rfl rfl (.inl rfl)

/-- Nothing the client does reaches a socket that is not the current one. -/
theorem step_left (h : Left j sent v) (hunended : Unended j v a) (hstep : (machine o).step v a w) : Left j sent w := by
  obtain ⟨-, rfl⟩ := hstep
  have hstate : ∀ i r, i ≠ j → Left j sent (v.setState i r) := fun i r hne =>
    h.same (setState_of_ne v r hne.symm) rfl (.inl rfl)
  cases a with
  | subscribe channel listener throws =>
    show Left j sent (v.subscribe o channel listener throws)
    unfold Stream.subscribe
    dsimp only
    apply Left.ensureSocket
    split
    · apply Left.send
      exact h.same rfl rfl (.inl rfl)
    · exact h.same rfl rfl (.inl rfl)
  | release i =>
    show Left j sent (v.release i)
    unfold Stream.release
    split
    · exact h
    · split
      · exact h
      · apply Left.unlisten
        exact h.same rfl rfl (.inl rfl)
  | close =>
    show Left j sent v.close
    unfold Stream.close
    apply Left.setConnected
    apply Left.dropSocket
    exact h.same rfl rfl (.inl rfl)
  | opened i =>
    have hopened : Left j sent (v.setState i .open_) := by
      by_cases hij : i = j
      · subst hij
        refine ⟨h.lt, h.other, .inr (setState_self v i .open_), ?_⟩
        simpa [Stream.setState] using h.sent
      · exact hstate i .open_ hij
    show Left j sent ((v.setState i .open_).onopen o)
    unfold Stream.onopen
    dsimp only
    have hreset : Left j sent { v.setState i .open_ with reconnectDelay := o.reconnectMs } := hopened.same rfl rfl (.inl rfl)
    have hconnected := (hreset.setConnected true).same
      (t := { Stream.setConnected { v.setState i .open_ with reconnectDelay := o.reconnectMs } true with pingTimer := true })
      rfl rfl (.inl rfl)
    split
    · exact hconnected
    · exact hconnected.send _
  | closing i => exact hstate i .closing fun heq => hunended.1 (heq ▸ rfl)
  | closed i =>
    have hclosed := hstate i .closed fun heq => hunended.2 (heq ▸ rfl)
    have hletGo : Left j sent { (v.setState i .closed).letGo i with pingTimer := false } := by
      refine hclosed.same rfl rfl ?_
      show (if v.socket = some i then none else v.socket) = v.socket ∨ (if v.socket = some i then none else v.socket) = none
      split
      · exact .inr rfl
      · exact .inl rfl
    show Left j sent ((v.setState i .closed).onclose o i)
    unfold Stream.onclose
    dsimp only
    split
    · exact (hletGo.setConnected false).scheduleReconnect
    · exact hletGo.setConnected false
  | message i now data =>
    have hcore := sameCore_dispatch (data.bind (parseServerMessage now)) v
    exact h.same (congrFun hcore.sockets j) hcore.opened (.inl hcore.socket)
  | reconnect throws =>
    have hcleared : Left j sent { v with reconnectTimer := none } := h.same rfl rfl (.inl rfl)
    exact hcleared.connect throws
  | idle =>
    show Left j sent v.onIdle
    unfold Stream.onIdle
    dsimp only
    split
    · exact h.same rfl rfl (.inl rfl)
    · apply Left.setConnected
      apply Left.dropSocket
      exact h.same rfl rfl (.inl rfl)
  | ping => exact h.send .ping

theorem onclose_eq (o : Options) (s : Stream) (i : Nat) : ∃ delay timer, s.onclose o i =
    { Stream.setConnected { s.letGo i with pingTimer := false } false with
      reconnectDelay := delay, reconnectTimer := timer } := by
  unfold Stream.onclose
  dsimp only
  split
  · obtain ⟨delay, timer, -, heq⟩ := scheduleReconnect_eq o (Stream.setConnected { s.letGo i with pingTimer := false } false)
    exact ⟨delay, timer, heq⟩
  · exact ⟨_, _, rfl⟩

/-- **A late close leaves a socket behind.**  If a socket's close comes after a newer one was opened, while something is
listened to, then the reconnect it starts opens another socket beside the newer one; and from then on the newer one stays
open, subscribed as it was, until the other side ends it: no release, no idle time and not even closing the stream
reaches it. -/
theorem late_close_leaves {u : Stream} {ls : List Act} (hv : Reachable (machine o) v) (hj : v.socket = some j) (hij : i ≠ j)
    (hlive : (v.sockets j).Live) (hopen : v.closed = false) (hkeys : v.listeners.keys ≠ [])
    (hclosed : (machine o).step v (.closed i) w) (hreconnect : (machine o).step w (.reconnect false) t)
    (h : Run ((machine o).restrict (Unended j)) t ls u) :
    (t.socket ≠ some j ∧ ∃ k, t.socket = some k ∧ (t.sockets k).Live) ∧
      u.socket ≠ some j ∧ (u.sockets j).Live ∧ (u.sockets j).sent = (v.sockets j).sent := by
  have hlt := (listening_kept hv).numbered.current_lt hj
  -- The late close leaves the newer socket current, and a reconnect to come.
  have hw : w.socket = some j ∧ w.sockets j = v.sockets j ∧ w.opened = v.opened ∧ w.closed = false ∧
      w.listeners.keys ≠ [] := by
    obtain ⟨-, rfl⟩ := hclosed
    have hcore := sameCore_setConnected false { (v.setState i .closed).letGo i with pingTimer := false }
    have hletGo : ((v.setState i .closed).letGo i).socket = some j := by
      show (if v.socket = some i then none else v.socket) = some j
      rw [if_neg fun heq => hij (Option.some.inj (heq.symm.trans hj)), hj]
    have hsame : ∀ y : Stream, SameCore { (v.setState i .closed).letGo i with pingTimer := false } y →
        y.socket = some j ∧ y.sockets j = v.sockets j ∧ y.opened = v.opened ∧ y.closed = false ∧ y.listeners.keys ≠ [] :=
      fun y hy => ⟨hy.socket.trans hletGo, (congrFun hy.sockets j).trans (setState_of_ne v .closed hij.symm), hy.opened,
        hy.closed.trans hopen, hy.listeners ▸ hkeys⟩
    obtain ⟨delay, timer, heq⟩ := onclose_eq o (v.setState i .closed) i
    simp only [act, heq]
    exact hsame _ hcore
  obtain ⟨hsocket, hsockets, hopened, hopen', hkeys'⟩ := hw
  have ht : t = { w with
      reconnectTimer := none, sockets := update w.sockets w.opened ⟨.connecting, []⟩, socket := some w.opened,
      opened := w.opened + 1 } := by
    rw [← hreconnect.2]
    show Stream.connect o { w with reconnectTimer := none } false = _
    unfold Stream.connect
    rw [if_neg (by simp [hopen', hkeys']), if_neg (by decide)]
  have hne : j ≠ w.opened := by omega
  have hleft : Left j (v.sockets j).sent t := by
    rw [ht]
    refine ⟨by show j < w.opened + 1; omega, fun heq => hne (Option.some.inj heq).symm, ?_, ?_⟩
    · simp only [Function.update_of_ne hne, hsockets]
      exact hlive
    · simp only [Function.update_of_ne hne, hsockets]
  have hend : Left j (v.sockets j).sent u := by
    refine h.preserves (Left j (v.sockets j).sent) ?_ hleft
    rintro x a y hx ⟨hunended, hstep⟩
    exact step_left hx hunended hstep
  refine ⟨⟨hleft.other, w.opened, by rw [ht], ?_⟩, hend.other, hend.live, hend.sent⟩
  rw [ht]
  simp [Socket.Live]

/-- The idle socket is closed, and someone subscribes before its close event. -/
def resubscribed : List Act :=
  [.subscribe "markets".toList 0 false, .opened 0, .release 0, .idle, .subscribe "markets".toList 1 false, .opened 1]

theorem late_close_leaves_resubscribed : ((sampleAt (resubscribed ++ [.closed 0, .reconnect false, .close])).sockets 1).Live ∧
    (sampleAt (resubscribed ++ [.closed 0, .reconnect false, .close])).closed = true := by
  obtain ⟨s₀, ls, hs₀, hrun⟩ := sampleAt_reachable resubscribed (fun _ _ h => h) (by decide +kernel)
  have hclosed : (machine DEFAULT_OPTIONS).step (sampleAt resubscribed) (.closed 0) (sampleAt (resubscribed ++ [.closed 0])) :=
    ⟨by decide +kernel, rfl⟩
  have hreconnect : (machine DEFAULT_OPTIONS).step (sampleAt (resubscribed ++ [.closed 0])) (.reconnect false)
      (sampleAt (resubscribed ++ [.closed 0, .reconnect false])) := ⟨by decide +kernel, rfl⟩
  have hend : Run ((machine DEFAULT_OPTIONS).restrict (Unended 1)) (sampleAt (resubscribed ++ [.closed 0, .reconnect false]))
      [.close] (sampleAt (resubscribed ++ [.closed 0, .reconnect false, .close])) :=
    Run.single ⟨⟨by simp, by simp⟩, trivial, rfl⟩
  obtain ⟨-, -, hlive, -⟩ := late_close_leaves ⟨s₀, ls, hs₀, hrun.of_restrict⟩ (by decide +kernel) (show 0 ≠ 1 by decide)
    (by decide +kernel) (by decide +kernel) (by decide +kernel) hclosed hreconnect hend
  exact ⟨hlive, by decide +kernel⟩

end Kryon.MarketStream
