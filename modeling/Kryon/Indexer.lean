import Kryon.Types
import Kryon.Lib.Transition
import Kryon.Lib.Delivery
/-!
# Indexer — the event log, read window by window

A step reads the logs of a window of blocks and commits them in one transaction: each is stored under its transaction and
index, applied to the tables if it was not there, and the cursor moves to the window's end.  A provider that refuses a
range halves the window; a failure or a restart anywhere leaves what was committed.
-/
namespace Kryon.Indexer

open Transition (Machine Run)
open Delivery (ingest ingest_delivered)

structure RawLog where
  address : Address
  blockNumber : Nat
  transactionHash : Bytes32
  logIndex : Nat
  topics : List Bytes32
  data : Bytes
deriving DecidableEq

structure Block where
  hash : Bytes32
  timestamp : Nat

/-- A log as stored in, and replayed from, `ProtocolEvent`. -/
structure StoredEvent (α : Type) where
  blockNumber : Nat
  blockHash : Bytes32
  blockTimestamp : Nat
  txHash : Bytes32
  logIndex : Nat
  contract : Address
  topic0 : Bytes32
  /-- The decoded name and arguments. -/
  event : α
deriving DecidableEq

variable {α τ : Type}

/-- The key `ProtocolEvent` is unique under. -/
def StoredEvent.key (e : StoredEvent α) : Bytes32 × Nat := (e.txHash, e.logIndex)

/-- The order events are applied in. -/
def StoredEvent.before (e f : StoredEvent α) : Prop :=
  e.blockNumber < f.blockNumber ∨ e.blockNumber = f.blockNumber ∧ e.logIndex < f.logIndex

/-- A chain: its blocks, and the protocol's logs in each. -/
structure Chain where
  block : Nat → Block
  logs : Nat → List RawLog
  number : ∀ b, ∀ raw ∈ logs b, raw.blockNumber = b
  ordered : ∀ b, (logs b).Pairwise (·.logIndex < ·.logIndex)
  distinct : ∀ b, ∀ raw ∈ logs b, ∀ c, ∀ raw' ∈ logs c,
    (raw.transactionHash, raw.logIndex) = (raw'.transactionHash, raw'.logIndex) → raw = raw'

/-- The logs of `n` blocks from a block on. -/
def Chain.window (chain : Chain) (fromBlock n : Nat) : List RawLog := (List.range' fromBlock n).flatMap chain.logs

/-- The indexer's database: the stored events, the projected tables and the cursor. -/
structure Db (α τ : Type) where
  events : List (StoredEvent α)
  tables : τ
  /-- A block and its hash. -/
  cursor : Option (Nat × Bytes32)

structure IndexerOptions where
  startBlock : Nat
  /-- The largest block range of one read. -/
  maxWindow : Nat

/-! ## A window -/

/-- Decoding, and the projection of one event; a handler that throws aborts the transaction. -/
structure Projection (α τ : Type) where
  decode : RawLog → α
  applyEvent : τ → StoredEvent α → Option τ

section Code
variable (P : Projection α τ) (chain : Chain) (opts : IndexerOptions)

def stored (raw : RawLog) : StoredEvent α where
  blockNumber := raw.blockNumber
  blockHash := (chain.block raw.blockNumber).hash
  blockTimestamp := (chain.block raw.blockNumber).timestamp
  txHash := raw.transactionHash
  logIndex := raw.logIndex
  contract := raw.address
  topic0 := raw.topics.headD 0
  event := P.decode raw

def compareLogs (x y : RawLog) : Int :=
  if x.blockNumber = y.blockNumber then (x.logIndex : Int) - y.logIndex
  else if x.blockNumber < y.blockNumber then -1 else 1

/-- Stores one log and applies it; one that is stored already is projected already. -/
def storeLog (fromBlock toBlock : Nat) (db : Db α τ) (raw : RawLog) : Option (Db α τ) :=
  if raw.blockNumber < fromBlock ∨ raw.blockNumber > toBlock then none
  else
    let ev := stored P chain raw
    if ev.key ∈ db.events.map (·.key) then some db
    else (P.applyEvent db.tables ev).map fun tables => { db with events := db.events ++ [ev], tables := tables }

/-- The transaction of a window; `none` where it throws. -/
def commit (fromBlock toBlock : Nat) (logs : List RawLog) (db : Db α τ) : Option (Db α τ) :=
  let ordered := logs.insertionSort fun x y => compareLogs x y ≤ 0
  (ordered.foldlM (storeLog P chain fromBlock toBlock) db).map fun db =>
    { db with cursor := some (toBlock, (chain.block toBlock).hash) }

/-- The block a step starts at. -/
def fromBlock (db : Db α τ) : Nat :=
  match db.cursor with
  | none => opts.startBlock
  | some (last, _) => last + 1

/-! ## The loop -/

/-- Where a step is. -/
inductive Phase where
  | idle
  | reading (fromBlock head : Nat)
  | committing (fromBlock toBlock : Nat) (logs : List RawLog)

structure State (α τ : Type) where
  db : Db α τ
  /-- Of the process; lost with it. -/
  window : Nat
  phase : Phase

/-- A node answers with every log of the range, in any order and any number of times. -/
structure Delivers (chain : Chain) (fromBlock toBlock : Nat) (logs : List RawLog) : Prop where
  complete : ∀ b, fromBlock ≤ b → b ≤ toBlock → ∀ raw ∈ chain.logs b, raw ∈ logs
  sound : ∀ raw ∈ logs, raw ∈ chain.logs raw.blockNumber

inductive Act where
  | head (head : Nat)
  | rangeError
  | logs (logs : List RawLog)
  /-- `acknowledged` where the process learns that the transaction was committed. -/
  | commit (acknowledged : Bool)
  | failed
  | restart

inductive Step : State α τ → Act → State α τ → Prop where
  | head {s : State α τ} {head : Nat} (hphase : s.phase = .idle) (hhead : fromBlock opts s.db ≤ head) :
      Step s (.head head) { s with phase := .reading (fromBlock opts s.db) head }
  | rangeError {s : State α τ} {f head : Nat} (hphase : s.phase = .reading f head) (hwindow : s.window > 1) :
      Step s .rangeError { s with window := s.window / 2 }
  | logs {s : State α τ} {f head : Nat} {logs : List RawLog} (hphase : s.phase = .reading f head)
      (hlogs : Delivers chain f (min head (f + s.window - 1)) logs) :
      Step s (.logs logs) { s with phase := .committing f (min head (f + s.window - 1)) logs }
  -- The window grows back after a provider shrank it.
  | commit {s : State α τ} {f toBlock : Nat} {logs : List RawLog} {db : Db α τ} {acknowledged : Bool}
      (hphase : s.phase = .committing f toBlock logs) (hdb : commit P chain f toBlock logs s.db = some db) :
      Step s (.commit acknowledged) {
        db := db
        window := if acknowledged = true ∧ s.window < opts.maxWindow then min opts.maxWindow (s.window * 2) else s.window
        phase := .idle }
  | failed {s : State α τ} : Step s .failed { s with phase := .idle }
  | restart {s : State α τ} : Step s .restart { s with window := opts.maxWindow, phase := .idle }

/-- Nothing is indexed yet. -/
structure State.Fresh (s : State α τ) : Prop where
  events : s.db.events = []
  cursor : s.db.cursor = none
  phase : s.phase = .idle

def machine : Machine (State α τ) Act := ⟨State.Fresh, Step P chain opts⟩

end Code

/-! ## What a window adds -/

section Window
variable {P : Projection α τ} {chain : Chain} {opts : IndexerOptions} {db db' : Db α τ} {f n t : Nat} {x y : RawLog}
  {logs : List RawLog} {T₀ : τ}

theorem compareLogs_le : compareLogs x y ≤ 0 ↔
    x.blockNumber < y.blockNumber ∨ x.blockNumber = y.blockNumber ∧ x.logIndex ≤ y.logIndex := by
  unfold compareLogs
  split_ifs <;> omega

theorem Chain.mem_window : x ∈ chain.window f n ↔ x ∈ chain.logs x.blockNumber ∧ f ≤ x.blockNumber ∧
    x.blockNumber < f + n := by
  simp only [Chain.window, List.mem_flatMap, List.mem_range'_1]
  constructor
  · rintro ⟨b, hb, hx⟩
    obtain rfl := chain.number b x hx
    exact ⟨hx, hb⟩
  · exact fun ⟨hx, hb⟩ => ⟨x.blockNumber, hb, hx⟩

theorem Chain.window_append (m : Nat) : chain.window f (n + m) = chain.window f n ++ chain.window (f + n) m := by
  simp only [Chain.window]
  rw [← List.flatMap_append]
  congr 1
  exact (List.range'_append_1 (s := f) (m := n) (n := m)).symm

theorem Chain.window_ordered (f n : Nat) : ((chain.window f n).map (stored P chain)).Pairwise StoredEvent.before := by
  rw [List.pairwise_map, Chain.window, List.pairwise_flatMap]
  have hblocks : (List.range' f n).Pairwise (· < ·) := List.pairwise_lt_range'
  refine ⟨fun b _ => ?_, hblocks.imp fun {b c} hbc x hx y hy => .inl ?_⟩
  · refine (chain.ordered b).imp_of_mem fun {x y} hx hy hlt => .inr ⟨?_, hlt⟩
    exact (chain.number b x hx).trans (chain.number b y hy).symm
  · change x.blockNumber < y.blockNumber
    rw [chain.number b x hx, chain.number c y hy]
    exact hbc

theorem StoredEvent.before_irrefl (e : StoredEvent α) : ¬ e.before e := by
  unfold StoredEvent.before
  omega

theorem Chain.same_key (hx : x ∈ chain.logs x.blockNumber) (hy : y ∈ chain.logs y.blockNumber)
    (h : (stored P chain x).key = (stored P chain y).key) : x = y :=
  chain.distinct _ x hx _ y hy h

theorem Chain.same_place (hx : x ∈ chain.logs x.blockNumber) (hy : y ∈ chain.logs y.blockNumber)
    (h : x.blockNumber = y.blockNumber ∧ x.logIndex = y.logIndex) : x = y := by
  rw [← h.1] at hy
  have hnodup : ((chain.logs x.blockNumber).map (·.logIndex)).Nodup :=
    List.pairwise_map.2 ((chain.ordered _).imp fun hlt => hlt.ne)
  exact List.inj_on_of_nodup_map hnodup hx hy h.2

theorem Chain.window_keys (f n : Nat) : (((chain.window f n).map (stored P chain)).map (·.key)).Nodup := by
  rw [List.map_map]
  have hnodup : (chain.window f n).Nodup := by
    have h := (chain.window_ordered (P := P) f n).imp fun {e e'} hlt (heq : e = e') => e.before_irrefl (heq ▸ hlt)
    exact List.Nodup.of_map _ h
  exact hnodup.map_on fun x hx y hy h => chain.same_key (chain.mem_window.1 hx).1 (chain.mem_window.1 hy).1 h

theorem storeLog_fold : ∀ (logs : List RawLog) (db db' : Db α τ), logs.foldlM (storeLog P chain f t) db = some db' →
    (∀ x ∈ logs, f ≤ x.blockNumber ∧ x.blockNumber ≤ t) ∧
      (logs.map (stored P chain)).foldlM (ingest (·.key) P.applyEvent) (db.events, db.tables) =
        some (db'.events, db'.tables)
  | [], db, db', h => by
    cases h
    exact ⟨fun x hx => absurd hx List.not_mem_nil, rfl⟩
  | x :: logs, db, db', h => by
    rw [List.foldlM_cons, Option.bind_eq_bind, Option.bind_eq_some_iff] at h
    obtain ⟨mid, hstore, h⟩ := h
    obtain ⟨hrange, hfold⟩ := storeLog_fold logs mid db' h
    unfold storeLog at hstore
    split at hstore
    · cases hstore
    · rename_i hin
      have hin' : f ≤ x.blockNumber ∧ x.blockNumber ≤ t := by omega
      refine ⟨List.forall_mem_cons.2 ⟨hin', hrange⟩, ?_⟩
      rw [List.map_cons, List.foldlM_cons, Option.bind_eq_bind, Option.bind_eq_some_iff]
      refine ⟨(mid.events, mid.tables), ?_, hfold⟩
      unfold ingest
      simp only at hstore
      split at hstore
      · rename_i hseen
        cases hstore
        exact if_pos hseen
      · rename_i hnew
        obtain ⟨tables, happly, rfl⟩ := Option.map_eq_some_iff.1 hstore
        rw [if_neg hnew, happly]
        rfl

/-- **The database is the chain up to the cursor**: its events are those of every block from the first one, in order, and
the tables are those events applied once each. -/
structure Canonical (P : Projection α τ) (chain : Chain) (opts : IndexerOptions) (T₀ : τ) (db : Db α τ) : Prop where
  start : opts.startBlock ≤ fromBlock opts db
  events : db.events =
    (chain.window opts.startBlock (fromBlock opts db - opts.startBlock)).map (stored P chain)
  tables : db.events.foldlM P.applyEvent T₀ = some db.tables
  hash : ∀ c ∈ db.cursor, c.2 = (chain.block c.1).hash

/-- The order of delivery, repetitions allowed. -/
def StoredEvent.upTo (e f : StoredEvent α) : Prop :=
  e.blockNumber < f.blockNumber ∨ e.blockNumber = f.blockNumber ∧ e.logIndex ≤ f.logIndex

theorem sorted_upTo (logs : List RawLog) :
    ((logs.insertionSort fun x y => compareLogs x y ≤ 0).map (stored P chain)).Pairwise StoredEvent.upTo := by
  have htotal : Std.Total fun x y : RawLog => compareLogs x y ≤ 0 := ⟨fun x y => by
    rw [compareLogs_le, compareLogs_le]
    omega⟩
  have htrans : IsTrans RawLog fun x y => compareLogs x y ≤ 0 := ⟨fun x y z hxy hyz => by
    rw [compareLogs_le] at hxy hyz ⊢
    omega⟩
  rw [List.pairwise_map]
  exact (List.pairwise_insertionSort _ logs).imp fun h => compareLogs_le.1 h

/-- **A window's transaction keeps the database canonical**, whatever was delivered with it. -/
theorem Canonical.commit (h : Canonical P chain opts T₀ db) (hft : fromBlock opts db ≤ t + 1)
    (hlogs : Delivers chain (fromBlock opts db) t logs)
    (hdb : commit P chain (fromBlock opts db) t logs db = some db') : Canonical P chain opts T₀ db' := by
  have hstart := h.start
  generalize hf : fromBlock opts db = f at *
  obtain ⟨mid, hfold, rfl⟩ := Option.map_eq_some_iff.1 hdb
  obtain ⟨hrange, hingest⟩ := storeLog_fold _ _ _ hfold
  have hordered := chain.window_ordered (P := P) f (t + 1 - f)
  have hkeys := chain.window_keys (P := P) f (t + 1 - f)
  have hmem : ∀ e, e ∈ (logs.insertionSort fun x y => compareLogs x y ≤ 0).map (stored P chain) ↔
      e ∈ (chain.window f (t + 1 - f)).map (stored P chain) := by
    intro e
    simp only [List.mem_map, List.mem_insertionSort, chain.mem_window]
    constructor
    · rintro ⟨x, hx, rfl⟩
      have hin := hrange x ((List.mem_insertionSort _).2 hx)
      exact ⟨x, ⟨hlogs.sound x hx, hin.1, by omega⟩, rfl⟩
    · rintro ⟨x, ⟨hx, hle, hlt⟩, rfl⟩
      exact ⟨x, hlogs.complete _ hle (by omega) x hx, rfl⟩
  have hanti : ∀ e e', e ∈ (chain.window f (t + 1 - f)).map (stored P chain) →
      e' ∈ (chain.window f (t + 1 - f)).map (stored P chain) → e.upTo e' → e'.upTo e → e = e' := by
    intro e e' he he' hle hle'
    obtain ⟨x, hx, rfl⟩ := List.mem_map.1 he
    obtain ⟨y, hy, rfl⟩ := List.mem_map.1 he'
    have hplace : x.blockNumber = y.blockNumber ∧ x.logIndex = y.logIndex := by
      simp only [StoredEvent.upTo, stored] at hle hle'
      omega
    rw [chain.same_place (chain.mem_window.1 hx).1 (chain.mem_window.1 hy).1 hplace]
  have hnew : ∀ e ∈ (chain.window f (t + 1 - f)).map (stored P chain), e.key ∉ db.events.map (·.key) := by
    intro e he hseen
    rw [h.events, hf] at hseen
    obtain ⟨x, hx, rfl⟩ := List.mem_map.1 he
    simp only [List.mem_map, exists_exists_and_eq_and] at hseen
    obtain ⟨y, hy, hkey⟩ := hseen
    have hx' := chain.mem_window.1 hx
    have hy' := chain.mem_window.1 hy
    obtain rfl := chain.same_key hy'.1 hx'.1 hkey
    omega
  have hold : (db.events.map (·.key)).Nodup := by
    rw [h.events]
    exact chain.window_keys _ _
  have hwindow := chain.window_append (f := opts.startBlock) (n := f - opts.startBlock) (t + 1 - f)
  rw [show opts.startBlock + (f - opts.startBlock) = f by omega,
    show f - opts.startBlock + (t + 1 - f) = t + 1 - opts.startBlock by omega] at hwindow
  have hupTo := hordered.imp fun {e e'} hlt => show e.upTo e' by
    unfold StoredEvent.before at hlt
    unfold StoredEvent.upTo
    omega
  obtain ⟨hevents, happlied⟩ := ingest_delivered (sorted_upTo logs) hupTo hkeys hanti hmem hold hnew hingest
  replace hevents : mid.events = db.events ++ (chain.window f (t + 1 - f)).map (stored P chain) := hevents
  rw [h.events, hf, ← List.map_append, ← hwindow] at hevents
  refine ⟨hstart.trans hft, hevents, ?_, fun c hc => ?_⟩
  · have hall := congrArg (List.foldlM P.applyEvent T₀) (hevents.trans (by rw [hwindow, List.map_append]))
    refine hall.trans ?_
    rw [List.foldlM_append, ← hf, ← h.events, h.tables, hf]
    exact happlied
  · cases hc
    rfl

/-- The window in flight starts where the database ends. -/
structure Indexed (P : Projection α τ) (chain : Chain) (opts : IndexerOptions) (T₀ : τ) (s : State α τ) : Prop where
  db : Canonical P chain opts T₀ s.db
  reading : ∀ f head, s.phase = .reading f head → f = fromBlock opts s.db ∧ f ≤ head
  committing : ∀ f toBlock logs, s.phase = .committing f toBlock logs →
    f = fromBlock opts s.db ∧ f ≤ toBlock + 1 ∧ Delivers chain f toBlock logs

variable {s s₀ : State α τ} {a : Act} {ls : List Act} {u : State α τ}

theorem step_indexed (hs : Indexed P chain opts T₀ s) (h : Step P chain opts s a u) : Indexed P chain opts T₀ u := by
  cases h with
  | head hphase hhead =>
    exact ⟨hs.db, fun f head heq => by cases heq; exact ⟨rfl, hhead⟩, fun _ _ _ heq => by cases heq⟩
  | rangeError hphase hwindow => exact ⟨hs.db, hs.reading, hs.committing⟩
  | @logs f head logs hphase hlogs =>
    obtain ⟨hf, hle⟩ := hs.reading f head hphase
    refine ⟨hs.db, fun _ _ heq => (by cases heq), fun f' t logs' heq => ?_⟩
    cases heq
    exact ⟨hf, by omega, hlogs⟩
  | @commit f t logs db acknowledged hphase hdb =>
    obtain ⟨rfl, hft, hlogs⟩ := hs.committing f t logs hphase
    exact ⟨hs.db.commit hft hlogs hdb, fun _ _ heq => (by cases heq), fun _ _ _ heq => by cases heq⟩
  | failed => exact ⟨hs.db, fun _ _ heq => (by cases heq), fun _ _ _ heq => by cases heq⟩
  | restart => exact ⟨hs.db, fun _ _ heq => (by cases heq), fun _ _ _ heq => by cases heq⟩

theorem fresh_indexed (h : s₀.Fresh) : Indexed P chain opts s₀.db.tables s₀ := by
  have hfrom : fromBlock opts s₀.db = opts.startBlock := by rw [fromBlock, h.cursor]
  refine ⟨⟨hfrom.ge, ?_, ?_, ?_⟩, ?_, ?_⟩
  · rw [hfrom, Nat.sub_self, h.events]
    rfl
  · rw [h.events]
    rfl
  · intro c hc
    rw [h.cursor] at hc
    cases hc
  · intro f head heq
    rw [h.phase] at heq
    cases heq
  · intro f t logs heq
    rw [h.phase] at heq
    cases heq

/-- **Whatever the windows, the errors and the repetitions, the database is the chain up to the cursor.** -/
theorem run_canonical (h₀ : s₀.Fresh) (h : Run (machine P chain opts) s₀ ls s) :
    Canonical P chain opts s₀.db.tables s.db :=
  (h.preserves (Indexed P chain opts s₀.db.tables) (fun _ _ _ => step_indexed) (fresh_indexed h₀)).db

theorem Canonical.unique {opts' : IndexerOptions} (h : Canonical P chain opts T₀ db)
    (h' : Canonical P chain opts' T₀ db') (hstart : opts'.startBlock = opts.startBlock) (hcursor : db'.cursor.map (·.1) = db.cursor.map (·.1)) : db' = db := by
  have hfrom : fromBlock opts' db' = fromBlock opts db := by
    unfold fromBlock
    cases hc : db.cursor with
    | none =>
      rw [hc, Option.map_none, Option.map_eq_none_iff] at hcursor
      rw [hcursor]
      exact hstart
    | some c =>
      rw [hc, Option.map_some, Option.map_eq_some_iff] at hcursor
      obtain ⟨c', hc', hblock⟩ := hcursor
      rw [hc']
      exact congrArg (· + 1) hblock
  have hevents : db'.events = db.events := by rw [h'.events, h.events, hfrom, hstart]
  have htables : db'.tables = db.tables := by
    have heq := h'.tables
    rw [hevents, h.tables] at heq
    exact (Option.some.inj heq).symm
  have hcursors : db'.cursor = db.cursor := by
    cases hc : db.cursor with
    | none => rwa [hc, Option.map_none, Option.map_eq_none_iff] at hcursor
    | some c =>
      rw [hc, Option.map_some, Option.map_eq_some_iff] at hcursor
      obtain ⟨c', hc', hblock⟩ := hcursor
      rw [hc', Prod.ext hblock ?_]
      rw [h'.hash c' hc', h.hash c hc, hblock]
  cases db
  cases db'
  simp only [Db.mk.injEq]
  exact ⟨hevents, htables, hcursors⟩

/-- **Indexing does not depend on how the chain is read**: runs that agree on the first block and on the cursor end in
the same database; its events are every log of the blocks read, each once and in order; the tables are those events applied
one after another; and no event up to the cursor is missing. -/
theorem indexing_independent {opts' : IndexerOptions} {s₀' s' : State α τ} {ls' : List Act}
    (h₀ : s₀.Fresh) (h₀' : s₀'.Fresh) (h : Run (machine P chain opts) s₀ ls s)
    (h' : Run (machine P chain opts') s₀' ls' s') (hstart : opts'.startBlock = opts.startBlock)
    (htables : s₀'.db.tables = s₀.db.tables) :
    (s'.db.cursor.map (·.1) = s.db.cursor.map (·.1) → s'.db = s.db) ∧
    s.db.events.Pairwise StoredEvent.before ∧
    s.db.events.foldlM P.applyEvent s₀.db.tables = some s.db.tables ∧
    (∀ e, e ∈ s.db.events ↔ ∃ raw, raw ∈ chain.logs raw.blockNumber ∧ opts.startBlock ≤ raw.blockNumber ∧
      (∃ c ∈ s.db.cursor, raw.blockNumber ≤ c.1) ∧ stored P chain raw = e) := by
  have hs := run_canonical h₀ h
  have hs' := run_canonical h₀' h'
  rw [htables] at hs'
  have hordered := chain.window_ordered (P := P) opts.startBlock (fromBlock opts s.db - opts.startBlock)
  rw [← hs.events] at hordered
  refine ⟨hs.unique hs' hstart, hordered, hs.tables, fun e => ?_⟩
  have hbound : ∀ b, opts.startBlock ≤ b → (b < opts.startBlock + (fromBlock opts s.db - opts.startBlock) ↔
      ∃ c ∈ s.db.cursor, b ≤ c.1) := by
    intro b hb
    have hle := hs.start
    unfold fromBlock at hle ⊢
    cases hc : s.db.cursor with
    | none => simp [hb]
    | some c =>
      simp only [hc] at hle
      simp only [Option.mem_some_iff, exists_eq_left']
      omega
  rw [hs.events]
  simp only [List.mem_map, chain.mem_window]
  constructor
  · rintro ⟨x, ⟨hx, hle, hlt⟩, rfl⟩
    exact ⟨x, hx, hle, (hbound _ hle).1 hlt, rfl⟩
  · rintro ⟨x, hx, hle, hc, rfl⟩
    exact ⟨x, ⟨hx, hle, (hbound _ hle).2 hc⟩, rfl⟩

end Window

namespace Sample

def log (b i : Nat) : RawLog := ⟨1, b, Fin.ofNat (2 ^ 256) b, i, [], []⟩

/-- One log in block 1 and two in block 2. -/
def all : List RawLog := [log 1 0, log 2 0, log 2 1]

def chain : Chain where
  block b := ⟨Fin.ofNat (2 ^ 256) b, b⟩
  logs b := all.filter fun raw => decide (raw.blockNumber = b)
  number b raw h := of_decide_eq_true (List.mem_filter.1 h).2
  ordered b := by
    have hall : all.Pairwise fun x y => x.blockNumber = y.blockNumber → x.logIndex < y.logIndex := by decide
    refine (hall.sublist List.filter_sublist).imp_of_mem fun {x y} hx hy hlt => hlt ?_
    exact (of_decide_eq_true (List.mem_filter.1 hx).2).trans (of_decide_eq_true (List.mem_filter.1 hy).2).symm
  distinct b raw h c raw' h' heq := by
    have hall : ∀ x ∈ all, ∀ y ∈ all, (x.transactionHash, x.logIndex) = (y.transactionHash, y.logIndex) → x = y := by
      decide
    exact hall raw (List.mem_filter.1 h).1 raw' (List.mem_filter.1 h').1 heq

/-- The tables are the places of the events applied. -/
def projection : Projection Nat (List (Nat × Nat)) where
  decode raw := raw.logIndex
  applyEvent places e := some (places ++ [(e.blockNumber, e.event)])

def start (window : Nat) : State Nat (List (Nat × Nat)) := ⟨⟨[], [], none⟩, window, .idle⟩

theorem start_fresh (window : Nat) : (start window).Fresh := ⟨rfl, rfl, rfl⟩

theorem delivers (f t : Nat) (logs : List RawLog) (hsub : ∀ x ∈ logs, x ∈ all)
    (hall : ∀ x ∈ all, f ≤ x.blockNumber → x.blockNumber ≤ t → x ∈ logs) : Delivers chain f t logs where
  complete b hf ht x hx := by
    obtain rfl := chain.number b x hx
    exact hall x (List.mem_filter.1 hx).1 hf ht
  sound x hx := List.mem_filter.2 ⟨hsub x hx, decide_eq_true rfl⟩

end Sample

theorem indexing_independent_two : ∃ s s' : State Nat (List (Nat × Nat)),
    s.db.cursor.map (·.1) = some 2 ∧ s.db.tables = [(1, 0), (2, 0), (2, 1)] ∧ s'.db = s.db := by
  -- Both blocks at once, after a refused range, out of order and with a repetition.
  have hhead := Run.nil.snoc (M := machine Sample.projection Sample.chain ⟨1, 4⟩) (l := Act.head 2)
    (Step.head (s := Sample.start 4) rfl (by decide))
  have hrange := hhead.snoc (l := Act.rangeError) (Step.rangeError rfl (by decide))
  have hlogs := hrange.snoc (l := Act.logs [Sample.log 2 1, Sample.log 1 0, Sample.log 2 0, Sample.log 2 1])
    (Step.logs rfl (Sample.delivers _ _ _ (by decide) (by decide)))
  have hcommit := hlogs.snoc (l := Act.commit true) (Step.commit rfl rfl)
  -- One block at a time, with a restart while the first is in flight.
  have hhead' := Run.nil.snoc (M := machine Sample.projection Sample.chain ⟨1, 1⟩) (l := Act.head 2)
    (Step.head (s := Sample.start 1) rfl (by decide))
  have hlogs' := hhead'.snoc (l := Act.logs [Sample.log 1 0])
    (Step.logs rfl (Sample.delivers _ _ _ (by decide) (by decide)))
  have hrestart' := hlogs'.snoc (l := Act.restart) Step.restart
  have hagain' := hrestart'.snoc (l := Act.head 2) (Step.head rfl (by decide))
  have hfirst' := hagain'.snoc (l := Act.logs [Sample.log 1 0])
    (Step.logs rfl (Sample.delivers _ _ _ (by decide) (by decide)))
  have hcommit' := hfirst'.snoc (l := Act.commit false) (Step.commit rfl rfl)
  have hnext' := hcommit'.snoc (l := Act.head 2) (Step.head rfl (by decide))
  have hsecond' := hnext'.snoc (l := Act.logs [Sample.log 2 0, Sample.log 2 1])
    (Step.logs rfl (Sample.delivers _ _ _ (by decide) (by decide)))
  have hdone' := hsecond'.snoc (l := Act.commit true) (Step.commit rfl rfl)
  have hboth := indexing_independent (Sample.start_fresh 4) (Sample.start_fresh 1) hcommit hdone' rfl rfl
  exact ⟨_, _, rfl, rfl, hboth.1 rfl⟩

end Kryon.Indexer
