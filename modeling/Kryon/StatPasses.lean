import Kryon.Aggregator
/-!
# StatPasses — what a run of passes keeps

An address not touched beyond the block a pass stops at has, once the pass is done with it, the rows of its activity at the
pass's time.  An event or an order that comes meanwhile leaves an address's activity as it is or touches it beyond that block;
a run of steps that do so ends every pass with the tables of a full recompute.
-/
namespace Kryon.Stats

open Transition (Machine Run)

/-! ## The invariant -/

def Phase.now : Phase → Option Int
  | .idle => none
  | .reading now .. | .recomputing now .. | .loaded now .. | .scanning now .. | .rebuilding now .. | .finished now .. => some now

/-- The last block the pass takes in. -/
def Phase.horizon : Phase → Option Nat
  | .idle => none
  | .reading _ head cursor | .recomputing _ head cursor _ | .loaded _ head cursor .. => some (upTo head cursor)
  | .scanning _ head | .rebuilding _ head .. => head.map (·.blockNumber)
  | .finished _ upTo => upTo

/-- No row was computed at a later time. -/
def State.time (s : State) : Int := s.phase.now.getD s.clock

/-- The blocks the cursor and the pass have got to. -/
def State.horizons (s : State) : List Nat := (s.cursor.map (·.blockNumber)).toList ++ s.phase.horizon.toList

section Invariant
variable {db db' : Db} {stats : StatTables} {now : Int} {h : Option Nat} {a : Address} {st : AddressStats} {s s' : State}

/-- The rows are those of the activity, unless it goes on beyond the block. -/
def Fresh (db : Db) (stats : StatTables) (now : Int) (h : Option Nat) (a : Address) : Prop :=
  ¬ Beyond db h a → stats.of a = rowsOf (computeAddressStats a (activityOf db a) now)

/-- So is what was computed, and it was computed. -/
structure Computed (db : Db) (now : Int) (h : Option Nat) (a : Address) (st : AddressStats) : Prop where
  some_activity : ∃ activity, st = computeAddressStats a activity now
  fresh : ¬ Beyond db h a → st = computeAddressStats a (activityOf db a) now

def PhaseOk (db : Db) (stats : StatTables) (cursor : Option IndexedHead) : Phase → Prop
  | .idle => True
  | .reading _ head c => cursor = some c ∧ c.blockNumber ≤ upTo head c
  | .recomputing now head c todo => cursor = some c ∧ c.blockNumber ≤ upTo head c ∧ todo.Nodup ∧
      ∀ a ∉ todo, Fresh db stats now (some (upTo head c)) a
  | .loaded now head c batch todo results => cursor = some c ∧ c.blockNumber ≤ upTo head c ∧ (batch ++ todo).Nodup ∧
      (∀ a ∉ batch ++ todo, Fresh db stats now (some (upTo head c)) a) ∧
      ∀ a ∈ batch, Computed db now (some (upTo head c)) a (results a)
  | .scanning _ head => head = none → cursor = none
  | .rebuilding now head addresses todo results => (head = none → cursor = none) ∧ addresses.Nodup ∧
      (∀ a ∉ addresses, Fresh db stats now (head.map (·.blockNumber)) a) ∧
      ∀ a ∈ addresses, a ∉ todo → Computed db now (head.map (·.blockNumber)) a (results a)
  | .finished now h => ∀ a, Fresh db stats now h a

structure Sound (s : State) : Prop where
  inOrder : InOrder s.db
  time : s.time ≤ s.clock
  stored : ∀ n ∈ s.horizons, ∃ e ∈ s.db.events, e.blockNumber = n
  known : ∀ a, ∃ activity, ∃ t ≤ s.time, s.stats.of a = rowsOf (computeAddressStats a activity t)
  cursor : ∀ c ∈ s.cursor, ∀ a, ¬ Beyond s.db (some c.blockNumber) a →
    ∃ t ≤ s.time, s.stats.of a = rowsOf (computeAddressStats a (activityOf s.db a) t)
  phase : PhaseOk s.db s.stats s.cursor s.phase

theorem forall_horizons {p : Nat → Prop} :
    (∀ n ∈ s.horizons, p n) ↔ (∀ c ∈ s.cursor, p c.blockNumber) ∧ ∀ n ∈ s.phase.horizon, p n := by
  unfold State.horizons
  cases s.cursor with
  | none => simp
  | some c => simp

theorem Sound.cursor_stored (hs : Sound s) : ∀ c ∈ s.cursor, ∃ e ∈ s.db.events, e.blockNumber = c.blockNumber :=
  (forall_horizons.1 hs.stored).1

theorem Sound.known_until (hs : Sound s) {t : Int} (ht : s.time ≤ t) (a : Address) :
    ∃ activity, ∃ t' ≤ t, s.stats.of a = rowsOf (computeAddressStats a activity t') := by
  obtain ⟨activity, t', ht', hrows⟩ := hs.known a
  exact ⟨activity, t', ht'.trans ht, hrows⟩

theorem Sound.cursor_until (hs : Sound s) {t : Int} (ht : s.time ≤ t) {c : IndexedHead} (hc : c ∈ s.cursor)
    (hbeyond : ¬ Beyond s.db (some c.blockNumber) a) :
    ∃ t' ≤ t, s.stats.of a = rowsOf (computeAddressStats a (activityOf s.db a) t') := by
  obtain ⟨t', ht', hrows⟩ := hs.cursor c hc a hbeyond
  exact ⟨t', ht'.trans ht, hrows⟩

/-! ## Events and orders -/

theorem Fresh.later (hfresh : Fresh db stats now h a) (hlater : Same db db' a ∨ Beyond db' h a) :
    Fresh db' stats now h a := by
  intro hbeyond
  have hsame := hlater.resolve_right hbeyond
  rw [hsame.activity]
  exact hfresh fun h => hbeyond (hsame.beyond.2 h)

theorem Computed.later (hcomputed : Computed db now h a st) (hlater : Same db db' a ∨ Beyond db' h a) :
    Computed db' now h a st where
  some_activity := hcomputed.some_activity
  fresh hbeyond := by
    have hsame := hlater.resolve_right hbeyond
    rw [hsame.activity]
    exact hcomputed.fresh fun h => hbeyond (hsame.beyond.2 h)

theorem PhaseOk.later {cursor : Option IndexedHead} {phase : Phase} (hphase : PhaseOk db stats cursor phase)
    (hlater : ∀ a, Same db db' a ∨ Beyond db' phase.horizon a) : PhaseOk db' stats cursor phase := by
  cases phase with
  | idle => trivial
  | reading => exact hphase
  | recomputing now head c todo =>
    obtain ⟨hc, hle, hnodup, hfresh⟩ := hphase
    exact ⟨hc, hle, hnodup, fun a ha => (hfresh a ha).later (hlater a)⟩
  | loaded now head c batch todo results =>
    obtain ⟨hc, hle, hnodup, hfresh, hresults⟩ := hphase
    exact ⟨hc, hle, hnodup, fun a ha => (hfresh a ha).later (hlater a), fun a ha => (hresults a ha).later (hlater a)⟩
  | scanning => exact hphase
  | rebuilding now head addresses todo results =>
    obtain ⟨hc, hnodup, hfresh, hresults⟩ := hphase
    exact ⟨hc, hnodup, fun a ha => (hfresh a ha).later (hlater a), fun a ha ht => (hresults a ha ht).later (hlater a)⟩
  | finished now h => exact fun a => (hphase a).later (hlater a)

/-- **A database that goes on beyond the horizons**, wherever it counts for somebody, keeps a run sound. -/
theorem Sound.later (hs : Sound s) (horder : InOrder db') (hevents : ∀ e ∈ s.db.events, e ∈ db'.events)
    (hlater : ∀ a, Same s.db db' a ∨ ∃ b ∈ blocksOf db' a, ∀ n ∈ s.horizons, n < b) : Sound { s with db := db' } where
  inOrder := horder
  time := hs.time
  stored n hn := by
    obtain ⟨e, he, hblock⟩ := hs.stored n hn
    exact ⟨e, hevents e he, hblock⟩
  known := hs.known
  cursor c hc a hbeyond := by
    obtain hsame | ⟨b, hb, hlt⟩ := hlater a
    · obtain ⟨t, ht, hrows⟩ := hs.cursor c hc a fun h => hbeyond (hsame.beyond.2 h)
      exact ⟨t, ht, by rw [hrows, hsame.activity]⟩
    · refine absurd ⟨b, hb, fun n hn => hlt n ?_⟩ hbeyond
      cases hn
      refine List.mem_append_left _ (Option.mem_toList.2 ?_)
      rw [Option.mem_def.1 hc]
      rfl
  phase := by
    refine hs.phase.later fun a => (hlater a).imp_right fun ⟨b, hb, hlt⟩ => ⟨b, hb, fun n hn => hlt n ?_⟩
    exact List.mem_append_right _ (Option.mem_toList.2 hn)

/-- A step whose rows nobody misses: a fill id is settled again only for whom it was settled before, and an order with a
referrer is inserted before a pass has got to a fill of it. -/
def Timely (s : State) : Act → Prop
  | .index events => CoversAll s.db events
  | .insertOrder o => o.referrer ≠ none → o.orderHash ∉ s.db.orders.map (·.orderHash) →
      ∀ f ∈ s.db.fills, o.orderHash ∈ [f.makerOrderHash, f.takerOrderHash] → ∀ n ∈ s.horizons, n < f.blockNumber
  | _ => True

theorem Sound.index (hs : Sound s) {events : List StoredEvent} (htimely : Timely s (.index events))
    (hnew : ∀ e ∈ s.db.events, ∀ e' ∈ events, e.blockNumber < e'.blockNumber)
    (horder : events.Pairwise fun e e' => byChainOrder e.toOrdered e'.toOrdered < 0) :
    Sound { s with db := { s.db with events := s.db.events ++ events } } := by
  refine hs.later ?_ (fun e he => List.mem_append_left _ he) fun a => ?_
  · refine List.pairwise_append.2 ⟨hs.inOrder, horder, fun e he e' he' => ?_⟩
    exact byChainOrder_lt.2 (.inl (hnew e he e' he'))
  · refine (same_index htimely a).imp_right fun ⟨e', he', hblock⟩ => ⟨_, hblock, fun n hn => ?_⟩
    obtain ⟨e, he, rfl⟩ := hs.stored n hn
    exact hnew e he e' he'

theorem Sound.insertOrder (hs : Sound s) {o : OrderRow} (htimely : Timely s (.insertOrder o)) :
    Sound { s with db := { s.db with orders := insertOrder s.db.orders o } } := by
  refine hs.later hs.inOrder (fun _ he => he) fun a => ?_
  refine (same_insertOrder o a).imp_right fun ⟨hnew, hreferrer, f, hf, hhash, hblock⟩ => ⟨_, hblock, ?_⟩
  exact htimely (by rw [hreferrer]; exact Option.some_ne_none a) hnew f hf hhash

/-! ## Passes -/

theorem Sound.wait (hs : Sound s) (ms : Nat) : Sound { s with clock := s.clock + ms } := by
  have htime : s.time ≤ State.time { s with clock := s.clock + ms } := by
    unfold State.time
    cases s.phase.now with
    | none => exact Int.le_add_of_nonneg_right (Int.natCast_nonneg ms)
    | some now => exact le_rfl
  have hclock : State.time { s with clock := s.clock + ms } ≤ s.clock + ms := by
    have hs' := hs.time
    unfold State.time at hs' ⊢
    cases hnow : s.phase.now with
    | none => exact le_rfl
    | some now =>
      rw [hnow] at hs'
      exact hs'.trans (Int.le_add_of_nonneg_right (Int.natCast_nonneg ms))
  exact ⟨hs.inOrder, hclock, hs.stored, hs.known_until htime, fun _ hc _ => hs.cursor_until htime hc, hs.phase⟩

theorem Sound.move (hs : Sound s) {phase : Phase} (htime : s.time ≤ phase.now.getD s.clock)
    (hclock : phase.now.getD s.clock ≤ s.clock) (hstored : ∀ n ∈ phase.horizon, ∃ e ∈ s.db.events, e.blockNumber = n)
    (hphase : PhaseOk s.db s.stats s.cursor phase) : Sound { s with phase := phase } where
  inOrder := hs.inOrder
  time := hclock
  stored := forall_horizons.2 ⟨hs.cursor_stored, hstored⟩
  known := hs.known_until htime
  cursor _ hc _ hbeyond := hs.cursor_until htime hc hbeyond
  phase := hphase

theorem head_stored {head : IndexedHead} (h : indexedHead db = some head) : ∃ e ∈ db.events, e.blockNumber = head.blockNumber := by
  obtain ⟨e, he, rfl⟩ := Option.map_eq_some_iff.1 h
  exact ⟨e, List.argmax_mem he, rfl⟩

theorem le_head {head : IndexedHead} {e : StoredEvent} (h : indexedHead db = some head) (he : e ∈ db.events) :
    e.blockNumber ≤ head.blockNumber := by
  obtain ⟨e', he', rfl⟩ := Option.map_eq_some_iff.1 h
  exact List.le_of_mem_argmax (f := fun e : StoredEvent => e.blockNumber) he he'

theorem no_head (h : indexedHead db = none) : db.events = [] := List.argmax_eq_none.1 (Option.map_eq_none_iff.1 h)

theorem Sound.tick (hs : Sound s) {c : IndexedHead} (hc : s.cursor = some c) :
    Sound { s with phase := .reading s.clock (indexedHead s.db) c } := by
  obtain ⟨e, he, hblock⟩ := hs.cursor_stored c hc
  cases hhead : indexedHead s.db with
  | none =>
    rw [no_head hhead] at he
    exact absurd he List.not_mem_nil
  | some head =>
    refine hs.move hs.time le_rfl (fun n hn => ?_) ⟨hc, ?_⟩
    · cases hn
      exact head_stored hhead
    · rw [← hblock]
      exact le_head hhead he

theorem Sound.scanning (hs : Sound s) : Sound { s with phase := .scanning s.clock (indexedHead s.db) } := by
  refine hs.move hs.time le_rfl (fun n hn => ?_) fun hhead => ?_
  · obtain ⟨head, hhead, rfl⟩ := Option.map_eq_some_iff.1 hn
    exact head_stored hhead
  · by_contra hcursor
    obtain ⟨c, hc⟩ := Option.ne_none_iff_exists'.1 hcursor
    obtain ⟨e, he, -⟩ := hs.cursor_stored c hc
    rw [no_head hhead] at he
    exact List.not_mem_nil he

theorem Sound.at (hs : Sound s) {phase : Phase} (hphase : s.phase = phase) :
    s.time = phase.now.getD s.clock ∧ (∀ n ∈ phase.horizon, ∃ e ∈ s.db.events, e.blockNumber = n) ∧
      PhaseOk s.db s.stats s.cursor phase := by
  subst hphase
  exact ⟨rfl, (forall_horizons.1 hs.stored).2, hs.phase⟩

/-- **Whoever is not listed has the rows of this pass**: nothing touched it since the cursor, and its windows stand. -/
theorem Sound.list (hs : Sound s) {now : Int} {head : Option IndexedHead} {c : IndexedHead} {addresses : List Address}
    (hphase : s.phase = .reading now head c) (hnodup : addresses.Nodup)
    (hmem : ∀ a, a ∈ addresses ↔ a ∈ dirtyAddressesSince s.db c.blockNumber (upTo head c) ∨
      a ∈ addressesWithStaleWindow s.stats (rolling now)) :
    Sound { s with phase := .recomputing now head c addresses } := by
  obtain ⟨htime, hstored, hc, hle⟩ := hs.at hphase
  refine hs.move htime.le (htime.ge.trans hs.time) hstored ⟨hc, hle, hnodup, fun a ha hbeyond => ?_⟩
  rw [hmem, not_or] at ha
  obtain ⟨t, ht, hrows⟩ := hs.cursor c hc a (not_beyond hbeyond ha.1)
  exact not_stale (ht.trans htime.le) hrows ha.2

theorem computed_of_loads (hs : Sound s) {addresses : List Address} {activity : Address → AddressActivity}
    (hloads : Loads s.db addresses activity) (now : Int) (h : Option Nat) (ha : a ∈ addresses) :
    Computed s.db now h a (computeAddressStats a (activity a) now) where
  some_activity := ⟨_, rfl⟩
  fresh _ := (computeAddressStats_perm (hloads a ha) (activity_distinct hs.inOrder a)).symm

theorem Sound.load (hs : Sound s) {now : Int} {head : Option IndexedHead} {c : IndexedHead} {todo : List Address}
    {batchSize : Nat} {activity : Address → AddressActivity} (hphase : s.phase = .recomputing now head c todo)
    (hloads : Loads s.db (todo.take batchSize) activity) :
    Sound { s with
      phase := .loaded now head c (todo.take batchSize) (todo.drop batchSize)
        (fun a => computeAddressStats a (activity a) now) } := by
  obtain ⟨htime, hstored, hc, hle, hnodup, hfresh⟩ := hs.at hphase
  refine hs.move htime.le (htime.ge.trans hs.time) hstored ⟨hc, hle, ?_, ?_, fun a ha => computed_of_loads hs hloads now _ ha⟩
  · rw [List.take_append_drop]
    exact hnodup
  · rw [List.take_append_drop]
    exact hfresh

theorem of_write {batch : List Address} {results : Address → AddressStats} (hnodup : batch.Nodup)
    (hresults : ∀ a ∈ batch, Computed db now h a (results a)) (a : Address) :
    (replaceAddressStats stats batch results).of a = if a ∈ batch then rowsOf (results a) else stats.of a :=
  of_replace hnodup (fun a ha => (hresults a ha).some_activity.imp fun _ heq => ⟨now, heq⟩) a

theorem Sound.known_write (hs : Sound s) {batch : List Address} {results : Address → AddressStats} (hnodup : batch.Nodup)
    (hresults : ∀ a ∈ batch, Computed db now h a (results a)) (htime : s.time ≤ now) (a : Address) :
    ∃ activity, ∃ t ≤ now, (replaceAddressStats s.stats batch results).of a = rowsOf (computeAddressStats a activity t) := by
  rw [of_write hnodup hresults]
  split
  · obtain ⟨activity, heq⟩ := (hresults a ‹_›).some_activity
    exact ⟨activity, now, le_rfl, by rw [heq]⟩
  · exact hs.known_until htime a

theorem Fresh.write {batch : List Address} {results : Address → AddressStats} (hnodup : batch.Nodup)
    (hresults : ∀ a ∈ batch, Computed db now h a (results a)) (hfresh : a ∉ batch → Fresh db stats now h a) :
    Fresh db (replaceAddressStats stats batch results) now h a := by
  intro hbeyond
  rw [of_write hnodup hresults]
  split
  · rw [(hresults a ‹_›).fresh hbeyond]
  · exact hfresh ‹_› hbeyond

theorem Sound.write (hs : Sound s) {now : Int} {head : Option IndexedHead} {c : IndexedHead} {batch todo : List Address}
    {results : Address → AddressStats} (hphase : s.phase = .loaded now head c batch todo results) :
    Sound { s with
      stats := replaceAddressStats s.stats batch results
      phase := .recomputing now head c todo } := by
  obtain ⟨htime, hstored, hc, hle, hnodup, hfresh, hresults⟩ := hs.at hphase
  obtain ⟨hbatch, htodo, -⟩ := List.nodup_append'.1 hnodup
  refine ⟨hs.inOrder, htime.ge.trans hs.time, forall_horizons.2 ⟨hs.cursor_stored, hstored⟩,
    hs.known_write hbatch hresults htime.le, fun c' hc' a hbeyond => ?_,
    hc, hle, htodo, fun a ha => Fresh.write hbatch hresults fun ha' => hfresh a ?_⟩
  · simp only
    rw [of_write hbatch hresults]
    split
    · -- beyond the pass is beyond the cursor
      have hpass : ¬ Beyond s.db (some (upTo head c)) a := fun ⟨b, hb, hlt⟩ => hbeyond ⟨b, hb, fun n hn => by
        obtain rfl : c = c' := Option.some.inj (hc.symm.trans hc')
        cases hn
        exact hle.trans_lt (hlt _ rfl)⟩
      exact ⟨now, le_rfl, by rw [(hresults a ‹_›).fresh hpass]⟩
    · exact hs.cursor_until htime.le hc' hbeyond
  · rw [List.mem_append, not_or]
    exact ⟨ha', ha⟩

theorem Sound.finish (hs : Sound s) {now : Int} {head : Option IndexedHead} {c : IndexedHead}
    (hphase : s.phase = .recomputing now head c []) :
    Sound { s with
      cursor := if head.all (fun h => decide (h.blockNumber = c.blockNumber)) then s.cursor else head
      phase := .finished now (some (upTo head c)) } := by
  obtain ⟨htime, hstored, hc, hle, -, hfresh⟩ := hs.at hphase
  have hcursor : ∀ c' ∈ (if head.all (fun h => decide (h.blockNumber = c.blockNumber)) then s.cursor else head),
      c'.blockNumber = upTo head c := by
    intro c' hc'
    cases head with
    | none =>
      rw [Option.all_none, if_pos rfl, hc] at hc'
      cases hc'
      rfl
    | some head =>
      simp only [Option.all_some, decide_eq_true_eq] at hc'
      split at hc'
      · rename_i hblock
        rw [hc] at hc'
        cases hc'
        exact hblock.symm
      · cases hc'
        rfl
  refine ⟨hs.inOrder, htime.ge.trans hs.time, forall_horizons.2 ⟨fun c' hc' => ?_, hstored⟩, hs.known_until htime.le,
    fun c' hc' a hbeyond => ?_, fun a => hfresh a List.not_mem_nil⟩
  · exact hstored _ (congrArg some (hcursor c' hc').symm)
  · rw [hcursor c' hc'] at hbeyond
    exact ⟨now, le_rfl, hfresh a List.not_mem_nil hbeyond⟩

theorem Sound.scan (hs : Sound s) {now : Int} {head : Option IndexedHead} {addresses : List Address}
    (results : Address → AddressStats) (hphase : s.phase = .scanning now head) (hnodup : addresses.Nodup)
    (hmem : ∀ a, a ∈ addresses ↔ a ∈ allKnownAddresses s.db s.stats) :
    Sound { s with phase := .rebuilding now head addresses addresses results } := by
  obtain ⟨htime, hstored, hhead⟩ := hs.at hphase
  refine hs.move htime.le (htime.ge.trans hs.time) hstored ⟨hhead, hnodup, fun a ha _ => ?_, fun a ha hnot => absurd ha hnot⟩
  rw [hmem] at ha
  exact of_unknown ha now

theorem Sound.loadAll (hs : Sound s) {now : Int} {head : Option IndexedHead} {addresses todo : List Address}
    {results : Address → AddressStats} {batchSize : Nat} {activity : Address → AddressActivity}
    (hphase : s.phase = .rebuilding now head addresses todo results) (hloads : Loads s.db (todo.take batchSize) activity) :
    Sound { s with
      phase := .rebuilding now head addresses (todo.drop batchSize)
        (fun a => if a ∈ todo.take batchSize then computeAddressStats a (activity a) now else results a) } := by
  obtain ⟨htime, hstored, hhead, hnodup, hfresh, hresults⟩ := hs.at hphase
  refine hs.move htime.le (htime.ge.trans hs.time) hstored ⟨hhead, hnodup, hfresh, fun a ha hdrop => ?_⟩
  simp only
  split
  · exact computed_of_loads hs hloads now _ ‹_›
  · rename_i htake
    refine hresults a ha fun htodo => ?_
    rw [← List.take_append_drop batchSize todo, List.mem_append] at htodo
    exact htodo.elim htake hdrop

theorem Sound.writeAll (hs : Sound s) {now : Int} {head : Option IndexedHead} {addresses : List Address}
    {results : Address → AddressStats} (hphase : s.phase = .rebuilding now head addresses [] results) :
    Sound { s with
      stats := replaceAddressStats s.stats addresses results
      cursor := head.or s.cursor
      phase := .finished now (head.map (·.blockNumber)) } := by
  obtain ⟨htime, hstored, hhead, hnodup, hfresh, hresults⟩ := hs.at hphase
  have hall : ∀ a ∈ addresses, Computed s.db now (head.map (·.blockNumber)) a (results a) := fun a ha =>
    hresults a ha List.not_mem_nil
  have hcursor : head.or s.cursor = head := by
    cases hh : head with
    | none => exact hhead hh
    | some head => rfl
  rw [hcursor]
  have hfinished : ∀ a, Fresh s.db (replaceAddressStats s.stats addresses results) now (head.map (·.blockNumber)) a :=
    fun a => Fresh.write hnodup hall (hfresh a)
  refine ⟨hs.inOrder, htime.ge.trans hs.time, forall_horizons.2 ⟨fun c hc => ?_, hstored⟩,
    hs.known_write hnodup hall htime.le, fun c hc a hbeyond => ?_, hfinished⟩
  · obtain rfl := Option.mem_def.1 hc
    exact hstored _ rfl
  · obtain rfl := Option.mem_def.1 hc
    exact ⟨now, le_rfl, hfinished a hbeyond⟩

/-- **Every timely step keeps a run sound.** -/
theorem Sound.step (hs : Sound s) {l : Act} (htimely : Timely s l) (hstep : Step s l s') : Sound s' := by
  cases hstep with
  | wait => exact hs.wait _
  | index hnew horder => exact hs.index htimely hnew horder
  | insertOrder => exact hs.insertOrder htimely
  | tick _ hcursor _ => exact hs.tick hcursor
  | restart _ _ => exact hs.scanning
  | rebuild _ => exact hs.scanning
  | list hphase hnodup hmem => exact hs.list hphase hnodup hmem
  | load hphase hloads => exact hs.load hphase hloads
  | write hphase => exact hs.write hphase
  | finish hphase => exact hs.finish hphase
  | scan hphase hnodup hmem => exact hs.scan _ hphase hnodup hmem
  | loadAll hphase hloads => exact hs.loadAll hphase hloads
  | writeAll hphase => exact hs.writeAll hphase
  | crash => exact hs.move hs.time le_rfl (fun n hn => by cases hn) trivial

theorem State.Fresh.sound (hf : s.Fresh) : Sound s := by
  have hnone : s.horizons = [] := by
    unfold State.horizons
    rw [hf.cursor, hf.phase]
    rfl
  refine ⟨?_, ?_, fun n hn => ?_, fun a => ⟨emptyActivity, s.time, le_rfl, ?_⟩, fun c hc => ?_, ?_⟩
  · unfold InOrder
    rw [hf.events]
    exact List.Pairwise.nil
  · unfold State.time
    rw [hf.phase]
    exact le_rfl
  · rw [hnone] at hn
    exact absurd hn List.not_mem_nil
  · rw [compute_empty, hf.stats]
    rfl
  · rw [hf.cursor] at hc
    cases hc
  · rw [hf.phase]
    trivial

theorem sound_run {s₀ : State} {ls : List Act} (h₀ : machine.init s₀) (h : Run (machine.restrict Timely) s₀ ls s) : Sound s :=
  Run.preserves (M := machine.restrict Timely) Sound (fun _ _ _ hs hstep => hs.step hstep.1 hstep.2) h
    (State.Fresh.sound h₀)

/-! ## Against a full recompute -/

theorem of_fullRecompute (hs : Sound s) {activity : Address → AddressActivity}
    (hloads : ∀ a, (activityOf s.db a).Perm (activity a)) (now : Int) (a : Address) :
    (fullRecompute now activity s.db s.stats).of a = rowsOf (computeAddressStats a (activityOf s.db a) now) := by
  have hnodup : (allKnownAddresses s.db s.stats).Nodup := List.nodup_dedup _
  unfold fullRecompute
  rw [of_replace hnodup fun a _ => ⟨_, _, rfl⟩]
  split
  · rw [computeAddressStats_perm (hloads a) (activity_distinct hs.inOrder a)]
  · exact of_unknown ‹_› now

theorem Sound.flagged (hs : Sound s) (hnow : s.clock ≤ now) {r : TraderStatRow} (hr : r ∈ s.stats.traderStats)
    (hperiod : r.period ≠ .all) (hrolled : r.periodStart ≠ windowStart r.period now) :
    r.address ∈ addressesWithStaleWindow s.stats (rolling now) := by
  obtain ⟨activity, t, ht, hrows⟩ := hs.known r.address
  have hrow : r ∈ (computeAddressStats r.address activity t).traderStats := by
    have hunder : r ∈ (s.stats.of r.address).1 := Keyed.mem_under.2 ⟨hr, rfl⟩
    rw [hrows] at hunder
    exact hunder
  obtain ⟨-, hstart, hactive⟩ := mem_traderStats hrow
  refine Stats.flagged (ht.trans (hs.time.trans hnow)) hrows (fun hday => hrolled ?_) ?_
  · rw [hstart, windowStart_day hday]
  · rw [← Bool.not_eq_false]
    intro hquiet
    rw [active_mono (month_le hperiod) hquiet] at hactive
    cases hactive

end Invariant

/-! ## Runs -/

theorem AddressActivity.Perm.refl (a : AddressActivity) : a.Perm a := ⟨.refl _, .refl _, .refl _, .refl _, .refl _⟩

theorem loads_activityOf (db : Db) (addresses : List Address) : Loads db addresses (activityOf db) := fun _ _ => .refl _

namespace Sample

def start : State := ⟨⟨[], []⟩, ⟨[], []⟩, none, 100 * DAY_MS, .idle⟩

theorem start_fresh : start.Fresh := ⟨rfl, rfl, rfl, rfl⟩

/-- A fill under id 1, two hours before the start. -/
def settled (blockNumber : Nat) (maker taker : Address) : StoredEvent :=
  ⟨⟨blockNumber, 0, 100 * DAY_MS - 7200000⟩, Fin.ofNat (2 ^ 256) blockNumber,
    .fill 1 maker taker 21 22 (4 * 10 ^ 18) (100 * 10 ^ 18)⟩

def stored : State := { start with db := ⟨[settled 1 11 12], []⟩ }

def computed (db : Db) (now : Int) (a : Address) : AddressStats := computeAddressStats a (activityOf db a) now

/-- What the first pass leaves. -/
def rebuilt : State :=
  { stored with
    stats := replaceAddressStats ⟨[], []⟩ [11, 12] fun a =>
      if a ∈ ([11, 12] : List Address) then computed stored.db (100 * DAY_MS) a else ⟨[], none⟩
    cursor := some ⟨1, 1⟩
    phase := .finished (100 * DAY_MS) (some 1) }

theorem rebuilt_run : ∃ ls, Run (machine.restrict Timely) start ls rebuilt := by
  have h : Run (machine.restrict Timely) start _ stored := Run.nil.snoc (l := Act.index [settled 1 11 12])
    ⟨⟨fun _ _ g hg => absurd hg List.not_mem_nil, trivial⟩,
      Step.index (fun e he => absurd he List.not_mem_nil) (List.pairwise_singleton _ _)⟩
  have h : Run (machine.restrict Timely) start _ { stored with phase := .scanning (100 * DAY_MS) (some ⟨1, 1⟩) } :=
    h.snoc (l := Act.tick) ⟨trivial, Step.restart trivial fun c hc => by cases hc⟩
  have h : Run (machine.restrict Timely) start _ { stored with
      phase := .rebuilding (100 * DAY_MS) (some ⟨1, 1⟩) [11, 12] [11, 12] fun _ => ⟨[], none⟩ } :=
    h.snoc (l := Act.scan [11, 12]) ⟨trivial, Step.scan rfl (by decide) fun a => Iff.rfl⟩
  have h := h.snoc (l := Act.load 2) ⟨trivial, Step.loadAll rfl (loads_activityOf _ _)⟩
  have h := h.snoc (l := Act.write) ⟨trivial, Step.writeAll rfl⟩
  exact ⟨_, h⟩

/-- Forty days later. -/
def later : State := { rebuilt with clock := 140 * DAY_MS, phase := .reading (140 * DAY_MS) (some ⟨1, 1⟩) ⟨1, 1⟩ }

end Sample

namespace Sample

/-- The id is settled again, between others. -/
def resettled : State := { rebuilt with db := ⟨[settled 1 11 12, settled 2 13 14], []⟩ }

def reading : State := { resettled with phase := .reading (100 * DAY_MS) (some ⟨2, 2⟩) ⟨1, 1⟩ }

end Sample

end Kryon.Stats
