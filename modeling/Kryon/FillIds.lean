import Kryon.MatcherDb
import Kryon.Lib.Numbering
import Mathlib.Data.Set.Function
/-!
# FillIds — when the ids of a batch are new to the fill table

A fill's id is derived from its shape (the two orders, the size and the price) and a sequence, which counts the rows of that
shape.  The count is free exactly when no row of the shape has a sequence at or above it (`Compact`): rows that come and go
at the top keep it so, a row released below another does not.
-/
namespace Kryon.Matcher

open Matching (EngineMatch)

/-- What a fill trades: both orders, the size and the price. -/
structure Shape where
  makerOrderHash : Bytes32
  takerOrderHash : Bytes32
  size : Int
  price : Int
deriving DecidableEq

def FillRow.shape (r : FillRow) : Shape := ⟨r.makerOrderHash, r.takerOrderHash, r.size, r.price⟩

def PlannedFill.shape (f : PlannedFill) : Shape := ⟨f.makerOrderHash, f.takerOrderHash, f.size, f.price⟩

def SettledFill.shape (e : SettledFill) : Shape := ⟨e.makerOrderHash, e.takerOrderHash, e.size, e.price⟩

def shapeKey (m : EngineMatch) : Shape := ⟨m.maker.orderHash, m.taker.orderHash, m.size, m.price⟩

/-- How many rows there are of a shape, in any status. -/
def countRows (rows : List FillRow) (s : Shape) : Nat := rows.countP fun r => r.shape = s

/-- The rows already recorded for each shape of the matches. -/
def priorFillCounts (db : Db) (ms : List EngineMatch) (s : Shape) : Nat :=
  if s.makerOrderHash ∈ ms.map (·.maker.orderHash) ∧ s.takerOrderHash ∈ ms.map (·.taker.orderHash) then
    countRows db.fills s
  else 0

-- A fill id is the hash of its shape and its sequence.
variable (deriveFillId : Shape → Nat → Bytes32)

/-- One match of a batch: its fill is added unless its id is there. -/
def addFill (db : Db) (prior : Shape → Nat) (out : List PlannedFill) (m : EngineMatch) :
    Except Bytes32 (List PlannedFill) :=
  match loadSignedOrder db m.maker.orderHash with
  | none => .error m.maker.orderHash
  | some maker =>
    match loadSignedOrder db m.taker.orderHash with
    | none => .error m.taker.orderHash
    | some taker =>
      let fillId := deriveFillId (shapeKey m) (prior (shapeKey m) + m.sequence)
      if fillId ∈ out.map (·.fillId) then .ok out
      else .ok (out ++ [{
        fillId := fillId
        maker := maker.order
        makerSignature := maker.signature
        taker := taker.order
        takerSignature := taker.signature
        size := m.size
        price := m.price
        marketId := maker.order.marketId
        makerOrderHash := m.maker.orderHash
        takerOrderHash := m.taker.orderHash
        takerIsBuy := taker.order.isLong
        notional := m.notional }])

/-- Matches to fills; a match whose order is missing is an error. -/
def buildFills (db : Db) (ms : List EngineMatch) : Except Bytes32 (List PlannedFill) :=
  ms.foldlM (addFill deriveFillId db (priorFillCounts db ms)) []

variable {deriveFillId} {K : Set (Shape × Nat)} {db db' : Db} {ms : List EngineMatch} {m : EngineMatch}
  {fills : List PlannedFill} {s : Shape} {k : Nat}

/-! ## What a build makes -/

/-- The key of a match in a build: its shape and its sequence. -/
def buildKey (db : Db) (m : EngineMatch) : Shape × Nat := (shapeKey m, countRows db.fills (shapeKey m) + m.sequence)

theorem prior_eq (hm : m ∈ ms) : priorFillCounts db ms (shapeKey m) = countRows db.fills (shapeKey m) :=
  if_pos ⟨List.mem_map.2 ⟨m, hm, rfl⟩, List.mem_map.2 ⟨m, hm, rfl⟩⟩

theorem addFill_ok {prior : Shape → Nat} {out : List PlannedFill}
    (h : addFill deriveFillId db prior out m = .ok fills) : loadSignedOrder db m.maker.orderHash ≠ none ∧
      loadSignedOrder db m.taker.orderHash ≠ none ∧
      (deriveFillId (shapeKey m) (prior (shapeKey m) + m.sequence) ∈ out.map (·.fillId) ∧ fills = out ∨
        deriveFillId (shapeKey m) (prior (shapeKey m) + m.sequence) ∉ out.map (·.fillId) ∧
          ∃ f : PlannedFill, fills = out ++ [f] ∧ f.shape = shapeKey m ∧
            f.fillId = deriveFillId (shapeKey m) (prior (shapeKey m) + m.sequence)) := by
  unfold addFill at h
  cases hmaker : loadSignedOrder db m.maker.orderHash with
  | none =>
    rw [hmaker] at h
    exact absurd h (by simp)
  | some maker =>
    cases htaker : loadSignedOrder db m.taker.orderHash with
    | none =>
      rw [hmaker, htaker] at h
      exact absurd h (by simp)
    | some taker =>
      rw [hmaker, htaker] at h
      simp only at h
      refine ⟨by simp, by simp, ?_⟩
      split_ifs at h with hseen
      · exact Or.inl ⟨hseen, (Except.ok.inj h).symm⟩
      · exact Or.inr ⟨hseen, _, (Except.ok.inj h).symm, rfl, rfl⟩

theorem foldl_addFill {prior : Shape → Nat} : ∀ (ms : List EngineMatch) (out fills : List PlannedFill),
    (out.map (·.fillId)).Nodup → ms.foldlM (addFill deriveFillId db prior) out = .ok fills →
      (fills.map (·.fillId)).Nodup ∧ (∀ f ∈ out, f ∈ fills) ∧
      (∀ f ∈ fills, f ∈ out ∨ ∃ m ∈ ms, f.shape = shapeKey m ∧
        f.fillId = deriveFillId (shapeKey m) (prior (shapeKey m) + m.sequence)) ∧
      ∀ m ∈ ms, deriveFillId (shapeKey m) (prior (shapeKey m) + m.sequence) ∈ fills.map (·.fillId)
  | [], out, fills, hnodup, h => by
    rw [List.foldlM_nil] at h
    cases h
    exact ⟨hnodup, fun f hf => hf, fun f hf => Or.inl hf, fun m hm => absurd hm List.not_mem_nil⟩
  | m :: ms, out, fills, hnodup, h => by
    rw [List.foldlM_cons, Program.bind_ok_iff] at h
    obtain ⟨next, hnext, h⟩ := h
    obtain ⟨-, -, hcases⟩ := addFill_ok hnext
    have hstep : (next.map (·.fillId)).Nodup ∧ (∀ f ∈ out, f ∈ next) ∧
        (∀ f ∈ next, f ∈ out ∨ f.shape = shapeKey m ∧
          f.fillId = deriveFillId (shapeKey m) (prior (shapeKey m) + m.sequence)) ∧
        deriveFillId (shapeKey m) (prior (shapeKey m) + m.sequence) ∈ next.map (·.fillId) := by
      rcases hcases with ⟨hseen, rfl⟩ | ⟨hnew, f, rfl, hshape, hid⟩
      · exact ⟨hnodup, fun f hf => hf, fun f hf => Or.inl hf, hseen⟩
      · rw [List.map_append, List.map_singleton, hid]
        refine ⟨?_, fun f hf => List.mem_append_left _ hf, fun g hg => ?_, List.mem_append_right _ (List.mem_singleton_self _)⟩
        · rw [List.nodup_append]
          refine ⟨hnodup, List.nodup_singleton _, fun a ha b hb => ?_⟩
          rw [List.mem_singleton.1 hb]
          exact fun heq => hnew (heq ▸ ha)
        · rcases List.mem_append.1 hg with hg | hg
          · exact Or.inl hg
          · rw [List.mem_singleton.1 hg]
            exact Or.inr ⟨hshape, hid⟩
    obtain ⟨hnodup', hkept, hfrom, hin⟩ := hstep
    obtain ⟨hfinal, hkept', hfrom', hin'⟩ := foldl_addFill ms next fills hnodup' h
    refine ⟨hfinal, fun f hf => hkept' f (hkept f hf), fun f hf => ?_, fun m' hm' => ?_⟩
    · rcases hfrom' f hf with hf | ⟨m', hm', hf⟩
      · rcases hfrom f hf with hf | hf
        · exact Or.inl hf
        · exact Or.inr ⟨m, List.mem_cons_self, hf⟩
      · exact Or.inr ⟨m', List.mem_cons_of_mem _ hm', hf⟩
    · rcases List.mem_cons.1 hm' with rfl | hm'
      · obtain ⟨f, hf, hid⟩ := List.mem_map.1 hin
        exact List.mem_map.2 ⟨f, hkept' f hf, hid⟩
      · exact hin' m' hm'

/-- **The ids of a build are distinct, and are those of its matches' keys.** -/
theorem buildFills_ok (h : buildFills deriveFillId db ms = .ok fills) : (fills.map (·.fillId)).Nodup ∧
    (∀ f ∈ fills, ∃ m ∈ ms, f.shape = shapeKey m ∧ f.fillId = deriveFillId (buildKey db m).1 (buildKey db m).2) ∧
    ∀ m ∈ ms, deriveFillId (buildKey db m).1 (buildKey db m).2 ∈ fills.map (·.fillId) := by
  obtain ⟨hnodup, -, hfrom, hin⟩ := foldl_addFill ms [] fills List.nodup_nil h
  refine ⟨hnodup, fun f hf => ?_, fun m hm => ?_⟩
  · obtain ⟨m, hm, hshape, hid⟩ := (hfrom f hf).resolve_left List.not_mem_nil
    rw [prior_eq hm] at hid
    exact ⟨m, hm, hshape, hid⟩
  · have hmem := hin m hm
    rwa [prior_eq hm] at hmem

theorem foldl_addFill_known {prior : Shape → Nat} : ∀ (ms : List EngineMatch) (out fills : List PlannedFill),
    ms.foldlM (addFill deriveFillId db prior) out = .ok fills →
      ∀ m ∈ ms, loadSignedOrder db m.maker.orderHash ≠ none ∧ loadSignedOrder db m.taker.orderHash ≠ none
  | [], _, _, _ => fun _ hm => absurd hm List.not_mem_nil
  | m :: ms, out, fills, h => by
    rw [List.foldlM_cons, Program.bind_ok_iff] at h
    obtain ⟨next, hnext, h⟩ := h
    obtain ⟨hmaker, htaker, -⟩ := addFill_ok hnext
    intro m' hm'
    rcases List.mem_cons.1 hm' with rfl | hm'
    · exact ⟨hmaker, htaker⟩
    · exact foldl_addFill_known ms next fills h m' hm'

/-! ## Fresh ids -/

/-- A reservation of distinct ids that are not in the table inserts a row for each. -/
theorem persist_fresh (createdAt : Int) : ∀ (fills : List PlannedFill) (rows : List FillRow),
    (fills.map (·.fillId)).Nodup → (∀ f ∈ fills, f.fillId ∉ rows.map (·.fillId)) →
      fills.foldl (insertPending createdAt) rows = rows ++ fills.map (pendingRow · createdAt)
  | [], rows, _, _ => (List.append_nil rows).symm
  | f :: fills, rows, hnodup, hfresh => by
    rw [List.map_cons, List.nodup_cons] at hnodup
    have hf : insertPending createdAt rows f = rows ++ [pendingRow f createdAt] := if_neg (hfresh f List.mem_cons_self)
    rw [List.foldl_cons, hf, persist_fresh createdAt fills _ hnodup.2, List.map_cons, List.append_assoc]
    · rfl
    · intro g hg hmem
      rw [List.map_append, List.mem_append, List.map_singleton, List.mem_singleton] at hmem
      rcases hmem with hmem | hmem
      · exact hfresh g (List.mem_cons_of_mem _ hg) hmem
      · exact hnodup.1 (List.mem_map.2 ⟨g, hg, hmem⟩)

/-- Every build on the table has distinct ids that are not in it, so that a reservation inserts every row. -/
def Fresh (deriveFillId : Shape → Nat → Bytes32) (K : Set (Shape × Nat)) (db : Db) : Prop :=
  ∀ ms fills, (∀ m ∈ ms, buildKey db m ∈ K) → buildFills deriveFillId db ms = .ok fills →
    (fills.map (·.fillId)).Nodup ∧ (∀ f ∈ fills, f.fillId ∉ db.fills.map (·.fillId)) ∧
      ∀ createdAt, (persistPendingFills db createdAt fills).fills = db.fills ++ fills.map (pendingRow · createdAt)

/-- A sequence that is in the table is below the number of rows of its shape. -/
def Compact (deriveFillId : Shape → Nat → Bytes32) (K : Set (Shape × Nat)) (db : Db) : Prop :=
  ∀ s k, (s, k) ∈ K → loadSignedOrder db s.makerOrderHash ≠ none → loadSignedOrder db s.takerOrderHash ≠ none →
    deriveFillId s k ∈ db.fills.map (·.fillId) → k < countRows db.fills s

theorem loadSignedOrder_hash {h : Bytes32} {o : OrderRow} (ho : loadSignedOrder db h = some o) : o.orderHash = h := by
  unfold loadSignedOrder at ho
  have hfound := List.find?_some ho
  exact of_decide_eq_true hfound

/-- **Builds are fresh iff the table is compact.** -/
theorem fresh_iff : Fresh deriveFillId K db ↔ Compact deriveFillId K db := by
  constructor
  · intro hfresh s k hK hmaker htaker hmem
    by_contra hge
    rw [not_lt] at hge
    obtain ⟨maker, hmaker⟩ := Option.ne_none_iff_exists'.1 hmaker
    obtain ⟨taker, htaker⟩ := Option.ne_none_iff_exists'.1 htaker
    -- The match of the shape whose sequence the row has.
    let m : EngineMatch :=
      ⟨toEngineOrder db maker.order.marketId maker, toEngineOrder db taker.order.marketId taker, s.size, s.price, 0,
        k - countRows db.fills s⟩
    have hmhash : m.maker.orderHash = s.makerOrderHash := loadSignedOrder_hash hmaker
    have hthash : m.taker.orderHash = s.takerOrderHash := loadSignedOrder_hash htaker
    have hshape : shapeKey m = s := by rw [shapeKey, hmhash, hthash]
    have hkey : buildKey db m = (s, k) := by
      rw [buildKey, hshape]
      exact Prod.ext rfl (Nat.add_sub_of_le hge)
    have hbuild : ∃ fills, buildFills deriveFillId db [m] = .ok fills := by
      unfold buildFills
      simp only [List.foldlM_cons, List.foldlM_nil, bind_pure]
      unfold addFill
      rw [hmhash, hthash, hmaker, htaker]
      exact ⟨_, if_neg List.not_mem_nil⟩
    obtain ⟨fills, hbuild⟩ := hbuild
    have hone : ∀ m' ∈ [m], buildKey db m' ∈ K := by
      intro m' hm'
      rw [List.mem_singleton.1 hm', hkey]
      exact hK
    have hnew := (hfresh [m] fills hone hbuild).2.1
    obtain ⟨f, hf, hid⟩ := List.mem_map.1 ((buildFills_ok hbuild).2.2 m (List.mem_singleton_self m))
    rw [hkey] at hid
    exact hnew f hf (hid ▸ hmem)
  · intro hcompact ms fills hK hbuild
    obtain ⟨hnodup, hfrom, -⟩ := buildFills_ok hbuild
    have hnew : ∀ f ∈ fills, f.fillId ∉ db.fills.map (·.fillId) := by
      intro f hf hmem
      obtain ⟨m, hm, -, hid⟩ := hfrom f hf
      obtain ⟨hmaker, htaker⟩ := foldl_addFill_known ms [] fills hbuild m hm
      exact absurd (hcompact _ _ (hK m hm) hmaker htaker (hid ▸ hmem)) (by simp)
    exact ⟨hnodup, hnew, fun createdAt => persist_fresh createdAt fills db.fills hnodup hnew⟩

/-! ## Numbered tables -/

/-- What names a row: its id and its shape. -/
def keysOf (rows : List FillRow) : List (Bytes32 × Shape) := rows.map fun r => (r.fillId, r.shape)

theorem keysOf_fst (rows : List FillRow) : (keysOf rows).map (·.1) = rows.map (·.fillId) := List.map_map

theorem countRows_eq (rows : List FillRow) (s : Shape) : countRows rows s = (keysOf rows).countP fun e => e.2 = s := by
  rw [keysOf, List.countP_map]
  rfl

/-- The rows are the numbered entries of `T`, each under the id of its key. -/
structure Names (deriveFillId : Shape → Nat → Bytes32) (K : Set (Shape × Nat)) (rows : List (Bytes32 × Shape))
    (T : Finset (Shape × Nat)) : Prop where
  keys : ∀ x ∈ T, x ∈ K
  nodup : (rows.map (·.1)).Nodup
  named : ∀ e ∈ rows, ∃ k, (e.2, k) ∈ T ∧ e.1 = deriveFillId e.2 k
  entries : ∀ x ∈ T, (deriveFillId x.1 x.2, x.1) ∈ rows

section Numbered

variable {rows rows' : List (Bytes32 × Shape)} {T : Finset (Shape × Nat)} {id : Bytes32}

theorem names_nil : Names deriveFillId K [] ∅ :=
  ⟨fun _ hx => absurd hx (Finset.notMem_empty _), List.nodup_nil, fun _ he => absurd he List.not_mem_nil,
    fun _ hx => absurd hx (Finset.notMem_empty _)⟩

variable (hK : Set.InjOn (fun x : Shape × Nat => deriveFillId x.1 x.2) K)
include hK

theorem Names.mem (hn : Names deriveFillId K rows T) (hk : (s, k) ∈ K) (hid : deriveFillId s k ∈ rows.map (·.1)) :
    (s, k) ∈ T := by
  obtain ⟨e, he, heq⟩ := List.mem_map.1 hid
  obtain ⟨k', hmem, hid'⟩ := hn.named e he
  have hsame := hK (hn.keys _ hmem) hk (hid'.symm.trans heq)
  exact hsame ▸ hmem

theorem Names.count (hn : Names deriveFillId K rows T) (s : Shape) :
    (rows.countP fun e => e.2 = s) = Numbering.count T s := by
  have hnodup : (rows.filter fun e => decide (e.2 = s)).Nodup := (hn.nodup.of_map _).filter _
  have himage : (rows.filter fun e => decide (e.2 = s)).toFinset =
      (T.filter fun x => x.1 = s).image fun x => (deriveFillId x.1 x.2, x.1) := by
    ext e
    rw [List.mem_toFinset, List.mem_filter, decide_eq_true_eq, Finset.mem_image]
    constructor
    · rintro ⟨he, rfl⟩
      obtain ⟨k, hmem, hid⟩ := hn.named e he
      exact ⟨(e.2, k), Finset.mem_filter.2 ⟨hmem, rfl⟩, Prod.ext hid.symm rfl⟩
    · rintro ⟨x, hx, rfl⟩
      obtain ⟨hmem, rfl⟩ := Finset.mem_filter.1 hx
      exact ⟨hn.entries x hmem, rfl⟩
  rw [List.countP_eq_length_filter, ← List.toFinset_card_of_nodup hnodup, himage]
  refine Finset.card_image_of_injOn fun x hx y hy hxy => ?_
  rw [Finset.mem_coe, Finset.mem_filter] at hx hy
  exact hK (hn.keys x hx.1) (hn.keys y hy.1) (congrArg Prod.fst hxy)

/-- **A dense table is compact.** -/
theorem Names.compact (hn : Names deriveFillId K (keysOf db.fills) T) (hd : Numbering.Dense T) :
    Compact deriveFillId K db := by
  intro s k hk _ _ hid
  rw [← keysOf_fst] at hid
  rw [countRows_eq, hn.count hK]
  exact hd _ (hn.mem hK hk hid)

/-- The next row of a shape keeps the table dense. -/
theorem Names.append (hn : Names deriveFillId K rows T) (hd : Numbering.Dense T) (hnew : id ∉ rows.map (·.1))
    (hk : (s, k) ∈ K) (hid : id = deriveFillId s k) (hle : k ≤ rows.countP fun e => e.2 = s) :
    ∃ T', Names deriveFillId K (rows ++ [(id, s)]) T' ∧ Numbering.Dense T' := by
  rw [hn.count hK] at hle
  refine ⟨insert (s, k) T, ⟨fun x hx => ?_, ?_, fun e he => ?_, fun x hx => ?_⟩, hd.insert hle⟩
  · rcases Finset.mem_insert.1 hx with rfl | hx
    · exact hk
    · exact hn.keys x hx
  · rw [List.map_append, List.nodup_append]
    refine ⟨hn.nodup, List.nodup_singleton _, fun a ha b hb => ?_⟩
    rw [List.map_singleton, List.mem_singleton] at hb
    rw [hb]
    exact fun heq : a = id => hnew (heq ▸ ha)
  · rcases List.mem_append.1 he with he | he
    · obtain ⟨k', hmem, hid'⟩ := hn.named e he
      exact ⟨k', Finset.mem_insert_of_mem hmem, hid'⟩
    · rw [List.mem_singleton.1 he]
      exact ⟨k, Finset.mem_insert_self _ _, hid⟩
  · rcases Finset.mem_insert.1 hx with rfl | hx
    · rw [← hid]
      exact List.mem_append_right _ (List.mem_singleton_self _)
    · exact List.mem_append_left _ (hn.entries x hx)

omit hK in
/-- **Rows released from the top leave the table dense.** -/
theorem Names.release (hn : Names deriveFillId K rows T) (hd : Numbering.Dense T) (hsub : rows'.Sublist rows)
    (htop : ∀ x ∈ T, deriveFillId x.1 x.2 ∉ rows'.map (·.1) → ∀ y ∈ T, deriveFillId y.1 y.2 ∈ rows'.map (·.1) →
      x.1 = y.1 → y.2 < x.2) :
    ∃ T', Names deriveFillId K rows' T' ∧ Numbering.Dense T' := by
  obtain ⟨D, hD⟩ : ∃ D, D = T.filter fun x => deriveFillId x.1 x.2 ∉ rows'.map (·.1) := ⟨_, rfl⟩
  have hgone : ∀ x ∈ T, x ∈ D ↔ deriveFillId x.1 x.2 ∉ rows'.map (·.1) := by
    intro x hx
    rw [hD, Finset.mem_filter, and_iff_right hx]
  have hstays : ∀ x, x ∈ T \ D ↔ x ∈ T ∧ deriveFillId x.1 x.2 ∈ rows'.map (·.1) := by
    intro x
    rw [Finset.mem_sdiff]
    exact and_congr_right fun hx => (hgone x hx).not.trans not_not
  have hdense : Numbering.Dense (T \ D) := hd.sdiff fun x hx hxD y hy hyD =>
    htop x hx ((hgone x hx).1 hxD) y hy (not_not.1 ((hgone y hy).not.1 hyD))
  refine ⟨T \ D, ⟨fun x hx => hn.keys x ((hstays x).1 hx).1, (hsub.map _).nodup hn.nodup, fun e he => ?_, fun x hx => ?_⟩,
    hdense⟩
  · obtain ⟨k, hk, hid⟩ := hn.named e (hsub.subset he)
    refine ⟨k, (hstays _).2 ⟨hk, ?_⟩, hid⟩
    rw [← hid]
    exact List.mem_map.2 ⟨e, he, rfl⟩
  · obtain ⟨hxT, hid⟩ := (hstays x).1 hx
    obtain ⟨e, he, heq⟩ := List.mem_map.1 hid
    have hsame : e = (deriveFillId x.1 x.2, x.1) :=
      List.inj_on_of_nodup_map hn.nodup (hsub.subset he) (hn.entries x hxT) heq
    exact hsame ▸ he

end Numbered

/-! ## Runs -/

/-- What is done to the fill table. -/
inductive FillOp where
  | reserve (createdAt : Int) (batch : List PlannedFill)
  | link (fillIds : List Bytes32) (txJobId : JobId)
  | release (fillIds : List Bytes32)
  | reason (fillId : Bytes32) (text : String)
  | settled (createdAt : Int) (e : SettledFill)
  | rejected (fillId : Bytes32) (text : String)
  | intake (o : OrderRow)

def FillOp.run : FillOp → Db → Db
  | .reserve createdAt batch, db => persistPendingFills db createdAt batch
  | .link fillIds txJobId, db => linkFillsToJob db fillIds txJobId
  | .release fillIds, db => releasePendingFills db fillIds
  | .reason fillId text, db => recordRejection db fillId text
  | .settled createdAt e, db => fillSettled db createdAt e
  | .rejected fillId text, db => fillRejected db fillId text
  | .intake o, db => insertOrder db o

/-- The id is that of a sequence of the shape that is at most the number of its rows. -/
def Next (deriveFillId : Shape → Nat → Bytes32) (K : Set (Shape × Nat)) (rows : List FillRow) (s : Shape) (id : Bytes32) :
    Prop :=
  ∃ k, (s, k) ∈ K ∧ id = deriveFillId s k ∧ k ≤ countRows rows s

/-- Every fill of the batch has its row already, or is the next of its shape. -/
def Numbered (deriveFillId : Shape → Nat → Bytes32) (K : Set (Shape × Nat)) (createdAt : Int) :
    List FillRow → List PlannedFill → Prop
  | _, [] => True
  | rows, f :: batch => (f.fillId ∈ rows.map (·.fillId) ∨ Next deriveFillId K rows f.shape f.fillId) ∧
      Numbered deriveFillId K createdAt (insertPending createdAt rows f) batch

/-- Every row that is released has a higher sequence than those of its shape that stay. -/
def FromTheTop (deriveFillId : Shape → Nat → Bytes32) (K : Set (Shape × Nat)) (rows : List FillRow)
    (fillIds : List Bytes32) : Prop :=
  ∀ r ∈ rows, (r.fillId ∈ fillIds ∧ r.status = .pending) → ∀ r' ∈ rows, ¬ (r'.fillId ∈ fillIds ∧ r'.status = .pending) →
    r.shape = r'.shape → ∀ k k', (r.shape, k) ∈ K → (r'.shape, k') ∈ K → r.fillId = deriveFillId r.shape k →
      r'.fillId = deriveFillId r'.shape k' → k' < k

/-- The condition on an operation: reservations and late inserts number their rows on, and releases are from the top. -/
def FillOp.Meets (deriveFillId : Shape → Nat → Bytes32) (K : Set (Shape × Nat)) (db : Db) : FillOp → Prop
  | .reserve createdAt batch => Numbered deriveFillId K createdAt db.fills batch
  | .release fillIds => FromTheTop deriveFillId K db.fills fillIds
  | .settled _ e => (∃ r ∈ db.fills, r.fillId = e.fillId ∧ r.shape = e.shape) ∨
      e.fillId ∉ db.fills.map (·.fillId) ∧ Next deriveFillId K db.fills e.shape e.fillId
  | .link .. | .reason .. | .rejected .. | .intake .. => True

def runFills : List FillOp → Db → Db
  | [], db => db
  | op :: ops, db => runFills ops (op.run db)

def MeetsAll (deriveFillId : Shape → Nat → Bytes32) (K : Set (Shape × Nat)) : List FillOp → Db → Prop
  | [], _ => True
  | op :: ops, db => op.Meets deriveFillId K db ∧ MeetsAll deriveFillId K ops (op.run db)

/-- The rows are numbered, densely. -/
def DenseRows (deriveFillId : Shape → Nat → Bytes32) (K : Set (Shape × Nat)) (rows : List FillRow) : Prop :=
  ∃ T, Names deriveFillId K (keysOf rows) T ∧ Numbering.Dense T

theorem keysOf_map {rows : List FillRow} {g : FillRow → FillRow}
    (hg : ∀ r ∈ rows, (g r).fillId = r.fillId ∧ (g r).shape = r.shape) : keysOf (rows.map g) = keysOf rows := by
  rw [keysOf, List.map_map]
  exact List.map_congr_left fun r hr => Prod.ext (hg r hr).1 (hg r hr).2

theorem DenseRows.map {rows : List FillRow} {g : FillRow → FillRow} (h : DenseRows deriveFillId K rows)
    (hg : ∀ r ∈ rows, (g r).fillId = r.fillId ∧ (g r).shape = r.shape) : DenseRows deriveFillId K (rows.map g) := by
  rw [DenseRows, keysOf_map hg]
  exact h

section Runs

variable (hK : Set.InjOn (fun x : Shape × Nat => deriveFillId x.1 x.2) K)
include hK

theorem DenseRows.append {rows : List FillRow} {r : FillRow} (h : DenseRows deriveFillId K rows)
    (hnew : r.fillId ∉ rows.map (·.fillId)) (hnext : Next deriveFillId K rows r.shape r.fillId) :
    DenseRows deriveFillId K (rows ++ [r]) := by
  obtain ⟨T, hn, hd⟩ := h
  obtain ⟨k, hk, hid, hle⟩ := hnext
  rw [countRows_eq] at hle
  rw [← keysOf_fst] at hnew
  rw [DenseRows, keysOf, List.map_append]
  exact hn.append hK hd hnew hk hid hle

theorem persist_dense (createdAt : Int) (batch : List PlannedFill) : ∀ rows : List FillRow,
    DenseRows deriveFillId K rows → Numbered deriveFillId K createdAt rows batch →
      DenseRows deriveFillId K (batch.foldl (insertPending createdAt) rows) := by
  induction batch with
  | nil => exact fun rows h _ => h
  | cons f batch ih =>
    rintro rows h ⟨hf, hbatch⟩
    refine ih _ ?_ hbatch
    unfold insertPending
    split_ifs with hthere
    · exact h
    · exact h.append hK hthere (hf.resolve_left hthere)

theorem release_dense {rows : List FillRow} {fillIds : List Bytes32} (h : DenseRows deriveFillId K rows)
    (htop : FromTheTop deriveFillId K rows fillIds) :
    DenseRows deriveFillId K (rows.filter fun r => !decide (r.fillId ∈ fillIds ∧ r.status = .pending)) := by
  obtain ⟨T, hn, hd⟩ := h
  have hsub : (rows.filter fun r => !decide (r.fillId ∈ fillIds ∧ r.status = .pending)).Sublist rows :=
    List.filter_sublist
  refine hn.release hd (hsub.map _) fun x hx hgone y hy hstays hshape => ?_
  have hrow : ∀ x ∈ T, ∃ r ∈ rows, r.shape = x.1 ∧ r.fillId = deriveFillId x.1 x.2 := by
    intro x hx
    obtain ⟨r, hr, heq⟩ := List.mem_map.1 (hn.entries x hx)
    exact ⟨r, hr, congrArg Prod.snd heq, congrArg Prod.fst heq⟩
  obtain ⟨r, hr, hrs, hrid⟩ := hrow x hx
  rw [keysOf_fst, List.mem_map] at hgone hstays
  obtain ⟨r', hr', hr'id⟩ := hstays
  have hkept := (List.mem_filter.1 hr').2
  rw [Bool.not_eq_true', decide_eq_false_iff_not] at hkept
  have hreleased : r.fillId ∈ fillIds ∧ r.status = .pending := by
    by_contra hnot
    exact hgone ⟨r, List.mem_filter.2 ⟨hr, by simp [hnot]⟩, hrid⟩
  have hr's : r'.shape = y.1 := by
    obtain ⟨k, hk, hid⟩ := hn.named (r'.fillId, r'.shape) (List.mem_map.2 ⟨r', (List.mem_filter.1 hr').1, rfl⟩)
    exact congrArg Prod.fst (hK (hn.keys _ hk) (hn.keys y hy) (hid.symm.trans hr'id))
  refine htop r hr hreleased r' (List.mem_filter.1 hr').1 hkept (hrs.trans (hshape.trans hr's.symm)) _ _ ?_ ?_ ?_ ?_
  · rw [hrs]
    exact hn.keys x hx
  · rw [hr's]
    exact hn.keys y hy
  · rw [hrs]
    exact hrid
  · rw [hr's]
    exact hr'id

theorem upsert_dense {rows : List FillRow} {e : SettledFill} (createdAt : Int) (h : DenseRows deriveFillId K rows)
    (he : (∃ r ∈ rows, r.fillId = e.fillId ∧ r.shape = e.shape) ∨
      e.fillId ∉ rows.map (·.fillId) ∧ Next deriveFillId K rows e.shape e.fillId) :
    DenseRows deriveFillId K (upsertSettled createdAt e rows) := by
  unfold upsertSettled
  rcases he with ⟨r, hr, hid, hshape⟩ | ⟨hnew, hnext⟩
  · rw [if_pos (List.mem_map.2 ⟨r, hr, hid⟩)]
    refine h.map fun r' hr' => ?_
    split_ifs with heq
    · obtain ⟨T, hn, -⟩ := h
      have hnodup := hn.nodup
      rw [keysOf_fst] at hnodup
      have hsame : r' = r := List.inj_on_of_nodup_map hnodup hr' hr (heq.trans hid.symm)
      exact ⟨heq.symm, hsame ▸ hshape.symm⟩
    · exact ⟨rfl, rfl⟩
  · rw [if_neg hnew]
    exact h.append hK hnew hnext

/-- **An operation that meets its condition keeps the table dense.** -/
theorem run_dense {op : FillOp} (h : DenseRows deriveFillId K db.fills) (hop : op.Meets deriveFillId K db) :
    DenseRows deriveFillId K (op.run db).fills := by
  cases op with
  | reserve createdAt batch => exact persist_dense hK createdAt batch _ h hop
  | link fillIds txJobId =>
    refine h.map fun r _ => ?_
    split_ifs <;> exact ⟨rfl, rfl⟩
  | release fillIds => exact release_dense hK h hop
  | reason fillId text =>
    refine h.map fun r _ => ?_
    split_ifs <;> exact ⟨rfl, rfl⟩
  | settled createdAt e => exact upsert_dense hK createdAt h hop
  | rejected fillId text =>
    refine h.map fun r _ => ?_
    split_ifs <;> exact ⟨rfl, rfl⟩
  | intake o =>
    simp only [FillOp.run, insertOrder]
    split_ifs
    · exact h
    · exact h

theorem runFills_dense : ∀ (ops : List FillOp) (db : Db), DenseRows deriveFillId K db.fills →
    MeetsAll deriveFillId K ops db → DenseRows deriveFillId K (runFills ops db).fills
  | [], _, h, _ => h
  | _ :: ops, _, h, hmeets => runFills_dense ops _ (run_dense hK h hmeets.1) hmeets.2

end Runs

/-- **Fill ids are fresh as long as the table is compact.** On any table every build has distinct ids that are not in it, and
its reservation inserts every row, iff no row of a shape has a sequence at or above the number of its rows; and with ids
that do not collide every run from the empty table that numbers its rows on and releases them from the top keeps it so. -/
theorem fillIds_fresh (deriveFillId : Shape → Nat → Bytes32) (K : Set (Shape × Nat)) :
    (∀ db, Fresh deriveFillId K db ↔ Compact deriveFillId K db) ∧
      (Set.InjOn (fun x : Shape × Nat => deriveFillId x.1 x.2) K → ∀ (start : Db) (ops : List FillOp), start.fills = [] →
        MeetsAll deriveFillId K ops start → Fresh deriveFillId K (runFills ops start)) := by
  refine ⟨fun db => fresh_iff, fun hK start ops hstart hmeets => ?_⟩
  have hempty : DenseRows deriveFillId K start.fills := hstart ▸ ⟨∅, names_nil, Numbering.dense_empty⟩
  obtain ⟨T, hn, hd⟩ := runFills_dense hK ops start hempty hmeets
  exact fresh_iff.2 (hn.compact hK hd)

namespace Sample

def sell : Order := ⟨11, 1, false, 10 * 10 ^ 18, 100 * 10 ^ 18, true, 5, 2000, 0⟩

def buy : Order := ⟨12, 1, true, 10 * 10 ^ 18, 100 * 10 ^ 18, false, 7, 9000, 0⟩

/-- A reduce-only sell and a buy, and no fills. -/
def listed : Db where
  orders := [⟨1, sell, [], .open_, 0, 1⟩, ⟨2, buy, [], .open_, 0, 2⟩]
  minValidNonce := fun _ => 0
  positions := fun _ => 0
  fills := []
  jobs := []

/-- The sell closes 4, what its owner is long. -/
def closing : EngineMatch where
  maker := toEngineOrder listed 1 ⟨1, sell, [], .open_, 0, 1⟩
  taker := toEngineOrder listed 1 ⟨2, buy, [], .open_, 0, 2⟩
  size := 4 * 10 ^ 18
  price := 100 * 10 ^ 18
  notional := 400 * 10 ^ 18
  sequence := 0

/-- Ids that do not collide on one shape. -/
def idOf (_ : Shape) (k : Nat) : Bytes32 := Fin.ofNat (2 ^ 256) k

def closed (k : Nat) : PlannedFill where
  fillId := idOf (shapeKey closing) k
  maker := sell
  makerSignature := []
  taker := buy
  takerSignature := []
  size := 4 * 10 ^ 18
  price := 100 * 10 ^ 18
  marketId := 1
  makerOrderHash := 1
  takerOrderHash := 2
  takerIsBuy := true
  notional := 400 * 10 ^ 18

/-- Two fills of the shape, the second matched while the first is pending. -/
def twice : List FillOp := [.reserve 0 [closed 0], .reserve 0 [closed 1]]

def keys : Set (Shape × Nat) := {x | x.1 = shapeKey closing ∧ x.2 < 2}

end Sample

/-- The later of two fills is released, and the next build is fresh. -/
theorem fillIds_fresh_top :
    Fresh Sample.idOf Sample.keys (runFills (Sample.twice ++ [.release [Sample.idOf (shapeKey Sample.closing) 1]]) Sample.listed) := by
  refine (fillIds_fresh Sample.idOf Sample.keys).2 ?_ Sample.listed _ rfl ?_
  · rintro ⟨s, k⟩ ⟨hs, hk⟩ ⟨s', k'⟩ ⟨hs', hk'⟩ heq
    have hval := congrArg Fin.val heq
    simp only [Sample.idOf, Fin.ofNat_eq_cast, Fin.val_natCast] at hval hk hk'
    exact Prod.ext (hs.trans hs'.symm) (by omega)
  · have hfirst : Next Sample.idOf Sample.keys [] (Sample.closed 0).shape (Sample.closed 0).fillId :=
      ⟨0, ⟨rfl, by decide⟩, rfl, le_refl 0⟩
    have hsecond : Next Sample.idOf Sample.keys [pendingRow (Sample.closed 0) 0] (Sample.closed 1).shape
        (Sample.closed 1).fillId := ⟨1, ⟨rfl, by decide⟩, rfl, by decide⟩
    refine ⟨⟨Or.inr hfirst, trivial⟩, ⟨Or.inr hsecond, trivial⟩, ?_, trivial⟩
    -- The first row has sequence 0 and stays, the second has 1 and is released.
    have hseq : ∀ r ∈ [pendingRow (Sample.closed 0) 0, pendingRow (Sample.closed 1) 0], ∀ k, (r.shape, k) ∈ Sample.keys →
        r.fillId = Sample.idOf r.shape k →
          (r.fillId ∈ [Sample.idOf (shapeKey Sample.closing) 1] ∧ r.status = .pending ↔ k = 1) := by
      intro r hr k hkey hid
      have hsmall : k < 2 := hkey.2
      have hk : k = 0 ∨ k = 1 := by omega
      simp only [List.mem_cons, List.not_mem_nil, or_false] at hr
      rcases hr with rfl | rfl
      · rcases hk with rfl | rfl
        · decide
        · exact absurd hid (by decide)
      · rcases hk with rfl | rfl
        · exact absurd hid (by decide)
        · decide
    intro r hr hreleased r' hr' hkept _ k k' hk hk' hid hid'
    have hone := (hseq r hr k hk hid).1 hreleased
    have hother := (hseq r' hr' k' hk' hid').not.1 hkept
    have hsmall : k' < 2 := hk'.2
    omega

/-- The earlier of two fills is released, and the next build has the id of the later: its reservation inserts nothing. -/
theorem fillIds_collide :
    buildFills Sample.idOf Sample.listed [Sample.closing] = .ok [Sample.closed 0] ∧
    buildFills Sample.idOf (runFills [.reserve 0 [Sample.closed 0]] Sample.listed) [Sample.closing] = .ok [Sample.closed 1] ∧
    buildFills Sample.idOf (runFills (Sample.twice ++ [.release [Sample.idOf (shapeKey Sample.closing) 0]]) Sample.listed)
      [Sample.closing] = .ok [Sample.closed 1] ∧
    (runFills (Sample.twice ++ [.release [Sample.idOf (shapeKey Sample.closing) 0], .reserve 0 [Sample.closed 1]])
      Sample.listed).fills = [pendingRow (Sample.closed 1) 0] := by
  decide +kernel

end Kryon.Matcher
