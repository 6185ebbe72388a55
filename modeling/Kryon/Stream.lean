import Kryon.MatcherDb
import Kryon.Lib.Transition
import Mathlib.Data.List.ProdSigma
import Mathlib.Order.Filter.AtTopBot.Basic
import Mathlib.Order.Filter.Finite
/-!
# Stream — an account's fills over the WebSocket

A poll reads the fills of the subscribed addresses from a trailing overlap behind its cursor, oldest change first and at
most `batchLimit` of them, broadcasts those it has not seen under their status and reason, and moves the cursor to the
newest of these.  A fill the limit cuts off is left to a later poll, which reads from the same cursor unless this one saw
something new (`Stalled`).
-/
namespace Kryon.Stream

open Function (update)
open Matcher (FillRow FillStatus)
open Transition

/-- A fill as the stream reads it. -/
structure StreamFill extends FillRow where
  updatedAt : Int
deriving DecidableEq

/-- Of the server's limits, those the fills are polled under. -/
structure StreamLimits where
  /-- How far back each poll re-reads. -/
  fillOverlapMs : Nat
  /-- Rows per poll. -/
  batchLimit : Nat

def DEFAULT_LIMITS : StreamLimits := ⟨10000, 500⟩

/-- What a fill is de-duplicated by. -/
abbrev SeenKey := Bytes32 × FillStatus × String

def StreamFill.seenKey (f : StreamFill) : SeenKey := (f.fillId, f.status, f.rejectReason.getD "")

/-- The account is on one side of the fill. -/
def StreamFill.has (f : StreamFill) (a : Address) : Prop := a = f.maker ∨ a = f.taker

instance (f : StreamFill) (a : Address) : Decidable (f.has a) := inferInstanceAs (Decidable (_ ∨ _))

/-- The order of changes: by time, and then by fill. -/
def changeLe (f g : StreamFill) : Prop := f.updatedAt < g.updatedAt ∨ f.updatedAt = g.updatedAt ∧ f.fillId ≤ g.fillId

instance : DecidableRel changeLe := fun _ _ => inferInstanceAs (Decidable (_ ∨ _))

/-- The fills of any of the addresses that changed at or after `since`, oldest change first. -/
def changesSince (rows : List StreamFill) (addresses : List Address) (since : Int) : List StreamFill :=
  (rows.filter fun f => decide ((∃ a ∈ addresses, f.has a) ∧ since ≤ f.updatedAt)).insertionSort changeLe

def listFillChanges (rows : List StreamFill) (addresses : List Address) (since : Int) (limit : Nat) : List StreamFill :=
  (changesSince rows addresses since).take limit

/-! ## Polling -/

/-- A fill broadcast on an account's channel. -/
structure Frame where
  address : Address
  fill : StreamFill
deriving DecidableEq

/-- What the server keeps of the fills; `sent` is what it has broadcast. -/
structure StreamServer where
  fillCursor : Option Int
  fillSeen : SeenKey → Option Int
  sent : List Frame

/-- The state of a poll's loop. -/
structure Pass where
  fillCursor : Int
  fillSeen : SeenKey → Option Int
  sent : List Frame

/-- The frames of a fill, one for each account on it that is watched. -/
def framesOf (addresses : List Address) (f : StreamFill) : List Frame :=
  (((if f.maker = f.taker then [f.maker] else [f.maker, f.taker]).filter fun a => decide (a ∈ addresses))).map fun a =>
    ⟨a, f⟩

/-- One row of a poll. -/
def readFill (addresses : List Address) (p : Pass) (f : StreamFill) : Pass :=
  if (p.fillSeen f.seenKey).isSome then p
  else
    { fillCursor := max p.fillCursor f.updatedAt
      fillSeen := update p.fillSeen f.seenKey (some f.updatedAt)
      sent := p.sent ++ framesOf addresses f }

def pollFills (limits : StreamLimits) (addresses : List Address) (now : Int) (rows : List StreamFill)
    (s : StreamServer) : StreamServer :=
  -- Nobody is listening: the next subscriber starts from now.
  if addresses = [] then { s with fillCursor := none, fillSeen := fun _ => none }
  else
    let cursor := s.fillCursor.getD now
    let batch := listFillChanges rows addresses (cursor - limits.fillOverlapMs) limits.batchLimit
    let p := batch.foldl (readFill addresses) ⟨cursor, s.fillSeen, s.sent⟩
    let horizon := p.fillCursor - limits.fillOverlapMs
    ⟨some p.fillCursor, fun k => (p.fillSeen k).filter fun at_ => !decide (at_ < horizon), p.sent⟩

/-! ## The service -/

/-- The table of fills and the server. -/
structure Service where
  rows : List StreamFill
  server : StreamServer

/-- What happens to the two: a fill's row is written or deleted, or the server polls. -/
inductive Act where
  | write (f : StreamFill)
  | delete (fillId : Bytes32)
  | poll (now : Int)

def writeRow (f : StreamFill) (rows : List StreamFill) : List StreamFill :=
  if f.fillId ∈ rows.map (·.fillId) then rows.map fun r => if r.fillId = f.fillId then f else r else rows ++ [f]

def act (limits : StreamLimits) (addresses : List Address) (s : Service) : Act → Service
  | .write f => { s with rows := writeRow f s.rows }
  | .delete fillId => { s with rows := s.rows.filter fun r => decide (r.fillId ≠ fillId) }
  | .poll now => { s with server := pollFills limits addresses now s.rows s.server }

/-- A server before anybody has subscribed. -/
def unheard (rows : List StreamFill) : Service := ⟨rows, none, fun _ => none, []⟩

/-- The first poll of a subscription, at `start`. -/
def subscribe (limits : StreamLimits) (addresses : List Address) (start : Int) (rows : List StreamFill) : Service :=
  act limits addresses (unheard rows) (.poll start)

def machine (limits : StreamLimits) (addresses : List Address) : Machine Service Act where
  init s := ∃ rows, (rows.map (·.fillId)).Nodup ∧ s = unheard rows
  step s a t := t = act limits addresses s a

/-- Polls with no change between them, `clock` giving their times. -/
def polls (limits : StreamLimits) (addresses : List Address) (clock : Nat → Int) (s : Service) : Nat → Service
  | 0 => s
  | n + 1 => act limits addresses (polls limits addresses clock s n) (.poll (clock n))

/-- The account has been sent the fill under its status and reason. -/
def Delivered (sent : List Frame) (a : Address) (f : StreamFill) : Prop :=
  ∃ x ∈ sent, x.address = a ∧ x.fill.seenKey = f.seenKey

/-- Every fill of a subscribed account that changed at or after `since` has been delivered to it. -/
def Complete (addresses : List Address) (since : Int) (s : Service) : Prop :=
  ∀ f ∈ s.rows, since ≤ f.updatedAt → ∀ a ∈ addresses, f.has a → Delivered s.server.sent a f

/-- A change is stamped no earlier than what the next poll reads, and leaves the fill's two accounts as they are. -/
def Timely (limits : StreamLimits) (s : Service) : Act → Prop
  | .write f => (∀ c ∈ s.server.fillCursor, c - limits.fillOverlapMs ≤ f.updatedAt) ∧
      ∀ x ∈ s.server.sent, x.fill.fillId = f.fillId → x.fill.maker = f.maker ∧ x.fill.taker = f.taker
  | .delete _ | .poll _ => True

/-- A fill with a full batch before it, from some time the cursor has still to leave behind, that cannot move the cursor
past that time's window: each of the batch changed within the overlap of it, or has been seen since. -/
def Starved (limits : StreamLimits) (addresses : List Address) (s : Service) (f : StreamFill) : Prop :=
  ∃ c ∈ s.server.fillCursor, ∃ since, c - limits.fillOverlapMs ≤ since ∧ since ≤ f.updatedAt ∧
    f ∉ listFillChanges s.rows addresses since limits.batchLimit ∧
    ∀ x ∈ listFillChanges s.rows addresses since limits.batchLimit,
      x.updatedAt ≤ since + limits.fillOverlapMs ∨ ∃ at_ ∈ s.server.fillSeen x.seenKey, since ≤ at_

/-! ## What a poll reads -/

section Changes

variable {rows : List StreamFill} {addresses : List Address} {since later : Int} {limit : Nat} {f g : StreamFill}

theorem mem_changesSince :
    f ∈ changesSince rows addresses since ↔ f ∈ rows ∧ (∃ a ∈ addresses, f.has a) ∧ since ≤ f.updatedAt := by
  simp [changesSince]

instance : Std.Total changeLe where
  total f g := by unfold changeLe; grind

instance : IsTrans StreamFill changeLe where
  trans f g h := by unfold changeLe; grind

theorem changesSince_sorted : (changesSince rows addresses since).Pairwise changeLe := List.pairwise_insertionSort _ _

theorem changesSince_later (hids : (rows.map (·.fillId)).Nodup) (h : since ≤ later) :
    changesSince rows addresses later =
      (changesSince rows addresses since).filter fun f => decide (later ≤ f.updatedAt) := by
  refine List.Perm.eq_of_pairwise (fun f g hf hg hfg hgf => ?_) changesSince_sorted
    (changesSince_sorted.filter _) ?_
  · have hrow := (mem_changesSince.1 hf).1
    have hrow' := (mem_changesSince.1 (List.mem_of_mem_filter hg)).1
    refine List.inj_on_of_nodup_map hids hrow hrow' ?_
    unfold changeLe at hfg hgf
    grind
  · refine (List.perm_insertionSort _ _).trans ?_
    refine List.Perm.trans ?_ ((List.perm_insertionSort _ _).filter _).symm
    rw [List.filter_filter]
    refine List.Perm.of_eq (List.filter_congr fun f _ => ?_)
    simp
    grind

theorem mem_take_filter {α : Type} (p : α → Bool) {x : α} :
    ∀ {l : List α} {n : Nat}, x ∈ l.take n → p x = true → x ∈ (l.filter p).take n
  | [], _, h, _ => by simp at h
  | _ :: _, 0, h, _ => by simp at h
  | y :: ys, n + 1, h, hx => by
    rw [List.take_succ_cons, List.mem_cons] at h
    rcases h with rfl | h
    · simp [hx]
    · have ih := mem_take_filter p h hx
      by_cases hy : p y = true
      · simp [hy, ih]
      · rw [List.filter_cons_of_neg hy]
        exact List.take_subset_take_left _ (Nat.le_succ n) ih

theorem mem_listFillChanges (h : f ∈ listFillChanges rows addresses since limit) :
    f ∈ rows ∧ (∃ a ∈ addresses, f.has a) ∧ since ≤ f.updatedAt := mem_changesSince.1 (List.mem_of_mem_take h)

/-- What the limit leaves out comes after everything it lets through. -/
theorem listFillChanges_before (hf : f ∈ listFillChanges rows addresses since limit)
    (hg : g ∈ changesSince rows addresses since) (hout : g ∉ listFillChanges rows addresses since limit) :
    f.updatedAt ≤ g.updatedAt := by
  have hsorted : (changesSince rows addresses since).Pairwise changeLe := changesSince_sorted
  rw [← List.take_append_drop limit (changesSince rows addresses since)] at hg hsorted
  have hdrop := (List.mem_append.1 hg).resolve_left hout
  have hle := (List.pairwise_append.1 hsorted).2.2 f hf g hdrop
  unfold changeLe at hle
  omega

theorem listFillChanges_later (hids : (rows.map (·.fillId)).Nodup) (h : since ≤ later)
    (hf : f ∈ listFillChanges rows addresses since limit) (hlater : later ≤ f.updatedAt) :
    f ∈ listFillChanges rows addresses later limit := by
  unfold listFillChanges
  rw [changesSince_later hids h]
  exact mem_take_filter _ hf (by simpa using hlater)

end Changes

/-! ## One poll -/

/-- What reading some fills has done to a pass. -/
structure Reads (addresses : List Address) (batch : List StreamFill) (p p' : Pass) : Prop where
  sent : ∀ x ∈ p.sent, x ∈ p'.sent
  fresh : ∀ x ∈ p'.sent, x ∈ p.sent ∨ x.fill ∈ batch
  seen : ∀ f ∈ batch, (p'.fillSeen f.seenKey).isSome
  kept : ∀ k at_, p.fillSeen k = some at_ → p'.fillSeen k = some at_
  source : ∀ k at_, p'.fillSeen k = some at_ → p.fillSeen k = some at_ ∨
    ∃ f ∈ batch, f.seenKey = k ∧ f.updatedAt = at_ ∧ at_ ≤ p'.fillCursor ∧
      ∀ a ∈ addresses, f.has a → ⟨a, f⟩ ∈ p'.sent
  cursor_le : p.fillCursor ≤ p'.fillCursor
  cursor : p'.fillCursor = p.fillCursor ∨ ∃ f ∈ batch, p.fillSeen f.seenKey = none ∧ p'.fillCursor = f.updatedAt

theorem mem_framesOf {addresses : List Address} {f : StreamFill} {x : Frame} :
    x ∈ framesOf addresses f ↔ x.fill = f ∧ f.has x.address ∧ x.address ∈ addresses := by
  obtain ⟨a, g⟩ := x
  unfold framesOf StreamFill.has
  split <;> simp <;> grind

theorem reads_nil (addresses : List Address) (p : Pass) : Reads addresses [] p p where
  sent _ hx := hx
  fresh _ hx := Or.inl hx
  seen _ hf := absurd hf List.not_mem_nil
  kept _ _ h := h
  source _ _ h := Or.inl h
  cursor_le := le_refl _
  cursor := Or.inl rfl

theorem reads_one (addresses : List Address) (p : Pass) (f : StreamFill) :
    Reads addresses [f] p (readFill addresses p f) := by
  unfold readFill
  split
  · next hseen => exact { reads_nil addresses p with
      fresh := fun _ hx => Or.inl hx
      seen := fun g hg => by rw [List.mem_singleton.1 hg]; exact hseen
      source := fun _ _ h => Or.inl h
      cursor := Or.inl rfl }
  · next hnew =>
    have hnone : p.fillSeen f.seenKey = none := by simpa using hnew
    refine ⟨fun x hx => List.mem_append_left _ hx, fun x hx => ?_, fun g hg => ?_, fun k at_ h => ?_, fun k at_ h => ?_,
      le_max_left _ _, ?_⟩
    · rcases List.mem_append.1 hx with hx | hx
      · exact Or.inl hx
      · exact Or.inr (by simp [(mem_framesOf.1 hx).1])
    · rw [List.mem_singleton.1 hg]
      simp
    · have hne : k ≠ f.seenKey := fun he => by rw [he, hnone] at h; cases h
      simpa [Function.update_of_ne hne] using h
    · by_cases hk : k = f.seenKey
      · subst hk
        have hat : f.updatedAt = at_ := by simpa using h
        refine Or.inr ⟨f, List.mem_singleton_self f, rfl, hat, hat ▸ le_max_right _ _, fun a ha hhas => ?_⟩
        exact List.mem_append_right _ (mem_framesOf.2 ⟨rfl, hhas, ha⟩)
      · exact Or.inl (by simpa [Function.update_of_ne hk] using h)
    · rcases max_choice p.fillCursor f.updatedAt with hmax | hmax
      · exact Or.inl hmax
      · exact Or.inr ⟨f, List.mem_singleton_self f, hnone, hmax⟩

theorem Reads.append {addresses : List Address} {fs gs : List StreamFill} {p q r : Pass} (h : Reads addresses fs p q)
    (h' : Reads addresses gs q r) : Reads addresses (fs ++ gs) p r where
  sent x hx := h'.sent x (h.sent x hx)
  fresh x hx := by
    rcases h'.fresh x hx with hx | hx
    · exact (h.fresh x hx).imp_right (List.mem_append_left _)
    · exact Or.inr (List.mem_append_right _ hx)
  seen f hf := by
    rcases List.mem_append.1 hf with hf | hf
    · obtain ⟨at_, hat⟩ := Option.isSome_iff_exists.1 (h.seen f hf)
      rw [h'.kept _ _ hat]
      rfl
    · exact h'.seen f hf
  kept k at_ hk := h'.kept k at_ (h.kept k at_ hk)
  source k at_ hk := by
    rcases h'.source k at_ hk with hk | ⟨f, hf, hkey, hat, hle, hsent⟩
    · rcases h.source k at_ hk with hk | ⟨f, hf, hkey, hat, hle, hsent⟩
      · exact Or.inl hk
      · exact Or.inr ⟨f, List.mem_append_left _ hf, hkey, hat, hle.trans h'.cursor_le,
          fun a ha hhas => h'.sent _ (hsent a ha hhas)⟩
    · exact Or.inr ⟨f, List.mem_append_right _ hf, hkey, hat, hle, hsent⟩
  cursor_le := h.cursor_le.trans h'.cursor_le
  cursor := by
    rcases h'.cursor with hc | ⟨f, hf, hnone, hc⟩
    · rcases h.cursor with hc' | ⟨f, hf, hnone, hc'⟩
      · exact Or.inl (hc.trans hc')
      · exact Or.inr ⟨f, List.mem_append_left _ hf, hnone, hc.trans hc'⟩
    · refine Or.inr ⟨f, List.mem_append_right _ hf, ?_, hc⟩
      cases hp : p.fillSeen f.seenKey with
      | none => rfl
      | some at_ => rw [h.kept _ _ hp] at hnone; cases hnone

theorem foldl_readFill (addresses : List Address) :
    ∀ (batch : List StreamFill) (p : Pass), Reads addresses batch p (batch.foldl (readFill addresses) p)
  | [], p => reads_nil addresses p
  | f :: fs, p => (reads_one addresses p f).append (foldl_readFill addresses fs _)

/-- What is seen has been broadcast to every account on it that is watched. -/
def Announced (addresses : List Address) (sent : List Frame) (seen : SeenKey → Option Int) : Prop :=
  ∀ k, (seen k).isSome → ∃ g : StreamFill, g.seenKey = k ∧ (∃ a ∈ addresses, g.has a) ∧
    ∀ a ∈ addresses, g.has a → ⟨a, g⟩ ∈ sent

/-- What was broadcast of a fill names the accounts its row names. -/
def SameParties (rows : List StreamFill) (sent : List Frame) : Prop :=
  ∀ f ∈ rows, ∀ x ∈ sent, x.fill.fillId = f.fillId → x.fill.maker = f.maker ∧ x.fill.taker = f.taker

section Poll

variable {limits : StreamLimits} {addresses : List Address} {start c : Int} {s : Service} {f : StreamFill} {a : Address}

theorem Announced.delivered {rows : List StreamFill} {sent : List Frame} {seen : SeenKey → Option Int}
    (h : Announced addresses sent seen) (hparties : SameParties rows sent) (hf : f ∈ rows)
    (hseen : (seen f.seenKey).isSome) (ha : a ∈ addresses) (hhas : f.has a) : Delivered sent a f := by
  obtain ⟨g, hkey, ⟨b, hb, hgb⟩, hsent⟩ := h _ hseen
  obtain ⟨hmaker, htaker⟩ := hparties f hf _ (hsent b hb hgb) (congrArg Prod.fst hkey)
  have hga : g.has a := by
    unfold StreamFill.has at hhas ⊢
    rwa [hmaker, htaker]
  exact ⟨_, hsent a ha hga, rfl, hkey⟩

theorem Delivered.mono {sent sent' : List Frame} (h : ∀ x ∈ sent, x ∈ sent') (hd : Delivered sent a f) :
    Delivered sent' a f := by
  obtain ⟨x, hx, hxa⟩ := hd
  exact ⟨x, h x hx, hxa⟩

theorem Reads.announced {batch : List StreamFill} {p p' : Pass} (h : Reads addresses batch p p')
    (hwatched : ∀ f ∈ batch, ∃ a ∈ addresses, f.has a) (hp : Announced addresses p.sent p.fillSeen) :
    Announced addresses p'.sent p'.fillSeen := by
  intro k hk
  obtain ⟨at_, hat⟩ := Option.isSome_iff_exists.1 hk
  rcases h.source k at_ hat with hold | ⟨f, hf, hkey, -, -, hsent⟩
  · obtain ⟨g, hkey, hwatch, hsent⟩ := hp k (hold ▸ rfl)
    exact ⟨g, hkey, hwatch, fun a ha hhas => h.sent _ (hsent a ha hhas)⟩
  · exact ⟨f, hkey, hwatched f hf, hsent⟩

/-- The loop of a poll whose cursor is at `c` ends at `p`. -/
def PollReads (limits : StreamLimits) (addresses : List Address) (c : Int) (s : Service) (p : Pass) : Prop :=
  Reads addresses (listFillChanges s.rows addresses (c - limits.fillOverlapMs) limits.batchLimit)
    ⟨c, s.server.fillSeen, s.server.sent⟩ p

/-- The end of a poll: what the window has left behind is forgotten. -/
def finish (limits : StreamLimits) (rows : List StreamFill) (p : Pass) : Service :=
  ⟨rows, some p.fillCursor,
    fun k => (p.fillSeen k).filter fun at_ => !decide (at_ < p.fillCursor - limits.fillOverlapMs), p.sent⟩

/-- **A poll is its loop over the batch and a pruning.** -/
theorem poll_reads (limits : StreamLimits) (s : Service) (now : Int) (haddresses : addresses ≠ []) :
    ∃ p, PollReads limits addresses (s.server.fillCursor.getD now) s p ∧
      act limits addresses s (.poll now) = finish limits s.rows p := by
  refine ⟨_, foldl_readFill addresses _ _, ?_⟩
  simp only [act, pollFills, if_neg haddresses, finish]

/-- What holds between the polls of a subscription from `start`, with the cursor at `c`. -/
structure Kept (limits : StreamLimits) (addresses : List Address) (start c : Int) (s : Service) : Prop where
  ids : (s.rows.map (·.fillId)).Nodup
  parties : SameParties s.rows s.server.sent
  announced : Announced addresses s.server.sent s.server.fillSeen
  recent : ∀ k at_, s.server.fillSeen k = some at_ → c - limits.fillOverlapMs ≤ at_
  passed : ∀ f ∈ s.rows, start - limits.fillOverlapMs ≤ f.updatedAt → f.updatedAt < c - limits.fillOverlapMs →
    ∀ a ∈ addresses, f.has a → Delivered s.server.sent a f

theorem kept_unheard {rows : List StreamFill} (hids : (rows.map (·.fillId)).Nodup) :
    Kept limits addresses start start (unheard rows) where
  ids := hids
  parties _ _ _ hx := absurd hx List.not_mem_nil
  announced _ hk := by cases hk
  recent _ _ hk := by cases hk
  passed _ _ hge hlt := absurd hge (not_le.2 hlt)

/-- The seen of a batch have been broadcast by the time the pass has read it. -/
theorem Kept.reads_delivered {p : Pass} (h : Kept limits addresses start c s)
    (hreads : PollReads limits addresses c s p) :
    SameParties s.rows p.sent ∧ Announced addresses p.sent p.fillSeen := by
  refine ⟨fun f hf x hx hid => ?_, hreads.announced (fun f hf => (mem_listFillChanges hf).2.1) h.announced⟩
  rcases hreads.fresh x hx with hx | hx
  · exact h.parties f hf x hx hid
  · have heq := List.inj_on_of_nodup_map h.ids (mem_listFillChanges hx).1 hf hid
    exact ⟨congrArg (·.maker) heq, congrArg (·.taker) heq⟩

/-- **A poll leaves nothing behind the window it moves to.** -/
theorem kept_poll {p : Pass} (h : Kept limits addresses start c s)
    (hreads : PollReads limits addresses c s p) :
    Kept limits addresses start p.fillCursor (finish limits s.rows p) where
  ids := h.ids
  parties := (h.reads_delivered hreads).1
  announced k hk := by
    refine (h.reads_delivered hreads).2 k ?_
    cases hp : p.fillSeen k with
    | none => simp [finish, hp] at hk
    | some at_ => rfl
  recent k at_ hk := by
    have := (Option.filter_eq_some_iff.1 hk).2
    simpa using this
  passed f hf hge hlt a ha hhas := by
    by_cases hold : f.updatedAt < c - limits.fillOverlapMs
    · exact (h.passed f hf hge hold a ha hhas).mono hreads.sent
    · refine (h.reads_delivered hreads).2.delivered (h.reads_delivered hreads).1 hf ?_ ha hhas
      rcases hreads.cursor with hc | ⟨x, hx, -, hc⟩
      · have hcursor : p.fillCursor = c := hc
        exact absurd (hcursor ▸ hlt) hold
      · -- the cursor moved to a change later than this one, so the batch had room for it
        refine hreads.seen f (by_contra fun hout => ?_)
        have hin := mem_changesSince.2 ⟨hf, ⟨a, ha, hhas⟩, not_lt.1 hold⟩
        have := listFillChanges_before hx hin hout
        omega

/-! ## Starved fills -/

variable {p : Pass}

theorem Kept.delivered_of_reads (h : Kept limits addresses start c s) (hf : f ∈ s.rows)
    (hreads : PollReads limits addresses c s p)
    (hout : f ∉ listFillChanges s.rows addresses (c - limits.fillOverlapMs) limits.batchLimit)
    (hd : Delivered p.sent a f) : Delivered s.server.sent a f := by
  obtain ⟨x, hx, hxa, hkey⟩ := hd
  rcases hreads.fresh x hx with hx | hx
  · exact ⟨x, hx, hxa, hkey⟩
  · have heq := List.inj_on_of_nodup_map h.ids (mem_listFillChanges hx).1 hf (congrArg Prod.fst hkey)
    exact absurd (heq ▸ hx) hout

/-- **A starved fill stays out of the batch, and starved.** -/
theorem starved_poll (h : Kept limits addresses start c s) (hc : s.server.fillCursor = some c)
    (hreads : PollReads limits addresses c s p)
    (hstarved : Starved limits addresses s f) :
    f ∉ listFillChanges s.rows addresses (c - limits.fillOverlapMs) limits.batchLimit ∧
      Starved limits addresses (finish limits s.rows p) f := by
  obtain ⟨c', hc', since, hwindow, hle, hout, hfull⟩ := hstarved
  obtain rfl : c = c' := Option.some.inj (hc.symm.trans hc')
  refine ⟨fun hin => hout (listFillChanges_later h.ids hwindow hin hle), ?_⟩
  have hcursor : p.fillCursor ≤ since + limits.fillOverlapMs := by
    rcases hreads.cursor with hc' | ⟨x, hx, hnone, hc'⟩
    · have hsame : p.fillCursor = c := hc'
      omega
    · rcases le_or_gt since x.updatedAt with hx' | hx'
      · rcases hfull x (listFillChanges_later h.ids hwindow hx hx') with hnear | ⟨at_, hat, -⟩
        · omega
        · cases hnone.symm.trans hat
      · omega
  refine ⟨_, rfl, since, by omega, hle, hout, fun x hx => (hfull x hx).imp_right fun ⟨at_, hat, hge⟩ => ⟨at_, ?_, hge⟩⟩
  exact Option.filter_eq_some_iff.2 ⟨hreads.kept _ _ hat, by simp; omega⟩

/-- **A fill no poll starves is not starved by what the poll adds**: its new entries stand for changes inside the window
of the cursor. -/
theorem starved_of_poll (h : Kept limits addresses start c s) (hc : s.server.fillCursor = some c)
    (hreads : PollReads limits addresses c s p)
    (hstarved : Starved limits addresses (finish limits s.rows p) f) :
    Starved limits addresses s f := by
  obtain ⟨c', hc', since, hwindow, hle, hout, hfull⟩ := hstarved
  obtain rfl : p.fillCursor = c' := Option.some.inj hc'
  have hmono : c ≤ p.fillCursor := hreads.cursor_le
  refine ⟨c, hc, since, by omega, hle, hout, fun x hx => ?_⟩
  rcases hfull x hx with hnear | ⟨at_, hat, hge⟩
  · exact Or.inl hnear
  · rcases hreads.source _ _ (Option.filter_eq_some_iff.1 hat).1 with hold | ⟨y, hy, hkey, rfl, hat', -⟩
    · exact Or.inr ⟨at_, hold, hge⟩
    · have heq := List.inj_on_of_nodup_map h.ids (mem_listFillChanges hy).1 (mem_listFillChanges hx).1
        (congrArg Prod.fst hkey)
      subst heq
      exact Or.inl (by omega)

/-- **While a fill is neither starved nor delivered the cursor moves on**, and stays within reach of the fill. -/
theorem cursor_moves (h : Kept limits addresses start c s) (hc : s.server.fillCursor = some c) (hf : f ∈ s.rows)
    (ha : a ∈ addresses) (hhas : f.has a) (hwindow : c - limits.fillOverlapMs ≤ f.updatedAt)
    (hreads : PollReads limits addresses c s p)
    (hfed : ¬ Starved limits addresses s f) (hd : ¬ Delivered p.sent a f) :
    c < p.fillCursor ∧ p.fillCursor - limits.fillOverlapMs ≤ f.updatedAt := by
  have hout : f ∉ listFillChanges s.rows addresses (c - limits.fillOverlapMs) limits.batchLimit := fun hin =>
    hd ((h.reads_delivered hreads).2.delivered (h.reads_delivered hreads).1 hf (hreads.seen f hin) ha hhas)
  have hin := mem_changesSince.2 ⟨hf, ⟨a, ha, hhas⟩, hwindow⟩
  constructor
  · by_contra hstuck
    refine hfed ⟨c, hc, _, le_refl _, hwindow, hout, fun x hx => ?_⟩
    by_contra hx'
    obtain ⟨hfar, hunseen⟩ := not_or.1 hx'
    obtain ⟨at_, hat⟩ := Option.isSome_iff_exists.1 (hreads.seen x hx)
    rcases hreads.source _ _ hat with hold | ⟨y, hy, hkey, hyat, hle, -⟩
    · exact hunseen ⟨at_, hold, h.recent _ _ hold⟩
    · have heq := List.inj_on_of_nodup_map h.ids (mem_listFillChanges hy).1 (mem_listFillChanges hx).1
        (congrArg Prod.fst hkey)
      subst heq
      omega
  · rcases hreads.cursor with hc' | ⟨x, hx, -, hc'⟩
    · have hsame : p.fillCursor = c := hc'
      omega
    · have := listFillChanges_before hx hin hout
      omega

end Poll

/-! ## Runs -/

section Runs

variable {limits : StreamLimits} {addresses : List Address} {start c : Int} {s : Service} {f : StreamFill} {a : Address}

theorem kept_write (h : Kept limits addresses start c s) (hc : s.server.fillCursor = some c)
    (htimely : Timely limits s (.write f)) : Kept limits addresses start c (act limits addresses s (.write f)) := by
  have hrows : ∀ g ∈ writeRow f s.rows, g = f ∨ g ∈ s.rows := by
    intro g hg
    unfold writeRow at hg
    split at hg
    · obtain ⟨r, hr, hrg⟩ := List.mem_map.1 hg
      split at hrg
      · exact Or.inl hrg.symm
      · exact Or.inr (hrg ▸ hr)
    · rcases List.mem_append.1 hg with hg | hg
      · exact Or.inr hg
      · exact Or.inl (List.mem_singleton.1 hg)
  refine ⟨?_, fun g hg x hx hid => ?_, h.announced, h.recent, fun g hg hge hlt => ?_⟩
  · simp only [act, writeRow]
    split
    · have hsame : (·.fillId) ∘ (fun r : StreamFill => if r.fillId = f.fillId then f else r) = (·.fillId) := by
        funext r
        simp only [Function.comp_apply]
        split
        · next hr => exact hr.symm
        · rfl
      rw [List.map_map, hsame]
      exact h.ids
    · next hfresh =>
      rw [List.map_append]
      exact List.Nodup.append h.ids (List.nodup_singleton _) (by simpa using hfresh)
  · rcases hrows g hg with rfl | hg
    · exact htimely.2 x hx hid
    · exact h.parties g hg x hx hid
  · rcases hrows g hg with rfl | hg
    · have := htimely.1 c hc
      omega
    · exact h.passed g hg hge hlt

theorem kept_delete (h : Kept limits addresses start c s) (fillId : Bytes32) :
    Kept limits addresses start c (act limits addresses s (.delete fillId)) where
  ids := h.ids.sublist (List.filter_sublist.map _)
  parties f hf := h.parties f (List.mem_of_mem_filter hf)
  announced := h.announced
  recent := h.recent
  passed f hf := h.passed f (List.mem_of_mem_filter hf)

/-- What holds after the first poll of a subscription and every timely step. -/
def Following (limits : StreamLimits) (addresses : List Address) (start : Int) (s : Service) : Prop :=
  ∃ c, s.server.fillCursor = some c ∧ Kept limits addresses start c s

theorem following_poll (haddresses : addresses ≠ []) (now : Int) (h : Following limits addresses start s) :
    Following limits addresses start (act limits addresses s (.poll now)) := by
  obtain ⟨c, hc, hkept⟩ := h
  obtain ⟨p, hreads, hpoll⟩ := poll_reads limits s now haddresses
  rw [hc] at hreads
  rw [hpoll]
  exact ⟨p.fillCursor, rfl, kept_poll hkept hreads⟩

theorem following_subscribe (haddresses : addresses ≠ []) {rows : List StreamFill}
    (hids : (rows.map (·.fillId)).Nodup) :
    Following limits addresses start (subscribe limits addresses start rows) := by
  obtain ⟨p, hreads, hpoll⟩ := poll_reads limits (unheard rows) start haddresses
  rw [subscribe, hpoll]
  exact ⟨p.fillCursor, rfl, kept_poll (kept_unheard hids) hreads⟩

theorem following_run (haddresses : addresses ≠ []) {ls : List Act} {t : Service}
    (h : Run ((machine limits addresses).restrict (Timely limits)) s ls t) (hs : Following limits addresses start s) :
    Following limits addresses start t := by
  refine h.preserves (Following limits addresses start) (fun s l t hs hl => ?_) hs
  obtain ⟨htimely, rfl⟩ := hl
  cases l with
  | write f =>
    obtain ⟨c, hc, hkept⟩ := hs
    exact ⟨c, hc, kept_write hkept hc htimely⟩
  | delete fillId =>
    obtain ⟨c, hc, hkept⟩ := hs
    exact ⟨c, hc, kept_delete hkept fillId⟩
  | poll now => exact following_poll haddresses now hs

theorem polls_add (clock : Nat → Int) (s : Service) (n : Nat) :
    ∀ m, polls limits addresses clock s (n + m) =
      polls limits addresses (fun i => clock (n + i)) (polls limits addresses clock s n) m
  | 0 => rfl
  | m + 1 => by
    rw [← Nat.add_assoc, polls, polls_add clock s n m]
    rfl

theorem delivered_mono (haddresses : addresses ≠ []) (clock : Nat → Int) {n m : Nat} (hnm : n ≤ m)
    (hd : Delivered (polls limits addresses clock s n).server.sent a f) :
    Delivered (polls limits addresses clock s m).server.sent a f := by
  induction m, hnm using Nat.le_induction with
  | base => exact hd
  | succ m _ ih =>
    obtain ⟨p, hreads, hpoll⟩ := poll_reads limits (polls limits addresses clock s m) (clock m) haddresses
    rw [polls, hpoll]
    exact ih.mono hreads.sent

theorem polls_rows (haddresses : addresses ≠ []) (clock : Nat → Int) :
    ∀ n, (polls limits addresses clock s n).rows = s.rows
  | 0 => rfl
  | n + 1 => by
    obtain ⟨p, -, hpoll⟩ := poll_reads limits (polls limits addresses clock s n) (clock n) haddresses
    rw [polls, hpoll]
    exact polls_rows haddresses clock n

/-- **A starved fill is never delivered.** -/
theorem starved_polls (haddresses : addresses ≠ []) (clock : Nat → Int) (h : Following limits addresses start s)
    (hf : f ∈ s.rows) (hstarved : Starved limits addresses s f) (hd : ¬ Delivered s.server.sent a f) :
    ∀ n, Following limits addresses start (polls limits addresses clock s n) ∧
      Starved limits addresses (polls limits addresses clock s n) f ∧
      ¬ Delivered (polls limits addresses clock s n).server.sent a f
  | 0 => ⟨h, hstarved, hd⟩
  | n + 1 => by
    obtain ⟨hfollow, hstarved', hd'⟩ := starved_polls haddresses clock h hf hstarved hd n
    refine ⟨following_poll haddresses _ hfollow, ?_⟩
    obtain ⟨c, hc, hkept⟩ := hfollow
    obtain ⟨p, hreads, hpoll⟩ := poll_reads limits (polls limits addresses clock s n) (clock n) haddresses
    rw [hc] at hreads
    rw [polls, hpoll]
    have hrow : f ∈ (polls limits addresses clock s n).rows := by rwa [polls_rows haddresses]
    obtain ⟨hout, hstarved''⟩ := starved_poll hkept hc hreads hstarved'
    exact ⟨hstarved'', fun hd'' => hd' (hkept.delivered_of_reads hrow hreads hout hd'')⟩

/-- **A fill that is not starved is delivered**, by a number of polls that the distance of the cursor bounds. -/
theorem fed_polls (haddresses : addresses ≠ []) (ha : a ∈ addresses) (hhas : f.has a) :
    ∀ (k : Nat) (clock : Nat → Int) (c : Int) (s : Service), Kept limits addresses start c s →
      s.server.fillCursor = some c → f ∈ s.rows → c - limits.fillOverlapMs ≤ f.updatedAt →
      f.updatedAt + limits.fillOverlapMs - c ≤ k → ¬ Starved limits addresses s f →
      ∃ n, Delivered (polls limits addresses clock s n).server.sent a f
  | k, clock, c, s, hkept, hc, hf, hwindow, hk, hfed => by
    obtain ⟨p, hreads, hpoll⟩ := poll_reads limits s (clock 0) haddresses
    rw [hc] at hreads
    by_cases hd : Delivered p.sent a f
    · refine ⟨1, ?_⟩
      rw [polls, polls, hpoll]
      exact hd
    · obtain ⟨hmoves, hreach⟩ := cursor_moves hkept hc hf ha hhas hwindow hreads hfed hd
      cases k with
      | zero => omega
      | succ k =>
        obtain ⟨n, hn⟩ := fed_polls haddresses ha hhas k (fun i => clock (1 + i)) p.fillCursor _
          (kept_poll hkept hreads) rfl hf hreach (by omega) fun h => hfed (starved_of_poll hkept hc hreads h)
        refine ⟨1 + n, ?_⟩
        rw [polls_add, polls, polls, hpoll]
        exact hn

end Runs

theorem not_starved_of_length {limits : StreamLimits} {addresses : List Address} {s : Service} {f : StreamFill}
    (hf : f ∈ s.rows) (hwatched : ∃ a ∈ addresses, f.has a) (hfits : s.rows.length ≤ limits.batchLimit) :
    ¬ Starved limits addresses s f := by
  rintro ⟨c, -, since, -, hle, hout, -⟩
  have hshort : (changesSince s.rows addresses since).length ≤ limits.batchLimit := by
    rw [changesSince, List.length_insertionSort]
    exact (List.length_filter_le _ _).trans hfits
  rw [listFillChanges, List.take_of_length_le hshort] at hout
  exact hout (mem_changesSince.2 ⟨hf, hwatched, hle⟩)

def sampleFill (fillId : Bytes32) (updatedAt : Int) : StreamFill :=
  { fillId := fillId, status := .settled, rejectReason := none, marketId := 1, maker := 11, taker := 12,
    makerOrderHash := 1, takerOrderHash := 2, takerIsBuy := true, size := 1, price := 1, txJobId := none,
    createdAt := updatedAt, updatedAt := updatedAt }

/-- Two fills of a watched account change after the subscription. -/
theorem sample_run (limits : StreamLimits) :
    Run ((machine limits [11]).restrict (Timely limits)) (subscribe limits [11] 0 [])
      [.write (sampleFill 1 1), .write (sampleFill 2 2)]
      ⟨[sampleFill 1 1, sampleFill 2 2], some 0, fun _ => none, []⟩ := by
  have hstart : subscribe limits [11] 0 [] = ⟨[], some 0, fun _ => none, []⟩ := by
    simp [subscribe, act, unheard, pollFills, listFillChanges, changesSince]
  have hstep : ∀ rows f, 0 ≤ f.updatedAt → ((machine limits [11]).restrict (Timely limits)).step
      ⟨rows, some 0, fun _ => none, []⟩ (.write f) ⟨writeRow f rows, some 0, fun _ => none, []⟩ := by
    intro rows f hf
    refine ⟨⟨fun c hc => ?_, fun x hx => absurd hx List.not_mem_nil⟩, rfl⟩
    obtain rfl : 0 = c := Option.some.inj hc
    omega
  rw [hstart]
  exact (Run.single (hstep [] (sampleFill 1 1) (by decide))).snoc (hstep _ (sampleFill 2 2) (by decide))

end Kryon.Stream
