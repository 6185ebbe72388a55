import Kryon.SubmitOnce
/-!
# TxNonces — calls that share a nonce

`submit` looks at the open jobs only for a gap below its next nonce: where it takes the node's count, or its own next
nonce, an open job may hold it (`Vacant`).  And `wait` takes the receipt of any attempt at its nonce, whichever call that
attempt is of (`Alone`).
-/
namespace Kryon.TxSender

open Function (update)
open Matcher (TxJobStatus JobId)
open Transition (Run)

variable {opts : TxSenderOptions} {s s' s₀ : State} {ls : List Act} {f : Submit} {call : Call} {n : Nat} {id : JobId}
  {st : TxJobStatus}

/-! ## Open jobs -/

/-- An open job at the nonce is of the call. -/
def Free (s : State) (call : Call) (nonce : Nat) : Prop := ∀ j ∈ openJobs s.jobs, j.tx.nonce = nonce → j.tx.call = call

/-- What `submit` takes without looking is free, and nobody opens another job there before it signs. -/
def Vacant (s : State) : Act → Prop
  | .count pending => ∀ f n, s.submit = some f → (counted s.nextNonce pending).2 = .signing n → Free s f.call n
  | .scan => ∀ f p n, s.submit = some f → f.stage = .scanning p → s.nextNonce = some n → scanned s.jobs p n = n →
      Free s f.call n
  | .bump w _ => ∀ f n x, s.submit = some f → f.stage = .signing n → s.waits w = some x → x.current.tx.nonce = n →
      x.current.tx.call = f.call
  | .bumped w => ∀ f n x k, s.submit = some f → f.stage = .signing n → s.waits w = some x → x.stage = .marking k →
      ∀ j ∈ s.jobs, j.id = k.id → j.tx.nonce = n → j.tx.call = f.call
  | _ => True

/-- A wait starts where every attempt recorded at its nonce is of its call, and `submit` signs no other call there while it
lasts. -/
def Alone (s : State) : Act → Prop
  | .sign _ => ∀ f n w x, s.submit = some f → f.stage = .signing n → s.waits w = some x → x.job.tx.nonce = n →
      f.call = x.job.tx.call
  | .wait _ j => ∀ k ∈ s.jobs, k.tx.nonce = j.tx.nonce → k.tx.call = j.tx.call
  | _ => True

theorem Free.of_jobs (h : Free s call n) (hjobs : s'.jobs = s.jobs) : Free s' call n := by
  unfold Free
  rw [hjobs]
  exact h

theorem Free.setStatus (h : Free s call n) (hjobs : s'.jobs = setStatus id st s.jobs)
    (hopen : st.open_ = true → ∀ j ∈ s.jobs, j.id = id → j.tx.nonce = n → j.tx.call = call) : Free s' call n := by
  intro k hk hnonce
  obtain ⟨hk, hkopen⟩ := mem_openJobs.1 hk
  obtain ⟨j, hj, hid, -, htx, hstatus⟩ := mem_setStatus (hjobs ▸ hk)
  rw [← htx] at hnonce ⊢
  rcases hstatus with hsame | ⟨hid', hnew⟩
  · exact h j (mem_openJobs.2 ⟨hj, hsame ▸ hkopen⟩) hnonce
  · exact hopen (hnew ▸ hkopen) j hj (hid.trans hid') hnonce

/-- A gap has no open job. -/
theorem scanned_free {jobs : List TxJob} {pending next : Nat} (h : scanned jobs pending next ≠ next) :
    scanned jobs pending next ∉ (openJobs jobs).map (·.tx.nonce) := by
  unfold scanned at h ⊢
  cases hfind : (List.range' pending (next - pending)).find? fun n => !decide (n ∈ (openJobs jobs).map (·.tx.nonce)) with
  | none =>
    rw [hfind] at h
    exact absurd rfl h
  | some m => simpa using List.find?_some hfind

/-- What holds while `submit` has a nonce and has not signed. -/
def Exclusive (s : State) : Prop := ∀ f n, s.submit = some f → f.stage = .signing n → Free s f.call n

theorem Exclusive.keep (h : Exclusive s) (hsubmit : s'.submit = none ∨ s'.submit = s.submit)
    (hfree : ∀ f n, s.submit = some f → f.stage = .signing n → Free s f.call n → Free s' f.call n) : Exclusive s' := by
  intro f n hf hstage
  rcases hsubmit with hnone | hsame
  · rw [hnone] at hf
    cases hf
  · rw [hsame] at hf
    exact hfree f n hf hstage (h f n hf hstage)

theorem exclusive_step {a : Act} (h : Exclusive s) (hvacant : Vacant s a) (hstep : Step opts s a s') : Exclusive s' := by
  cases hstep with
  | request hidle =>
    intro f n hf hstage
    obtain rfl := Option.some.inj hf
    cases hstage
  | @count f pending hf hcounting =>
    intro g n hg hstage
    obtain rfl := Option.some.inj hg
    exact hvacant f n hf hstage
  | @scan f pending next hf hscanning hnext =>
    intro g n hg hstage
    obtain rfl := Option.some.inj hg
    obtain rfl : scanned s.jobs pending next = n := by simpa using hstage
    by_cases hgap : scanned s.jobs pending next = next
    · rw [hgap]
      exact hvacant f pending next hf hscanning hnext hgap
    · exact fun j hj hnonce => absurd (hnonce ▸ List.mem_map_of_mem hj) (scanned_free hgap)
  | sign hf hstage htx =>
    intro g n hg hstage'
    obtain rfl := Option.some.inj hg
    cases hstage'
  | @send f j reply taken hf hstage =>
    intro g n hg hstage'
    obtain rfl := Option.some.inj hg
    cases hreply : refusal reply <;> simp [hreply] at hstage'
  | mark hf hstage => exact h.keep (Or.inl rfl) fun _ _ hg hstage' => by cases hf.symm.trans hg; cases hstage.symm.trans hstage'
  | refuse hf hstage =>
    intro g n hg hstage'
    split at hg
    · obtain rfl := Option.some.inj hg
      cases hstage'
    · cases hg
  | abort => exact h.keep (Or.inl rfl) fun _ _ _ _ hfree => hfree.of_jobs rfl
  | restart => exact h.keep (Or.inl rfl) fun _ _ _ _ hfree => hfree.of_jobs rfl
  | resume => exact h.keep (Or.inr rfl) fun _ _ _ _ hfree => hfree.of_jobs rfl
  | wait => exact h.keep (Or.inr rfl) fun _ _ _ _ hfree => hfree.of_jobs rfl
  | @bump w j c baseFee fees tx hw hfees htx =>
    refine h.keep (Or.inr rfl) fun f n hf hstage hfree k hk hnonce => ?_
    obtain ⟨hk, hkopen⟩ := mem_openJobs.1 hk
    rcases List.mem_append.1 hk with hk | hk
    · exact hfree k (mem_openJobs.2 ⟨hk, hkopen⟩) hnonce
    · rw [List.mem_singleton.1 hk, htx] at hnonce ⊢
      exact hvacant f n _ hf hstage hw hnonce
  | supersede => exact h.keep (Or.inr rfl) fun _ _ _ _ hfree => hfree.setStatus rfl fun hopen => by cases hopen
  | resend => exact h.keep (Or.inr rfl) fun _ _ _ _ hfree => hfree.of_jobs rfl
  | bumped hw =>
    exact h.keep (Or.inr rfl) fun f n hf hstage hfree =>
      hfree.setStatus rfl fun _ => hvacant f n _ _ hf hstage hw rfl
  | @bumpRefused w j c k e hw =>
    refine h.keep (Or.inr rfl) fun _ _ _ _ hfree => hfree.setStatus rfl fun hopen => ?_
    exact absurd (e.status_closed.symm.trans hopen) Bool.false_ne_true
  | rebroadcast => exact h.keep (Or.inr rfl) fun _ _ _ _ hfree => hfree.of_jobs rfl
  | @found w j c k ok hw hk hreceipt =>
    refine h.keep (Or.inr rfl) fun _ _ _ _ hfree => hfree.setStatus rfl fun hopen => ?_
    cases ok <;> cases hopen
  | taken => exact h.keep (Or.inr rfl) fun _ _ _ _ hfree => hfree.of_jobs rfl
  | drop => exact h.keep (Or.inr rfl) fun _ _ _ _ hfree => hfree.setStatus rfl fun hopen => by cases hopen
  | returned => exact h.keep (Or.inr rfl) fun _ _ _ _ hfree => hfree.of_jobs rfl
  | throw => exact h.keep (Or.inr rfl) fun _ _ _ _ hfree => hfree.of_jobs rfl
  | close hj hclosed =>
    refine h.keep (Or.inr rfl) fun _ _ _ _ hfree => hfree.setStatus rfl fun hopen => ?_
    exact absurd (hclosed.symm.trans hopen) Bool.false_ne_true
  | deliver => exact h.keep (Or.inr rfl) fun _ _ _ _ hfree => hfree.of_jobs rfl
  | mine => exact h.keep (Or.inr rfl) fun _ _ _ _ hfree => hfree.of_jobs rfl

namespace Sample

def other : Call := ⟨8, [2], 0⟩

/-- One call is in flight at nonce 0; another is about to be signed at `nonce`. -/
def signing (nonce next : Nat) : State where
  jobs := [⟨0, 0, tx 0, .submitted⟩]
  nextNonce := some next
  submit := some ⟨1, other, 21000, 0, .signing nonce⟩
  waits := fun _ => none
  handed := [⟨0, 0, tx 0, .pending⟩]
  requests := 2
  known := [tx 0]
  mined := []

/-- The call in flight, and nothing else. -/
def inFlight : State := { signing 0 1 with submit := none, requests := 1 }

theorem inFlight_run : ∃ ls, Run ((machine options).restrict fun s a => Vacant s a ∧ Alone s a) (start []) ls
    inFlight := by
  have hstart := Run.nil (M := (machine options).restrict fun s a => Vacant s a ∧ Alone s a) (s := start [])
  have hrequest := hstart.snoc (l := Act.request call 21000) ⟨⟨trivial, trivial⟩, Step.request rfl⟩
  have hvacant : ∀ c, Vacant { start [] with submit := some ⟨0, c, 21000, 0, .counting⟩, requests := 1 } (Act.count 0) :=
    fun _ _ _ _ _ j hj => absurd hj List.not_mem_nil
  have hcount := hrequest.snoc (l := Act.count 0) ⟨⟨hvacant call, trivial⟩, Step.count rfl rfl⟩
  have halone : ∀ f, Alone { start [] with submit := some f, nextNonce := some 0, requests := 1 } (Act.sign none) :=
    fun _ _ _ _ _ _ _ hx => by cases hx
  have hsign := hcount.snoc (l := Act.sign none) ⟨⟨trivial, halone _⟩, Step.sign rfl rfl rfl⟩
  have hsend := hsign.snoc (l := Act.send none true) ⟨⟨trivial, trivial⟩, Step.send rfl rfl⟩
  have hmark := hsend.snoc (l := Act.mark) ⟨⟨trivial, trivial⟩, Step.mark rfl rfl⟩
  exact ⟨_, hmark⟩

end Sample

/-- The transaction is of the same call at the same nonce. -/
def Tx.Repeats (t t' : Tx) : Prop := t.nonce = t'.nonce ∧ t.call = t'.call

/-- The transaction of some row. -/
def Signed (s : State) (t : Tx) : Prop := ∃ k ∈ s.jobs, k.tx = t

/-- What a wait holds and looks up is of its job's call. -/
structure Watches (s : State) (x : Wait) : Prop where
  row : Signed s x.job.tx
  current : x.current.tx.Repeats x.job.tx
  next : ∀ n, x.stage.next = some n → n.tx.Repeats x.job.tx
  rows : ∀ k ∈ s.jobs, k.tx.nonce = x.job.tx.nonce → k.tx.call = x.job.tx.call
  receipt : ∀ ids r, x.stage = .closing ids (some r) → r ∈ s.mined ∧ r.1.Repeats x.job.tx

structure Watched (s : State) : Prop where
  waits : ∀ w x, s.waits w = some x → Watches s x
  handed : ∀ j ∈ s.handed, Signed s j.tx
  attempt : ∀ f j, s.submit = some f → f.stage.job = some j → Signed s j.tx

/-- No transaction is new in the rows or gone from them, and no receipt is gone. -/
structure Quiet (s s' : State) : Prop where
  rows : ∀ k ∈ s'.jobs, Signed s k.tx
  kept : ∀ j ∈ s.jobs, Signed s' j.tx
  mined : ∀ r ∈ s.mined, r ∈ s'.mined

section Receipts

variable {w : Nat} {x : Wait} {y : Option Wait} {t : Tx}

theorem quiet_same (hjobs : s'.jobs = s.jobs) (hmined : s'.mined = s.mined) : Quiet s s' :=
  ⟨fun k hk => ⟨k, hjobs ▸ hk, rfl⟩, fun k hk => ⟨k, hjobs.symm ▸ hk, rfl⟩, fun _ hr => hmined ▸ hr⟩

theorem quiet_setStatus (hjobs : s'.jobs = setStatus id st s.jobs) (hmined : s'.mined = s.mined) : Quiet s s' := by
  refine ⟨fun k hk => ?_, fun k hk => ?_, fun _ hr => hmined ▸ hr⟩
  · obtain ⟨j, hj, -, -, htx, -⟩ := mem_setStatus (hjobs ▸ hk)
    exact ⟨j, hj, htx⟩
  · obtain ⟨j, hj, -, -, htx⟩ := setStatus_mem id st hk
    exact ⟨j, hjobs.symm ▸ hj, htx⟩

theorem Quiet.signed (h : Quiet s s') (ht : Signed s t) : Signed s' t := by
  obtain ⟨k, hk, rfl⟩ := ht
  exact h.kept k hk

theorem Watches.quiet (hx : Watches s x) (h : Quiet s s') : Watches s' x where
  row := h.signed hx.row
  current := hx.current
  next := hx.next
  rows k hk hnonce := by
    obtain ⟨j, hj, htx⟩ := h.rows k hk
    rw [← htx] at hnonce ⊢
    exact hx.rows j hj hnonce
  receipt ids r hr := ⟨h.mined r (hx.receipt ids r hr).1, (hx.receipt ids r hr).2⟩

/-- **A step that signs nothing**, and leaves the waits alone. -/
theorem Watched.quiet (hs : Watched s) (h : Quiet s s') (hwaits : s'.waits = s.waits)
    (hhanded : ∀ j ∈ s'.handed, Signed s j.tx)
    (hattempt : ∀ f j, s'.submit = some f → f.stage.job = some j → Signed s j.tx) : Watched s' where
  waits w x hx := (hs.waits w x (hwaits ▸ hx)).quiet h
  handed j hj := h.signed (hhanded j hj)
  attempt f j hf hj := h.signed (hattempt f j hf hj)

/-- **One wait moves**, and nothing is signed. -/
theorem Watched.setWait (hs : Watched s) (h : Quiet s s') (hwaits : s'.waits = update s.waits w y)
    (hhanded : s'.handed = s.handed) (hsubmit : s'.submit = s.submit) (hy : ∀ x, y = some x → Watches s x) :
    Watched s' where
  waits v x hx := by
    by_cases hv : v = w
    · subst hv
      rw [hwaits, Function.update_self] at hx
      exact (hy x hx).quiet h
    · rw [hwaits, Function.update_of_ne hv] at hx
      exact (hs.waits v x hx).quiet h
  handed j hj := h.signed (hs.handed j (hhanded ▸ hj))
  attempt f j hf hj := h.signed (hs.attempt f j (hsubmit ▸ hf) hj)

theorem Signed.append {request : Nat} {tx : Tx} (h : Signed s t) : Signed (s.signAndPersist request tx) t := by
  obtain ⟨k, hk, rfl⟩ := h
  exact ⟨k, List.mem_append_left _ hk, rfl⟩

theorem signed_append {request : Nat} {tx : Tx} : Signed (s.signAndPersist request tx) tx :=
  ⟨_, List.mem_append_right _ (List.mem_singleton_self _), rfl⟩

theorem Watches.append {request : Nat} {tx : Tx} (hx : Watches s x)
    (hcall : tx.nonce = x.job.tx.nonce → tx.call = x.job.tx.call) : Watches (s.signAndPersist request tx) x where
  row := hx.row.append
  current := hx.current
  next := hx.next
  rows k hk hnonce := by
    rcases List.mem_append.1 hk with hk | hk
    · exact hx.rows k hk hnonce
    · rw [List.mem_singleton.1 hk] at hnonce ⊢
      exact hcall hnonce
  receipt := hx.receipt

/-- **A replacement is of the call of every wait at its nonce**: the row of its job is. -/
theorem watched_bump {j c : TxJob} {tx : Tx} (hs : Watched s) (hw : s.waits w = some ⟨j, c, .watching⟩)
    (htx : tx.Repeats c.tx) :
    Watched ((s.signAndPersist c.request tx).setWait w (some ⟨j, c, .replacing (s.signed c.request tx)⟩)) := by
  have hx := hs.waits w _ hw
  have hjob : tx.Repeats j.tx := ⟨htx.1.trans hx.current.1, htx.2.trans hx.current.2⟩
  have hcall : ∀ v z, s.waits v = some z → tx.nonce = z.job.tx.nonce → tx.call = z.job.tx.call := by
    intro v z hz hnonce
    obtain ⟨k, hk, hkj⟩ := hx.row
    have hrow := (hs.waits v z hz).rows k hk (by rw [hkj, ← hjob.1, hnonce])
    rw [hjob.2, ← hrow, hkj]
  refine ⟨fun v z hz => ?_, fun j hj => (hs.handed j hj).append, fun f j hf hj => (hs.attempt f j hf hj).append⟩
  by_cases hv : v = w
  · subst hv
    obtain rfl : _ = z := Option.some.inj ((Function.update_self v _ s.waits).symm.trans hz)
    have hnew : Watches (s.signAndPersist c.request tx) ⟨j, c, .watching⟩ := hx.append (hcall v _ hw)
    refine ⟨hnew.row, hnew.current, fun n hn => ?_, hnew.rows, fun ids r hr => by cases hr⟩
    obtain rfl := Option.some.inj hn
    exact hjob
  · have hz' := (Function.update_of_ne hv _ s.waits).symm.trans hz
    have hold : Watches (s.signAndPersist c.request tx) z := (hs.waits v z hz').append (hcall v z hz')
    exact ⟨hold.row, hold.current, hold.next, hold.rows, hold.receipt⟩

theorem Watches.move {j c c' : TxJob} {stage stage' : Watch} (hx : Watches s ⟨j, c, stage⟩) (hc : c'.tx.Repeats j.tx)
    (hnext : ∀ n, stage'.next = some n → n.tx.Repeats j.tx)
    (hreceipt : ∀ ids r, stage' = .closing ids (some r) → r ∈ s.mined ∧ r.1.Repeats j.tx) :
    Watches s ⟨j, c', stage'⟩ := ⟨hx.row, hc, hnext, hx.rows, hreceipt⟩

theorem Watches.watching {j c c' : TxJob} {stage : Watch} (hx : Watches s ⟨j, c, stage⟩) (hc : c'.tx.Repeats j.tx) :
    Watches s ⟨j, c', .watching⟩ := hx.move hc (fun n hn => by cases hn) fun ids r hr => by cases hr

theorem counted_not_sending (nextNonce : Option Nat) (pending : Nat) {j : TxJob} :
    (counted nextNonce pending).2.job ≠ some j := by
  rw [counted_job]
  simp

theorem watched_step {a : Act} (hs : Watched s) (halone : Alone s a) (hstep : Step opts s a s') : Watched s' := by
  cases hstep with
  | request =>
    refine hs.quiet (quiet_same rfl rfl) rfl hs.handed fun f j hf hj => ?_
    obtain rfl := Option.some.inj hf
    cases hj
  | count =>
    refine hs.quiet (quiet_same rfl rfl) rfl hs.handed fun f j hf hj => ?_
    obtain rfl := Option.some.inj hf
    exact absurd hj (counted_not_sending _ _)
  | scan =>
    refine hs.quiet (quiet_same rfl rfl) rfl hs.handed fun f j hf hj => ?_
    obtain rfl := Option.some.inj hf
    cases hj
  | @sign f nonce baseFee tx hf hstage htx =>
    refine ⟨fun w x hx => ?_, fun j hj => (hs.handed j hj).append, fun g j hg hj => ?_⟩
    · have hnew : Watches (s.signAndPersist f.request tx) x := (hs.waits w x hx).append fun hnonce => by
        rw [htx] at hnonce ⊢
        exact halone f nonce w x hf hstage hx hnonce.symm
      exact ⟨hnew.row, hnew.current, hnew.next, hnew.rows, hnew.receipt⟩
    · obtain rfl := Option.some.inj hg
      obtain rfl := Option.some.inj hj
      exact signed_append
  | @send f j reply taken hf hstage =>
    refine hs.quiet (quiet_same rfl rfl) rfl hs.handed fun g i hg hi => hs.attempt f i hf ?_
    obtain rfl := Option.some.inj hg
    rw [hstage]
    cases hreply : refusal reply <;> rw [hreply] at hi <;> exact hi
  | @mark f j hf hstage =>
    refine hs.quiet (quiet_setStatus rfl rfl) rfl (fun i hi => ?_) fun g i hg hi => by cases hg
    rcases List.mem_cons.1 hi with rfl | hi
    · exact hs.attempt f i hf (by rw [hstage]; rfl)
    · exact hs.handed i hi
  | refuse hf hstage =>
    split
    · refine hs.quiet (quiet_setStatus rfl rfl) rfl hs.handed fun g i hg hi => ?_
      obtain rfl := Option.some.inj hg
      cases hi
    · exact hs.quiet (quiet_setStatus rfl rfl) rfl hs.handed fun g i hg hi => by cases hg
  | abort => exact hs.quiet (quiet_same rfl rfl) rfl hs.handed fun g i hg hi => by cases hg
  | restart => exact ⟨fun w x hx => (by cases hx), fun j hj => absurd hj List.not_mem_nil, fun g i hg hi => by cases hg⟩
  | resume hidle hj =>
    refine hs.quiet (quiet_same rfl rfl) rfl (fun i hi => ?_) hs.attempt
    rcases List.mem_cons.1 hi with rfl | hi
    · exact ⟨i, (mem_openJobs.1 hj).1, rfl⟩
    · exact hs.handed i hi
  | @wait w j hw hj =>
    refine hs.setWait (quiet_same rfl rfl) rfl rfl rfl fun x hx => ?_
    obtain rfl := Option.some.inj hx
    exact ⟨hs.handed j hj, ⟨rfl, rfl⟩, fun n hn => (by cases hn), halone, fun ids r hr => by cases hr⟩
  | bump hw hfees htx => exact watched_bump hs hw (by rw [htx]; exact ⟨rfl, rfl⟩)
  | @supersede w j c n hw =>
    refine hs.setWait (quiet_setStatus rfl rfl) rfl rfl rfl fun x hx => ?_
    obtain rfl := Option.some.inj hx
    have hx := hs.waits w _ hw
    exact hx.move hx.current hx.next fun ids r hr => by cases hr
  | @resend w j c n reply taken hw =>
    refine hs.setWait (quiet_same rfl rfl) rfl rfl rfl fun x hx => ?_
    obtain rfl := Option.some.inj hx
    have hx := hs.waits w _ hw
    cases refusal reply with
    | none => exact hx.move hx.current hx.next fun ids r hr => by cases hr
    | some e => exact hx.move hx.current hx.next fun ids r hr => by cases hr
  | @bumped w j c n hw =>
    refine hs.setWait (quiet_setStatus rfl rfl) rfl rfl rfl fun x hx => ?_
    obtain rfl := Option.some.inj hx
    have hx := hs.waits w _ hw
    exact hx.watching (hx.next n rfl)
  | @bumpRefused w j c n e hw =>
    refine hs.setWait (quiet_setStatus rfl rfl) rfl rfl rfl fun x hx => ?_
    split at hx
    · obtain rfl := Option.some.inj hx
      have hx := hs.waits w _ hw
      exact hx.watching (hx.next n rfl)
    · cases hx
  | @rebroadcast w j c reply taken hw =>
    refine hs.setWait (quiet_same rfl rfl) rfl rfl rfl fun x hx => ?_
    split at hx
    · obtain rfl := Option.some.inj hx
      exact hs.waits w _ hw
    · cases hx
  | @found w j c k ok hw hk hreceipt =>
    refine hs.setWait (quiet_setStatus rfl rfl) rfl rfl rfl fun x hx => ?_
    obtain rfl := Option.some.inj hx
    have hx := hs.waits w _ hw
    -- every attempt at the nonce is of the job's call
    obtain ⟨hrow, hnonce⟩ := mem_byNonce.1 hk
    have hsame : k.tx.nonce = j.tx.nonce := hnonce.trans hx.current.1
    refine hx.move hx.current (fun n hn => by cases hn) fun ids r hr => ?_
    cases hr
    exact ⟨hreceipt, hsame, hx.rows k hrow hsame⟩
  | @taken w j c hw =>
    refine hs.setWait (quiet_same rfl rfl) rfl rfl rfl fun x hx => ?_
    obtain rfl := Option.some.inj hx
    have hx := hs.waits w _ hw
    exact hx.move hx.current (fun n hn => by cases hn) fun ids r hr => by cases hr
  | @drop w j c id ids receipt hw =>
    refine hs.setWait (quiet_setStatus rfl rfl) rfl rfl rfl fun x hx => ?_
    obtain rfl := Option.some.inj hx
    have hx := hs.waits w _ hw
    refine hx.move hx.current (fun n hn => by cases hn) fun ids' r hr => hx.receipt (id :: ids) r ?_
    cases hr
    rfl
  | returned => exact hs.setWait (quiet_same rfl rfl) rfl rfl rfl fun x hx => by cases hx
  | throw => exact hs.setWait (quiet_same rfl rfl) rfl rfl rfl fun x hx => by cases hx
  | close => exact hs.quiet (quiet_setStatus rfl rfl) rfl hs.handed hs.attempt
  | deliver => exact hs.quiet (quiet_same rfl rfl) rfl hs.handed hs.attempt
  | mine =>
    refine hs.quiet ⟨fun k hk => ⟨k, hk, rfl⟩, fun k hk => ⟨k, hk, rfl⟩, fun r hr => ?_⟩ rfl hs.handed hs.attempt
    exact List.mem_append_left _ hr

theorem watched_initial (h : s.Initial) : Watched s where
  waits w x hx := by simp [h.waits w] at hx
  handed j hj := by simp [h.handed] at hj
  attempt f j hf := by simp [h.submit] at hf

end Receipts

/-- **The receipt `wait` returns is of its job's call**, in a run in which no other call is at the nonce while a wait watches
it. -/
theorem receipt_belongs {t : State} {w : Nat} {j : TxJob} {receipt : Tx × Bool} (h₀ : s₀.Initial)
    (hrun : Run ((machine opts).restrict Alone) s₀ ls s) (hreturn : Step opts s (.returned w j receipt) t) :
    receipt ∈ s.mined ∧ receipt.1.call = j.tx.call := by
  have hinv : Watched s := by
    refine hrun.preserves Watched (fun s l t hs hl => ?_) (watched_initial h₀)
    exact watched_step hs hl.1 hl.2
  cases hreturn with
  | returned hw =>
    obtain ⟨hmined, -, hcall⟩ := (hinv.waits w _ hw).receipt [] receipt rfl
    exact ⟨hmined, hcall⟩

namespace Sample

def job : TxJob := ⟨0, 0, tx 0, .pending⟩

/-- A receipt at the job's nonce was found for `t`. -/
def returning (jobs : List TxJob) (waits : Nat → Option Wait) (t : Tx) : State :=
  { inFlight with
    jobs := jobs
    waits := update waits 0 (some ⟨job, job, .closing [] (some (t, true))⟩)
    mined := [(t, true)] }

end Sample

theorem receipt_belongs_first : (Sample.tx 0, true) ∈ [(Sample.tx 0, true)] ∧ (Sample.tx 0).call = Sample.job.tx.call := by
  obtain ⟨ls, hboth⟩ := Sample.inFlight_run
  have hrun := hboth.weaken (Q := Alone) fun _ _ h => h.2
  have halone : Alone Sample.inFlight (Act.wait 0 Sample.job) := by
    intro k hk hnonce
    rw [List.mem_singleton.1 hk]
    rfl
  have hwait := hrun.snoc (l := Act.wait 0 Sample.job) ⟨halone, Step.wait rfl (List.mem_singleton_self _)⟩
  have hmine := hwait.snoc (l := Act.mine (Sample.tx 0) true) ⟨trivial, Step.mine (List.mem_singleton_self _) rfl⟩
  have hfound := hmine.snoc (l := Act.found 0 ⟨0, 0, Sample.tx 0, .submitted⟩ true)
    ⟨trivial, Step.found rfl (by decide) (List.mem_singleton_self _)⟩
  have hreturn : Step Sample.options (Sample.returning [⟨0, 0, Sample.tx 0, .confirmed⟩]
      (update (fun _ => none) 0 (some ⟨Sample.job, Sample.job, .watching⟩)) (Sample.tx 0))
      (Act.returned 0 Sample.job (Sample.tx 0, true)) _ := Step.returned rfl
  exact receipt_belongs (Sample.start_initial [] rfl) hfound hreturn

/-- **A replacement is refused as underpriced, and `submit` fills the gap with another call**: the wait returns that call's
receipt. -/
theorem receipt_of_other : ∃ s₀ ls s t receipt, s₀.Initial ∧ Run (machine Sample.options) s₀ ls s ∧
    Step Sample.options s (.returned 0 Sample.job receipt) t ∧ receipt.1.call ≠ Sample.job.tx.call := by
  obtain ⟨ls, hboth⟩ := Sample.inFlight_run
  have hrun := hboth.of_restrict
  have hwait := hrun.snoc (l := Act.wait 0 Sample.job) (Step.wait rfl (List.mem_singleton_self _))
  have hbump := hwait.snoc (l := Act.bump 0 none) (Step.bump rfl rfl rfl)
  have hsupersede := hbump.snoc (l := Act.supersede 0) (Step.supersede rfl)
  have hresend := hsupersede.snoc (l := Act.resend 0 (some ⟨false, false, true⟩) false) (Step.resend rfl)
  have hrefused := hresend.snoc (l := Act.bumpRefused 0) (Step.bumpRefused rfl)
  have hrequest := hrefused.snoc (l := Act.request Sample.other 21000) (Step.request rfl)
  have hcount := hrequest.snoc (l := Act.count 0) (Step.count rfl rfl)
  have hscan := hcount.snoc (l := Act.scan) (Step.scan rfl rfl rfl)
  have hsign := hscan.snoc (l := Act.sign none) (Step.sign rfl rfl rfl)
  have hsend := hsign.snoc (l := Act.send none true) (Step.send rfl rfl)
  have hmine := hsend.snoc (l := Act.mine ⟨0, Sample.other, 21000, 40 * 10 ^ 9, 10 ^ 9⟩ true)
    (Step.mine (by decide) rfl)
  have hfound := hmine.snoc
    (l := Act.found 0 ⟨2, 1, ⟨0, Sample.other, 21000, 40 * 10 ^ 9, 10 ^ 9⟩, .pending⟩ true)
    (Step.found rfl (by decide) (List.mem_singleton_self _))
  exact ⟨_, _, _, _, (⟨0, Sample.other, 21000, 40 * 10 ^ 9, 10 ^ 9⟩, true), Sample.start_initial [] rfl, hfound,
    Step.returned rfl, by decide⟩

end Kryon.TxSender
