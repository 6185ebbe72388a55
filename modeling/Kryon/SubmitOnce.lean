import Kryon.TxSender
/-!
# SubmitOnce — how often a call of `submit` is mined

A retry signs the call again at another nonce, so the call is mined once only if the attempt it retries can no longer be.
The node says so with "nonce too low", and is right when it is another transaction that has been mined at the nonce
(`Honest`).  Then the attempts of a call outside one nonce, its home, are dead and closed (`Once`).
-/
namespace Kryon.TxSender

open Function (update)
open Matcher (TxJobStatus JobId)
open Transition (Run)

/-- The job of an attempt that is on its way to the node. -/
def Stage.job : Stage → Option TxJob
  | .counting | .scanning _ | .signing _ => none
  | .sending j | .marking j | .refusing j _ => some j

/-- The replacement that is on its way to the node. -/
def Watch.next : Watch → Option TxJob
  | .watching | .closing _ _ => none
  | .replacing n | .resending n | .marking n | .refusing n _ => some n

/-- A call of the process holds the job, or may be given it. -/
def State.InUse (s : State) (y : TxJob) : Prop :=
  y ∈ s.handed ∨ ∃ w x, s.waits w = some x ∧ (y = x.job ∨ y = x.current ∨ x.stage.next = some y)

/-- The row of a job a call holds; its status may have moved on. -/
def Recorded (s : State) (y : TxJob) : Prop := ∃ k ∈ s.jobs, k.id = y.id ∧ k.request = y.request ∧ k.tx = y.tx

/-- The nonce went to another transaction. -/
def Dead (s : State) (j : TxJob) : Prop := j.tx.nonce < s.mined.length ∧ ∀ r ∈ s.mined, r.1 ≠ j.tx

/-- "Nonce too low" means that another transaction was mined at the nonce, whenever `submit` tries again on it. -/
def Honest (s : State) : Act → Prop
  | .send reply _ => ∀ f j e, s.submit = some f → f.stage = .sending j → refusal reply = some e → e.nonceTooLow = true →
      f.attempt < 2 → ∃ r ∈ s.mined, r.1.nonce = j.tx.nonce ∧ r.1 ≠ j.tx
  | _ => True

/-! ## What the steps keep -/

variable {opts : TxSenderOptions} {s s' : State} {home : Nat → Nat} {j k y : TxJob} {id : JobId} {st : TxJobStatus}

structure Rows (s : State) (home : Nat → Nat) : Prop where
  mined : s.mined.map (·.1.nonce) = List.range s.mined.length
  ids : s.jobs.map (·.id) = List.range s.jobs.length
  fresh : ∀ j ∈ s.jobs, j.request < s.requests
  home : ∀ j ∈ s.jobs, j.tx.nonce = home j.request ∨ Dead s j ∧ j.status.open_ = false

/-- What is in use was signed at home, and not for the call of `submit` in progress. -/
def Uses (s : State) (home : Nat → Nat) : Prop :=
  ∀ y, s.InUse y → Recorded s y ∧ y.tx.nonce = home y.request ∧ ∀ f, s.submit = some f → y.request ≠ f.request

/-- What `submit` is about: its attempt is at home, and every earlier one dead and closed. -/
structure Trying (s : State) (home : Nat → Nat) (f : Submit) : Prop where
  fresh : f.request < s.requests
  attempt : ∀ j, f.stage.job = some j → Recorded s j ∧ j.request = f.request ∧ j.tx.nonce = home j.request
  earlier : ∀ k ∈ s.jobs, k.request = f.request →
    (∃ j, f.stage.job = some j ∧ k.id = j.id) ∨ Dead s k ∧ k.status.open_ = false
  refused : ∀ j e, f.stage = .refusing j e → e.nonceTooLow = true → f.attempt < 2 → Dead s j

structure Once (s : State) (home : Nat → Nat) : Prop where
  rows : Rows s home
  uses : Uses s home
  trying : ∀ f, s.submit = some f → Trying s home f

/-- The rows are as they were but for their statuses, and those that opened satisfy `P`. -/
structure Keeps (P : TxJob → Prop) (s s' : State) : Prop where
  mined : s'.mined = s.mined
  requests : s'.requests = s.requests
  ids : s'.jobs.map (·.id) = s.jobs.map (·.id)
  back : ∀ k ∈ s'.jobs, ∃ j ∈ s.jobs, j.id = k.id ∧ j.request = k.request ∧ j.tx = k.tx ∧
    (k.status.open_ = true → j.status.open_ = true ∨ P k)
  forth : ∀ j ∈ s.jobs, ∃ k ∈ s'.jobs, k.id = j.id ∧ k.request = j.request ∧ k.tx = j.tx

section Keeps

variable {P : TxJob → Prop}

theorem keeps_same (hjobs : s'.jobs = s.jobs) (hmined : s'.mined = s.mined) (hrequests : s'.requests = s.requests) :
    Keeps P s s' where
  mined := hmined
  requests := hrequests
  ids := by rw [hjobs]
  back k hk := ⟨k, hjobs ▸ hk, rfl, rfl, rfl, Or.inl⟩
  forth j hj := ⟨j, hjobs.symm ▸ hj, rfl, rfl, rfl⟩

theorem keeps_setStatus (hjobs : s'.jobs = setStatus id st s.jobs) (hmined : s'.mined = s.mined)
    (hrequests : s'.requests = s.requests) : Keeps (fun k => k.id = id ∧ st.open_ = true) s s' where
  mined := hmined
  requests := hrequests
  ids := by rw [hjobs, setStatus_ids]
  back k hk := by
    obtain ⟨j, hj, hid, hrequest, htx, hstatus⟩ := mem_setStatus (hjobs ▸ hk)
    refine ⟨j, hj, hid, hrequest, htx, fun hopen => ?_⟩
    rcases hstatus with hsame | ⟨hid', hnew⟩
    · exact Or.inl (hsame ▸ hopen)
    · exact Or.inr ⟨hid', hnew ▸ hopen⟩
  forth j hj := by
    obtain ⟨k, hk, hsame⟩ := setStatus_mem id st hj
    exact ⟨k, hjobs.symm ▸ hk, hsame⟩

theorem Keeps.recorded (h : Keeps P s s') (hy : Recorded s y) : Recorded s' y := by
  obtain ⟨j, hj, hid, hrequest, htx⟩ := hy
  obtain ⟨k, hk, hid', hrequest', htx'⟩ := h.forth j hj
  exact ⟨k, hk, hid'.trans hid, hrequest'.trans hrequest, htx'.trans htx⟩

theorem Keeps.dead (h : Keeps P s s') (htx : k.tx = j.tx) (hj : Dead s j) : Dead s' k := by
  unfold Dead at *
  rwa [h.mined, htx]

theorem Keeps.rows (h : Keeps P s s') (hP : ∀ k ∈ s'.jobs, P k → k.tx.nonce = home k.request) (hr : Rows s home) :
    Rows s' home where
  mined := by rw [h.mined]; exact hr.mined
  ids := by
    have hlength := congrArg List.length h.ids
    simp only [List.length_map] at hlength
    rw [h.ids, hr.ids, hlength]
  fresh k hk := by
    obtain ⟨j, hj, -, hrequest, -⟩ := h.back k hk
    rw [h.requests, ← hrequest]
    exact hr.fresh j hj
  home k hk := by
    obtain ⟨j, hj, -, hrequest, htx, hopen⟩ := h.back k hk
    rcases hr.home j hj with hhome | ⟨hdead, hclosed⟩
    · exact Or.inl (by rwa [← hrequest, ← htx])
    · cases hk' : k.status.open_ with
      | false => exact Or.inr ⟨h.dead htx.symm hdead, rfl⟩
      | true =>
        rcases hopen hk' with hj' | hPk
        · exact absurd (hclosed.symm.trans hj') Bool.false_ne_true
        · exact Or.inl (hP k hk hPk)

theorem Keeps.trying {f : Submit} (h : Keeps P s s') (hP : ∀ k ∈ s'.jobs, P k → k.request ≠ f.request)
    (ht : Trying s home f) : Trying s' home f where
  fresh := h.requests ▸ ht.fresh
  attempt j hj := ⟨h.recorded (ht.attempt j hj).1, (ht.attempt j hj).2⟩
  earlier k hk hrequest := by
    obtain ⟨j, hj, hid, hrequest', htx, hopen⟩ := h.back k hk
    rcases ht.earlier j hj (hrequest'.trans hrequest) with ⟨i, hi, hid'⟩ | ⟨hdead, hclosed⟩
    · exact Or.inl ⟨i, hi, hid.symm.trans hid'⟩
    · refine Or.inr ⟨h.dead htx.symm hdead, ?_⟩
      cases hk' : k.status.open_ with
      | false => rfl
      | true =>
        rcases hopen hk' with hj' | hPk
        · exact absurd (hclosed.symm.trans hj') Bool.false_ne_true
        · exact absurd hrequest (hP k hk hPk)
  refused j e hstage hlow hattempt := h.dead rfl (ht.refused j e hstage hlow hattempt)

theorem Keeps.uses (h : Keeps P s s') (huse : ∀ y, s'.InUse y → s.InUse y)
    (hsubmit : s'.submit = none ∨ s'.submit = s.submit) (hu : Uses s home) : Uses s' home := by
  intro y hy
  obtain ⟨hrecorded, hnonce, hother⟩ := hu y (huse y hy)
  refine ⟨h.recorded hrecorded, hnonce, fun f hf => ?_⟩
  rcases hsubmit with hnone | hsame
  · rw [hnone] at hf
    cases hf
  · exact hother f (hsame ▸ hf)

/-- **A step that opens only rows in use and hands out nothing new keeps the homes.** -/
theorem Keeps.once (h : Keeps P s s') (hP : ∀ k ∈ s'.jobs, P k → k.tx.nonce = home k.request ∧
      ∀ f, s'.submit = some f → k.request ≠ f.request)
    (huse : ∀ y, s'.InUse y → s.InUse y) (hsubmit : s'.submit = none ∨ s'.submit = s.submit) (ho : Once s home) :
    Once s' home := by
  refine ⟨h.rows (fun k hk hPk => (hP k hk hPk).1) ho.rows, h.uses huse hsubmit ho.uses, fun f hf => ?_⟩
  refine h.trying (fun k hk hPk => (hP k hk hPk).2 f hf) (ho.trying f ?_)
  rcases hsubmit with hnone | hsame
  · rw [hnone] at hf
    cases hf
  · exact hsame ▸ hf

end Keeps

/-! ## Steps -/

theorem State.InUse.of_setWait {w : Nat} {x : Option Wait} (h : s'.InUse y) (hhanded : s'.handed = s.handed)
    (hwaits : s'.waits = update s.waits w x)
    (hx : ∀ z, x = some z → s.InUse z.job ∧ s.InUse z.current ∧ ∀ n, z.stage.next = some n → s.InUse n) :
    s.InUse y := by
  rcases h with hhand | ⟨v, z, hz, hy⟩
  · exact Or.inl (hhanded ▸ hhand)
  · by_cases hv : v = w
    · subst hv
      rw [hwaits, Function.update_self] at hz
      obtain ⟨hjob, hcurrent, hnext⟩ := hx z hz
      rcases hy with rfl | rfl | hy
      · exact hjob
      · exact hcurrent
      · exact hnext y hy
    · rw [hwaits, Function.update_of_ne hv] at hz
      exact Or.inr ⟨v, z, hz, hy⟩

theorem State.InUse.same (h : s'.InUse y) (hhanded : s'.handed = s.handed) (hwaits : s'.waits = s.waits) : s.InUse y := by
  unfold State.InUse at *
  rwa [hhanded, hwaits] at h

section Waiting

variable {w : Nat} {c : TxJob} {stage : Watch}

theorem State.InUse.job (hw : s.waits w = some ⟨j, c, stage⟩) : s.InUse j := Or.inr ⟨w, _, hw, Or.inl rfl⟩

theorem State.InUse.current (hw : s.waits w = some ⟨j, c, stage⟩) : s.InUse c := Or.inr ⟨w, _, hw, Or.inr (Or.inl rfl)⟩

theorem State.InUse.next (hw : s.waits w = some ⟨j, c, stage⟩) (hy : stage.next = some y) : s.InUse y :=
  Or.inr ⟨w, _, hw, Or.inr (Or.inr hy)⟩

end Waiting

theorem Rows.unique (hr : Rows s home) (hj : j ∈ s.jobs) (hk : k ∈ s.jobs) (hid : j.id = k.id) : j = k := by
  have hnodup : (s.jobs.map (·.id)).Nodup := by
    rw [hr.ids]
    exact List.nodup_range
  exact List.inj_on_of_nodup_map hnodup hj hk hid

/-- The row of a job in use is at home, and not for the call in progress. -/
theorem Once.row (ho : Once s home) (hy : s.InUse y) (hk : k ∈ s.jobs) (hid : k.id = y.id) :
    k.tx.nonce = home k.request ∧ ∀ f, s.submit = some f → k.request ≠ f.request := by
  obtain ⟨⟨j, hj, hid', hrequest, htx⟩, hnonce, hother⟩ := ho.uses y hy
  obtain rfl := ho.rows.unique hj hk (hid'.trans hid.symm)
  rw [htx, hrequest]
  exact ⟨hnonce, hother⟩

/-- **A status written for a job in use**, the waits holding nothing new. -/
theorem Once.status (ho : Once s home) (hjobs : s'.jobs = setStatus id st s.jobs) (hmined : s'.mined = s.mined)
    (hrequests : s'.requests = s.requests) (hsubmit : s'.submit = s.submit) (huse : ∀ y, s'.InUse y → s.InUse y)
    (hopen : st.open_ = true → ∃ y, s.InUse y ∧ y.id = id) : Once s' home := by
  have hkeep := keeps_setStatus hjobs hmined hrequests
  refine hkeep.once (fun k hk ⟨hid, hst⟩ => ?_) huse (Or.inr hsubmit) ho
  obtain ⟨y, hy, rfl⟩ := hopen hst
  obtain ⟨j, hj, hid', hrequest, htx, -⟩ := hkeep.back k hk
  obtain ⟨hnonce, hother⟩ := ho.row hy hj (hid'.trans hid)
  rw [← htx, ← hrequest, hsubmit]
  exact ⟨hnonce, hother⟩

/-- **A step that leaves the rows alone and holds nothing new.** -/
theorem Once.same (ho : Once s home) (hjobs : s'.jobs = s.jobs) (hmined : s'.mined = s.mined)
    (hrequests : s'.requests = s.requests) (hsubmit : s'.submit = none ∨ s'.submit = s.submit)
    (huse : ∀ y, s'.InUse y → s.InUse y) : Once s' home :=
  (keeps_same (P := fun _ => False) hjobs hmined hrequests).once (fun _ _ h => h.elim) huse hsubmit ho

theorem Dead.mine {tx : Tx} {ok : Bool} (hmined : s'.mined = s.mined ++ [(tx, ok)]) (hnonce : tx.nonce = s.mined.length)
    (hj : Dead s j) : Dead s' j := by
  obtain ⟨hlt, hother⟩ := hj
  refine ⟨?_, fun r hr => ?_⟩
  · rw [hmined, List.length_append]
    omega
  · rcases List.mem_append.1 (hmined ▸ hr) with hr | hr
    · exact hother r hr
    · rw [List.mem_singleton.1 hr]
      rintro rfl
      omega

theorem once_mine {tx : Tx} {ok : Bool} (hnonce : tx.nonce = s.mined.length) (ho : Once s home) :
    Once { s with mined := s.mined ++ [(tx, ok)] } home where
  rows := {
    mined := by simp [ho.rows.mined, hnonce, List.range_succ]
    ids := ho.rows.ids
    fresh := ho.rows.fresh
    home := fun j hj => (ho.rows.home j hj).imp_right fun ⟨hdead, hclosed⟩ => ⟨hdead.mine rfl hnonce, hclosed⟩ }
  uses := ho.uses
  trying f hf := {
    fresh := (ho.trying f hf).fresh
    attempt := (ho.trying f hf).attempt
    earlier := fun k hk hrequest =>
      ((ho.trying f hf).earlier k hk hrequest).imp_right fun ⟨hdead, hclosed⟩ => ⟨hdead.mine rfl hnonce, hclosed⟩
    refused := fun j e hstage hlow hattempt => ((ho.trying f hf).refused j e hstage hlow hattempt).mine rfl hnonce }

/-! ## Signing -/

section Signing

variable {request nonce : Nat} {tx : Tx} {f : Submit}

/-- A call whose attempts are all dead may have a new home. -/
theorem Rows.rehome (nonce : Nat) (hr : Rows s home) (hdead : ∀ k ∈ s.jobs, k.request = request → Dead s k ∧ k.status.open_ = false) :
    Rows s (update home request nonce) where
  mined := hr.mined
  ids := hr.ids
  fresh := hr.fresh
  home j hj := by
    by_cases hrequest : j.request = request
    · exact Or.inr (hdead j hj hrequest)
    · rw [Function.update_of_ne hrequest]
      exact hr.home j hj

theorem Recorded.append (h : Recorded s y) : Recorded (s.signAndPersist request tx) y := by
  obtain ⟨k, hk, hsame⟩ := h
  exact ⟨k, List.mem_append_left _ hk, hsame⟩

theorem recorded_signed : Recorded (s.signAndPersist request tx) (s.signed request tx) :=
  ⟨_, List.mem_append_right _ (List.mem_singleton_self _), rfl, rfl, rfl⟩

theorem Rows.append (hr : Rows s home) (hfresh : request < s.requests) (hnonce : tx.nonce = home request) :
    Rows (s.signAndPersist request tx) home where
  mined := hr.mined
  ids := by simp [State.signAndPersist, hr.ids, List.range_succ]
  fresh j hj := by
    rcases List.mem_append.1 hj with hj | hj
    · exact hr.fresh j hj
    · rw [List.mem_singleton.1 hj]
      exact hfresh
  home j hj := by
    rcases List.mem_append.1 hj with hj | hj
    · exact hr.home j hj
    · rw [List.mem_singleton.1 hj]
      exact Or.inl hnonce

/-- **`submit` signs at a new home**, everything it signed before being dead. -/
theorem once_sign (hf : s.submit = some f) (hstage : f.stage = .signing nonce) (hnonce : tx.nonce = nonce)
    (ho : Once s home) : Once { s.signAndPersist f.request tx with
      submit := some { f with stage := .sending (s.signed f.request tx) } } (update home f.request nonce) := by
  have ht := ho.trying f hf
  have hdead : ∀ k ∈ s.jobs, k.request = f.request → Dead s k ∧ k.status.open_ = false := by
    intro k hk hrequest
    rcases ht.earlier k hk hrequest with ⟨j, hj, -⟩ | hdead
    · rw [hstage] at hj
      cases hj
    · exact hdead
  have hhome : tx.nonce = update home f.request nonce f.request := by rw [Function.update_self, hnonce]
  have hrows := (ho.rows.rehome nonce hdead).append ht.fresh hhome
  refine ⟨⟨hrows.mined, hrows.ids, hrows.fresh, hrows.home⟩, fun y hy => ?_, fun g hg => ?_⟩
  · obtain ⟨hrecorded, hy', hother⟩ := ho.uses y (hy.same rfl rfl)
    refine ⟨hrecorded.append, ?_, fun g hg => ?_⟩
    · rw [Function.update_of_ne (hother f hf)]
      exact hy'
    · obtain rfl := Option.some.inj hg
      exact hother f hf
  · obtain rfl := Option.some.inj hg
    refine ⟨ht.fresh, fun j hj => ?_, fun k hk hrequest => ?_, fun j e hj => by cases hj⟩
    · obtain rfl := Option.some.inj hj
      exact ⟨recorded_signed, rfl, hhome⟩
    · rcases List.mem_append.1 hk with hk | hk
      · exact Or.inr (hdead k hk hrequest)
      · exact Or.inl ⟨_, rfl, by rw [List.mem_singleton.1 hk]; rfl⟩

/-- **A replacement stays at home.** -/
theorem once_bump {w : Nat} {c : TxJob} (hw : s.waits w = some ⟨j, c, .watching⟩) (hnonce : tx.nonce = c.tx.nonce)
    (ho : Once s home) : Once
      ((s.signAndPersist c.request tx).setWait w (some ⟨j, c, .replacing (s.signed c.request tx)⟩)) home := by
  obtain ⟨⟨i, hi, hid, hrequest, htx⟩, hc, hother⟩ := ho.uses c (State.InUse.current hw)
  have hfresh : c.request < s.requests := hrequest ▸ ho.rows.fresh i hi
  have hrows := ho.rows.append hfresh (hnonce.trans hc)
  refine ⟨⟨hrows.mined, hrows.ids, hrows.fresh, hrows.home⟩, fun y hy => ?_, fun f hf => ?_⟩
  · have huse : s.InUse y ∨ y = s.signed c.request tx := by
      rcases hy with hy | ⟨v, z, hz, hy⟩
      · exact Or.inl (Or.inl hy)
      · by_cases hv : v = w
        · subst hv
          obtain rfl : _ = z := Option.some.inj ((Function.update_self v _ s.waits).symm.trans hz)
          rcases hy with rfl | rfl | hy
          · exact Or.inl (State.InUse.job hw)
          · exact Or.inl (State.InUse.current hw)
          · exact Or.inr (Option.some.inj hy).symm
        · exact Or.inl (Or.inr ⟨v, z, (Function.update_of_ne hv _ s.waits).symm.trans hz, hy⟩)
    rcases huse with hy | rfl
    · obtain ⟨hrecorded, hrest⟩ := ho.uses y hy
      exact ⟨hrecorded.append, hrest⟩
    · exact ⟨recorded_signed, hnonce.trans hc, hother⟩
  · have ht := ho.trying f hf
    refine ⟨ht.fresh, fun j hj => ⟨(ht.attempt j hj).1.append, (ht.attempt j hj).2⟩, fun k hk hrequest' => ?_, ht.refused⟩
    rcases List.mem_append.1 hk with hk | hk
    · exact ht.earlier k hk hrequest'
    · rw [List.mem_singleton.1 hk] at hrequest'
      exact absurd hrequest' (hother f hf)

end Signing

/-! ## Runs -/

section Submitting

variable {f g : Submit}

theorem Once.stage (ho : Once s home) (hf : s.submit = some f) (hjobs : s'.jobs = s.jobs) (hmined : s'.mined = s.mined)
    (hrequests : s'.requests = s.requests) (hsubmit : s'.submit = some g) (hrequest : g.request = f.request)
    (hjob : g.stage.job = f.stage.job) (huse : ∀ y, s'.InUse y → s.InUse y)
    (hrefused : ∀ j e, g.stage = .refusing j e → e.nonceTooLow = true → g.attempt < 2 → Dead s j) : Once s' home := by
  have hkeep : Keeps (fun _ => False) s s' := keeps_same hjobs hmined hrequests
  have ht := hkeep.trying (fun _ _ h => h.elim) (ho.trying f hf)
  refine ⟨hkeep.rows (fun _ _ h => h.elim) ho.rows, fun y hy => ?_, fun g' hg' => ?_⟩
  · obtain ⟨hrecorded, hnonce, hother⟩ := ho.uses y (huse y hy)
    refine ⟨hkeep.recorded hrecorded, hnonce, fun g' hg' => ?_⟩
    obtain rfl := Option.some.inj (hsubmit.symm.trans hg')
    rw [hrequest]
    exact hother f hf
  · obtain rfl := Option.some.inj (hsubmit.symm.trans hg')
    refine ⟨hrequest ▸ ht.fresh, fun j hj => ?_, fun k hk hk' => ?_, fun j e hstage hlow hattempt => ?_⟩
    · rw [hrequest]
      exact ht.attempt j (hjob ▸ hj)
    · rw [hjob]
      exact ht.earlier k hk (hk'.trans hrequest)
    · exact hkeep.dead rfl (hrefused j e hstage hlow hattempt)

theorem once_request {call : Call} {gasLimit : Nat} (ho : Once s home) : Once
    { s with submit := some ⟨s.requests, call, gasLimit, 0, .counting⟩, requests := s.requests + 1 } home where
  rows := ⟨ho.rows.mined, ho.rows.ids, fun j hj => Nat.lt_succ_of_lt (ho.rows.fresh j hj), ho.rows.home⟩
  uses y hy := by
    obtain ⟨hrecorded, hnonce, -⟩ := ho.uses y hy
    refine ⟨hrecorded, hnonce, fun f hf => ?_⟩
    obtain rfl := Option.some.inj hf
    obtain ⟨k, hk, -, hrequest, -⟩ := hrecorded
    exact hrequest ▸ (ho.rows.fresh k hk).ne
  trying f hf := by
    obtain rfl := Option.some.inj hf
    exact ⟨Nat.lt_succ_self _, fun j hj => (by cases hj),
      fun k hk hrequest => absurd hrequest (ho.rows.fresh k hk).ne, fun j e hj => (by cases hj)⟩

theorem Once.attempt_row (ho : Once s home) (hf : s.submit = some f) (hjob : f.stage.job = some j) (hk : k ∈ s.jobs)
    (hid : k.id = j.id) : k.tx = j.tx ∧ k.tx.nonce = home k.request := by
  obtain ⟨⟨i, hi, hid', hrequest, htx⟩, -, hnonce⟩ := (ho.trying f hf).attempt j hjob
  obtain rfl := ho.rows.unique hi hk (hid'.trans hid.symm)
  exact ⟨htx, by rw [htx, hrequest, hnonce]⟩

theorem once_mark (ho : Once s home) (hf : s.submit = some f) (hstage : f.stage = .marking j) :
    Once { s.setStatus j.id .submitted with
      nextNonce := advanced s.nextNonce j.tx.nonce, submit := none, handed := j :: s.handed } home := by
  have hjob : f.stage.job = some j := by rw [hstage]; rfl
  have hkeep : Keeps (fun k => k.id = j.id ∧ TxJobStatus.submitted.open_ = true) s
      { s.setStatus j.id .submitted with
        nextNonce := advanced s.nextNonce j.tx.nonce, submit := none, handed := j :: s.handed } :=
    keeps_setStatus rfl rfl rfl
  refine ⟨hkeep.rows (fun k hk ⟨hid, _⟩ => ?_) ho.rows, fun y hy => ?_, fun f hf => by cases hf⟩
  · obtain ⟨i, hi, hid', hrequest, htx, -⟩ := hkeep.back k hk
    rw [← htx, ← hrequest]
    exact (ho.attempt_row hf hjob hi (hid'.trans hid)).2
  · obtain ⟨hrecorded, hrequest, hnonce⟩ := (ho.trying f hf).attempt j hjob
    rcases hy with hy | hy
    · rcases List.mem_cons.1 hy with rfl | hy
      · exact ⟨hkeep.recorded hrecorded, hnonce, fun g hg => by cases hg⟩
      · obtain ⟨hrecorded, hnonce, -⟩ := ho.uses y (Or.inl hy)
        exact ⟨hkeep.recorded hrecorded, hnonce, fun g hg => by cases hg⟩
    · obtain ⟨hrecorded, hnonce, -⟩ := ho.uses y (Or.inr hy)
      exact ⟨hkeep.recorded hrecorded, hnonce, fun g hg => by cases hg⟩

/-- **A retry leaves a dead attempt behind.** -/
theorem once_retry {e : RpcError} (ho : Once s home) (hf : s.submit = some f) (hstage : f.stage = .refusing j e)
    (hlow : e.nonceTooLow = true) (hattempt : f.attempt < 2) :
    Once { s.setStatus j.id e.status with
      nextNonce := none, submit := some { f with attempt := f.attempt + 1, stage := .counting } } home := by
  have hjob : f.stage.job = some j := by rw [hstage]; rfl
  have hkeep : Keeps (fun k => k.id = j.id ∧ e.status.open_ = true) s
      { s.setStatus j.id e.status with
        nextNonce := none, submit := some { f with attempt := f.attempt + 1, stage := .counting } } :=
    keeps_setStatus rfl rfl rfl
  have hclosed : ∀ k : TxJob, ¬ (k.id = j.id ∧ e.status.open_ = true) := fun k ⟨_, hopen⟩ =>
    Bool.false_ne_true (e.status_closed.symm.trans hopen)
  have ht := hkeep.trying (fun k _ hk => absurd hk (hclosed k)) (ho.trying f hf)
  refine ⟨hkeep.rows (fun k _ hk => absurd hk (hclosed k)) ho.rows, fun y hy => ?_, fun g hg => ?_⟩
  · obtain ⟨hrecorded, hnonce, hother⟩ := ho.uses y hy
    refine ⟨hkeep.recorded hrecorded, hnonce, fun g hg => ?_⟩
    obtain rfl := Option.some.inj hg
    exact hother f hf
  · obtain rfl := Option.some.inj hg
    refine ⟨ht.fresh, fun i hi => (by cases hi), fun k hk hrequest => Or.inr ?_, fun i e' hi => (by cases hi)⟩
    rcases ht.earlier k hk hrequest with ⟨i, hi, hid⟩ | hdead
    · obtain rfl := Option.some.inj (hjob.symm.trans hi)
      obtain ⟨i, hi, hid', -, htx, -⟩ := hkeep.back k hk
      have hrow := (ho.attempt_row hf hjob hi (hid'.trans hid)).1
      refine ⟨hkeep.dead (htx.symm.trans hrow) ((ho.trying f hf).refused j e hstage hlow hattempt), ?_⟩
      rw [setStatus_status hk hid]
      exact e.status_closed
    · exact hdead

end Submitting

theorem counted_job (nextNonce : Option Nat) (pending : Nat) : (counted nextNonce pending).2.job = none := by
  unfold counted
  split
  · rfl
  · split_ifs <;> rfl

/-- **Every step keeps the homes**, moving one when `submit` signs. -/
theorem once_step {a : Act} (ho : Once s home) (hhonest : Honest s a) (hstep : Step opts s a s') :
    ∃ home', Once s' home' := by
  cases hstep with
  | request => exact ⟨home, once_request ho⟩
  | @count f pending hf hstage =>
    refine ⟨home, ho.stage hf rfl rfl rfl rfl rfl ?_ (fun y hy => hy.same rfl rfl) fun j e hrefusing => ?_⟩
    · rw [hstage]
      exact counted_job _ _
    · have hjob := counted_job s.nextNonce pending
      change (counted s.nextNonce pending).2 = _ at hrefusing
      rw [hrefusing] at hjob
      cases hjob
  | scan hf hstage =>
    exact ⟨home, ho.stage hf rfl rfl rfl rfl rfl (by rw [hstage]; rfl) (fun y hy => hy.same rfl rfl)
      fun j e hrefusing => (by cases hrefusing)⟩
  | sign hf hstage htx => exact ⟨_, once_sign hf hstage (by rw [htx]) ho⟩
  | @send f j reply taken hf hstage =>
    refine ⟨home, ho.stage hf rfl rfl rfl rfl rfl ?_ (fun y hy => hy.same rfl rfl) fun i e hrefusing hlow hattempt => ?_⟩
    · rw [hstage]
      cases refusal reply <;> rfl
    · cases hreply : refusal reply with
      | none =>
        rw [hreply] at hrefusing
        cases hrefusing
      | some e' =>
        rw [hreply] at hrefusing
        obtain ⟨rfl, rfl⟩ : j = i ∧ e' = e := by simpa using hrefusing
        obtain ⟨r, hr, hnonce, hother⟩ := hhonest f j e' hf hstage hreply hlow hattempt
        have hindex : r.1.nonce ∈ List.range s.mined.length := ho.rows.mined ▸ List.mem_map_of_mem hr
        have hnodup : (s.mined.map (·.1.nonce)).Nodup := by
          rw [ho.rows.mined]
          exact List.nodup_range
        refine ⟨hnonce ▸ List.mem_range.1 hindex, fun r' hr' heq => hother ?_⟩
        rw [List.inj_on_of_nodup_map hnodup hr hr' (hnonce.trans (congrArg Tx.nonce heq.symm))]
        exact heq
  | mark hf hstage => exact ⟨home, once_mark ho hf hstage⟩
  | @refuse f j e hf hstage =>
    split
    · next hretry => exact ⟨home, once_retry ho hf hstage hretry.1 hretry.2⟩
    · have hkeep : Keeps (fun k => k.id = j.id ∧ e.status.open_ = true) s
          { s.setStatus j.id e.status with submit := none } := keeps_setStatus rfl rfl rfl
      refine ⟨home, hkeep.once (fun k _ ⟨_, hopen⟩ => ?_) (fun y hy => hy.same rfl rfl) (Or.inl rfl) ho⟩
      exact absurd (e.status_closed.symm.trans hopen) Bool.false_ne_true
  | abort => exact ⟨home, ho.same rfl rfl rfl (Or.inl rfl) fun y hy => hy.same rfl rfl⟩
  | restart =>
    refine ⟨home, ho.same rfl rfl rfl (Or.inl rfl) fun y hy => ?_⟩
    rcases hy with hy | ⟨w, x, hx, -⟩
    · exact absurd hy List.not_mem_nil
    · cases hx
  | @resume j hidle hj =>
    obtain ⟨hrow, hopen⟩ := mem_openJobs.1 hj
    have hrows := ho.rows
    refine ⟨home, ⟨hrows.mined, hrows.ids, hrows.fresh, hrows.home⟩, fun y hy => ?_, fun f hf => by cases hidle.symm.trans hf⟩
    have hnew : s.InUse y ∨ y = j := by
      rcases hy with hy | hy
      · exact (List.mem_cons.1 hy).symm.imp_left Or.inl
      · exact Or.inl (Or.inr hy)
    rcases hnew with hy | rfl
    · exact ho.uses y hy
    · refine ⟨⟨y, hrow, rfl, rfl, rfl⟩, ?_, fun f hf => by cases hidle.symm.trans hf⟩
      rcases ho.rows.home y hrow with hnonce | ⟨-, hclosed⟩
      · exact hnonce
      · exact absurd (hclosed.symm.trans hopen) Bool.false_ne_true
  | @wait w j hw hj =>
    refine ⟨home, ho.same rfl rfl rfl (Or.inr rfl) fun y hy => hy.of_setWait rfl rfl fun z hz => ?_⟩
    obtain rfl := Option.some.inj hz
    exact ⟨Or.inl hj, Or.inl hj, fun n hn => by cases hn⟩
  | bump hw hfees htx => exact ⟨home, once_bump hw (by rw [htx]) ho⟩
  | @supersede w j c n hw =>
    refine ⟨home, ho.status rfl rfl rfl rfl (fun y hy => hy.of_setWait rfl rfl fun z hz => ?_) fun h => by cases h⟩
    obtain rfl := Option.some.inj hz
    exact ⟨State.InUse.job hw, State.InUse.current hw, fun m hm => State.InUse.next hw hm⟩
  | @resend w j c n reply taken hw =>
    refine ⟨home, ho.same rfl rfl rfl (Or.inr rfl) fun y hy => hy.of_setWait rfl rfl fun z hz => ?_⟩
    obtain rfl := Option.some.inj hz
    refine ⟨State.InUse.job hw, State.InUse.current hw, fun m hm => State.InUse.next hw ?_⟩
    cases hreply : refusal reply <;> rw [hreply] at hm <;> exact hm
  | @bumped w j c n hw =>
    have hn : s.InUse n := State.InUse.next hw rfl
    refine ⟨home, ho.status rfl rfl rfl rfl (fun y hy => hy.of_setWait rfl rfl fun z hz => ?_) fun _ => ⟨n, hn, rfl⟩⟩
    obtain rfl := Option.some.inj hz
    exact ⟨State.InUse.job hw, hn, fun m hm => by cases hm⟩
  | @bumpRefused w j c n e hw =>
    refine ⟨home, ho.status rfl rfl rfl rfl (fun y hy => hy.of_setWait rfl rfl fun z hz => ?_) fun hopen => ?_⟩
    · split at hz
      · obtain rfl := Option.some.inj hz
        exact ⟨State.InUse.job hw, State.InUse.next hw rfl, fun m hm => by cases hm⟩
      · cases hz
    · exact absurd (e.status_closed.symm.trans hopen) Bool.false_ne_true
  | @rebroadcast w j c reply taken hw =>
    refine ⟨home, ho.same rfl rfl rfl (Or.inr rfl) fun y hy => hy.of_setWait rfl rfl fun z hz => ?_⟩
    split at hz
    · obtain rfl := Option.some.inj hz
      exact ⟨State.InUse.job hw, State.InUse.current hw, fun m hm => by cases hm⟩
    · cases hz
  | @found w j c k ok hw hk hreceipt =>
    refine ⟨home, ho.status rfl rfl rfl rfl (fun y hy => hy.of_setWait rfl rfl fun z hz => ?_) fun hopen => ?_⟩
    · obtain rfl := Option.some.inj hz
      exact ⟨State.InUse.job hw, State.InUse.current hw, fun m hm => by cases hm⟩
    · cases ok <;> cases hopen
  | @taken w j c hw =>
    refine ⟨home, ho.same rfl rfl rfl (Or.inr rfl) fun y hy => hy.of_setWait rfl rfl fun z hz => ?_⟩
    obtain rfl := Option.some.inj hz
    exact ⟨State.InUse.job hw, State.InUse.current hw, fun m hm => by cases hm⟩
  | @drop w j c id ids receipt hw =>
    refine ⟨home, ho.status rfl rfl rfl rfl (fun y hy => hy.of_setWait rfl rfl fun z hz => ?_) fun h => by cases h⟩
    obtain rfl := Option.some.inj hz
    exact ⟨State.InUse.job hw, State.InUse.current hw, fun m hm => by cases hm⟩
  | returned hw =>
    exact ⟨home, ho.same rfl rfl rfl (Or.inr rfl) fun y hy => hy.of_setWait rfl rfl fun z hz => by cases hz⟩
  | throw =>
    exact ⟨home, ho.same rfl rfl rfl (Or.inr rfl) fun y hy => hy.of_setWait rfl rfl fun z hz => by cases hz⟩
  | close hj hclosed =>
    refine ⟨home, ho.status rfl rfl rfl rfl (fun y hy => hy.same rfl rfl) fun hopen => ?_⟩
    exact absurd (hclosed.symm.trans hopen) Bool.false_ne_true
  | deliver => exact ⟨home, ho.same rfl rfl rfl (Or.inr rfl) fun y hy => hy.same rfl rfl⟩
  | mine hknown hnonce => exact ⟨home, once_mine hnonce ho⟩

theorem once_initial (h : s.Initial) : Once s (fun _ => 0) where
  rows := ⟨h.mined, by simp [h.jobs], by simp [h.jobs], by simp [h.jobs]⟩
  uses y hy := by
    rcases hy with hy | ⟨w, x, hx, -⟩
    · simp [h.handed] at hy
    · simp [h.waits w] at hx
  trying f hf := by simp [h.submit] at hf

/-- **A call of `submit` is mined at most once, if the node calls a nonce too low only when another transaction took it.** -/
theorem submit_once {s₀ : State} {ls : List Act} (h₀ : s₀.Initial)
    (hrun : Run ((machine opts).restrict Honest) s₀ ls s) :
    ∀ j ∈ s.jobs, ∀ k ∈ s.jobs, j.request = k.request → ∀ r ∈ s.mined, ∀ r' ∈ s.mined, r.1 = j.tx → r'.1 = k.tx →
      r.1 = r'.1 := by
  have hinv : ∃ home, Once s home := by
    refine hrun.preserves (fun s => ∃ home, Once s home) (fun s l t hs hl => ?_) ⟨_, once_initial h₀⟩
    obtain ⟨home, ho⟩ := hs
    exact once_step ho hl.1 hl.2
  obtain ⟨home, ho⟩ := hinv
  intro j hj k hk hrequest r hr r' hr' hrj hrk
  have hlive : ∀ i ∈ s.jobs, ∀ x ∈ s.mined, x.1 = i.tx → i.tx.nonce = home i.request := by
    intro i hi x hx hxi
    rcases ho.rows.home i hi with hhome | ⟨hdead, -⟩
    · exact hhome
    · exact absurd hxi (hdead.2 x hx)
  have hnonce : r.1.nonce = r'.1.nonce := by
    rw [hrj, hrk, hlive j hj r hr hrj, hlive k hk r' hr' hrk, hrequest]
  have hnodup : (s.mined.map (·.1.nonce)).Nodup := by
    rw [ho.rows.mined]
    exact List.nodup_range
  exact congrArg Prod.fst (List.inj_on_of_nodup_map hnodup hr hr' hnonce)

namespace Sample

def options : TxSenderOptions := ⟨20 * 10 ^ 9, 15, 1000 * 10 ^ 9⟩

def call : Call := ⟨7, [1], 0⟩

/-- What `submit` signs for the call at a nonce. -/
def tx (nonce : Nat) : Tx := ⟨nonce, call, 21000, 40 * 10 ^ 9, 10 ^ 9⟩

def nonceTooLow : RpcError := ⟨false, true, false⟩

/-- The key's first process, with some transactions mined before. -/
def start (mined : List (Tx × Bool)) : State := ⟨[], none, none, fun _ => none, [], 0, [], mined⟩

/-- The call's first attempt is on its way. -/
def sending (mined : List (Tx × Bool)) : State :=
  { start mined with
    jobs := [⟨0, 0, tx 0, .pending⟩]
    nextNonce := some 0
    submit := some ⟨0, call, 21000, 0, .sending ⟨0, 0, tx 0, .pending⟩⟩
    requests := 1 }

/-- The call's first attempt was refused for its nonce, the second was mined. -/
def retried (mined : List (Tx × Bool)) (known : List Tx) : State where
  jobs := [⟨0, 0, tx 0, .dropped⟩, ⟨1, 0, tx 1, .submitted⟩]
  nextNonce := some 2
  submit := none
  waits := fun _ => none
  handed := [⟨1, 0, tx 1, .pending⟩]
  requests := 1
  known := known
  mined := mined

/-- Another holder of the key was faster. -/
def foreign : Tx := { tx 0 with call := ⟨8, [], 0⟩ }

theorem retried_run : ∃ ls, Run ((machine options).restrict Honest) (start [(foreign, true)]) ls
    (retried [(foreign, true), (tx 1, true)] [tx 1]) := by
  have hstart := Run.nil (M := (machine options).restrict Honest) (s := start [(foreign, true)])
  have hrequest := hstart.snoc (l := Act.request call 21000) ⟨trivial, Step.request rfl⟩
  have hcount := hrequest.snoc (l := Act.count 0) ⟨trivial, Step.count rfl rfl⟩
  have hsign := hcount.snoc (l := Act.sign none) ⟨trivial, Step.sign rfl rfl rfl⟩
  have hhonest : Honest (sending [(foreign, true)]) (Act.send (some nonceTooLow) false) := fun f j e hf hstage _ _ _ => by
    obtain rfl := Option.some.inj hf
    cases hstage
    exact ⟨(foreign, true), List.mem_singleton_self _, rfl, by decide⟩
  have hsend := hsign.snoc (l := Act.send (some nonceTooLow) false) ⟨hhonest, Step.send rfl rfl⟩
  have hrefuse := hsend.snoc (l := Act.refuse) ⟨trivial, Step.refuse rfl rfl⟩
  have hcount' := hrefuse.snoc (l := Act.count 1) ⟨trivial, Step.count rfl rfl⟩
  have hsign' := hcount'.snoc (l := Act.sign none) ⟨trivial, Step.sign rfl rfl rfl⟩
  have hsend' := hsign'.snoc (l := Act.send none true) ⟨fun _ _ _ _ _ hreply => (by cases hreply), Step.send rfl rfl⟩
  have hmark := hsend'.snoc (l := Act.mark) ⟨trivial, Step.mark rfl rfl⟩
  exact ⟨_, hmark.snoc (l := Act.mine (tx 1) true) ⟨trivial, Step.mine (by decide) rfl⟩⟩

theorem start_initial (mined : List (Tx × Bool)) (h : mined.map (·.1.nonce) = List.range mined.length) :
    (start mined).Initial := ⟨rfl, rfl, fun _ => rfl, rfl, rfl, h⟩

end Sample

theorem submit_once_retried : (Sample.retried [] []).jobs.length = 2 ∧ ∀ r ∈ [(Sample.foreign, true), (Sample.tx 1, true)],
    (∃ j ∈ (Sample.retried [] []).jobs, r.1 = j.tx) → r.1 = Sample.tx 1 := by
  obtain ⟨ls, hrun⟩ := Sample.retried_run
  refine ⟨rfl, ?_⟩
  have hrequest : ∀ j ∈ (Sample.retried [] []).jobs, j.request = 0 := by decide
  rintro r hr ⟨j, hj, hrj⟩
  exact submit_once (Sample.start_initial _ (by decide)) hrun j hj ⟨1, 0, Sample.tx 1, .submitted⟩ (by decide)
    (hrequest j hj) r hr (Sample.tx 1, true) (by decide) hrj rfl

/-- **A node that has taken an attempt calls its nonce too low, mined meanwhile**: the call is signed again, and mined
twice. -/
theorem submit_twice : ∃ s₀ ls s, s₀.Initial ∧ Run (machine Sample.options) s₀ ls s ∧
    ∃ j ∈ s.jobs, ∃ k ∈ s.jobs, j.request = k.request ∧ j.tx.call = k.tx.call ∧ j.tx ≠ k.tx ∧
      (j.tx, true) ∈ s.mined ∧ (k.tx, true) ∈ s.mined := by
  have hstart := Run.nil (M := machine Sample.options) (s := Sample.start [])
  have hrequest := hstart.snoc (l := Act.request Sample.call 21000) (Step.request rfl)
  have hcount := hrequest.snoc (l := Act.count 0) (Step.count rfl rfl)
  have hsign := hcount.snoc (l := Act.sign none) (Step.sign rfl rfl rfl)
  have hsend := hsign.snoc (l := Act.send (some Sample.nonceTooLow) true) (Step.send rfl rfl)
  have hmine := hsend.snoc (l := Act.mine (Sample.tx 0) true) (Step.mine (by decide) rfl)
  have hrefuse := hmine.snoc (l := Act.refuse) (Step.refuse rfl rfl)
  have hcount' := hrefuse.snoc (l := Act.count 1) (Step.count rfl rfl)
  have hsign' := hcount'.snoc (l := Act.sign none) (Step.sign rfl rfl rfl)
  have hsend' := hsign'.snoc (l := Act.send none true) (Step.send rfl rfl)
  have hmark := hsend'.snoc (l := Act.mark) (Step.mark rfl rfl)
  have hrun : Run (machine Sample.options) (Sample.start []) _
      (Sample.retried [(Sample.tx 0, true), (Sample.tx 1, true)] [Sample.tx 1, Sample.tx 0]) :=
    hmark.snoc (l := Act.mine (Sample.tx 1) true) (Step.mine (by decide) rfl)
  exact ⟨_, _, _, Sample.start_initial _ rfl, hrun, ⟨0, 0, Sample.tx 0, .dropped⟩, by decide,
    ⟨1, 0, Sample.tx 1, .submitted⟩, by decide, rfl, rfl, by decide, by decide, by decide⟩

end Kryon.TxSender
