import ZynqSha256.Driver.XdmaAbort
import ZynqSha256.Proofs.XdmaEngine

/-! Requests that are freed after a timeout. The transfer leaves the list of the engine only from
its head; anywhere else the list keeps a freed transfer until the engine ends it. While
`desc_lock` is held through each wait, a transfer that is waited for is at the head. -/

namespace ZynqSha256.Xdma

open Steps (Run)

variable {es : List AbortEvent} {ev : AbortEvent} {t t' : AbortState} {xfer : QTransfer} {dumped : Bool}

/-! ## The list of an engine -/

/-- From `s` to `s'`, transfers have ended from the head of the list on. -/
def Advances (s s' : EngineState) : Prop :=
  ∃ ended : List Finished, s'.finished = s.finished ++ ended ∧
    s.transferList = ended.map Finished.transfer ++ s'.transferList ∧ s'.queued = s.queued

theorem Advances.same {s s' : EngineState} (hf : s'.finished = s.finished)
    (hl : s'.transferList = s.transferList) (hq : s'.queued = s.queued) : Advances s s' :=
  ⟨[], by simpa using hf, by simpa using hl.symm, hq⟩

theorem Advances.trans {s s' s'' : EngineState} (h : Advances s s') (h' : Advances s' s'') :
    Advances s s'' := by
  obtain ⟨ended, hf, hl, hq⟩ := h
  obtain ⟨ended', hf', hl', hq'⟩ := h'
  refine ⟨ended ++ ended', ?_, ?_, hq'.trans hq⟩
  · rw [hf', hf, List.append_assoc]
  · rw [hl, hl', List.map_append, List.append_assoc]

theorem advances_completeFirst (s : EngineState) (state : TransferState) :
    Advances s (completeFirst s state) := by
  unfold completeFirst
  split
  next => exact Advances.same rfl rfl rfl
  next xfer xfers hl => exact ⟨[⟨xfer, state, s.completedDescCount⟩], rfl, hl, rfl⟩

theorem advances_start (s : EngineState) : Advances s ((engineStart s).getD s) := by
  unfold engineStart
  split
  next => exact Advances.same rfl rfl rfl
  next =>
    split
    next => exact Advances.same rfl rfl rfl
    next => exact Advances.same rfl rfl rfl

theorem advances_serviceTransferList (xfers : List QTransfer) (completed : BitVec 32)
    (s : EngineState) : Advances s (engineServiceTransferList xfers completed s).2 := by
  induction xfers generalizing completed s with
  | nil => exact Advances.same rfl rfl rfl
  | cons xfer xfers ih =>
    rw [engineServiceTransferList]
    split
    next =>
      have hdequeue : Advances s (dequeue s xfer) := Advances.same rfl rfl rfl
      exact (hdequeue.trans (advances_completeFirst _ _)).trans (ih _ _)
    next => exact Advances.same rfl rfl rfl

theorem advances_final (s : EngineState) (completed : BitVec 32) :
    Advances s (engineServiceFinalTransfer s completed) := by
  have hdequeue (xfer : QTransfer) : Advances s (dequeue s xfer) := Advances.same rfl rfl rfl
  have hstop : Advances s (xdmaEngineStop s) := Advances.same rfl rfl rfl
  unfold engineServiceFinalTransfer
  split
  next => exact Advances.same rfl rfl rfl
  next xfer _ _ =>
    split
    next => exact hstop.trans (advances_completeFirst _ _)
    next =>
      split
      next => exact (hdequeue xfer).trans (advances_completeFirst _ _)
      next => exact (hdequeue xfer).trans (advances_completeFirst _ _)

theorem advances_resume (s : EngineState) : Advances s (engineServiceResume s) := by
  unfold engineServiceResume
  split
  next =>
    split
    next => exact advances_start s
    next =>
      split
      next => exact Advances.same rfl rfl rfl
      next => exact Advances.same rfl rfl rfl
  next =>
    split
    next => exact Advances.same rfl rfl rfl
    next => exact Advances.same rfl rfl rfl

theorem advances_service (s : EngineState) (wb : BitVec 32) : Advances s (engineService s wb) := by
  have hcount (s : EngineState) (count : BitVec 32) : Advances s (engineServiceCount s count) :=
    ((advances_serviceTransferList _ _ s).trans (advances_final _ _)).trans (advances_resume _)
  unfold engineService
  split
  next => exact Advances.same rfl rfl rfl
  next =>
    -- reading the status and stopping the engine leave the list alone
    have hread : Advances s (if wb &&& WB_COUNT_MASK = 0 ∨ wb &&& WB_ERR_MASK ≠ 0 then
        engineStatusRead s true else s) := by
      split
      next => exact Advances.same rfl rfl rfl
      next => exact Advances.same rfl rfl rfl
    have hstop (s : EngineState) : Advances s (if s.status &&& XDMA_STAT_BUSY = 0 ∨
        wb &&& WB_COUNT_MASK ≠ 0 then xdmaEngineStop s else s) := by
      split
      next => exact Advances.same rfl rfl rfl
      next => exact Advances.same rfl rfl rfl
    have hend (s : EngineState) (count : BitVec 32) :
        Advances s (if count = 0 then s else engineServiceCount s count) := by
      split
      next => exact Advances.same rfl rfl rfl
      next => exact hcount s count
    exact (hread.trans (hstop _)).trans (hend _ _)

/-- An event of the engine ends transfers from the head of the list on, or adds one behind. -/
theorem engine_list {ev : EngineEvent} {s s' : EngineState} (h : engineStep ev s = some s') :
    Advances s s' ∨ ∃ offline xfer, ev = .queue offline xfer ∧ s'.finished = s.finished ∧
      s'.transferList = s.transferList ++ [xfer] ∧ s'.queued = s.queued ++ [xfer] := by
  cases ev with
  | queue offline xfer =>
    obtain rfl := Option.some.inj h
    unfold transferQueue
    split
    next => exact Or.inl (Advances.same rfl rfl rfl)
    next =>
      split
      next => exact Or.inl (Advances.same rfl rfl rfl)
      next =>
        split
        next => exact Or.inl (Advances.same rfl rfl rfl)
        next =>
          refine Or.inr ⟨offline, xfer, rfl, ?_⟩
          dsimp only
          split
          next => exact ⟨rfl, rfl, rfl⟩
          next hrun =>
            unfold engineStart
            rw [if_neg hrun, if_neg (by simp)]
            exact ⟨rfl, rfl, rfl⟩
  | desc =>
    left
    simp only [engineStep] at h
    split at h
    next => cases h
    next =>
      split at h
      next => exact Option.some.inj h ▸ Advances.same rfl rfl rfl
      next => cases h
  | fault errors =>
    left
    simp only [engineStep] at h
    split at h
    next => exact Option.some.inj h ▸ Advances.same rfl rfl rfl
    next => cases h
  | work => exact Or.inl (Option.some.inj h ▸ advances_service s 0)
  | poll =>
    left
    simp only [engineStep] at h
    split at h
    next => exact Option.some.inj h ▸ Advances.same rfl rfl rfl
    next => exact Option.some.inj h ▸ advances_service s _

/-! ## The end of a wait -/

/-- The transfer is taken off the list, or the list stays as it is. -/
theorem waitOver_list (s : EngineState) (dumped : Bool) (hpos : xfer.descNum ≠ 0) :
    (waitOver s xfer dumped).finished = s.finished ∧ (waitOver s xfer dumped).queued = s.queued ∧
      (waitOver s xfer dumped).transferList =
        if dumped = true ∧ s.transferList.head?.map QTransfer.id = some xfer.id then
          s.transferList.tail
        else s.transferList := by
  unfold waitOver
  cases dumped with
  | false => exact ⟨rfl, rfl, rfl⟩
  | true =>
    have hlist : (engineStatusRead s false).transferList = s.transferList := rfl
    unfold transferAbort
    rw [if_neg hpos, hlist]
    cases hl : s.transferList with
    | nil =>
      refine ⟨rfl, rfl, ?_⟩
      rw [if_neg (by simp)]
      exact hl
    | cons head rest =>
      by_cases hid : head.id = xfer.id
      · simp [hid, xdmaEngineStop, engineStatusRead]
      · simp [hid, xdmaEngineStop, engineStatusRead, hl]

/-! ## The invariant -/

/-- No freed transfer is on the list. -/
def AbortState.Live (t : AbortState) : Prop := ∀ x ∈ t.engine.transferList, x.id ∉ t.freed

structure AbortInv (t : AbortState) : Prop where
  order : (t.engine.finished.map Finished.transfer ++ t.engine.transferList).Sublist t.engine.queued
  distinct : (t.engine.queued.map QTransfer.id).Nodup
  pos : ∀ x ∈ t.engine.transferList, x.descNum ≠ 0
  freed : ∀ id ∈ t.freed, id ∈ t.engine.queued.map QTransfer.id

def AbortState.init (dir : DmaDataDirection) : AbortState := ⟨EngineState.init dir, []⟩

theorem abortInv_init (dir : DmaDataDirection) : AbortInv (.init dir) :=
  ⟨List.Sublist.refl _, List.nodup_nil, by simp [AbortState.init, EngineState.init],
    by simp [AbortState.init]⟩

/-- A transfer is another one than those queued before. -/
def Fresh : AbortEvent → AbortState → Prop
  | .engine (.queue _ xfer), t => xfer.id ∉ t.engine.queued.map QTransfer.id
  | _, _ => True

/-- And a wait that ends early ends for the transfer at the head of the list. -/
def HeadFirst : AbortEvent → AbortState → Prop
  | .engine (.queue _ xfer), t => xfer.id ∉ t.engine.queued.map QTransfer.id
  | .timeout xfer dumped, t => dumped = true ∧ t.engine.transferList.head? = some xfer
  | _, _ => True

/-- `desc_lock` is held from the submission until the request is freed. -/
def DescLock : AbortEvent → AbortState → Prop
  | .engine (.queue _ xfer), t =>
    xfer.id ∉ t.engine.queued.map QTransfer.id ∧ ∀ x ∈ t.engine.queued, x.id ∈ t.freed
  | .timeout _ dumped, _ => dumped = true
  | _, _ => True

theorem AbortInv.ids (hI : AbortInv t) :
    ((t.engine.finished.map Finished.transfer).map QTransfer.id ++
      t.engine.transferList.map QTransfer.id).Nodup := by
  rw [← List.map_append]
  exact (hI.order.map QTransfer.id).nodup hI.distinct

theorem abortInv_engine {ev : EngineEvent} (hI : AbortInv t) (hF : Fresh (.engine ev) t)
    (h : abortStep (.engine ev) t = some t') : AbortInv t' := by
  obtain ⟨s', hs, rfl⟩ := Option.map_eq_some_iff.1 h
  rcases engine_list hs with ⟨ended, hf, hl, hq⟩ | ⟨offline, xfer, rfl, hf, hl, hq⟩
  · refine ⟨?_, ?_, fun x hx => ?_, fun id hid => ?_⟩
    · rw [hf, hq, List.map_append, List.append_assoc, ← hl]
      exact hI.order
    · rw [hq]
      exact hI.distinct
    · exact hI.pos x (hl ▸ List.mem_append_right _ hx)
    · rw [hq]
      exact hI.freed id hid
  · have hnum : xfer.descNum ≠ 0 := by
      intro h0
      have hsame := Option.some.inj hs
      rw [transferQueue, if_pos h0] at hsame
      rw [← hsame] at hl
      simp at hl
    refine ⟨?_, ?_, fun x hx => ?_, fun id hid => ?_⟩
    · rw [hf, hl, hq, ← List.append_assoc]
      exact hI.order.append (List.Sublist.refl _)
    · rw [hq, List.map_append]
      refine hI.distinct.append (List.nodup_singleton _) ?_
      rw [List.map_singleton, List.disjoint_singleton]
      exact hF
    · rw [hl] at hx
      rcases List.mem_append.1 hx with hx | hx
      · exact hI.pos x hx
      · exact List.mem_singleton.1 hx ▸ hnum
    · rw [hq, List.map_append]
      exact List.mem_append_left _ (hI.freed id hid)

theorem abortInv_timeout (hI : AbortInv t) (h : abortStep (.timeout xfer dumped) t = some t') :
    AbortInv t' ∧ xfer ∈ t.engine.transferList ∧ xfer.id ∉ t.freed ∧
      t'.freed = t.freed ++ [xfer.id] ∧ t'.engine.finished = t.engine.finished ∧
      t'.engine.transferList =
        if dumped = true ∧ t.engine.transferList.head?.map QTransfer.id = some xfer.id then
          t.engine.transferList.tail
        else t.engine.transferList := by
  simp only [abortStep] at h
  split at h
  next hguard =>
    cases h
    obtain ⟨hmem, hfree⟩ := hguard
    obtain ⟨hf, hq, hl⟩ := waitOver_list t.engine dumped (hI.pos xfer hmem)
    have hsub : (waitOver t.engine xfer dumped).transferList.Sublist t.engine.transferList := by
      rw [hl]
      split
      next => exact List.tail_sublist _
      next => exact List.Sublist.refl _
    have hin : xfer.id ∈ t.engine.queued.map QTransfer.id :=
      List.mem_map_of_mem (hI.order.subset (List.mem_append_right _ hmem))
    refine ⟨⟨?_, ?_, fun x hx => hI.pos x (hsub.subset hx), fun id hid => ?_⟩, hmem, hfree, rfl, hf, hl⟩
    · rw [hf, hq]
      exact ((List.Sublist.refl _).append hsub).trans hI.order
    · rw [hq]
      exact hI.distinct
    · rw [hq]
      rcases List.mem_append.1 hid with hid | hid
      · exact hI.freed id hid
      · exact List.mem_singleton.1 hid ▸ hin
  next => cases h

theorem ended_some (h : abortStep (.ended xfer) t = some t') :
    xfer ∈ t.engine.finished.map Finished.transfer ∧
      t' = { t with freed := t.freed ++ [xfer.id] } := by
  simp only [abortStep] at h
  split at h
  next hguard => exact ⟨hguard.1, (Option.some.inj h).symm⟩
  next => cases h

theorem abortInv_step (hI : AbortInv t) (hF : Fresh ev t) (h : abortStep ev t = some t') :
    AbortInv t' := by
  cases ev with
  | engine ev => exact abortInv_engine hI hF h
  | timeout xfer dumped => exact (abortInv_timeout hI h).1
  | ended xfer =>
    obtain ⟨hmem, rfl⟩ := ended_some h
    refine ⟨hI.order, hI.distinct, hI.pos, fun id hid => ?_⟩
    rcases List.mem_append.1 hid with hid | hid
    · exact hI.freed id hid
    · rw [List.mem_singleton.1 hid]
      exact List.mem_map_of_mem (hI.order.subset (List.mem_append_left _ hmem))

/-! ## Freed transfers on the list -/

/-- `head == transfer`, for a transfer of the list. -/
theorem head_iff (hI : AbortInv t) (hmem : xfer ∈ t.engine.transferList) :
    (dumped = true ∧ t.engine.transferList.head?.map QTransfer.id = some xfer.id) ↔
      dumped = true ∧ t.engine.transferList.head? = some xfer := by
  refine and_congr_right fun _ => ⟨fun hid => ?_, fun hhead => by rw [hhead]; rfl⟩
  obtain ⟨x, hx, hxid⟩ := Option.map_eq_some_iff.1 hid
  have hnd := (List.nodup_append.1 hI.ids).2.1
  rw [hx, List.inj_on_of_nodup_map hnd (List.mem_of_head? hx) hmem hxid]

/-- A wait that ends early keeps the list live exactly at the head. -/
theorem live_timeout (hI : AbortInv t) (hL : t.Live)
    (h : abortStep (.timeout xfer dumped) t = some t') :
    t'.Live ↔ dumped = true ∧ t.engine.transferList.head? = some xfer := by
  obtain ⟨-, hmem, -, hfreed, -, hl⟩ := abortInv_timeout hI h
  have hnd := (List.nodup_append.1 hI.ids).2.1
  constructor
  · intro hL'
    by_contra hno
    rw [if_neg (mt (head_iff hI hmem).1 hno)] at hl
    exact hL' xfer (hl ▸ hmem) (by simp [hfreed])
  · rintro ⟨hd, hhead⟩ x hx hxf
    rw [if_pos ⟨hd, by rw [hhead]; rfl⟩] at hl
    rw [hl] at hx
    obtain ⟨rest, hrest⟩ := List.head?_eq_some_iff.1 hhead
    rw [hrest] at hx hnd
    rw [hfreed] at hxf
    rcases List.mem_append.1 hxf with hxf | hxf
    · exact hL x (hrest ▸ List.mem_cons_of_mem _ hx) hxf
    · rw [List.map_cons, List.nodup_cons] at hnd
      exact hnd.1 (List.mem_singleton.1 hxf ▸ List.mem_map_of_mem hx)

theorem live_ended (hI : AbortInv t) (hL : t.Live) (h : abortStep (.ended xfer) t = some t') :
    t'.Live := by
  obtain ⟨hmem, rfl⟩ := ended_some h
  intro x hx hxf
  rcases List.mem_append.1 hxf with hxf | hxf
  · exact hL x hx hxf
  · have hdis := (List.nodup_append.1 hI.ids).2.2
    exact hdis xfer.id (List.mem_map_of_mem hmem) x.id (List.mem_map_of_mem hx)
      (List.mem_singleton.1 hxf).symm

theorem live_engine {ev : EngineEvent} (hI : AbortInv t) (hL : t.Live) (hF : Fresh (.engine ev) t)
    (h : abortStep (.engine ev) t = some t') : t'.Live := by
  obtain ⟨s', hs, rfl⟩ := Option.map_eq_some_iff.1 h
  intro x hx
  rcases engine_list hs with ⟨ended, -, hl, -⟩ | ⟨offline, xfer, rfl, -, hl, -⟩
  · exact hL x (hl ▸ List.mem_append_right _ hx)
  · rw [hl] at hx
    rcases List.mem_append.1 hx with hx | hx
    · exact hL x hx
    · rw [List.mem_singleton.1 hx]
      exact fun hfreed => hF (hI.freed _ hfreed)

theorem fresh_of_headFirst (h : HeadFirst ev t) : Fresh ev t := by
  cases ev with
  | engine ev =>
    cases ev with
    | queue offline xfer => exact h
    | _ => trivial
  | _ => trivial

theorem live_step (hI : AbortInv t) (hL : t.Live) (hH : HeadFirst ev t)
    (h : abortStep ev t = some t') : t'.Live := by
  cases ev with
  | engine ev => exact live_engine hI hL (fresh_of_headFirst hH) h
  | timeout xfer dumped => exact (live_timeout hI hL h).2 hH
  | ended xfer => exact live_ended hI hL h

theorem live_run {dir : DmaDataDirection} (h : Run abortStep HeadFirst (.init dir) es t) :
    AbortInv t ∧ t.Live := by
  refine h.invariant (J := fun t => AbortInv t ∧ t.Live) ⟨abortInv_init dir, ?_⟩
    fun _ _ _ hH hs hJ => ⟨abortInv_step hJ.1 (fresh_of_headFirst hH) hs, live_step hJ.1 hJ.2 hH hs⟩
  exact fun x hx => absurd hx List.not_mem_nil

/-- Nobody takes a freed transfer off the list but the engine, which ends it. -/
def Kept (xfer : QTransfer) (t : AbortState) : Prop :=
  xfer.id ∈ t.freed ∧
    (xfer ∈ t.engine.transferList ∨ xfer ∈ t.engine.finished.map Finished.transfer)

theorem kept_step (hI : AbortInv t) (hK : Kept xfer t) (h : abortStep ev t = some t') :
    Kept xfer t' := by
  obtain ⟨hfreed, hor⟩ := hK
  cases ev with
  | engine ev =>
    obtain ⟨s', hs, rfl⟩ := Option.map_eq_some_iff.1 h
    refine ⟨hfreed, ?_⟩
    rcases engine_list hs with ⟨ended, hf, hl, -⟩ | ⟨offline, x, rfl, hf, hl, -⟩
    · dsimp only
      rw [hf, List.map_append, List.mem_append]
      rcases hor with hmem | hmem
      · rw [hl, List.mem_append] at hmem
        exact hmem.elim (fun hend => Or.inr (Or.inr hend)) Or.inl
      · exact Or.inr (Or.inl hmem)
    · dsimp only
      rw [hf, hl, List.mem_append]
      exact hor.imp Or.inl id
  | ended x =>
    obtain ⟨-, rfl⟩ := ended_some h
    exact ⟨List.mem_append_left _ hfreed, hor⟩
  | timeout x dumped =>
    obtain ⟨-, -, hfree, hfreed', hf, hl⟩ := abortInv_timeout hI h
    refine ⟨hfreed' ▸ List.mem_append_left _ hfreed, ?_⟩
    rw [hf, hl]
    refine hor.imp (fun hmem => ?_) id
    split
    next hhead =>
      obtain ⟨y, hy, hyid⟩ := Option.map_eq_some_iff.1 hhead.2
      cases hlist : t.engine.transferList with
      | nil =>
        rw [hlist] at hmem
        exact hmem
      | cons head rest =>
        rw [hlist] at hmem hy
        obtain rfl : head = y := Option.some.inj hy
        rcases List.mem_cons.1 hmem with rfl | hrest
        · exact absurd (hyid ▸ hfreed) hfree
        · exact hrest
    next => exact hmem

/-- As long as every wait that ends early ended for the transfer at the head, no freed transfer
is on the list. The next one keeps it so exactly if it is for the head as well and the registers
can be dumped; otherwise the freed transfer stays on the list until the engine ends it. -/
theorem timeout_safe_iff {dir : DmaDataDirection} (h : Run abortStep HeadFirst (.init dir) es t)
    (hs : abortStep (.timeout xfer dumped) t = some t') :
    t.Live ∧ (t'.Live ↔ dumped = true ∧ t.engine.transferList.head? = some xfer) ∧
      (¬t'.Live → ∀ es' t'', Run abortStep Fresh t' es' t'' → Kept xfer t'') := by
  obtain ⟨hI, hL⟩ := live_run h
  obtain ⟨hI', hmem, -, hfreed, hf, hl⟩ := abortInv_timeout hI hs
  have hiff := live_timeout hI hL hs
  refine ⟨hL, hiff, fun hno es' t'' hrun => ?_⟩
  have hkept : Kept xfer t' := by
    refine ⟨by simp [hfreed], Or.inl ?_⟩
    rw [hl, if_neg (mt (head_iff hI hmem).1 (mt hiff.2 hno))]
    exact hmem
  refine (hrun.invariant (J := fun t => AbortInv t ∧ Kept xfer t) ⟨hI', hkept⟩
    fun _ _ _ hF hstep hJ => ?_).2
  exact ⟨abortInv_step hJ.1 hF hstep, kept_step hJ.1 hJ.2 hstep⟩

instance : ∀ (ev : AbortEvent) (t : AbortState), Decidable (HeadFirst ev t)
  | .engine (.queue _ xfer), t =>
    inferInstanceAs (Decidable (xfer.id ∉ t.engine.queued.map QTransfer.id))
  | .timeout xfer dumped, t =>
    inferInstanceAs (Decidable (dumped = true ∧ t.engine.transferList.head? = some xfer))
  | .engine .desc, _ => isTrue trivial
  | .engine (.fault _), _ => isTrue trivial
  | .engine .work, _ => isTrue trivial
  | .engine .poll, _ => isTrue trivial
  | .ended _, _ => isTrue trivial

/-- The second of two transfers is given up. -/
theorem timeout_safe_iff_second : ∃ t t', Run abortStep HeadFirst (.init .toDevice)
    [.engine (.queue false firstHalf), .engine (.queue false secondHalf)] t ∧
      abortStep (.timeout secondHalf true) t = some t' ∧ ¬t'.Live := by
  obtain ⟨t, hrun, hsome, hfirst⟩ : ∃ t, Run abortStep HeadFirst (.init .toDevice)
      [.engine (.queue false firstHalf), .engine (.queue false secondHalf)] t ∧
        (abortStep (.timeout secondHalf true) t).isSome = true ∧
        t.engine.transferList.head? = some firstHalf := ⟨_, Steps.run_of_exec rfl, by decide, rfl⟩
  obtain ⟨t', hs⟩ := Option.isSome_iff_exists.1 hsome
  refine ⟨t, t', hrun, hs, fun hL => ?_⟩
  have hhead := ((timeout_safe_iff hrun hs).2.1.1 hL).2
  exact absurd (Option.some.inj (hfirst.symm.trans hhead)) (by decide)

/-! ## Waits under the lock -/

/-- A list that holds one transfer at most, and that one is waited for. -/
structure Waited (t : AbortState) : Prop where
  inv : AbortInv t
  live : t.Live
  single : t.engine.transferList.length ≤ 1

/-- The transfer that a task waits for is the one on the list. -/
theorem Waited.head (hW : Waited t) (hmem : xfer ∈ t.engine.transferList) :
    t.engine.transferList.head? = some xfer := by
  obtain ⟨x, hx⟩ := List.length_eq_one_iff.1
    (le_antisymm hW.single (List.length_pos_of_mem hmem))
  rw [hx] at hmem
  rw [hx, List.mem_singleton.1 hmem]
  rfl

theorem waited_step (hW : Waited t) (hD : DescLock ev t) (h : abortStep ev t = some t') :
    Waited t' := by
  have hhead : HeadFirst ev t := by
    cases ev with
    | engine ev =>
      cases ev with
      | queue offline xfer => exact hD.1
      | _ => trivial
    | ended xfer => trivial
    | timeout xfer dumped =>
      obtain ⟨-, hmem, -⟩ := abortInv_timeout hW.inv h
      exact ⟨hD, hW.head hmem⟩
  refine ⟨abortInv_step hW.inv (fresh_of_headFirst hhead) h, live_step hW.inv hW.live hhead h, ?_⟩
  cases ev with
  | engine ev =>
    obtain ⟨s', hs, rfl⟩ := Option.map_eq_some_iff.1 h
    rcases engine_list hs with ⟨ended, -, hl, -⟩ | ⟨offline, xfer, rfl, -, hl, -⟩
    · have hlen := congrArg List.length hl
      rw [List.length_append] at hlen
      have hle := hW.single
      dsimp only
      omega
    · -- every transfer queued before is freed, so none is on the list
      have hnil : t.engine.transferList = [] := by
        rw [List.eq_nil_iff_forall_not_mem]
        intro x hx
        exact hW.live x hx (hD.2 x (hW.inv.order.subset (List.mem_append_right _ hx)))
      dsimp only
      rw [hl, hnil]
      exact le_rfl
  | ended xfer =>
    obtain ⟨-, rfl⟩ := ended_some h
    exact hW.single
  | timeout xfer dumped =>
    obtain ⟨-, -, -, -, -, hl⟩ := abortInv_timeout hW.inv h
    have hle := hW.single
    rw [hl]
    split
    next =>
      rw [List.length_tail]
      omega
    next => exact hle

/-- With `desc_lock` held through each wait, and the registers dumped whenever one runs out of
time, the list never holds a freed transfer. The next wait that does keeps it so exactly if the
registers can be dumped. -/
theorem desc_lock_safe {dir : DmaDataDirection} (h : Run abortStep DescLock (.init dir) es t) :
    t.Live ∧ t.engine.transferList.length ≤ 1 ∧
      ∀ xfer dumped t', abortStep (.timeout xfer dumped) t = some t' →
        (t'.Live ↔ dumped = true) := by
  have hW : Waited t := h.invariant
    ⟨abortInv_init dir, fun x hx => absurd hx List.not_mem_nil, Nat.zero_le 1⟩
    fun _ _ _ hD hs hW => waited_step hW hD hs
  refine ⟨hW.live, hW.single, fun xfer dumped t' hs => ?_⟩
  obtain ⟨-, hmem, -⟩ := abortInv_timeout hW.inv hs
  rw [live_timeout hW.inv hW.live hs, and_iff_left (hW.head hmem)]

instance : ∀ (ev : AbortEvent) (t : AbortState), Decidable (DescLock ev t)
  | .engine (.queue _ xfer), t => inferInstanceAs (Decidable
    (xfer.id ∉ t.engine.queued.map QTransfer.id ∧ ∀ x ∈ t.engine.queued, x.id ∈ t.freed))
  | .timeout _ dumped, _ => inferInstanceAs (Decidable (dumped = true))
  | .engine .desc, _ => isTrue trivial
  | .engine (.fault _), _ => isTrue trivial
  | .engine .work, _ => isTrue trivial
  | .engine .poll, _ => isTrue trivial
  | .ended _, _ => isTrue trivial

/-- One transfer runs out of time half-way, the next one ends. -/
theorem desc_lock_safe_twice : ∃ t, Run abortStep DescLock (.init .toDevice)
    [.engine (.queue false firstHalf), .engine .desc, .timeout firstHalf true,
      .engine (.queue false secondHalf), .engine .desc, .engine .work, .ended secondHalf] t ∧
      t.freed = [1, 2] ∧ t.Live := by
  obtain ⟨t, hrun, hfreed⟩ : ∃ t, Run abortStep DescLock (.init .toDevice)
      [.engine (.queue false firstHalf), .engine .desc, .timeout firstHalf true,
        .engine (.queue false secondHalf), .engine .desc, .engine .work, .ended secondHalf] t ∧
      t.freed = [1, 2] := ⟨_, Steps.run_of_exec rfl, rfl⟩
  exact ⟨t, hrun, hfreed, (desc_lock_safe hrun).1⟩

end ZynqSha256.Xdma
