import ZynqSha256.Driver.XdmaEngine
import ZynqSha256.Lib.Steps

/-! The queue of an engine over whole runs. When it is serviced only while the hardware is at
rest, transfers end in the order they were queued in, each once, and as completed exactly
when the hardware has made all their descriptors. -/

namespace ZynqSha256.Xdma

open Steps (Run)

variable {s s' : EngineState} {xfer : QTransfer} {xfers : List QTransfer} {wb : BitVec 32}

/-! ## The write-back word -/

theorem count_and_err {n : ℕ} (hn : n < 2 ^ 24) :
    BitVec.ofNat 32 n &&& WB_COUNT_MASK = BitVec.ofNat 32 n ∧
      BitVec.ofNat 32 n &&& WB_ERR_MASK = 0 := by
  constructor
  · apply BitVec.eq_of_toNat_eq
    rw [BitVec.toNat_and, BitVec.toNat_ofNat, show WB_COUNT_MASK.toNat = 2 ^ 24 - 1 by rfl,
      Nat.and_two_pow_sub_one_eq_mod]
    omega
  · apply BitVec.eq_of_toNat_eq
    rw [BitVec.toNat_and, BitVec.toNat_ofNat, show WB_ERR_MASK.toNat = 2 ^ 31 by rfl,
      Nat.and_two_pow, Nat.mod_eq_of_lt (by omega), Nat.testBit_lt_two_pow (by omega)]
    rfl

theorem writeback_count (hn : s.completedDescCount < 2 ^ 24) :
    s.writeback &&& WB_COUNT_MASK = BitVec.ofNat 32 s.completedDescCount := by
  have hcount := (count_and_err hn).1
  unfold EngineState.writeback
  rw [BitVec.and_or_distrib_right, hcount]
  split
  · simp
  · rw [show WB_ERR_MASK &&& WB_COUNT_MASK = 0 by decide]
    simp

theorem writeback_err (hn : s.completedDescCount < 2 ^ 24) :
    s.writeback &&& WB_ERR_MASK = 0 ↔ s.errors = 0 := by
  have herr := (count_and_err hn).2
  unfold EngineState.writeback
  rw [BitVec.and_or_distrib_right, herr]
  by_cases h : s.errors = 0
  · simp [h]
  · simp only [h, if_false, iff_false]
    decide

theorem ofNat_ne_zero {n : ℕ} (h0 : n ≠ 0) (hn : n < 2 ^ 24) : BitVec.ofNat 32 n ≠ 0 := by
  intro h
  have := congrArg BitVec.toNat h
  rw [BitVec.toNat_ofNat, Nat.mod_eq_of_lt (by omega)] at this
  exact h0 this

/-! ## The states of an engine -/

/-- The descriptors made of a transfer, the first `n` of them. -/
def descsOf (t : QTransfer) (n : ℕ) : List (ℕ × ℕ) := (List.range n).map fun i => (t.id, i)

structure Idle (s : EngineState) : Prop where
  running : s.running = false
  busy : s.busy = false
  errors : s.errors = 0

/-- The hardware was started with the first transfer of the list. -/
structure Active (s : EngineState) (t : QTransfer) (ts : List QTransfer) : Prop where
  running : s.running = true
  list : s.transferList = t :: ts
  current : s.current = some t
  dequeued : s.descDequeued = 0
  status : s.status &&& statErrMask s.dir = 0
  errors : s.errors &&& statErrMask s.dir = s.errors
  work : s.busy = true → s.errors = 0 ∧ s.completedDescCount < t.descNum
  rest : s.busy = false → (s.errors = 0 ∧ s.completedDescCount = t.descNum) ∨
    (s.errors ≠ 0 ∧ s.completedDescCount < t.descNum)

/-- The descriptors of the transfer at the head that are made. -/
def EngineState.ongoing (s : EngineState) : List (ℕ × ℕ) :=
  match s.running, s.transferList with
  | true, t :: _ => descsOf t s.completedDescCount
  | _, _ => []

/-- Ended as it should. -/
def Finished.Honest (f : Finished) : Prop :=
  (f.state = .completed ∧ f.made = f.transfer.descNum) ∨
    (f.state = .failed ∧ f.made < f.transfer.descNum)

structure EngineInv (s : EngineState) : Prop where
  order : s.finished.map Finished.transfer ++ s.transferList = s.queued
  pos : ∀ t ∈ s.transferList, 0 < t.descNum
  mode : Idle s ∨ ∃ t ts, Active s t ts
  made : s.made = (s.finished.flatMap fun f => descsOf f.transfer f.made) ++ s.ongoing
  honest : ∀ f ∈ s.finished, f.Honest
  ioDone : s.ioDone = ((s.finished.map Finished.transfer).filter
    fun t => t.cb && t.lastInRequest).map QTransfer.id

/-- No service while the hardware is at work. -/
def AtRest : EngineEvent → EngineState → Prop
  | .work, s => s.busy = false
  | .poll, s => s.busy = false
  | _, _ => True

theorem Active.le (hA : Active s xfer xfers) : s.completedDescCount ≤ xfer.descNum := by
  cases hb : s.busy with
  | true => exact (hA.work hb).2.le
  | false =>
    rcases hA.rest hb with ⟨-, h⟩ | ⟨-, h⟩
    · exact h.le
    · exact h.le

theorem Active.small (hA : Active s xfer xfers) : s.completedDescCount < 2 ^ 24 := by
  have := hA.le
  have h : xfer.descNum ≤ 2048 := xfer.descNum_le
  omega

theorem statErrMask_busy (dir : DmaDataDirection) :
    statErrMask dir &&& XDMA_STAT_BUSY = 0 := by
  cases dir <;> decide

/-! ## engine_start -/

/-- What a start leaves behind. -/
theorem engineStart_cons (hI : Idle s) (hl : s.transferList = xfer :: xfers)
    (hpos : 0 < xfer.descNum) : ∃ s', engineStart s = some s' ∧ Active s' xfer xfers ∧
      s'.busy = true ∧ s'.completedDescCount = 0 ∧ s'.queued = s.queued ∧
      s'.finished = s.finished ∧ s'.ioDone = s.ioDone ∧ s'.made = s.made := by
  unfold engineStart
  rw [hI.running, hl]
  refine ⟨_, rfl, ⟨rfl, rfl, rfl, rfl, ?_, ?_, fun _ => ⟨hI.errors, hpos⟩, ?_⟩, rfl, rfl, rfl,
    rfl, rfl, rfl⟩
  · simp only [engineStatusRead, hI.errors, if_true]
    cases s.dir <;> decide
  · simp only [engineStatusRead, hI.errors]
    exact BitVec.zero_and
  · intro h
    cases h

/-! ## engine_service -/

/-- The first transfer has been taken off the list, with the hardware stopped. -/
structure TakenOff (s : EngineState) (t : QTransfer) (ts : List QTransfer) (state : TransferState)
    (s' : EngineState) : Prop where
  idle : Idle s'
  list : s'.transferList = ts
  finished : s'.finished = s.finished ++ [⟨t, state, s.completedDescCount⟩]
  ioDone : s'.ioDone = if t.cb ∧ t.lastInRequest then s.ioDone ++ [t.id] else s.ioDone
  queued : s'.queued = s.queued
  made : s'.made = s.made

/-- How the transfer ends: by the errors read, or by the count. -/
def endState (errors : BitVec 32) : TransferState := if errors = 0 then .completed else .failed

theorem finish_spec (hI : Idle s) (hl : s.transferList = xfer :: xfers) (hd : s.descDequeued = 0)
    {errors : BitVec 32} (hst : s.status &&& statErrMask s.dir = errors)
    (hsmall : s.completedDescCount < 2 ^ 24) (hle : s.completedDescCount ≤ xfer.descNum)
    (hend : errors = 0 → s.completedDescCount = xfer.descNum) : ∃ s',
    TakenOff s xfer xfers (endState errors) s' ∧
      engineServiceCount s (BitVec.ofNat 32 s.completedDescCount) = engineServiceResume s' := by
  have hcount : (BitVec.ofNat 32 s.completedDescCount - s.descDequeued).toNat =
      s.completedDescCount := by
    rw [hd, sub_zero, BitVec.toNat_ofNat, Nat.mod_eq_of_lt (by omega)]
  have hloop : engineServiceTransferList s.transferList
      (BitVec.ofNat 32 s.completedDescCount - s.descDequeued) s =
      (BitVec.ofNat 32 s.completedDescCount - s.descDequeued, s) := by
    conv_lhs => rw [hl]
    rw [engineServiceTransferList, if_neg (by omega)]
  unfold engineServiceCount
  rw [hloop]
  dsimp only
  unfold engineServiceFinalTransfer
  rw [hl]
  dsimp only
  rw [hst]
  by_cases herr : errors = 0
  · rw [if_neg (not_not.2 herr), if_neg (by rw [hcount, hend herr]; omega)]
    refine ⟨_, ⟨?_, ?_, ?_, ?_, ?_, ?_⟩, rfl⟩ <;>
      simp only [completeFirst, dequeue, hl, endState, herr, if_true]
    exact ⟨hI.1, hI.2, hI.3⟩
  · rw [if_pos herr]
    refine ⟨_, ⟨?_, ?_, ?_, ?_, ?_, ?_⟩, rfl⟩ <;>
      simp only [completeFirst, xdmaEngineStop, hl, endState, herr, if_false]
    exact ⟨rfl, rfl, hI.3⟩

theorem Active.errors_busy (hA : Active s xfer xfers) : s.errors &&& XDMA_STAT_BUSY = 0 := by
  rw [← hA.errors, BitVec.and_assoc, statErrMask_busy]
  exact BitVec.and_zero

/-- A service of an engine whose hardware has stopped after a descriptor at least. -/
theorem service_spec (hA : Active s xfer xfers) (hrest : s.busy = false)
    (hwb : wb = 0 ∨ wb = s.writeback) (hc : s.completedDescCount ≠ 0) : ∃ s',
    TakenOff s xfer xfers (endState s.errors) s' ∧
      engineService s wb = engineServiceResume s' := by
  have hne := ofNat_ne_zero hc hA.small
  have hend : s.errors = 0 → s.completedDescCount = xfer.descNum := by
    intro h0
    rcases hA.rest hrest with ⟨-, h⟩ | ⟨h, -⟩
    · exact h
    · exact absurd h0 h
  have hread : (engineStatusRead s true).status = s.errors := by
    simp [engineStatusRead, hrest]
  -- the status is read, or the write-back tells that there is no error
  have hread_case : ∃ s',
      engineService s wb = engineServiceCount s' (BitVec.ofNat 32 s.completedDescCount) ∧
      (s' = xdmaEngineStop (engineStatusRead s true) ∨ (s' = xdmaEngineStop s ∧ s.errors = 0)) := by
    unfold engineService
    rw [hA.running]
    dsimp only
    rw [if_neg (by decide)]
    rcases hwb with rfl | rfl
    · refine ⟨xdmaEngineStop (engineStatusRead s true), ?_, Or.inl rfl⟩
      rw [show 0 &&& WB_COUNT_MASK = 0 by rfl, if_pos (Or.inl rfl), hread, hA.errors_busy, if_pos (Or.inl rfl),
        if_pos rfl]
      exact if_neg hne
    · have hflag := writeback_err hA.small
      rw [writeback_count hA.small]
      by_cases herr : s.errors = 0
      · refine ⟨xdmaEngineStop s, ?_, Or.inr ⟨rfl, herr⟩⟩
        have hno : ¬(BitVec.ofNat 32 s.completedDescCount = 0 ∨
            s.writeback &&& WB_ERR_MASK ≠ 0) := not_or.2 ⟨hne, not_not.2 (hflag.2 herr)⟩
        rw [if_neg hno, if_pos (Or.inr hne), if_neg hne, if_neg hne]
      · refine ⟨xdmaEngineStop (engineStatusRead s true), ?_, Or.inl rfl⟩
        rw [if_pos (Or.inr (mt hflag.1 herr)), if_pos (Or.inr hne), if_neg hne, if_neg hne]
  obtain ⟨s₁, hs₁, rfl | ⟨rfl, herr⟩⟩ := hread_case
  · have hst : (xdmaEngineStop (engineStatusRead s true)).status &&& statErrMask s.dir =
        s.errors := by
      rw [← hA.errors, ← hread]
      rfl
    obtain ⟨s', hT, hs'⟩ := finish_spec (s := xdmaEngineStop (engineStatusRead s true))
      ⟨rfl, rfl, rfl⟩ hA.list hA.dequeued hst hA.small hA.le hend
    exact ⟨s', ⟨hT.1, hT.2, hT.3, hT.4, hT.5, hT.6⟩, hs₁.trans hs'⟩
  · have hst : (xdmaEngineStop s).status &&& statErrMask s.dir = s.errors := by
      rw [herr, ← hA.status]
      rfl
    obtain ⟨s', hT, hs'⟩ := finish_spec (s := xdmaEngineStop s)
      ⟨rfl, rfl, herr⟩ hA.list hA.dequeued hst hA.small hA.le hend
    exact ⟨s', ⟨hT.1, hT.2, hT.3, hT.4, hT.5, hT.6⟩, hs₁.trans hs'⟩

/-- Nothing but the mode has changed. -/
structure SameQueue (s s' : EngineState) : Prop where
  list : s'.transferList = s.transferList
  finished : s'.finished = s.finished
  queued : s'.queued = s.queued
  ioDone : s'.ioDone = s.ioDone
  made : s'.made = s.made

/-- With no descriptor counted the service stops the engine and leaves it at that. -/
theorem service_stall (hA : Active s xfer xfers) (hrest : s.busy = false)
    (hwb : wb = 0 ∨ wb = s.writeback) (hc : s.completedDescCount = 0) :
    Idle (engineService s wb) ∧ SameQueue s (engineService s wb) := by
  have hcount : wb &&& WB_COUNT_MASK = 0 := by
    rcases hwb with rfl | rfl
    · rfl
    · rw [writeback_count hA.small, hc]
      rfl
  have hread : (engineStatusRead s true).status = s.errors := by
    simp [engineStatusRead, hrest]
  have hstop : engineService s wb = xdmaEngineStop (engineStatusRead s true) := by
    unfold engineService
    rw [hA.running]
    dsimp only
    rw [if_neg (by decide), hcount, if_pos (Or.inl rfl), hread, hA.errors_busy,
      if_pos (Or.inl rfl), if_pos rfl]
    exact if_pos (congrArg (BitVec.ofNat 32) hc)
  rw [hstop]
  exact ⟨⟨rfl, rfl, rfl⟩, ⟨rfl, rfl, rfl, rfl, rfl⟩⟩

theorem service_idle (wb : BitVec 32) (hI : Idle s) :
    Idle (engineService s wb) ∧ SameQueue s (engineService s wb) := by
  unfold engineService
  rw [hI.running]
  exact ⟨⟨hI.running, hI.busy, rfl⟩, ⟨rfl, rfl, rfl, rfl, rfl⟩⟩

/-! ## What each event preserves -/

theorem ongoing_idle (hI : Idle s) : s.ongoing = [] := by
  unfold EngineState.ongoing
  rw [hI.running]

theorem ongoing_active (hA : Active s xfer xfers) :
    s.ongoing = descsOf xfer s.completedDescCount := by
  unfold EngineState.ongoing
  rw [hA.running, hA.list]

theorem EngineInv.idle (hInv : EngineInv s) (hI : Idle s) (hI' : Idle s') (h : SameQueue s s') :
    EngineInv s' := by
  refine ⟨?_, ?_, Or.inl hI', ?_, ?_, ?_⟩
  · rw [h.finished, h.list, h.queued]
    exact hInv.order
  · rw [h.list]
    exact hInv.pos
  · rw [h.made, h.finished, hInv.made, ongoing_idle hI, ongoing_idle hI']
  · rw [h.finished]
    exact hInv.honest
  · rw [h.ioDone, h.finished]
    exact hInv.ioDone

/-- An idle engine with a transfer on its list is started with the first one. -/
theorem EngineInv.start (hInv : EngineInv s) (hI : Idle s)
    (hl : s.transferList = xfer :: xfers) :
    ∃ s', engineStart s = some s' ∧ EngineInv s' ∧ Active s' xfer xfers := by
  obtain ⟨s', hs', hA, -, hcount, hq, hf, hio, hm⟩ :=
    engineStart_cons hI hl (hInv.pos xfer (by simp [hl]))
  refine ⟨s', hs', ⟨?_, ?_, Or.inr ⟨xfer, xfers, hA⟩, ?_, ?_, ?_⟩, hA⟩
  · rw [hf, hA.list, hq, ← hl]
    exact hInv.order
  · rw [hA.list, ← hl]
    exact hInv.pos
  · rw [hm, hf, hInv.made, ongoing_idle hI, ongoing_active hA, hcount]
    rfl
  · rw [hf]
    exact hInv.honest
  · rw [hio, hf]
    exact hInv.ioDone

theorem EngineInv.resume (hInv : EngineInv s) (hI : Idle s) :
    EngineInv (engineServiceResume s) ∧ ((engineServiceResume s).running = false →
      (engineServiceResume s).transferList = []) := by
  have hrun : (!s.running) = true := by rw [hI.running]; rfl
  unfold engineServiceResume
  rw [if_pos hrun]
  by_cases hl : s.transferList = []
  · rw [if_neg (by simp [hl])]
    split
    next => exact ⟨hInv.idle hI ⟨hI.1, hI.2, hI.3⟩ ⟨rfl, rfl, rfl, rfl, rfl⟩, fun _ => hl⟩
    next => exact ⟨hInv, fun _ => hl⟩
  · obtain ⟨xfer, xfers, hl'⟩ := List.exists_cons_of_ne_nil hl
    obtain ⟨s', hs', hInv', hA⟩ := hInv.start hI hl'
    rw [if_pos (by simp [hl]), hs', Option.getD_some]
    refine ⟨hInv', fun hstop => ?_⟩
    rw [hA.running] at hstop
    cases hstop

/-- The transfer at the head ends as the hardware left it. -/
theorem EngineInv.takenOff (hInv : EngineInv s) (hA : Active s xfer xfers)
    (hrest : s.busy = false) (hT : TakenOff s xfer xfers (endState s.errors) s') :
    EngineInv s' := by
  have horder := hInv.order
  rw [hA.list] at horder
  refine ⟨?_, ?_, Or.inl hT.idle, ?_, ?_, ?_⟩
  · rw [hT.finished, hT.list, hT.queued, List.map_append, List.append_assoc]
    exact horder
  · intro t ht
    rw [hT.list] at ht
    exact hInv.pos t (by rw [hA.list]; exact List.mem_cons_of_mem _ ht)
  · rw [hT.made, hT.finished, hInv.made, ongoing_active hA, ongoing_idle hT.idle,
      List.flatMap_append, List.append_nil, List.flatMap_singleton]
  · intro f hf
    rw [hT.finished] at hf
    rcases List.mem_append.1 hf with hf | hf
    · exact hInv.honest f hf
    · rw [List.mem_singleton.1 hf]
      unfold endState
      rcases hA.rest hrest with ⟨h0, hmade⟩ | ⟨hne, hmade⟩
      · exact Or.inl ⟨if_pos h0, hmade⟩
      · exact Or.inr ⟨if_neg hne, hmade⟩
  · rw [hT.ioDone, hT.finished, hInv.ioDone, List.map_append, List.map_singleton,
      List.filter_append, List.map_append]
    cases hcb : xfer.cb <;> cases hlast : xfer.lastInRequest <;> simp [hcb, hlast]

/-- Where a service leaves an engine. It stands still with transfers on its list only if it
did before, or if the hardware had stopped without making a descriptor. -/
theorem EngineInv.service (hInv : EngineInv s) (hrest : s.busy = false)
    (hwb : wb = 0 ∨ wb = s.writeback) : EngineInv (engineService s wb) ∧
      ((engineService s wb).running = false → (engineService s wb).transferList ≠ [] →
        s.running = false ∨ s.completedDescCount = 0) := by
  rcases hInv.mode with hI | ⟨xfer, xfers, hA⟩
  · obtain ⟨hI', hsame⟩ := service_idle wb hI
    exact ⟨hInv.idle hI hI' hsame, fun _ _ => Or.inl hI.running⟩
  · by_cases hc : s.completedDescCount = 0
    · obtain ⟨hI', hsame⟩ := service_stall hA hrest hwb hc
      refine ⟨⟨?_, ?_, Or.inl hI', ?_, ?_, ?_⟩, fun _ _ => Or.inr hc⟩
      · rw [hsame.finished, hsame.list, hsame.queued]
        exact hInv.order
      · rw [hsame.list]
        exact hInv.pos
      · rw [hsame.made, hsame.finished, hInv.made, ongoing_active hA, ongoing_idle hI', hc]
        rfl
      · rw [hsame.finished]
        exact hInv.honest
      · rw [hsame.ioDone, hsame.finished]
        exact hInv.ioDone
    · obtain ⟨s₁, hT, hs₁⟩ := service_spec hA hrest hwb hc
      obtain ⟨hInv', hrun⟩ := (hInv.takenOff hA hrest hT).resume hT.idle
      rw [hs₁]
      exact ⟨hInv', fun hstop hne => absurd (hrun hstop) hne⟩

theorem EngineInv.queue (hInv : EngineInv s) (offline : Bool) (t : QTransfer) :
    EngineInv (transferQueue s offline t).2 := by
  unfold transferQueue
  split
  next => exact hInv
  next hnum =>
    split
    next => exact hInv
    next =>
      split
      next => exact hInv
      next =>
        set s₁ : EngineState :=
          { s with transferList := s.transferList ++ [t], queued := s.queued ++ [t] } with hs₁
        have horder : s₁.finished.map Finished.transfer ++ s₁.transferList = s₁.queued := by
          rw [hs₁, ← List.append_assoc, hInv.order]
        have hpos : ∀ t ∈ s₁.transferList, 0 < t.descNum := by
          intro t' ht'
          rcases List.mem_append.1 ht' with ht' | ht'
          · exact hInv.pos t' ht'
          · rw [List.mem_singleton.1 ht']
            exact Nat.pos_of_ne_zero hnum
        rcases hInv.mode with hI | ⟨xfer, xfers, hA⟩
        · have hI₁ : Idle s₁ := ⟨hI.1, hI.2, hI.3⟩
          have hInv₁ : EngineInv s₁ := by
            refine ⟨horder, hpos, Or.inl hI₁, ?_, hInv.honest, hInv.ioDone⟩
            rw [ongoing_idle hI₁, ← ongoing_idle hI]
            exact hInv.made
          obtain ⟨xfer, xfers, hl⟩ : ∃ xfer xfers, s₁.transferList = xfer :: xfers :=
            List.exists_cons_of_ne_nil (by simp [hs₁])
          obtain ⟨s', hs', hInv', -⟩ := hInv₁.start hI₁ hl
          dsimp only
          rw [if_neg (by rw [hI₁.running]; decide), hs']
          exact hInv'
        · have hA₁ : Active s₁ xfer (xfers ++ [t]) :=
            ⟨hA.1, by rw [hs₁, hA.list]; rfl, hA.3, hA.4, hA.5, hA.6, hA.7, hA.8⟩
          dsimp only
          rw [if_pos hA₁.running]
          refine ⟨horder, hpos, Or.inr ⟨xfer, xfers ++ [t], hA₁⟩, ?_, hInv.honest, hInv.ioDone⟩
          rw [ongoing_active hA₁]
          exact hInv.made.trans (congrArg _ (ongoing_active hA))

theorem descsOf_succ (t : QTransfer) (n : ℕ) : descsOf t (n + 1) = descsOf t n ++ [(t.id, n)] := by
  rw [descsOf, List.range_succ, List.map_append]
  rfl

/-- At work, the hardware is in the first transfer of the list. -/
theorem EngineInv.active (hInv : EngineInv s) (hb : s.busy = true) : ∃ t ts, Active s t ts := by
  rcases hInv.mode with hI | hA
  · rw [hI.busy] at hb
    cases hb
  · exact hA

theorem EngineInv.desc (hInv : EngineInv s) (h : engineStep .desc s = some s') :
    EngineInv s' ∧ s'.running = s.running := by
  cases hcur : s.current with
  | none => simp [engineStep, hcur] at h
  | some xfer =>
    by_cases hb : s.busy = true
    · obtain ⟨t, ts, hA⟩ := hInv.active hb
      obtain rfl : xfer = t := Option.some.inj (hcur.symm.trans hA.current)
      simp only [engineStep, hcur, hb, if_true, Option.some.injEq] at h
      subst h
      obtain ⟨herr, hlt⟩ := hA.work hb
      refine ⟨⟨hInv.order, hInv.pos, Or.inr ⟨xfer, ts, hA.1, hA.2, rfl, hA.4, hA.5, hA.6, ?_, ?_⟩,
        ?_, hInv.honest, hInv.ioDone⟩, rfl⟩
      · intro hmore
        exact ⟨herr, of_decide_eq_true hmore⟩
      · intro hlast
        have hge := of_decide_eq_false hlast
        exact Or.inl ⟨herr, by dsimp only; omega⟩
      · unfold EngineState.ongoing
        rw [hA.running, hA.list]
        dsimp only
        rw [hInv.made, ongoing_active hA, descsOf_succ, List.append_assoc]
    · simp [engineStep, hcur, hb] at h

theorem EngineInv.fault {errors : BitVec 32} (hInv : EngineInv s)
    (h : engineStep (.fault errors) s = some s') : EngineInv s' ∧ s'.running = s.running := by
  simp only [engineStep] at h
  split at h
  next hb =>
    obtain ⟨t, ts, hA⟩ := hInv.active hb.1
    obtain ⟨-, hlt⟩ := hA.work hb.1
    cases h
    refine ⟨⟨hInv.order, hInv.pos, Or.inr ⟨t, ts, hA.1, hA.2, hA.3, hA.4, hA.5, ?_, ?_, ?_⟩, ?_,
      hInv.honest, hInv.ioDone⟩, rfl⟩
    · dsimp only
      rw [BitVec.and_assoc, BitVec.and_self]
    · intro hbusy
      cases hbusy
    · exact fun _ => Or.inr ⟨hb.2, hlt⟩
    · unfold EngineState.ongoing
      rw [hA.running, hA.list]
      exact hInv.made.trans (congrArg _ (ongoing_active hA))
  next => cases h

/-! ## Runs -/

/-- An engine after `engine_init`. -/
def EngineState.init (dir : DmaDataDirection) : EngineState where
  dir := dir
  running := false
  shutdown := ENGINE_SHUTDOWN_NONE
  status := 0
  descDequeued := 0
  transferList := []
  current := none
  busy := false
  completedDescCount := 0
  errors := 0
  queued := []
  finished := []
  ioDone := []
  made := []

theorem engineInv_init (dir : DmaDataDirection) : EngineInv (EngineState.init dir) :=
  ⟨rfl, by simp [EngineState.init], Or.inl ⟨rfl, rfl, rfl⟩, rfl, by simp [EngineState.init], rfl⟩

theorem EngineInv.step {ev : EngineEvent} (hInv : EngineInv s) (hrest : AtRest ev s)
    (h : engineStep ev s = some s') : EngineInv s' := by
  cases ev with
  | queue offline t =>
    cases h
    exact hInv.queue offline t
  | desc => exact (hInv.desc h).1
  | fault errors => exact (hInv.fault h).1
  | work =>
    cases h
    exact (hInv.service hrest (Or.inl rfl)).1
  | poll =>
    simp only [engineStep] at h
    split at h
    next => cases h; exact hInv
    next => cases h; exact (hInv.service hrest (Or.inr rfl)).1

theorem engineInv {dir : DmaDataDirection} {es : List EngineEvent}
    (h : Run engineStep AtRest (EngineState.init dir) es s) : EngineInv s :=
  h.invariant (engineInv_init dir) fun _ _ _ hrest hs hInv => hInv.step hrest hs

/-- The transfers that have ended and the ones on the list, in this order, are the ones
queued. The hardware makes their descriptors in order, each once, from the first on: all of
them for a transfer that ends as completed, and fewer for one that ends as failed. The control
block of a transfer is called back when the transfer, the last one of its request, ends. -/
theorem engine_exactly_once {dir : DmaDataDirection} {es : List EngineEvent}
    (h : Run engineStep AtRest (EngineState.init dir) es s) :
    s.finished.map Finished.transfer ++ s.transferList = s.queued ∧
      (∃ n, (∀ t ts, s.transferList = t :: ts → n ≤ t.descNum) ∧
        s.made = (s.finished.flatMap fun f => descsOf f.transfer f.made) ++
          (s.transferList.head?.elim [] fun t => descsOf t n)) ∧
      (∀ f ∈ s.finished, f.Honest) ∧
      s.ioDone = ((s.finished.map Finished.transfer).filter
        fun t => t.cb && t.lastInRequest).map QTransfer.id := by
  have hInv := engineInv h
  refine ⟨hInv.order, ?_, hInv.honest, hInv.ioDone⟩
  rw [hInv.made]
  rcases hInv.mode with hI | ⟨t, ts, hA⟩
  · refine ⟨0, fun _ _ _ => Nat.zero_le _, ?_⟩
    rw [ongoing_idle hI]
    cases s.transferList <;> rfl
  · refine ⟨s.completedDescCount, ?_, ?_⟩
    · intro t' ts' hl
      obtain rfl : t = t' := (List.cons.inj (hA.list.symm.trans hl)).1
      exact hA.le
    · rw [ongoing_active hA, hA.list]
      rfl

instance : ∀ (ev : EngineEvent) (s : EngineState), Decidable (AtRest ev s)
  | .work, s => inferInstanceAs (Decidable (s.busy = false))
  | .poll, s => inferInstanceAs (Decidable (s.busy = false))
  | .queue _ _, _ => isTrue trivial
  | .desc, _ => isTrue trivial
  | .fault _, _ => isTrue trivial

/-- Two transfers of one request. -/
def firstHalf : QTransfer := ⟨1, 2, by decide, true, false⟩
def secondHalf : QTransfer := ⟨2, 1, by decide, true, true⟩

theorem engine_exactly_once_halves : ∃ s, Run engineStep AtRest (EngineState.init .toDevice)
    [.queue false firstHalf, .queue false secondHalf, .desc, .desc, .work, .desc, .poll] s ∧
    s.ioDone = [2] ∧ s.finished.map Finished.transfer ++ s.transferList = s.queued := by
  have hrun : Run engineStep AtRest (EngineState.init .toDevice)
      [.queue false firstHalf, .queue false secondHalf, .desc, .desc, .work, .desc, .poll] _ :=
    Steps.run_of_exec rfl
  exact ⟨_, hrun, rfl, (engine_exactly_once hrun).1⟩

/-! ## Standing still -/

/-- The engine is stopped with transfers on its list. -/
def Stalled (s : EngineState) : Prop := s.running = false ∧ s.transferList ≠ []

/-- The event services the engine. -/
def IsService (ev : EngineEvent) : Prop := ev = .work ∨ ev = .poll

theorem step_service {ev : EngineEvent} (hev : IsService ev) (hrest : AtRest ev s)
    (h : engineStep ev s = some s') : s.busy = false ∧ (s' = s ∧ s.writeback = 0 ∨
      ∃ wb, (wb = 0 ∨ wb = s.writeback) ∧ s' = engineService s wb) := by
  rcases hev with rfl | rfl
  · cases h
    exact ⟨hrest, Or.inr ⟨0, Or.inl rfl, rfl⟩⟩
  · simp only [engineStep] at h
    split at h
    next h0 => cases h; exact ⟨hrest, Or.inl ⟨rfl, h0⟩⟩
    next => cases h; exact ⟨hrest, Or.inr ⟨_, Or.inr rfl, rfl⟩⟩

/-- An accepted transfer finds the engine running or starts it. -/
theorem queue_cases (s : EngineState) (offline : Bool) (t : QTransfer) :
    (transferQueue s offline t).2 = s ∨
      ((transferQueue s offline t).2.running = true ∧
        (transferQueue s offline t).2.queued = s.queued ++ [t]) := by
  unfold transferQueue
  split
  next => exact Or.inl rfl
  next =>
    split
    next => exact Or.inl rfl
    next =>
      split
      next => exact Or.inl rfl
      next =>
        right
        dsimp only
        split
        next hrun => exact ⟨hrun, rfl⟩
        next hrun =>
          unfold engineStart
          rw [if_neg hrun, if_neg (by simp)]
          exact ⟨rfl, rfl⟩

theorem queue_stalled (s : EngineState) (offline : Bool) (t : QTransfer) :
    Stalled (transferQueue s offline t).2 ↔
      Stalled s ∧ (transferQueue s offline t).2.queued = s.queued := by
  rcases queue_cases s offline t with h | ⟨hrun, hq⟩
  · rw [h]
    exact ⟨fun hS => ⟨hS, rfl⟩, fun hS => hS.1⟩
  · constructor
    · rintro ⟨hstop, -⟩
      rw [hrun] at hstop
      cases hstop
    · rintro ⟨-, hsame⟩
      rw [hq] at hsame
      simp at hsame

/-- The hardware cannot be at work in a stopped engine. -/
theorem Stalled.idle (hInv : EngineInv s) (hS : Stalled s) : Idle s := by
  rcases hInv.mode with hI | ⟨t, ts, hA⟩
  · exact hI
  · have := hA.running.symm.trans hS.1
    cases this

theorem stalled_same (h : SameQueue s s') (hI : Idle s') :
    Stalled s' ↔ s.transferList ≠ [] := by
  rw [Stalled, h.list]
  exact ⟨fun hS => hS.2, fun hne => ⟨hI.running, hne⟩⟩

/-- A service stalls a running engine exactly when the hardware stopped with an error before
the first descriptor was made. -/
theorem service_stalled (hInv : EngineInv s) (hrest : s.busy = false)
    (hwb : wb = 0 ∨ wb = s.writeback) (hS : ¬Stalled s) :
    (Stalled (engineService s wb) ↔
      s.running = true ∧ s.errors ≠ 0 ∧ s.completedDescCount = 0) ∧
      (Stalled (engineService s wb) → (engineService s wb).finished = s.finished) := by
  rcases hInv.mode with hI | ⟨t, ts, hA⟩
  · obtain ⟨hI', hsame⟩ := service_idle wb hI
    refine ⟨?_, fun _ => hsame.finished⟩
    rw [stalled_same hsame hI', hI.running]
    constructor
    · intro hne
      exact absurd ⟨hI.running, hne⟩ hS
    · rintro ⟨h, -⟩
      cases h
  · by_cases hc : s.completedDescCount = 0
    · obtain ⟨hI', hsame⟩ := service_stall hA hrest hwb hc
      refine ⟨?_, fun _ => hsame.finished⟩
      rw [stalled_same hsame hI', hA.list]
      refine ⟨fun _ => ⟨hA.running, ?_, hc⟩, fun _ => List.cons_ne_nil _ _⟩
      have hpos := hInv.pos t (by simp [hA.list])
      rcases hA.rest hrest with ⟨-, hfull⟩ | ⟨herr, -⟩
      · omega
      · exact herr
    · have hno : ¬Stalled (engineService s wb) := by
        rintro ⟨hstop, hne⟩
        rcases (hInv.service hrest hwb).2 hstop hne with h | h
        · have := hA.running.symm.trans h
          cases this
        · exact hc h
      exact ⟨⟨fun h => absurd h hno, fun h => absurd h.2.2 hc⟩, fun h => absurd h hno⟩

theorem busy_of_desc (h : engineStep .desc s = some s') : s.busy = true := by
  simp only [engineStep] at h
  split at h
  next => cases h
  next =>
    split at h
    next hb => exact hb
    next => cases h

theorem busy_of_fault {errors : BitVec 32} (h : engineStep (.fault errors) s = some s') :
    s.busy = true := by
  simp only [engineStep] at h
  split at h
  next hb => exact hb.1
  next => cases h

/-- What `engine_stalls_iff` says of one step. -/
structure StallStep (ev : EngineEvent) (s s' : EngineState) : Prop where
  begins : ¬Stalled s → (Stalled s' ↔
    IsService ev ∧ s.running = true ∧ s.errors ≠ 0 ∧ s.completedDescCount = 0)
  ends : Stalled s → (Stalled s' ↔ s'.queued = s.queued)
  silent : Stalled s' → s'.finished = s.finished

theorem not_isService_queue (offline : Bool) (t : QTransfer) : ¬IsService (.queue offline t) := by
  rintro (h | h) <;> cases h

theorem stallStep_queue (s : EngineState) (offline : Bool) (t : QTransfer) :
    StallStep (.queue offline t) s (transferQueue s offline t).2 := by
  have hiff := queue_stalled s offline t
  refine ⟨?_, ?_, ?_⟩
  · intro hS
    exact ⟨fun h => absurd (hiff.1 h).1 hS, fun h => absurd h.1 (not_isService_queue _ _)⟩
  · intro hS
    exact ⟨fun h => (hiff.1 h).2, fun h => hiff.2 ⟨hS, h⟩⟩
  · intro h
    rcases queue_cases s offline t with hsame | ⟨hrun, -⟩
    · rw [hsame]
    · have := hrun.symm.trans h.1
      cases this

/-- The hardware at work keeps the engine running. -/
theorem stallStep_running {ev : EngineEvent} (hev : ¬IsService ev) (hS : s.running = true)
    (h : s'.running = s.running) : StallStep ev s s' := by
  have hno : ¬Stalled s' := by
    rintro ⟨hstop, -⟩
    rw [h, hS] at hstop
    cases hstop
  refine ⟨fun _ => ⟨fun h => absurd h hno, fun h => absurd h.1 hev⟩, ?_, fun h => absurd h hno⟩
  rintro ⟨hstop, -⟩
  rw [hS] at hstop
  cases hstop

theorem stallStep_service {ev : EngineEvent} (hInv : EngineInv s) (hev : IsService ev)
    (hrest : s.busy = false) (hwb : wb = 0 ∨ wb = s.writeback) :
    StallStep ev s (engineService s wb) := by
  by_cases hS : Stalled s
  · have hI := hS.idle hInv
    obtain ⟨hI', hsame⟩ := service_idle wb hI
    have hS' : Stalled (engineService s wb) := (stalled_same hsame hI').2 hS.2
    exact ⟨fun h => absurd hS h, fun _ => ⟨fun _ => hsame.queued, fun _ => hS'⟩,
      fun _ => hsame.finished⟩
  · obtain ⟨hiff, hsilent⟩ := service_stalled hInv hrest hwb hS
    exact ⟨fun _ => ⟨fun h => ⟨hev, hiff.1 h⟩, fun h => hiff.2 h.2⟩, fun h => absurd h hS, hsilent⟩

/-- Nothing has been written back, so there is no error either. -/
theorem stallStep_same {ev : EngineEvent} (hInv : EngineInv s) (h0 : s.writeback = 0) :
    StallStep ev s s := by
  refine ⟨?_, fun hS => ⟨fun _ => rfl, fun _ => hS⟩, fun _ => rfl⟩
  refine fun hS => ⟨fun h => absurd h hS, ?_⟩
  rintro ⟨-, hrun, herr, -⟩
  rcases hInv.mode with hI | ⟨t, ts, hA⟩
  · exact absurd hI.errors herr
  · have hflag := writeback_err hA.small
    rw [h0] at hflag
    exact absurd (hflag.1 rfl) herr

/-- An engine with transfers on its list comes to stand still only when it is serviced after
an error that left no descriptor made; no transfer ends there, and the engine stands until a
further transfer is accepted. -/
theorem engine_stalls_iff {dir : DmaDataDirection} {es : List EngineEvent} {ev : EngineEvent}
    (h : Run engineStep AtRest (EngineState.init dir) es s) (hrest : AtRest ev s)
    (hs : engineStep ev s = some s') :
    (¬Stalled s → (Stalled s' ↔
      IsService ev ∧ s.running = true ∧ s.errors ≠ 0 ∧ s.completedDescCount = 0)) ∧
    (Stalled s → (Stalled s' ↔ s'.queued = s.queued)) ∧
    (Stalled s' → s'.finished = s.finished) := by
  have hInv := engineInv h
  suffices hstep : StallStep ev s s' from ⟨hstep.begins, hstep.ends, hstep.silent⟩
  by_cases hev : IsService ev
  · obtain ⟨hbusy, ⟨rfl, h0⟩ | ⟨wb, hwb, rfl⟩⟩ := step_service hev hrest hs
    · exact stallStep_same hInv h0
    · exact stallStep_service hInv hev hbusy hwb
  · have hbusy_run (hb : s.busy = true) : s.running = true := by
      obtain ⟨t, ts, hA⟩ := hInv.active hb
      exact hA.running
    cases ev with
    | queue offline t =>
      cases hs
      exact stallStep_queue s offline t
    | desc => exact stallStep_running hev (hbusy_run (busy_of_desc hs)) (hInv.desc hs).2
    | fault errors => exact stallStep_running hev (hbusy_run (busy_of_fault hs)) (hInv.fault hs).2
    | work => exact absurd (Or.inl rfl) hev
    | poll => exact absurd (Or.inr rfl) hev

/-- An alignment error before the first descriptor. -/
theorem engine_stalls_iff_misaligned : ∃ s s', Run engineStep AtRest (EngineState.init .toDevice)
    [.queue false firstHalf, .fault 0x8] s ∧ engineStep .work s = some s' ∧ Stalled s' := by
  have hrun : Run engineStep AtRest (EngineState.init .toDevice)
      [.queue false firstHalf, .fault 0x8] _ := Steps.run_of_exec rfl
  have hiff := (engine_stalls_iff hrun (show AtRest .work _ from rfl) rfl).1 (by rintro ⟨h, -⟩; cases h)
  exact ⟨_, _, hrun, rfl, hiff.2 ⟨Or.inl rfl, rfl, by decide, rfl⟩⟩

end ZynqSha256.Xdma
