import ZynqSha256.Proofs.XdmaEngine

/-! Services of an engine in time and out of time: a queue the hardware makes no error on is
emptied, and a service while the hardware is at work ends transfers that were never begun. -/

namespace ZynqSha256.Xdma

open Steps (Run)

variable {s s' : EngineState} {xfer : QTransfer} {xfers : List QTransfer}

/-! ## The queue is emptied -/

theorem EngineInv.active_of_running (hInv : EngineInv s) (hrun : s.running = true)
    (hl : s.transferList = xfer :: xfers) : Active s xfer xfers := by
  rcases hInv.mode with hI | ⟨t, ts, hA⟩
  · have := hI.running.symm.trans hrun
    cases this
  · obtain ⟨rfl, rfl⟩ := List.cons.inj (hA.list.symm.trans hl)
    exact hA

/-- The hardware goes on to the stop bit. -/
theorem run_descs (hInv : EngineInv s) (hA : Active s xfer xfers) {n : ℕ}
    (hn : n + s.completedDescCount = xfer.descNum) (hb : s.busy = decide (0 < n))
    (herr : s.errors = 0) : ∃ s',
    Run engineStep AtRest s (List.replicate n .desc) s' ∧ EngineInv s' ∧ Active s' xfer xfers ∧
      s'.busy = false ∧ s'.errors = 0 ∧ s'.completedDescCount = xfer.descNum ∧
      s'.finished = s.finished := by
  induction n generalizing s with
  | zero => exact ⟨s, Run.nil, hInv, hA, hb, herr, by omega, rfl⟩
  | succ n ih =>
    have hstep : ∃ s₁, engineStep .desc s = some s₁ ∧ s₁.running = s.running ∧
        s₁.transferList = s.transferList ∧ s₁.errors = s.errors ∧ s₁.finished = s.finished ∧
        s₁.completedDescCount = s.completedDescCount + 1 ∧
        s₁.busy = decide (s.completedDescCount + 1 < xfer.descNum) := by
      simp only [engineStep, hA.current, hb]
      exact ⟨_, rfl, rfl, rfl, rfl, rfl, rfl, rfl⟩
    obtain ⟨s₁, hs₁, hrun, hl, herr₁, hfin, hcount, hbusy⟩ := hstep
    have hInv₁ := (hInv.desc hs₁).1
    have hA₁ := hInv₁.active_of_running (hrun.trans hA.running) (hl.trans hA.list)
    obtain ⟨s', hR, hrest⟩ := ih hInv₁ hA₁ (by omega) (by rw [hbusy]; congr 1; simp; omega)
      (herr₁.trans herr)
    rw [hfin] at hrest
    exact ⟨s', (Run.one (show AtRest .desc s from trivial) hs₁).trans hR, hrest⟩

theorem resume_nil (hI : Idle s) (hl : s.transferList = []) :
    (engineServiceResume s).transferList = [] ∧
      (engineServiceResume s).finished = s.finished := by
  have hrun : (!s.running) = true := by rw [hI.running]; rfl
  unfold engineServiceResume
  rw [if_pos hrun, if_neg (by simp [hl])]
  split
  next => exact ⟨hl, rfl⟩
  next => exact ⟨hl, rfl⟩

theorem resume_cons (hI : Idle s) (hl : s.transferList = xfer :: xfers)
    (hpos : 0 < xfer.descNum) : Active (engineServiceResume s) xfer xfers ∧
      (engineServiceResume s).busy = true ∧ (engineServiceResume s).completedDescCount = 0 ∧
      (engineServiceResume s).finished = s.finished := by
  have hrun : (!s.running) = true := by rw [hI.running]; rfl
  obtain ⟨s', hs', hA, hb, hcount, -, hfin, -⟩ := engineStart_cons hI hl hpos
  unfold engineServiceResume
  rw [if_pos hrun, if_pos (by simp [hl]), hs', Option.getD_some]
  exact ⟨hA, hb, hcount, hfin⟩

/-- The steps left of transfers: their descriptors, and a service each. -/
def stepsOf (ts : List QTransfer) : ℕ := (ts.map fun t => t.descNum + 1).sum

/-- The first transfer is made and taken off. -/
theorem run_first (hInv : EngineInv s) (hA : Active s xfer xfers) (herr : s.errors = 0) :
    ∃ es s', (∀ ev ∈ es, ev = .desc ∨ ev = .work) ∧
      Run engineStep AtRest s es (engineServiceResume s') ∧
      es.length + s.completedDescCount = xfer.descNum + 1 ∧
      EngineInv (engineServiceResume s') ∧ Idle s' ∧ s'.transferList = xfers ∧
      s'.finished = s.finished ++ [⟨xfer, .completed, xfer.descNum⟩] := by
  have hle := hA.le
  obtain ⟨n, hn⟩ := Nat.exists_eq_add_of_le' hle
  have hb : s.busy = decide (0 < n) := by
    cases hb : s.busy with
    | true =>
      have := (hA.work hb).2
      exact (decide_eq_true (by omega)).symm
    | false =>
      rcases hA.rest hb with ⟨-, hfull⟩ | ⟨hne, -⟩
      · exact (decide_eq_false (by omega)).symm
      · exact absurd herr hne
  obtain ⟨s₁, hR, hInv₁, hA₁, hrest, herr₁, hfull, hfin⟩ := run_descs hInv hA hn.symm hb herr
  have hpos := hInv.pos xfer (by simp [hA.list])
  obtain ⟨s₂, hT, hs₂⟩ := service_spec hA₁ hrest (Or.inl rfl) (by omega)
  have hwork : engineStep .work s₁ = some (engineServiceResume s₂) := congrArg some hs₂
  refine ⟨List.replicate n .desc ++ [.work], s₂, ?_, hR.snoc (show AtRest .work s₁ from hrest) hwork,
    ?_, hInv₁.step (show AtRest .work s₁ from hrest) hwork, hT.idle, hT.list, ?_⟩
  · intro ev hev
    rcases List.mem_append.1 hev with hev | hev
    · exact Or.inl (List.eq_of_mem_replicate hev)
    · exact Or.inr (List.mem_singleton.1 hev)
  · rw [List.length_append, List.length_replicate, List.length_singleton]
    omega
  · rw [hT.finished, hfin, herr₁, hfull]
    rfl

theorem run_drains (hInv : EngineInv s) (hA : Active s xfer xfers) (herr : s.errors = 0) :
    ∃ es s', (∀ ev ∈ es, ev = .desc ∨ ev = .work) ∧ Run engineStep AtRest s es s' ∧
      es.length + s.completedDescCount = stepsOf (xfer :: xfers) ∧ s'.transferList = [] ∧
      s'.finished = s.finished ++
        (xfer :: xfers).map fun t => ⟨t, .completed, t.descNum⟩ := by
  induction xfers generalizing s xfer with
  | nil =>
    obtain ⟨es, s₁, hes, hR, hlen, -, hI, hl, hfin⟩ := run_first hInv hA herr
    obtain ⟨hnil, hsame⟩ := resume_nil hI hl
    exact ⟨es, _, hes, hR, hlen, hnil, hsame.trans hfin⟩
  | cons t ts ih =>
    obtain ⟨es, s₁, hes, hR, hlen, hInv₁, hI, hl, hfin⟩ := run_first hInv hA herr
    obtain ⟨hA₁, hb, hcount, hsame⟩ :=
      resume_cons hI hl (hInv.pos t (by simp [hA.list]))
    obtain ⟨es', s', hes', hR', hlen', hnil, hfin'⟩ := ih hInv₁ hA₁ (hA₁.work hb).1
    refine ⟨es ++ es', s', ?_, hR.trans hR', ?_, hnil, ?_⟩
    · intro ev hev
      rcases List.mem_append.1 hev with hev | hev
      · exact hes ev hev
      · exact hes' ev hev
    · rw [hcount] at hlen'
      rw [List.length_append, stepsOf, List.map_cons, List.sum_cons, ← stepsOf]
      omega
    · rw [hfin', hsame, hfin, List.append_assoc]
      rfl

/-- From any state of a running engine without an error the hardware and its services, in as
many steps as there are descriptors and transfers left, end all transfers as completed. -/
theorem engine_drains {dir : DmaDataDirection} {es : List EngineEvent}
    (h : Run engineStep AtRest (EngineState.init dir) es s) (hrun : s.running = true)
    (herr : s.errors = 0) : ∃ es' s', (∀ ev ∈ es', ev = .desc ∨ ev = .work) ∧
      Run engineStep AtRest s es' s' ∧
      es'.length + s.completedDescCount = stepsOf s.transferList ∧ s'.transferList = [] ∧
      s'.finished = s.finished ++ s.transferList.map fun t => ⟨t, .completed, t.descNum⟩ := by
  have hInv := engineInv h
  rcases hInv.mode with hI | ⟨t, ts, hA⟩
  · have := hI.running.symm.trans hrun
    cases this
  · rw [hA.list]
    exact run_drains hInv hA herr

theorem engine_drains_halves : ∃ s es s', Run engineStep AtRest (EngineState.init .toDevice)
    [.queue false firstHalf, .queue false secondHalf, .desc] s ∧
    Run engineStep AtRest s es s' ∧ es.length + 1 = 5 ∧ s'.transferList = [] := by
  have hrun : Run engineStep AtRest (EngineState.init .toDevice)
      [.queue false firstHalf, .queue false secondHalf, .desc] _ := Steps.run_of_exec rfl
  obtain ⟨es, s', -, hR, hlen, hnil, -⟩ := engine_drains hrun rfl rfl
  exact ⟨_, es, s', hrun, hR, hlen, hnil⟩

/-! ## Services at work -/

/-- A large count takes every transfer off the list. -/
theorem transferList_all {ts : List QTransfer} {count : BitVec 32}
    (hl : s.transferList = ts) (hsum : (ts.map QTransfer.descNum).sum < count.toNat) :
    ∃ count' s', engineServiceTransferList ts count s = (count', s') ∧ s'.transferList = [] ∧
      s'.running = s.running ∧ s'.made = s.made ∧
      s'.finished.map (fun f => (f.transfer, f.state)) =
        s.finished.map (fun f => (f.transfer, f.state)) ++ ts.map fun t => (t, .completed) := by
  induction ts generalizing s count with
  | nil => exact ⟨count, s, rfl, hl, rfl, rfl, (List.append_nil _).symm⟩
  | cons t ts ih =>
    rw [List.map_cons, List.sum_cons] at hsum
    have hsub : (count - BitVec.ofNat 32 t.descNum).toNat = count.toNat - t.descNum := by
      have hlt := count.isLt
      rw [BitVec.toNat_sub, BitVec.toNat_ofNat]
      omega
    rw [engineServiceTransferList, if_pos (by omega)]
    have hnext : (completeFirst (dequeue s t) .completed).transferList = ts ∧
        (completeFirst (dequeue s t) .completed).running = s.running ∧
        (completeFirst (dequeue s t) .completed).made = s.made ∧
        (completeFirst (dequeue s t) .completed).finished =
          s.finished ++ [⟨t, .completed, s.completedDescCount⟩] := by
      simp only [completeFirst, dequeue, hl, and_self]
    obtain ⟨hl', hrun, hmade, hfin⟩ := hnext
    obtain ⟨count', s', hs', hnil, hrun', hmade', hfin'⟩ := ih hl' (by rw [hsub]; omega)
    refine ⟨count', s', hs', hnil, hrun'.trans hrun, hmade'.trans hmade, ?_⟩
    rw [hfin', hfin, List.map_append, List.append_assoc]
    rfl

/-- The hardware at work is not stopped, and what it has counted so far is served. -/
theorem service_busy (hrun : s.running = true) (hb : s.busy = true) (herr : s.errors = 0)
    (h0 : s.completedDescCount ≠ 0) (h24 : s.completedDescCount < 2 ^ 24) :
    (engineStatusRead s true).status = XDMA_STAT_BUSY ∧
      engineService s 0 = engineServiceCount (engineStatusRead s true)
        (BitVec.ofNat 32 s.completedDescCount) := by
  have hread : (engineStatusRead s true).status = XDMA_STAT_BUSY := by
    simp [engineStatusRead, hb, herr]
  have hbusy : ¬(XDMA_STAT_BUSY &&& XDMA_STAT_BUSY = 0 ∨ (0 : BitVec 32) ≠ 0) := by decide
  refine ⟨hread, ?_⟩
  unfold engineService
  rw [hrun]
  dsimp only
  rw [if_neg (by decide), show 0 &&& WB_COUNT_MASK = 0 by rfl, if_pos (Or.inl rfl), hread,
    if_neg hbusy, if_pos rfl]
  exact if_neg (ofNat_ne_zero h0 h24)

/-- The transfer in work fails. The engine goes on running, on the transfers behind it. -/
theorem service_half_way (hA : Active s xfer xfers) (hb : s.busy = true)
    (h0 : s.completedDescCount ≠ 0) : ∃ s', engineService s 0 = engineServiceResume s' ∧
      s'.running = true ∧ s'.busy = true ∧ s'.errors = 0 ∧ s'.transferList = xfers ∧
      s'.descDequeued = BitVec.ofNat 32 xfer.descNum ∧ s'.made = s.made ∧
      s'.completedDescCount = s.completedDescCount ∧
      s'.finished = s.finished ++ [⟨xfer, .failed, s.completedDescCount⟩] := by
  obtain ⟨herr, hlt⟩ := hA.work hb
  obtain ⟨hread, hservice⟩ := service_busy hA.running hb herr h0 hA.small
  have hsmall := hA.small
  have hcount : (BitVec.ofNat 32 s.completedDescCount - s.descDequeued).toNat =
      s.completedDescCount := by
    rw [hA.dequeued, sub_zero, BitVec.toNat_ofNat, Nat.mod_eq_of_lt (by omega)]
  have hloop : engineServiceTransferList (xfer :: xfers)
      (BitVec.ofNat 32 s.completedDescCount - s.descDequeued) (engineStatusRead s true) =
      (BitVec.ofNat 32 s.completedDescCount - s.descDequeued, engineStatusRead s true) := by
    rw [engineServiceTransferList, if_neg (by omega)]
  have hmask : XDMA_STAT_BUSY &&& statErrMask s.dir = 0 := by
    rw [BitVec.and_comm]
    exact statErrMask_busy s.dir
  refine ⟨completeFirst (dequeue (engineStatusRead s true) xfer) .failed, ?_, ?_⟩
  · have hl : (engineStatusRead s true).transferList = xfer :: xfers := hA.list
    have hd : (engineStatusRead s true).descDequeued = s.descDequeued := rfl
    have hdir : (engineStatusRead s true).dir = s.dir := rfl
    rw [hservice, engineServiceCount, hl, hd, hloop]
    dsimp only
    unfold engineServiceFinalTransfer
    rw [hl]
    dsimp only
    rw [hread, hdir, hmask, if_neg (by simp), if_pos (by omega)]
  · simp only [completeFirst, dequeue, engineStatusRead, hA.list, hA.running, hb, hA.dequeued]
    simp

/-- Two services in the middle of a transfer end it as failed and every transfer behind it as
completed, without a descriptor made: what was counted before is less than what is already
taken off, and the difference wraps around. -/
theorem services_at_work {dir : DmaDataDirection} {es : List EngineEvent}
    (h : Run engineStep AtRest (EngineState.init dir) es s)
    (hl : s.transferList = xfer :: xfers) (hb : s.busy = true) (h0 : s.completedDescCount ≠ 0)
    (hsum : (xfers.map QTransfer.descNum).sum < 2 ^ 31) :
    (engineService (engineService s 0) 0).transferList = [] ∧
      (engineService (engineService s 0) 0).made = s.made ∧
      (engineService (engineService s 0) 0).finished.map (fun f => (f.transfer, f.state)) =
        s.finished.map (fun f => (f.transfer, f.state)) ++
          (xfer, .failed) :: xfers.map fun t => (t, .completed) := by
  have hInv := engineInv h
  have hA : Active s xfer xfers := by
    obtain ⟨t, ts, hA⟩ := hInv.active hb
    exact hInv.active_of_running hA.running hl
  have hlt := (hA.work hb).2
  have hmax : xfer.descNum ≤ 2048 := xfer.descNum_le
  obtain ⟨s₁, hs₁, hrun₁, hb₁, herr₁, hl₁, hd₁, hmade₁, hcount₁, hfin₁⟩ :=
    service_half_way hA hb h0
  have hresume : (!s₁.running) = false := by rw [hrun₁]; rfl
  cases xfers with
  | nil =>
    have hstop : engineServiceResume s₁ = xdmaEngineStop s₁ := by
      unfold engineServiceResume
      rw [hresume, if_neg (by decide), if_pos (by rw [hl₁]; rfl)]
    rw [hs₁, hstop]
    refine ⟨hl₁, hmade₁, ?_⟩
    change s₁.finished.map _ = _
    rw [hfin₁, List.map_append]
    rfl
  | cons t ts =>
    have hgo : engineServiceResume s₁ = s₁ := by
      unfold engineServiceResume
      rw [hresume, if_neg (by decide), if_neg (by simp [hl₁])]
    obtain ⟨-, hservice⟩ := service_busy hrun₁ hb₁ herr₁ (by omega) (by omega)
    have hbig : ((t :: ts).map QTransfer.descNum).sum <
        (BitVec.ofNat 32 s₁.completedDescCount - s₁.descDequeued).toNat := by
      rw [hd₁, hcount₁, BitVec.toNat_sub, BitVec.toNat_ofNat, BitVec.toNat_ofNat]
      omega
    obtain ⟨count, s₂, hs₂, hnil, hrun₂, hmade₂, hfin₂⟩ :=
      transferList_all (s := engineStatusRead s₁ true) hl₁ hbig
    have hlist : (engineStatusRead s₁ true).transferList = t :: ts := hl₁
    have hdequeued : (engineStatusRead s₁ true).descDequeued = s₁.descDequeued := rfl
    have hrunning : (!s₂.running) = false := by
      rw [hrun₂]
      exact hresume
    have hfinal : engineService s₁ 0 = xdmaEngineStop s₂ := by
      rw [hservice, engineServiceCount, hlist, hdequeued, hs₂]
      dsimp only
      unfold engineServiceFinalTransfer
      rw [hnil]
      unfold engineServiceResume
      rw [hrunning, if_neg (by decide), if_pos (by simp [hnil])]
    rw [hs₁, hgo, hfinal]
    refine ⟨hnil, hmade₂.trans hmade₁, ?_⟩
    change s₂.finished.map _ = _
    rw [hfin₂]
    change s₁.finished.map _ ++ _ = _
    rw [hfin₁, List.map_append, List.append_assoc]
    rfl

theorem services_at_work_halves : ∃ s, Run engineStep AtRest (EngineState.init .toDevice)
    [.queue false firstHalf, .queue false secondHalf, .desc] s ∧
    (engineService (engineService s 0) 0).made = [(1, 0)] ∧
    (engineService (engineService s 0) 0).finished.map (fun f => (f.transfer, f.state)) =
      [(firstHalf, .failed), (secondHalf, .completed)] := by
  have hrun : Run engineStep AtRest (EngineState.init .toDevice)
      [.queue false firstHalf, .queue false secondHalf, .desc] _ := Steps.run_of_exec rfl
  obtain ⟨-, hmade, hfin⟩ := services_at_work hrun rfl rfl (by decide) (by decide)
  exact ⟨_, hrun, hmade, hfin⟩

end ZynqSha256.Xdma
