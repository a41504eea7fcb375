import ZynqSha256.Proofs.Master

/-! The polling protocol on AXI4-Lite. The status bit lags `hash_busy_o` by one
cycle, and in that cycle the response of the sixteenth write is still pending: a
sequential master cannot read it. So a poll that shows bit 8 low finds the core done. -/

namespace ZynqSha256.Sha256Axi

open Fips180 (Word chain)
open Sha256 (Phase)

/-- WDATA of all data writes before cycle `n`. -/
def written (i : ℕ → AxiLiteIn 8) : ℕ → List Word :=
  Clocked.log (fun n => (run i n).dataWrite (i n)) (fun n => (i n).wdata)

/-- In cycle `p` the master takes a poll response with bit 8 low. -/
def pollDone (i : ℕ → AxiLiteIn 8) (p : ℕ) : Prop :=
  ∃ addr, masterRun i p = ⟨.polling, .read true addr⟩ ∧ regIndex addr = 0 ∧
    (busRun i p).rHandshake (i p) = true ∧ (busRun i p).axiRdata.getLsbD 8 = false

/-- In cycle `n` the master takes the response to a read of `addr`. -/
def readDone (i : ℕ → AxiLiteIn 8) (n : ℕ) (addr : BitVec 8) : Prop :=
  (masterRun i n).txn = .read true addr ∧ (busRun i n).rHandshake (i n) = true

/-- The phase of the core at the start of cycle `n`. -/
def phaseRun (i : ℕ → AxiLiteIn 8) (n : ℕ) : Phase := (run i n).sha256Inst.phase

/-- Where the core is at each stage of the master. -/
def CoreAt (s : AxiLite 8) (p : Phase) (txn : Txn) : Stage → Prop
  | .resetting => p = .filling 0 ∧ (s.slvReg0.getLsbD 0 = true → txn = .write true true)
  | .loading k => k < 16 ∧ s.slvReg0.getLsbD 0 = false ∧
      (s.axiBvalid = false → p = .filling k) ∧
      (s.axiBvalid = true → k < 15 → p = .filling (k + 1)) ∧
      (s.axiBvalid = true → k = 15 → p.fill = 0)
  | .polling => s.slvReg0.getLsbD 0 = false ∧ p.fill = 0 ∧
      (s.slvReg0.getLsbD 8 = false → p = .filling 0) ∧
      ∀ addr, txn = .read true addr → regIndex addr = 0 → s.axiRdata.getLsbD 8 = false →
        p = .filling 0

/-- Between two writes the core holds the words answered. -/
theorem coreAt_open {s : AxiLite 8} {p : Phase} {txn : Txn} {k : ℕ} (hk : k < 16)
    (hs : s.slvReg0.getLsbD 0 = false) (hb : s.axiBvalid = false) (hp : p = .filling k) :
    CoreAt s p txn (.loading k) := by
  refine ⟨hk, hs, fun _ => hp, fun hc => ?_, fun hc => ?_⟩
  · rw [hb] at hc; cases hc
  · rw [hb] at hc; cases hc

/-- With a response pending the core has the word it answers as well. -/
theorem coreAt_pending {s : AxiLite 8} {p : Phase} {txn : Txn} {k : ℕ} (hk : k < 16)
    (hs : s.slvReg0.getLsbD 0 = false) (hb : s.axiBvalid = true)
    (hnext : k < 15 → p = .filling (k + 1)) (hfull : k = 15 → p.fill = 0) :
    CoreAt s p txn (.loading k) := by
  refine ⟨hk, hs, fun hc => ?_, fun _ => hnext, fun _ => hfull⟩
  rw [hb] at hc
  cases hc

variable {i : ℕ → AxiLiteIn 8}

/-! ## One cycle of the core behind the bus -/

theorem phase_eq_filling {p : Phase} {k : ℕ} (hf : p.fill = k) (ha : p.age = 0) : p = .filling k := by
  cases p with
  | filling j => rw [← hf]; rfl
  | busy j => cases ha

theorem fill_next_quiet {p : Phase} (h : p.fill = 0) : (p.next false).fill = 0 := by
  rw [Sha256.Phase.fill_next (by omega), if_neg (by simp)]
  exact h

theorem regIndex_of_window {addr : BitVec 8} (h : addr.extractLsb 7 6 = 1) : regIndex addr ≠ 0 := by
  intro h0
  have h1 := congrArg BitVec.toNat h
  have := addr.isLt
  simp [regIndex, Nat.shiftRight_eq_div_pow] at h0 h1
  omega

theorem readMux_hash (r : Word) (hash : Vector Word 8) {j : ℕ} (hj : j < 8) :
    readMux (8 + j) r hash = hash[j] := by
  interval_cases j <;> simp [readMux]

theorem rstN_of_soft (h : PollingMaster i) {n : ℕ}
    (hs : (busRun i n).slvReg0.getLsbD 0 = false) : (run i n).sha256RstN (i n) = true := by
  have hrst : (run i n).sha256RstN (i n) =
      ((i n).aresetn && !(busRun i n).slvReg0.getLsbD 0) := rfl
  rw [hrst, h.aresetn, hs]
  rfl

theorem rstN_of_soft_set {n : ℕ} (hs : (busRun i n).slvReg0.getLsbD 0 = true) :
    (wires i n).rstN = false := by
  have hrst : (wires i n).rstN = ((i n).aresetn && !(busRun i n).slvReg0.getLsbD 0) := rfl
  rw [hrst, hs, Bool.not_true, Bool.and_false]

theorem dataWrite_eq (h : PollingMaster i) (n : ℕ) : (run i n).dataWrite (i n) =
    ((busRun i n).axiAwready && (i n).awaddr.extractLsb 7 6 = 1) := by
  have haw : (run i n).bus.awHandshake (i n) = (busRun i n).axiAwready := (h.inv n).awHandshake_eq
  have hw : (run i n).bus.wHandshake (i n) = (busRun i n).axiAwready := (h.inv n).wHandshake_eq
  rw [dataWrite, haw, hw, Bool.and_self]

theorem dataWrite_of_not_ready (h : PollingMaster i) {n : ℕ}
    (hr : (busRun i n).axiAwready = false) : (run i n).dataWrite (i n) = false := by
  rw [dataWrite_eq h, hr, Bool.false_and]

/-- In a loading stage every write is a data write. -/
theorem dataWrite_of_loading (h : PollingMaster i) {n k : ℕ}
    (hst : (masterRun i n).stage = .loading k) :
    (run i n).dataWrite (i n) = (busRun i n).axiAwready := by
  have hwr : (Stage.loading k).Writes (i n) := hst ▸ (h.follows n).writes
  rw [dataWrite_eq h]
  cases hr : (busRun i n).axiAwready with
  | false => rfl
  | true =>
    rw [Bool.true_and, decide_eq_true_iff]
    exact hwr ((h.inv n).offered hr).1

theorem phase_succ (h : PollingMaster i) {n : ℕ} (hs : (busRun i n).slvReg0.getLsbD 0 = false) :
    phaseRun i (n + 1) = (phaseRun i n).next ((run i n).dataWrite (i n)) := by
  have hr : (wires i n).rstN = true := rstN_of_soft h hs
  rw [phaseRun, phaseRun, inst_eq_run, inst_eq_run, Sha256.run_succ,
    Sha256.phase_posedge hr (Sha256.run_counterOk (wires i) n),
    datVaildI_eq h.aresetn h.writes]

/-- An empty core that is given no word stays empty, reset or not. -/
theorem phase_succ_empty (h : PollingMaster i) {n : ℕ} (hp : phaseRun i n = .filling 0)
    (hd : (run i n).dataWrite (i n) = false) : phaseRun i (n + 1) = .filling 0 := by
  cases hs : (busRun i n).slvReg0.getLsbD 0 with
  | false => rw [phase_succ h hs, hp, hd]; rfl
  | true =>
    rw [phaseRun, inst_eq_run, Sha256.run_succ, Sha256.posedge_of_reset (rstN_of_soft_set hs)]
    rfl

theorem soft_succ (h : PollingMaster i) {n : ℕ}
    (hs : (busRun i (n + 1)).slvReg0.getLsbD 0 = true) :
    (busRun i n).axiAwready = true ∧ regIndex (i n).awaddr = 0 := by
  rw [(bus_runs i).succ, AxiLite.posedge_slvReg0 (h.aresetn n)] at hs
  obtain ⟨hwren, hidx⟩ := slvReg0Next_bit0 hs
  rw [(h.inv n).slvRegWren_eq] at hwren
  rw [(h.inv n).latched hwren] at hidx
  exact ⟨hwren, hidx⟩

theorem soft_of_not_ready (h : PollingMaster i) {n : ℕ}
    (hr : (busRun i n).axiAwready = false) : (busRun i (n + 1)).slvReg0.getLsbD 0 = false := by
  by_contra hs
  rw [Bool.not_eq_false] at hs
  rw [(soft_succ h hs).1] at hr
  cases hr

theorem busy_eq_age (h : PollingMaster i) {n : ℕ} (hs : (busRun i n).slvReg0.getLsbD 0 = false) :
    (run i n).hashBusyO (i n) = true ↔ 0 < (phaseRun i n).age := by
  have hr := rstN_of_soft h hs
  rw [busy_eq i hr, phaseRun, inst_eq_run]
  exact Sha256.hashBusyO_iff hr (Sha256.run_counterOk (wires i) n)

/-- After a cycle without a write the status bit is that cycle's busy flag. -/
theorem age_of_status (h : PollingMaster i) {n : ℕ} (hr : (busRun i n).axiAwready = false)
    (hs : (busRun i n).slvReg0.getLsbD 0 = false)
    (hst : (busRun i (n + 1)).slvReg0.getLsbD 8 = false) : (phaseRun i n).age = 0 := by
  have hwren : (busRun i n).slvRegWren (i n) = false := by rw [(h.inv n).slvRegWren_eq, hr]
  have hbusy : (run i n).hashBusyO (i n) = false := by
    rw [(bus_runs i).succ, AxiLite.posedge_slvReg0 (h.aresetn n), slvReg0Next_eq,
      if_neg (by rw [hwren]; simp)] at hst
    rw [← hst]
    exact (statusNxt_bit8 _ _).symm
  by_contra hne
  rw [(busy_eq_age h hs).2 (Nat.pos_of_ne_zero hne)] at hbusy
  cases hbusy

/-! ## The stages -/

theorem coreAt_resetting (h : PollingMaster i) {n : ℕ} (hst : (masterRun i n).stage = .resetting)
    (hc : CoreAt (busRun i n) (phaseRun i n) (masterRun i n).txn .resetting) :
    CoreAt (busRun i (n + 1)) (phaseRun i (n + 1)) (masterRun i (n + 1)).txn
      (masterRun i (n + 1)).stage := by
  have hwr : Stage.resetting.Writes (i n) := hst ▸ (h.follows n).writes
  have hd : (run i n).dataWrite (i n) = false := by
    rw [dataWrite_eq h]
    cases hr : (busRun i n).axiAwready with
    | false => rfl
    | true =>
      have h0 := hwr.1 ((h.inv n).offered hr).1
      rw [Bool.true_and, decide_eq_false_iff_not]
      exact fun hwin => regIndex_of_window hwin h0
  have hp := phase_succ_empty h hc.1 hd
  rcases master_cases h n with ⟨stage, hm, hm', hr, -, hb⟩ | ⟨stage, addr, hm, hm', hr, -, -⟩ |
    ⟨hm', -, hw, -⟩
  · -- the reset has been answered
    obtain rfl : stage = .resetting := by rwa [hm] at hst
    rw [hm']
    exact coreAt_open (by decide) (soft_of_not_ready h hr) hb hp
  · obtain rfl : stage = .resetting := by rwa [hm] at hst
    rw [hm']
    refine ⟨hp, fun hs => ?_⟩
    rw [soft_of_not_ready h hr] at hs
    cases hs
  · rw [hm', hst]
    exact ⟨hp, fun hs => hw (soft_succ h hs).1⟩

/-- A cycle of a loading stage: no reset, and the core is given a word where a write is
accepted. -/
theorem loading_next (h : PollingMaster i) {n k : ℕ} (hst : (masterRun i n).stage = .loading k)
    (hs : (busRun i n).slvReg0.getLsbD 0 = false) :
    (busRun i (n + 1)).slvReg0.getLsbD 0 = false ∧
      phaseRun i (n + 1) = (phaseRun i n).next (busRun i n).axiAwready := by
  have hwr : (Stage.loading k).Writes (i n) := hst ▸ (h.follows n).writes
  constructor
  · by_contra hc
    rw [Bool.not_eq_false] at hc
    obtain ⟨hr, h0⟩ := soft_succ h hc
    exact regIndex_of_window (hwr ((h.inv n).offered hr).1) h0
  · rw [← dataWrite_of_loading h hst]
    exact phase_succ h hs

/-- Between two answers the core waits, takes the word of a strobe, or works while the
response is pending. -/
theorem coreAt_loading_moved (h : PollingMaster i) {n k : ℕ} {txn txn' : Txn}
    (hst : (masterRun i n).stage = .loading k)
    (hc : CoreAt (busRun i n) (phaseRun i n) txn (.loading k))
    (hb' : (busRun i (n + 1)).axiBvalid = ((busRun i n).axiAwready || (busRun i n).axiBvalid)) :
    CoreAt (busRun i (n + 1)) (phaseRun i (n + 1)) txn' (.loading k) := by
  obtain ⟨hk, hs, hopen, hnext, hfull⟩ := hc
  obtain ⟨hs', hp⟩ := loading_next h hst hs
  cases hb : (busRun i n).axiBvalid with
  | true =>
    -- the response is still pending
    have hr := ((h.inv n).pending hb).2
    rw [hr] at hp
    rw [hr, hb, Bool.or_true] at hb'
    refine coreAt_pending hk hs' hb' (fun hlt => ?_) (fun h15 => ?_)
    · rw [hp, hnext hb hlt]
      rfl
    · rw [hp]
      exact fill_next_quiet (hfull hb h15)
  | false =>
    rw [hopen hb] at hp
    rw [hb, Bool.or_false] at hb'
    cases hr : (busRun i n).axiAwready with
    | false =>
      rw [hr] at hp hb'
      exact coreAt_open hk hs' hb' hp
    | true =>
      -- the strobe of the next word
      rw [hr] at hp hb'
      refine coreAt_pending hk hs' hb' (fun hlt => ?_) (fun h15 => ?_)
      · rw [hp, Phase.next, if_pos rfl, if_neg (by omega)]
      · rw [hp, h15]
        rfl

theorem coreAt_loading (h : PollingMaster i) {n k : ℕ} (hst : (masterRun i n).stage = .loading k)
    (hc : CoreAt (busRun i n) (phaseRun i n) (masterRun i n).txn (.loading k)) :
    CoreAt (busRun i (n + 1)) (phaseRun i (n + 1)) (masterRun i (n + 1)).txn
      (masterRun i (n + 1)).stage := by
  obtain ⟨hk, hs, hopen, hnext, hfull⟩ := id hc
  obtain ⟨hs', hp⟩ := loading_next h hst hs
  rcases master_cases h n with ⟨stage, hm, hm', hr, hb, hb'⟩ | ⟨stage, addr, hm, hm', hr, hb, hb'⟩ |
    ⟨hm', hb', -, -⟩
  · -- a word has been answered
    obtain rfl : stage = .loading k := by rwa [hm] at hst
    rw [hm', Stage.afterWrite]
    rw [hr] at hp
    split_ifs with h15
    · have hfill := fill_next_quiet (hfull hb h15)
      refine ⟨hs', hp ▸ hfill, fun hstatus => ?_, nofun⟩
      have hage := age_of_status h hr hs hstatus
      rw [hp, phase_eq_filling (hfull hb h15) hage]
      rfl
    · refine coreAt_open (by omega) hs' hb' ?_
      rw [hp, hnext hb (by omega)]
      rfl
  · obtain rfl : stage = .loading k := by rwa [hm] at hst
    rw [hm']
    refine coreAt_open hk hs' hb' ?_
    rw [hp, hr, hopen hb]
    rfl
  · rw [hm', hst]
    exact coreAt_loading_moved h hst hc hb'

theorem coreAt_polling (h : PollingMaster i) {n : ℕ} (hst : (masterRun i n).stage = .polling)
    (hc : CoreAt (busRun i n) (phaseRun i n) (masterRun i n).txn .polling) :
    CoreAt (busRun i (n + 1)) (phaseRun i (n + 1)) (masterRun i (n + 1)).txn
      (masterRun i (n + 1)).stage := by
  have hwr : Stage.polling.Writes (i n) := hst ▸ (h.follows n).writes
  obtain ⟨hs, hfill, hstatus, hanswer⟩ := hc
  have hr : (busRun i n).axiAwready = false := by
    by_contra hr
    have hoff := ((h.inv n).offered (by simpa using hr)).1
    rw [hwr.1] at hoff
    cases hoff
  have hs' := soft_of_not_ready h hr
  have hp := phase_succ h hs
  rw [dataWrite_of_not_ready h hr] at hp
  have hfill' : (phaseRun i (n + 1)).fill = 0 := hp ▸ fill_next_quiet hfill
  have hempty (h0 : phaseRun i n = .filling 0) : phaseRun i (n + 1) = .filling 0 := by
    rw [hp, h0]
    rfl
  have hstatus' (hc : (busRun i (n + 1)).slvReg0.getLsbD 8 = false) :
      phaseRun i (n + 1) = .filling 0 :=
    hempty (phase_eq_filling hfill (age_of_status h hr hs hc))
  rcases master_cases h n with ⟨stage, hm, hm', -⟩ | ⟨stage, addr, hm, hm', -, -, hb'⟩ |
    ⟨hm', -, -, hread⟩
  · obtain rfl : stage = .polling := by rwa [hm] at hst
    rw [hm']
    exact ⟨hs', hfill', hstatus', nofun⟩
  · obtain rfl : stage = .polling := by rwa [hm] at hst
    rw [hm', Stage.afterRead]
    split_ifs with hdone
    · -- the poll that ends the polling
      exact coreAt_open (by decide) hs' hb' (hempty (hanswer addr (by rw [hm]) hdone.1 hdone.2))
    · exact ⟨hs', hfill', hstatus', nofun⟩
  · rw [hm', hst]
    refine ⟨hs', hfill', hstatus', fun addr ht h0 hbit => ?_⟩
    obtain ⟨-, -, ⟨hsame, hrdata⟩ | hrdata⟩ := hread addr ht
    · rw [hrdata] at hbit
      exact hempty (hanswer addr hsame h0 hbit)
    · -- the status is read in this cycle
      rw [hrdata, h0] at hbit
      exact hempty (hstatus hbit)

theorem coreAt_run (h : PollingMaster i) (n : ℕ) :
    CoreAt (busRun i n) (phaseRun i n) (masterRun i n).txn (masterRun i n).stage := by
  induction n with
  | zero => exact ⟨rfl, fun hs => absurd hs (by decide : ¬(0 : Word).getLsbD 0 = true)⟩
  | succ n ih =>
    cases hst : (masterRun i n).stage with
    | resetting => exact coreAt_resetting h hst (hst ▸ ih)
    | loading k => exact coreAt_loading h hst (hst ▸ ih)
    | polling => exact coreAt_polling h hst (hst ▸ ih)

/-! ## The words and the digest -/

theorem written_succ (n : ℕ) : written i (n + 1) =
    written i n ++ if (run i n).dataWrite (i n) then [(i n).wdata] else [] := by
  rw [written, Clocked.log_succ]

/-- Out of the resetting stage the core is out of reset. -/
theorem soft_of_stage (h : PollingMaster i) {n : ℕ} (hst : (masterRun i n).stage ≠ .resetting) :
    (busRun i n).slvReg0.getLsbD 0 = false := by
  have hc := coreAt_run h n
  cases hstage : (masterRun i n).stage with
  | resetting => exact absurd hstage hst
  | loading k => rw [hstage] at hc; exact hc.2.1
  | polling => rw [hstage] at hc; exact hc.1

/-- A data write comes in a loading stage and finds the core taking words. -/
theorem dataWrite_loading (h : PollingMaster i) {n : ℕ}
    (hd : (run i n).dataWrite (i n) = true) :
    ∃ k, (masterRun i n).stage = .loading k ∧ (busRun i n).axiAwready = true ∧
      (busRun i n).axiBvalid = false ∧ phaseRun i n = .filling k := by
  rw [dataWrite_eq h, Bool.and_eq_true, decide_eq_true_iff] at hd
  obtain ⟨hr, hwin⟩ := hd
  have hoff := ((h.inv n).offered hr).1
  have hb := (h.inv n).not_bvalid hr
  have hwr := (h.follows n).writes
  have hc := coreAt_run h n
  cases hst : (masterRun i n).stage with
  | resetting =>
    rw [hst] at hwr
    exact absurd (hwr.1 hoff) (regIndex_of_window hwin)
  | loading k =>
    rw [hst] at hc
    exact ⟨k, rfl, hr, hb, hc.2.2.1 hb⟩
  | polling =>
    rw [hst] at hwr
    rw [hwr.1] at hoff
    cases hoff

/-- Nothing is written before the reset has been answered. -/
theorem written_resetting (h : PollingMaster i) (n : ℕ) :
    (masterRun i n).stage = .resetting → written i n = [] := by
  induction n with
  | zero => intro _; rfl
  | succ n ih =>
    intro hst
    have hprev : (masterRun i n).stage = .resetting := by
      rcases master_cases h n with ⟨stage, -, hm', -⟩ | ⟨stage, addr, hm, hm', -⟩ | ⟨hm', -⟩
      · rw [hm'] at hst
        cases stage with
        | resetting => cases hst
        | loading k =>
          simp only [Stage.afterWrite] at hst
          split_ifs at hst
        | polling => cases hst
      · rw [hm'] at hst
        rw [hm]
        cases stage with
        | resetting => rfl
        | loading k => cases hst
        | polling =>
          simp only [Stage.afterRead] at hst
          split_ifs at hst
      · rw [← hm', hst]
    have hd : ¬(run i n).dataWrite (i n) = true := by
      intro hd
      obtain ⟨k, hk, -⟩ := dataWrite_loading h hd
      rw [hprev] at hk
      cases hk
    rw [written_succ, if_neg hd, ih hprev]
    rfl

/-- Every word written is taken by the core, by induction on the cycle. -/
theorem absorbed_eq_written (h : PollingMaster i) (n : ℕ) : absorbed i n = written i n := by
  induction n with
  | zero => rfl
  | succ n ih =>
    cases hs : (busRun i n).slvReg0.getLsbD 0 with
    | false =>
      have hr := rstN_of_soft h hs
      rw [absorbed_succ hr, written_succ, ih, accepts_eq h.aresetn h.writes hr]
      cases hd : (run i n).dataWrite (i n) with
      | false => rfl
      | true =>
        obtain ⟨k, -, -, -, hp⟩ := dataWrite_loading h hd
        have hfree : (run i n).hashBusyO (i n) = false := by
          by_contra hb
          have hage := (busy_eq_age h hs).1 (by simpa using hb)
          rw [hp] at hage
          cases hage
        rw [hfree]
        rfl
    | true =>
      -- the soft reset comes before the first word
      have hst : (masterRun i n).stage = .resetting := by
        by_contra hne
        rw [soft_of_stage h hne] at hs
        cases hs
      have hr := rstN_of_soft_set hs
      have hd : ¬(run i n).dataWrite (i n) = true := by
        intro hd
        obtain ⟨k, hk, -⟩ := dataWrite_loading h hd
        rw [hst] at hk
        cases hk
      rw [written_succ, if_neg hd, written_resetting h n hst, absorbed, Sha256.accepted,
        Clocked.logSince, if_neg (by rw [hr]; exact Bool.false_ne_true)]
      rfl

theorem written_mod (h : PollingMaster i) (n : ℕ) :
    (written i n).length % 16 = (phaseRun i n).fill := by
  rw [← absorbed_eq_written h, phaseRun, inst_eq_run]
  exact Sha256.accepted_mod (wires i) n

/-- While a block is being loaded, a hash register read shows the blocks written. -/
theorem hash_answer (h : PollingMaster i) {k j : ℕ} {addr : BitVec 8} (hj : j < 8)
    (hidx : regIndex addr = 8 + j) (n : ℕ) :
    masterRun i n = ⟨.loading k, .read true addr⟩ →
      (busRun i n).axiRdata = lsbToMsb (chain ((written i n).map datMsbI))[j] := by
  induction n with
  | zero => intro hm; cases hm
  | succ n ih =>
    intro hm
    rcases master_cases h n with ⟨stage, -, hm', -⟩ | ⟨stage, addr', -, hm', -⟩ | ⟨hst, -, -, hread⟩
    · have htxn := congrArg Master.txn (hm'.symm.trans hm)
      cases htxn
    · have htxn := congrArg Master.txn (hm'.symm.trans hm)
      cases htxn
    · rw [hm] at hst hread
      obtain ⟨hr, hb, hanswer⟩ := hread addr rfl
      have hd : ¬(run i n).dataWrite (i n) = true := by
        rw [dataWrite_of_not_ready h hr]
        exact Bool.false_ne_true
      rw [written_succ, if_neg hd, List.append_nil]
      rcases hanswer with ⟨htxn, hrdata⟩ | hrdata
      · rw [hrdata]
        apply ih
        rw [← htxn]
        cases hmn : masterRun i n with
        | mk stage txn => rw [hmn] at hst; cases hst; rfl
      · -- the register is read in this cycle, with the core taking words
        have hc := coreAt_run h n
        rw [← hst] at hc
        obtain ⟨-, hs, hopen, -⟩ := hc
        have hfree : (run i n).hashBusyO (i n) = false := by
          by_contra hbusy
          have hage := (busy_eq_age h hs).1 (by simpa using hbusy)
          rw [hopen hb] at hage
          cases hage
        rw [hrdata, hidx, readMux_hash _ _ hj, hash_of_absorbed (rstN_of_soft h hs) hfree,
          absorbed_eq_written h]
        simp

/-! ## Between two polls -/

theorem pollDone_next (h : PollingMaster i) {p : ℕ} (hp : pollDone i p) :
    (masterRun i (p + 1)).stage = .loading 0 ∧ (busRun i (p + 1)).axiBvalid = false := by
  obtain ⟨addr, hm, hidx, hr, hbit⟩ := hp
  have hnext : masterRun i (p + 1) = ⟨.loading 0, .none⟩ := by
    rw [masterRun, hm, Master.next]
    dsimp only
    rw [if_pos hr, Stage.afterRead, if_pos ⟨hidx, hbit⟩]
  refine ⟨by rw [hnext], ?_⟩
  rcases master_cases h p with ⟨stage, hm', -⟩ | ⟨stage, addr', -, -, -, -, hb⟩ | ⟨hst, -⟩
  · rw [hm'] at hm; cases hm
  · exact hb
  · rw [hnext, hm] at hst; cases hst

/-- Until sixteen further words are written the master keeps loading. -/
theorem loading_since_poll (h : PollingMaster i) {p : ℕ} (hp : pollDone i p) (m : ℕ) :
    (written i (p + 1 + m)).length < (written i (p + 1)).length + 16 →
    ∃ k, (masterRun i (p + 1 + m)).stage = .loading k ∧
      (written i (p + 1 + m)).length = (written i (p + 1)).length + k +
        if (busRun i (p + 1 + m)).axiBvalid then 1 else 0 := by
  induction m with
  | zero =>
    intro _
    obtain ⟨hst, hb⟩ := pollDone_next h hp
    exact ⟨0, hst, by rw [Nat.add_zero (p + 1), hb]; rfl⟩
  | succ m ih =>
    intro hlt
    rw [← Nat.add_assoc] at hlt ⊢
    have hlen : (written i (p + 1 + m + 1)).length = (written i (p + 1 + m)).length +
        if (run i (p + 1 + m)).dataWrite (i (p + 1 + m)) then 1 else 0 := by
      rw [written_succ, List.length_append]
      split <;> rfl
    obtain ⟨k, hst, hk⟩ := ih (by omega)
    rw [dataWrite_of_loading h hst] at hlen
    rcases master_cases h (p + 1 + m) with ⟨stage, hm, hm', hr, hb, hb'⟩ |
      ⟨stage, addr, hm, hm', hr, hb, hb'⟩ | ⟨hm', hb', -, -⟩
    · obtain rfl : stage = .loading k := by rwa [hm] at hst
      rw [hr] at hlen
      rw [hb] at hk
      simp only [Bool.false_eq_true, if_false, if_true] at hlen hk
      refine ⟨k + 1, ?_, ?_⟩
      · rw [hm', Stage.afterWrite, if_neg (by omega)]
      · rw [hb']
        simp only [Bool.false_eq_true, if_false]
        omega
    · obtain rfl : stage = .loading k := by rwa [hm] at hst
      rw [hr] at hlen
      rw [hb] at hk
      exact ⟨k, by rw [hm']; rfl, by rw [hlen, hb', hk]; rfl⟩
    · refine ⟨k, hm'.trans hst, ?_⟩
      rw [hlen, hk, hb']
      cases hr : (busRun i (p + 1 + m)).axiAwready with
      | false => rfl
      | true => rw [(h.inv _).not_bvalid hr]; rfl

/-- For every polling master, whatever it delays: the core takes exactly the words
written, in order; and after a poll that showed bit 8 low a hash register read returns
the chaining value of the blocks written before it, until sixteen further words are
written. -/
theorem polling_sound (i : ℕ → AxiLiteIn 8) (h : PollingMaster i) :
    (∀ n, absorbed i n = written i n) ∧
    ∀ p, pollDone i p → (written i (p + 1)).length % 16 = 0 ∧
      ∀ n addr j, (hj : j < 8) → p < n → readDone i n addr → regIndex addr = 8 + j →
        (written i n).length < (written i (p + 1)).length + 16 →
        (busRun i n).axiRdata = lsbToMsb (chain ((written i (p + 1)).map datMsbI))[j] := by
  refine ⟨absorbed_eq_written h, fun p hp => ?_⟩
  have hblocks : (written i (p + 1)).length % 16 = 0 := by
    obtain ⟨hst, hb⟩ := pollDone_next h hp
    have hc := coreAt_run h (p + 1)
    rw [hst] at hc
    rw [written_mod h, hc.2.2.1 hb]
    rfl
  refine ⟨hblocks, fun n addr j hj hpn hread hidx hlt => ?_⟩
  obtain ⟨m, rfl⟩ : ∃ m, n = p + 1 + m := ⟨n - (p + 1), by omega⟩
  obtain ⟨k, hst, hk⟩ := loading_since_poll h hp m hlt
  have hm : masterRun i (p + 1 + m) = ⟨.loading k, .read true addr⟩ := by
    cases hmn : masterRun i (p + 1 + m) with
    | mk stage txn =>
      have htxn := hread.1
      rw [hmn] at hst htxn
      rw [← hst, ← htxn]
  obtain ⟨t, ht⟩ := Clocked.log_prefix (fun n => (run i n).dataWrite (i n))
    (fun n => (i n).wdata) (Nat.le_add_right (p + 1) m)
  have hsplit : written i (p + 1 + m) = written i (p + 1) ++ t := ht.symm
  have hshort : t.length < 16 := by
    rw [hsplit, List.length_append] at hlt
    omega
  have hchain : chain ((written i (p + 1 + m)).map datMsbI) =
      chain ((written i (p + 1)).map datMsbI) := by
    rw [hsplit, List.map_append]
    exact Fips180.chain_append_short (by rwa [List.length_map]) (by rwa [List.length_map])
  rw [hash_answer h hj hidx _ hm, hchain]

/-! ## A run of the protocol -/

/-- The block of the message "abc", as the bus carries it. -/
def abcWord (k : ℕ) : Word := if k = 0 then 0x80636261 else if k = 15 then 0x18000000 else 0

/-- A master that resets the core, writes one block, waits, polls once and reads `hash0`. -/
def abcMaster (n : ℕ) : AxiLiteIn 8 where
  aresetn := true
  awaddr := if n < 3 then 0x00 else 0x40
  awvalid := n < 51 && n % 3 ≠ 2
  wdata := if n < 3 then 1 else abcWord (n / 3 - 1)
  wstrb := 0xf
  wvalid := n < 51 && n % 3 ≠ 2
  bready := true
  araddr := if n < 105 then 0x00 else 0x20
  arvalid := 102 ≤ n && n < 107 && n % 3 ≠ 2
  rready := true

instance (i : AxiLiteIn 8) (stage : Stage) : Decidable (stage.Writes i) :=
  match stage with
  | .resetting => inferInstanceAs (Decidable (_ ∧ _))
  | .loading _ => inferInstanceAs (Decidable (_ → _))
  | .polling => inferInstanceAs (Decidable (_ ∧ _))

instance (i : AxiLiteIn 8) (txn : Txn) : Decidable (txn.Offers i) :=
  match txn with
  | .none => inferInstanceAs (Decidable (_ → _))
  | .write _ _ => inferInstanceAs (Decidable (_ ∧ _))
  | .read _ _ => inferInstanceAs (Decidable (_ ∧ _))

/-- After its last transaction the master offers nothing. -/
theorem abcMaster_idle {n : ℕ} (hn : 107 ≤ n) :
    (abcMaster n).awvalid = false ∧ (abcMaster n).wvalid = false ∧ (abcMaster n).arvalid = false := by
  have h1 : ¬n < 51 := by omega
  have h2 : ¬n < 107 := by omega
  simp [abcMaster, h1, h2]

theorem abcMaster_follows (n : ℕ) : (masterRun abcMaster n).Allows (abcMaster n) := by
  rcases Nat.lt_or_ge n 107 with hn | hn
  · have hall : ∀ n < 107, (masterRun abcMaster n).txn.Offers (abcMaster n) ∧
        (masterRun abcMaster n).stage.Writes (abcMaster n) := by decide +kernel
    exact ⟨(hall n hn).1, (hall n hn).2⟩
  · obtain ⟨haw, hw, har⟩ := abcMaster_idle hn
    constructor
    · cases (masterRun abcMaster n).txn with
      | none => exact fun _ => ⟨haw, hw⟩
      | write _ _ => exact ⟨har, fun _ => haw, fun _ => hw⟩
      | read _ _ => exact ⟨haw, hw, fun _ => har⟩
    · cases (masterRun abcMaster n).stage with
      | resetting =>
        refine ⟨fun hc => ?_, fun hc => ?_⟩
        · cases haw.symm.trans hc
        · cases hw.symm.trans hc
      | loading k =>
        intro hc
        cases haw.symm.trans hc
      | polling => exact ⟨haw, hw⟩

theorem abcMaster_polling : PollingMaster abcMaster where
  aresetn _ := rfl
  writes :=
    ⟨Clocked.Stable.of_script 107 (by decide +kernel) fun _ hn => (abcMaster_idle hn).1,
      Clocked.Stable.of_script 107 (by decide +kernel) fun _ hn => (abcMaster_idle hn).2.1⟩
  reads := Clocked.Stable.of_script 107 (by decide +kernel) fun _ hn => (abcMaster_idle hn).2.2
  follows := abcMaster_follows

/-- Its poll succeeds in cycle 104, and in cycle 107 it takes the first word of SHA-256("abc"). -/
theorem polling_sound_abcMaster : (busRun abcMaster 107).axiRdata = 0xbf1678ba := by
  have hpoll : pollDone abcMaster 104 :=
    ⟨0x00, by decide +kernel, by decide, by decide +kernel, by decide +kernel⟩
  have hread : readDone abcMaster 107 0x20 := ⟨by decide +kernel, by decide +kernel⟩
  obtain ⟨-, hhash⟩ := (polling_sound abcMaster abcMaster_polling).2 104 hpoll
  rw [hhash 107 0x20 0 (by decide) (by decide) hread (by decide) (by decide +kernel)]
  decide +kernel

end ZynqSha256.Sha256Axi
