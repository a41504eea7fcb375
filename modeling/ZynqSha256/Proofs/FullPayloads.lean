import ZynqSha256.Proofs.FullReads
import ZynqSha256.Proofs.FullWrites

/-! What the AXI4 slave shows on R and B while the master makes it wait. RDATA is
sampled again in every cycle and RID and BID are the request channels' own wires, so
they hold only as long as the register and the master hold them. -/

namespace ZynqSha256.Sha256Full

variable {idWidth : ℕ}

/-- Cycle `n` ends a burst whose response goes on BVALID. -/
def bSetAt (i : ℕ → FullIn idWidth) (n : ℕ) : Bool := wlastAt i n && !(run i n).axiBvalid

/-- Responses that wait keep their payload and carry the ID of their address. -/
structure PayloadsHeld (i : ℕ → FullIn idWidth) : Prop where
  read : ∀ n, (run i n).axiRvalid = true → (i n).rready = false →
    (run i (n + 1)).axiRvalid = true ∧ (run i (n + 1)).axiRdata = (run i n).axiRdata ∧
      (run i (n + 1)).axiRresp = (run i n).axiRresp ∧
      (run i (n + 1)).axiRlast = (run i n).axiRlast ∧ rid (i (n + 1)) = rid (i n)
  write : ∀ n, (run i n).axiBvalid = true → (i n).bready = false →
    (run i (n + 1)).axiBvalid = true ∧ (run i (n + 1)).axiBresp = (run i n).axiBresp ∧
      bid (i (n + 1)) = bid (i n)
  rid : ∀ t n, arAt i t = true → Clocked.QuietSince (arAt i) t n →
    (run i n).axiRvalid = true → rid (i n) = (i t).arid
  bid : ∀ t m n, awAt i t = true → Clocked.QuietSince (awAt i) t m → bSetAt i m = true →
    Clocked.QuietSince (bSetAt i) m n → (run i n).axiBvalid = true → bid (i n) = (i t).awid

section Stalls

variable {len : ℕ → ℕ} {i : ℕ → FullIn idWidth} {n : ℕ}

theorem read_stall (ha : ∀ n, (i n).aresetn = true) (hrv : (run i n).axiRvalid = true)
    (hrr : (i n).rready = false) :
    (run i (n + 1)).axiRvalid = true ∧ (run i (n + 1)).axiRresp = (run i n).axiRresp ∧
      (run i (n + 1)).axiRlast = (run i n).axiRlast ∧
      (run i (n + 1)).axiAraddr = (run i n).axiAraddr := by
  have hregs := (readRegs_stall (ha n) (run_aligned ha n) hrv hrr).2
  refine ⟨(congrArg ReadRegs.axiRvalid hregs).trans hrv, ?_, congrArg ReadRegs.axiRlast hregs,
    congrArg ReadRegs.axiAraddr hregs⟩
  rw [run_succ]
  simp [posedge, ha n, axiRrespNext, hrv]

theorem write_stall (ha : ∀ n, (i n).aresetn = true) (hb : (run i n).axiBvalid = true)
    (hbr : (i n).bready = false) :
    (run i (n + 1)).axiBvalid = true ∧ (run i (n + 1)).axiBresp = (run i n).axiBresp := by
  rw [run_succ]
  simp [posedge, ha n, axiBvalidNext, axiBrespNext, hb, hbr]

/-- A stalled beat keeps its data exactly when its register keeps its value. -/
theorem axiRdata_stall (ha : ∀ n, (i n).aresetn = true)
    (hrv : (run i (n + 1)).axiRvalid = true) (hrr : (i (n + 1)).rready = false) :
    (run i (n + 2)).axiRdata = (run i (n + 1)).axiRdata ↔
      register i (n + 1) (run i (n + 1)).axiAraddr = register i n (run i (n + 1)).axiAraddr := by
  obtain ⟨hrv', -, -, haddr⟩ := read_stall ha hrv hrr
  rw [axiRdata_eq ha hrv', axiRdata_eq ha hrv, haddr]

/-- A waiting response belongs to a burst that ended. -/
theorem exists_bSetAt (ha : ∀ n, (i n).aresetn = true) (hb : (run i n).axiBvalid = true) :
    ∃ m < n, bSetAt i m = true := by
  refine Clocked.exists_rise (u := fun n => (run i n).axiBvalid) rfl (fun n hup => ?_) hb
  by_cases hold : (run i n).axiBvalid = true
  · exact Or.inl hold
  · right
    rw [Bool.not_eq_true] at hold
    have hl : wlastAt i n = true := by
      by_contra hl
      rw [axiBvalid_of_not_wlastAt ha (by simpa using hl), hold] at hup
      cases hup
    rw [bSetAt, hl, hold]
    rfl

/-- A burst that takes words had its address accepted. -/
theorem exists_awAt (h : WriteMaster len i) (hflag : (run i n).axiAwvAwrFlag = true)
    (hready : (run i n).axiAwready = false) : ∃ t < n, awAt i t = true := by
  refine Clocked.exists_rise (u := fun n => (run i n).axiAwvAwrFlag && !(run i n).axiAwready)
    rfl (fun n hup => ?_) (by simp [hflag, hready])
  simp only [Bool.and_eq_true, Bool.not_eq_true'] at hup ⊢
  have hok := run_writeOk h.aresetn n
  by_cases hr : (run i n).axiAwready = true
  · exact Or.inr (h.awAt_of_awready hr)
  left
  refine ⟨?_, by simpa using hr⟩
  by_contra hf
  rw [Bool.not_eq_true] at hf
  rw [run_succ] at hup
  by_cases hacc : (run i n).awAccept (i n) = true
  · rw [(write_accept (h.aresetn n) hok hacc).1] at hup
    cases hup.2
  · rw [(write_rest (h.aresetn n) hok hf (by simpa using hacc)).2.1] at hup
    cases hup.1

/-- The transaction whose response is on the write response channel. -/
theorem response_owner (h : WriteMaster len i) (hb : (run i n).axiBvalid = true) :
    ∃ t m, awAt i t = true ∧ Clocked.QuietSince (awAt i) t m ∧ bSetAt i m = true ∧
      Clocked.QuietSince (bSetAt i) m n := by
  obtain ⟨m, hset, hmn⟩ := Clocked.exists_quietSince (exists_bSetAt h.aresetn hb)
  have hw : wAt i m = true := by
    rw [bSetAt, wlastAt, Bool.and_eq_true, Bool.and_eq_true] at hset
    exact hset.1.1
  have hready : (run i m).axiAwready = false := by
    by_contra hready
    have haw := h.awAt_of_awready (by simpa using hready)
    rw [(flag_of_awAt h.aresetn haw).2] at hw
    cases hw
  obtain ⟨t, ht, htm⟩ :=
    Clocked.exists_quietSince (exists_awAt h (wAt_flag h.aresetn hw) hready)
  exact ⟨t, m, ht, htm, hset, hmn⟩

/-- Waiting responses are stable and carry their own ID exactly when the register of a
stalled beat keeps its value and the master keeps driving the accepted ARID while
RVALID is high and the accepted AWID while BVALID is high. -/
theorem payloads_held_iff (hr : ReadMaster i) (hw : WriteMaster len i) : PayloadsHeld i ↔
    (∀ n, (run i (n + 1)).axiRvalid = true → (i (n + 1)).rready = false →
      register i (n + 1) (run i (n + 1)).axiAraddr = register i n (run i (n + 1)).axiAraddr) ∧
    (∀ t n, arAt i t = true → Clocked.QuietSince (arAt i) t n →
      (run i n).axiRvalid = true → (i n).arid = (i t).arid) ∧
    (∀ t m n, awAt i t = true → Clocked.QuietSince (awAt i) t m → bSetAt i m = true →
      Clocked.QuietSince (bSetAt i) m n → (run i n).axiBvalid = true →
      (i n).awid = (i t).awid) := by
  have ha := hr.aresetn
  constructor
  · intro h
    refine ⟨fun n hrv hrr => ?_, h.rid, h.bid⟩
    obtain ⟨-, hdata, -⟩ := h.read (n + 1) hrv hrr
    exact (axiRdata_stall ha hrv hrr).1 hdata
  · rintro ⟨hreg, hrid, hbid⟩
    refine ⟨fun n hrv hrr => ?_, fun n hb hbr => ?_, hrid, hbid⟩
    · obtain ⟨hrv', hresp, hlast, -⟩ := read_stall ha hrv hrr
      obtain ⟨t, ht, hq⟩ := beat_owner hr hrv
      have hq' := (Clocked.quietSince_succ hq.1).2 ⟨hq, not_arAt_of_rvalid ha hrv⟩
      refine ⟨hrv', ?_, hresp, hlast, (hrid t (n + 1) ht hq' hrv').trans (hrid t n ht hq hrv).symm⟩
      rcases n with _ | n
      · cases hrv
      · exact (axiRdata_stall ha hrv hrr).2 (hreg n hrv hrr)
    · obtain ⟨hb', hresp⟩ := write_stall ha hb hbr
      obtain ⟨t, m, ht, htm, hset, hq⟩ := response_owner hw hb
      have hno : bSetAt i n = false := by rw [bSetAt, hb, Bool.not_true, Bool.and_false]
      have hq' := (Clocked.quietSince_succ hq.1).2 ⟨hq, hno⟩
      exact ⟨hb', hresp,
        (hbid t m (n + 1) ht htm hset hq' hb').trans (hbid t m n ht htm hset hq hb).symm⟩

end Stalls

/-- A master that writes the interrupt enable bit and reads a hash word meanwhile, and is slow to
take the beat and the response. -/
def slowMaster (n : ℕ) : FullIn 1 where
  aresetn := true
  awid := 1
  awaddr := 0
  awlen := 0
  awburst := 1
  awvalid := decide (n < 2)
  wdata := 2
  wstrb := 0xf
  wlast := true
  wvalid := decide (n < 3)
  bready := decide (6 ≤ n)
  arid := 1
  araddr := 0x20
  arlen := 0
  arburst := 1
  arvalid := decide (n < 2)
  rready := decide (5 ≤ n)

theorem slowMaster_readMaster : ReadMaster slowMaster where
  aresetn _ := rfl
  stable := Clocked.Stable.of_two rfl rfl (by decide +kernel) fun n hn => decide_eq_false (by omega)
  burst _ _ := by
    change BurstOk 1 0x20 0
    decide

theorem slowMaster_writeMaster : WriteMaster (fun _ => 0) slowMaster where
  aresetn _ := rfl
  awStable := Clocked.Stable.of_two rfl rfl (by decide +kernel) fun n hn => decide_eq_false (by omega)
  wStable := by
    refine Clocked.Stable.of_script 3 (fun n hn _ hr => ?_) (fun n hn => decide_eq_false (by omega))
    rcases Nat.lt_or_eq_of_le (Nat.le_of_lt_succ hn) with hn | rfl
    · exact ⟨decide_eq_true (by omega), rfl⟩
    · exact absurd hr (by decide +kernel)
  burst _ _ := by
    change BurstOk 1 0 0
    decide
  awlen _ _ := rfl
  wlast _ _ := iff_of_true rfl (Nat.le_zero.1 (Burst.place_le _ _))

theorem slowMaster_register : ∀ n < 4,
    register slowMaster (n + 1) (run slowMaster (n + 1)).axiAraddr =
      register slowMaster n (run slowMaster (n + 1)).axiAraddr := by
  decide +kernel

/-- The beat waits in cycles 3 and 4, the response in 3 to 5. -/
theorem payloads_held_iff_slowMaster : PayloadsHeld slowMaster ∧
    (run slowMaster 3).axiRvalid = true ∧ (run slowMaster 4).axiRvalid = true ∧
      (run slowMaster 3).axiBvalid = true ∧ (run slowMaster 5).axiBvalid = true := by
  refine ⟨(payloads_held_iff slowMaster_readMaster slowMaster_writeMaster).2
    ⟨fun n _ hrr => ?_, fun _ _ _ _ _ => rfl, fun _ _ _ _ _ _ _ _ => rfl⟩, by decide +kernel,
    by decide +kernel, by decide +kernel, by decide +kernel⟩
  have hearly : ¬5 ≤ n + 1 := of_decide_eq_false hrr
  exact slowMaster_register n (by omega)

/-- A master that reads the status register, does not take the beat, and meanwhile
sets the interrupt enable bit. -/
def statusReader (n : ℕ) : FullIn 1 where
  aresetn := true
  awid := 0
  awaddr := 0
  awlen := 0
  awburst := 1
  awvalid := decide (n < 2)
  wdata := 2
  wstrb := 0xf
  wlast := true
  wvalid := decide (n < 3)
  bready := true
  arid := 0
  araddr := 0
  arlen := 0
  arburst := 1
  arvalid := decide (n < 2)
  rready := false

theorem statusReader_readMaster : ReadMaster statusReader where
  aresetn _ := rfl
  stable := Clocked.Stable.of_two rfl rfl (by decide +kernel) fun n hn => decide_eq_false (by omega)
  burst _ _ := by
    change BurstOk 1 0 0
    decide

theorem statusReader_writeMaster : WriteMaster (fun _ => 0) statusReader where
  aresetn _ := rfl
  awStable := Clocked.Stable.of_two rfl rfl (by decide +kernel) fun n hn => decide_eq_false (by omega)
  wStable := by
    refine Clocked.Stable.of_script 3 (fun n hn _ hr => ?_) (fun n hn => decide_eq_false (by omega))
    rcases Nat.lt_or_eq_of_le (Nat.le_of_lt_succ hn) with hn | rfl
    · exact ⟨decide_eq_true (by omega), rfl⟩
    · exact absurd hr (by decide +kernel)
  burst _ _ := by
    change BurstOk 1 0 0
    decide
  awlen _ _ := rfl
  wlast _ _ := iff_of_true rfl (Nat.le_zero.1 (Burst.place_le _ _))

/-- The stalled beat shows 0 in cycle 3 and 2 in cycle 4. -/
theorem stalled_beat_changes : ¬ ∀ i : ℕ → FullIn 1,
    ReadMaster i → (∃ len, WriteMaster len i) → PayloadsHeld i := by
  intro h
  have hheld := h statusReader statusReader_readMaster ⟨fun _ => 0, statusReader_writeMaster⟩
  obtain ⟨-, hdata, -⟩ := hheld.read 3 (by decide +kernel) rfl
  exact absurd hdata (by decide +kernel)

end ZynqSha256.Sha256Full
