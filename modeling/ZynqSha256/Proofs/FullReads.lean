import ZynqSha256.Proofs.Bursts

/-! AXI4 read bursts. The flag, the beat counter, RLAST, RVALID and the address are
five processes; `ReadRegs.Aligned` keeps them together, and a run of the channel is
compared with the burst rule from one AR handshake to the next. -/

namespace ZynqSha256.Sha256Full

open Fips180 (Word)

variable {idWidth : ℕ}

def arHandshake (i : FullIn idWidth) (s : Sha256Full) : Bool := i.arvalid && s.axiArready
def rHandshake (i : FullIn idWidth) (s : Sha256Full) : Bool := s.axiRvalid && i.rready

/-- The registers of the read channel. -/
structure ReadRegs where
  axiAraddr : BitVec 8
  axiArready : Bool
  axiRlast : Bool
  axiRvalid : Bool
  axiArvArrFlag : Bool
  axiArlenCntr : BitVec 8
  axiArburst : BitVec 2
  axiArlen : BitVec 8

def readRegs (s : Sha256Full) : ReadRegs :=
  ⟨s.axiAraddr, s.axiArready, s.axiRlast, s.axiRvalid, s.axiArvArrFlag, s.axiArlenCntr,
    s.axiArburst, s.axiArlen⟩

/-- What keeps the five processes aligned. -/
structure ReadRegs.Aligned (r : ReadRegs) : Prop where
  closed : r.axiArvArrFlag = false →
    r.axiArready = false ∧ r.axiRvalid = false ∧ r.axiRlast = false
  opened : r.axiArvArrFlag = true → r.axiArlenCntr.toNat ≤ r.axiArlen.toNat ∧
    r.axiRlast = (r.axiRvalid && r.axiArlenCntr = r.axiArlen)
  fresh : r.axiArready = true → r.axiRvalid = false

theorem ReadRegs.Aligned.of_rvalid {r : ReadRegs} (h : r.Aligned) (hrv : r.axiRvalid = true) :
    r.axiArvArrFlag = true ∧ r.axiArready = false := by
  constructor
  · by_contra hf
    rw [(h.closed (by simpa using hf)).2.1] at hrv
    cases hrv
  · by_contra hr
    rw [h.fresh (by simpa using hr)] at hrv
    cases hrv

/-! ## One clock edge -/

section Edge

variable {i : FullIn idWidth} {s : Sha256Full} (ha : i.aresetn = true) (h : s.readRegs.Aligned)
include ha h

theorem readRegs_accept (hacc : s.arAccept i = true) : (s.posedge i).readRegs =
    { axiAraddr := i.araddr, axiArready := true, axiRlast := false, axiRvalid := false
      axiArvArrFlag := true, axiArlenCntr := 0, axiArburst := i.arburst, axiArlen := i.arlen } := by
  have hlatch : s.arLatch i = true := by
    simp only [arAccept, Bool.and_eq_true] at hacc
    simp [arLatch, hacc.1.1.1, hacc.1.1.2, hacc.2]
  have hflag : s.axiArvArrFlag = false := by
    simp only [arAccept, Bool.and_eq_true, Bool.not_eq_true'] at hacc
    exact hacc.2
  have hrv : s.axiRvalid = false := (h.closed hflag).2.1
  simp [readRegs, posedge, ha, axiAraddrNext, axiArreadyNext, axiRlastNext, axiRvalidNext,
    axiArvArrFlagNext, axiArlenCntrNext, hacc, hlatch, hrv, hflag]

/-- With no burst open the channel rests; the address may be latched all the same. -/
theorem readRegs_rest (hflag : s.axiArvArrFlag = false) (hacc : s.arAccept i = false) :
    (s.posedge i).axiArvArrFlag = false ∧ (s.posedge i).axiArready = false ∧
      (s.posedge i).axiRvalid = false ∧ (s.posedge i).axiRlast = false := by
  obtain ⟨-, hrv, hrl⟩ : _ ∧ s.axiRvalid = false ∧ s.axiRlast = false := h.closed hflag
  simp [posedge, ha, axiArreadyNext, axiRlastNext, axiRvalidNext, axiArvArrFlagNext, arDone,
    hacc, hrv, hrl, hflag]

/-- A beat is put up: RLAST comes with the beat the counter calls the last. -/
theorem readRegs_present (hflag : s.axiArvArrFlag = true) (hrv : s.axiRvalid = false) :
    (s.posedge i).readRegs =
      { s.readRegs with
        axiArready := false, axiRvalid := true, axiRlast := s.axiArlenCntr = s.axiArlen } := by
  have hrl : s.axiRlast = (s.axiRvalid && s.axiArlenCntr = s.axiArlen) := (h.opened hflag).2
  rw [hrv, Bool.false_and] at hrl
  simp [readRegs, posedge, ha, axiAraddrNext, axiArreadyNext, axiRlastNext, axiRvalidNext,
    axiArvArrFlagNext, axiArlenCntrNext, arAccept, arLatch, arBeat, arDone, hrv, hflag, hrl]

theorem readRegs_stall (hrv : s.axiRvalid = true) (hrr : i.rready = false) :
    s.axiArvArrFlag = true ∧ (s.posedge i).readRegs = s.readRegs := by
  obtain ⟨hflag, hready⟩ : s.axiArvArrFlag = true ∧ s.axiArready = false := h.of_rvalid hrv
  have hrl : s.axiRlast = (s.axiRvalid && s.axiArlenCntr = s.axiArlen) := (h.opened hflag).2
  rw [hrv, Bool.true_and] at hrl
  refine ⟨hflag, ?_⟩
  simp [readRegs, posedge, ha, axiAraddrNext, axiArreadyNext, axiRlastNext, axiRvalidNext,
    axiArvArrFlagNext, axiArlenCntrNext, arAccept, arLatch, arBeat, arDone, hrv, hflag, hrl, hrr,
    hready]

/-- A beat is taken; the last one closes the burst. -/
theorem readRegs_beat (hrv : s.axiRvalid = true) (hrr : i.rready = true) :
    s.axiArvArrFlag = true ∧ (s.posedge i).readRegs =
      { s.readRegs with
        axiAraddr := addrNext s.axiArburst s.axiAraddr s.axiArlen
        axiRlast := false
        axiRvalid := false
        axiArvArrFlag := decide (s.axiArlenCntr ≠ s.axiArlen)
        axiArlenCntr := s.axiArlenCntr + 1 } := by
  obtain ⟨hflag, hready⟩ : s.axiArvArrFlag = true ∧ s.axiArready = false := h.of_rvalid hrv
  have hle : s.axiArlenCntr.toNat ≤ s.axiArlen.toNat := (h.opened hflag).1
  refine ⟨hflag, ?_⟩
  by_cases hlast : s.axiArlenCntr = s.axiArlen
  · simp [readRegs, posedge, ha, axiAraddrNext, axiArreadyNext, axiRlastNext, axiRvalidNext,
      axiArvArrFlagNext, axiArlenCntrNext, arAccept, arLatch, arBeat, arDone, hrv, hflag, hrr,
      hready, hlast]
  · simp [readRegs, posedge, ha, axiAraddrNext, axiArreadyNext, axiRlastNext, axiRvalidNext,
      axiArvArrFlagNext, axiArlenCntrNext, arAccept, arLatch, arBeat, arDone, hrv, hflag, hrr,
      hready, hlast, hle]

theorem aligned_posedge : (s.posedge i).readRegs.Aligned := by
  by_cases hacc : s.arAccept i = true
  · rw [readRegs_accept ha h hacc]
    exact ⟨fun hf => Bool.noConfusion hf, fun _ => ⟨Nat.zero_le _, rfl⟩, fun _ => rfl⟩
  rw [Bool.not_eq_true] at hacc
  by_cases hflag : s.axiArvArrFlag = true
  · obtain ⟨hle, hrl⟩ := h.opened hflag
    by_cases hrv : s.axiRvalid = true
    · by_cases hrr : i.rready = true
      · rw [(readRegs_beat ha h hrv hrr).2]
        have hready := (h.of_rvalid hrv).2
        refine ⟨fun _ => ⟨hready, rfl, rfl⟩, fun hne => ⟨?_, rfl⟩, fun _ => rfl⟩
        have hlen := s.axiArlen.isLt
        have hne' : s.axiArlenCntr.toNat ≠ s.axiArlen.toNat := fun he =>
          (of_decide_eq_true hne) (BitVec.eq_of_toNat_eq he)
        change s.axiArlenCntr.toNat ≤ s.axiArlen.toNat at hle
        change (s.axiArlenCntr + 1).toNat ≤ s.axiArlen.toNat
        rw [Sha256.toNat_succ (by omega)]
        omega
      · rw [(readRegs_stall ha h hrv (by simpa using hrr)).2]
        exact h
    · rw [readRegs_present ha h hflag (by simpa using hrv)]
      refine ⟨fun hf => ?_, fun _ => ⟨hle, rfl⟩, fun hc => by cases hc⟩
      change s.axiArvArrFlag = false at hf
      rw [hflag] at hf
      cases hf
  · rw [Bool.not_eq_true] at hflag
    obtain ⟨hf, hready, hrv, hrl⟩ := readRegs_rest ha h hflag hacc
    refine ⟨fun _ => ⟨hready, hrv, hrl⟩, fun hc => ?_, fun _ => hrv⟩
    change (s.posedge i).axiArvArrFlag = true at hc
    rw [hf] at hc
    cases hc

end Edge

/-! ## An open burst -/

/-- `k` beats of the burst are taken and more are to come. -/
structure ReadRegs.Serving (r : ReadRegs) (burst : BitVec 2) (start len : BitVec 8) (k : ℕ) :
    Prop where
  flag : r.axiArvArrFlag = true
  ready : r.axiArready = false
  le : k ≤ len.toNat
  cntr : r.axiArlenCntr.toNat = k
  len_eq : r.axiArlen = len
  burst_eq : r.axiArburst = burst
  addr : AtBeat r.axiAraddr burst start len k

section Burst

variable {i : FullIn idWidth} {s : Sha256Full} {burst : BitVec 2} {start len : BitVec 8} {k : ℕ}
  (ha : i.aresetn = true) (h : s.readRegs.Aligned)
include ha h

theorem Serving.wait (hs : s.readRegs.Serving burst start len k)
    (hno : s.rHandshake i = false) :
    (s.posedge i).readRegs.Serving burst start len k ∧ (s.posedge i).axiRvalid = true := by
  by_cases hrv : s.axiRvalid = true
  · have hrr : i.rready = false := by simpa [rHandshake, hrv] using hno
    have hregs := (readRegs_stall ha h hrv hrr).2
    refine ⟨by rw [hregs]; exact hs, ?_⟩
    exact (congrArg ReadRegs.axiRvalid hregs).trans hrv
  · have hregs := readRegs_present ha h hs.flag (by simpa using hrv)
    refine ⟨?_, congrArg ReadRegs.axiRvalid hregs⟩
    rw [hregs]
    exact ⟨hs.flag, rfl, hs.le, hs.cntr, hs.len_eq, hs.burst_eq, hs.addr⟩

theorem Serving.beat (hs : s.readRegs.Serving burst start len k) (hb : BurstOk burst start len)
    (hk : k < len.toNat) (hbeat : s.rHandshake i = true) :
    (s.posedge i).readRegs.Serving burst start len (k + 1) := by
  obtain ⟨hrv, hrr⟩ : s.axiRvalid = true ∧ i.rready = true := by
    simpa [rHandshake] using hbeat
  have hcntr : s.axiArlenCntr.toNat = k := hs.cntr
  have hlen : s.axiArlen = len := hs.len_eq
  have hlt := len.isLt
  rw [(readRegs_beat ha h hrv hrr).2]
  refine ⟨?_, (h.of_rvalid hrv).2, hk, ?_, hlen, hs.burst_eq, ?_⟩
  · refine decide_eq_true fun he => ?_
    rw [he, hlen] at hcntr
    omega
  · change (s.axiArlenCntr + 1).toNat = k + 1
    rw [Sha256.toNat_succ (by omega), hcntr]
  · change AtBeat (addrNext s.axiArburst s.axiAraddr s.axiArlen) burst start len (k + 1)
    rw [hlen, show s.axiArburst = burst from hs.burst_eq]
    exact hs.addr.succ hb

theorem Serving.last (hs : s.readRegs.Serving burst start len len.toNat)
    (hbeat : s.rHandshake i = true) : (s.posedge i).axiArvArrFlag = false := by
  obtain ⟨hrv, hrr⟩ : s.axiRvalid = true ∧ i.rready = true := by
    simpa [rHandshake] using hbeat
  have hcntr : s.axiArlenCntr = s.axiArlen := by
    apply BitVec.eq_of_toNat_eq
    rw [show s.axiArlen = len from hs.len_eq]
    exact hs.cntr
  refine (congrArg ReadRegs.axiArvArrFlag (readRegs_beat ha h hrv hrr).2).trans ?_
  exact decide_eq_false (not_not_intro hcntr)

end Burst

/-! ## Runs -/

/-- A master that follows the AXI rules on the read address channel. -/
structure ReadMaster (i : ℕ → FullIn idWidth) : Prop where
  aresetn : ∀ n, (i n).aresetn = true
  stable : Clocked.Stable (fun n => (i n).arvalid) (fun n => (run i n).axiArready)
    (fun n => ((i n).arid, (i n).araddr, (i n).arlen, (i n).arburst))
  burst : ∀ n, (i n).arvalid = true → BurstOk (i n).arburst (i n).araddr (i n).arlen

/-- Cycle `n` hands over a read address. -/
def arAt (i : ℕ → FullIn idWidth) (n : ℕ) : Bool := (run i n).arHandshake (i n)

/-- Cycle `n` hands over a beat. -/
def rAt (i : ℕ → FullIn idWidth) (n : ℕ) : Bool := (run i n).rHandshake (i n)

/-- The register at an address, as cycle `n` sees it. -/
def register (i : ℕ → FullIn idWidth) (n : ℕ) (addr : BitVec 8) : Word :=
  readMux (regIndex addr) (run i n).slvReg0 ((run i n).core (i n)).hash

/-- In cycle `n` the burst accepted in cycle `t` is being served, or all of it has been. -/
def Served (i : ℕ → FullIn idWidth) (t n : ℕ) : Prop :=
  (run i n).readRegs.Serving (i t).arburst (i t).araddr (i t).arlen
      (Clocked.countFrom (rAt i) t n) ∨
    (Clocked.countFrom (rAt i) t n = (i t).arlen.toNat + 1 ∧ (run i n).axiRvalid = false ∧
      ((run i n).axiArvArrFlag = true → (run i n).axiArready = true))

section Runs

variable {i : ℕ → FullIn idWidth}

theorem run_aligned (ha : ∀ n, (i n).aresetn = true) (n : ℕ) : (run i n).readRegs.Aligned := by
  induction n with
  | zero =>
    exact ⟨fun _ => ⟨rfl, rfl, rfl⟩, fun hf => Bool.noConfusion hf, fun hf => Bool.noConfusion hf⟩
  | succ n ih => exact aligned_posedge (ha n) ih

/-- ARREADY answers the address latched in the cycle before. -/
theorem arAccept_of_arready (ha : ∀ n, (i n).aresetn = true) {n : ℕ}
    (h : (run i (n + 1)).axiArready = true) : (run i n).arAccept (i n) = true := by
  have hal := run_aligned ha n
  rw [run_succ] at h
  simp only [posedge, ha n, axiArreadyNext] at h
  by_contra hacc
  simp only [Bool.not_true, Bool.false_eq_true, if_false, hacc] at h
  split at h
  next hdone =>
    -- the last beat of a burst leaves ARREADY low
    simp only [arDone, Bool.and_eq_true] at hdone
    have hready : (run i n).axiArready = false := (hal.of_rvalid hdone.1.1).2
    rw [hready] at h
    cases h
  next => cases h

theorem ReadMaster.arAt_of_arready (h : ReadMaster i) {n : ℕ} (hr : (run i n).axiArready = true) :
    arAt i n = true ∧ (run i n).readRegs =
      { axiAraddr := (i n).araddr, axiArready := true, axiRlast := false, axiRvalid := false
        axiArvArrFlag := true, axiArlenCntr := 0, axiArburst := (i n).arburst
        axiArlen := (i n).arlen } := by
  rcases n with _ | n
  · cases hr
  have hacc := arAccept_of_arready h.aresetn hr
  have hnow := hacc
  simp only [arAccept, Bool.and_eq_true, Bool.not_eq_true'] at hnow
  obtain ⟨hvalid, hsame⟩ : (i (n + 1)).arvalid = true ∧ _ := h.stable n hnow.1.1.2 hnow.1.1.1
  simp only [Prod.mk.injEq] at hsame
  obtain ⟨-, haddr, hlen, hburst⟩ := hsame
  refine ⟨by rw [arAt, arHandshake, hvalid, hr]; rfl, ?_⟩
  rw [haddr, hlen, hburst, run_succ]
  exact readRegs_accept (h.aresetn n) (run_aligned h.aresetn n) hacc

theorem ReadMaster.served_next (h : ReadMaster i) {t : ℕ} (ht : arAt i t = true) :
    Served i t (t + 1) := by
  obtain ⟨hvalid, hready⟩ : (i t).arvalid = true ∧ (run i t).axiArready = true := by
    simpa [arAt, arHandshake] using ht
  have hregs := (h.arAt_of_arready hready).2
  have hrv : (run i t).axiRvalid = false := congrArg ReadRegs.axiRvalid hregs
  have hflag : (run i t).axiArvArrFlag = true := congrArg ReadRegs.axiArvArrFlag hregs
  have hr : rAt i t = false := by rw [rAt, rHandshake, hrv]; rfl
  left
  rw [Clocked.countFrom_succ _ (le_refl t), hr, Clocked.countFrom_self, run_succ,
    readRegs_present (h.aresetn t) (run_aligned h.aresetn t) hflag hrv, hregs]
  exact ⟨rfl, rfl, Nat.zero_le _, rfl, rfl, rfl, atBeat_zero (h.burst t hvalid)⟩

theorem Served.succ (h : ReadMaster i) {t n : ℕ} (hle : t ≤ n) (har : arAt i n = false)
    (hb : BurstOk (i t).arburst (i t).araddr (i t).arlen) (hs : Served i t n) :
    Served i t (n + 1) := by
  have hal := run_aligned h.aresetn
  rcases hs with hs | ⟨hk, hrv, hopen⟩
  · by_cases hr : rAt i n = true
    · rcases Nat.lt_or_eq_of_le hs.le with hlt | heq
      · left
        rw [Clocked.countFrom_succ _ hle, if_pos hr, run_succ]
        exact Serving.beat (h.aresetn n) (hal n) hs hb hlt hr
      · right
        have hflag := Serving.last (h.aresetn n) (hal n) (heq ▸ hs) hr
        rw [← run_succ] at hflag
        obtain ⟨-, hrv, -⟩ := (hal (n + 1)).closed hflag
        rw [Clocked.countFrom_succ _ hle, if_pos hr, heq]
        exact ⟨rfl, hrv, fun hf => by simp [hflag] at hf⟩
    · left
      rw [Clocked.countFrom_succ _ hle, if_neg hr, run_succ]
      exact (Serving.wait (h.aresetn n) (hal n) hs (Bool.eq_false_of_not_eq_true hr)).1
  · -- the channel rests until the next address is latched
    right
    have hr : rAt i n = false := by rw [rAt, rHandshake, hrv]; rfl
    have hready : (run i n).axiArready = false := by
      by_contra hready
      rw [(h.arAt_of_arready (by simpa using hready)).1] at har
      cases har
    have hflag : (run i n).axiArvArrFlag = false := by
      by_contra hflag
      rw [hopen (by simpa using hflag)] at hready
      cases hready
    rw [Clocked.countFrom_succ _ hle, hr]
    by_cases hacc : (run i n).arAccept (i n) = true
    · have hregs := readRegs_accept (h.aresetn n) (hal n) hacc
      exact ⟨hk, congrArg ReadRegs.axiRvalid hregs, fun _ => congrArg ReadRegs.axiArready hregs⟩
    · obtain ⟨hf, -, hrv, -⟩ := readRegs_rest (h.aresetn n) (hal n) hflag (by simpa using hacc)
      rw [← run_succ] at hf hrv
      exact ⟨hk, hrv, fun hc => by simp [hf] at hc⟩

/-- From one AR handshake up to the next: the burst is served, or all of it has been. -/
theorem ReadMaster.served (h : ReadMaster i) {t n : ℕ} (ht : arAt i t = true)
    (hn : Clocked.QuietSince (arAt i) t n) : Served i t n := by
  have hvalid : (i t).arvalid = true := by
    rw [arAt, arHandshake, Bool.and_eq_true] at ht
    exact ht.1
  refine Clocked.QuietSince.induct (h.served_next ht) (fun n hq har hs => ?_) hn
  exact hs.succ h hq.1.le har (h.burst t hvalid)

theorem not_arAt_of_rvalid (ha : ∀ n, (i n).aresetn = true) {n : ℕ}
    (hrv : (run i n).axiRvalid = true) : arAt i n = false := by
  have hready : (run i n).axiArready = false := ((run_aligned ha n).of_rvalid hrv).2
  rw [arAt, arHandshake, hready, Bool.and_false]

/-- Beats are put up inside a burst only. -/
theorem exists_arAt (h : ReadMaster i) {n : ℕ} (hflag : (run i n).axiArvArrFlag = true)
    (hready : (run i n).axiArready = false) : ∃ t < n, arAt i t = true := by
  refine Clocked.exists_rise (u := fun n => (run i n).axiArvArrFlag && !(run i n).axiArready)
    rfl (fun n hup => ?_) (by simp [hflag, hready])
  simp only [Bool.and_eq_true, Bool.not_eq_true'] at hup ⊢
  have hal := run_aligned h.aresetn n
  by_cases hr : (run i n).axiArready = true
  · exact Or.inr (h.arAt_of_arready hr).1
  have hacc : (run i n).arAccept (i n) = false := by
    by_contra hacc
    have hregs := readRegs_accept (h.aresetn n) hal (by simpa using hacc)
    rw [run_succ, show ((run i n).posedge (i n)).axiArready = true from
      congrArg ReadRegs.axiArready hregs] at hup
    cases hup.2
  left
  refine ⟨?_, by simpa using hr⟩
  by_contra hf
  rw [run_succ, (readRegs_rest (h.aresetn n) hal (by simpa using hf) hacc).1] at hup
  cases hup.1

/-- The transaction whose beat is on the read channel. -/
theorem beat_owner (h : ReadMaster i) {n : ℕ}
    (hrv : (run i n).axiRvalid = true) :
    ∃ t, arAt i t = true ∧ Clocked.QuietSince (arAt i) t n := by
  obtain ⟨hflag, hready⟩ := (run_aligned h.aresetn n).of_rvalid hrv
  exact Clocked.exists_quietSince (exists_arAt h hflag hready)

/-- A beat carries what its register held in the cycle before. -/
theorem axiRdata_eq (ha : ∀ n, (i n).aresetn = true) {n : ℕ}
    (hrv : (run i (n + 1)).axiRvalid = true) :
    (run i (n + 1)).axiRdata = register i n (run i (n + 1)).axiAraddr := by
  have hal := run_aligned ha n
  obtain ⟨hflag, haddr⟩ : (run i n).axiArvArrFlag = true ∧
      (run i (n + 1)).axiAraddr = (run i n).axiAraddr := by
    rw [run_succ] at hrv ⊢
    by_cases hv : (run i n).axiRvalid = true
    · by_cases hr : (i n).rready = true
      · have hregs := (readRegs_beat (ha n) hal hv hr).2
        have hdown : ((run i n).posedge (i n)).axiRvalid = false := congrArg ReadRegs.axiRvalid hregs
        rw [hdown] at hrv
        cases hrv
      · obtain ⟨hflag, hregs⟩ := readRegs_stall (ha n) hal hv (by simpa using hr)
        exact ⟨hflag, congrArg ReadRegs.axiAraddr hregs⟩
    · by_cases hacc : (run i n).arAccept (i n) = true
      · have hregs := readRegs_accept (ha n) hal hacc
        have hdown : ((run i n).posedge (i n)).axiRvalid = false := congrArg ReadRegs.axiRvalid hregs
        rw [hdown] at hrv
        cases hrv
      · by_cases hflag : (run i n).axiArvArrFlag = true
        · have hregs := readRegs_present (ha n) hal hflag (by simpa using hv)
          exact ⟨hflag, congrArg ReadRegs.axiAraddr hregs⟩
        · have hrest := readRegs_rest (ha n) hal (by simpa using hflag) (by simpa using hacc)
          rw [hrest.2.2.1] at hrv
          cases hrv
  rw [axiRdata, if_pos hrv, haddr, run_succ]
  simp [posedge, ha n, regDataOutNext, regReadEn, hflag, register]

/-- With RVALID high, the next RREADY takes the beat. -/
theorem next_beat (ha : ∀ n, (i n).aresetn = true) {t d n : ℕ}
    (hq : Clocked.QuietSince (arAt i) t n) (hrv : (run i n).axiRvalid = true)
    (hr : (i (n + d)).rready = true) :
    ∃ m, Clocked.QuietSince (arAt i) t m ∧
      Clocked.countFrom (rAt i) t m = Clocked.countFrom (rAt i) t n + 1 := by
  induction d generalizing n with
  | zero =>
    have hbeat : rAt i n = true := by
      rw [rAt, rHandshake, hrv, Bool.true_and]
      exact hr
    refine ⟨n + 1, (Clocked.quietSince_succ hq.1).2 ⟨hq, not_arAt_of_rvalid ha hrv⟩, ?_⟩
    rw [Clocked.countFrom_succ _ hq.1.le, if_pos hbeat]
  | succ d ih =>
    have hq' := (Clocked.quietSince_succ hq.1).2 ⟨hq, not_arAt_of_rvalid ha hrv⟩
    by_cases hnow : (i n).rready = true
    · refine ⟨n + 1, hq', ?_⟩
      rw [Clocked.countFrom_succ _ hq.1.le, rAt, rHandshake, hrv, hnow]
      rfl
    · have hregs := (readRegs_stall (ha n) (run_aligned ha n) hrv (by simpa using hnow)).2
      have hrv' : (run i (n + 1)).axiRvalid = true := (congrArg ReadRegs.axiRvalid hregs).trans hrv
      have hno : rAt i n = false := by
        rw [rAt, rHandshake, Bool.eq_false_of_not_eq_true hnow, Bool.and_false]
      obtain ⟨m, hm, hk⟩ := ih hq' hrv' (by rwa [← Nat.add_assoc, Nat.add_right_comm] at hr)
      refine ⟨m, hm, ?_⟩
      rw [hk, Clocked.countFrom_succ _ hq.1.le, hno]
      rfl

/-- A master that keeps raising RREADY gets every beat of its burst. -/
theorem ReadMaster.all_beats (h : ReadMaster i) (hr : ∀ m, ∃ n, m ≤ n ∧ (i n).rready = true)
    {t : ℕ} (ht : arAt i t = true) {k : ℕ} (hk : k ≤ (i t).arlen.toNat + 1) :
    ∃ n, Clocked.QuietSince (arAt i) t n ∧ Clocked.countFrom (rAt i) t n = k := by
  induction k with
  | zero =>
    refine ⟨t + 1, Clocked.QuietSince.next _ t, ?_⟩
    have hrv : (run i t).axiRvalid = false := by
      by_contra hrv
      rw [not_arAt_of_rvalid h.aresetn (by simpa using hrv)] at ht
      cases ht
    rw [Clocked.countFrom_succ _ (le_refl t), Clocked.countFrom_self, rAt, rHandshake, hrv]
    rfl
  | succ k ih =>
    obtain ⟨n, hq, rfl⟩ := ih (by omega)
    rcases h.served ht hq with hs | ⟨hall, -, -⟩
    · have har : arAt i n = false := by
        rw [arAt, arHandshake, show (run i n).axiArready = false from hs.ready, Bool.and_false]
      have hq' := (Clocked.quietSince_succ hq.1).2 ⟨hq, har⟩
      by_cases hbeat : rAt i n = true
      · exact ⟨n + 1, hq', by rw [Clocked.countFrom_succ _ hq.1.le, if_pos hbeat]⟩
      · -- the beat is up one cycle later at the latest
        have hrv := (Serving.wait (h.aresetn n) (run_aligned h.aresetn n) hs
          (Bool.eq_false_of_not_eq_true hbeat)).2
        rw [← run_succ] at hrv
        obtain ⟨m, hm, hready⟩ := hr (n + 1)
        obtain ⟨d, rfl⟩ := Nat.exists_eq_add_of_le hm
        obtain ⟨m, hm, hcount⟩ := next_beat h.aresetn hq' hrv hready
        refine ⟨m, hm, ?_⟩
        rw [hcount, Clocked.countFrom_succ _ hq.1.le, if_neg hbeat]
    · omega

/-- Read bursts. An AR handshake is followed by exactly ARLEN + 1 beats before the
next one, and by all of them if the master keeps raising RREADY; RLAST marks the last
beat and no other; a beat carries the word the burst rule names, as of the cycle
before; and RVALID is never high elsewhere. -/
theorem read_bursts (h : ReadMaster i) :
    (∀ t n, arAt i t = true → Clocked.QuietSince (arAt i) t n →
      Clocked.countFrom (rAt i) t n ≤ (i t).arlen.toNat + 1 ∧
      (arAt i n = true → Clocked.countFrom (rAt i) t n = (i t).arlen.toNat + 1) ∧
      ((run i n).axiRvalid = true →
        Clocked.countFrom (rAt i) t n ≤ (i t).arlen.toNat ∧
        ((run i n).axiRlast = true ↔ Clocked.countFrom (rAt i) t n = (i t).arlen.toNat) ∧
        (run i n).axiRdata = register i (n - 1)
          (beatAddr (i t).arburst (i t).araddr (i t).arlen (Clocked.countFrom (rAt i) t n)))) ∧
    (∀ t, arAt i t = true → (∀ m, ∃ n, m ≤ n ∧ (i n).rready = true) →
      ∃ n, Clocked.QuietSince (arAt i) t n ∧
        Clocked.countFrom (rAt i) t n = (i t).arlen.toNat + 1) ∧
    (∀ n, (run i n).axiRvalid = true →
      ∃ t, arAt i t = true ∧ Clocked.QuietSince (arAt i) t n) := by
  have hal := run_aligned h.aresetn
  refine ⟨fun t n ht hq => ?_, fun t ht hr => h.all_beats hr ht (le_refl _),
    fun n hrv => beat_owner h hrv⟩
  rcases h.served ht hq with hs | ⟨hall, hdown, -⟩
  · have hnot : arAt i n = false := by
      rw [arAt, arHandshake, show (run i n).axiArready = false from hs.ready, Bool.and_false]
    refine ⟨hs.le.trans (Nat.le_succ _), fun har => ?_, fun hrv => ⟨hs.le, ?_, ?_⟩⟩
    · rw [hnot] at har
      cases har
    · have hrl : (run i n).axiRlast =
          ((run i n).axiRvalid && (run i n).axiArlenCntr = (run i n).axiArlen) :=
        ((hal n).opened hs.flag).2
      rw [hrl, hrv, Bool.true_and, decide_eq_true_iff, ← BitVec.toNat_inj,
        show (run i n).axiArlen = (i t).arlen from hs.len_eq,
        show (run i n).axiArlenCntr.toNat = _ from hs.cntr]
    · obtain ⟨n, rfl⟩ := Nat.exists_eq_add_of_le' (Nat.zero_lt_of_lt hq.1)
      have hidx : regIndex (run i (n + 1)).axiAraddr = _ := hs.addr.regIndex_eq
      rw [axiRdata_eq h.aresetn hrv, register, hidx]
      rfl
  · refine ⟨hall.le, fun _ => hall, fun hrv => ?_⟩
    rw [hdown] at hrv
    cases hrv

end Runs

/-- A master that reads the first two hash words in a wrapping burst from the second. -/
def wrapReader (n : ℕ) : FullIn 1 where
  aresetn := true
  awid := 0
  awaddr := 0
  awlen := 0
  awburst := 1
  awvalid := false
  wdata := 0
  wstrb := 0
  wlast := false
  wvalid := false
  bready := false
  arid := 1
  araddr := 0x24
  arlen := 1
  arburst := 2
  arvalid := decide (n < 2)
  rready := true

theorem wrapReader_readMaster : ReadMaster wrapReader where
  aresetn _ := rfl
  stable := Clocked.Stable.of_two rfl rfl (by decide +kernel) fun n hn => decide_eq_false (by omega)
  burst _ _ := by
    change BurstOk 2 0x24 1
    decide

/-- The second beat comes in cycle 4, with RLAST and the word before the first one. -/
theorem read_bursts_wrapReader : (run wrapReader 4).axiRlast = true ∧
    (run wrapReader 4).axiRdata = register wrapReader 3 0x20 := by
  have hq : Clocked.QuietSince (arAt wrapReader) 1 4 := by
    refine ⟨by decide, fun m h1 h2 => ?_⟩
    interval_cases m <;> decide +kernel
  have hcount : Clocked.countFrom (rAt wrapReader) 1 4 = 1 := by decide +kernel
  obtain ⟨-, -, hbeat⟩ := (read_bursts wrapReader_readMaster).1 1 4 (by decide +kernel) hq
  obtain ⟨-, hlast, hdata⟩ := hbeat (by decide +kernel)
  rw [hcount] at hlast hdata
  exact ⟨hlast.2 (by decide), hdata⟩

end ZynqSha256.Sha256Full
