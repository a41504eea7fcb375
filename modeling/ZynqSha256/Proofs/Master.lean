import ZynqSha256.Proofs.AxiData
import ZynqSha256.Proofs.Reads

/-! A master that runs one transaction at a time on the AXI4-Lite slave: it
resets the core through slv_reg0 once, then over and over writes sixteen words and
reads slv_reg0 until bit 8 is low. It may read anything in between, and every delay
is its own. -/

namespace ZynqSha256

/-- What the master writes next. -/
inductive Stage where
  | resetting
  | loading (k : ℕ)
  | polling
deriving DecidableEq

/-- The transaction in flight: which of its channels have been accepted. -/
inductive Txn where
  | none
  | write (aw w : Bool)
  | read (ar : Bool) (addr : BitVec 8)
deriving DecidableEq

structure Master where
  stage : Stage
  txn : Txn
deriving DecidableEq

namespace Stage

/-- The B response of a write has been taken. -/
def afterWrite : Stage → Stage
  | .resetting => .loading 0
  | .loading k => if k = 15 then .polling else .loading (k + 1)
  | .polling => .polling

/-- The R response of a read has been taken: a poll that shows bit 8 low ends the polling. -/
def afterRead (addr : BitVec 8) (rdata : Fips180.Word) : Stage → Stage
  | .polling => if regIndex addr = 0 ∧ rdata.getLsbD 8 = false then .loading 0 else .polling
  | stage => stage

/-- The writes the program has at this stage. -/
def Writes (i : AxiLiteIn 8) : Stage → Prop
  | .resetting => (i.awvalid = true → regIndex i.awaddr = 0) ∧
      (i.wvalid = true → i.wdata.getLsbD 0 = true ∧ i.wstrb.getLsbD 0 = true)
  | .loading _ => i.awvalid = true → i.awaddr.extractLsb 7 6 = 1
  | .polling => i.awvalid = false ∧ i.wvalid = false

end Stage

/-- No channel is offered but those the transaction in flight still waits for. -/
def Txn.Offers (i : AxiLiteIn 8) : Txn → Prop
  | .none => i.arvalid = true → i.awvalid = false ∧ i.wvalid = false
  | .write aw w => i.arvalid = false ∧ (aw = true → i.awvalid = false) ∧ (w = true → i.wvalid = false)
  | .read ar _ => i.awvalid = false ∧ i.wvalid = false ∧ (ar = true → i.arvalid = false)

namespace Master

def start : Master := ⟨.resetting, .none⟩

/-- What the master may drive in this cycle. -/
structure Allows (m : Master) (i : AxiLiteIn 8) : Prop where
  offers : m.txn.Offers i
  writes : m.stage.Writes i

/-- The master after a cycle, from the handshakes it saw. -/
def next (i : AxiLiteIn 8) (s : AxiLite 8) (m : Master) : Master :=
  match m.txn with
  | .none =>
    if i.awvalid || i.wvalid then ⟨m.stage, .write (s.awHandshake i) (s.wHandshake i)⟩
    else if i.arvalid then ⟨m.stage, .read (s.arHandshake i) i.araddr⟩
    else m
  | .write aw w =>
    if s.bHandshake i then ⟨m.stage.afterWrite, .none⟩
    else ⟨m.stage, .write (aw || s.awHandshake i) (w || s.wHandshake i)⟩
  | .read ar addr =>
    if s.rHandshake i then ⟨m.stage.afterRead addr s.axiRdata, .none⟩
    else ⟨m.stage, .read (ar || s.arHandshake i) addr⟩

end Master

namespace Sha256Axi

/-- The master at the start of cycle `n`. -/
def masterRun (i : ℕ → AxiLiteIn 8) : ℕ → Master
  | 0 => Master.start
  | n + 1 => (masterRun i n).next (i n) (busRun i n)

/-- An AXI-legal sequential master that follows the polling program. -/
structure PollingMaster (i : ℕ → AxiLiteIn 8) : Prop where
  aresetn : ∀ n, (i n).aresetn = true
  writes : AxiLite.WriteMaster i (busRun i)
  reads : AxiLite.ReadMaster i (busRun i)
  follows : ∀ n, (masterRun i n).Allows (i n)

/-- The flags of the slave say which transaction is in flight and how far it is. -/
def Flags (i : AxiLiteIn 8) (s : AxiLite 8) : Txn → Prop
  | .none => s.axiAwready = false ∧ s.axiBvalid = false ∧ s.axiArready = false ∧
      s.axiRvalid = false
  | .write aw w => aw = s.axiBvalid ∧ w = s.axiBvalid ∧ s.axiArready = false ∧
      s.axiRvalid = false
  | .read ar addr => s.axiAwready = false ∧ s.axiBvalid = false ∧ ar = s.axiRvalid ∧
      (ar = true → s.axiArready = false) ∧ (ar = false → i.arvalid = true ∧ i.araddr = addr)

section Runs

variable {i : ℕ → AxiLiteIn 8}

theorem PollingMaster.inv (h : PollingMaster i) (n : ℕ) : AxiLite.WriteInv (i n) (busRun i n) :=
  AxiLite.WriteInv.of_runs (bus_runs i) h.aresetn h.writes n

theorem PollingMaster.offers (h : PollingMaster i) {n : ℕ} {stage : Stage} {txn : Txn}
    (hm : masterRun i n = ⟨stage, txn⟩) : txn.Offers (i n) := by
  have hoff := (h.follows n).offers
  rwa [hm] at hoff

theorem awready_succ (h : PollingMaster i) (n : ℕ) :
    (busRun i (n + 1)).axiAwready = (busRun i n).awAccept (i n) := by
  rw [(bus_runs i).succ, AxiLite.posedge_axiAwready (h.aresetn n)]

theorem bvalid_succ (h : PollingMaster i) (n : ℕ) : (busRun i (n + 1)).axiBvalid =
    ((busRun i n).axiAwready || (busRun i n).axiBvalid && !(i n).bready) := by
  rw [(bus_runs i).succ, (h.inv n).axiBvalid_next (h.aresetn n)]

theorem arready_succ (h : PollingMaster i) (n : ℕ) :
    (busRun i (n + 1)).axiArready = (!(busRun i n).axiArready && (i n).arvalid) := by
  rw [(bus_runs i).succ, AxiLite.posedge_axiArready (h.aresetn n)]

theorem rvalid_succ (h : PollingMaster i) (n : ℕ) : (busRun i (n + 1)).axiRvalid =
    ((busRun i n).arHandshake (i n) && !(busRun i n).axiRvalid ||
      (busRun i n).axiRvalid && !(i n).rready) := by
  rw [(bus_runs i).succ, AxiLite.posedge_axiRvalid (h.aresetn n)]

/-- A channel that is not offered is not accepted. -/
theorem awready_succ_of_low (h : PollingMaster i) {n : ℕ} (hv : (i n).awvalid = false) :
    (busRun i (n + 1)).axiAwready = false := by
  rw [awready_succ h, AxiLite.awAccept, hv, Bool.and_false]
  rfl

theorem arready_succ_of_low (h : PollingMaster i) {n : ℕ} (hv : (i n).arvalid = false) :
    (busRun i (n + 1)).axiArready = false := by
  rw [arready_succ h, hv, Bool.and_false]

theorem masterRun_succ {n : ℕ} {m : Master} (hm : masterRun i n = m) :
    masterRun i (n + 1) = Master.next (i n) (busRun i n) m := by
  rw [← hm]
  rfl

/-- A response that is not taken stays, and a strobe raises one. -/
theorem bvalid_succ_of_waits (h : PollingMaster i) {n : ℕ}
    (hwait : ¬(busRun i n).bHandshake (i n) = true) :
    (busRun i (n + 1)).axiBvalid = ((busRun i n).axiAwready || (busRun i n).axiBvalid) := by
  rw [bvalid_succ h]
  rw [AxiLite.bHandshake] at hwait
  cases hb : (busRun i n).axiBvalid with
  | false => rfl
  | true =>
    rw [hb, Bool.true_and, Bool.not_eq_true] at hwait
    rw [hwait]
    rfl

theorem rvalid_succ_of_waits (h : PollingMaster i) {n : ℕ}
    (hwait : ¬(busRun i n).rHandshake (i n) = true) :
    (busRun i (n + 1)).axiRvalid = ((busRun i n).axiRvalid || (busRun i n).arHandshake (i n)) := by
  rw [rvalid_succ h]
  rw [AxiLite.rHandshake] at hwait
  cases hv : (busRun i n).axiRvalid with
  | false => simp
  | true =>
    rw [hv, Bool.true_and, Bool.not_eq_true] at hwait
    rw [hwait]
    simp

theorem flags_of_none (h : PollingMaster i) {n : ℕ} {stage : Stage}
    (hm : masterRun i n = ⟨stage, .none⟩) (hf : Flags (i n) (busRun i n) .none) :
    Flags (i (n + 1)) (busRun i (n + 1)) (masterRun i (n + 1)).txn := by
  obtain ⟨haw, hb, har, hr⟩ := hf
  have hoff := h.offers hm
  have hawhs : (busRun i n).awHandshake (i n) = false := by rw [(h.inv n).awHandshake_eq, haw]
  have hwhs : (busRun i n).wHandshake (i n) = false := by rw [(h.inv n).wHandshake_eq, haw]
  have harhs : (busRun i n).arHandshake (i n) = false := by
    rw [AxiLite.arHandshake, har, Bool.and_false]
  have hbn : (busRun i (n + 1)).axiBvalid = false := by rw [bvalid_succ h, haw, hb]; rfl
  have hrn : (busRun i (n + 1)).axiRvalid = false := by rw [rvalid_succ h, harhs, hr]; rfl
  rw [masterRun_succ hm, Master.next]
  dsimp only
  split_ifs with h1 h2
  · -- a write is offered: nothing is ready for it yet
    have har0 : (i n).arvalid = false := by
      by_contra hc
      rw [Bool.not_eq_false] at hc
      rw [(hoff hc).1, (hoff hc).2] at h1
      cases h1
    exact ⟨hawhs.trans hbn.symm, hwhs.trans hbn.symm, arready_succ_of_low h har0, hrn⟩
  · -- a read is offered
    refine ⟨awready_succ_of_low h (hoff h2).1, hbn, harhs.trans hrn.symm, fun hc => ?_, fun _ => ?_⟩
    · rw [harhs] at hc
      cases hc
    · exact h.reads n h2 har
  · have h1' : (i n).awvalid = false := by
      cases hv : (i n).awvalid with
      | false => rfl
      | true => rw [hv] at h1; exact absurd rfl h1
    exact ⟨awready_succ_of_low h h1', hbn, arready_succ_of_low h (by simpa using h2), hrn⟩

theorem flags_of_write (h : PollingMaster i) {n : ℕ} {stage : Stage} {aw w : Bool}
    (hm : masterRun i n = ⟨stage, .write aw w⟩) (hf : Flags (i n) (busRun i n) (.write aw w)) :
    Flags (i (n + 1)) (busRun i (n + 1)) (masterRun i (n + 1)).txn := by
  obtain ⟨haw, hw, har, hr⟩ := hf
  have hinv := h.inv n
  have harn := arready_succ_of_low h (h.offers hm).1
  have hrn : (busRun i (n + 1)).axiRvalid = false := by
    rw [rvalid_succ h, hr, AxiLite.arHandshake, har]
    simp
  rw [masterRun_succ hm, Master.next]
  dsimp only
  split_ifs with h1
  · -- the response is taken
    rw [AxiLite.bHandshake, Bool.and_eq_true] at h1
    obtain ⟨hen, hready⟩ := hinv.pending h1.1
    refine ⟨?_, ?_, harn, hrn⟩
    · rw [awready_succ h, AxiLite.awAccept, hen, Bool.and_false]
    · rw [bvalid_succ h, hready, h1.2]
      simp
  · have hbn := bvalid_succ_of_waits h h1
    rw [Bool.or_comm] at hbn
    refine ⟨?_, ?_, harn, hrn⟩
    · rw [hbn, haw, hinv.awHandshake_eq]
    · rw [hbn, hw, hinv.wHandshake_eq]

theorem flags_of_read (h : PollingMaster i) {n : ℕ} {stage : Stage} {ar : Bool} {addr : BitVec 8}
    (hm : masterRun i n = ⟨stage, .read ar addr⟩) (hf : Flags (i n) (busRun i n) (.read ar addr)) :
    Flags (i (n + 1)) (busRun i (n + 1)) (masterRun i (n + 1)).txn := by
  obtain ⟨haw, hb, har, hdone, hopen⟩ := hf
  have hoff := h.offers hm
  have hawn := awready_succ_of_low h hoff.1
  have hbn : (busRun i (n + 1)).axiBvalid = false := by rw [bvalid_succ h, haw, hb]; rfl
  rw [masterRun_succ hm, Master.next]
  dsimp only
  split_ifs with h1
  · -- the response is taken
    rw [AxiLite.rHandshake, Bool.and_eq_true] at h1
    refine ⟨hawn, hbn, arready_succ_of_low h (hoff.2.2 (har.trans h1.1)), ?_⟩
    rw [rvalid_succ h, h1.1, h1.2]
    simp
  · refine ⟨hawn, hbn, ?_, fun hc => ?_, fun hc => ?_⟩
    · rw [rvalid_succ_of_waits h h1, har]
    · rw [Bool.or_eq_true] at hc
      rcases hc with hc | hc
      · exact arready_succ_of_low h (hoff.2.2 hc)
      · rw [AxiLite.arHandshake, Bool.and_eq_true] at hc
        rw [arready_succ h, hc.2]
        rfl
    · rw [Bool.or_eq_false_iff] at hc
      obtain ⟨hvalid, haddr⟩ := hopen hc.1
      have hready : (busRun i n).axiArready = false := by
        rw [AxiLite.arHandshake, hvalid, Bool.true_and] at hc
        exact hc.2
      obtain ⟨h2, h3⟩ := h.reads n hvalid hready
      exact ⟨h2, h3.trans haddr⟩

theorem flags_run (h : PollingMaster i) (n : ℕ) :
    Flags (i n) (busRun i n) (masterRun i n).txn := by
  induction n with
  | zero => exact ⟨rfl, rfl, rfl, rfl⟩
  | succ n ih =>
    cases hm : masterRun i n with
    | mk stage txn =>
      rw [hm] at ih
      cases txn with
      | none => exact flags_of_none h hm ih
      | write aw w => exact flags_of_write h hm ih
      | read ar addr => exact flags_of_read h hm ih

/-- Everything cycle `n` can do to the master: it takes the response of a write, or of
a read, or its stage stays and the flags move on. -/
inductive MasterStep (i : ℕ → AxiLiteIn 8) (n : ℕ) : Prop
  | wrote (stage : Stage) (before : masterRun i n = ⟨stage, .write true true⟩)
      (after : masterRun i (n + 1) = ⟨stage.afterWrite, .none⟩)
      (ready : (busRun i n).axiAwready = false) (bvalid : (busRun i n).axiBvalid = true)
      (done : (busRun i (n + 1)).axiBvalid = false)
  | didRead (stage : Stage) (addr : BitVec 8)
      (before : masterRun i n = ⟨stage, .read true addr⟩)
      (after : masterRun i (n + 1) = ⟨stage.afterRead addr (busRun i n).axiRdata, .none⟩)
      (ready : (busRun i n).axiAwready = false) (bvalid : (busRun i n).axiBvalid = false)
      (done : (busRun i (n + 1)).axiBvalid = false)
  | moved (stage : (masterRun i (n + 1)).stage = (masterRun i n).stage)
      (bvalid : (busRun i (n + 1)).axiBvalid =
        ((busRun i n).axiAwready || (busRun i n).axiBvalid))
      (strobe : (busRun i n).axiAwready = true → (masterRun i (n + 1)).txn = .write true true)
      (answer : ∀ addr, (masterRun i (n + 1)).txn = .read true addr →
        (busRun i n).axiAwready = false ∧ (busRun i n).axiBvalid = false ∧
        ((masterRun i n).txn = .read true addr ∧
            (busRun i (n + 1)).axiRdata = (busRun i n).axiRdata ∨
          (busRun i (n + 1)).axiRdata =
            readMux (regIndex addr) (busRun i n).slvReg0 ((run i n).core (i n)).hash))

theorem masterStep_of_none (h : PollingMaster i) {n : ℕ} {stage : Stage}
    (hm : masterRun i n = ⟨stage, .none⟩) (hf : Flags (i n) (busRun i n) .none) :
    MasterStep i n := by
  obtain ⟨haw, hb, har, -⟩ := hf
  have harhs : (busRun i n).arHandshake (i n) = false := by
    rw [AxiLite.arHandshake, har, Bool.and_false]
  refine .moved ?_ ?_ ?_ fun addr hc => ?_
  · rw [masterRun_succ hm, hm, Master.next]
    dsimp only
    split_ifs <;> rfl
  · rw [bvalid_succ h, haw, hb]
    rfl
  · rw [haw]
    intro h0
    cases h0
  · rw [masterRun_succ hm, Master.next, harhs] at hc
    dsimp only at hc
    split_ifs at hc
    cases hc

theorem masterStep_of_write (h : PollingMaster i) {n : ℕ} {stage : Stage} {aw w : Bool}
    (hm : masterRun i n = ⟨stage, .write aw w⟩) (hf : Flags (i n) (busRun i n) (.write aw w)) :
    MasterStep i n := by
  obtain ⟨haw, hw, -⟩ := hf
  have hinv := h.inv n
  have hnext := masterRun_succ hm
  by_cases h1 : (busRun i n).bHandshake (i n) = true
  · -- the response is taken
    have h2 := h1
    rw [AxiLite.bHandshake, Bool.and_eq_true] at h2
    have hr := (hinv.pending h2.1).2
    refine .wrote stage ?_ ?_ hr h2.1 ?_
    · rw [hm, haw, hw, h2.1]
    · rw [hnext, Master.next]
      exact if_pos h1
    · rw [bvalid_succ h, hr, h2.2]
      simp
  · have hmaster : masterRun i (n + 1) =
        ⟨stage, .write (aw || (busRun i n).axiAwready) (w || (busRun i n).axiAwready)⟩ := by
      rw [hnext, Master.next]
      dsimp only
      rw [if_neg h1, hinv.awHandshake_eq, hinv.wHandshake_eq]
    refine .moved ?_ ?_ (fun hr => ?_) fun addr hc => ?_
    · rw [hmaster, hm]
    · exact bvalid_succ_of_waits h h1
    · rw [hmaster, hr, Bool.or_true, Bool.or_true]
    · rw [hmaster] at hc
      cases hc

theorem masterStep_of_read (h : PollingMaster i) {n : ℕ} {stage : Stage} {ar : Bool}
    {addr : BitVec 8} (hm : masterRun i n = ⟨stage, .read ar addr⟩)
    (hf : Flags (i n) (busRun i n) (.read ar addr)) : MasterStep i n := by
  obtain ⟨haw, hb, har, -, hopen⟩ := hf
  have hbn : (busRun i (n + 1)).axiBvalid = false := by rw [bvalid_succ h, haw, hb]; rfl
  have hnext := masterRun_succ hm
  by_cases h1 : (busRun i n).rHandshake (i n) = true
  · -- the response is taken
    have h2 := h1
    rw [AxiLite.rHandshake, Bool.and_eq_true] at h2
    refine .didRead stage addr ?_ ?_ haw hb hbn
    · rw [hm, har, h2.1]
    · rw [hnext, Master.next]
      exact if_pos h1
  · have hmaster : masterRun i (n + 1) =
        ⟨stage, .read (ar || (busRun i n).arHandshake (i n)) addr⟩ := by
      rw [hnext, Master.next]
      exact if_neg h1
    refine .moved ?_ ?_ (fun hr => ?_) fun addr' hc => ?_
    · rw [hmaster, hm]
    · rw [hbn, haw, hb]
      rfl
    · rw [haw] at hr
      cases hr
    · rw [hmaster] at hc
      injection hc with hflag haddr
      refine ⟨haw, hb, ?_⟩
      rw [AxiLite.axiRdata_next (bus_runs i) h.aresetn h.reads n]
      cases hv : (busRun i n).axiRvalid with
      | true =>
        -- the response is held
        refine Or.inl ⟨by rw [hm, har, hv, haddr], ?_⟩
        rw [Bool.not_true, Bool.and_false]
        rfl
      | false =>
        -- the register is read in this cycle
        rw [har, hv, Bool.false_or] at hflag
        refine Or.inr ?_
        rw [hflag, ← haddr, ← (hopen (har.trans hv)).2]
        rfl

theorem master_cases (h : PollingMaster i) (n : ℕ) : MasterStep i n := by
  have hf := flags_run h n
  cases hm : masterRun i n with
  | mk stage txn =>
    rw [hm] at hf
    cases txn with
    | none => exact masterStep_of_none h hm hf
    | write aw w => exact masterStep_of_write h hm hf
    | read ar addr => exact masterStep_of_read h hm hf

end Runs

end Sha256Axi

end ZynqSha256
