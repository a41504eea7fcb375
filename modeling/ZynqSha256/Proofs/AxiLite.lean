import ZynqSha256.Rtl.Axi
import ZynqSha256.Proofs.Stream

/-! Runs of the AXI4-Lite slave. Both wrappers contain one, so what is proved of
`Runs` holds of sha256_axi_v1_0_S00_AXI and of sha256_stream_v1_0_S00_AXI. -/

namespace ZynqSha256

open Fips180 (Word)

namespace AxiLite

variable {w : ℕ}

/-- The registers `s` of a slave from reset, in a module that drives `slv_reg0_nxt` and `hash`. -/
structure Runs (i : ℕ → AxiLiteIn w) (slvReg0Nxt : ℕ → Word) (hash : ℕ → Vector Word 8)
    (s : ℕ → AxiLite w) : Prop where
  zero : s 0 = reset
  succ : ∀ n, s (n + 1) = (s n).posedge (i n) (slvReg0Nxt n) (hash n)

/-- A master keeps AWVALID and WVALID with their payload until they are accepted. -/
structure WriteMaster (i : ℕ → AxiLiteIn w) (s : ℕ → AxiLite w) : Prop where
  aw : Clocked.Stable (fun n => (i n).awvalid) (fun n => (s n).axiAwready) (fun n => (i n).awaddr)
  w : Clocked.Stable (fun n => (i n).wvalid) (fun n => (s n).axiWready)
    (fun n => ((i n).wdata, (i n).wstrb))

/-- A master keeps ARVALID with its address until it is accepted. -/
def ReadMaster (i : ℕ → AxiLiteIn w) (s : ℕ → AxiLite w) : Prop :=
  Clocked.Stable (fun n => (i n).arvalid) (fun n => (s n).axiArready) (fun n => (i n).araddr)

def awHandshake (i : AxiLiteIn w) (s : AxiLite w) : Bool := i.awvalid && s.axiAwready
def wHandshake (i : AxiLiteIn w) (s : AxiLite w) : Bool := i.wvalid && s.axiWready
def bHandshake (i : AxiLiteIn w) (s : AxiLite w) : Bool := s.axiBvalid && i.bready
def arHandshake (i : AxiLiteIn w) (s : AxiLite w) : Bool := i.arvalid && s.axiArready
def rHandshake (i : AxiLiteIn w) (s : AxiLite w) : Bool := s.axiRvalid && i.rready

/-! ## One cycle -/

variable {i : AxiLiteIn w} {nxt : Word} {hash : Vector Word 8} {s : AxiLite w}

/-- The first condition of the address and data processes. -/
def awAccept (i : AxiLiteIn w) (s : AxiLite w) : Bool :=
  !s.axiAwready && i.awvalid && i.wvalid && s.awEn

theorem posedge_axiAwready (ha : i.aresetn = true) :
    (s.posedge i nxt hash).axiAwready = s.awAccept i := by
  simp only [posedge, ha, axiAwreadyNext, awAccept]
  cases !s.axiAwready && i.awvalid && i.wvalid && s.awEn <;> simp

theorem posedge_axiWready (ha : i.aresetn = true) (hs : s.axiAwready = s.axiWready) :
    (s.posedge i nxt hash).axiWready = s.awAccept i := by
  have h : (s.posedge i nxt hash).axiWready = s.axiWreadyNext i := by simp [posedge, ha]
  rw [h, axiWreadyNext, awAccept, hs]
  cases s.axiWready <;> cases i.wvalid <;> cases i.awvalid <;> cases s.awEn <;> rfl

theorem posedge_axiAwaddr (ha : i.aresetn = true) :
    (s.posedge i nxt hash).axiAwaddr = if s.awAccept i then i.awaddr else s.axiAwaddr := by
  simp [posedge, ha, axiAwaddrNext, awAccept]

theorem posedge_awEn (ha : i.aresetn = true) :
    (s.posedge i nxt hash).awEn = (!s.awAccept i && (s.bHandshake i || s.awEn)) := by
  simp only [posedge, ha, awEnNext, awAccept, bHandshake, Bool.and_comm s.axiBvalid]
  cases !s.axiAwready && i.awvalid && i.wvalid && s.awEn <;> cases i.bready && s.axiBvalid <;> simp

theorem posedge_axiBvalid (ha : i.aresetn = true) :
    (s.posedge i nxt hash).axiBvalid =
      (s.slvRegWren i && !s.axiBvalid || s.axiBvalid && !i.bready) := by
  simp only [posedge, ha, axiBvalidNext, slvRegWren]
  cases s.axiAwready <;> cases i.awvalid <;> cases s.axiBvalid <;> cases s.axiWready <;>
    cases i.wvalid <;> cases i.bready <;> rfl

theorem posedge_axiBresp (ha : i.aresetn = true) (hs : s.axiBresp = 0) :
    (s.posedge i nxt hash).axiBresp = 0 := by
  simp [posedge, ha, axiBrespNext, hs]

theorem posedge_slvReg0 (ha : i.aresetn = true) :
    (s.posedge i nxt hash).slvReg0 =
      slvReg0Next (s.slvRegWren i) (regIndex s.axiAwaddr) i.wstrb i.wdata nxt s.slvReg0 := by
  simp [posedge, ha]

theorem posedge_axiArready (ha : i.aresetn = true) :
    (s.posedge i nxt hash).axiArready = (!s.axiArready && i.arvalid) := by
  simp only [posedge, ha, axiArreadyNext]
  cases !s.axiArready && i.arvalid <;> rfl

theorem posedge_axiAraddr (ha : i.aresetn = true) :
    (s.posedge i nxt hash).axiAraddr =
      if !s.axiArready && i.arvalid then i.araddr else s.axiAraddr := by
  simp [posedge, ha, axiAraddrNext]

theorem posedge_axiRvalid (ha : i.aresetn = true) :
    (s.posedge i nxt hash).axiRvalid =
      (s.arHandshake i && !s.axiRvalid || s.axiRvalid && !i.rready) := by
  simp only [posedge, ha, axiRvalidNext, arHandshake]
  cases s.axiArready <;> cases i.arvalid <;> cases s.axiRvalid <;> cases i.rready <;> rfl

theorem posedge_axiRdata (ha : i.aresetn = true) :
    (s.posedge i nxt hash).axiRdata =
      if s.arHandshake i && !s.axiRvalid then s.regDataOut hash else s.axiRdata := by
  simp [posedge, ha, axiRdataNext, slvRegRden, arHandshake, Bool.and_comm]

end AxiLite

/-! ## The wrappers -/

namespace Sha256Axi

/-- The registers at the start of cycle `n`, from reset. -/
def run (i : ℕ → AxiLiteIn 8) : ℕ → Sha256Axi := Clocked.run posedge reset i

/-- What the wrapper drives into `sha256_inst` in cycle `n`. -/
def wires (i : ℕ → AxiLiteIn 8) (n : ℕ) : Sha256In := (run i n).coreIn (i n)

/-- The registers of the AXI4-Lite slave in a run. -/
def busRun (i : ℕ → AxiLiteIn 8) (n : ℕ) : AxiLite 8 := (run i n).bus

variable (i : ℕ → AxiLiteIn 8)

theorem run_succ (n : ℕ) : run i (n + 1) = (run i n).posedge (i n) := rfl

theorem bus_runs : AxiLite.Runs i (fun n => (run i n).slvReg0Nxt (i n))
    (fun n => ((run i n).core (i n)).hash) (busRun i) :=
  ⟨rfl, fun _ => rfl⟩

theorem inst_eq_run (n : ℕ) : (run i n).sha256Inst = Sha256.run (wires i) n :=
  Clocked.eq_run (s := fun n => (run i n).sha256Inst) rfl
    (fun n => Sha256.settle_posedge (wires i n) _) n

theorem core_eq_run {n : ℕ} (hr : (run i n).sha256RstN (i n) = true) :
    (run i n).core (i n) = Sha256.run (wires i) n := by
  rw [core, hr, Sha256.settle_true, inst_eq_run]

theorem busy_eq {n : ℕ} (hr : (run i n).sha256RstN (i n) = true) :
    (run i n).hashBusyO (i n) = (Sha256.run (wires i) n).hashBusyO (wires i n) := by
  rw [hashBusyO, core_eq_run i hr]
  rfl

end Sha256Axi

namespace Sha256Stream

/-- The registers of the AXI4-Lite slave in a run. -/
def busRun (i : ℕ → StreamIn) (n : ℕ) : AxiLite 6 := (run i n).bus

theorem bus_runs (i : ℕ → StreamIn) : AxiLite.Runs (fun n => (i n).axi)
    (fun n => (run i n).sha256RegStatusNxt (i n)) (fun n => ((run i n).core (i n)).hash) (busRun i) :=
  ⟨rfl, fun _ => rfl⟩

end Sha256Stream

end ZynqSha256
