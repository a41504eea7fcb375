import ZynqSha256.Proofs.Writes
import ZynqSha256.Proofs.Full

/-! Bit 8 of slv_reg0, the busy status. Each wrapper registers `hash_busy_o` in
it, except in a cycle that writes register 0: the strobed write then stores the
bus's own bit 8 for one cycle. -/

namespace ZynqSha256

open Fips180 (Word)

/-- Bit 8 after a cycle that saw these write strobes and this busy wire. -/
def statusAfter (writes : Bool) (wstrb : BitVec 4) (wdata old : Word) (busy : Bool) : Bool :=
  if writes then (if wstrb.getLsbD 1 then wdata.getLsbD 8 else old.getLsbD 8) else busy

theorem slvReg0Next_status (wren : Bool) (index : ℕ) (wstrb : BitVec 4) (wdata old : Word)
    (busy : Bool) :
    (slvReg0Next wren index wstrb wdata (statusNxt busy old) old).getLsbD 8 =
      statusAfter (wren && index = 0) wstrb wdata old busy := by
  rw [slvReg0Next_bit8, statusAfter]
  simp only [Bool.and_eq_true, decide_eq_true_iff]

/-- In each of the three wrappers bit 8 of slv_reg0 is the last cycle's
`hash_busy_o`, unless that cycle wrote register 0. -/
theorem status_mirrors_busy :
    (∀ (i : ℕ → AxiLiteIn 8) (n : ℕ), (i n).aresetn = true →
      (Sha256Axi.busRun i (n + 1)).slvReg0.getLsbD 8 =
        statusAfter ((Sha256Axi.busRun i n).slvRegWren (i n) &&
            regIndex (Sha256Axi.busRun i n).axiAwaddr = 0)
          (i n).wstrb (i n).wdata (Sha256Axi.busRun i n).slvReg0
          ((Sha256Axi.run i n).hashBusyO (i n))) ∧
    (∀ (idWidth : ℕ) (i : ℕ → FullIn idWidth) (n : ℕ), (i n).aresetn = true →
      (Sha256Full.run i (n + 1)).slvReg0.getLsbD 8 =
        statusAfter ((Sha256Full.run i n).regWriteEn (i n) &&
            regIndex (Sha256Full.run i n).axiAwaddr = 0)
          (i n).wstrb (i n).wdata (Sha256Full.run i n).slvReg0
          ((Sha256Full.run i n).hashBusyO (i n))) ∧
    ∀ (i : ℕ → StreamIn) (n : ℕ), (i n).axi.aresetn = true →
      (Sha256Stream.busRun i (n + 1)).slvReg0.getLsbD 8 =
        statusAfter ((Sha256Stream.busRun i n).slvRegWren (i n).axi &&
            regIndex (Sha256Stream.busRun i n).axiAwaddr = 0)
          (i n).axi.wstrb (i n).axi.wdata (Sha256Stream.busRun i n).slvReg0
          ((Sha256Stream.run i n).sha256HashBusyO (i n)) := by
  refine ⟨fun i n ha => ?_, fun _ i n ha => ?_, fun i n ha => ?_⟩
  · rw [(Sha256Axi.bus_runs i).succ, AxiLite.posedge_slvReg0 ha]
    exact slvReg0Next_status _ _ _ _ _ _
  · have hreg : (Sha256Full.run i (n + 1)).slvReg0 =
        slvReg0Next ((Sha256Full.run i n).regWriteEn (i n))
          (regIndex (Sha256Full.run i n).axiAwaddr) (i n).wstrb (i n).wdata
          ((Sha256Full.run i n).slvReg0Nxt (i n)) (Sha256Full.run i n).slvReg0 := by
      rw [Sha256Full.run_succ]
      simp [Sha256Full.posedge, ha]
    rw [hreg]
    exact slvReg0Next_status _ _ _ _ _ _
  · rw [(Sha256Stream.bus_runs i).succ, AxiLite.posedge_slvReg0 ha]
    exact slvReg0Next_status _ _ _ _ _ _

/-- A write of bit 8 to register 0 shows "busy" while the core is idle. -/
theorem status_forged :
    ¬((∀ i : ℕ → AxiLiteIn 8, (∀ n, (i n).aresetn = true) → ∀ n,
        (Sha256Axi.busRun i (n + 1)).slvReg0.getLsbD 8 = (Sha256Axi.run i n).hashBusyO (i n)) ∧
      (∀ (idWidth : ℕ) (i : ℕ → FullIn idWidth), (∀ n, (i n).aresetn = true) → ∀ n,
        (Sha256Full.run i (n + 1)).slvReg0.getLsbD 8 = (Sha256Full.run i n).hashBusyO (i n)) ∧
      ∀ i : ℕ → StreamIn, (∀ n, (i n).axi.aresetn = true ∧ (i n).axisAresetn = true) → ∀ n,
        (Sha256Stream.busRun i (n + 1)).slvReg0.getLsbD 8 =
          (Sha256Stream.run i n).sha256HashBusyO (i n)) := by
  rintro ⟨h, -, -⟩
  have h1 := h (AxiLite.rewriter 0x00) (fun _ => rfl) 1
  revert h1
  decide +kernel

end ZynqSha256
