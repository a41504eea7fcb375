import ZynqSha256.Rtl.AxiLite

/-! sha256_axi_v1_0_S00_AXI.v: the AXI4-Lite slave with the core behind it. A
write to the data window hands its word straight to the core. -/

namespace ZynqSha256

open Fips180 (Word)

structure Sha256Axi where
  bus : AxiLite 8
  sha256Inst : Sha256

namespace Sha256Axi

def reset : Sha256Axi := ⟨AxiLite.reset, Sha256.reset⟩

def sha256RstN (i : AxiLiteIn 8) (s : Sha256Axi) : Bool := i.aresetn && !s.bus.slvReg0.getLsbD 0
def datAddrVaild (s : Sha256Axi) : Bool := s.bus.axiAwaddr.extractLsb 7 6 = 1
def datVaildI (i : AxiLiteIn 8) (s : Sha256Axi) : Bool := s.bus.slvRegWren i && s.datAddrVaild

def coreIn (i : AxiLiteIn 8) (s : Sha256Axi) : Sha256In where
  rstN := s.sha256RstN i
  datVaildI := s.datVaildI i
  datLsbI := i.wdata

/-- The core's registers as this cycle sees them. -/
def core (i : AxiLiteIn 8) (s : Sha256Axi) : Sha256 := s.sha256Inst.settle (s.sha256RstN i)

def hashBusyO (i : AxiLiteIn 8) (s : Sha256Axi) : Bool := (s.core i).hashBusyO (s.coreIn i)
def slvReg0Nxt (i : AxiLiteIn 8) (s : Sha256Axi) : Word := statusNxt (s.hashBusyO i) s.bus.slvReg0
def irqHashFinish (i : AxiLiteIn 8) (s : Sha256Axi) : Bool :=
  s.bus.slvReg0.getLsbD 1 && (s.core i).irqFinish

def posedge (i : AxiLiteIn 8) (s : Sha256Axi) : Sha256Axi where
  bus := s.bus.posedge i (s.slvReg0Nxt i) (s.core i).hash
  sha256Inst := (s.core i).posedge (s.coreIn i)

end Sha256Axi

end ZynqSha256
