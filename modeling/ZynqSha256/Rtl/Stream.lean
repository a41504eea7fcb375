import ZynqSha256.Rtl.AxiLite

/-! sha256_stream_v1_0.v with sha256_stream_v1_0_S00_AXIS.v: words come over
AXI4-Stream, control and results over the AXI4-Lite slave of a six-bit address.
Both interfaces are on one clock. -/

namespace ZynqSha256

open Fips180 (Word)

structure StreamIn where
  axi : AxiLiteIn 6
  axisAresetn : Bool
  tdata : Word
  tstrb : BitVec 4
  tlast : Bool
  tvalid : Bool

structure Sha256Stream where
  bus : AxiLite 6
  sha256Inst : Sha256

/-! sha256_stream_v1_0_S00_AXIS -/

namespace S00Axis

def tready (deviceBusy : Bool) : Bool := !deviceBusy
def dataVaild (i : StreamIn) : Bool := i.tvalid
def dataOut (i : StreamIn) : Word := i.tdata

end S00Axis

namespace Sha256Stream

def reset : Sha256Stream := ⟨AxiLite.reset, Sha256.reset⟩

def sha256SoftReset (s : Sha256Stream) : Bool := s.bus.slvReg0.getLsbD 0
def sha256RstN (i : StreamIn) (s : Sha256Stream) : Bool :=
  !s.sha256SoftReset && i.axi.aresetn && i.axisAresetn

def coreIn (i : StreamIn) (s : Sha256Stream) : Sha256In where
  rstN := s.sha256RstN i
  datVaildI := S00Axis.dataVaild i
  datLsbI := S00Axis.dataOut i

/-- The core's registers as this cycle sees them. -/
def core (i : StreamIn) (s : Sha256Stream) : Sha256 := s.sha256Inst.settle (s.sha256RstN i)

def sha256HashBusyO (i : StreamIn) (s : Sha256Stream) : Bool := (s.core i).hashBusyO (s.coreIn i)
def tready (i : StreamIn) (s : Sha256Stream) : Bool := S00Axis.tready (s.sha256HashBusyO i)
def sha256RegStatusNxt (i : StreamIn) (s : Sha256Stream) : Word :=
  statusNxt (s.sha256HashBusyO i) s.bus.slvReg0

def posedge (i : StreamIn) (s : Sha256Stream) : Sha256Stream where
  bus := s.bus.posedge i.axi (s.sha256RegStatusNxt i) (s.core i).hash
  sha256Inst := (s.core i).posedge (s.coreIn i)

end Sha256Stream

end ZynqSha256
