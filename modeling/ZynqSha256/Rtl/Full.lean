import ZynqSha256.Rtl.Registers

/-! sha256_full_v1_0_S00_AXI.v: the AXI4 slave with bursts. `S_AXI_WREADY`
depends on the core's busy output and the core's input on `S_AXI_WREADY`; the
busy output does not look at its input, so the loop has one solution
(`hashBusyO_wires`). The S_AXI_ prefix of the ports is dropped. -/

namespace ZynqSha256

open Fips180 (Word)

structure FullIn (idWidth : ℕ) where
  aresetn : Bool
  awid : BitVec idWidth
  awaddr : BitVec 8
  awlen : BitVec 8
  awburst : BitVec 2
  awvalid : Bool
  wdata : Word
  wstrb : BitVec 4
  wlast : Bool
  wvalid : Bool
  bready : Bool
  arid : BitVec idWidth
  araddr : BitVec 8
  arlen : BitVec 8
  arburst : BitVec 2
  arvalid : Bool
  rready : Bool

structure Sha256Full where
  axiAwaddr : BitVec 8
  axiAwready : Bool
  axiWready : Bool
  axiBresp : BitVec 2
  axiBvalid : Bool
  axiAraddr : BitVec 8
  axiArready : Bool
  axiRresp : BitVec 2
  axiRlast : Bool
  axiRvalid : Bool
  axiAwvAwrFlag : Bool
  axiArvArrFlag : Bool
  axiAwlenCntr : BitVec 8
  axiArlenCntr : BitVec 8
  axiArburst : BitVec 2
  axiAwburst : BitVec 2
  axiArlen : BitVec 8
  axiAwlen : BitVec 8
  slvReg0 : Word
  regDataOut : Word
  sha256Inst : Sha256

namespace Sha256Full

variable {idWidth : ℕ}

def reset : Sha256Full where
  axiAwaddr := 0
  axiAwready := false
  axiWready := false
  axiBresp := 0
  axiBvalid := false
  axiAraddr := 0
  axiArready := false
  axiRresp := 0
  axiRlast := false
  axiRvalid := false
  axiAwvAwrFlag := false
  axiArvArrFlag := false
  axiAwlenCntr := 0
  axiArlenCntr := 0
  axiArburst := 0
  axiAwburst := 0
  axiArlen := 0
  axiAwlen := 0
  slvReg0 := 0
  regDataOut := 0
  sha256Inst := Sha256.reset

/-! ## Wires -/

def rstN (i : FullIn idWidth) (s : Sha256Full) : Bool := i.aresetn && !s.slvReg0.getLsbD 0

/-- The core's registers as this cycle sees them. -/
def core (i : FullIn idWidth) (s : Sha256Full) : Sha256 := s.sha256Inst.settle (s.rstN i)

/-- The core's busy output, read with its data input low: it does not depend on it. -/
def hashBusyO (i : FullIn idWidth) (s : Sha256Full) : Bool :=
  (s.core i).hashBusyO ⟨s.rstN i, false, i.wdata⟩

def datAddrVaild (s : Sha256Full) : Bool := s.axiAwaddr.extractLsb 7 6 = 1
def blockDataInput (i : FullIn idWidth) (s : Sha256Full) : Bool := s.hashBusyO i && s.datAddrVaild
def wready (i : FullIn idWidth) (s : Sha256Full) : Bool := s.axiWready && !s.blockDataInput i
def regWriteEn (i : FullIn idWidth) (s : Sha256Full) : Bool := s.wready i && i.wvalid
def regReadEn (s : Sha256Full) : Bool := s.axiArvArrFlag
def datVaildI (i : FullIn idWidth) (s : Sha256Full) : Bool := s.regWriteEn i && s.datAddrVaild

def coreIn (i : FullIn idWidth) (s : Sha256Full) : Sha256In where
  rstN := s.rstN i
  datVaildI := s.datVaildI i
  datLsbI := i.wdata

def slvReg0Nxt (i : FullIn idWidth) (s : Sha256Full) : Word := statusNxt (s.hashBusyO i) s.slvReg0
def irqHashFinish (i : FullIn idWidth) (s : Sha256Full) : Bool :=
  s.slvReg0.getLsbD 1 && (s.core i).irqFinish

def bid (i : FullIn idWidth) : BitVec idWidth := i.awid
def rid (i : FullIn idWidth) : BitVec idWidth := i.arid
def axiRdata (s : Sha256Full) : Word := if s.axiRvalid then s.regDataOut else 0

/-- `C_S_AXI_DATA_WIDTH/8 * len`. -/
def wrapSize (len : BitVec 8) : BitVec 32 := 4 * len.setWidth 32
def wrapEn (addr len : BitVec 8) : Bool := addr.setWidth 32 &&& wrapSize len = wrapSize len

/-- The next word's address, aligned. -/
def addrIncr (addr : BitVec 8) : BitVec 8 := (addr.extractLsb 7 2 + 1) ++ 0#2

/-- The address of the next beat; a reserved burst type stores the word index. -/
def addrNext (burst : BitVec 2) (addr len : BitVec 8) : BitVec 8 :=
  if burst = 0 then addr
  else if burst = 1 then addrIncr addr
  else if burst = 2 then
    if wrapEn addr len then (addr.setWidth 32 - wrapSize len).setWidth 8 else addrIncr addr
  else (addr.extractLsb 7 2).setWidth 8 + 1

/-! ## Registers -/

def awAccept (i : FullIn idWidth) (s : Sha256Full) : Bool :=
  !s.axiAwready && i.awvalid && !s.axiAwvAwrFlag && !s.axiArvArrFlag

def axiAwreadyNext (i : FullIn idWidth) (s : Sha256Full) : Bool :=
  if s.awAccept i then true
  else if i.wlast && s.wready i then s.axiAwready
  else false

def axiAwvAwrFlagNext (i : FullIn idWidth) (s : Sha256Full) : Bool :=
  if s.awAccept i then true
  else if i.wlast && s.wready i then false
  else s.axiAwvAwrFlag

/-- The write address is latched whether or not a read is in progress. -/
def awLatch (i : FullIn idWidth) (s : Sha256Full) : Bool :=
  !s.axiAwready && i.awvalid && !s.axiAwvAwrFlag

def awBeat (i : FullIn idWidth) (s : Sha256Full) : Bool :=
  s.axiAwlenCntr.toNat ≤ s.axiAwlen.toNat && s.wready i && i.wvalid

def axiAwaddrNext (i : FullIn idWidth) (s : Sha256Full) : BitVec 8 :=
  if s.awLatch i then i.awaddr
  else if s.awBeat i then addrNext s.axiAwburst s.axiAwaddr s.axiAwlen
  else s.axiAwaddr

def axiAwlenCntrNext (i : FullIn idWidth) (s : Sha256Full) : BitVec 8 :=
  if s.awLatch i then 0 else if s.awBeat i then s.axiAwlenCntr + 1 else s.axiAwlenCntr

def axiWreadyNext (i : FullIn idWidth) (s : Sha256Full) : Bool :=
  if !s.axiWready && i.wvalid && s.axiAwvAwrFlag then true
  else if i.wlast && s.axiWready then false
  else s.axiWready

def axiBvalidNext (i : FullIn idWidth) (s : Sha256Full) : Bool :=
  if s.axiAwvAwrFlag && s.wready i && i.wvalid && !s.axiBvalid && i.wlast then true
  else if i.bready && s.axiBvalid then false
  else s.axiBvalid

def axiBrespNext (i : FullIn idWidth) (s : Sha256Full) : BitVec 2 :=
  if s.axiAwvAwrFlag && s.wready i && i.wvalid && !s.axiBvalid && i.wlast then 0 else s.axiBresp

def arAccept (i : FullIn idWidth) (s : Sha256Full) : Bool :=
  !s.axiArready && i.arvalid && !s.axiAwvAwrFlag && !s.axiArvArrFlag

def arDone (i : FullIn idWidth) (s : Sha256Full) : Bool :=
  s.axiRvalid && i.rready && s.axiArlenCntr = s.axiArlen

def axiArreadyNext (i : FullIn idWidth) (s : Sha256Full) : Bool :=
  if s.arAccept i then true else if s.arDone i then s.axiArready else false

def axiArvArrFlagNext (i : FullIn idWidth) (s : Sha256Full) : Bool :=
  if s.arAccept i then true else if s.arDone i then false else s.axiArvArrFlag

/-- The read address is latched whether or not a write is in progress. -/
def arLatch (i : FullIn idWidth) (s : Sha256Full) : Bool :=
  !s.axiArready && i.arvalid && !s.axiArvArrFlag

def arBeat (i : FullIn idWidth) (s : Sha256Full) : Bool :=
  s.axiArlenCntr.toNat ≤ s.axiArlen.toNat && s.axiRvalid && i.rready

def axiAraddrNext (i : FullIn idWidth) (s : Sha256Full) : BitVec 8 :=
  if s.arLatch i then i.araddr
  else if s.arBeat i then addrNext s.axiArburst s.axiAraddr s.axiArlen
  else s.axiAraddr

def axiArlenCntrNext (i : FullIn idWidth) (s : Sha256Full) : BitVec 8 :=
  if s.arLatch i then 0 else if s.arBeat i then s.axiArlenCntr + 1 else s.axiArlenCntr

def axiRlastNext (i : FullIn idWidth) (s : Sha256Full) : Bool :=
  if s.arLatch i then false
  else if s.arBeat i then false
  else if s.axiArlenCntr = s.axiArlen && !s.axiRlast && s.axiArvArrFlag then true
  else if i.rready then false
  else s.axiRlast

def axiRvalidNext (i : FullIn idWidth) (s : Sha256Full) : Bool :=
  if s.axiArvArrFlag && !s.axiRvalid then true
  else if s.axiRvalid && i.rready then false
  else s.axiRvalid

def axiRrespNext (s : Sha256Full) : BitVec 2 :=
  if s.axiArvArrFlag && !s.axiRvalid then 0 else s.axiRresp

def regDataOutNext (i : FullIn idWidth) (s : Sha256Full) : Word :=
  if s.regReadEn then readMux (regIndex s.axiAraddr) s.slvReg0 (s.core i).hash else s.regDataOut

def posedge (i : FullIn idWidth) (s : Sha256Full) : Sha256Full :=
  if !i.aresetn then { reset with sha256Inst := (s.core i).posedge (s.coreIn i) }
  else
    { axiAwaddr := s.axiAwaddrNext i
      axiAwready := s.axiAwreadyNext i
      axiWready := s.axiWreadyNext i
      axiBresp := s.axiBrespNext i
      axiBvalid := s.axiBvalidNext i
      axiAraddr := s.axiAraddrNext i
      axiArready := s.axiArreadyNext i
      axiRresp := s.axiRrespNext
      axiRlast := s.axiRlastNext i
      axiRvalid := s.axiRvalidNext i
      axiAwvAwrFlag := s.axiAwvAwrFlagNext i
      axiArvArrFlag := s.axiArvArrFlagNext i
      axiAwlenCntr := s.axiAwlenCntrNext i
      axiArlenCntr := s.axiArlenCntrNext i
      axiArburst := if s.arLatch i then i.arburst else s.axiArburst
      axiAwburst := if s.awLatch i then i.awburst else s.axiAwburst
      axiArlen := if s.arLatch i then i.arlen else s.axiArlen
      axiAwlen := if s.awLatch i then i.awlen else s.axiAwlen
      slvReg0 := slvReg0Next (s.regWriteEn i) (regIndex s.axiAwaddr) i.wstrb i.wdata
        (s.slvReg0Nxt i) s.slvReg0
      regDataOut := s.regDataOutNext i
      sha256Inst := (s.core i).posedge (s.coreIn i) }

end Sha256Full

end ZynqSha256
