import ZynqSha256.Rtl.Registers

/-! The AXI4-Lite slave that sha256_axi_v1_0_S00_AXI.v and
sha256_stream_v1_0_S00_AXI.v both are, line for line, up to the width of the
address bus. The S_AXI_ prefix of its ports is dropped. -/

namespace ZynqSha256

open Fips180 (Word)

structure AxiLiteIn (w : ℕ) where
  aresetn : Bool
  awaddr : BitVec w
  awvalid : Bool
  wdata : Word
  wstrb : BitVec 4
  wvalid : Bool
  bready : Bool
  araddr : BitVec w
  arvalid : Bool
  rready : Bool

structure AxiLite (w : ℕ) where
  axiAwaddr : BitVec w
  axiAwready : Bool
  axiWready : Bool
  axiBresp : BitVec 2
  axiBvalid : Bool
  axiAraddr : BitVec w
  axiArready : Bool
  axiRdata : Word
  axiRresp : BitVec 2
  axiRvalid : Bool
  slvReg0 : Word
  awEn : Bool

namespace AxiLite

variable {w : ℕ}

def reset : AxiLite w where
  axiAwaddr := 0
  axiAwready := false
  axiWready := false
  axiBresp := 0
  axiBvalid := false
  axiAraddr := 0
  axiArready := false
  axiRdata := 0
  axiRresp := 0
  axiRvalid := false
  slvReg0 := 0
  awEn := true

def slvRegWren (i : AxiLiteIn w) (s : AxiLite w) : Bool :=
  s.axiWready && i.wvalid && s.axiAwready && i.awvalid

def slvRegRden (i : AxiLiteIn w) (s : AxiLite w) : Bool :=
  s.axiArready && i.arvalid && !s.axiRvalid

/-- The register the latched read address selects. -/
def regDataOut (hash : Vector Word 8) (s : AxiLite w) : Word :=
  readMux (regIndex s.axiAraddr) s.slvReg0 hash

def axiAwreadyNext (i : AxiLiteIn w) (s : AxiLite w) : Bool :=
  if !s.axiAwready && i.awvalid && i.wvalid && s.awEn then true
  else if i.bready && s.axiBvalid then false
  else false

def awEnNext (i : AxiLiteIn w) (s : AxiLite w) : Bool :=
  if !s.axiAwready && i.awvalid && i.wvalid && s.awEn then false
  else if i.bready && s.axiBvalid then true
  else s.awEn

def axiAwaddrNext (i : AxiLiteIn w) (s : AxiLite w) : BitVec w :=
  if !s.axiAwready && i.awvalid && i.wvalid && s.awEn then i.awaddr else s.axiAwaddr

def axiWreadyNext (i : AxiLiteIn w) (s : AxiLite w) : Bool :=
  if !s.axiWready && i.wvalid && i.awvalid && s.awEn then true else false

def axiBvalidNext (i : AxiLiteIn w) (s : AxiLite w) : Bool :=
  if s.axiAwready && i.awvalid && !s.axiBvalid && s.axiWready && i.wvalid then true
  else if i.bready && s.axiBvalid then false
  else s.axiBvalid

def axiBrespNext (i : AxiLiteIn w) (s : AxiLite w) : BitVec 2 :=
  if s.axiAwready && i.awvalid && !s.axiBvalid && s.axiWready && i.wvalid then 0 else s.axiBresp

def axiArreadyNext (i : AxiLiteIn w) (s : AxiLite w) : Bool :=
  if !s.axiArready && i.arvalid then true else false

def axiAraddrNext (i : AxiLiteIn w) (s : AxiLite w) : BitVec w :=
  if !s.axiArready && i.arvalid then i.araddr else s.axiAraddr

def axiRvalidNext (i : AxiLiteIn w) (s : AxiLite w) : Bool :=
  if s.axiArready && i.arvalid && !s.axiRvalid then true
  else if s.axiRvalid && i.rready then false
  else s.axiRvalid

def axiRrespNext (i : AxiLiteIn w) (s : AxiLite w) : BitVec 2 :=
  if s.axiArready && i.arvalid && !s.axiRvalid then 0 else s.axiRresp

def axiRdataNext (i : AxiLiteIn w) (hash : Vector Word 8) (s : AxiLite w) : Word :=
  if s.slvRegRden i then s.regDataOut hash else s.axiRdata

/-- One clock edge; `slvReg0Nxt` and `hash` come from the module around the slave. -/
def posedge (i : AxiLiteIn w) (slvReg0Nxt : Word) (hash : Vector Word 8) (s : AxiLite w) :
    AxiLite w :=
  if !i.aresetn then reset
  else
    { axiAwaddr := s.axiAwaddrNext i
      axiAwready := s.axiAwreadyNext i
      axiWready := s.axiWreadyNext i
      axiBresp := s.axiBrespNext i
      axiBvalid := s.axiBvalidNext i
      axiAraddr := s.axiAraddrNext i
      axiArready := s.axiArreadyNext i
      axiRdata := s.axiRdataNext i hash
      axiRresp := s.axiRrespNext i
      axiRvalid := s.axiRvalidNext i
      slvReg0 := slvReg0Next (s.slvRegWren i) (regIndex s.axiAwaddr) i.wstrb i.wdata slvReg0Nxt
        s.slvReg0
      awEn := s.awEnNext i }

end AxiLite

end ZynqSha256
