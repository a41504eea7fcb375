import ZynqSha256.Rtl.ChunkProcess
import ZynqSha256.Rtl.ChunkCompress

/-! sha256.v and sha256_k.v: the control state machine around the schedule and
the round datapath. A low `rst_n` resets the registers without a clock edge, so
what a cycle sees of the registers is `settle rstN`. -/

namespace ZynqSha256

open Fips180 (Word Hash)

structure Sha256In where
  rstN : Bool
  datVaildI : Bool
  datLsbI : Word

inductive State where
  | idle
  | load
  | proc
  | finish
deriving DecidableEq, Repr

structure Sha256 where
  state : State
  counter : BitVec 8
  irqFinish : Bool
  chunkProcess : ChunkProcess
  chunkCompress : ChunkCompress

/-- sha256_k.v: the initialised ROM. -/
def romK : Vector Word 64 :=
  #v[0x428a2f98, 0x71374491, 0xb5c0fbcf, 0xe9b5dba5, 0x3956c25b, 0x59f111f1, 0x923f82a4, 0xab1c5ed5,
    0xd807aa98, 0x12835b01, 0x243185be, 0x550c7dc3, 0x72be5d74, 0x80deb1fe, 0x9bdc06a7, 0xc19bf174,
    0xe49b69c1, 0xefbe4786, 0x0fc19dc6, 0x240ca1cc, 0x2de92c6f, 0x4a7484aa, 0x5cb0a9dc, 0x76f988da,
    0x983e5152, 0xa831c66d, 0xb00327c8, 0xbf597fc7, 0xc6e00bf3, 0xd5a79147, 0x06ca6351, 0x14292967,
    0x27b70a85, 0x2e1b2138, 0x4d2c6dfc, 0x53380d13, 0x650a7354, 0x766a0abb, 0x81c2c92e, 0x92722c85,
    0xa2bfe8a1, 0xa81a664b, 0xc24b8b70, 0xc76c51a3, 0xd192e819, 0xd6990624, 0xf40e3585, 0x106aa070,
    0x19a4c116, 0x1e376c08, 0x2748774c, 0x34b0bcb5, 0x391c0cb3, 0x4ed8aa4a, 0x5b9cca4f, 0x682e6ff3,
    0x748f82ee, 0x78a5636f, 0x84c87814, 0x8cc70208, 0x90befffa, 0xa4506ceb, 0xbef9a3f7, 0xc67178f2]

def kO (enable : Bool) (addr : BitVec 6) : Word :=
  if enable then romK.get ⟨addr.toNat, addr.isLt⟩ else 0

def datMsbI (datLsbI : Word) : Word :=
  datLsbI.extractLsb 7 0 ++ datLsbI.extractLsb 15 8 ++ datLsbI.extractLsb 23 16 ++
    datLsbI.extractLsb 31 24

namespace Sha256

def reset : Sha256 := ⟨.idle, 0, false, ChunkProcess.reset, ChunkCompress.reset⟩

/-- The registers as a cycle with this `rst_n` sees them: the reset is asynchronous. -/
def settle (rstN : Bool) (s : Sha256) : Sha256 := if rstN then s else reset

def stateNext (i : Sha256In) (s : Sha256) : State :=
  if !i.rstN then .idle
  else match s.state with
    | .idle => if i.datVaildI then .load else s.state
    | .load => if s.counter = 0x10 then .proc else s.state
    | .proc => if s.counter = 0x40 then .finish else s.state
    | .finish => .idle

def nextStateIsIdle (i : Sha256In) (s : Sha256) : Bool := s.stateNext i = .idle
def nextStateIsProc (i : Sha256In) (s : Sha256) : Bool := s.stateNext i = .proc
def nextStateIsFinish (i : Sha256In) (s : Sha256) : Bool := s.stateNext i = .finish
def stateIsLoad (s : Sha256) : Bool := s.state = .load
def stateIsProc (s : Sha256) : Bool := s.state = .proc
def stateIsFinish (s : Sha256) : Bool := s.state = .finish

def kAddr (s : Sha256) : BitVec 6 := s.counter.extractLsb 5 0
def compressStart (s : Sha256) : Bool := s.stateIsLoad || s.stateIsProc

def hashBusyO (i : Sha256In) (s : Sha256) : Bool :=
  s.nextStateIsProc i || s.stateIsProc || s.stateIsFinish

def chunkProcessIn (i : Sha256In) (s : Sha256) : ChunkProcessIn where
  rstN := i.rstN
  processStart := s.nextStateIsProc i
  datVaildI := i.datVaildI
  datMsbI := datMsbI i.datLsbI

def wOutVaild (i : Sha256In) (s : Sha256) : Bool := (s.chunkProcessIn i).wOutVaild
def wOut (i : Sha256In) (s : Sha256) : Word := s.chunkProcess.wOut (s.chunkProcessIn i)

def counterNxt (i : Sha256In) (s : Sha256) : BitVec 8 :=
  if s.nextStateIsIdle i then 0 else if s.wOutVaild i then s.counter + 1 else s.counter

def chunkCompressIn (i : Sha256In) (s : Sha256) : ChunkCompressIn where
  rstN := i.rstN
  compressStart := s.compressStart
  updateHash := s.nextStateIsFinish i
  inVaild := s.wOutVaild i
  wIn := s.wOut i
  kIn := kO i.rstN s.kAddr

def posedge (i : Sha256In) (s : Sha256) : Sha256 :=
  if !i.rstN then reset
  else
    { state := s.stateNext i
      counter := s.counterNxt i
      irqFinish := s.state = .finish
      chunkProcess := s.chunkProcess.posedge (s.chunkProcessIn i)
      chunkCompress := s.chunkCompress.posedge (s.chunkCompressIn i) }

/-- The output ports `hash0 … hash7`. -/
def hash (s : Sha256) : Vector Word 8 := s.chunkCompress.hash

end Sha256

end ZynqSha256
