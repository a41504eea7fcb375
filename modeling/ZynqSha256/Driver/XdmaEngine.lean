import ZynqSha256.Driver.Pcie
import ZynqSha256.Driver.XdmaSubmit

/-! bench/pcie_linux_driver/libxdma.c, the queue of an engine: `transfer_queue`,
`engine_start` and `engine_service`, with the registers of the hardware they read and write.
No transfer is cyclic, and no stream to the host is cut at the end of a packet. -/

namespace ZynqSha256.Xdma

open PcieDriver (EBUSY EINVAL)

/-! ## libxdma.h -/

def XDMA_STAT_BUSY : BitVec 32 := 1
def XDMA_STAT_COMMON_ERR_MASK : BitVec 32 := 0x00000038
def XDMA_STAT_DESC_ERR_MASK : BitVec 32 := 0x00f80000
def XDMA_STAT_H2C_R_ERR_MASK : BitVec 32 := 0x00003e00
def XDMA_STAT_H2C_W_ERR_MASK : BitVec 32 := 0x0000c000
def XDMA_STAT_C2H_R_ERR_MASK : BitVec 32 := 0x00000600

def XDMA_STAT_H2C_ERR_MASK : BitVec 32 :=
  XDMA_STAT_COMMON_ERR_MASK ||| XDMA_STAT_DESC_ERR_MASK ||| XDMA_STAT_H2C_R_ERR_MASK |||
    XDMA_STAT_H2C_W_ERR_MASK

def XDMA_STAT_C2H_ERR_MASK : BitVec 32 :=
  XDMA_STAT_COMMON_ERR_MASK ||| XDMA_STAT_DESC_ERR_MASK ||| XDMA_STAT_C2H_R_ERR_MASK

def WB_COUNT_MASK : BitVec 32 := 0x00ffffff
def WB_ERR_MASK : BitVec 32 := 0x80000000

def ENGINE_SHUTDOWN_NONE : BitVec 2 := 0
def ENGINE_SHUTDOWN_REQUEST : BitVec 2 := 1
def ENGINE_SHUTDOWN_IDLE : BitVec 2 := 2

def statErrMask : DmaDataDirection → BitVec 32
  | .toDevice => XDMA_STAT_H2C_ERR_MASK
  | .fromDevice => XDMA_STAT_C2H_ERR_MASK

/-! ## State -/

/-- The part of `struct xdma_transfer` that the queue reads. -/
structure QTransfer where
  id : ℕ
  descNum : ℕ
  descNum_le : descNum ≤ XDMA_ENGINE_XFER_MAX_DESC
  /-- It has a control block. -/
  cb : Bool
  lastInRequest : Bool
  deriving DecidableEq

/-- A transfer taken off the list, and the descriptors of it that the hardware had then made. -/
structure Finished where
  transfer : QTransfer
  state : TransferState
  made : ℕ
  deriving DecidableEq

/-- The part of `struct xdma_engine` that the queue works on, its registers, and what has
happened so far. -/
structure EngineState where
  dir : DmaDataDirection
  running : Bool
  shutdown : BitVec 2
  status : BitVec 32
  descDequeued : BitVec 32
  transferList : List QTransfer
  /-- The transfer the hardware was started with. -/
  current : Option QTransfer
  /-- The hardware is at work on it. -/
  busy : Bool
  /-- `completed_desc_count`. -/
  completedDescCount : ℕ
  /-- The error bits of the status register, until it is read and cleared. -/
  errors : BitVec 32
  /-- The transfers accepted so far. -/
  queued : List QTransfer
  finished : List Finished
  /-- The control blocks whose `io_done` was called. -/
  ioDone : List ℕ
  /-- The descriptors made, each by its transfer and its place in it. -/
  made : List (ℕ × ℕ)
  deriving DecidableEq

/-! ## engine_start -/

def engineStatusRead (s : EngineState) (clear : Bool) : EngineState :=
  { s with
    status := s.errors ||| if s.busy then XDMA_STAT_BUSY else 0
    errors := if clear then 0 else s.errors }

/-- The run bit is cleared. -/
def xdmaEngineStop (s : EngineState) : EngineState := { s with running := false, busy := false }

/-- The hardware starts to count at the first descriptor of the first transfer. `none` is the
null pointer. -/
def engineStart (s : EngineState) : Option EngineState :=
  if s.running then none
  else if s.transferList.isEmpty then none
  else
    let s := { s with
      shutdown := ENGINE_SHUTDOWN_NONE
      descDequeued := 0
      current := s.transferList.head?
      busy := true
      completedDescCount := 0 }
    some { engineStatusRead s false with running := true }

/-! ## transfer_queue -/

/-- The result, and whether the device is marked offline. -/
def transferQueue (s : EngineState) (offline : Bool) (xfer : QTransfer) : ℤ × EngineState :=
  if xfer.descNum = 0 then (-EINVAL, s)
  else if offline then (-EBUSY, s)
  else if s.shutdown &&& ENGINE_SHUTDOWN_REQUEST ≠ 0 then (-EBUSY, s)
  else
    let s := { s with transferList := s.transferList ++ [xfer], queued := s.queued ++ [xfer] }
    if s.running then (0, s) else (0, (engineStart s).getD s)

/-! ## engine_service -/

/-- `list_del` and `engine_transfer_completion` of the first transfer, which ends in `state`. -/
def completeFirst (s : EngineState) (state : TransferState) : EngineState :=
  match s.transferList with
  | [] => s
  | xfer :: xfers =>
    { s with
      transferList := xfers
      finished := s.finished ++ [⟨xfer, state, s.completedDescCount⟩]
      ioDone := if xfer.cb ∧ xfer.lastInRequest then s.ioDone ++ [xfer.id] else s.ioDone }

def dequeue (s : EngineState) (xfer : QTransfer) : EngineState :=
  { s with descDequeued := s.descDequeued + BitVec.ofNat 32 xfer.descNum }

/-- The loop over the transfers of the list, with `*pdesc_completed`. -/
def engineServiceTransferList : List QTransfer → BitVec 32 → EngineState → BitVec 32 × EngineState
  | [], completed, s => (completed, s)
  | xfer :: xfers, completed, s =>
    if xfer.descNum < completed.toNat then
      engineServiceTransferList xfers (completed - BitVec.ofNat 32 xfer.descNum)
        (completeFirst (dequeue s xfer) .completed)
    else (completed, s)

def engineServiceFinalTransfer (s : EngineState) (completed : BitVec 32) : EngineState :=
  match s.transferList with
  | [] => s
  | xfer :: _ =>
    if s.status &&& statErrMask s.dir ≠ 0 then completeFirst (xdmaEngineStop s) .failed
    else if completed.toNat < xfer.descNum then completeFirst (dequeue s xfer) .failed
    else completeFirst (dequeue s xfer) .completed

def engineServiceResume (s : EngineState) : EngineState :=
  if !s.running then
    if !s.transferList.isEmpty then (engineStart s).getD s
    else if s.shutdown &&& ENGINE_SHUTDOWN_REQUEST ≠ 0 then
      { s with shutdown := s.shutdown ||| ENGINE_SHUTDOWN_IDLE }
    else s
  else if s.transferList.isEmpty then xdmaEngineStop s
  else s

/-- The part of `engine_service` that has a descriptor count. -/
def engineServiceCount (s : EngineState) (count : BitVec 32) : EngineState :=
  let (completed, s) := engineServiceTransferList s.transferList (count - s.descDequeued) s
  engineServiceResume (engineServiceFinalTransfer s completed)

def engineService (s : EngineState) (descWriteback : BitVec 32) : EngineState :=
  let count := descWriteback &&& WB_COUNT_MASK
  let errFlag := descWriteback &&& WB_ERR_MASK
  if !s.running then engineStatusRead s true
  else
    let s := if count = 0 ∨ errFlag ≠ 0 then engineStatusRead s true else s
    let s := if s.status &&& XDMA_STAT_BUSY = 0 ∨ count ≠ 0 then xdmaEngineStop s else s
    let count := if count = 0 then BitVec.ofNat 32 s.completedDescCount else count
    if count = 0 then s else engineServiceCount s count

/-! ## The engine at work -/

inductive EngineEvent where
  /-- `transfer_queue` is called. -/
  | queue (offline : Bool) (xfer : QTransfer)
  /-- The hardware makes the next descriptor of its list. -/
  | desc
  /-- It stops with an error. -/
  | fault (errors : BitVec 32)
  /-- `engine_service_work`, after an interrupt. -/
  | work
  /-- `engine_service_poll`, with what the hardware has written back. -/
  | poll

/-- The write-back word: the count, and a bit for an error. -/
def EngineState.writeback (s : EngineState) : BitVec 32 :=
  BitVec.ofNat 32 s.completedDescCount ||| if s.errors = 0 then 0 else WB_ERR_MASK

def engineStep : EngineEvent → EngineState → Option EngineState
  | .queue offline xfer, s => some (transferQueue s offline xfer).2
  | .desc, s =>
    match s.current with
    | none => none
    | some xfer =>
      if s.busy then
        some { s with
          completedDescCount := s.completedDescCount + 1
          made := s.made ++ [(xfer.id, s.completedDescCount)]
          -- the last descriptor of a transfer has the stop bit
          busy := s.completedDescCount + 1 < xfer.descNum }
      else none
  | .fault errors, s =>
    if s.busy ∧ errors &&& statErrMask s.dir ≠ 0 then
      some { s with busy := false, errors := errors &&& statErrMask s.dir }
    else none
  | .work, s => some (engineService s 0)
  | .poll, s => if s.writeback = 0 then some s else some (engineService s s.writeback)

end ZynqSha256.Xdma
