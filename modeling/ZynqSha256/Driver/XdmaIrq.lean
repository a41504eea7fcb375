import ZynqSha256.Driver.XdmaEngine

/-! bench/pcie_linux_driver/libxdma.c without `poll_mode`: the interrupt of an engine, its handler
and `engine_service_work`, beside the tasks that submit transfers and the hardware, as steps that
happen in any order. -/

namespace ZynqSha256.Xdma

/-! ## libxdma.h -/

def XDMA_CTRL_IE_DESC_STOPPED : BitVec 32 := 1 <<< 1
def XDMA_CTRL_IE_DESC_COMPLETED : BitVec 32 := 1 <<< 2
def XDMA_CTRL_IE_DESC_ALIGN_MISMATCH : BitVec 32 := 1 <<< 3
def XDMA_CTRL_IE_MAGIC_STOPPED : BitVec 32 := 1 <<< 4
def XDMA_CTRL_IE_READ_ERROR : BitVec 32 := 0x1f <<< 9
def XDMA_CTRL_IE_DESC_ERROR : BitVec 32 := 0x1f <<< 19

def XDMA_STAT_DESC_STOPPED : BitVec 32 := 1 <<< 1
def XDMA_STAT_DESC_COMPLETED : BitVec 32 := 1 <<< 2

/-- `interrupt_enable_mask_value`, as `engine_init_regs` sets it. -/
def interruptEnableMaskValue : BitVec 32 :=
  XDMA_CTRL_IE_DESC_ALIGN_MISMATCH ||| XDMA_CTRL_IE_MAGIC_STOPPED ||| XDMA_CTRL_IE_READ_ERROR |||
    XDMA_CTRL_IE_DESC_ERROR ||| XDMA_CTRL_IE_DESC_STOPPED ||| XDMA_CTRL_IE_DESC_COMPLETED

/-! ## Interrupts -/

structure IrqState where
  engine : EngineState
  /-- `XDMA_STAT_DESC_STOPPED` and `XDMA_STAT_DESC_COMPLETED` of the status register, until it is
  read and cleared. -/
  stopped : Bool
  /-- The interrupts of the engine are enabled. -/
  enabled : Bool
  /-- `engine->work` is scheduled. -/
  work : Bool
  /-- `engine_service_work` has served the engine and still holds the lock. -/
  serving : Bool

def IrqState.init (engine : EngineState) : IrqState := ⟨engine, false, true, false, false⟩

def IrqState.statusBits (s : IrqState) : BitVec 32 :=
  s.engine.errors ||| if s.stopped then XDMA_STAT_DESC_STOPPED ||| XDMA_STAT_DESC_COMPLETED else 0

/-- The interrupt is requested. -/
def IrqState.request (s : IrqState) : Bool :=
  s.enabled && s.statusBits &&& interruptEnableMaskValue ≠ 0

inductive IrqEvent where
  | queue (offline : Bool) (xfer : QTransfer)
  | desc
  | fault (errors : BitVec 32)
  /-- `xdma_isr` or `xdma_channel_irq`. -/
  | isr
  /-- `engine_service` in `engine_service_work`, -/
  | service
  /-- and the rest of it. -/
  | enable

def irqStep : IrqEvent → IrqState → Option IrqState
  | .queue offline xfer, s =>
    -- the lock of the engine is taken
    if s.serving then none else some { s with engine := (transferQueue s.engine offline xfer).2 }
  | .desc, s =>
    -- only the last descriptor of a transfer has the flags that set the two bits
    (engineStep .desc s.engine).map fun engine =>
      { s with engine := engine, stopped := s.stopped || !engine.busy }
  | .fault errors, s =>
    (engineStep (.fault errors) s.engine).map fun engine => { s with engine := engine }
  | .isr, s => if s.request then some { s with enabled := false, work := true } else none
  | .service, s =>
    if s.work && !s.serving then
      some { s with engine := engineService s.engine 0, stopped := false, work := false, serving := true }
    else none
  | .enable, s => if s.serving then some { s with enabled := true, serving := false } else none

end ZynqSha256.Xdma
