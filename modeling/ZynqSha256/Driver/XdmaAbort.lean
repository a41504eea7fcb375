import ZynqSha256.Driver.XdmaEngine

/-! bench/pcie_linux_driver/libxdma.c: `transfer_abort`, and the end of a wait in
`xdma_xfer_submit`, after which the request is freed with its transfer, beside everything else
that happens to the engine. -/

namespace ZynqSha256.Xdma

open PcieDriver (EINVAL)

/-- `head == transfer`: a transfer is told by its `id`. -/
def transferAbort (s : EngineState) (transfer : QTransfer) : ℤ × EngineState :=
  if transfer.descNum = 0 then (-EINVAL, s)
  else
    match s.transferList with
    | [] => (0, s)
    | head :: rest => (0, if head.id = transfer.id then { s with transferList := rest } else s)

/-- What `xdma_xfer_submit` does to the engine when the wait ends and the transfer has not; whether
`engine_reg_dump` finds the registers is an argument. -/
def waitOver (s : EngineState) (xfer : QTransfer) (dumped : Bool) : EngineState :=
  if !dumped then s
  else
    let (rv, s) := transferAbort (engineStatusRead s false) xfer
    if rv = 0 then xdmaEngineStop s else s

/-- The engine, and the transfers whose request is freed. -/
structure AbortState where
  engine : EngineState
  freed : List ℕ

inductive AbortEvent where
  | engine (ev : EngineEvent)
  /-- The task that waits for the transfer finds it at its end, and frees the request. -/
  | ended (xfer : QTransfer)
  /-- The time is over, or there is a signal, before that. -/
  | timeout (xfer : QTransfer) (dumped : Bool)

def abortStep : AbortEvent → AbortState → Option AbortState
  | .engine ev, t => (engineStep ev t.engine).map fun engine => { t with engine := engine }
  | .ended xfer, t =>
    if xfer ∈ t.engine.finished.map Finished.transfer ∧ xfer.id ∉ t.freed then
      some { t with freed := t.freed ++ [xfer.id] }
    else none
  | .timeout xfer dumped, t =>
    if xfer ∈ t.engine.transferList ∧ xfer.id ∉ t.freed then
      some ⟨waitOver t.engine xfer dumped, t.freed ++ [xfer.id]⟩
    else none

end ZynqSha256.Xdma
