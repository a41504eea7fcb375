import ZynqSha256.Driver.PcieWrite
import ZynqSha256.Driver.XdmaDesc

/-! bench/pcie_linux_driver/libxdma.c, submissions from the request on: `xdma_xfer_submit`
waits for one transfer after the other, `xdma_xfer_submit_nowait` leaves them to
`xdma_xfer_completion`. What becomes of a transfer once it is built is an argument. -/

namespace ZynqSha256.Xdma

open PcieDriver (EIOCBQUEUED)

def ERESTARTSYS : ℤ := 512

/-- A transfer that was built, with the engine as it was then. -/
structure Posted where
  engine : XdmaEngine
  transfer : XdmaTransfer

/-! ## xdma_xfer_submit -/

inductive TransferState where
  | new
  | submitted
  | completed
  | failed
  | aborted
  deriving DecidableEq

/-- What `transfer_queue` answers, and the transfer after the wait: its state and, for an AXI
stream to the host, the results written back for its first `desc_cmpl` descriptors. -/
structure Outcome where
  transferQueue : ℤ
  /-- The wait ends. It need not with a `timeout_ms` of 0. -/
  waitEnds : Bool
  state : TransferState
  descCmpl : ℕ
  results : ℕ → XdmaResult

structure Round extends Posted where
  outcome : Outcome

def Round.completed (r : Round) : Bool :=
  0 ≤ r.outcome.transferQueue ∧ r.outcome.state = .completed

/-- `transfer_destroy`: its descriptors are zeroed. -/
def transferDestroy (engine : XdmaEngine) (xfer : XdmaTransfer) : XdmaEngine :=
  { engine with
    desc := Loops.fill xfer.descVirt xfer.descNum (fun _ _ => ⟨0, 0, 0, 0, 0, 0, 0, 0⟩)
      engine.desc }

/-- The variables of the loop, and the transfers built so far. -/
structure SubmitState where
  engine : XdmaEngine
  req : XdmaRequestCb
  nents : ℕ
  done : ℕ
  rv : ℤ
  rounds : List Round

/-- What a completed transfer adds to `done`. -/
def doneBytes (engine : XdmaEngine) (xfer : XdmaTransfer) (o : Outcome) : ℕ :=
  if engine.streaming ∧ engine.dir = .fromDevice then
    ((List.range o.descCmpl).map fun i => (o.results i).length.toNat).sum
  else xfer.len.toNat

/-- One round, and whether the loop goes on; `none` if it does not end. -/
def submitRound (o : Outcome) (s : SubmitState) : Option (SubmitState × Bool) :=
  (transferInit s.engine s.req).bind fun (engine, req, xfer) =>
    let nents := s.nents - xfer.descNum
    let rounds := s.rounds ++ [⟨⟨engine, xfer⟩, o⟩]
    if o.transferQueue < 0 then
      -- desc_used keeps what transfer_init has added
      some (⟨engine, req, nents, s.done, o.transferQueue, rounds⟩, false)
    else if !o.waitEnds then none
    else
      let after := transferDestroy { engine with descUsed := engine.descUsed - xfer.descNum } xfer
      match o.state with
      | .completed =>
        let finished := engine.streaming ∧ engine.dir = .fromDevice ∧ engine.eopFlush
        some (⟨after, req, if finished then 0 else nents, s.done + doneBytes engine xfer o, 0,
          rounds⟩, true)
      | .failed => some (⟨after, req, nents, s.done, - PcieDriver.EIO, rounds⟩, false)
      | _ => some (⟨after, req, nents, s.done, -ERESTARTSYS, rounds⟩, false)

/-- `while (nents)`, where the `i`-th transfer meets `outcomes i`. -/
def submitLoop (outcomes : ℕ → Outcome) : ℕ → SubmitState → Option SubmitState
  | 0, s => if s.nents = 0 then some s else none
  | fuel + 1, s =>
    if s.nents = 0 then some s
    else
      (submitRound (outcomes s.rounds.length) s).bind fun (s, go) =>
        if go then submitLoop outcomes fuel s else some s

/-- The loop with what it starts from. -/
def submitTransfers (engine : XdmaEngine) (req : XdmaRequestCb) (outcomes : ℕ → Outcome)
    (fuel : ℕ) : Option SubmitState :=
  submitLoop outcomes fuel ⟨engine, req, req.sdesc.length, 0, 0, []⟩

/-- `done ? done : rv`. -/
def SubmitState.ret (s : SubmitState) : ℤ := if s.done ≠ 0 then s.done else s.rv

/-! ## xdma_xfer_submit_nowait -/

/-- The variables of the loop; `tfer_idx` is the number of transfers queued so far, and
`transfers` are those written to `tfer`. -/
structure NowaitState where
  engine : XdmaEngine
  req : XdmaRequestCb
  nents : ℕ
  transfers : List XdmaTransfer

inductive NowaitEnd where
  | ret (rv : ℤ)
  /-- A third transfer is built over what follows `tfer[2]`: `cb`, `sw_desc_idx`, `sw_desc_cnt` and
  the pieces. -/
  | overrun
  deriving DecidableEq

/-- `while (nents)`, where `transfer_queue` answers `queue i` to the `i`-th transfer. -/
def nowaitLoop (queue : ℕ → ℤ) : ℕ → NowaitState → Option (NowaitEnd × NowaitState)
  | 0, s => if s.nents = 0 then some (.ret (-EIOCBQUEUED), s) else none
  | fuel + 1, s =>
    if s.nents = 0 then some (.ret (-EIOCBQUEUED), s)
    else if 2 ≤ s.transfers.length then some (.overrun, s)
    else
      (transferInit s.engine s.req).bind fun (engine, req, xfer) =>
        let rv := queue s.transfers.length
        let s := ⟨engine, req, s.nents - xfer.descNum, s.transfers ++ [xfer]⟩
        if rv < 0 then some (.ret rv, s) else nowaitLoop queue fuel s

def nowaitTransfers (engine : XdmaEngine) (req : XdmaRequestCb) (queue : ℕ → ℤ) (fuel : ℕ) :
    Option (NowaitEnd × NowaitState) :=
  nowaitLoop queue fuel ⟨engine, req, req.sdesc.length, []⟩

/-! ## Descriptors in use -/

/-- An engine and the transfers built and not yet given back, oldest first. -/
structure RingState where
  engine : XdmaEngine
  live : List Posted

/-- A submission builds a transfer; `xdma_xfer_completion` gives back the oldest one. -/
inductive RingEvent where
  | build (req : XdmaRequestCb)
  | retire

def ringStep : RingEvent → RingState → Option RingState
  | .build req, s =>
    (transferInit s.engine req).map fun (engine, _, xfer) => ⟨engine, s.live ++ [⟨engine, xfer⟩]⟩
  | .retire, s =>
    match s.live with
    | [] => none
    | t :: live =>
      let engine := transferDestroy s.engine t.transfer
      some ⟨{ engine with descUsed := engine.descUsed - t.transfer.descNum }, live⟩

end ZynqSha256.Xdma
