import ZynqSha256.Fips.Padding

/-! bench/zynq_linux_driver/hsha256_ops.c: `sha256_write` on its own, with the channel as it
finds it and what each pass of its loop meets, and the tasks in `sha256_write` and `sha256_read` beside `dma_callback`
as steps that happen in any order. -/

namespace ZynqSha256.ZynqDriver

open Fips180 (Byte Word)

def PAGE_SIZE : ℕ := 0x1000
def DMA_BUF_SIZE : ℕ := PAGE_SIZE * 0x100

/-- `copied` and `count` of a call of `sha256_write`. -/
structure Call where
  copied : ℕ
  count : ℕ
  deriving DecidableEq

namespace Call

/-- `count &= ~(0x04 - 1)`. -/
def start (count : ℕ) : Call := ⟨0, count / 4 * 4⟩

def shouldCopy (c : Call) : ℕ := min DMA_BUF_SIZE (c.count - c.copied)

/-- `copied += should_copy`. -/
def next (c : Call) : Call := { c with copied := c.copied + c.shouldCopy }

theorem shouldCopy_pos {c : Call} (h : c.copied < c.count) : 0 < c.shouldCopy :=
  lt_min (by decide) (Nat.sub_pos_of_lt h)

theorem shouldCopy_le (c : Call) : c.shouldCopy ≤ c.count - c.copied := min_le_right _ _

theorem dvd_shouldCopy {c : Call} (hc : 4 ∣ c.copied) (hn : 4 ∣ c.count) : 4 ∣ c.shouldCopy := by
  have hbuf : 4 ∣ DMA_BUF_SIZE := by decide
  rcases min_choice DMA_BUF_SIZE (c.count - c.copied) with hmin | hmin
  · rw [shouldCopy, hmin]
    exact hbuf
  · rw [shouldCopy, hmin]
    exact Nat.dvd_sub hn hc

theorem next_le {c : Call} (h : c.copied < c.count) : c.next.copied ≤ c.next.count := by
  have hsize := c.shouldCopy_le
  change c.copied + c.shouldCopy ≤ c.count
  omega

end Call

/-! ## One call -/

/-- What a pass of the loop meets. -/
structure Pass where
  copyError : Bool
  noDesc : Bool
  interrupted : Bool
  deriving DecidableEq

/-- Nothing fails. -/
def Pass.ok (p : Pass) : Bool := !p.copyError && !p.noDesc && !p.interrupted

/-- The descriptor is issued and the wait for it ends with a signal. -/
def Pass.cut (p : Pass) : Bool := !p.copyError && !p.noDesc && p.interrupted

/-- The bytes that a pass of the loop copies to `tx_buf`. -/
def txBuf (buf : List Byte) (c : Call) : List Byte := (buf.drop c.copied).take c.shouldCopy

theorem txBuf_length {buf : List Byte} {c : Call} (hc : c.count ≤ buf.length)
    (h : c.copied < c.count) : (txBuf buf c).length = c.shouldCopy := by
  have hsize := c.shouldCopy_le
  rw [txBuf, List.length_take, List.length_drop]
  omega

/-- The stream words of a buffer: its first byte is TDATA[7:0]. -/
def axisWords : List Byte → List Word
  | a :: b :: c :: d :: m => (d ++ c ++ b ++ a) :: axisWords m
  | _ => []

/-- The channel when a call comes to issue its first descriptor. `dma_callback` runs as a whole
here; its steps among those of the tasks are below. -/
inductive ChanState where
  /-- No descriptor is issued and no callback runs. -/
  | idle
  /-- A descriptor of an earlier call is still issued. Its callback terminates the channel when
  the core has taken so many bytes of the new one, and clears `busy`. -/
  | older (taken : ℕ)
  deriving DecidableEq

/-- What a descriptor issued then carries to the core. -/
def ChanState.carries : ChanState → List Byte → List Byte
  | .idle, m => m
  | .older taken, m => m.take taken

/-- The passes from the `k`-th on: `copied` at `write_err`, and the bytes that the
descriptors issued on the way carry to the core. A wait that `busy = 0` ends leaves the
channel idle. -/
def chunkLoop (buf : List Byte) (pass : ℕ → Pass) (chan : ChanState) (k : ℕ) (c : Call) :
    Call × List Byte :=
  if c.copied < c.count then
    if (pass k).copyError then (c, [])
    else if (pass k).noDesc then (c, [])
    else if (pass k).interrupted then (c, chan.carries (txBuf buf c))
    else
      let rest := chunkLoop buf pass .idle (k + 1) c.next
      (rest.1, chan.carries (txBuf buf c) ++ rest.2)
  else (c, [])
termination_by c.count - c.copied
decreasing_by
  have hpos := Call.shouldCopy_pos ‹c.copied < c.count›
  change c.count - (c.copied + c.shouldCopy) < c.count - c.copied
  omega

/-- What a call leaves behind: the value returned, `writen` and the bytes for the core. -/
structure Written where
  ret : ℤ
  writen : BitVec 32
  sent : List Byte

def sha256Write (buf : List Byte) (pass : ℕ → Pass) (chan : ChanState) (writen : BitVec 32) :
    Written :=
  let ret : ℤ := 0
  let (c, sent) := chunkLoop buf pass chan 0 (.start buf.length)
  { ret := if ret = 0 then c.copied else ret
    writen := writen + BitVec.ofNat 32 c.copied
    sent := sent }

/-! ## The tasks and the callback -/

/-- Where the task in `sha256_write` is. -/
inductive Writer where
  | out
  /-- Inside `while (copied < count)`, before the descriptor is issued. -/
  | loop (c : Call)
  /-- Before `busy = 1`. -/
  | issued (c : Call)
  /-- At the test of `wait_event_interruptible`. -/
  | waiting (c : Call)
  /-- On `w_wqh`. -/
  | asleep (c : Call)
  deriving DecidableEq

/-- The test of the loop. -/
def Writer.enter (c : Call) : Writer := if c.copied < c.count then .loop c else .out

/-- `wake_up_interruptible(&drv_data->w_wqh)`: a task on the queue tests again. -/
def Writer.wakeUp : Writer → Writer
  | .asleep c => .waiting c
  | w => w

/-- Where the task in a blocking `sha256_read` is. -/
inductive Reader where
  | out
  | waiting
  | asleep
  deriving DecidableEq

/-- `wake_up_interruptible(&drv_data->r_wqh)`. -/
def Reader.wakeUp : Reader → Reader
  | .asleep => .waiting
  | r => r

/-- What `dma_callback` does next. -/
inductive Callback where
  | none
  | wakeReader
  | wakeWriter
  | terminateAll
  | clearBusy
  deriving DecidableEq

structure DriverData where
  busy : Bool
  /-- A descriptor is issued and not terminated. -/
  chan : Bool
  /-- `SHA256_IS_BUSY`. -/
  unit : Bool
  writer : Writer
  reader : Reader
  callback : Callback
  deriving DecidableEq

def DriverData.init : DriverData := ⟨false, false, false, .out, .out, .none⟩

inductive Event where
  | sha256Write (count : ℕ)
  | issuePending
  | writeErr
  | setBusy
  | testBusy
  | signalWriter
  | dmaCallback
  | wakeReader
  | wakeWriter
  | terminateAll
  | clearBusy
  | sha256Read
  | testUnit
  | signalReader
  | unitStarts
  | unitFinishes
  deriving DecidableEq

open Writer in
/-- The core starts a block on words of the channel and finishes it by itself. -/
def step (e : Event) (d : DriverData) : Option DriverData :=
  match e with
  | .sha256Write count =>
    if d.writer = out then some { d with writer := enter (.start count) } else none
  | .issuePending =>
    match d.writer with
    | loop c => some { d with chan := true, writer := issued c }
    | _ => none
  | .writeErr =>
    match d.writer with
    | loop _ => some { d with writer := out }
    | _ => none
  | .setBusy =>
    match d.writer with
    | issued c => some { d with busy := true, writer := waiting c }
    | _ => none
  | .testBusy =>
    match d.writer with
    | waiting c => some { d with writer := if d.busy then asleep c else enter c.next }
    | _ => none
  | .signalWriter =>
    match d.writer with
    | asleep _ => some { d with writer := out }
    | _ => none
  | .dmaCallback =>
    if d.chan && d.callback = .none then some { d with callback := .wakeReader } else none
  | .wakeReader =>
    if d.callback = .wakeReader then
      some { d with
        callback := .wakeWriter
        reader := if d.unit then d.reader else d.reader.wakeUp }
    else none
  | .wakeWriter =>
    if d.callback = .wakeWriter then
      some { d with callback := .terminateAll, writer := d.writer.wakeUp }
    else none
  | .terminateAll =>
    if d.callback = .terminateAll then some { d with callback := .clearBusy, chan := false } else none
  | .clearBusy =>
    if d.callback = .clearBusy then some { d with callback := .none, busy := false } else none
  | .sha256Read =>
    if d.reader = .out then some { d with reader := if d.unit then .waiting else .out } else none
  | .testUnit =>
    if d.reader = .waiting then some { d with reader := if d.unit then .asleep else .out } else none
  | .signalReader => if d.reader = .asleep then some { d with reader := .out } else none
  | .unitStarts => if d.chan then some { d with unit := true } else none
  | .unitFinishes => if d.unit then some { d with unit := false } else none

end ZynqSha256.ZynqDriver
