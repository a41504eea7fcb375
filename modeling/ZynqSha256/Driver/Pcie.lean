import ZynqSha256.Rtl.Sha256

/-! bench/pcie_linux_driver/hsha256.c with what it needs of libxdma.c: the file
operations, the engine that works through its list of transfers at its own pace, and
the completion handler, as steps that happen in any order. `session` and `written`,
and the session beside each word, are history. -/

namespace ZynqSha256.PcieDriver

open Fips180 (Word)

def EBUSY : ℤ := 16
def EINVAL : ℤ := 22
def POLLIN : BitVec 32 := 0x1
def POLLOUT : BitVec 32 := 0x4

/-- A request on `engine->transfer_list`, its two transfers at most taken as one, with the words
the core has yet to take. -/
structure Transfer where
  session : ℕ
  words : List Word
  deriving DecidableEq

structure Device where
  deviceOpen : Bool
  submitCnt : BitVec 32
  transferList : List Transfer
  /-- Writers between `xdma_xfer_submit_nowait` and `submit_cnt += 1`. -/
  submitting : ℕ
  /-- What the core has absorbed since its last reset. -/
  core : List (ℕ × Word)
  session : ℕ
  written : List Word
  deriving DecidableEq

namespace Device

def init : Device where
  deviceOpen := false
  submitCnt := 0
  transferList := []
  submitting := 0
  core := []
  session := 0
  written := []

/-- `iowrite32(SHA256_STATUS_RESET, &sha256->unit->status)`. -/
def resetCore (d : Device) : Device := { d with core := [] }

def sha256Open (d : Device) : ℤ × Device :=
  if d.deviceOpen then (-EBUSY, d)
  else (0, { d.resetCore with
    deviceOpen := true, submitCnt := 0, session := d.session + 1, written := [] })

def sha256Release (d : Device) : ℤ × Device := (0, { d with deviceOpen := false })

def sha256Flush (d : Device) : ℤ × Device := (0, d.resetCore)

def sha256Poll (d : Device) : BitVec 32 := if d.submitCnt = 0 then POLLOUT ||| POLLIN else 0

/-- A request is on the list with its pieces. `while (nents)` queues nothing for one without. -/
def xdmaXferSubmitNowait (words : List Word) (d : Device) : Device :=
  if words = [] then d else { d with transferList := d.transferList ++ [⟨d.session, words⟩] }

/-- `char_sgdma_read_write` without `block`, up to `xdma_xfer_submit_nowait`. Without words
`buf` is inside a page: at the start of one there is no page to map, and the call fails. -/
def submitNowait (words : List Word) (d : Device) : Device :=
  { d.xdmaXferSubmitNowait words with
    submitting := d.submitting + 1
    written := d.written ++ words }

/-- The rest of `char_sgdma_read_write`. -/
def countSubmit (d : Device) : Device :=
  { d with submitCnt := d.submitCnt + 1, submitting := d.submitting - 1 }

/-- `transfer_io_handler` for the transfer at the head of the list. -/
def transferIoHandler (d : Device) : Device :=
  { d with submitCnt := d.submitCnt - 1, transferList := d.transferList.tail }

/-- The next word of the list, in order, and the list without it. -/
def nextWord : List Transfer → Option ((ℕ × Word) × List Transfer)
  | [] => none
  | t :: ts =>
    match t.words with
    | [] => (nextWord ts).map fun (p, ts') => (p, t :: ts')
    | w :: ws => some ((t.session, w), { t with words := ws } :: ts)

/-- The core takes the next word. -/
def deliver (d : Device) : Option Device :=
  (nextWord d.transferList).map fun (p, ts) => { d with transferList := ts, core := d.core ++ [p] }

end Device

inductive Event where
  | sha256Open
  | submitNowait (words : List Word)
  | countSubmit
  | deliver
  | transferIoHandler
  | sha256Flush
  | sha256Poll
  | sha256Release

/-- The file operations need an open file; `release` waits for its calls to return. -/
def step : Event → Device → Option Device
  | .sha256Open, d => some d.sha256Open.2
  | .submitNowait words, d => if d.deviceOpen then some (d.submitNowait words) else none
  | .countSubmit, d => if 0 < d.submitting then some d.countSubmit else none
  | .deliver, d => d.deliver
  | .transferIoHandler, d =>
    match d.transferList.head? with
    | some t => if t.words = [] then some d.transferIoHandler else none
    | none => none
  | .sha256Flush, d => if d.deviceOpen then some d.sha256Flush.2 else none
  | .sha256Poll, d => if d.deviceOpen then some d else none
  | .sha256Release, d =>
    if d.deviceOpen && d.submitting = 0 then some d.sha256Release.2 else none

end ZynqSha256.PcieDriver
