import ZynqSha256.Driver.Zynq

/-! bench/zynq_linux_driver/hsha256_ops.c: `sha256_open` and `sha256_release` around the calls on
an open file, as steps that happen in any order. Every allocation of `tx_buf` succeeds. -/

namespace ZynqSha256.ZynqDriver

/-- The calls that need an open file. -/
def Event.onFile : Event → Bool
  | .sha256Write _ | .sha256Read => true
  | _ => false

/-- `struct sha256_driver_data` with the tasks in `sha256_open` and `sha256_release`. A buffer is
the number of its allocation. -/
structure Session where
  data : DriverData
  inited : Bool
  txBuf : Option ℕ
  /-- The buffers allocated so far, -/
  allocs : ℕ
  /-- and those given to `dma_free_coherent`. -/
  freed : List ℕ
  /-- The tasks in `sha256_open` past the test of `inited`, -/
  tested : ℕ
  /-- past the allocation, -/
  allocated : ℕ
  /-- those that have the file open, -/
  files : ℕ
  /-- and those in `sha256_release` past `dma_free_coherent`. -/
  releasing : ℕ
  /-- What the descriptor on the channel reads. -/
  dmaFrom : Option ℕ

/-- After `sha256_probe`. -/
def Session.init : Session := ⟨.init, false, none, 0, [], 0, 0, 0, 0, none⟩

inductive SessionEvent where
  | sha256Open
  | dmaAlloc
  | setInited
  | sha256Release
  | clearInited
  | call (e : Event)
  deriving DecidableEq

/-- The last file is released when its calls have returned. -/
def sessionStep : SessionEvent → Session → Option Session
  | .sha256Open, s => some (if s.inited then s else { s with tested := s.tested + 1 })
  | .dmaAlloc, s =>
    if s.tested = 0 then none
    else some { s with
      tested := s.tested - 1
      allocated := s.allocated + 1
      txBuf := some s.allocs
      allocs := s.allocs + 1 }
  | .setInited, s =>
    if s.allocated = 0 then none
    else some { s with allocated := s.allocated - 1, files := s.files + 1, inited := true }
  | .sha256Release, s =>
    if s.files = 0 ∨ (s.files = 1 ∧ (s.data.writer ≠ .out ∨ s.data.reader ≠ .out)) then none
    else some { s with
      files := s.files - 1
      releasing := s.releasing + 1
      freed := s.freed ++ s.txBuf.toList }
  | .clearInited, s =>
    if s.releasing = 0 then none else some { s with releasing := s.releasing - 1, inited := false }
  | .call e, s =>
    if e.onFile = true ∧ s.files = 0 then none
    else (step e s.data).map fun data =>
      { s with data := data, dmaFrom := if e = .issuePending then s.txBuf else s.dmaFrom }

end ZynqSha256.ZynqDriver
