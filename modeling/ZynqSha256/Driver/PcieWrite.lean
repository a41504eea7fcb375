import ZynqSha256.Driver.Pcie

/-! bench/pcie_linux_driver/hsha256.c, the write path, and what it takes from
`xdma_xfer_submit_nowait` of libxdma.c, as a ledger of what is acquired and released.
Whatever a sub-step may answer is an argument. -/

namespace ZynqSha256.PcieDriver

def EIO : ℤ := 5
def ENOMEM : ℤ := 12
def EFAULT : ℤ := 14
def EIOCBQUEUED : ℤ := 529

/-! ## The ledger -/

/-- The control block, its array of page pointers, the reference to the `i`-th pinned
page, and the scatter table. -/
inductive Resource where
  | cb
  | pages
  | page (i : ℕ)
  | sgt
  deriving DecidableEq

structure Ledger where
  acquired : List Resource
  released : List Resource
  deriving DecidableEq

/-- The references to the first `n` pages. -/
def pageRefs (n : ℕ) : List Resource := (List.range n).map Resource.page

/-- `struct xdma_io_cb`, with the lengths of the entries of its scatter table. -/
structure XdmaIoCb where
  buf : BitVec 64
  len : BitVec 64
  pagesNr : ℕ
  sgt : List ℕ
  /-- `none` is the null pointer, also in the array. -/
  pages : Option (List (Option ℕ))

/-! ## Mapping the user buffer -/

def PAGE_SIZE : ℕ := 4096
def PAGE_SHIFT : ℕ := 12
def offsetInPage (buf : BitVec 64) : BitVec 64 := buf &&& 0xfff

/-- `((buf + len + PAGE_SIZE - 1) - (buf & PAGE_MASK)) >> PAGE_SHIFT`, as an `unsigned int`. -/
def pagesNr (buf len : BitVec 64) : ℕ :=
  (((buf + len + 4096 - 1 - (buf &&& ~~~0xfff)) >>> PAGE_SHIFT).setWidth 32).toNat

/-- `char_sgdma_unmap_user_buf`: the block afterwards and what is released. -/
def charSgdmaUnmapUserBuf (cb : XdmaIoCb) : XdmaIoCb × List Resource :=
  match cb.pages with
  | none => (cb, [.sgt])
  | some pages =>
    if cb.pagesNr = 0 then (cb, [.sgt])
    else
      -- put_page up to the first null pointer
      let i := ((pages.take cb.pagesNr).takeWhile Option.isSome).length
      ({ cb with pages := none }, .sgt :: pageRefs i ++ [.pages])

/-- `get_user_pages_fast`: an error, or the pages it pins of those asked for. -/
inductive Gup where
  | error (rv : { rv : ℤ // rv < 0 })
  | pinned (pages : List ℕ)

structure MapOutcomes where
  sgAllocTable : Bool
  kcalloc : Bool
  getUserPagesFast : Gup

structure MapResult where
  rv : ℤ
  cb : XdmaIoCb
  ledger : Ledger

/-- `pages[i - 1] == pages[i]` for some `i`. -/
def duplicatePages (pages : List ℕ) : Bool := (pages.zip pages.tail).any fun (p, q) => p == q

/-- The loop of `sg_set_page`: the lengths it sets, and what is left of the buffer. -/
def sgSetPages : ℕ → BitVec 64 → BitVec 64 → List ℕ × BitVec 64
  | 0, _, len => ([], len)
  | n + 1, buf, len =>
    let nbytes := min (PAGE_SIZE - (offsetInPage buf).toNat) (len.setWidth 32).toNat
    let (sgt, left) := sgSetPages n (buf + BitVec.ofNat 64 nbytes) (len - BitVec.ofNat 64 nbytes)
    (nbytes :: sgt, left)

/-- The label `err_out`. -/
def errOut (rv : ℤ) (cb : XdmaIoCb) (acquired : List Resource) : MapResult :=
  ⟨rv, (charSgdmaUnmapUserBuf cb).1, ⟨acquired, (charSgdmaUnmapUserBuf cb).2⟩⟩

/-- The array of `n` pointers after `pages` have been pinned. -/
def XdmaIoCb.withPages (n : ℕ) (pages : List ℕ) (cb : XdmaIoCb) : XdmaIoCb :=
  { cb with pages := some (pages.map some ++ List.replicate (n - pages.length) none) }

/-- The rest of `char_sgdma_map_user_buf_to_sgl` once `pages` of the `n` pages are pinned. -/
def mapPinned (n : ℕ) (pages : List ℕ) (cb : XdmaIoCb) : MapResult :=
  let acquired := [.sgt, .pages] ++ pageRefs pages.length
  let cb := cb.withPages n pages
  if pages.length ≠ n then errOut (-EFAULT) { cb with pagesNr := pages.length } acquired
  else if duplicatePages pages then errOut (-EFAULT) { cb with pagesNr := n } acquired
  else
    let cb := { cb with sgt := (sgSetPages n cb.buf cb.len).1 }
    if (sgSetPages n cb.buf cb.len).2 ≠ 0 then ⟨-EINVAL, cb, ⟨acquired, []⟩⟩
    else ⟨0, { cb with pagesNr := n }, ⟨acquired, []⟩⟩

def charSgdmaMapUserBufToSgl (o : MapOutcomes) (cb : XdmaIoCb) : MapResult :=
  let n := pagesNr cb.buf cb.len
  if n = 0 then ⟨-EINVAL, cb, ⟨[], []⟩⟩
  else if !o.sgAllocTable then ⟨-ENOMEM, cb, ⟨[], []⟩⟩
  else if !o.kcalloc then errOut (-ENOMEM) cb [.sgt]
  else
    match o.getUserPagesFast with
    | .error rv => errOut rv (cb.withPages n []) [.sgt, .pages]
    | .pinned pages => mapPinned n (pages.take n) cb

/-! ## Submitting -/

structure TransferOutcome where
  transferInit : ℤ
  transferQueue : ℤ

structure SubmitOutcomes where
  devHndl : Bool
  debugCheckDevHndl : ℤ
  channelOk : Bool
  magicOk : Bool
  offline : Bool
  dirOk : Bool
  pciMapSg : ℕ
  initRequest : Bool
  /-- The transfers the request is cut into, the last one being `last_in_request`. -/
  tfer : TransferOutcome
  tfers : List TransferOutcome

/-- An entry without bytes gets no descriptor, and a request without descriptors no transfer. -/
def SubmitOutcomes.transfers (o : SubmitOutcomes) (sgt : List ℕ) : List TransferOutcome :=
  if sgt.all (· == 0) then [] else o.tfer :: o.tfers

/-- The result, and the `err` of every call of `io_done`, that of the completion of a
queued last transfer included. -/
structure SubmitResult where
  rv : ℤ
  ioDone : List ℤ

/-- The loop over the transfers. -/
def submitTransfers : List TransferOutcome → SubmitResult
  | [] => ⟨-EIOCBQUEUED, []⟩
  | t :: ts =>
    if t.transferInit < 0 then ⟨t.transferInit, [-EBUSY]⟩
    else if t.transferQueue < 0 then ⟨t.transferQueue, []⟩
    else if ts.isEmpty then ⟨-EIOCBQUEUED, [0]⟩
    else submitTransfers ts

def xdmaXferSubmitNowait (o : SubmitOutcomes) (sgt : List ℕ) : SubmitResult :=
  if !o.devHndl then ⟨-EINVAL, []⟩
  else if o.debugCheckDevHndl < 0 then ⟨-EINVAL, []⟩
  else if !o.channelOk then ⟨-EINVAL, []⟩
  else if !o.magicOk then ⟨-EINVAL, []⟩
  else if o.offline then ⟨-EBUSY, []⟩
  else if !o.dirOk then ⟨-EINVAL, []⟩
  else if o.pciMapSg = 0 then ⟨- EIO, []⟩
  else if !o.initRequest then ⟨-ENOMEM, []⟩
  else submitTransfers (o.transfers sgt)

/-- `transfer_io_handler`, when `xcdev_check` answers `check`: what is released. -/
def transferIoHandler (check : ℤ) (cb : XdmaIoCb) : List Resource :=
  if check < 0 then [] else (charSgdmaUnmapUserBuf cb).2 ++ [.cb]

/-! ## sha256_write -/

/-- What `check_transfer_align` reads of the engine. -/
structure EngineAlign where
  nonIncrAddr : Bool
  addrAlign : BitVec 8
  lenGranularity : BitVec 8

def checkTransferAlign (e : EngineAlign) (buf count pos : BitVec 64) : ℤ :=
  let bufLsb := buf.setWidth 32 &&& (e.addrAlign.setWidth 32 - 1)
  let lenLsb := count &&& (e.lenGranularity.setWidth 64 - 1)
  let posLsb := pos.setWidth 32 &&& (e.addrAlign.setWidth 32 - 1)
  if e.nonIncrAddr then
    if bufLsb ≠ 0 then -EINVAL
    else if posLsb ≠ 0 then -EINVAL
    else if lenLsb ≠ 0 then -EINVAL
    else 0
  else if bufLsb ≠ posLsb then -EINVAL
  else 0

structure WriteCall where
  buf : BitVec 64
  count : BitVec 64
  pos : BitVec 64
  block : Bool

structure Outcomes where
  xcdevCheck : ℤ
  dirToDevice : Bool
  align : EngineAlign
  kzalloc : Bool
  map : MapOutcomes
  xdmaXferSubmit : ℤ
  submit : SubmitOutcomes
  /-- `xcdev_check` when `transfer_io_handler` calls it. -/
  handlerCheck : ℤ

structure WriteResult where
  ret : ℤ
  ledger : Ledger
  deriving DecidableEq

/-- `char_sgdma_read_write` for a write, with the callbacks its submission makes; `none`
if the null pointer of a failed `kzalloc` is written through. -/
def sha256Write (c : WriteCall) (o : Outcomes) : Option WriteResult :=
  let nothing : Ledger := ⟨[], []⟩
  let cb : XdmaIoCb := ⟨c.buf, c.count, 0, [], none⟩
  let align := checkTransferAlign o.align c.buf c.count c.pos
  if o.xcdevCheck < 0 then some ⟨o.xcdevCheck, nothing⟩
  else if !o.dirToDevice then some ⟨-EINVAL, nothing⟩
  else if align ≠ 0 then some ⟨align, nothing⟩
  else if c.block then
    let m := charSgdmaMapUserBufToSgl o.map cb
    if m.rv < 0 then some ⟨m.rv, m.ledger⟩
    else
      some ⟨o.xdmaXferSubmit,
        ⟨m.ledger.acquired, m.ledger.released ++ (charSgdmaUnmapUserBuf m.cb).2⟩⟩
  else if !o.kzalloc then none
  else
    let m := charSgdmaMapUserBufToSgl o.map cb
    if m.rv < 0 then some ⟨m.rv, ⟨.cb :: m.ledger.acquired, m.ledger.released ++ [.cb]⟩⟩
    else
      let s := xdmaXferSubmitNowait o.submit m.cb.sgt
      let released := s.ioDone.flatMap fun _ => transferIoHandler o.handlerCheck m.cb
      let ledger : Ledger := ⟨.cb :: m.ledger.acquired, m.ledger.released ++ released⟩
      if s.rv ≠ -EIOCBQUEUED then some ⟨s.rv, ledger⟩ else some ⟨c.count.toInt, ledger⟩

end ZynqSha256.PcieDriver
