import ZynqSha256.Driver.XdmaSubmit

/-! bench/pcie_linux_driver/hsha256.c and libxdma.c, the blocking `sha256_write` from the user
buffer to its transfers: `sg_set_page` over the pinned pages, `pci_map_sg`, the request and
the transfers. -/

namespace ZynqSha256.Xdma

open PcieDriver (EINVAL EBUSY ENOMEM PAGE_SIZE offsetInPage checkTransferAlign XdmaIoCb WriteCall
  Outcomes charSgdmaMapUserBufToSgl)

/-- An entry of a scatter table as `sg_set_page` leaves it: a part of a page. -/
structure ScatterEntry where
  page : ℕ
  length : ℕ
  offset : ℕ
  inPage : offset + length ≤ PAGE_SIZE

theorem offsetInPage_lt (buf : BitVec 64) : (offsetInPage buf).toNat < PAGE_SIZE := by
  have hle : (offsetInPage buf).toNat ≤ 0xfff := by
    rw [offsetInPage, BitVec.toNat_and]
    exact Nat.and_le_right
  exact Nat.lt_succ_of_le hle

theorem offset_add_le (buf : BitVec 64) (n : ℕ) :
    (offsetInPage buf).toNat + min (PAGE_SIZE - (offsetInPage buf).toNat) n ≤ PAGE_SIZE := by
  have hlt := offsetInPage_lt buf
  omega

/-- The loop of `sg_set_page` over the pinned pages: its entries, and what is left of `len`. -/
def sgSetPage : List ℕ → BitVec 64 → BitVec 64 → List ScatterEntry × BitVec 64
  | [], _, len => ([], len)
  | page :: pages, buf, len =>
    let offset := (offsetInPage buf).toNat
    let nbytes := min (PAGE_SIZE - offset) (len.setWidth 32).toNat
    let (sgl, left) := sgSetPage pages (buf + BitVec.ofNat 64 nbytes) (len - BitVec.ofNat 64 nbytes)
    (⟨page, nbytes, offset, offset_add_le buf _⟩ :: sgl, left)

/-- `cb->pages` up to the first null pointer. -/
def pinnedPages (cb : XdmaIoCb) : List ℕ := (cb.pages.getD []).reduceOption

/-- What `xdma_xfer_submit` finds of the device, what `pci_map_sg` makes of the table (nothing
if it fails), the size of a request without pieces, and whether it can be allocated. -/
structure SubmitChecks where
  devHndl : Bool
  debugCheckDevHndl : ℤ
  channelOk : Bool
  magicOk : Bool
  offline : Bool
  pciMapSg : List ScatterEntry → List SgEntry
  sizeofCb : ℕ
  initRequest : Bool

/-- What a submission returns, and the transfers it has built. -/
structure Submitted where
  ret : ℤ
  rounds : List Round

/-- `xdma_xfer_submit` for a write. `none`: it does not return, or it writes past its request. -/
def xdmaXferSubmit (o : SubmitChecks) (descBlenMax : BitVec 32) (engine : XdmaEngine)
    (sgt : List ScatterEntry) (ep : BitVec 64) (outcomes : ℕ → Outcome) : Option Submitted :=
  if !o.devHndl then some ⟨-EINVAL, []⟩
  else if o.debugCheckDevHndl < 0 then some ⟨-EINVAL, []⟩
  else if !o.channelOk then some ⟨-EINVAL, []⟩
  else if !o.magicOk then some ⟨-EINVAL, []⟩
  else if o.offline then some ⟨-EBUSY, []⟩
  else if engine.dir ≠ .toDevice then some ⟨-EINVAL, []⟩
  else
    let sgl := o.pciMapSg sgt
    if sgl = [] then some ⟨- PcieDriver.EIO, []⟩
    else
      let bytes := (sgl.map fun sg => sg.dmaLen.toNat).sum
      match xdmaInitRequest o.sizeofCb descBlenMax o.initRequest bytes sgl ep with
      | none => none
      | some none => some ⟨-ENOMEM, []⟩
      | some (some req) =>
        (submitTransfers engine req outcomes req.sdesc.length).map fun s => ⟨s.ret, s.rounds⟩

/-- `char_sgdma_read_write` for a write that blocks. -/
def sha256WriteBlock (o : Outcomes) (k : SubmitChecks) (descBlenMax : BitVec 32)
    (engine : XdmaEngine) (c : WriteCall) (outcomes : ℕ → Outcome) : Option Submitted :=
  let cb : XdmaIoCb := ⟨c.buf, c.count, 0, [], none⟩
  let align := checkTransferAlign o.align c.buf c.count c.pos
  if o.xcdevCheck < 0 then some ⟨o.xcdevCheck, []⟩
  else if engine.dir ≠ .toDevice then some ⟨-EINVAL, []⟩
  else if align ≠ 0 then some ⟨align, []⟩
  else
    let m := charSgdmaMapUserBufToSgl o.map cb
    if m.rv < 0 then some ⟨m.rv, []⟩
    else
      let sgt := (sgSetPage (pinnedPages m.cb) c.buf c.count).1
      xdmaXferSubmit k descBlenMax engine sgt c.pos outcomes

end ZynqSha256.Xdma
