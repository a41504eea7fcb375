import ZynqSha256.Driver.UserBuffer
import ZynqSha256.Proofs.PcieWrite
import ZynqSha256.Proofs.XdmaSubmit

/-! The blocking write: whatever its steps answer, the transfers that complete copy the first
bytes of the user buffer, as many as the call returns. -/

namespace ZynqSha256.Xdma

open PcieDriver (PAGE_SIZE offsetInPage offsetInPage_toNat and_add_and_not sgSetPages pagesNr
  XdmaIoCb MapOutcomes WriteCall Outcomes Gup charSgdmaMapUserBufToSgl checkTransferAlign)

variable {buf len : BitVec 64} {pages : List ℕ}

/-! ## The memory of a process -/

/-- `buf & PAGE_MASK`. -/
def pageMask (buf : BitVec 64) : BitVec 64 := buf &&& ~~~0xfff

/-- The pages behind `n` virtual pages in a row, as `get_user_pages_fast` pins them. -/
def userPages (frame : BitVec 64 → ℕ) (buf : BitVec 64) (n : ℕ) : List ℕ :=
  (Segments.pts 4096 (pageMask buf) n).map frame

/-- Where a byte of the process is on the bus. -/
def busOf (frame : BitVec 64 → ℕ) (bus : ℕ → BitVec 64) (v : BitVec 64) : BitVec 64 :=
  bus (frame (pageMask v)) + offsetInPage v

/-- The bytes that the entries of a scatter table name. -/
def scatterRuns (bus : ℕ → BitVec 64) (sgt : List ScatterEntry) : List (BitVec 64 × ℕ) :=
  sgt.map fun sg => (bus sg.page + BitVec.ofNat 64 sg.offset, sg.length)

theorem offset_add_pageMask (v : BitVec 64) : offsetInPage v + pageMask v = v :=
  and_add_and_not v 0xfff

/-- An address and those that follow it in its page. -/
theorem offsetInPage_add {n : ℕ} (h : (offsetInPage buf).toNat + n < PAGE_SIZE) :
    offsetInPage (buf + BitVec.ofNat 64 n) = offsetInPage buf + BitVec.ofNat 64 n := by
  rw [offsetInPage_toNat, PAGE_SIZE] at h
  have hmod : (buf.toNat + n) % 4096 = buf.toNat % 4096 + n := by omega
  apply BitVec.eq_of_toNat_eq
  rw [offsetInPage_toNat, BitVec.toNat_add, BitVec.toNat_add, offsetInPage_toNat,
    BitVec.toNat_ofNat]
  omega

theorem pageMask_add {n : ℕ} (h : (offsetInPage buf).toNat + n < PAGE_SIZE) :
    pageMask (buf + BitVec.ofNat 64 n) = pageMask buf := by
  have hbuf := offset_add_pageMask buf
  have hnext := offset_add_pageMask (buf + BitVec.ofNat 64 n)
  rw [offsetInPage_add h] at hnext
  have hsum : offsetInPage buf + BitVec.ofNat 64 n + pageMask (buf + BitVec.ofNat 64 n) =
      offsetInPage buf + BitVec.ofNat 64 n + pageMask buf := by
    rw [hnext, add_right_comm, hbuf]
  exact add_left_cancel hsum

/-- The first address of the next page. -/
theorem pageMask_next {n : ℕ} (h : (offsetInPage buf).toNat + n = PAGE_SIZE) :
    pageMask (buf + BitVec.ofNat 64 n) = pageMask buf + 4096 := by
  have hbuf := offset_add_pageMask buf
  have hnext := offset_add_pageMask (buf + BitVec.ofNat 64 n)
  have hzero : offsetInPage (buf + BitVec.ofNat 64 n) = 0 := by
    apply BitVec.eq_of_toNat_eq
    rw [offsetInPage_toNat, PAGE_SIZE] at h
    rw [offsetInPage_toNat, BitVec.toNat_add, BitVec.toNat_ofNat]
    change _ = 0
    omega
  have hpage : offsetInPage buf + BitVec.ofNat 64 n = 4096 := by
    apply BitVec.eq_of_toNat_eq
    rw [PAGE_SIZE] at h
    rw [BitVec.toNat_add, BitVec.toNat_ofNat]
    change _ = 4096
    omega
  rw [hzero] at hnext
  calc pageMask (buf + BitVec.ofNat 64 n)
      = 0 + pageMask (buf + BitVec.ofNat 64 n) := (zero_add _).symm
    _ = offsetInPage buf + pageMask buf + BitVec.ofNat 64 n := by rw [hnext, hbuf]
    _ = pageMask buf + (offsetInPage buf + BitVec.ofNat 64 n) := by ring
    _ = pageMask buf + 4096 := by rw [hpage]

/-- The bytes up to the end of a page are in a row on the bus. -/
theorem pts_busOf (frame : BitVec 64 → ℕ) (bus : ℕ → BitVec 64) {n : ℕ}
    (h : (offsetInPage buf).toNat + n ≤ PAGE_SIZE) :
    (Segments.pts 1 buf n).map (busOf frame bus) = Segments.pts 1 (busOf frame bus buf) n := by
  rw [Segments.pts_eq_map, Segments.pts_eq_map, List.map_map]
  apply List.map_congr_left
  intro i hi
  have hi' : (offsetInPage buf).toNat + i < PAGE_SIZE := by
    have := List.mem_range.1 hi
    omega
  have hone : i • (1 : BitVec 64) = BitVec.ofNat 64 i := by simp
  rw [Function.comp_apply, hone, busOf, busOf, pageMask_add hi', offsetInPage_add hi', add_assoc]

/-! ## The entries of the scatter table -/

/-- The length of the next entry. -/
def entryBytes (buf len : BitVec 64) : ℕ :=
  min (PAGE_SIZE - (offsetInPage buf).toNat) (len.setWidth 32).toNat

theorem entryBytes_le (buf len : BitVec 64) : entryBytes buf len ≤ len.toNat % 2 ^ 32 := by
  rw [entryBytes, BitVec.toNat_setWidth]
  exact min_le_right _ _

theorem entryBytes_toNat (buf len : BitVec 64) :
    (BitVec.ofNat 64 (entryBytes buf len)).toNat = entryBytes buf len := by
  have hle := entryBytes_le buf len
  rw [BitVec.toNat_ofNat]
  omega

/-- What the entry leaves of the buffer. -/
theorem sub_entryBytes (buf len : BitVec 64) :
    (len - BitVec.ofNat 64 (entryBytes buf len)).toNat = len.toNat - entryBytes buf len := by
  have hle := entryBytes_le buf len
  rw [BitVec.toNat_sub_of_le, entryBytes_toNat]
  rw [BitVec.le_def, entryBytes_toNat]
  omega

theorem scatterRuns_cons (bus : ℕ → BitVec 64) (page : ℕ) (pages : List ℕ) (buf len : BitVec 64) :
    scatterRuns bus (sgSetPage (page :: pages) buf len).1 =
      (bus page + offsetInPage buf, entryBytes buf len) ::
        scatterRuns bus (sgSetPage pages (buf + BitVec.ofNat 64 (entryBytes buf len))
          (len - BitVec.ofNat 64 (entryBytes buf len))).1 := by
  have hoff : BitVec.ofNat 64 (offsetInPage buf).toNat = offsetInPage buf := by
    rw [BitVec.ofNat_toNat, BitVec.setWidth_eq]
  conv_rhs => rw [← hoff]
  rfl

theorem left_cons (page : ℕ) (pages : List ℕ) (buf len : BitVec 64) :
    (sgSetPage (page :: pages) buf len).2 =
      (sgSetPage pages (buf + BitVec.ofNat 64 (entryBytes buf len))
        (len - BitVec.ofNat 64 (entryBytes buf len))).2 := rfl

theorem sgSetPage_left (pages : List ℕ) (buf len : BitVec 64) :
    (sgSetPage pages buf len).2 = (sgSetPages pages.length buf len).2 := by
  induction pages generalizing buf len with
  | nil => rfl
  | cons page pages ih => exact ih _ _

/-- Entries take nothing of the part of a length that 32 bits do not hold. -/
theorem left_div (pages : List ℕ) (buf len : BitVec 64) :
    (sgSetPage pages buf len).2.toNat / 2 ^ 32 = len.toNat / 2 ^ 32 := by
  induction pages generalizing buf len with
  | nil => rfl
  | cons page pages ih =>
    have hle := entryBytes_le buf len
    have hdiv : (len.toNat - entryBytes buf len) / 2 ^ 32 = len.toNat / 2 ^ 32 := by omega
    rw [left_cons, ih, sub_entryBytes, hdiv]

/-- A table that covers its buffer covers less than 4 GiB. -/
theorem lt_of_covered (h : (sgSetPage pages buf len).2 = 0) : len.toNat < 2 ^ 32 := by
  have hdiv := left_div pages buf len
  rw [h] at hdiv
  have hzero : (0 : BitVec 64).toNat = 0 := rfl
  omega

theorem cover_zero (bus : ℕ → BitVec 64) (pages : List ℕ) (buf : BitVec 64) :
    Segments.cover 1 (scatterRuns bus (sgSetPage pages buf 0).1) = [] := by
  induction pages generalizing buf with
  | nil => rfl
  | cons page pages ih =>
    have hnone : entryBytes buf 0 = 0 := Nat.min_eq_right (Nat.zero_le _)
    rw [scatterRuns_cons, Segments.cover_cons, hnone, Segments.pts_zero, List.nil_append]
    exact ih _

/-- A table that covers its buffer names the bytes of the buffer in order: an entry that ends
before its page does is the last one with bytes. -/
theorem sgSetPage_cover (frame : BitVec 64 → ℕ) (bus : ℕ → BitVec 64) {n : ℕ}
    (h : (sgSetPage (userPages frame buf n) buf len).2 = 0) :
    Segments.cover 1 (scatterRuns bus (sgSetPage (userPages frame buf n) buf len).1) =
      (Segments.pts 1 buf len.toNat).map (busOf frame bus) := by
  induction n generalizing buf len with
  | zero =>
    obtain rfl : len = 0 := h
    rfl
  | succ n ih =>
    have hlt := lt_of_covered h
    have hentry : entryBytes buf len = min (PAGE_SIZE - (offsetInPage buf).toNat) len.toNat := by
      rw [entryBytes, BitVec.toNat_setWidth, Nat.mod_eq_of_lt hlt]
    have hpart : entryBytes buf len ≤ len.toNat := hentry.trans_le (min_le_right _ _)
    have hfits : (offsetInPage buf).toNat + entryBytes buf len ≤ PAGE_SIZE := by
      rw [hentry]
      exact offset_add_le buf _
    have hone : entryBytes buf len • (1 : BitVec 64) = BitVec.ofNat 64 (entryBytes buf len) := by
      simp
    rw [userPages, Segments.pts, List.map_cons] at h ⊢
    rw [left_cons] at h
    rw [scatterRuns_cons, Segments.cover_cons]
    conv_rhs => rw [← Nat.add_sub_cancel' hpart, Segments.pts_add, List.map_append, hone,
      pts_busOf frame bus hfits, ← sub_entryBytes]
    refine congrArg _ ?_
    rcases Nat.lt_or_ge (entryBytes buf len) len.toNat with hfull | hlast
    · -- the entry ends with its page
      have hpage := pageMask_next
        (show (offsetInPage buf).toNat + entryBytes buf len = PAGE_SIZE by omega)
      rw [← hpage] at h ⊢
      exact ih h
    · have hzero : len - BitVec.ofNat 64 (entryBytes buf len) = 0 := by
        apply BitVec.eq_of_toNat_eq
        rw [sub_entryBytes]
        change _ = 0
        omega
      rw [hzero]
      exact cover_zero bus _ _

/-! ## The mapping -/

theorem mapPinned_pages {cb : XdmaIoCb} {n : ℕ} (hlen : pages.length = n)
    (hdup : PcieDriver.duplicatePages pages = false) :
    (PcieDriver.mapPinned n pages cb).cb.pages = (cb.withPages n pages).pages := by
  rw [PcieDriver.mapPinned, if_neg (not_not.2 hlen), hdup, if_neg Bool.false_ne_true]
  dsimp only
  split_ifs
  · rfl
  · rfl

/-- A mapping that succeeds has pinned every page. -/
theorem mapped_of_nonneg {o : MapOutcomes} {cb : XdmaIoCb} (hp : cb.pages = none)
    (hn : cb.pagesNr = 0) (h : 0 ≤ (charSgdmaMapUserBufToSgl o cb).rv) : ∃ pages,
    o.getUserPagesFast = .pinned pages ∧ pagesNr cb.buf cb.len ≤ pages.length ∧
      pinnedPages (charSgdmaMapUserBufToSgl o cb).cb = pages.take (pagesNr cb.buf cb.len) := by
  by_cases hr : PcieDriver.ReachesPin o cb
  · by_cases hnone : PcieDriver.PinsNone o
    · exact absurd h (not_le.2 (PcieDriver.map_of_pinsNone hn hr hnone).1)
    by_cases hall : PcieDriver.PinsAll o cb
    · rw [PcieDriver.map_of_reaches hr]
      unfold PcieDriver.PinsAll at hall
      cases hg : o.getUserPagesFast with
      | error rv => simp [hg] at hall
      | pinned pages =>
        simp only [hg] at hall
        obtain ⟨hle, hdup⟩ := hall
        have hlen : (pages.take (pagesNr cb.buf cb.len)).length = pagesNr cb.buf cb.len := by
          rw [List.length_take, min_eq_left hle]
        refine ⟨pages, rfl, hle, ?_⟩
        dsimp only
        rw [pinnedPages, mapPinned_pages hlen hdup, XdmaIoCb.withPages, hlen, Nat.sub_self,
          List.replicate_zero, List.append_nil, Option.getD_some, List.reduceOption,
          List.filterMap_map]
        exact List.filterMap_some
    · exact absurd h (not_le.2 (PcieDriver.map_of_partial hr hnone hall).1)
  · exact absurd h (not_le.2 (PcieDriver.map_of_not_reaches hp hr).1)

/-! ## The whole write -/

variable {frame : BitVec 64 → ℕ} {bus : ℕ → BitVec 64} {e : XdmaEngine} {c : WriteCall}
  {w : Submitted}

/-- The transfers that completed copy as many of the first bytes of the user buffer as the call
returns, in order and to consecutive places behind the engine; where these are not all, the
last transfer is one that did not complete. -/
structure Streams (frame : BitVec 64 → ℕ) (bus : ℕ → BitVec 64) (e : XdmaEngine) (c : WriteCall)
    (w : Submitted) : Prop where
  le : w.ret ≤ c.count.toNat
  copies : Segments.cover (1, e.epStep) ((w.rounds.filter Round.completed).flatMap (·.copies)) =
    (((Segments.pts 1 c.buf c.count.toNat).map (busOf frame bus)).zip
      (Segments.pts e.epStep c.pos c.count.toNat)).take w.ret.toNat
  short : 0 ≤ w.ret → w.ret < c.count.toNat →
    ∃ r, w.rounds.getLast? = some r ∧ r.completed = false

/-- An error before there are transfers. -/
theorem streams_of_neg {ret : ℤ} (h : ret < 0) : Streams frame bus e c ⟨ret, []⟩ := by
  refine ⟨by dsimp only; omega, ?_, fun h0 => absurd h (not_lt.2 h0)⟩
  dsimp only
  rw [Int.toNat_of_nonpos (le_of_lt h)]
  rfl

/-- `pci_map_sg` may join entries, but keeps their bytes and their order. -/
def KeepsBytes (bus : ℕ → BitVec 64) (k : SubmitChecks) : Prop :=
  ∀ sgt, k.pciMapSg sgt ≠ [] →
    Segments.cover 1 (sgRuns (k.pciMapSg sgt)) = Segments.cover 1 (scatterRuns bus sgt)

theorem submit_streams {k : SubmitChecks} {b : BitVec 32} {sgt : List ScatterEntry}
    (hk : KeepsBytes bus k) (hb : 0 < b.toNat) (hcount : c.count.toNat + b.toNat ≤ 2 ^ 32)
    (hsize : SizeFits k.sizeofCb b (k.pciMapSg sgt))
    (hsgt : Segments.cover 1 (scatterRuns bus sgt) =
      (Segments.pts 1 c.buf c.count.toNat).map (busOf frame bus)) {outcomes : ℕ → Outcome}
    (hwait : ∀ i, (outcomes i).waitEnds = true) :
    ∃ w, xdmaXferSubmit k b e sgt c.pos outcomes = some w ∧ Streams frame bus e c w := by
  have hEINVAL : -PcieDriver.EINVAL < 0 := by decide
  have hEBUSY : -PcieDriver.EBUSY < 0 := by decide
  have h_io : - PcieDriver.EIO < 0 := by decide
  have hENOMEM : -PcieDriver.ENOMEM < 0 := by decide
  unfold xdmaXferSubmit
  dsimp only
  split_ifs with h1 h2 h3 h4 h5 h6 h7
  · exact ⟨_, rfl, streams_of_neg hEINVAL⟩
  · exact ⟨_, rfl, streams_of_neg hEINVAL⟩
  · exact ⟨_, rfl, streams_of_neg hEINVAL⟩
  · exact ⟨_, rfl, streams_of_neg hEINVAL⟩
  · exact ⟨_, rfl, streams_of_neg hEBUSY⟩
  · exact ⟨_, rfl, streams_of_neg hEINVAL⟩
  · exact ⟨_, rfl, streams_of_neg h_io⟩
  have hcover := (hk sgt h7).trans hsgt
  have htotal : Segments.total (sgRuns (k.pciMapSg sgt)) = c.count.toNat := by
    rw [← Segments.length_cover 1, hcover, List.length_map, Segments.length_pts]
  have hsum : ((k.pciMapSg sgt).map fun sg => sg.dmaLen.toNat).sum = c.count.toNat := by
    rw [← htotal, Segments.total, sgRuns, List.map_map]
    rfl
  have hsg : ∀ sg ∈ k.pciMapSg sgt, sg.dmaLen.toNat ≤ c.count.toNat ∧
      sg.dmaLen.toNat + b.toNat ≤ 2 ^ 32 := by
    intro sg hmem
    have hle := List.single_le_sum (fun _ _ => Nat.zero_le _) _
      (List.mem_map_of_mem (f := fun sg : SgEntry => sg.dmaLen.toNat) hmem)
    rw [hsum] at hle
    omega
  rw [hsum]
  cases hinit : k.initRequest with
  | false =>
    have hb0 : b ≠ 0 := by
      rintro rfl
      exact absurd hb (by simp)
    refine ⟨⟨-PcieDriver.ENOMEM, []⟩, ?_, streams_of_neg hENOMEM⟩
    rw [xdmaInitRequest, if_neg fun h => hb0 h.1]
    rfl
  | true =>
    obtain ⟨req, hreq, hruns, hbytes, hidx, hep⟩ := xdmaInitRequest_runs hb c.pos hsg hsize
    have hplain : e.Plain := fun h => h6 (by rw [h.2]; decide)
    obtain ⟨s, hs, hcopies, -, hend⟩ := submitTransfers_spec hplain hidx
      (by rw [hbytes, htotal]; omega) hwait
    rw [hreq]
    dsimp only
    rw [hs]
    rw [hruns, hbytes, hep, hcover, htotal] at hcopies
    rw [hbytes, htotal] at hend
    have hret : s.ret = if s.done = 0 then s.rv else s.done := ite_not _ _ _
    have hrv : s.rv ≤ 0 ∧ s.done ≤ c.count.toNat := by
      rcases hend with ⟨hrv, hdone, -⟩ | ⟨hrv, hdone, -⟩
      · exact ⟨hrv.le, hdone.le⟩
      · exact ⟨hrv.le, hdone⟩
    have hnat : s.ret.toNat = s.done := by
      rw [hret]
      split <;> omega
    refine ⟨⟨s.ret, s.rounds⟩, rfl, ?_, ?_, ?_⟩
    · dsimp only
      rw [hret]
      split <;> omega
    · dsimp only
      rw [hnat]
      exact hcopies
    · intro h0 hshort
      dsimp only at h0 hshort ⊢
      rcases hend with ⟨-, hdone, -⟩ | ⟨-, -, hlast⟩
      · exact absurd hshort (by omega)
      · exact hlast

/-- A misaligned transfer is answered with an error. -/
theorem checkTransferAlign_nonpos (a : PcieDriver.EngineAlign) (buf count pos : BitVec 64) :
    checkTransferAlign a buf count pos ≤ 0 := by
  have hEINVAL : -PcieDriver.EINVAL ≤ 0 := by decide
  unfold checkTransferAlign
  dsimp only
  split_ifs
  all_goals first
    | exact hEINVAL
    | exact le_rfl

/-- The write whose resources are counted returns the same. -/
theorem sha256WriteBlock_ret {o : Outcomes} {k : SubmitChecks} {b : BitVec 32}
    {outcomes : ℕ → Outcome} (hblock : c.block = true)
    (hdir : o.dirToDevice = true ↔ e.dir = .toDevice)
    (h : sha256WriteBlock o k b e c outcomes = some w) :
    ∃ l, PcieDriver.sha256Write c { o with xdmaXferSubmit := w.ret } = some ⟨w.ret, l⟩ := by
  have hdir' : (!o.dirToDevice) = true ↔ e.dir ≠ .toDevice := by
    rw [ne_eq, ← hdir]
    cases o.dirToDevice <;> decide
  rw [sha256WriteBlock] at h
  rw [PcieDriver.sha256Write]
  dsimp only at h ⊢
  rw [hblock]
  simp only [hdir', if_true]
  split_ifs at h ⊢ with h1 h2 h3 h4
  · obtain rfl := Option.some.inj h
    exact ⟨_, rfl⟩
  · obtain rfl := Option.some.inj h
    exact ⟨_, rfl⟩
  · obtain rfl := Option.some.inj h
    exact ⟨_, rfl⟩
  · obtain rfl := Option.some.inj h
    exact ⟨_, rfl⟩
  · exact ⟨_, rfl⟩

/-- The scatter table of the buffer. -/
def userTable (frame : BitVec 64 → ℕ) (c : WriteCall) : List ScatterEntry :=
  (sgSetPage (userPages frame c.buf (pagesNr c.buf c.count)) c.buf c.count).1

/-- A blocking write whose waits end returns, and its completed transfers have copied, byte by byte
and in order, as much of the user buffer as it returns. -/
theorem blocking_write_streams (o : Outcomes) (k : SubmitChecks) {b : BitVec 32}
    (hgup : ∀ pages, o.map.getUserPagesFast = .pinned pages →
      pages = userPages frame c.buf pages.length)
    (hk : KeepsBytes bus k) (hb : 0 < b.toNat) (hcount : c.count.toNat + b.toNat ≤ 2 ^ 32)
    (hsize : SizeFits k.sizeofCb b (k.pciMapSg (userTable frame c))) {outcomes : ℕ → Outcome}
    (hwait : ∀ i, (outcomes i).waitEnds = true) :
    ∃ w, sha256WriteBlock o k b e c outcomes = some w ∧ Streams frame bus e c w ∧
      (c.block = true → (o.dirToDevice = true ↔ e.dir = .toDevice) →
        ∃ l, PcieDriver.sha256Write c { o with xdmaXferSubmit := w.ret } = some ⟨w.ret, l⟩) := by
  suffices hw : ∃ w, sha256WriteBlock o k b e c outcomes = some w ∧ Streams frame bus e c w by
    obtain ⟨w, hw, hstreams⟩ := hw
    exact ⟨w, hw, hstreams, fun hblock hdir => sha256WriteBlock_ret hblock hdir hw⟩
  have hEINVAL : -PcieDriver.EINVAL < 0 := by decide
  have halign := checkTransferAlign_nonpos o.align c.buf c.count c.pos
  unfold sha256WriteBlock
  dsimp only
  split_ifs with h1 h2 h3 h4
  · exact ⟨_, rfl, streams_of_neg h1⟩
  · exact ⟨_, rfl, streams_of_neg hEINVAL⟩
  · exact ⟨_, rfl, streams_of_neg (lt_of_le_of_ne halign h3)⟩
  · exact ⟨_, rfl, streams_of_neg h4⟩
  obtain ⟨pages, hg, hle, hpinned⟩ := mapped_of_nonneg rfl rfl (not_lt.1 h4)
  dsimp only at hle hpinned
  have huser : pages.take (pagesNr c.buf c.count) =
      userPages frame c.buf (pagesNr c.buf c.count) := by
    rw [hgup pages hg, userPages, ← List.map_take, Segments.take_pts _ _ hle, userPages]
  have hcovered : (sgSetPage (userPages frame c.buf (pagesNr c.buf c.count)) c.buf c.count).2 = 0 := by
    rw [sgSetPage_left, userPages, List.length_map, Segments.length_pts]
    have hlt : c.count.toNat < 2 ^ 32 := by omega
    exact show PcieDriver.leftover ⟨c.buf, c.count, 0, [], none⟩ = 0 from
      PcieDriver.leftover_eq_zero hlt
  rw [hpinned, huser]
  exact submit_streams hk hb hcount hsize (sgSetPage_cover frame bus hcovered) hwait

/-- Without an IOMMU every entry is mapped to where its page is. -/
def directMap (bus : ℕ → BitVec 64) (sgt : List ScatterEntry) : List SgEntry :=
  sgt.map fun sg => ⟨bus sg.page + BitVec.ofNat 64 sg.offset, BitVec.ofNat 32 sg.length⟩

theorem sgRuns_directMap (bus : ℕ → BitVec 64) (sgt : List ScatterEntry) :
    sgRuns (directMap bus sgt) = scatterRuns bus sgt := by
  rw [sgRuns, directMap, List.map_map, scatterRuns]
  apply List.map_congr_left
  intro sg _
  have hle : sg.length ≤ PAGE_SIZE := Nat.le_trans (Nat.le_add_left _ _) sg.inPage
  rw [PAGE_SIZE] at hle
  rw [Function.comp_apply, BitVec.toNat_ofNat, Nat.mod_eq_of_lt (by omega)]

/-- Two pages of a process, the second one in front of the first on the bus. -/
def twoPages (page : ℕ) : BitVec 64 := if page = 1 then 0x700000 else 0x300000

/-- Sixty-four bytes that end in the second page. -/
def splitWrite : WriteCall × Outcomes where
  fst := ⟨0x1ff0, 64, 0, true⟩
  snd :=
    { xcdevCheck := 0
      dirToDevice := true
      align := ⟨false, 1, 1⟩
      kzalloc := true
      map := ⟨true, true, .pinned [1, 2]⟩
      xdmaXferSubmit := 64
      submit := ⟨true, 0, true, true, false, true, 2, true, ⟨0, 0⟩, []⟩
      handlerCheck := 0 }

theorem blocking_write_streams_split : ∃ w,
    sha256WriteBlock splitWrite.2 ⟨true, 0, true, true, false, directMap twoPages, 0x200, true⟩ 32
      fourDescs splitWrite.1
      (fun i => ⟨0, true, if i = 0 then .completed else .failed, 0, fun _ => ⟨0, 0⟩⟩) = some w ∧
      Streams (fun v => v.toNat / 4096) twoPages fourDescs splitWrite.1 w := by
  obtain ⟨w, hw, hstreams, -⟩ := blocking_write_streams splitWrite.2
    ⟨true, 0, true, true, false, directMap twoPages, 0x200, true⟩ (e := fourDescs)
    (c := splitWrite.1)
    (show ∀ pages, splitWrite.2.map.getUserPagesFast = .pinned pages →
      pages = userPages (fun v => v.toNat / 4096) splitWrite.1.buf pages.length by
      rintro pages ⟨⟩
      rfl)
    (show KeepsBytes twoPages _ from fun sgt _ => by rw [sgRuns_directMap])
    (show 0 < (32 : BitVec 32).toNat by decide) (by decide) (by decide)
    (show ∀ i, ((fun i => ⟨0, true, if i = 0 then .completed else .failed, 0, fun _ => ⟨0, 0⟩⟩ :
      ℕ → Outcome) i).waitEnds = true from fun _ => rfl)
  exact ⟨w, hw, hstreams⟩

end ZynqSha256.Xdma
