import Mathlib
import ZynqSha256.Driver.PcieWrite

/-! Who releases what on the PCIe write path. `char_sgdma_unmap_user_buf` does nothing
about the page array while `pages_nr` is zero, and after a submission that fails the
caller relies on a callback that only one of the errors runs. -/

namespace ZynqSha256.PcieDriver

/-! ## Complete ledgers -/

/-- Every resource acquired has been released exactly once, and nothing else has. -/
structure Ledger.Complete (l : Ledger) : Prop where
  nodup : l.acquired.Nodup
  released : l.released.Perm l.acquired

/-- What a mapping of `n` pages acquires. -/
def mapped (n : ℕ) : List Resource := [.sgt, .pages] ++ pageRefs n

/-- What unmapping them releases. -/
def unmapped (n : ℕ) : List Resource := .sgt :: pageRefs n ++ [.pages]

theorem mapped_nodup (n : ℕ) : (mapped n).Nodup := by
  have hrefs : (pageRefs n).Nodup := List.nodup_range.map fun _ _ h => Resource.page.inj h
  have hsgt : Resource.sgt ∉ .pages :: pageRefs n := by simp [pageRefs]
  have hpages : Resource.pages ∉ pageRefs n := by simp [pageRefs]
  exact List.nodup_cons.2 ⟨hsgt, List.nodup_cons.2 ⟨hpages, hrefs⟩⟩

theorem complete_unmapped (n : ℕ) : Ledger.Complete ⟨mapped n, unmapped n⟩ :=
  ⟨mapped_nodup n, List.Perm.cons _ List.perm_append_comm⟩

theorem Ledger.Complete.length_eq {l : Ledger} (h : l.Complete) :
    l.released.length = l.acquired.length := h.released.length_eq

/-- The control block is acquired first and released last. -/
theorem complete_cb {a r : List Resource} (ha : Resource.cb ∉ a) :
    Ledger.Complete ⟨.cb :: a, r ++ [.cb]⟩ ↔ Ledger.Complete ⟨a, r⟩ := by
  constructor
  · rintro ⟨hnd, hperm⟩
    have hfront : (Resource.cb :: r).Perm (.cb :: a) :=
      (List.perm_append_singleton _ _).symm.trans hperm
    exact ⟨(List.nodup_cons.1 hnd).2, hfront.cons_inv⟩
  · rintro ⟨hnd, hperm⟩
    exact ⟨List.nodup_cons.2 ⟨ha, hnd⟩, (List.perm_append_singleton _ _).trans (hperm.cons _)⟩

theorem cb_not_mem_mapped (n : ℕ) : Resource.cb ∉ mapped n := by simp [mapped, pageRefs]

/-! ## Mapping -/

section Mapping

variable (o : MapOutcomes) (cb : XdmaIoCb)

/-- `get_user_pages_fast` is reached: there is a page to pin and both allocations succeed. -/
def ReachesPin : Prop :=
  pagesNr cb.buf cb.len ≠ 0 ∧ o.sgAllocTable = true ∧ o.kcalloc = true

/-- It answers with an error or pins no page. -/
def PinsNone : Prop :=
  match o.getUserPagesFast with
  | .error _ => True
  | .pinned pages => pages = []

/-- It pins all pages, no two neighbours being the same. -/
def PinsAll : Prop :=
  match o.getUserPagesFast with
  | .error _ => False
  | .pinned pages =>
    pagesNr cb.buf cb.len ≤ pages.length ∧
      duplicatePages (pages.take (pagesNr cb.buf cb.len)) = false

/-- Bytes of the buffer that the entries do not cover. -/
def leftover : BitVec 64 := (sgSetPages (pagesNr cb.buf cb.len) cb.buf cb.len).2

variable {o cb}

/-- Unmapping puts every pinned page. -/
theorem unmap_pinned (cb : XdmaIoCb) {pages : List ℕ} {n : ℕ} (hne : pages ≠ [])
    (hp : cb.pages = some (pages.map some ++ List.replicate n none))
    (hn : cb.pagesNr = pages.length) : (charSgdmaUnmapUserBuf cb).2 = unmapped pages.length := by
  have hpos : pages.length ≠ 0 := by simpa using hne
  have hall : ((pages.map some ++ List.replicate n none).take pages.length).takeWhile
      Option.isSome = pages.map some := by
    rw [List.take_left' (List.length_map _), List.takeWhile_eq_self_iff]
    intro x hx
    obtain ⟨y, -, rfl⟩ := List.mem_map.1 hx
    rfl
  unfold charSgdmaUnmapUserBuf
  rw [hp]
  dsimp only
  rw [hn, if_neg hpos, hall, List.length_map]
  rfl

/-- While `pages_nr` is zero unmapping frees the scatter table alone. -/
theorem unmap_of_zero (hn : cb.pagesNr = 0) : (charSgdmaUnmapUserBuf cb).2 = [.sgt] := by
  unfold charSgdmaUnmapUserBuf
  split
  next => rfl
  next => rw [if_pos hn]

/-- Some pages pinned but not all, or two neighbours the same: all are put again. -/
theorem mapPinned_of_partial (cb : XdmaIoCb) {pages : List ℕ} {n : ℕ} (hne : pages ≠ [])
    (h : pages.length = n → duplicatePages pages = true) :
    (mapPinned n pages cb).rv < 0 ∧
      (mapPinned n pages cb).ledger = ⟨mapped pages.length, unmapped pages.length⟩ := by
  by_cases hlen : pages.length = n
  · have hun := unmap_pinned { cb.withPages n pages with pagesNr := n } hne rfl hlen.symm
    rw [mapPinned, if_neg (not_not.2 hlen), if_pos (h hlen), errOut, hun]
    exact ⟨Int.neg_neg_of_pos (by decide), rfl⟩
  · have hun := unmap_pinned { cb.withPages n pages with pagesNr := pages.length } hne rfl rfl
    rw [mapPinned, if_pos hlen, errOut, hun]
    exact ⟨Int.neg_neg_of_pos (by decide), rfl⟩

/-- All pages pinned: they are handed on, but not if part of the buffer is left. -/
theorem mapPinned_of_all {pages : List ℕ} {n : ℕ} (hne : pages ≠ []) (hlen : pages.length = n)
    (hdup : duplicatePages pages = false) :
    (mapPinned n pages cb).ledger = ⟨mapped n, []⟩ ∧
      ((sgSetPages n cb.buf cb.len).2 ≠ 0 → (mapPinned n pages cb).rv < 0) ∧
      ((sgSetPages n cb.buf cb.len).2 = 0 → (mapPinned n pages cb).rv = 0 ∧
        (charSgdmaUnmapUserBuf (mapPinned n pages cb).cb).2 = unmapped n ∧
        (mapPinned n pages cb).cb.sgt = (sgSetPages n cb.buf cb.len).1) := by
  have heq : mapPinned n pages cb =
      if (sgSetPages n cb.buf cb.len).2 ≠ 0 then
        ⟨-EINVAL, { cb.withPages n pages with sgt := (sgSetPages n cb.buf cb.len).1 }, ⟨mapped n, []⟩⟩
      else
        ⟨0, { cb.withPages n pages with sgt := (sgSetPages n cb.buf cb.len).1, pagesNr := n },
          ⟨mapped n, []⟩⟩ := by
    rw [mapPinned, if_neg (not_not.2 hlen), hdup, hlen]
    rfl
  rw [heq]
  by_cases hleft : (sgSetPages n cb.buf cb.len).2 = 0
  · have hun := unmap_pinned
      { cb.withPages n pages with sgt := (sgSetPages n cb.buf cb.len).1, pagesNr := n } hne rfl
      hlen.symm
    rw [if_neg (not_not.2 hleft)]
    refine ⟨rfl, fun hc => absurd hleft hc, fun _ => ⟨rfl, ?_, rfl⟩⟩
    rw [hun, hlen]
  · rw [if_pos hleft]
    exact ⟨rfl, fun _ => Int.neg_neg_of_pos (by decide), fun hc => absurd hc hleft⟩

theorem map_of_reaches (h : ReachesPin o cb) : charSgdmaMapUserBufToSgl o cb =
    match o.getUserPagesFast with
    | .error rv => errOut rv (cb.withPages (pagesNr cb.buf cb.len) []) [.sgt, .pages]
    | .pinned pages => mapPinned (pagesNr cb.buf cb.len) (pages.take (pagesNr cb.buf cb.len)) cb := by
  obtain ⟨h0, hs, hk⟩ := h
  rw [charSgdmaMapUserBufToSgl, if_neg h0, hs, hk]
  rfl

/-- Nothing to map, or no memory: what there is of the table is freed. -/
theorem map_of_not_reaches (hp : cb.pages = none) (h : ¬ReachesPin o cb) :
    (charSgdmaMapUserBufToSgl o cb).rv < 0 ∧
      ((charSgdmaMapUserBufToSgl o cb).ledger = ⟨[], []⟩ ∨
        (charSgdmaMapUserBufToSgl o cb).ledger = ⟨[.sgt], [.sgt]⟩) := by
  have hun : charSgdmaUnmapUserBuf cb = (cb, [.sgt]) := by
    unfold charSgdmaUnmapUserBuf
    rw [hp]
  by_cases h0 : pagesNr cb.buf cb.len = 0
  · rw [charSgdmaMapUserBufToSgl, if_pos h0]
    exact ⟨Int.neg_neg_of_pos (by decide), Or.inl rfl⟩
  · cases hs : o.sgAllocTable with
    | false =>
      rw [charSgdmaMapUserBufToSgl, if_neg h0, hs]
      exact ⟨Int.neg_neg_of_pos (by decide), Or.inl rfl⟩
    | true =>
      cases hk : o.kcalloc with
      | false =>
        rw [charSgdmaMapUserBufToSgl, if_neg h0, hs, hk, errOut, hun]
        exact ⟨Int.neg_neg_of_pos (by decide), Or.inr rfl⟩
      | true => exact absurd ⟨h0, hs, hk⟩ h

/-- Nothing pinned: the page array stays behind. -/
theorem map_of_pinsNone (hn : cb.pagesNr = 0) (h : ReachesPin o cb) (hnone : PinsNone o) :
    (charSgdmaMapUserBufToSgl o cb).rv < 0 ∧
      (charSgdmaMapUserBufToSgl o cb).ledger = ⟨[.sgt, .pages], [.sgt]⟩ := by
  have herr (rv : ℤ) (cb' : XdmaIoCb) (hn' : cb'.pagesNr = 0) :
      (errOut rv cb' [.sgt, .pages]).ledger = ⟨[.sgt, .pages], [.sgt]⟩ := by
    rw [errOut, unmap_of_zero hn']
  rw [map_of_reaches h]
  unfold PinsNone at hnone
  split at hnone
  next rv hg => exact ⟨rv.2, herr _ _ hn⟩
  next pages hg =>
    rw [hnone, List.take_nil, mapPinned, if_pos (fun hc => h.1 hc.symm)]
    exact ⟨Int.neg_neg_of_pos (by decide), herr _ _ rfl⟩

/-- Some pages pinned, and the mapping given up: everything is put again. -/
theorem map_of_partial (h : ReachesPin o cb) (hsome : ¬PinsNone o) (hall : ¬PinsAll o cb) :
    (charSgdmaMapUserBufToSgl o cb).rv < 0 ∧
      ∃ n, (charSgdmaMapUserBufToSgl o cb).ledger = ⟨mapped n, unmapped n⟩ := by
  rw [map_of_reaches h]
  unfold PinsNone at hsome
  unfold PinsAll at hall
  cases hg : o.getUserPagesFast with
  | error rv => simp [hg] at hsome
  | pinned pages =>
    simp only [hg] at hsome hall
    have hne : pages.take (pagesNr cb.buf cb.len) ≠ [] := by
      simpa [List.take_eq_nil_iff, h.1] using hsome
    obtain ⟨hrv, hledger⟩ := mapPinned_of_partial cb (n := pagesNr cb.buf cb.len) hne
      fun hlen => by
        rw [List.length_take] at hlen
        simpa using not_and.1 hall (by omega)
    exact ⟨hrv, _, hledger⟩

/-- All pages pinned. -/
theorem map_of_pinsAll (h : ReachesPin o cb) (hall : PinsAll o cb) :
    (charSgdmaMapUserBufToSgl o cb).ledger = ⟨mapped (pagesNr cb.buf cb.len), []⟩ ∧
      (leftover cb ≠ 0 → (charSgdmaMapUserBufToSgl o cb).rv < 0) ∧
      (leftover cb = 0 → (charSgdmaMapUserBufToSgl o cb).rv = 0 ∧
        (charSgdmaUnmapUserBuf (charSgdmaMapUserBufToSgl o cb).cb).2 =
          unmapped (pagesNr cb.buf cb.len) ∧
        (charSgdmaMapUserBufToSgl o cb).cb.sgt =
          (sgSetPages (pagesNr cb.buf cb.len) cb.buf cb.len).1) := by
  rw [map_of_reaches h]
  unfold PinsAll at hall
  cases hg : o.getUserPagesFast with
  | error rv => simp [hg] at hall
  | pinned pages =>
    simp only [hg] at hall
    have hlen : (pages.take (pagesNr cb.buf cb.len)).length = pagesNr cb.buf cb.len := by
      rw [List.length_take, min_eq_left hall.1]
    have hne : pages.take (pagesNr cb.buf cb.len) ≠ [] := by
      rw [← List.length_pos_iff, hlen]
      exact Nat.pos_of_ne_zero h.1
    exact mapPinned_of_all hne hlen hall.2

end Mapping

/-! ## The entries of the scatter table -/

theorem sgSetPages_zero (n : ℕ) (buf : BitVec 64) :
    (∀ x ∈ (sgSetPages n buf 0).1, x = 0) ∧ (sgSetPages n buf 0).2 = 0 := by
  induction n generalizing buf with
  | zero => exact ⟨List.forall_mem_nil _, rfl⟩
  | succ n ih =>
    have hmin : min (PAGE_SIZE - (offsetInPage buf).toNat) ((0 : BitVec 64).setWidth 32).toNat = 0 :=
      Nat.min_eq_right (Nat.zero_le _)
    rw [sgSetPages, hmin]
    obtain ⟨hall, hleft⟩ := ih (buf + BitVec.ofNat 64 0)
    exact ⟨List.forall_mem_cons.2 ⟨rfl, hall⟩, hleft⟩

/-- Entries without bytes cover nothing of the buffer. -/
theorem sgSetPages_left {n : ℕ} {buf len : BitVec 64} (h : ∀ x ∈ (sgSetPages n buf len).1, x = 0) :
    (sgSetPages n buf len).2 = len := by
  induction n generalizing buf len with
  | zero => rfl
  | succ n ih =>
    rw [sgSetPages, List.forall_mem_cons] at h
    obtain ⟨h0, hrest⟩ := h
    have hsub : len - BitVec.ofNat 64 0 = len := BitVec.sub_zero len
    rw [h0, hsub] at hrest
    rw [sgSetPages, h0, hsub]
    exact ih hrest

theorem offsetInPage_toNat (buf : BitVec 64) : (offsetInPage buf).toNat = buf.toNat % 4096 := by
  rw [offsetInPage, BitVec.toNat_and]
  exact Nat.and_two_pow_sub_one_eq_mod _ 12

theorem and_add_and_not (x m : BitVec 64) : (x &&& m) + (x &&& ~~~m) = x := by
  rw [BitVec.add_eq_or_of_and_eq_zero]
  · ext j hj
    cases hx : x[j] <;> simp [hx]
  · ext j hj
    cases hm : m[j] <;> simp [hm]

/-- A buffer of less than 4 GiB fits the pages it is said to touch. -/
theorem le_pagesNr {buf len : BitVec 64} (h : len.toNat < 2 ^ 32) :
    buf.toNat % 4096 + len.toNat ≤ 4096 * pagesNr buf len := by
  have hsplit : offsetInPage buf + (buf &&& ~~~0xfff) = buf := and_add_and_not buf 0xfff
  have hdiff : buf + len + 4096 - 1 - (buf &&& ~~~0xfff) = offsetInPage buf + len + 4095 := by
    generalize buf &&& ~~~0xfff = page, offsetInPage buf = off at hsplit ⊢
    rw [← hsplit]
    ring
  have hoff := offsetInPage_toNat buf
  rw [pagesNr, hdiff, BitVec.toNat_setWidth, BitVec.toNat_ushiftRight, Nat.shiftRight_eq_div_pow,
    BitVec.toNat_add, BitVec.toNat_add, hoff]
  have hmask : BitVec.toNat (4095 : BitVec 64) = 4095 := rfl
  rw [PAGE_SHIFT, hmask]
  omega

/-- Entry by entry the loop covers a buffer that the pages left to it can hold. -/
theorem sgSetPages_covers {n : ℕ} {buf len : BitVec 64} (hlen : len.toNat < 2 ^ 32)
    (h : len = 0 ∨ buf.toNat % 4096 + len.toNat ≤ 4096 * n) : (sgSetPages n buf len).2 = 0 := by
  induction n generalizing buf len with
  | zero =>
    rcases h with h | h
    · exact h
    · have hzero : len.toNat = 0 := by omega
      exact BitVec.eq_of_toNat_eq hzero
  | succ n ih =>
    have hoff := offsetInPage_toNat buf
    have hwidth : (len.setWidth 32).toNat = len.toNat := by
      rw [BitVec.toNat_setWidth, Nat.mod_eq_of_lt hlen]
    rw [sgSetPages, hwidth, hoff, PAGE_SIZE]
    -- the entry takes the rest of its page, or the rest of the buffer
    generalize hb : min (4096 - buf.toNat % 4096) len.toNat = nbytes
    have hsmall : (BitVec.ofNat 64 nbytes).toNat = nbytes := by
      rw [BitVec.toNat_ofNat]
      omega
    have hsub : (len - BitVec.ofNat 64 nbytes).toNat = len.toNat - nbytes := by
      rw [BitVec.toNat_sub_of_le (by rw [BitVec.le_def, hsmall]; omega), hsmall]
    apply ih
    · rw [hsub]
      omega
    · rcases Nat.lt_or_ge (4096 - buf.toNat % 4096) len.toNat with hpage | hrest
      · right
        rw [hsub, BitVec.toNat_add, hsmall]
        have hle : buf.toNat % 4096 + len.toNat ≤ 4096 * (n + 1) := by
          rcases h with rfl | h
          · simp at hpage
          · exact h
        omega
      · left
        apply BitVec.eq_of_toNat_eq
        rw [hsub]
        change _ = 0
        omega

/-- The early return with part of the buffer left is never taken below 4 GiB. -/
theorem leftover_eq_zero {cb : XdmaIoCb} (h : cb.len.toNat < 2 ^ 32) : leftover cb = 0 :=
  sgSetPages_covers h (Or.inr (le_pagesNr h))

/-- A covered buffer gives a transfer to submit, unless it is empty. -/
theorem transfers_eq (o : SubmitOutcomes) {cb : XdmaIoCb} (h : leftover cb = 0) :
    o.transfers (sgSetPages (pagesNr cb.buf cb.len) cb.buf cb.len).1 =
      if cb.len = 0 then [] else o.tfer :: o.tfers := by
  have hiff : ((sgSetPages (pagesNr cb.buf cb.len) cb.buf cb.len).1.all (· == 0)) = true ↔
      cb.len = 0 := by
    rw [List.all_eq_true]
    simp only [beq_iff_eq]
    constructor
    · intro hall
      exact (sgSetPages_left hall).symm.trans h
    · intro hlen
      rw [hlen]
      exact (sgSetPages_zero _ cb.buf).1
  unfold SubmitOutcomes.transfers
  simp only [hiff]

/-! ## Submitting -/

def TransferOutcome.fails (t : TransferOutcome) : Bool :=
  t.transferInit < 0 || t.transferQueue < 0

/-- The submission calls back: every check passes, the request has bytes, and if one of
its transfers fails, the first that does fails in `transfer_init`. -/
structure SubmitOutcomes.CallsBack (o : SubmitOutcomes) (count : BitVec 64) : Prop where
  devHndl : o.devHndl = true
  debugCheckDevHndl : 0 ≤ o.debugCheckDevHndl
  channelOk : o.channelOk = true
  magicOk : o.magicOk = true
  online : o.offline = false
  dirOk : o.dirOk = true
  pciMapSg : o.pciMapSg ≠ 0
  initRequest : o.initRequest = true
  bytes : count ≠ 0
  transfers : ∀ t ∈ (o.tfer :: o.tfers).find? TransferOutcome.fails, t.transferInit < 0

/-- One call of `io_done` if the first failure is that of `transfer_init`, or if there is
none; no call otherwise. -/
theorem submitTransfers_ioDone {ts : List TransferOutcome} (hne : ts ≠ []) :
    ((∀ t ∈ ts.find? TransferOutcome.fails, t.transferInit < 0) →
      ∃ e, (submitTransfers ts).ioDone = [e]) ∧
    (¬(∀ t ∈ ts.find? TransferOutcome.fails, t.transferInit < 0) →
      (submitTransfers ts).ioDone = []) := by
  induction ts with
  | nil => exact absurd rfl hne
  | cons t ts ih =>
    rw [submitTransfers]
    by_cases hi : t.transferInit < 0
    · have hf : t.fails = true := by simp [TransferOutcome.fails, hi]
      rw [if_pos hi, List.find?_cons_of_pos hf]
      exact ⟨fun _ => ⟨_, rfl⟩, fun h => absurd (fun _ hu => by cases hu; exact hi) h⟩
    · rw [if_neg hi]
      by_cases hq : t.transferQueue < 0
      · have hf : t.fails = true := by simp [TransferOutcome.fails, hq]
        rw [if_pos hq, List.find?_cons_of_pos hf]
        exact ⟨fun h => absurd (h t rfl) hi, fun _ => rfl⟩
      · have hf : ¬t.fails = true := by simp [TransferOutcome.fails, hi, hq]
        rw [if_neg hq, List.find?_cons_of_neg hf]
        cases ts with
        | nil => exact ⟨fun _ => ⟨_, rfl⟩, fun h => absurd (fun _ hu => by cases hu) h⟩
        | cons u ts => exact ih (List.cons_ne_nil _ _)

theorem submit_ioDone (o : SubmitOutcomes) {cb : XdmaIoCb} (h : leftover cb = 0) :
    let s := xdmaXferSubmitNowait o (sgSetPages (pagesNr cb.buf cb.len) cb.buf cb.len).1
    (o.CallsBack cb.len → ∃ e, s.ioDone = [e]) ∧ (¬o.CallsBack cb.len → s.ioDone = []) := by
  have hts := transfers_eq o h
  have hloop := submitTransfers_ioDone (List.cons_ne_nil o.tfer o.tfers)
  intro s
  constructor
  · intro hc
    have hs : s = submitTransfers (o.tfer :: o.tfers) := by
      rw [if_neg hc.bytes] at hts
      simp [s, xdmaXferSubmitNowait, hts, hc.devHndl, hc.debugCheckDevHndl.not_gt, hc.channelOk,
        hc.magicOk, hc.online, hc.dirOk, hc.pciMapSg, hc.initRequest]
    rw [hs]
    exact hloop.1 hc.transfers
  · intro hc
    unfold s xdmaXferSubmitNowait
    split_ifs with h1 h2 h3 h4 h5 h6 h7 h8
    any_goals rfl
    -- every check passes
    rw [hts]
    split_ifs with h9
    · rfl
    · refine hloop.2 fun ht => hc ?_
      simp only [Bool.not_eq_true', Bool.not_eq_false, Bool.not_eq_true, not_lt] at h1 h2 h3 h4 h5 h6 h8
      exact ⟨h1, h2, h3, h4, h5, h6, h7, h8, h9, ht⟩

/-! ## The whole write -/

/-- The call passes the checks before anything is acquired. -/
structure Enters (c : WriteCall) (o : Outcomes) : Prop where
  xcdevCheck : 0 ≤ o.xcdevCheck
  dirToDevice : o.dirToDevice = true
  align : checkTransferAlign o.align c.buf c.count c.pos = 0

/-- The control block as it is handed to the mapping. -/
def WriteCall.cb (c : WriteCall) : XdmaIoCb := ⟨c.buf, c.count, 0, [], none⟩

/-- The call returns, and with its callback every resource acquired has been released
exactly once. -/
def ReleasesOnce (c : WriteCall) (o : Outcomes) : Prop :=
  ∃ r, sha256Write c o = some r ∧ r.ledger.Complete

/-- No exit that leaks is taken: once entered, the control block is allocated, pinning
pins something, a full mapping covers the buffer, and the submission of a write that does
not block calls back while the device is still there. -/
def Clean (c : WriteCall) (o : Outcomes) : Prop :=
  Enters c o → (c.block = true ∨ o.kzalloc = true) ∧
    (ReachesPin o.map c.cb → ¬PinsNone o.map ∧
      (PinsAll o.map c.cb → leftover c.cb = 0 ∧
        (c.block = true ∨ o.submit.CallsBack c.count ∧ 0 ≤ o.handlerCheck)))

variable {c : WriteCall} {o : Outcomes}

theorem releasesOnce_of_not_enters (h : ¬Enters c o) : ReleasesOnce c o := by
  have hnone : Ledger.Complete ⟨[], []⟩ := ⟨List.nodup_nil, List.Perm.nil⟩
  unfold ReleasesOnce sha256Write
  by_cases h1 : o.xcdevCheck < 0
  · exact ⟨_, if_pos h1, hnone⟩
  · cases h2 : o.dirToDevice with
    | false => exact ⟨_, if_neg h1, hnone⟩
    | true =>
      by_cases h3 : checkTransferAlign o.align c.buf c.count c.pos = 0
      · exact absurd ⟨not_lt.1 h1, h2, h3⟩ h
      · refine ⟨⟨checkTransferAlign o.align c.buf c.count c.pos, ⟨[], []⟩⟩, ?_, hnone⟩
        simp [h1, h3]

theorem write_of_enters (h : Enters c o) : sha256Write c o =
    let m := charSgdmaMapUserBufToSgl o.map c.cb
    let s := xdmaXferSubmitNowait o.submit m.cb.sgt
    let released := s.ioDone.flatMap fun _ => transferIoHandler o.handlerCheck m.cb
    if c.block then
      some (if m.rv < 0 then ⟨m.rv, m.ledger⟩ else ⟨o.xdmaXferSubmit,
        ⟨m.ledger.acquired, m.ledger.released ++ (charSgdmaUnmapUserBuf m.cb).2⟩⟩)
    else if o.kzalloc then
      some (if m.rv < 0 then ⟨m.rv, ⟨.cb :: m.ledger.acquired, m.ledger.released ++ [.cb]⟩⟩
        else ⟨if s.rv ≠ -EIOCBQUEUED then s.rv else c.count.toInt,
          ⟨.cb :: m.ledger.acquired, m.ledger.released ++ released⟩⟩)
    else none := by
  have h1 : ¬o.xcdevCheck < 0 := h.xcdevCheck.not_gt
  have h2 : ¬(!o.dirToDevice) = true := by simp [h.dirToDevice]
  rw [sha256Write, if_neg h1, if_neg h2, if_neg (not_not.2 h.align)]
  cases hb : c.block with
  | true =>
    dsimp only [WriteCall.cb]
    rw [if_pos rfl, if_pos rfl]
    split_ifs <;> rfl
  | false =>
    cases hk : o.kzalloc with
    | true =>
      have hfail : ¬(!true) = true := by decide
      dsimp only [WriteCall.cb]
      rw [if_neg Bool.false_ne_true, if_neg Bool.false_ne_true, if_neg hfail, if_pos rfl]
      split_ifs <;> rfl
    | false => rfl

/-- A mapping that fails is the end of the call: the control block goes, the rest is as
the mapping leaves it. -/
theorem releasesOnce_of_map_fails (h : Enters c o)
    (hrv : (charSgdmaMapUserBufToSgl o.map c.cb).rv < 0)
    (hcb : .cb ∉ (charSgdmaMapUserBufToSgl o.map c.cb).ledger.acquired) :
    ReleasesOnce c o ↔ (c.block = true ∨ o.kzalloc = true) ∧
      (charSgdmaMapUserBufToSgl o.map c.cb).ledger.Complete := by
  rw [ReleasesOnce, write_of_enters h]
  dsimp only
  rw [if_pos hrv, if_pos hrv]
  cases c.block with
  | true => simp
  | false =>
    cases o.kzalloc with
    | true => simp [complete_cb hcb]
    | false => simp

theorem not_complete_of_length {l : Ledger} (h : l.released.length < l.acquired.length) :
    ¬l.Complete := fun hc => h.ne hc.length_eq

/-- After a mapping that succeeds everything is left to the caller, or to the callback. -/
theorem releasesOnce_of_mapped (h : Enters c o) (hr : ReachesPin o.map c.cb)
    (hall : PinsAll o.map c.cb) (hleft : leftover c.cb = 0) :
    ReleasesOnce c o ↔ (c.block = true ∨ o.kzalloc = true) ∧
      (c.block = true ∨ o.submit.CallsBack c.count ∧ 0 ≤ o.handlerCheck) := by
  obtain ⟨hledger, -, hmapped⟩ := map_of_pinsAll hr hall
  obtain ⟨hrv, hun, hsgt⟩ := hmapped hleft
  obtain ⟨hcalls, hsilent⟩ := submit_ioDone o.submit hleft
  have hnlt : ¬(charSgdmaMapUserBufToSgl o.map c.cb).rv < 0 := by omega
  rw [ReleasesOnce, write_of_enters h]
  dsimp only
  rw [if_neg hnlt, if_neg hnlt, hledger, hun, hsgt]
  cases hb : c.block with
  | true => simp [complete_unmapped]
  | false =>
    cases hk : o.kzalloc with
    | false => simp
    | true =>
      simp only [Bool.false_eq_true, if_false, if_true, false_or, true_and, Option.some.injEq,
        exists_eq_left', List.nil_append]
      have hlate (r : List Resource) (hlen : r = []) :
          ¬Ledger.Complete ⟨.cb :: mapped (pagesNr c.cb.buf c.cb.len), r⟩ :=
        not_complete_of_length (by rw [hlen]; exact Nat.succ_pos _)
      by_cases hc : o.submit.CallsBack c.count
      · obtain ⟨e, hdone⟩ := hcalls hc
        rw [hdone, List.flatMap_cons, List.flatMap_nil, List.append_nil, and_iff_right hc]
        by_cases hcheck : o.handlerCheck < 0
        · exact iff_of_false (hlate _ (if_pos hcheck)) hcheck.not_ge
        · rw [transferIoHandler, if_neg hcheck, hun, complete_cb (cb_not_mem_mapped _)]
          exact iff_of_true (complete_unmapped _) (not_lt.1 hcheck)
      · rw [hsilent hc]
        exact iff_of_false (hlate _ rfl) fun h => hc h.1

/-- A write releases everything exactly once if and only if it is clean. -/
theorem write_releases_iff (c : WriteCall) (o : Outcomes) : ReleasesOnce c o ↔ Clean c o := by
  by_cases he : Enters c o
  · have hfails := releasesOnce_of_map_fails he
    rw [Clean, imp_iff_right he]
    by_cases hr : ReachesPin o.map c.cb
    · rw [imp_iff_right hr]
      by_cases hnone : PinsNone o.map
      · -- the array of page pointers is lost
        obtain ⟨hrv, hledger⟩ := map_of_pinsNone rfl hr hnone
        rw [hfails hrv (by rw [hledger]; decide), hledger]
        refine iff_of_false (fun hc => ?_) fun hc => hc.2.1 hnone
        exact not_complete_of_length (by decide) hc.2
      · rw [and_iff_right hnone]
        by_cases hall : PinsAll o.map c.cb
        · rw [imp_iff_right hall]
          by_cases hleft : leftover c.cb = 0
          · rw [releasesOnce_of_mapped he hr hall hleft, and_iff_right hleft]
          · -- the early return of a buffer not covered
            obtain ⟨hledger, hrv, -⟩ := map_of_pinsAll hr hall
            rw [hfails (hrv hleft) (by rw [hledger]; exact cb_not_mem_mapped _), hledger]
            refine iff_of_false (fun hc => ?_) fun hc => hleft hc.2.1
            exact hc.2.length_eq.not_lt (Nat.succ_pos _)
        · obtain ⟨hrv, n, hledger⟩ := map_of_partial hr hnone hall
          rw [hfails hrv (by rw [hledger]; exact cb_not_mem_mapped n), hledger,
            and_iff_left (complete_unmapped n), and_iff_left fun hc => absurd hc hall]
    · obtain ⟨hrv, hledger⟩ := map_of_not_reaches rfl hr
      have hcomplete : (charSgdmaMapUserBufToSgl o.map c.cb).ledger.Complete ∧
          .cb ∉ (charSgdmaMapUserBufToSgl o.map c.cb).ledger.acquired := by
        rcases hledger with hledger | hledger
        · rw [hledger]
          exact ⟨⟨List.nodup_nil, List.Perm.nil⟩, List.not_mem_nil⟩
        · rw [hledger]
          exact ⟨⟨List.nodup_singleton _, List.Perm.refl _⟩, by decide⟩
      rw [hfails hrv hcomplete.2, and_iff_left hcomplete.1, and_iff_left fun hc => absurd hc hr]
  · exact iff_of_true (releasesOnce_of_not_enters he) fun hc => absurd hc he

/-- A non-blocking write of one page-aligned block to a device that goes offline. -/
def offlineWrite : WriteCall × Outcomes where
  fst := ⟨0x10000, 64, 0, false⟩
  snd :=
    { xcdevCheck := 0
      dirToDevice := true
      align := ⟨true, 1, 1⟩
      kzalloc := true
      map := ⟨true, true, .pinned [7]⟩
      xdmaXferSubmit := 64
      submit := ⟨true, 0, true, true, true, true, 1, true, ⟨0, 0⟩, []⟩
      handlerCheck := 0 }

/-- Its error reaches no callback: the control block, the page array, the pinned page and
the table are lost. -/
theorem submit_error_leaks :
    ¬∀ (c : WriteCall) (o : Outcomes), o.kzalloc = true → ReleasesOnce c o := by
  intro h
  have hwrite : sha256Write offlineWrite.1 offlineWrite.2 =
      some ⟨-EBUSY, ⟨[.cb, .sgt, .pages, .page 0], []⟩⟩ := by decide +kernel
  obtain ⟨r, hr, hc⟩ := h offlineWrite.1 offlineWrite.2 rfl
  rw [hwrite, Option.some.injEq] at hr
  rw [← hr] at hc
  exact not_complete_of_length (by decide) hc

end ZynqSha256.PcieDriver
