import ZynqSha256.Proofs.XdmaDesc

/-! `xdma_init_request`: the pieces of a request cover the bytes of its scatter list. -/

namespace ZynqSha256.Xdma

/-- The bytes the entries of a mapped scatter list name. -/
def sgRuns (sgl : List SgEntry) : List (BitVec 64 × ℕ) :=
  sgl.map fun sg => (sg.dmaAddress, sg.dmaLen.toNat)

variable {b tlen : BitVec 32} {addr : BitVec 64} {fuel : ℕ}

/-- What the pieces of `n` bytes from `addr` on are. -/
structure Pieces (b : BitVec 32) (addr : BitVec 64) (n : ℕ) (ds : List SwDesc) : Prop where
  cover : Segments.cover 1 (runs ds) = Segments.pts 1 addr n
  size : ∀ d ∈ ds, 0 < d.len.toNat ∧ d.len.toNat ≤ b.toNat
  count : ds.length = (n + (b.toNat - 1)) / b.toNat

theorem Pieces.nil (hb : 0 < b.toNat) : Pieces b addr 0 [] :=
  ⟨rfl, by simp, by rw [Nat.zero_add, Nat.div_eq_of_lt (by omega)]; rfl⟩

theorem Pieces.one {n : BitVec 32} (hn : 0 < n.toNat) (h : n.toNat ≤ b.toNat) :
    Pieces b addr n.toNat [⟨addr, n⟩] := by
  refine ⟨?_, ?_, ?_⟩
  · rw [runs, List.map_singleton, Segments.cover_cons]
    exact List.append_nil _
  · intro d hd
    rw [List.mem_singleton.1 hd]
    exact ⟨hn, h⟩
  · rw [show n.toNat + (b.toNat - 1) = n.toNat - 1 + b.toNat by omega,
      Nat.add_div_right _ (by omega), Nat.div_eq_of_lt (by omega)]
    rfl

theorem Pieces.cons {n : ℕ} {ds : List SwDesc} (hb : 0 < b.toNat)
    (h : Pieces b (addr + b.setWidth 64) n ds) :
    Pieces b addr (b.toNat + n) (⟨addr, b⟩ :: ds) := by
  refine ⟨?_, ?_, ?_⟩
  · have hstep : addr + b.toNat • 1 = addr + b.setWidth 64 := by simp
    rw [Segments.pts_add, hstep, ← h.cover]
    rfl
  · intro d hd
    rcases List.mem_cons.1 hd with rfl | hd
    · exact ⟨hb, le_rfl⟩
    · exact h.size d hd
  · rw [List.length_cons, h.count, Nat.add_assoc, Nat.add_comm b.toNat, Nat.add_div_right _ hb]

/-- Each round takes a byte at least. -/
theorem splitEntry_pieces (addr : BitVec 64) (hb : 0 < b.toNat) (hfuel : tlen.toNat ≤ fuel) :
    ∃ ds, splitEntry b fuel addr tlen = some ds ∧ Pieces b addr tlen.toNat ds := by
  induction fuel generalizing addr tlen with
  | zero =>
    obtain rfl : tlen = 0 := BitVec.eq_of_toNat_eq (by simpa using hfuel)
    exact ⟨[], rfl, Pieces.nil hb⟩
  | succ fuel ih =>
    rw [splitEntry]
    by_cases h0 : tlen = 0
    · subst h0
      exact ⟨[], rfl, Pieces.nil hb⟩
    have hpos : 0 < tlen.toNat := by
      rw [Nat.pos_iff_ne_zero]
      intro h
      exact h0 (BitVec.eq_of_toNat_eq h)
    rw [if_neg h0]
    by_cases hlt : b < tlen
    · have hlt' : b.toNat < tlen.toNat := hlt
      have hsub : (tlen - b).toNat = tlen.toNat - b.toNat := BitVec.toNat_sub_of_le (BitVec.le_def.2 (le_of_lt hlt'))
      obtain ⟨ds, hds, hp⟩ := ih (addr + b.setWidth 64) (show (tlen - b).toNat ≤ fuel by omega)
      refine ⟨_, by rw [if_pos hlt, hds]; rfl, ?_⟩
      have hcons := hp.cons hb
      rwa [hsub, Nat.add_sub_cancel' (le_of_lt hlt')] at hcons
    · have hle : tlen.toNat ≤ b.toNat := not_lt.1 hlt
      exact ⟨_, if_neg hlt, Pieces.one hpos hle⟩

/-- What is allocated for one entry is enough for its pieces. -/
theorem pieces_le {sg : SgEntry} (hb : 0 < b.toNat) (hsg : sg.dmaLen.toNat + b.toNat ≤ 2 ^ 32) :
    (sg.dmaLen.toNat + (b.toNat - 1)) / b.toNat ≤ 1 + extraDescs b [sg] := by
  unfold extraDescs
  rw [List.map_singleton, List.sum_singleton]
  by_cases hlt : b < sg.dmaLen
  · have hadd : (sg.dmaLen + b - 1).toNat = sg.dmaLen.toNat + (b.toNat - 1) := by
      have h1 : (1 : BitVec 32).toNat = 1 := rfl
      rw [BitVec.toNat_sub, BitVec.toNat_add, h1]
      omega
    rw [if_pos hlt, BitVec.toNat_udiv, hadd]
    omega
  · have hle : sg.dmaLen.toNat ≤ b.toNat := not_lt.1 hlt
    rw [if_neg hlt]
    exact Nat.le_of_lt_succ (Nat.div_lt_of_lt_mul (by omega))

theorem extraDescs_cons (sg : SgEntry) (sgl : List SgEntry) :
    extraDescs b (sg :: sgl) = extraDescs b [sg] + extraDescs b sgl := by
  simp [extraDescs]

theorem splitEntries_pieces {sgl : List SgEntry} (hb : 0 < b.toNat)
    (hsg : ∀ sg ∈ sgl, sg.dmaLen.toNat ≤ fuel ∧ sg.dmaLen.toNat + b.toNat ≤ 2 ^ 32) :
    ∃ ds, splitEntries b fuel sgl = some ds ∧
      Segments.cover 1 (runs ds) = Segments.cover 1 (sgRuns sgl) ∧
      (∀ d ∈ ds, 0 < d.len.toNat ∧ d.len.toNat ≤ b.toNat) ∧
      ds.length ≤ sgl.length + extraDescs b sgl := by
  induction sgl with
  | nil => exact ⟨[], rfl, rfl, by simp, Nat.zero_le _⟩
  | cons sg sgl ih =>
    obtain ⟨hfuel, hno⟩ := hsg sg (by simp)
    obtain ⟨ds, hds, hp⟩ := splitEntry_pieces sg.dmaAddress hb hfuel
    obtain ⟨ds', hds', hcover, hsize, hcount⟩ := ih fun sg' h => hsg sg' (by simp [h])
    have hle := pieces_le hb hno
    refine ⟨ds ++ ds', by rw [splitEntries, hds, Option.bind_some, hds']; rfl, ?_, ?_, ?_⟩
    · rw [runs, List.map_append, Segments.cover_append, sgRuns, List.map_cons,
        Segments.cover_cons, ← hp.cover]
      exact congrArg _ hcover
    · intro d hd
      rcases List.mem_append.1 hd with h | h
      · exact hp.size d h
      · exact hsize d h
    · rw [List.length_append, hp.count, List.length_cons, extraDescs_cons]
      omega

/-- The size of the request does not wrap. -/
def SizeFits (sizeofCb : ℕ) (b : BitVec 32) (sgl : List SgEntry) : Prop :=
  sizeofCb + (sgl.length + extraDescs b sgl) * SIZEOF_SW_DESC < 2 ^ 32

instance (sizeofCb : ℕ) (b : BitVec 32) (sgl : List SgEntry) : Decidable (SizeFits sizeofCb b sgl) :=
  inferInstanceAs (Decidable (_ < _))

variable {sizeofCb : ℕ} {sgl : List SgEntry}

theorem SizeFits.requestSize (h : SizeFits sizeofCb b sgl) :
    requestSize sizeofCb (maxDescs b sgl) =
      sizeofCb + (sgl.length + extraDescs b sgl) * SIZEOF_SW_DESC := by
  unfold SizeFits at h
  have hmax : (maxDescs b sgl).toNat = sgl.length + extraDescs b sgl := by
    rw [maxDescs, BitVec.toNat_ofNat, Nat.mod_eq_of_lt]
    rw [SIZEOF_SW_DESC] at h
    omega
  rw [Xdma.requestSize, hmax, Nat.mod_eq_of_lt h]

/-- As many pieces as are allocated for pass the check after the loop. -/
theorem SizeFits.toInt_le {n : ℕ} (h : SizeFits sizeofCb b sgl)
    (hn : n ≤ sgl.length + extraDescs b sgl) :
    (BitVec.ofNat 32 n).toInt ≤ (maxDescs b sgl).toInt := by
  unfold SizeFits at h
  rw [SIZEOF_SW_DESC] at h
  have hint {m : ℕ} (hm : m < 2 ^ 28) : (BitVec.ofNat 32 m).toInt = m := by
    rw [BitVec.toInt_eq_toNat_of_lt (by rw [BitVec.toNat_ofNat]; omega), BitVec.toNat_ofNat,
      Nat.mod_eq_of_lt (by omega)]
  rw [maxDescs, hint (by omega), hint (by omega)]
  exact_mod_cast hn

/-- The request is accepted, with the pieces of its list. -/
theorem xdmaInitRequest_eq (hb : 0 < b.toNat) (ep : BitVec 64)
    (hsg : ∀ sg ∈ sgl, sg.dmaLen.toNat ≤ fuel ∧ sg.dmaLen.toNat + b.toNat ≤ 2 ^ 32)
    (hsize : SizeFits sizeofCb b sgl) :
    ∃ req, xdmaInitRequest sizeofCb b true fuel sgl ep = some (some req) ∧
      splitEntries b fuel sgl = some req.sdesc ∧ req.swDescIdx = 0 ∧ req.epAddr = ep := by
  obtain ⟨ds, hds, -, -, hcount⟩ := splitEntries_pieces hb hsg
  refine ⟨⟨ep, totalLen sgl, ds, 0, Nat.zero_le _⟩, ?_, hds, rfl, rfl⟩
  have h0 : b ≠ 0 := by
    rintro rfl
    exact absurd hb (by simp)
  have hroom : sizeofCb + ds.length * SIZEOF_SW_DESC ≤ requestSize sizeofCb (maxDescs b sgl) := by
    rw [hsize.requestSize]
    exact Nat.add_le_add_left (Nat.mul_le_mul_right _ hcount) _
  unfold xdmaInitRequest
  rw [if_neg fun h => h0 h.1, if_neg (by simp), hds, Option.bind_some, if_neg (not_lt.2 hroom),
    if_neg (not_lt.2 (hsize.toInt_le hcount))]

/-- The bytes of the request, and how many they are. -/
theorem xdmaInitRequest_runs (hb : 0 < b.toNat) (ep : BitVec 64)
    (hsg : ∀ sg ∈ sgl, sg.dmaLen.toNat ≤ fuel ∧ sg.dmaLen.toNat + b.toNat ≤ 2 ^ 32)
    (hsize : SizeFits sizeofCb b sgl) :
    ∃ req, xdmaInitRequest sizeofCb b true fuel sgl ep = some (some req) ∧
      Segments.cover 1 (runs req.sdesc) = Segments.cover 1 (sgRuns sgl) ∧
      Segments.total (runs req.sdesc) = Segments.total (sgRuns sgl) ∧ req.swDescIdx = 0 ∧
      req.epAddr = ep := by
  obtain ⟨req, hreq, hsdesc, hidx, hep⟩ := xdmaInitRequest_eq hb ep hsg hsize
  obtain ⟨ds, hds, hcover, -, -⟩ := splitEntries_pieces hb hsg
  obtain rfl : req.sdesc = ds := Option.some_injective _ (hsdesc.symm.trans hds)
  refine ⟨req, hreq, hcover, ?_, hidx, hep⟩
  rw [← Segments.length_cover 1, hcover, Segments.length_cover]

/-- Where the size of the request does not wrap it is accepted, its pieces name the bytes of the
list in order, none is empty or longer than a descriptor allows, and they fit what was allocated
for them. -/
theorem xdmaInitRequest_covers (hb : 0 < b.toNat) (ep : BitVec 64)
    (hsg : ∀ sg ∈ sgl, sg.dmaLen.toNat ≤ fuel ∧ sg.dmaLen.toNat + b.toNat ≤ 2 ^ 32)
    (hsize : SizeFits sizeofCb b sgl) :
    ∃ req, xdmaInitRequest sizeofCb b true fuel sgl ep = some (some req) ∧
      Segments.cover 1 (runs req.sdesc) = Segments.cover 1 (sgRuns sgl) ∧
      (∀ d ∈ req.sdesc, 0 < d.len.toNat ∧ d.len.toNat ≤ b.toNat) ∧
      sizeofCb + req.sdesc.length * SIZEOF_SW_DESC ≤ requestSize sizeofCb (maxDescs b sgl) ∧
      req.swDescIdx = 0 ∧ req.epAddr = ep := by
  obtain ⟨req, hreq, hsdesc, hidx, hep⟩ := xdmaInitRequest_eq hb ep hsg hsize
  obtain ⟨ds, hds, hcover, hlen, hcount⟩ := splitEntries_pieces hb hsg
  obtain rfl : req.sdesc = ds := Option.some_injective _ (hsdesc.symm.trans hds)
  refine ⟨req, hreq, hcover, hlen, ?_, hidx, hep⟩
  rw [hsize.requestSize]
  exact Nat.add_le_add_left (Nat.mul_le_mul_right _ hcount) _

/-- The first of two entries is cut in three. -/
theorem xdmaInitRequest_covers_pages : ∃ req, xdmaInitRequest 0x200 0x1000 true 0x2800
    [⟨0x100000, 0x2800⟩, ⟨0x200000, 0x10⟩] 0 = some (some req) ∧
      0x200 + req.sdesc.length * SIZEOF_SW_DESC ≤ 0x200 + 5 * SIZEOF_SW_DESC := by
  obtain ⟨req, hreq, -, -, hfits, -⟩ := xdmaInitRequest_covers (b := 0x1000) (by decide) 0
    (show ∀ sg ∈ [SgEntry.mk 0x100000 0x2800, ⟨0x200000, 0x10⟩],
      sg.dmaLen.toNat ≤ 0x2800 ∧ sg.dmaLen.toNat + (0x1000 : BitVec 32).toNat ≤ 2 ^ 32 by simp)
    (show SizeFits 0x200 0x1000 _ by decide)
  exact ⟨req, hreq, hfits⟩

end ZynqSha256.Xdma
