import ZynqSha256.Proofs.Bursts

/-! AXI4 write bursts and their responses. Three processes close a burst, on three
conditions; only the one for BVALID looks at WVALID, and it drops a burst that ends
while a response waits. -/

namespace ZynqSha256.Sha256Full

variable {idWidth : ℕ}

def awHandshake (i : FullIn idWidth) (s : Sha256Full) : Bool := i.awvalid && s.axiAwready
def wHandshake (i : FullIn idWidth) (s : Sha256Full) : Bool := s.wready i && i.wvalid
def bHandshake (i : FullIn idWidth) (s : Sha256Full) : Bool := s.axiBvalid && i.bready

/-- Cycle `n` hands over a write address. -/
def awAt (i : ℕ → FullIn idWidth) (n : ℕ) : Bool := (run i n).awHandshake (i n)

/-- Cycle `n` hands over a word. -/
def wAt (i : ℕ → FullIn idWidth) (n : ℕ) : Bool := (run i n).wHandshake (i n)

/-- Cycle `n` hands over the last word of a burst. -/
def wlastAt (i : ℕ → FullIn idWidth) (n : ℕ) : Bool := wAt i n && (i n).wlast

/-- Cycle `n` hands over a response. -/
def bAt (i : ℕ → FullIn idWidth) (n : ℕ) : Bool := (run i n).bHandshake (i n)

/-- How many write addresses, and how many words, cycles before `n` handed over. -/
def awCount (i : ℕ → FullIn idWidth) (n : ℕ) : ℕ := Nat.count (fun m => awAt i m = true) n
def wCount (i : ℕ → FullIn idWidth) (n : ℕ) : ℕ := Nat.count (fun m => wAt i m = true) n

/-- A master that follows the AXI rules on the write channels. Burst `k` has AWLEN
`len k`; WLAST marks the last word of each burst, data may come before its address,
and WDATA and WLAST are arbitrary while WVALID is low. -/
structure WriteMaster (len : ℕ → ℕ) (i : ℕ → FullIn idWidth) : Prop where
  aresetn : ∀ n, (i n).aresetn = true
  awStable : Clocked.Stable (fun n => (i n).awvalid) (fun n => (run i n).axiAwready)
    (fun n => ((i n).awid, (i n).awaddr, (i n).awlen, (i n).awburst))
  wStable : Clocked.Stable (fun n => (i n).wvalid) (fun n => (run i n).wready (i n))
    (fun n => ((i n).wdata, (i n).wstrb, (i n).wlast))
  burst : ∀ n, (i n).awvalid = true → BurstOk (i n).awburst (i n).awaddr (i n).awlen
  awlen : ∀ n, (i n).awvalid = true → (i n).awlen.toNat = len (awCount i n)
  wlast : ∀ n, (i n).wvalid = true → ((i n).wlast = true ↔
    (Burst.place len (wCount i n)).2 = len (Burst.place len (wCount i n)).1)

/-! ## One clock edge -/

/-- What holds of the write channel whatever the master does. -/
structure WriteOk (s : Sha256Full) : Prop where
  flag : s.axiWready = true → s.axiAwvAwrFlag = true
  fresh : s.axiAwready = true → s.axiAwvAwrFlag = true ∧ s.axiWready = false

theorem axiWready_of_wready {i : FullIn idWidth} {s : Sha256Full} (h : s.wready i = true) :
    s.axiWready = true := by
  rw [wready, Bool.and_eq_true] at h
  exact h.1

section Edge

variable {i : FullIn idWidth} {s : Sha256Full} (ha : i.aresetn = true) (h : s.WriteOk)
include ha h

theorem write_accept (hacc : s.awAccept i = true) : (s.posedge i).axiAwready = true ∧
    (s.posedge i).axiAwvAwrFlag = true ∧ (s.posedge i).axiWready = false := by
  have hflag : s.axiAwvAwrFlag = false := by
    simp only [awAccept, Bool.and_eq_true, Bool.not_eq_true'] at hacc
    exact hacc.1.2
  have hw : s.axiWready = false := by
    by_contra hw
    rw [h.flag (by simpa using hw)] at hflag
    cases hflag
  simp [posedge, ha, axiAwreadyNext, axiAwvAwrFlagNext, axiWreadyNext, hacc, hflag, hw]

/-- With no burst open the channel rests. -/
theorem write_rest (hflag : s.axiAwvAwrFlag = false) (hacc : s.awAccept i = false) :
    (s.posedge i).axiAwready = false ∧ (s.posedge i).axiAwvAwrFlag = false ∧
      (s.posedge i).axiWready = false := by
  have hw : s.axiWready = false := by
    by_contra hw
    rw [h.flag (by simpa using hw)] at hflag
    cases hflag
  have hwr : s.wready i = false := by rw [wready, hw, Bool.false_and]
  simp [posedge, ha, axiAwreadyNext, axiAwvAwrFlagNext, axiWreadyNext, hacc, hflag, hw, hwr]

/-- WLAST with S_AXI_WREADY closes a burst; WVALID is not asked for. -/
theorem write_open (hflag : s.axiAwvAwrFlag = true) : (s.posedge i).axiAwready = false ∧
    (s.posedge i).axiAwvAwrFlag = !(i.wlast && s.wready i) ∧
    ((i.wlast && s.wready i) = true → (s.posedge i).axiWready = false) := by
  have hacc : s.awAccept i = false := by simp [awAccept, hflag]
  have hready : i.wlast = true → s.wready i = true → s.axiAwready = false := by
    intro _ hwr
    by_contra hr
    have hw := (h.fresh (by simpa using hr)).2
    rw [axiWready_of_wready hwr] at hw
    cases hw
  refine ⟨?_, ?_, fun hl => ?_⟩
  · simp [posedge, ha, axiAwreadyNext, hacc]
    exact hready
  · simp [posedge, ha, axiAwvAwrFlagNext, hacc, hflag]
  · rw [Bool.and_eq_true] at hl
    simp [posedge, ha, axiWreadyNext, axiWready_of_wready hl.2, hl.1]

theorem writeOk_posedge : (s.posedge i).WriteOk := by
  by_cases hacc : s.awAccept i = true
  · obtain ⟨hr, hf, hw⟩ := write_accept ha h hacc
    exact ⟨fun _ => hf, fun _ => ⟨hf, hw⟩⟩
  rw [Bool.not_eq_true] at hacc
  by_cases hflag : s.axiAwvAwrFlag = true
  · obtain ⟨hr, hf, hw⟩ := write_open ha h hflag
    refine ⟨fun hwr => ?_, fun hc => by simp [hr] at hc⟩
    rw [hf]
    by_contra hl
    rw [hw (by simpa using hl)] at hwr
    cases hwr
  · obtain ⟨hr, -, hw⟩ := write_rest ha h (by simpa using hflag) hacc
    exact ⟨fun hc => by simp [hw] at hc, fun hc => by simp [hr] at hc⟩

end Edge

/-! ## Runs -/

/-- WLAST never meets S_AXI_WREADY outside a handshake. -/
def WlastGated (i : ℕ → FullIn idWidth) (n : ℕ) : Prop :=
  (run i n).wready (i n) = true → (i n).wlast = true → (i n).wvalid = true

/-- In cycle `n` the burst accepted in cycle `t` is open: the addresses and the words
handed over so far agree on it and on how far it is. -/
structure Writing (len : ℕ → ℕ) (i : ℕ → FullIn idWidth) (t n : ℕ) : Prop where
  lt : t < n
  accepted : awAt i t = true
  flag : (run i n).axiAwvAwrFlag = true
  ready : (run i n).axiAwready = false
  count : awCount i n = awCount i t + 1
  place : Burst.place len (wCount i n) = (awCount i t, Clocked.countFrom (wAt i) t n)

/-- Every burst whose address was accepted is complete; at most the next one is
about to be accepted. -/
structure WriteRest (len : ℕ → ℕ) (i : ℕ → FullIn idWidth) (n : ℕ) : Prop where
  flag : (run i n).axiAwvAwrFlag = (run i n).axiAwready
  shut : (run i n).axiWready = false
  place : Burst.place len (wCount i n) = (awCount i n, 0)

section Runs

variable {len : ℕ → ℕ} {i : ℕ → FullIn idWidth} {t n : ℕ}

theorem run_writeOk (ha : ∀ n, (i n).aresetn = true) (n : ℕ) : (run i n).WriteOk := by
  induction n with
  | zero => exact ⟨fun h => Bool.noConfusion h, fun h => Bool.noConfusion h⟩
  | succ n ih => exact writeOk_posedge (ha n) ih

theorem awCount_succ (n : ℕ) : awCount i (n + 1) = awCount i n + if awAt i n then 1 else 0 :=
  Nat.count_succ _ n

theorem wCount_succ (n : ℕ) : wCount i (n + 1) = wCount i n + if wAt i n then 1 else 0 :=
  Nat.count_succ _ n

/-- AWREADY answers the address latched in the cycle before, which the master still offers. -/
theorem WriteMaster.awAt_of_awready (h : WriteMaster len i) {n : ℕ}
    (hr : (run i n).axiAwready = true) : awAt i n = true := by
  rcases n with _ | n
  · cases hr
  have hok := run_writeOk h.aresetn n
  have hacc : (run i n).awAccept (i n) = true := by
    by_contra hacc
    rw [Bool.not_eq_true] at hacc
    rw [run_succ] at hr
    by_cases hflag : (run i n).axiAwvAwrFlag = true
    · rw [(write_open (h.aresetn n) hok hflag).1] at hr
      cases hr
    · rw [(write_rest (h.aresetn n) hok (by simpa using hflag) hacc).1] at hr
      cases hr
  simp only [awAccept, Bool.and_eq_true, Bool.not_eq_true'] at hacc
  obtain ⟨hvalid, -⟩ : (i (n + 1)).awvalid = true ∧ _ := h.awStable n hacc.1.1.2 hacc.1.1.1
  rw [awAt, awHandshake, hvalid, hr]
  rfl

theorem wAt_flag (ha : ∀ n, (i n).aresetn = true) {n : ℕ} (hw : wAt i n = true) :
    (run i n).axiAwvAwrFlag = true := by
  rw [wAt, wHandshake, Bool.and_eq_true] at hw
  exact (run_writeOk ha n).flag (axiWready_of_wready hw.1)

theorem WriteRest.not_wAt (hs : WriteRest len i n) : (run i n).wready (i n) = false ∧
    wAt i n = false := by
  have hwr : (run i n).wready (i n) = false := by rw [wready, hs.shut, Bool.false_and]
  exact ⟨hwr, by rw [wAt, wHandshake, hwr, Bool.false_and]⟩

/-- An address that is handed over opens its burst. -/
theorem WriteRest.accept (h : WriteMaster len i) (hs : WriteRest len i n)
    (haw : awAt i n = true) : Writing len i n (n + 1) := by
  have hr : (run i n).axiAwready = true := by
    rw [awAt, awHandshake, Bool.and_eq_true] at haw
    exact haw.2
  obtain ⟨hwr, hno⟩ := hs.not_wAt
  obtain ⟨hready, hflag, -⟩ :=
    write_open (h.aresetn n) (run_writeOk h.aresetn n) (hs.flag.trans hr)
  rw [hwr, Bool.and_false] at hflag
  refine ⟨Nat.lt_succ_self n, haw, hflag, hready, ?_, ?_⟩
  · rw [awCount_succ, if_pos haw]
  · rw [wCount_succ, Clocked.countFrom_succ _ (le_refl n), Clocked.countFrom_self, hno]
    exact hs.place

theorem WriteRest.succ (h : WriteMaster len i) (hs : WriteRest len i n)
    (haw : awAt i n = false) : WriteRest len i (n + 1) := by
  have hok := run_writeOk h.aresetn n
  have hr : (run i n).axiAwready = false := by
    by_contra hr
    rw [h.awAt_of_awready (by simpa using hr)] at haw
    cases haw
  have hplace : Burst.place len (wCount i (n + 1)) = (awCount i (n + 1), 0) := by
    rw [wCount_succ, awCount_succ, hs.not_wAt.2, haw]
    exact hs.place
  by_cases hacc : (run i n).awAccept (i n) = true
  · obtain ⟨hready, hf, hw⟩ := write_accept (h.aresetn n) hok hacc
    exact ⟨hf.trans hready.symm, hw, hplace⟩
  · obtain ⟨hready, hf, hw⟩ :=
      write_rest (h.aresetn n) hok (hs.flag.trans hr) (Bool.eq_false_of_not_eq_true hacc)
    exact ⟨hf.trans hready.symm, hw, hplace⟩

theorem Writing.le (hs : Writing len i t n) :
    Clocked.countFrom (wAt i) t n ≤ len (awCount i t) := by
  have hle := Burst.place_le len (wCount i n)
  rwa [hs.place] at hle

theorem Writing.not_awAt (hs : Writing len i t n) : awAt i n = false := by
  rw [awAt, awHandshake, hs.ready, Bool.and_false]

/-- A cycle without a word leaves the burst as it is. -/
theorem Writing.wait (h : WriteMaster len i) (hs : Writing len i t n) (hg : WlastGated i n)
    (hno : wAt i n = false) : Writing len i t (n + 1) := by
  obtain ⟨hready, hflag, -⟩ := write_open (h.aresetn n) (run_writeOk h.aresetn n) hs.flag
  have hkeep : ((i n).wlast && (run i n).wready (i n)) = false := by
    by_contra hl
    simp only [Bool.not_eq_false, Bool.and_eq_true] at hl
    rw [wAt, wHandshake, hl.2, hg hl.2 hl.1] at hno
    cases hno
  rw [hkeep] at hflag
  refine ⟨hs.lt.trans (Nat.lt_succ_self n), hs.accepted, hflag, hready, ?_, ?_⟩
  · rw [awCount_succ, hs.not_awAt]
    exact hs.count
  · rw [wCount_succ, Clocked.countFrom_succ _ hs.lt.le, hno]
    exact hs.place

/-- WLAST is on the word the lengths of the bursts ask for. -/
theorem Writing.wlast_iff (h : WriteMaster len i) (hs : Writing len i t n)
    (hw : wAt i n = true) :
    (i n).wlast = true ↔ Clocked.countFrom (wAt i) t n = len (awCount i t) := by
  rw [wAt, wHandshake, Bool.and_eq_true] at hw
  have hl := h.wlast n hw.2
  rwa [hs.place] at hl

theorem Writing.beat (h : WriteMaster len i) (hs : Writing len i t n) (hw : wAt i n = true)
    (hk : Clocked.countFrom (wAt i) t n ≠ len (awCount i t)) : Writing len i t (n + 1) := by
  obtain ⟨hready, hflag, -⟩ := write_open (h.aresetn n) (run_writeOk h.aresetn n) hs.flag
  have hlast : (i n).wlast = false := by
    by_contra hl
    exact hk ((hs.wlast_iff h hw).1 (by simpa using hl))
  rw [hlast] at hflag
  have hplace := hs.place
  refine ⟨hs.lt.trans (Nat.lt_succ_self n), hs.accepted, hflag, hready, ?_, ?_⟩
  · rw [awCount_succ, hs.not_awAt]
    exact hs.count
  · rw [wCount_succ, Clocked.countFrom_succ _ hs.lt.le, if_pos hw,
      Burst.place_of_not_last (by rw [hplace]; exact hk), hplace]

/-- The last word closes the burst. -/
theorem Writing.last (h : WriteMaster len i) (hs : Writing len i t n) (hw : wAt i n = true)
    (hk : Clocked.countFrom (wAt i) t n = len (awCount i t)) :
    WriteRest len i (n + 1) ∧ (run i (n + 1)).axiAwvAwrFlag = false := by
  obtain ⟨hready, hflag, hshut⟩ :=
    write_open (h.aresetn n) (run_writeOk h.aresetn n) hs.flag
  have hwr : (run i n).wready (i n) = true := by
    rw [wAt, wHandshake, Bool.and_eq_true] at hw
    exact hw.1
  rw [(hs.wlast_iff h hw).2 hk, hwr] at hflag hshut
  have hplace := hs.place
  refine ⟨⟨hflag.trans hready.symm, hshut rfl, ?_⟩, hflag⟩
  rw [wCount_succ, awCount_succ, if_pos hw, hs.not_awAt,
    Burst.place_of_last (by rw [hplace]; exact hk), hplace, hs.count]
  rfl

theorem write_cases (h : WriteMaster len i) (hg : ∀ m < n, WlastGated i m) :
    WriteRest len i n ∨ ∃ t, Writing len i t n := by
  induction n with
  | zero => exact Or.inl ⟨rfl, rfl, rfl⟩
  | succ n ih =>
    rcases ih (fun m hm => hg m (hm.trans (Nat.lt_succ_self n))) with hs | ⟨t, hs⟩
    · by_cases haw : awAt i n = true
      · exact Or.inr ⟨n, hs.accept h haw⟩
      · exact Or.inl (hs.succ h (Bool.eq_false_of_not_eq_true haw))
    · by_cases hw : wAt i n = true
      · by_cases hk : Clocked.countFrom (wAt i) t n = len (awCount i t)
        · exact Or.inl (hs.last h hw hk).1
        · exact Or.inr ⟨t, hs.beat h hw hk⟩
      · exact Or.inr ⟨t, hs.wait h (hg n (Nat.lt_succ_self n)) (Bool.eq_false_of_not_eq_true hw)⟩

/-- A burst stays open until all its words are handed over. -/
theorem writing_or_done (h : WriteMaster len i) (ht : awAt i t = true) (hlt : t < n)
    (hg : ∀ m < n, WlastGated i m) :
    Writing len i t n ∨ len (awCount i t) < Clocked.countFrom (wAt i) t n := by
  induction n, hlt using Nat.le_induction with
  | base =>
    left
    rcases write_cases h (fun m hm => hg m (hm.trans (Nat.lt_succ_self t))) with hs | ⟨u, hs⟩
    · exact hs.accept h ht
    · rw [hs.not_awAt] at ht
      cases ht
  | succ n hle ih =>
    rcases ih (fun m hm => hg m (hm.trans (Nat.lt_succ_self n))) with hs | hdone
    · by_cases hw : wAt i n = true
      · by_cases hk : Clocked.countFrom (wAt i) t n = len (awCount i t)
        · right
          rw [Clocked.countFrom_succ _ hs.lt.le, if_pos hw, hk]
          exact Nat.lt_succ_self _
        · exact Or.inl (hs.beat h hw hk)
      · exact Or.inl
          (hs.wait h (hg n (Nat.lt_succ_self n)) (Bool.eq_false_of_not_eq_true hw))
    · right
      rw [Clocked.countFrom_succ _ (by omega)]
      omega

end Runs

/-- Write bursts retire on their last word: the flag stays set until AWLEN + 1 words
are handed over, WLAST is on the last of them, none is handed over elsewhere, and the
next address is then accepted unless a read is in progress. -/
structure Retires (i : ℕ → FullIn idWidth) : Prop where
  inside : ∀ n, wAt i n = true → (run i n).axiAwvAwrFlag = true
  stays : ∀ t n, awAt i t = true → t ≤ n →
    Clocked.countFrom (wAt i) t n ≤ (i t).awlen.toNat → (run i n).axiAwvAwrFlag = true
  wlast : ∀ t n, awAt i t = true → t ≤ n → wAt i n = true →
    Clocked.countFrom (wAt i) t n ≤ (i t).awlen.toNat →
    ((i n).wlast = true ↔ Clocked.countFrom (wAt i) t n = (i t).awlen.toNat)
  closes : ∀ t n, awAt i t = true → t ≤ n → wAt i n = true →
    Clocked.countFrom (wAt i) t n = (i t).awlen.toNat →
    (run i (n + 1)).axiAwvAwrFlag = false ∧
      ((i (n + 1)).awvalid = true → (run i (n + 1)).axiArvArrFlag = false →
        (run i (n + 2)).axiAwready = true)

section Runs

variable {len : ℕ → ℕ} {i : ℕ → FullIn idWidth} {t n : ℕ}

theorem WriteMaster.awlen_eq (h : WriteMaster len i) (ht : awAt i t = true) :
    (i t).awlen.toNat = len (awCount i t) := by
  rw [awAt, awHandshake, Bool.and_eq_true] at ht
  exact h.awlen t ht.1

theorem flag_of_awAt (ha : ∀ n, (i n).aresetn = true) (ht : awAt i t = true) :
    (run i t).axiAwvAwrFlag = true ∧ wAt i t = false := by
  rw [awAt, awHandshake, Bool.and_eq_true] at ht
  obtain ⟨hflag, hw⟩ := (run_writeOk ha t).fresh ht.2
  exact ⟨hflag, by rw [wAt, wHandshake, wready, hw]; rfl⟩

/-- A word within the length of a burst finds it open. -/
theorem writing_of_wAt (h : WriteMaster len i) (hg : ∀ n, WlastGated i n) (ht : awAt i t = true)
    (hle : t ≤ n) (hw : wAt i n = true)
    (hk : Clocked.countFrom (wAt i) t n ≤ len (awCount i t)) : Writing len i t n := by
  rcases Nat.lt_or_eq_of_le hle with hlt | rfl
  · rcases writing_or_done h ht hlt (fun m _ => hg m) with hs | hdone
    · exact hs
    · omega
  · rw [(flag_of_awAt h.aresetn ht).2] at hw
    cases hw

theorem retires_of_gated (h : WriteMaster len i) (hg : ∀ n, WlastGated i n) : Retires i where
  inside n hw := wAt_flag h.aresetn hw
  stays t n ht hle hk := by
    rw [h.awlen_eq ht] at hk
    rcases Nat.lt_or_eq_of_le hle with hlt | rfl
    · rcases writing_or_done h ht hlt (fun m _ => hg m) with hs | hdone
      · exact hs.flag
      · omega
    · exact (flag_of_awAt h.aresetn ht).1
  wlast t n ht hle hw hk := by
    rw [h.awlen_eq ht] at hk ⊢
    exact (writing_of_wAt h hg ht hle hw hk).wlast_iff h hw
  closes t n ht hle hw hk := by
    rw [h.awlen_eq ht] at hk
    obtain ⟨hrest, hflag⟩ := (writing_of_wAt h hg ht hle hw hk.le).last h hw hk
    refine ⟨hflag, fun hv har => ?_⟩
    have hacc : (run i (n + 1)).awAccept (i (n + 1)) = true := by
      simp [awAccept, ← hrest.flag, hflag, hv, har]
    rw [run_succ]
    exact (write_accept (h.aresetn _) (run_writeOk h.aresetn _) hacc).1

/-- The first ungated WLAST closes a burst that still has words to come. -/
theorem gated_of_retires (h : WriteMaster len i) (hr : Retires i) (n : ℕ) : WlastGated i n := by
  induction n using Nat.strong_induction_on with
  | _ n ih =>
    intro hwr hl
    by_contra hv
    have hno : wAt i n = false := by
      rw [wAt, wHandshake, Bool.eq_false_of_not_eq_true hv, Bool.and_false]
    rcases write_cases h ih with hs | ⟨t, hs⟩
    · rw [hs.not_wAt.1] at hwr
      cases hwr
    · have hk : Clocked.countFrom (wAt i) t (n + 1) ≤ (i t).awlen.toNat := by
        rw [Clocked.countFrom_succ _ hs.lt.le, hno, h.awlen_eq hs.accepted]
        exact hs.le
      have hflag := hr.stays t (n + 1) hs.accepted (hs.lt.le.trans (Nat.le_succ n)) hk
      rw [run_succ, (write_open (h.aresetn n) (run_writeOk h.aresetn n) hs.flag).2.1, hl,
        hwr] at hflag
      cases hflag

/-- With no burst open and no address offered any more, no word moves. -/
theorem rest_of_quiet (ha : ∀ n, (i n).aresetn = true) {N : ℕ}
    (hq : ∀ m, N ≤ m → (i m).awvalid = false) (hN : (run i N).axiAwvAwrFlag = false)
    (hn : N ≤ n) : (run i n).axiAwvAwrFlag = false ∧ wCount i n = wCount i N := by
  induction n, hn using Nat.le_induction with
  | base => exact ⟨hN, rfl⟩
  | succ n hle ih =>
    have hacc : (run i n).awAccept (i n) = false := by simp [awAccept, hq n hle]
    have hno : wAt i n = false := by
      by_contra hw
      rw [wAt_flag ha (by simpa using hw)] at ih
      cases ih.1
    refine ⟨?_, ?_⟩
    · exact (write_rest (ha n) (run_writeOk ha n) ih.1 hacc).2.1
    · rw [wCount_succ, hno]
      exact ih.2

/-- Write bursts retire as they should exactly when WLAST is never high together with
S_AXI_WREADY while WVALID is low. -/
theorem write_bursts_retire_iff (h : WriteMaster len i) : Retires i ↔
    ∀ n, (run i n).wready (i n) = true → (i n).wlast = true → (i n).wvalid = true :=
  ⟨gated_of_retires h, retires_of_gated h⟩

end Runs

/-- A burst of two words with a gap in cycle 3, where the master leaves WLAST at `b`;
a further word waits for its address. -/
def gapMaster (b : Bool) (n : ℕ) : FullIn 1 where
  aresetn := true
  awid := 0
  awaddr := 0x40
  awlen := 1
  awburst := 1
  awvalid := decide (n < 2)
  wdata := 0x61626380
  wstrb := 0xf
  wlast := if n = 3 then b else decide (4 ≤ n)
  wvalid := decide (n = 1 ∨ n = 2 ∨ 4 ≤ n)
  bready := false
  arid := 0
  araddr := 0
  arlen := 0
  arburst := 1
  arvalid := false
  rready := false

/-- AWLEN of the bursts of `gapMaster`. -/
def gapLen (k : ℕ) : ℕ := if k = 0 then 1 else 0

theorem gapMaster_rest (b : Bool) {n : ℕ} (hn : 5 ≤ n) :
    (run (gapMaster b) n).axiAwvAwrFlag = false ∧
      wCount (gapMaster b) n = wCount (gapMaster b) 5 := by
  refine rest_of_quiet (fun _ => rfl) (fun m hm => decide_eq_false (by omega)) ?_ hn
  cases b <;> decide +kernel

theorem gapMaster_writeMaster (b : Bool) : WriteMaster gapLen (gapMaster b) where
  aresetn _ := rfl
  awStable := by
    refine Clocked.Stable.of_two rfl rfl ?_ fun n hn => decide_eq_false (by omega)
    cases b <;> decide +kernel
  wStable n hv hr := by
    obtain rfl | rfl | hn : n = 1 ∨ n = 2 ∨ 4 ≤ n := of_decide_eq_true hv
    · exact ⟨rfl, rfl⟩
    · cases b <;> exact absurd hr (by decide +kernel)
    · have hl (m : ℕ) (hm : 4 ≤ m) : (gapMaster b m).wlast = true := by
        simp only [gapMaster, if_neg (show m ≠ 3 by omega)]
        exact decide_eq_true hm
      exact ⟨decide_eq_true (by omega),
        by simp only [hl n hn, hl (n + 1) (by omega)]; rfl⟩
  burst _ _ := by
    change BurstOk 1 0x40 1
    decide
  awlen n hv := by
    have hn : n < 2 := of_decide_eq_true hv
    obtain rfl | rfl : n = 0 ∨ n = 1 := by omega
    · rfl
    · cases b <;> decide +kernel
  wlast n hv := by
    obtain hn | hn | hn | hn : n = 1 ∨ n = 2 ∨ n = 4 ∨ 5 ≤ n := by
      have := of_decide_eq_true hv
      omega
    · subst hn
      cases b <;> decide +kernel
    · subst hn
      cases b <;> decide +kernel
    · subst hn
      cases b <;> decide +kernel
    · have hl : (gapMaster b n).wlast = true := by
        simp only [gapMaster, if_neg (show n ≠ 3 by omega)]
        exact decide_eq_true (by omega)
      rw [hl, (gapMaster_rest b hn).2]
      cases b <;> decide +kernel

/-- With WLAST low in the gap the burst retires as it should. -/
theorem write_bursts_retire_iff_gapMaster : Retires (gapMaster false) := by
  refine (write_bursts_retire_iff (gapMaster_writeMaster false)).2 (fun n _ hl => ?_)
  have hn : 4 ≤ n := by
    by_contra hn
    obtain rfl | rfl | rfl | rfl : n = 0 ∨ n = 1 ∨ n = 2 ∨ n = 3 := by omega
    all_goals cases hl
  exact decide_eq_true (Or.inr (Or.inr hn))

/-- With WLAST high in the gap the flag falls after one of two words. -/
theorem write_burst_closed_early : ¬ ∀ i : ℕ → FullIn 1,
    (∃ len, WriteMaster len i) → Retires i := by
  intro h
  have hr := h (gapMaster true) ⟨gapLen, gapMaster_writeMaster true⟩
  have hflag := hr.stays 1 4 (by decide +kernel) (by decide) (by decide +kernel)
  exact absurd hflag (by decide +kernel)

/-! ## Responses -/

/-- Every burst whose last word is handed over has had its response, or has it on BVALID. -/
def OnceAnswered (i : ℕ → FullIn idWidth) : Prop :=
  ∀ n, Nat.count (fun m => wlastAt i m = true) n =
    Nat.count (fun m => bAt i m = true) n + if (run i n).axiBvalid then 1 else 0

section Responses

variable {i : ℕ → FullIn idWidth} {n : ℕ}

theorem axiBvalid_of_wlastAt (ha : ∀ n, (i n).aresetn = true) (hl : wlastAt i n = true) :
    (run i (n + 1)).axiBvalid = if (run i n).axiBvalid then !(i n).bready else true := by
  rw [wlastAt, Bool.and_eq_true] at hl
  obtain ⟨hw, hlast⟩ := hl
  have hflag := wAt_flag ha hw
  rw [wAt, wHandshake, Bool.and_eq_true] at hw
  rw [run_succ]
  cases hb : (run i n).axiBvalid <;>
    simp [posedge, ha n, axiBvalidNext, hflag, hw.1, hw.2, hlast, hb]

theorem axiBvalid_of_not_wlastAt (ha : ∀ n, (i n).aresetn = true) (hl : wlastAt i n = false) :
    (run i (n + 1)).axiBvalid = ((run i n).axiBvalid && !(i n).bready) := by
  have hset : ((run i n).axiAwvAwrFlag && (run i n).wready (i n) && (i n).wvalid &&
      !(run i n).axiBvalid && (i n).wlast) = false := by
    rw [wlastAt, wAt, wHandshake] at hl
    grind
  rw [run_succ]
  simp only [posedge, ha n, axiBvalidNext, hset]
  cases (run i n).axiBvalid <;> cases (i n).bready <;> rfl

/-- While no burst ends under a waiting response, the response is a one-place buffer. -/
theorem responses_slot (ha : ∀ n, (i n).aresetn = true)
    (hfree : ∀ n, wlastAt i n = true → (run i n).axiBvalid = false) :
    Clocked.Slot (wlastAt i) (fun n => (i n).bready) (fun n => (run i n).axiBvalid)
      (fun _ => ()) (fun _ => ()) where
  empty := rfl
  free := hfree
  next n := by
    by_cases hl : wlastAt i n = true
    · rw [axiBvalid_of_wlastAt ha hl, hfree n hl, hl]
      rfl
    · rw [axiBvalid_of_not_wlastAt ha (Bool.eq_false_of_not_eq_true hl),
        Bool.eq_false_of_not_eq_true hl, Bool.false_or]
  load _ _ := rfl
  keep _ _ := rfl

/-- Every burst is answered exactly once if and only if none ends while BVALID is high. -/
theorem responses_once_iff (i : ℕ → FullIn idWidth) (ha : ∀ n, (i n).aresetn = true) :
    OnceAnswered i ↔ ∀ n, (run i n).wready (i n) = true → (i n).wvalid = true →
      (i n).wlast = true → (run i n).axiBvalid = false := by
  have hlast (n : ℕ) : wlastAt i n = true ↔
      (run i n).wready (i n) = true ∧ (i n).wvalid = true ∧ (i n).wlast = true := by
    rw [wlastAt, wAt, wHandshake, Bool.and_eq_true, Bool.and_eq_true, and_assoc]
  constructor
  · intro h n hwr hv hl
    have hend := (hlast n).2 ⟨hwr, hv, hl⟩
    by_contra hb
    rw [Bool.not_eq_false] at hb
    -- the sum counts the old response only, delivered or not
    have hnow := h n
    have hnext := h (n + 1)
    rw [Nat.count_succ, Nat.count_succ, axiBvalid_of_wlastAt ha hend, if_pos hend, hb] at hnext
    rw [hb] at hnow
    cases hr : (i n).bready <;> simp [bAt, bHandshake, hb, hr] at hnow hnext <;> omega
  · intro h
    exact (responses_slot ha fun n hl => by
      obtain ⟨hwr, hv, hl⟩ := (hlast n).1 hl
      exact h n hwr hv hl).count_eq

end Responses

/-- A single burst has its response pending when it ends. -/
theorem responses_once_iff_gapMaster : OnceAnswered (gapMaster false) := by
  refine (responses_once_iff (gapMaster false) (fun _ => rfl)).2 (fun n hwr hv hl => ?_)
  rcases Nat.lt_or_ge n 5 with hn | hn
  · obtain rfl | rfl | rfl | rfl | rfl : n = 0 ∨ n = 1 ∨ n = 2 ∨ n = 3 ∨ n = 4 := by omega
    all_goals decide +kernel
  · have hw : wAt (gapMaster false) n = true := by rw [wAt, wHandshake, hwr, hv]; rfl
    have hflag := wAt_flag (fun _ => rfl) hw
    rw [(gapMaster_rest false hn).1] at hflag
    cases hflag

/-- Two bursts of one word each, back to back, from a master that keeps BREADY low. -/
def hastyMaster (n : ℕ) : FullIn 1 where
  aresetn := true
  awid := 0
  awaddr := 0x40
  awlen := 0
  awburst := 1
  awvalid := decide (n < 5)
  wdata := 0x61626380
  wstrb := 0xf
  wlast := true
  wvalid := decide (n < 6)
  bready := false
  arid := 0
  araddr := 0
  arlen := 0
  arburst := 1
  arvalid := false
  rready := false

theorem hastyMaster_writeMaster : WriteMaster (fun _ => 0) hastyMaster where
  aresetn _ := rfl
  awStable := by
    refine Clocked.Stable.of_script 5 (fun n hn _ hr => ?_) (fun n hn => decide_eq_false (by omega))
    rcases Nat.lt_or_eq_of_le (Nat.le_of_lt_succ hn) with hn | rfl
    · exact ⟨decide_eq_true (by omega), rfl⟩
    · exact absurd hr (by decide +kernel)
  wStable := by
    refine Clocked.Stable.of_script 6 (fun n hn _ hr => ?_) (fun n hn => decide_eq_false (by omega))
    rcases Nat.lt_or_eq_of_le (Nat.le_of_lt_succ hn) with hn | rfl
    · exact ⟨decide_eq_true (by omega), rfl⟩
    · exact absurd hr (by decide +kernel)
  burst _ _ := by
    change BurstOk 1 0x40 0
    decide
  awlen _ _ := rfl
  wlast _ _ := iff_of_true rfl (Nat.le_zero.1 (Burst.place_le _ _))

/-- The second burst ends under the response of the first and is never answered. -/
theorem response_lost : ¬ ∀ i : ℕ → FullIn 1, (∃ len, WriteMaster len i) → OnceAnswered i := by
  intro h
  have hcount := h hastyMaster ⟨fun _ => 0, hastyMaster_writeMaster⟩ 6
  exact absurd hcount (by decide +kernel)

end ZynqSha256.Sha256Full
