import ZynqSha256.Rtl.Full
import ZynqSha256.Proofs.Inst

/-! AXI4: WREADY is held low while the core is busy, so a beat of the data window
is handshaken when the core takes it. A soft reset cannot meet such a beat: in
the cycle after a write to register 0 the address has moved one word at most. -/

namespace ZynqSha256.Sha256Full

open Fips180 (Word chain)

variable {idWidth : ℕ}

/-- The registers at the start of cycle `n`, from reset. -/
def run (i : ℕ → FullIn idWidth) : ℕ → Sha256Full := Clocked.run posedge reset i

/-- What the wrapper drives into `sha256_inst` in cycle `n`. -/
def wires (i : ℕ → FullIn idWidth) (n : ℕ) : Sha256In := (run i n).coreIn (i n)

/-- WREADY and WVALID, with the latched address in the data window. -/
def windowBeat (i : FullIn idWidth) (s : Sha256Full) : Bool :=
  s.wready i && i.wvalid && s.datAddrVaild

/-- WDATA of the data-window beats before cycle `n`, since the core was last in reset. -/
def beats (i : ℕ → FullIn idWidth) : ℕ → List Word :=
  Clocked.logSince (fun n => (run i n).rstN (i n)) (fun n => (run i n).windowBeat (i n))
    (fun n => (i n).wdata)

/-! ## Where the address goes from register 0 -/

theorem lt_four_of_regIndex {addr : BitVec 8} (h : regIndex addr = 0) : addr.toNat < 4 := by
  rw [regIndex, BitVec.extractLsb_toNat] at h
  have := addr.isLt
  simp [Nat.shiftRight_eq_div_pow] at h
  omega

theorem addrIncr_lt {addr : BitVec 8} (h : addr.toNat < 4) : (addrIncr addr).toNat < 64 := by
  obtain rfl | rfl | rfl | rfl : addr = 0 ∨ addr = 1 ∨ addr = 2 ∨ addr = 3 := by
    simp only [← BitVec.toNat_inj]
    simp
    omega
  all_goals decide

theorem wrapSize_toNat (len : BitVec 8) : (wrapSize len).toNat = 4 * len.toNat := by
  have := len.isLt
  rw [wrapSize, BitVec.toNat_mul]
  simp
  omega

/-- Below address 4 only a burst of one beat sits on its wrap boundary. -/
theorem wrapSize_of_wrapEn {addr len : BitVec 8} (h : addr.toNat < 4) (hw : wrapEn addr len = true) :
    wrapSize len = 0 := by
  have hle : (wrapSize len).toNat ≤ addr.toNat := by
    rw [wrapEn, decide_eq_true_iff] at hw
    rw [← hw, BitVec.toNat_and]
    refine Nat.and_le_left.trans ?_
    simp
    omega
  have hlen := wrapSize_toNat len
  apply BitVec.eq_of_toNat_eq
  simp
  omega

theorem addrNext_lt {addr : BitVec 8} (h : regIndex addr = 0) (burst : BitVec 2) (len : BitVec 8) :
    (addrNext burst addr len).toNat < 64 := by
  have hlt := lt_four_of_regIndex h
  unfold addrNext
  split_ifs with h0 h1 h2 hw
  · omega
  · exact addrIncr_lt hlt
  · rw [wrapSize_of_wrapEn hlt hw]
    simp
    omega
  · exact addrIncr_lt hlt
  · have hz : addr.extractLsb 7 2 = 0 := BitVec.eq_of_toNat_eq h
    rw [hz]
    decide

theorem datAddrVaild_of_lt {s : Sha256Full} (h : s.axiAwaddr.toNat < 64) : s.datAddrVaild = false := by
  rw [datAddrVaild, decide_eq_false_iff_not, ← BitVec.toNat_inj, BitVec.extractLsb_toNat]
  simp [Nat.shiftRight_eq_div_pow]
  omega

/-! ## The invariant -/

/-- Data is taken inside a burst only, and a soft reset never overlaps the data window. -/
structure Guarded (s : Sha256Full) : Prop where
  flag : s.axiWready = true → s.axiAwvAwrFlag = true
  window : s.slvReg0.getLsbD 0 = true → s.datAddrVaild = false

variable {i : FullIn idWidth} {s : Sha256Full}

theorem Guarded.flag_next (h : s.Guarded) (hw : s.axiWreadyNext i = true) :
    s.axiAwvAwrFlagNext i = true := by
  have hwready : s.wready i = true → s.axiWready = true := by
    intro hwr
    rw [wready, Bool.and_eq_true] at hwr
    exact hwr.1
  unfold axiWreadyNext at hw
  unfold axiAwvAwrFlagNext
  split_ifs with ha hl
  · rfl
  · -- the last beat of a burst takes both down
    rw [Bool.and_eq_true] at hl
    simp [hwready hl.2, hl.1] at hw
  · split_ifs at hw with h1 h2
    · simp only [Bool.and_eq_true] at h1
      exact h1.2
    · exact h.flag hw

theorem Guarded.window_next (h : s.Guarded) (ha : i.aresetn = true)
    (hr : (s.posedge i).slvReg0.getLsbD 0 = true) : (s.posedge i).datAddrVaild = false := by
  obtain ⟨hwren, hidx⟩ : s.regWriteEn i = true ∧ regIndex s.axiAwaddr = 0 := by
    simp only [posedge, ha] at hr
    exact slvReg0Next_bit0 hr
  have hflag : s.axiAwvAwrFlag = true := by
    simp only [regWriteEn, wready, Bool.and_eq_true] at hwren
    exact h.flag hwren.1.1
  have haddr : (s.posedge i).axiAwaddr = s.axiAwaddrNext i := by simp [posedge, ha]
  apply datAddrVaild_of_lt
  rw [haddr, axiAwaddrNext, if_neg (by simp [awLatch, hflag])]
  split
  next => exact addrNext_lt hidx _ _
  next => exact (lt_four_of_regIndex hidx).trans (by decide)

theorem reset_guarded : reset.Guarded := ⟨by decide, by decide⟩

theorem posedge_of_aresetn (ha : i.aresetn = false) :
    s.posedge i = { reset with sha256Inst := (s.core i).posedge (s.coreIn i) } := by
  simp [Sha256Full.posedge, ha]

theorem Guarded.posedge (h : s.Guarded) : (s.posedge i).Guarded := by
  cases ha : i.aresetn with
  | false =>
    rw [posedge_of_aresetn ha]
    exact ⟨reset_guarded.flag, reset_guarded.window⟩
  | true =>
    refine ⟨fun hw => ?_, h.window_next ha⟩
    simp only [Sha256Full.posedge, ha] at hw ⊢
    exact h.flag_next hw

/-! ## Runs -/

/-- The busy wire that gates WREADY is the core's output on the wires WREADY drives. -/
theorem hashBusyO_wires (i : FullIn idWidth) (s : Sha256Full) :
    (s.core i).hashBusyO (s.coreIn i) = s.hashBusyO i :=
  Sha256.hashBusyO_congr (i := s.coreIn i) (j := ⟨s.rstN i, false, i.wdata⟩) rfl (s.core i)

theorem posedge_sha256Inst (i : FullIn idWidth) (s : Sha256Full) :
    (s.posedge i).sha256Inst = s.sha256Inst.posedge (s.coreIn i) := by
  have hinst : (s.posedge i).sha256Inst = (s.core i).posedge (s.coreIn i) := by
    unfold Sha256Full.posedge
    split <;> rfl
  rw [hinst]
  exact Sha256.settle_posedge (s.coreIn i) _

section Runs

variable (i : ℕ → FullIn idWidth)

theorem run_succ (n : ℕ) : run i (n + 1) = (run i n).posedge (i n) := rfl

theorem run_guarded (n : ℕ) : (run i n).Guarded :=
  Clocked.run_invariant reset_guarded (fun _ _ h => h.posedge) i n

theorem inst_eq_run (n : ℕ) : (run i n).sha256Inst = Sha256.run (wires i) n :=
  Clocked.eq_run (s := fun n => (run i n).sha256Inst) rfl
    (fun n => posedge_sha256Inst (i n) (run i n)) n

theorem core_eq_run {n : ℕ} (hr : (run i n).rstN (i n) = true) :
    (run i n).core (i n) = Sha256.run (wires i) n := by
  rw [core, hr, Sha256.settle_true, inst_eq_run]

theorem busy_eq {n : ℕ} (hr : (run i n).rstN (i n) = true) :
    (run i n).hashBusyO (i n) = (Sha256.run (wires i) n).hashBusyO (wires i n) := by
  rw [← hashBusyO_wires, core_eq_run i hr]
  rfl

/-- A beat of the data window finds the core out of reset and not busy. -/
theorem windowBeat_live {n : ℕ} (ha : (i n).aresetn = true)
    (h : (run i n).windowBeat (i n) = true) :
    (run i n).rstN (i n) = true ∧ (run i n).hashBusyO (i n) = false := by
  simp only [windowBeat, wready, Bool.and_eq_true] at h
  obtain ⟨⟨⟨-, hblock⟩, -⟩, hwin⟩ := h
  have hsoft : (run i n).slvReg0.getLsbD 0 = false := by
    by_contra hset
    rw [(run_guarded i n).window (by simpa using hset)] at hwin
    cases hwin
  refine ⟨by rw [rstN, ha, hsoft]; rfl, ?_⟩
  simpa [blockDataInput, hwin] using hblock

theorem windowBeat_eq_accepts {n : ℕ} (ha : (i n).aresetn = true)
    (hr : (run i n).rstN (i n) = true) :
    (run i n).windowBeat (i n) = (Sha256.run (wires i) n).accepts (wires i n) := by
  have hw : (wires i n).rstN = true := hr
  have hd : (wires i n).datVaildI = (run i n).windowBeat (i n) := rfl
  rw [Sha256.accepts, hw, hd, ← busy_eq i hr, Bool.true_and]
  cases hb : (run i n).windowBeat (i n) with
  | false => rfl
  | true => rw [(windowBeat_live i ha hb).2]; rfl

theorem beats_eq_accepted (ha : ∀ n, (i n).aresetn = true) (n : ℕ) :
    beats i n = Sha256.accepted (wires i) n :=
  Clocked.logSince_congr fun k _ hr => ⟨windowBeat_eq_accepts i (ha k) hr, fun _ => rfl⟩

/-- Whatever the bus does: a data-window handshake finds the core out of reset and
not busy and loads its word, once; no other cycle loads a word; and outside the busy
cycles the hash words are the chaining value of the beats handshaken. -/
theorem hashes_window_beats (ha : ∀ n, (i n).aresetn = true) (n : ℕ) :
    ((run i n).wready (i n) = true → (i n).wvalid = true →
        (run i n).axiAwaddr.extractLsb 7 6 = 1 →
      (run i n).rstN (i n) = true ∧ (run i n).hashBusyO (i n) = false ∧
      (run i (n + 1)).sha256Inst.loaded =
        (run i n).sha256Inst.loaded ++ [datMsbI (i n).wdata]) ∧
    (¬((run i n).wready (i n) = true ∧ (i n).wvalid = true ∧
        (run i n).axiAwaddr.extractLsb 7 6 = 1) →
      (run i (n + 1)).sha256Inst.loaded =
        if (run i n).rstN (i n) = true ∧ (run i n).hashBusyO (i n) = false then
          (run i n).sha256Inst.loaded
        else []) ∧
    ((run i n).rstN (i n) = true → (run i n).hashBusyO (i n) = false →
      ((run i n).core (i n)).hash = (chain ((beats i n).map datMsbI)).map lsbToMsb) := by
  have hbeat : (run i n).windowBeat (i n) = true ↔ (run i n).wready (i n) = true ∧
      (i n).wvalid = true ∧ (run i n).axiAwaddr.extractLsb 7 6 = 1 := by
    simp [windowBeat, datAddrVaild, and_assoc]
  have hload (hr : (run i n).rstN (i n) = true) : (run i (n + 1)).sha256Inst.loaded =
      if (run i n).windowBeat (i n) then (run i n).sha256Inst.loaded ++ [datMsbI (i n).wdata]
      else if (run i n).hashBusyO (i n) then [] else (run i n).sha256Inst.loaded := by
    have h := Sha256.loaded_succ (wires i) n hr
    rw [← windowBeat_eq_accepts i (ha n) hr, ← busy_eq i hr, ← inst_eq_run, ← inst_eq_run] at h
    exact h
  refine ⟨fun h1 h2 h3 => ?_, fun hno => ?_, fun hr hb => ?_⟩
  · have hwin := hbeat.2 ⟨h1, h2, h3⟩
    obtain ⟨hr, hb⟩ := windowBeat_live i (ha n) hwin
    exact ⟨hr, hb, by rw [hload hr, if_pos hwin]⟩
  · have hwin : ¬(run i n).windowBeat (i n) = true := fun h => hno (hbeat.1 h)
    cases hr : (run i n).rstN (i n) with
    | false =>
      rw [if_neg (by simp), inst_eq_run]
      exact Sha256.loaded_succ_of_reset (wires i) n hr
    | true =>
      rw [hload hr, if_neg hwin]
      cases (run i n).hashBusyO (i n) <;> rfl
  · rw [core_eq_run i hr, beats_eq_accepted i ha]
    exact Sha256.hash_of_accepted (wires i) n hr (busy_eq i hr ▸ hb)

end Runs

/-- A master that offers the word `0x61626380` for the data window in every cycle. -/
def oneWord (_ : ℕ) : FullIn 1 where
  aresetn := true
  awid := 0
  awaddr := 0x40
  awlen := 0
  awburst := 1
  awvalid := true
  wdata := 0x61626380
  wstrb := 0xf
  wlast := true
  wvalid := true
  bready := true
  arid := 0
  araddr := 0
  arlen := 0
  arburst := 1
  arvalid := false
  rready := true

/-- In its third cycle such a master has its first beat. -/
theorem hashes_window_beats_oneWord :
    (run oneWord 2).rstN (oneWord 2) = true ∧ (run oneWord 2).hashBusyO (oneWord 2) = false ∧
      (run oneWord 3).sha256Inst.loaded =
        (run oneWord 2).sha256Inst.loaded ++ [datMsbI 0x61626380] :=
  (hashes_window_beats oneWord (fun _ => rfl) 2).1 (by decide +kernel) (by decide) (by decide +kernel)

end ZynqSha256.Sha256Full
