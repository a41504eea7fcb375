import ZynqSha256.Proofs.AxiLite

/-! The read channel of the AXI4-Lite slave. ARREADY does not wait for RVALID to
fall, so an address handshaken while a response is still held is answered by
nothing; every other address is answered once. -/

namespace ZynqSha256.AxiLite

open Fips180 (Word)

variable {w : ℕ}

/-- The register ARADDR selects, read in this cycle. -/
def selected (i : AxiLiteIn w) (hash : Vector Word 8) (s : AxiLite w) : Word :=
  readMux (regIndex i.araddr) s.slvReg0 hash

section Runs

variable (i : ℕ → AxiLiteIn w) (hash : ℕ → Vector Word 8) (s : ℕ → AxiLite w)

/-- What the AR handshakes before cycle `n` ask for. -/
def asked : ℕ → List Word :=
  Clocked.log (fun n => (s n).arHandshake (i n)) (fun n => (s n).selected (i n) (hash n))

/-- RDATA of the R handshakes before cycle `n`. -/
def answers : ℕ → List Word :=
  Clocked.log (fun n => (s n).rHandshake (i n)) (fun n => (s n).axiRdata)

/-- Every AR handshake has one response with the register it selected, in order; the
last one may still be held, and a response held does not change. -/
structure OnceRead : Prop where
  answered : ∀ n, asked i hash s n =
    answers i s n ++ if (s n).axiRvalid then [(s n).axiRdata] else []
  held : Clocked.Stable (fun n => (s n).axiRvalid) (fun n => (i n).rready) (fun n => (s n).axiRdata)

variable {i hash s} {nxt : ℕ → Word}

/-- ARREADY answers an offer the master still makes, with its address latched. -/
theorem arready_offered (hs : Runs i nxt hash s) (ha : ∀ n, (i n).aresetn = true)
    (hm : ReadMaster i s) {n : ℕ} (hr : (s n).axiArready = true) :
    (i n).arvalid = true ∧ (s n).axiAraddr = (i n).araddr := by
  cases n with
  | zero => rw [hs.zero] at hr; cases hr
  | succ n =>
    rw [hs.succ, posedge_axiArready (ha n)] at hr
    have hoffer := hr
    rw [Bool.and_eq_true, Bool.not_eq_true'] at hr
    obtain ⟨hvalid, haddr⟩ := hm n hr.2 hr.1
    rw [hs.succ, posedge_axiAraddr (ha n), if_pos hoffer]
    exact ⟨hvalid, haddr.symm⟩

theorem axiRdata_next (hs : Runs i nxt hash s) (ha : ∀ n, (i n).aresetn = true)
    (hm : ReadMaster i s) (n : ℕ) : (s (n + 1)).axiRdata =
      if (s n).arHandshake (i n) && !(s n).axiRvalid then (s n).selected (i n) (hash n)
      else (s n).axiRdata := by
  rw [hs.succ, posedge_axiRdata (ha n)]
  split_ifs with h
  · rw [arHandshake, Bool.and_eq_true, Bool.and_eq_true] at h
    rw [regDataOut, selected, (arready_offered hs ha hm h.1.2).2]
  · rfl

/-- A response is held until it is taken, whatever the address channel does. -/
theorem response_held (hs : Runs i nxt hash s) (ha : ∀ n, (i n).aresetn = true)
    (hm : ReadMaster i s) :
    Clocked.Stable (fun n => (s n).axiRvalid) (fun n => (i n).rready)
      (fun n => (s n).axiRdata) := by
  intro n hv hr
  dsimp only at hv hr ⊢
  rw [axiRdata_next hs ha hm, hs.succ, posedge_axiRvalid (ha n), hv, hr]
  simp

/-- While no address is handshaken over a held response, the response register is a
one-place buffer. -/
theorem reads_slot (hs : Runs i nxt hash s) (ha : ∀ n, (i n).aresetn = true)
    (hm : ReadMaster i s)
    (hfree : ∀ n, (s n).arHandshake (i n) = true → (s n).axiRvalid = false) :
    Clocked.Slot (fun n => (s n).arHandshake (i n)) (fun n => (i n).rready)
      (fun n => (s n).axiRvalid) (fun n => (s n).selected (i n) (hash n))
      (fun n => (s n).axiRdata) where
  empty := by rw [hs.zero]; rfl
  free := hfree
  next n := by
    rw [hs.succ, posedge_axiRvalid (ha n)]
    cases h : (s n).arHandshake (i n) with
    | false => rfl
    | true => rw [hfree n h]; rfl
  load n hn := by rw [axiRdata_next hs ha hm, hn, hfree n hn]; rfl
  keep n hn := by rw [axiRdata_next hs ha hm, hn, Bool.not_true, Bool.and_false]; rfl

/-- An address handshaken over a held response is asked for and never answered. -/
theorem overrun_lengths (hs : Runs i nxt hash s) (ha : ∀ n, (i n).aresetn = true) {n : ℕ}
    (h : (s n).arHandshake (i n) = true) (hv : (s n).axiRvalid = true) :
    (answers i s (n + 1)).length + (if (s (n + 1)).axiRvalid then 1 else 0) =
      (answers i s n).length + 1 ∧
    (asked i hash s (n + 1)).length = (asked i hash s n).length + 1 := by
  constructor
  · rw [answers, Clocked.log_succ, hs.succ, posedge_axiRvalid (ha n), rHandshake, hv]
    cases (i n).rready <;> simp
  · rw [asked, Clocked.log_succ, h]
    simp

theorem onceRead_iff (hs : Runs i nxt hash s) (ha : ∀ n, (i n).aresetn = true)
    (hm : ReadMaster i s) :
    OnceRead i hash s ↔ ∀ n, (s n).arHandshake (i n) = true → (s n).axiRvalid = false := by
  constructor
  · intro h n hn
    by_contra hv
    rw [Bool.not_eq_false] at hv
    obtain ⟨hans, hask⟩ := overrun_lengths hs ha hn hv
    have h0 := congrArg List.length (h.answered n)
    have h1 := congrArg List.length (h.answered (n + 1))
    have hone : ∀ b : Bool, ∀ x : Word, (if b then [x] else []).length = if b then 1 else 0 := by
      intro b x
      cases b <;> rfl
    rw [List.length_append, hone] at h0 h1
    rw [hv, if_pos rfl] at h0
    omega
  · intro hfree
    exact ⟨(reads_slot hs ha hm hfree).log_eq, response_held hs ha hm⟩

end Runs

/-- On an AXI4-Lite slave of either wrapper (`Sha256Axi.bus_runs`, and any module around
sha256_stream_v1_0_S00_AXI), under any master that waits for ARREADY with a stable
address: reads are answered exactly once if and only if no address is handshaken in a
cycle with RVALID high. -/
theorem reads_exactly_once_iff (i : ℕ → AxiLiteIn w) (nxt : ℕ → Word) (hash : ℕ → Vector Word 8)
    (s : ℕ → AxiLite w) (hs : Runs i nxt hash s) (ha : ∀ n, (i n).aresetn = true)
    (hm : ReadMaster i s) :
    OnceRead i hash s ↔
      ∀ n, (i n).arvalid = true → (s n).axiArready = true → (s n).axiRvalid = false := by
  rw [onceRead_iff hs ha hm]
  simp [arHandshake]

/-- A master that reads `slv_reg0`, offers the address of `hash0` next, and stalls both
responses. -/
def staller (n : ℕ) : AxiLiteIn 8 where
  aresetn := true
  awaddr := 0
  awvalid := false
  wdata := 0
  wstrb := 0
  wvalid := false
  bready := true
  araddr := if n < 2 then 0x00 else 0x20
  arvalid := true
  rready := false

theorem staller_readMaster : ReadMaster staller (Sha256Axi.busRun staller) := by
  intro n _ hr
  refine ⟨rfl, ?_⟩
  by_cases h1 : n = 1
  · -- the first address is accepted in cycle 1
    subst h1
    revert hr
    decide +kernel
  · simp only [staller]
    by_cases h : n < 2
    · rw [if_pos h, if_pos (by omega)]
    · rw [if_neg h, if_neg (by omega)]

/-- Its second address is handshaken in cycle 3, while the first response is held. -/
theorem staller_overrun : (staller 3).arvalid = true ∧
    (Sha256Axi.busRun staller 3).axiArready = true ∧
    (Sha256Axi.busRun staller 3).axiRvalid = true := by decide +kernel

theorem reads_exactly_once_iff_staller :
    ¬OnceRead staller (fun n => ((Sha256Axi.run staller n).core (staller n)).hash)
      (Sha256Axi.busRun staller) := by
  rw [reads_exactly_once_iff staller _ _ _ (Sha256Axi.bus_runs staller) (fun _ => rfl)
    staller_readMaster]
  intro h
  obtain ⟨h1, h2, h3⟩ := staller_overrun
  rw [h 3 h1 h2] at h3
  cases h3

/-- Under this legal master two addresses are handshaken and one response exists. -/
theorem second_read_unanswered :
    ¬∀ i : ℕ → AxiLiteIn 8, (∀ n, (i n).aresetn = true) → ReadMaster i (Sha256Axi.busRun i) →
      OnceRead i (fun n => ((Sha256Axi.run i n).core (i n)).hash) (Sha256Axi.busRun i) := by
  intro h
  have hread := h staller (fun _ => rfl) staller_readMaster
  rw [onceRead_iff (Sha256Axi.bus_runs staller) (fun _ => rfl) staller_readMaster] at hread
  obtain ⟨h1, h2, h3⟩ := staller_overrun
  rw [hread 3 (by rw [arHandshake, h1, h2]; rfl)] at h3
  cases h3

end ZynqSha256.AxiLite
