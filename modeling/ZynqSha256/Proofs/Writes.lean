import ZynqSha256.Proofs.AxiLite

/-! The write channel of the AXI4-Lite slave. Four flags encode one transaction;
`WriteInv` says what each of them implies about the others and about the master. -/

namespace ZynqSha256.AxiLite

open Fips180 (Word)

variable {w : ℕ}

structure WriteInv (i : AxiLiteIn w) (s : AxiLite w) : Prop where
  ready : s.axiAwready = s.axiWready
  offered : s.axiAwready = true → i.awvalid = true ∧ i.wvalid = true
  latched : s.axiAwready = true → s.axiAwaddr = i.awaddr
  closed : s.axiAwready = true → s.awEn = false
  pending : s.axiBvalid = true → s.awEn = false ∧ s.axiAwready = false

namespace WriteInv

variable {i : AxiLiteIn w} {s : AxiLite w}

/-- An open AWREADY is a handshake on both channels and the write strobe. -/
theorem slvRegWren_eq (h : WriteInv i s) : s.slvRegWren i = s.axiAwready := by
  unfold slvRegWren
  rw [← h.ready]
  cases hr : s.axiAwready with
  | false => rfl
  | true => rw [(h.offered hr).1, (h.offered hr).2]; rfl

theorem awHandshake_eq (h : WriteInv i s) : s.awHandshake i = s.axiAwready := by
  unfold awHandshake
  cases hr : s.axiAwready with
  | false => rw [Bool.and_false]
  | true => rw [(h.offered hr).1]; rfl

theorem wHandshake_eq (h : WriteInv i s) : s.wHandshake i = s.axiAwready := by
  unfold wHandshake
  rw [← h.ready]
  cases hr : s.axiAwready with
  | false => rw [Bool.and_false]
  | true => rw [(h.offered hr).2]; rfl

theorem not_bvalid (h : WriteInv i s) (hr : s.axiAwready = true) : s.axiBvalid = false := by
  cases hb : s.axiBvalid with
  | false => rfl
  | true => rw [(h.pending hb).2] at hr; cases hr

theorem axiBvalid_next {nxt : Word} {hash : Vector Word 8} (h : WriteInv i s)
    (ha : i.aresetn = true) :
    (s.posedge i nxt hash).axiBvalid = (s.axiAwready || s.axiBvalid && !i.bready) := by
  rw [posedge_axiBvalid ha, h.slvRegWren_eq]
  cases hr : s.axiAwready with
  | false => rfl
  | true => rw [h.not_bvalid hr]; rfl

end WriteInv

section Runs

variable {i : ℕ → AxiLiteIn w} {nxt : ℕ → Word} {hash : ℕ → Vector Word 8} {s : ℕ → AxiLite w}

theorem WriteInv.succ {n : ℕ} (hs : Runs i nxt hash s) (ha : (i n).aresetn = true)
    (hm : WriteMaster i s) (h : WriteInv (i n) (s n)) : WriteInv (i (n + 1)) (s (n + 1)) := by
  have haw : (s (n + 1)).axiAwready = (s n).awAccept (i n) := by
    rw [hs.succ, posedge_axiAwready ha]
  -- an accepted offer was not ready yet, so the master still makes it
  have haccept (hr : (s (n + 1)).axiAwready = true) : (i n).awvalid = true ∧
      (i n).wvalid = true ∧ (s n).axiAwready = false := by
    rw [haw] at hr
    simp only [awAccept, Bool.and_eq_true, Bool.not_eq_true'] at hr
    exact ⟨hr.1.1.2, hr.1.2, hr.1.1.1⟩
  constructor
  · rw [haw, hs.succ, posedge_axiWready ha h.ready]
  · intro hr
    obtain ⟨h1, h2, h3⟩ := haccept hr
    exact ⟨(hm.aw n h1 h3).1, (hm.w n h2 (h.ready.symm.trans h3)).1⟩
  · intro hr
    obtain ⟨h1, -, h3⟩ := haccept hr
    rw [haw] at hr
    rw [hs.succ, posedge_axiAwaddr ha, if_pos hr]
    exact (hm.aw n h1 h3).2.symm
  · intro hr
    rw [haw] at hr
    rw [hs.succ, posedge_awEn ha, hr]
    rfl
  · intro hb
    rw [hs.succ, h.axiBvalid_next ha, Bool.or_eq_true] at hb
    have hen : (s n).awEn = false := by
      rcases hb with hb | hb
      · exact h.closed hb
      · exact (h.pending (by rw [Bool.and_eq_true] at hb; exact hb.1)).1
    have hno : (s n).awAccept (i n) = false := by rw [awAccept, hen, Bool.and_false]
    have hb' : (s n).bHandshake (i n) = false := by
      unfold bHandshake
      rcases hb with hb | hb
      · rw [h.not_bvalid hb]; rfl
      · rw [Bool.and_eq_true, Bool.not_eq_true'] at hb
        rw [hb.2, Bool.and_false]
    exact ⟨by rw [hs.succ, posedge_awEn ha, hno, hb', hen]; rfl, haw.trans hno⟩

theorem WriteInv.of_runs (hs : Runs i nxt hash s) (ha : ∀ n, (i n).aresetn = true)
    (hm : WriteMaster i s) (n : ℕ) : WriteInv (i n) (s n) := by
  induction n with
  | zero => rw [hs.zero]; exact ⟨rfl, nofun, nofun, nofun, nofun⟩
  | succ n ih => exact ih.succ hs (ha n) hm

/-- The response channel holds one response for each strobe until it is taken. -/
theorem responses (hs : Runs i nxt hash s) (ha : ∀ n, (i n).aresetn = true)
    (hm : WriteMaster i s) :
    Clocked.Slot (fun n => (s n).slvRegWren (i n)) (fun n => (i n).bready)
      (fun n => (s n).axiBvalid) (fun _ => (0 : BitVec 2)) (fun n => (s n).axiBresp) := by
  have hinv := WriteInv.of_runs hs ha hm
  have hresp (n : ℕ) : (s n).axiBresp = 0 := by
    induction n with
    | zero => rw [hs.zero]; rfl
    | succ n ih => rw [hs.succ, posedge_axiBresp (ha n) ih]
  refine ⟨?_, fun n hn => ?_, fun n => ?_, fun n _ => hresp (n + 1), fun n _ => ?_⟩
  · rw [hs.zero]; rfl
  · exact (hinv n).not_bvalid ((hinv n).slvRegWren_eq ▸ hn)
  · rw [hs.succ, (hinv n).axiBvalid_next (ha n), (hinv n).slvRegWren_eq]
  · rw [hresp (n + 1), hresp n]

/-- Every write is strobed once, with its own address and data, and answered once. -/
structure OnceWritten (i : ℕ → AxiLiteIn w) (nxt : ℕ → Word) (s : ℕ → AxiLite w) : Prop where
  ready : ∀ n, (s n).axiAwready = (s n).axiWready
  handshakes : ∀ n, (s n).awHandshake (i n) = (s n).wHandshake (i n)
  strobe : ∀ n, (s n).slvRegWren (i n) = (s n).awHandshake (i n)
  address : ∀ n, (s n).slvRegWren (i n) = true → (s n).axiAwaddr = (i n).awaddr
  effect : ∀ n, (s n).slvRegWren (i n) = true → (s (n + 1)).slvReg0 =
    slvReg0Next true (regIndex (i n).awaddr) (i n).wstrb (i n).wdata (nxt n) (s n).slvReg0
  responses : ∀ n, Nat.count (fun k => (s k).slvRegWren (i k) = true) n =
    Nat.count (fun k => (s k).bHandshake (i k) = true) n + if (s n).axiBvalid then 1 else 0
  outstanding : ∀ n, (s n).axiBvalid = true →
    (s n).awHandshake (i n) = false ∧ (s n).wHandshake (i n) = false

theorem Runs.onceWritten (hs : Runs i nxt hash s) (ha : ∀ n, (i n).aresetn = true)
    (hm : WriteMaster i s) : OnceWritten i nxt s := by
  have hinv := WriteInv.of_runs hs ha hm
  refine ⟨fun n => (hinv n).ready, fun n => ?_, fun n => ?_, fun n hn => ?_, fun n hn => ?_,
    (responses hs ha hm).count_eq, fun n hb => ?_⟩
  · rw [(hinv n).awHandshake_eq, (hinv n).wHandshake_eq]
  · rw [(hinv n).awHandshake_eq, (hinv n).slvRegWren_eq]
  · exact (hinv n).latched ((hinv n).slvRegWren_eq ▸ hn)
  · rw [hs.succ, posedge_slvReg0 (ha n), hn, (hinv n).latched ((hinv n).slvRegWren_eq ▸ hn)]
  · rw [(hinv n).awHandshake_eq, (hinv n).wHandshake_eq]
    exact ⟨((hinv n).pending hb).2, ((hinv n).pending hb).2⟩

end Runs

/-- On both AXI4-Lite slaves, under any master that waits for ready with a stable
payload, register writes happen exactly once. -/
theorem writes_exactly_once :
    (∀ i : ℕ → AxiLiteIn 8, (∀ n, (i n).aresetn = true) →
      WriteMaster i (Sha256Axi.busRun i) →
      OnceWritten i (fun n => (Sha256Axi.run i n).slvReg0Nxt (i n)) (Sha256Axi.busRun i)) ∧
    ∀ (i : ℕ → AxiLiteIn 6) (nxt : ℕ → Word) (hash : ℕ → Vector Word 8) (s : ℕ → AxiLite 6),
      Runs i nxt hash s → (∀ n, (i n).aresetn = true) → WriteMaster i s → OnceWritten i nxt s :=
  ⟨fun i ha hm => (Sha256Axi.bus_runs i).onceWritten ha hm,
    fun _ _ _ _ hs ha hm => hs.onceWritten ha hm⟩

/-- A master that offers the same write in every cycle and takes each response at once. -/
def rewriter {w : ℕ} (addr : BitVec w) (_ : ℕ) : AxiLiteIn w where
  aresetn := true
  awaddr := addr
  awvalid := true
  wdata := 0x61626380
  wstrb := 0xf
  wvalid := true
  bready := true
  araddr := 0
  arvalid := false
  rready := true

theorem rewriter_writeMaster {w : ℕ} (addr : BitVec w) (s : ℕ → AxiLite w) :
    WriteMaster (rewriter addr) s :=
  ⟨fun _ _ _ => ⟨rfl, rfl⟩, fun _ _ _ => ⟨rfl, rfl⟩⟩

/-- Such a master has its first write strobed in cycle 1, for the data window. -/
theorem writes_exactly_once_rewriter :
    (Sha256Axi.busRun (rewriter 0x40) 1).slvRegWren (rewriter 0x40 1) = true ∧
      (Sha256Axi.busRun (rewriter 0x40) 1).axiAwaddr = 0x40 ∧
      OnceWritten (rewriter 0x40) (fun n => (Sha256Axi.run (rewriter 0x40) n).slvReg0Nxt
        (rewriter 0x40 n)) (Sha256Axi.busRun (rewriter 0x40)) := by
  have h := writes_exactly_once.1 (rewriter 0x40) (fun _ => rfl) (rewriter_writeMaster 0x40 _)
  exact ⟨by decide +kernel, h.address 1 (by decide +kernel), h⟩

end ZynqSha256.AxiLite
