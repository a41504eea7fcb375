import ZynqSha256.Proofs.Writes

/-! Data writes on AXI4-Lite. The handshake does not look at `hash_busy_o`, so a
write in the fifty cycles after the sixteenth word of a block is answered with OKAY
and dropped. A master that keeps that distance loses nothing. -/

namespace ZynqSha256.Sha256Axi

open Fips180 (Word chain)

/-- A write to the data window completes its AW and W handshakes. -/
def dataWrite (i : AxiLiteIn 8) (s : Sha256Axi) : Bool :=
  s.bus.awHandshake i && s.bus.wHandshake i && i.awaddr.extractLsb 7 6 = 1

section Runs

variable (i : ℕ → AxiLiteIn 8)

/-- WDATA of the data writes before cycle `n`, since the core was last in reset. -/
def acked : ℕ → List Word :=
  Clocked.logSince (fun n => (run i n).sha256RstN (i n)) (fun n => (run i n).dataWrite (i n))
    (fun n => (i n).wdata)

/-- The words the core has taken before cycle `n`, since it was last in reset. -/
def absorbed : ℕ → List Word := Sha256.accepted (wires i)

/-- Cycle `n` writes the sixteenth word of a block. -/
def sixteenth (n : ℕ) : Prop :=
  (run i n).sha256RstN (i n) = true ∧ (run i n).dataWrite (i n) = true ∧
    (acked i n).length % 16 = 15

/-- No data write comes within fifty cycles of the sixteenth word of a block. -/
def Spaced : Prop :=
  ∀ t n, t < n → n ≤ t + 50 → sixteenth i t →
    (∀ j, t ≤ j → j ≤ n → (run i j).sha256RstN (i j) = true) →
    (run i n).dataWrite (i n) = false

/-- What the master writes is what the core takes and hashes. -/
structure NoneLost : Prop where
  absorbed : ∀ n, absorbed i n = acked i n
  digest : ∀ n, (run i n).sha256RstN (i n) = true → (run i n).hashBusyO (i n) = false →
    ((run i n).core (i n)).hash = (chain ((acked i n).map datMsbI)).map lsbToMsb

variable {i}

theorem absorbed_succ {n : ℕ} (hr : (run i n).sha256RstN (i n) = true) :
    absorbed i (n + 1) = absorbed i n ++
      if (Sha256.run (wires i) n).accepts (wires i n) then [(i n).wdata] else [] := by
  have hw : (wires i n).rstN = true := hr
  rw [absorbed, Sha256.accepted, Clocked.logSince, if_pos hw]
  rfl

theorem acked_succ {n : ℕ} (hr : (run i n).sha256RstN (i n) = true) :
    acked i (n + 1) = acked i n ++
      if (run i n).dataWrite (i n) then [(i n).wdata] else [] := by
  rw [acked, Clocked.logSince, if_pos hr]

/-- The strobe of the data window is the data write of the same cycle. -/
theorem datVaildI_eq (ha : ∀ n, (i n).aresetn = true) (hm : AxiLite.WriteMaster i (busRun i))
    (n : ℕ) : (wires i n).datVaildI = (run i n).dataWrite (i n) := by
  have hinv : AxiLite.WriteInv (i n) (run i n).bus := AxiLite.WriteInv.of_runs (bus_runs i) ha hm n
  have hd : (wires i n).datVaildI = ((run i n).bus.slvRegWren (i n) && (run i n).datAddrVaild) :=
    rfl
  rw [hd, dataWrite, hinv.slvRegWren_eq, hinv.awHandshake_eq, hinv.wHandshake_eq, Bool.and_self]
  cases hr : (run i n).bus.axiAwready with
  | false => rfl
  | true => rw [datAddrVaild, hinv.latched hr]

theorem accepts_eq (ha : ∀ n, (i n).aresetn = true) (hm : AxiLite.WriteMaster i (busRun i))
    {n : ℕ} (hr : (run i n).sha256RstN (i n) = true) :
    (Sha256.run (wires i) n).accepts (wires i n) =
      ((run i n).dataWrite (i n) && !(run i n).hashBusyO (i n)) := by
  have hw : (wires i n).rstN = true := hr
  rw [Sha256.accepts, hw, datVaildI_eq ha hm, ← busy_eq i hr, Bool.true_and]

theorem hash_of_absorbed {n : ℕ} (hr : (run i n).sha256RstN (i n) = true)
    (hb : (run i n).hashBusyO (i n) = false) :
    ((run i n).core (i n)).hash = (chain ((absorbed i n).map datMsbI)).map lsbToMsb := by
  rw [core_eq_run i hr]
  exact Sha256.hash_of_accepted (wires i) n hr (busy_eq i hr ▸ hb)

/-- With the required distance a data write finds the core ready, by induction on the cycle. -/
theorem absorbed_of_spaced (ha : ∀ n, (i n).aresetn = true)
    (hm : AxiLite.WriteMaster i (busRun i)) (h : Spaced i) (n : ℕ) : absorbed i n = acked i n := by
  induction n using Nat.strong_induction_on with
  | _ n ih =>
    cases n with
    | zero => rfl
    | succ n =>
      have hn := ih n (Nat.lt_succ_self n)
      cases hr : (run i n).sha256RstN (i n) with
      | false =>
        have hw : (wires i n).rstN = false := hr
        simp [absorbed, Sha256.accepted, acked, Clocked.logSince, hr, hw]
      | true =>
        rw [absorbed_succ hr, acked_succ hr, hn, accepts_eq ha hm hr]
        cases hd : (run i n).dataWrite (i n) with
        | false => rfl
        | true =>
          have hfree : (run i n).hashBusyO (i n) = false := by
            by_contra hb
            rw [Bool.not_eq_false, busy_eq i hr] at hb
            obtain ⟨t, h1, h2, hend, hlive⟩ := (Sha256.busy_iff (wires i) n hr).1 hb
            have hrt : (run i t).sha256RstN (i t) = true := hlive t le_rfl h1
            have h15 : sixteenth i t := by
              rw [Sha256.blockEnd, Bool.and_eq_true, decide_eq_true_iff, accepts_eq ha hm hrt,
                Bool.and_eq_true] at hend
              refine ⟨hrt, hend.1.1, ?_⟩
              rw [← ih t (by omega)]
              exact hend.2
            have hno := h t n h1 h2 h15 (fun j h3 h4 => ?_)
            · rw [hno] at hd
              cases hd
            · rcases Nat.lt_or_eq_of_le h4 with h4 | rfl
              · exact hlive j h3 h4
              · exact hr
          rw [hfree]
          rfl

/-- Too close a data write is acknowledged and not taken. -/
theorem spaced_of_absorbed (ha : ∀ n, (i n).aresetn = true)
    (hm : AxiLite.WriteMaster i (busRun i)) (h : ∀ n, absorbed i n = acked i n) : Spaced i := by
  intro t n h1 h2 h15 hlive
  obtain ⟨hrt, hdt, hlen⟩ := h15
  have hrn := hlive n (by omega) le_rfl
  -- the sixteenth word itself was taken
  have htaken (k : ℕ) (hr : (run i k).sha256RstN (i k) = true)
      (hd : (run i k).dataWrite (i k) = true) :
      (Sha256.run (wires i) k).accepts (wires i k) = true := by
    have hk := h (k + 1)
    rw [absorbed_succ hr, acked_succ hr, h k, hd] at hk
    by_contra hno
    rw [if_neg hno] at hk
    simp at hk
  have hend : Sha256.blockEnd (wires i) t = true := by
    rw [Sha256.blockEnd, htaken t hrt hdt, Bool.true_and, decide_eq_true_iff]
    rw [← h t] at hlen
    exact hlen
  have hbusy := (Sha256.busy_iff (wires i) n hrn).2
    ⟨t, h1, h2, hend, fun j h3 h4 => hlive j h3 (by omega)⟩
  by_contra hd
  have hacc := htaken n hrn (by simpa using hd)
  rw [accepts_eq ha hm hrn, busy_eq i hrn, hbusy, Bool.not_true, Bool.and_false] at hacc
  cases hacc

theorem noneLost_iff (ha : ∀ n, (i n).aresetn = true) (hm : AxiLite.WriteMaster i (busRun i)) :
    NoneLost i ↔ Spaced i := by
  constructor
  · intro h
    exact spaced_of_absorbed ha hm h.absorbed
  · intro h
    have habs := absorbed_of_spaced ha hm h
    exact ⟨habs, fun n hr hb => by rw [hash_of_absorbed hr hb, habs n]⟩

end Runs

/-- Under a legal master every data write is answered with OKAY; the core takes each
of them, once and in order, if and only if they keep their distance. -/
theorem acknowledged_writes_kept_iff (i : ℕ → AxiLiteIn 8) (ha : ∀ n, (i n).aresetn = true)
    (hm : AxiLite.WriteMaster i (busRun i)) :
    (∀ n, (run i n).dataWrite (i n) = true →
      (busRun i (n + 1)).axiBvalid = true ∧ (busRun i (n + 1)).axiBresp = 0) ∧
    (NoneLost i ↔ Spaced i) := by
  refine ⟨fun n hn => ?_, noneLost_iff ha hm⟩
  have hslot := AxiLite.responses (bus_runs i) ha hm
  have hstrobe : (busRun i n).slvRegWren (i n) = true := by
    rw [dataWrite, Bool.and_eq_true, Bool.and_eq_true] at hn
    rw [((bus_runs i).onceWritten ha hm).strobe n]
    exact hn.1.1
  refine ⟨?_, hslot.load n hstrobe⟩
  rw [hslot.next n, hstrobe]
  rfl

/-- The data window is not register 0: writes to it never reset the core. -/
theorem rewriter_live (n : ℕ) :
    (run (AxiLite.rewriter 0x40) n).sha256RstN (AxiLite.rewriter 0x40 n) = true := by
  have hm := AxiLite.rewriter_writeMaster 0x40 (busRun (AxiLite.rewriter 0x40))
  have hsoft : (busRun (AxiLite.rewriter 0x40) n).slvReg0.getLsbD 0 = false := by
    cases n with
    | zero => rfl
    | succ n =>
      by_contra hset
      rw [Bool.not_eq_false, (bus_runs _).succ, AxiLite.posedge_slvReg0 rfl] at hset
      obtain ⟨hwren, hidx⟩ := slvReg0Next_bit0 hset
      rw [((bus_runs _).onceWritten (fun _ => rfl) hm).address n hwren] at hidx
      exact absurd hidx (by decide : ¬regIndex (0x40 : BitVec 8) = 0)
  change (true && !(busRun (AxiLite.rewriter 0x40) n).slvReg0.getLsbD 0) = true
  rw [hsoft]
  rfl

/-- A master that writes data without a pause has its sixteenth word in cycle 46 and
the next one three cycles later. -/
theorem rewriter_not_spaced : ¬Spaced (AxiLite.rewriter 0x40) := by
  intro h
  have h15 : sixteenth (AxiLite.rewriter 0x40) 46 :=
    ⟨rewriter_live 46, by decide +kernel, by decide +kernel⟩
  have h17 : (run (AxiLite.rewriter 0x40) 49).dataWrite (AxiLite.rewriter 0x40 49) = true := by
    decide +kernel
  rw [h 46 49 (by decide) (by decide) h15 (fun j _ _ => rewriter_live j)] at h17
  cases h17

theorem acknowledged_writes_kept_iff_rewriter : ¬NoneLost (AxiLite.rewriter 0x40) := by
  intro h
  have hiff := acknowledged_writes_kept_iff (AxiLite.rewriter 0x40) (fun _ => rfl)
    (AxiLite.rewriter_writeMaster 0x40 _)
  exact rewriter_not_spaced (hiff.2.1 h)

/-- Its seventeenth word is acknowledged and lost, without any soft reset. -/
theorem acknowledged_word_lost :
    ¬∀ i : ℕ → AxiLiteIn 8, (∀ n, (i n).aresetn = true) → AxiLite.WriteMaster i (busRun i) →
      (∀ n, (run i n).sha256RstN (i n) = true) → NoneLost i := by
  intro h
  have hm := AxiLite.rewriter_writeMaster 0x40 (busRun (AxiLite.rewriter 0x40))
  exact rewriter_not_spaced
    ((noneLost_iff (fun _ => rfl) hm).1 (h _ (fun _ => rfl) hm rewriter_live))

end ZynqSha256.Sha256Axi
