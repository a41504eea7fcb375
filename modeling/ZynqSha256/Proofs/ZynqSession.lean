import ZynqSha256.Driver.ZynqSession
import ZynqSha256.Proofs.Wakeups

/-! Sessions on the Zynq driver. `sha256_open` tests `inited` and sets it later: a file is open
once and each buffer is freed once as long as no two tasks are in `sha256_open`. A release does
not stop the channel, so a write that was interrupted leaves it reading freed memory. -/

namespace ZynqSha256.ZynqDriver

open Steps (Run)

variable {es : List SessionEvent} {ev : SessionEvent} {s s' : Session} {e : Event} {d d' : DriverData}

/-! ## The calls -/

theorem callers_out (hs : Stepped d e d') (hfile : e.onFile = false) (hw : d.writer = .out)
    (hr : d.reader = .out) : d'.writer = .out ∧ d'.reader = .out := by
  cases hs with
  | sha256Write count h => cases hfile
  | sha256Read h => cases hfile
  | issuePending c h => cases hw.symm.trans h
  | writeErr c h => exact ⟨rfl, hr⟩
  | setBusy c h => cases hw.symm.trans h
  | sleep c h hb => cases hw.symm.trans h
  | pass c h hb => cases hw.symm.trans h
  | signalWriter c h => exact ⟨rfl, hr⟩
  | dmaCallback hc hcb => exact ⟨hw, hr⟩
  | wakeReader hcb =>
    refine ⟨hw, ?_⟩
    dsimp only
    rw [hr]
    split
    next => rfl
    next => rfl
  | wakeWriter hcb => exact ⟨congrArg Writer.wakeUp hw, hr⟩
  | terminateAll hcb => exact ⟨hw, hr⟩
  | clearBusy hcb => exact ⟨hw, hr⟩
  | testUnit h => cases hr.symm.trans h
  | signalReader h => exact ⟨hw, rfl⟩
  | unitStarts hc => exact ⟨hw, hr⟩
  | unitFinishes hu => exact ⟨hw, hr⟩

theorem chan_issued (hs : Stepped d e d') (hc : d'.chan = true) :
    (e = .issuePending ∧ d.writer ≠ .out) ∨ (e ≠ .issuePending ∧ d.chan = true) := by
  cases hs with
  | issuePending c h =>
    refine Or.inl ⟨rfl, fun hout => ?_⟩
    cases h.symm.trans hout
  | terminateAll hcb => cases hc
  | _ => exact Or.inr ⟨Event.noConfusion, hc⟩

/-! ## One step -/

/-- What one step can do. -/
inductive SessionStepped (s : Session) : SessionEvent → Session → Prop
  | busy : s.inited = true → SessionStepped s .sha256Open s
  | tested : s.inited = false → SessionStepped s .sha256Open { s with tested := s.tested + 1 }
  | dmaAlloc : s.tested ≠ 0 → SessionStepped s .dmaAlloc { s with
      tested := s.tested - 1, allocated := s.allocated + 1, txBuf := some s.allocs
      allocs := s.allocs + 1 }
  | setInited : s.allocated ≠ 0 → SessionStepped s .setInited { s with
      allocated := s.allocated - 1, files := s.files + 1, inited := true }
  | sha256Release : s.files ≠ 0 → (s.files = 1 → s.data.writer = .out ∧ s.data.reader = .out) →
      SessionStepped s .sha256Release { s with
        files := s.files - 1, releasing := s.releasing + 1, freed := s.freed ++ s.txBuf.toList }
  | clearInited : s.releasing ≠ 0 →
      SessionStepped s .clearInited { s with releasing := s.releasing - 1, inited := false }
  | call (e : Event) (data : DriverData) : (s.files = 0 → e.onFile = false) →
      Stepped s.data e data → SessionStepped s (.call e) { s with
        data := data, dmaFrom := if e = .issuePending then s.txBuf else s.dmaFrom }

theorem sessionStepped (h : sessionStep ev s = some s') : SessionStepped s ev s' := by
  cases ev with
  | sha256Open =>
    obtain rfl := Option.some.inj h
    by_cases hi : s.inited = true
    · rw [if_pos hi]
      exact .busy hi
    · rw [if_neg hi]
      exact .tested (by simpa using hi)
  | dmaAlloc =>
    obtain ⟨hne, h⟩ := Option.ite_none_left_eq_some.1 h
    exact Option.some.inj h ▸ .dmaAlloc hne
  | setInited =>
    obtain ⟨hne, h⟩ := Option.ite_none_left_eq_some.1 h
    exact Option.some.inj h ▸ .setInited hne
  | sha256Release =>
    obtain ⟨hguard, h⟩ := Option.ite_none_left_eq_some.1 h
    rw [not_or, not_and, not_or, not_not, not_not] at hguard
    exact Option.some.inj h ▸ .sha256Release hguard.1 hguard.2
  | clearInited =>
    obtain ⟨hne, h⟩ := Option.ite_none_left_eq_some.1 h
    exact Option.some.inj h ▸ .clearInited hne
  | call e =>
    obtain ⟨hguard, h⟩ := Option.ite_none_left_eq_some.1 h
    obtain ⟨data, hstep, rfl⟩ := Option.map_eq_some_iff.1 h
    exact .call e data (fun h0 => Bool.eq_false_iff.2 fun hon => hguard ⟨hon, h0⟩) (stepped hstep)

/-! ## One task in sha256_open -/

/-- The tasks in `sha256_open` past its test. -/
def Session.opening (s : Session) : ℕ := s.tested + s.allocated

/-- No task enters `sha256_open` while another is in it. -/
def OneOpener : SessionEvent → Session → Prop
  | .sha256Open, s => s.opening = 0
  | _, _ => True

structure SessionInv (s : Session) : Prop where
  alone : s.tested + s.allocated + s.files + s.releasing ≤ 1
  inited : s.inited = true ↔ s.files + s.releasing = 1
  /-- Every buffer but the current one has been freed, each once. -/
  freed : s.freed = List.range (s.allocs - (s.allocated + s.files))
  le : s.allocated + s.files ≤ s.allocs
  current : s.allocated + s.files = 1 → s.txBuf = some (s.allocs - 1)
  calls : s.files = 0 → s.data.writer = .out ∧ s.data.reader = .out
  dma : s.data.chan = true → ∃ b, s.dmaFrom = some b ∧ b < s.allocs

theorem sessionInv_init : SessionInv .init where
  alone := Nat.zero_le 1
  inited := by simp [Session.init]
  freed := rfl
  le := le_rfl
  current h := by cases h
  calls _ := ⟨rfl, rfl⟩
  dma h := by cases h

theorem sessionInv_dmaAlloc (hI : SessionInv s) (hne : s.tested ≠ 0) : SessionInv { s with
    tested := s.tested - 1, allocated := s.allocated + 1, txBuf := some s.allocs
    allocs := s.allocs + 1 } := by
  have halone := hI.alone
  have hfiles : s.files = 0 := by omega
  have halloc : s.allocated = 0 := by omega
  refine ⟨?_, hI.inited, ?_, ?_, fun _ => rfl, hI.calls, fun hc => ?_⟩
  · dsimp only
    omega
  · dsimp only
    rw [hI.freed, hfiles, halloc]
    rfl
  · dsimp only
    omega
  · obtain ⟨b, hb, hlt⟩ := hI.dma hc
    exact ⟨b, hb, hlt.trans (Nat.lt_succ_self _)⟩

theorem sessionInv_setInited (hI : SessionInv s) (hne : s.allocated ≠ 0) : SessionInv { s with
    allocated := s.allocated - 1, files := s.files + 1, inited := true } := by
  have halone := hI.alone
  have hle := hI.le
  have hsum : s.allocated - 1 + (s.files + 1) = s.allocated + s.files := by omega
  refine ⟨?_, ?_, ?_, ?_, fun _ => ?_, fun hno => ?_, hI.dma⟩
  · dsimp only
    omega
  · exact iff_of_true rfl (by dsimp only; omega)
  · dsimp only
    rw [hsum]
    exact hI.freed
  · dsimp only
    omega
  · exact hI.current (by omega)
  · cases hno

/-- The only file is released: its buffer joins the others. -/
theorem SessionInv.freed_release (hI : SessionInv s) (hne : s.files ≠ 0) :
    s.freed ++ s.txBuf.toList = List.range s.allocs := by
  have halone := hI.alone
  have hle := hI.le
  have hfiles : s.files = 1 := by omega
  have halloc : s.allocated = 0 := by omega
  have hsucc : s.allocs = s.allocs - 1 + 1 := by omega
  rw [hI.freed, hI.current (by omega), halloc, hfiles]
  conv_rhs => rw [hsucc, List.range_succ]
  rfl

theorem sessionInv_release (hI : SessionInv s) (hne : s.files ≠ 0)
    (hcalls : s.files = 1 → s.data.writer = .out ∧ s.data.reader = .out) : SessionInv { s with
      files := s.files - 1, releasing := s.releasing + 1, freed := s.freed ++ s.txBuf.toList } := by
  have halone := hI.alone
  have hle := hI.le
  have hfiles : s.files = 1 := by omega
  have halloc : s.allocated = 0 := by omega
  refine ⟨?_, ?_, ?_, ?_, fun hone => ?_, fun _ => hcalls hfiles, hI.dma⟩
  · dsimp only
    omega
  · exact iff_of_true (hI.inited.2 (by omega)) (by dsimp only; omega)
  · dsimp only
    rw [hI.freed_release hne, hfiles, halloc]
    rfl
  · dsimp only
    omega
  · dsimp only at hone
    omega

theorem sessionInv_call (hI : SessionInv s) (hfile : s.files = 0 → e.onFile = false)
    (hs : Stepped s.data e d') : SessionInv { s with
      data := d', dmaFrom := if e = .issuePending then s.txBuf else s.dmaFrom } := by
  refine ⟨hI.alone, hI.inited, hI.freed, hI.le, hI.current, fun hfiles => ?_, fun hc => ?_⟩
  · obtain ⟨hw, hr⟩ := hI.calls hfiles
    exact callers_out hs (hfile hfiles) hw hr
  · rcases chan_issued hs hc with ⟨rfl, hw⟩ | ⟨hne, hchan⟩
    · -- a descriptor is issued on an open file, from its buffer
      have halone := hI.alone
      have hle := hI.le
      have hfiles : s.files ≠ 0 := fun h0 => hw (hI.calls h0).1
      refine ⟨s.allocs - 1, ?_, by dsimp only; omega⟩
      dsimp only
      rw [if_pos rfl]
      exact hI.current (by omega)
    · dsimp only
      rw [if_neg hne]
      exact hI.dma hchan

theorem sessionInv_step (hI : SessionInv s) (hO : OneOpener ev s) (hs : SessionStepped s ev s') :
    SessionInv s' := by
  have halone := hI.alone
  cases hs with
  | busy hi => exact hI
  | tested hi =>
    have hno := mt hI.inited.2 (Bool.eq_false_iff.1 hi)
    have h0 : s.tested + s.allocated = 0 := hO
    refine ⟨?_, hI.inited, hI.freed, hI.le, hI.current, hI.calls, hI.dma⟩
    dsimp only
    omega
  | dmaAlloc hne => exact sessionInv_dmaAlloc hI hne
  | setInited hne => exact sessionInv_setInited hI hne
  | sha256Release hne hcalls => exact sessionInv_release hI hne hcalls
  | clearInited hne =>
    refine ⟨?_, ?_, hI.freed, hI.le, hI.current, hI.calls, hI.dma⟩
    · dsimp only
      omega
    · exact iff_of_false Bool.false_ne_true (by dsimp only; omega)
  | call e data hfile hs => exact sessionInv_call hI hfile hs

theorem sessionInv (h : Run sessionStep OneOpener .init es s) : SessionInv s :=
  h.invariant sessionInv_init fun _ _ _ hO hs hI => sessionInv_step hI hO (sessionStepped hs)

/-! ## Two tasks in sha256_open -/

/-- A buffer is freed twice. -/
def FreesTwice (s : Session) : Prop :=
  ∃ es s', Run sessionStep OneOpener s es s' ∧ ¬s'.freed.Nodup

theorem freesTwice_of_step (hO : OneOpener ev s) (h : sessionStep ev s = some s')
    (hF : FreesTwice s') : FreesTwice s := by
  obtain ⟨es, s'', hrun, hno⟩ := hF
  exact ⟨_, s'', (Run.one hO h).trans hrun, hno⟩

/-- Two files of one buffer, about to be closed. -/
theorem freesTwice_files {b : ℕ} (hfiles : s.files = 2) (hbuf : s.txBuf = some b)
    (hw : s.data.writer = .out) (hr : s.data.reader = .out) : FreesTwice s := by
  have hfirst : sessionStep .sha256Release s = some { s with
      files := 1, releasing := s.releasing + 1, freed := s.freed ++ [b] } := by
    simp [sessionStep, hfiles, hbuf]
  have hsecond : sessionStep .sha256Release { s with
      files := 1, releasing := s.releasing + 1, freed := s.freed ++ [b] } = some { s with
      files := 0, releasing := s.releasing + 1 + 1, freed := s.freed ++ [b] ++ [b] } := by
    simp [sessionStep, hbuf, hw, hr]
  refine ⟨_, _, (Run.one (show OneOpener .sha256Release s from trivial) hfirst).snoc
    (show OneOpener .sha256Release _ from trivial) hsecond, fun hnd => ?_⟩
  have hdis := (List.nodup_append.1 hnd).2.2
  exact hdis b (by simp) b (by simp) rfl

/-- Both tasks are past the allocation: the first buffer is lost. -/
theorem freesTwice_allocated {b : ℕ} (halloc : s.allocated = 2) (hfiles : s.files = 0)
    (hbuf : s.txBuf = some b) (hw : s.data.writer = .out) (hr : s.data.reader = .out) :
    FreesTwice s := by
  have hfirst : sessionStep .setInited s = some { s with
      allocated := 1, files := 1, inited := true } := by
    simp [sessionStep, halloc, hfiles]
  refine freesTwice_of_step (show OneOpener .setInited s from trivial) hfirst ?_
  have hsecond : sessionStep .setInited { s with allocated := 1, files := 1, inited := true } =
      some { s with allocated := 0, files := 2, inited := true } := by
    simp [sessionStep]
  exact freesTwice_of_step (show OneOpener .setInited _ from trivial) hsecond
    (freesTwice_files rfl hbuf hw hr)

theorem freesTwice_opening (hopen : s.opening = 2) (hne : s.tested ≠ 0) (hfiles : s.files = 0)
    (hw : s.data.writer = .out) (hr : s.data.reader = .out) : FreesTwice s := by
  unfold Session.opening at hopen
  have hfirst : sessionStep .dmaAlloc s = some { s with
      tested := s.tested - 1, allocated := s.allocated + 1, txBuf := some s.allocs,
      allocs := s.allocs + 1 } := if_neg hne
  refine freesTwice_of_step (show OneOpener .dmaAlloc s from trivial) hfirst ?_
  by_cases hone : s.tested = 1
  · exact freesTwice_allocated (show s.allocated + 1 = 2 by omega) hfiles rfl hw hr
  · have hsecond : sessionStep .dmaAlloc { s with
        tested := s.tested - 1, allocated := s.allocated + 1, txBuf := some s.allocs,
        allocs := s.allocs + 1 } = some { s with
        tested := s.tested - 1 - 1, allocated := s.allocated + 1 + 1, txBuf := some (s.allocs + 1),
        allocs := s.allocs + 1 + 1 } := if_neg (show s.tested - 1 ≠ 0 by omega)
    refine freesTwice_of_step (show OneOpener .dmaAlloc _ from trivial) hsecond ?_
    exact freesTwice_allocated (show s.allocated + 1 + 1 = 2 by omega) hfiles rfl hw hr

/-- As long as no two tasks were in `sha256_open`, every buffer but the current one has been
freed, each once. The next task that passes the test keeps it so, with one file open at a time,
exactly if no other is in `sha256_open`; else a run without a third one frees one buffer twice. -/
theorem opens_exclusive_iff (h : Run sessionStep OneOpener .init es s) (hi : s.inited = false)
    (hs : sessionStep .sha256Open s = some s') :
    s.freed = List.range (s.allocs - (s.allocated + s.files)) ∧
      ((∀ es' s'', Run sessionStep OneOpener s' es' s'' → s''.files ≤ 1 ∧ s''.freed.Nodup) ↔
        s.opening = 0) ∧
      (s.opening ≠ 0 → FreesTwice s') := by
  have hI := sessionInv h
  have hrace : s.opening ≠ 0 → FreesTwice s' := by
    intro hne
    have halone := hI.alone
    have hfiles : s.files = 0 := by
      unfold Session.opening at hne
      omega
    obtain ⟨hw, hr⟩ := hI.calls hfiles
    obtain rfl := Option.some.inj hs
    rw [if_neg (by simp [hi])]
    refine freesTwice_opening ?_ (Nat.succ_ne_zero _) hfiles hw hr
    unfold Session.opening at hne ⊢
    dsimp only
    omega
  refine ⟨hI.freed, ⟨fun hsafe => ?_, fun h0 es' s'' hrun => ?_⟩, hrace⟩
  · by_contra hne
    obtain ⟨es', s'', hrun, hno⟩ := hrace hne
    exact hno (hsafe es' s'' hrun).2
  · have hI' := sessionInv ((h.snoc (show OneOpener .sha256Open s from h0) hs).trans hrun)
    have halone := hI'.alone
    rw [hI'.freed]
    exact ⟨by omega, List.nodup_range⟩

/-- The second task enters before the first has allocated its buffer. -/
theorem opens_exclusive_iff_race : ∃ s s', Run sessionStep OneOpener .init [.sha256Open] s ∧
    sessionStep .sha256Open s = some s' ∧ FreesTwice s' := by
  have hrun : Run sessionStep OneOpener .init [.sha256Open] { Session.init with tested := 1 } :=
    Run.one (show OneOpener .sha256Open .init from rfl) rfl
  exact ⟨_, _, hrun, rfl, (opens_exclusive_iff hrun rfl rfl).2.2 (by decide)⟩

/-! ## The channel at a release -/

/-- No descriptor is issued and no callback runs. -/
def DriverData.Quiet (d : DriverData) : Prop := d.chan = false ∧ d.callback = .none

/-- What holds while no write is interrupted. -/
structure DriverData.Uncut (d : DriverData) : Prop where
  cleared : d.callback = .clearBusy → d.chan = false
  out : d.writer = .out → d.Quiet
  loop : ∀ c, d.writer = .loop c → d.Quiet
  waits : d.writer.inWait = true → d.busy = false → d.Quiet

/-- The writer while a descriptor is issued or a callback runs. -/
theorem DriverData.Uncut.writer (hU : d.Uncut) (h : ¬d.Quiet) : d.writer ≠ .out ∧
    (∀ c, d.writer ≠ .loop c) ∧ (d.writer.inWait = true → d.busy = true) :=
  ⟨mt hU.out h, fun c hc => h (hU.loop c hc), fun hw => by
    by_contra hb
    exact h (hU.waits hw (by simpa using hb))⟩

instance : ∀ (ev : SessionEvent) (s : Session), Decidable (OneOpener ev s)
  | .sha256Open, s => inferInstanceAs (Decidable (s.opening = 0))
  | .dmaAlloc, _ => isTrue trivial
  | .setInited, _ => isTrue trivial
  | .sha256Release, _ => isTrue trivial
  | .clearInited, _ => isTrue trivial
  | .call _, _ => isTrue trivial

end ZynqSha256.ZynqDriver
