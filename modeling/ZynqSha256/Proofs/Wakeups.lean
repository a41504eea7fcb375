import ZynqSha256.Lib.Steps
import ZynqSha256.Driver.Zynq

/-! The wait queues of the Zynq driver over all runs. `dma_callback` wakes the writer
before it clears `busy`, and `sha256_write` sets `busy` only after the transfer has
started: a writer that tests in between sleeps on, with no callback to come. The
reader's queue is woken only when the callback finds the core idle. -/

namespace ZynqSha256.ZynqDriver

open Steps (Run Any)

/-! ## One step -/

/-- What one step can do. -/
inductive Stepped (d : DriverData) : Event → DriverData → Prop
  | sha256Write (count : ℕ) : d.writer = .out →
      Stepped d (.sha256Write count) { d with writer := .enter (.start count) }
  | issuePending (c : Call) : d.writer = .loop c →
      Stepped d .issuePending { d with chan := true, writer := .issued c }
  | writeErr (c : Call) : d.writer = .loop c → Stepped d .writeErr { d with writer := .out }
  | setBusy (c : Call) : d.writer = .issued c →
      Stepped d .setBusy { d with busy := true, writer := .waiting c }
  | sleep (c : Call) : d.writer = .waiting c → d.busy = true →
      Stepped d .testBusy { d with writer := .asleep c }
  | pass (c : Call) : d.writer = .waiting c → d.busy = false →
      Stepped d .testBusy { d with writer := .enter c.next }
  | signalWriter (c : Call) : d.writer = .asleep c →
      Stepped d .signalWriter { d with writer := .out }
  | dmaCallback : d.chan = true → d.callback = .none →
      Stepped d .dmaCallback { d with callback := .wakeReader }
  | wakeReader : d.callback = .wakeReader → Stepped d .wakeReader { d with
      callback := .wakeWriter, reader := if d.unit then d.reader else d.reader.wakeUp }
  | wakeWriter : d.callback = .wakeWriter → Stepped d .wakeWriter { d with
      callback := .terminateAll, writer := d.writer.wakeUp }
  | terminateAll : d.callback = .terminateAll →
      Stepped d .terminateAll { d with callback := .clearBusy, chan := false }
  | clearBusy : d.callback = .clearBusy →
      Stepped d .clearBusy { d with callback := .none, busy := false }
  | sha256Read : d.reader = .out →
      Stepped d .sha256Read { d with reader := if d.unit then .waiting else .out }
  | testUnit : d.reader = .waiting →
      Stepped d .testUnit { d with reader := if d.unit then .asleep else .out }
  | signalReader : d.reader = .asleep → Stepped d .signalReader { d with reader := .out }
  | unitStarts : d.chan = true → Stepped d .unitStarts { d with unit := true }
  | unitFinishes : d.unit = true → Stepped d .unitFinishes { d with unit := false }

theorem stepped {e : Event} {d d' : DriverData} (h : step e d = some d') : Stepped d e d' := by
  rcases e with count | _ | _ | _ | _ | _ | _ | _ | _ | _ | _ | _ | _ | _ | _ | _
  case issuePending | writeErr | setBusy | signalWriter =>
    simp only [step] at h
    split at h
    next c hw =>
      cases h
      constructor
      exact hw
    next => cases h
  case testBusy =>
    simp only [step] at h
    split at h
    next c hw =>
      cases h
      by_cases hb : d.busy = true
      · rw [if_pos hb]
        exact .sleep c hw hb
      · rw [if_neg hb]
        exact .pass c hw (by simpa using hb)
    next => cases h
  case dmaCallback =>
    obtain ⟨hcond, h⟩ := Option.ite_none_right_eq_some.1 h
    cases h
    rw [Bool.and_eq_true, decide_eq_true_iff] at hcond
    exact .dmaCallback hcond.1 hcond.2
  all_goals
    obtain ⟨hcond, h⟩ := Option.ite_none_right_eq_some.1 h
    cases h
    constructor
    exact hcond

/-- The task is in `wait_event_interruptible`. -/
def Writer.inWait : Writer → Bool
  | out | loop _ | issued _ => false
  | waiting _ | asleep _ => true

theorem Writer.enter_inWait (c : Call) : (enter c).inWait = false := by
  unfold enter
  split
  · rfl
  · rfl

theorem Writer.wakeUp_ne (w : Writer) (c : Call) : w.wakeUp ≠ asleep c := by
  rcases w with _ | _ | _ | _ | _
  all_goals
    intro h
    cases h

/-! ## The writer -/

/-- `device_terminate_all` is ahead. -/
def Callback.beforeTerminate : Callback → Bool
  | wakeReader | wakeWriter | terminateAll => true
  | none | clearBusy => false

namespace DriverData

/-- A callback will still wake `w_wqh`: the one that runs, or the one of the transfer
that is in flight. -/
def WakeAhead (d : DriverData) : Prop :=
  match d.callback with
  | .none | .clearBusy => d.chan = true
  | .wakeReader | .wakeWriter => True
  | .terminateAll => False

/-- A writer on `w_wqh` waits for a transfer that runs, or finds `busy` cleared; and it
will be woken. -/
def WriterSafe (d : DriverData) : Prop :=
  ∀ c, d.writer = .asleep c → (d.chan = true ∨ d.busy = false) ∧ d.WakeAhead

/-- A writer on `w_wqh` that no callback will wake. -/
def WriterStranded (d : DriverData) : Prop := (∃ c, d.writer = .asleep c) ∧ ¬d.WakeAhead

/-- A writer that finds `busy` set has the store of `busy = 0` ahead of it. -/
structure Paired (d : DriverData) : Prop where
  running : d.callback.beforeTerminate = true → d.chan = true
  waiting : ∀ c, d.writer = .waiting c → d.busy = true → d.chan = true ∨ d.callback = .clearBusy
  asleep : ∀ c, d.writer = .asleep c → d.WakeAhead

end DriverData

/-- `busy = 1` comes before the callback's `busy = 0`; the writer does not find `busy` set
between the callback's wake-up of `w_wqh` and its `busy = 0`, unless by then the next
transfer is in flight. -/
def InOrder (e : Event) (d : DriverData) : Prop :=
  match e with
  | .setBusy => d.chan = true ∨ d.callback = .clearBusy
  | .testBusy => d.busy = true →
      d.callback ≠ .terminateAll ∧ (d.callback = .clearBusy → d.chan = true)
  | _ => True

section Writers

variable {e : Event} {d d' : DriverData}

open DriverData

theorem DriverData.Paired.of_awake (hrun : d.callback.beforeTerminate = true → d.chan = true)
    (hw : d.writer.inWait = false) : d.Paired := by
  refine ⟨hrun, fun c hc => ?_, fun c hc => ?_⟩
  · rw [hc] at hw
    cases hw
  · rw [hc] at hw
    cases hw

theorem DriverData.Paired.step (h : d.Paired) (hC : InOrder e d) (hs : Stepped d e d') :
    d'.Paired := by
  obtain ⟨hrun, hwait, hsleep⟩ := h
  rcases hs with ⟨count, hw⟩ | ⟨c, hw⟩ | ⟨c, hw⟩ | ⟨c, hw⟩ | ⟨c, hw, hb⟩ | ⟨c, hw, hb⟩ | ⟨c, hw⟩ |
    ⟨hch, hcb⟩ | hcb | hcb | hcb | hcb | hr | hr | hr | hch | hu
  case sha256Write | pass => exact of_awake hrun (Writer.enter_inWait _)
  case issuePending => exact of_awake (fun _ => rfl) rfl
  case writeErr | signalWriter => exact of_awake hrun rfl
  case setBusy => exact ⟨hrun, fun _ _ _ => hC, fun c' hc' => Writer.noConfusion hc'⟩
  case sleep =>
    -- the store is ahead, and in order that means a wake-up is
    obtain ⟨hterm, hclear⟩ := hC hb
    refine ⟨hrun, fun c' hc' => Writer.noConfusion hc', fun c' _ => ?_⟩
    rcases hcb : d.callback with _ | _ | _ | _ | _
    · have hahead := hwait c hw hb
      rw [hcb] at hahead
      exact hahead.resolve_right Callback.noConfusion
    · trivial
    · trivial
    · exact absurd hcb hterm
    · exact hclear hcb
  case dmaCallback => exact ⟨fun _ => hch, fun _ _ _ => Or.inl hch, fun _ _ => trivial⟩
  case wakeReader =>
    have hch := hrun (hcb ▸ rfl)
    exact ⟨fun _ => hch, fun _ _ _ => Or.inl hch, fun _ _ => trivial⟩
  case wakeWriter =>
    have hch := hrun (hcb ▸ rfl)
    exact ⟨fun _ => hch, fun _ _ _ => Or.inl hch, fun c hc => absurd hc (Writer.wakeUp_ne _ c)⟩
  case terminateAll =>
    refine ⟨fun hb => Bool.noConfusion hb, fun _ _ _ => Or.inr rfl, fun c hc => ?_⟩
    simpa [WakeAhead, hcb] using hsleep c hc
  case clearBusy =>
    refine ⟨fun hb => Bool.noConfusion hb, fun _ _ hb => Bool.noConfusion hb, fun c hc => ?_⟩
    simpa [WakeAhead, hcb] using hsleep c hc
  case sha256Read | testUnit | signalReader | unitStarts | unitFinishes =>
    exact ⟨hrun, hwait, hsleep⟩

theorem run_paired {es : List Event} (h : Run step InOrder init es d) : d.Paired := by
  refine h.invariant (Paired.of_awake (fun hb => Bool.noConfusion hb) rfl) fun e d d' hC hs ih => ?_
  exact ih.step hC (stepped hs)

theorem DriverData.Paired.writerSafe (h : d.Paired) : d.WriterSafe := by
  intro c hc
  have hahead := h.asleep c hc
  refine ⟨Or.inl ?_, hahead⟩
  rcases hcb : d.callback with _ | _ | _ | _ | _
  · simpa [WakeAhead, hcb] using hahead
  · exact h.running (hcb ▸ rfl)
  · exact h.running (hcb ▸ rfl)
  · exact h.running (hcb ▸ rfl)
  · simpa [WakeAhead, hcb] using hahead

/-- A signal apart, nothing wakes a stranded writer. -/
theorem DriverData.WriterStranded.step (h : d.WriterStranded) (he : e ≠ .signalWriter) (hs : Stepped d e d') :
    d'.WriterStranded := by
  obtain ⟨⟨c, hc⟩, hahead⟩ := h
  rcases hs with ⟨count, hw⟩ | ⟨c, hw⟩ | ⟨c, hw⟩ | ⟨c, hw⟩ | ⟨c, hw, -⟩ | ⟨c, hw, -⟩ | ⟨c, hw⟩ |
    ⟨hch, hcb⟩ | hcb | hcb | hcb | hcb | hr | hr | hr | hch | hu
  case signalWriter => exact absurd rfl he
  case dmaCallback => simp [WakeAhead, hcb, hch] at hahead
  case wakeReader | wakeWriter => simp [WakeAhead, hcb] at hahead
  case terminateAll => exact ⟨⟨c, hc⟩, Bool.noConfusion⟩
  case clearBusy =>
    refine ⟨⟨c, hc⟩, ?_⟩
    simpa [WakeAhead, hcb] using hahead
  case sha256Read | testUnit | signalReader | unitStarts | unitFinishes => exact ⟨⟨c, hc⟩, hahead⟩
  all_goals
    rw [hc] at hw
    cases hw

theorem WriterStranded.run {es : List Event} (h : d.WriterStranded)
    (hrun : Run step (fun e _ => e ≠ .signalWriter) d es d') : d'.WriterStranded :=
  hrun.invariant h fun _ _ _ he hs ih => ih.step he (stepped hs)

/-- The test that finds `busy` set where the callback has nothing more to wake. -/
theorem stranded_by_testBusy (hs : Stepped d .testBusy d') (hC : ¬InOrder .testBusy d) :
    d'.WriterStranded := by
  cases hs with
  | sleep c hw hb =>
    refine ⟨⟨c, rfl⟩, fun hahead => hC fun _ => ?_⟩
    rcases hcb : d.callback with _ | _ | _ | _ | _
    case terminateAll => simp [WakeAhead, hcb] at hahead
    case clearBusy => exact ⟨Callback.noConfusion, fun _ => by simpa [WakeAhead, hcb] using hahead⟩
    all_goals exact ⟨Callback.noConfusion, Callback.noConfusion⟩
  | pass c hw hb =>
    refine absurd (fun hbusy => ?_) hC
    rw [hb] at hbusy
    cases hbusy

/-- `busy = 1` after the callback's last step is never cleared. -/
theorem stranded_by_setBusy (h : d.Paired) (hs : Stepped d .setBusy d')
    (hC : ¬InOrder .setBusy d) : ∃ d'', step .testBusy d' = some d'' ∧ d''.WriterStranded := by
  obtain ⟨hch, hcb⟩ := not_or.1 hC
  cases hs with
  | setBusy c hw =>
    refine ⟨{ d with busy := true, writer := .asleep c }, rfl, ⟨c, rfl⟩, fun hahead => ?_⟩
    rcases hcb' : d.callback with _ | _ | _ | _ | _
    case none => exact hch (by simpa [WakeAhead, hcb'] using hahead)
    case clearBusy => exact hcb hcb'
    all_goals exact hch (h.running (hcb' ▸ rfl))

/-- A run in order keeps the writer safe. The first step out of order strands it, by
itself or with the test that follows it. -/
theorem writers_woken_iff {es : List Event} (h : Run step InOrder init es d) :
    d.WriterSafe ∧
    ∀ e d', step e d = some d' → ¬InOrder e d →
      d'.WriterStranded ∨ ∃ d'', step .testBusy d' = some d'' ∧ d''.WriterStranded := by
  have hpaired := run_paired h
  refine ⟨hpaired.writerSafe, fun e d' hs hC => ?_⟩
  by_cases he : e = .testBusy
  · subst he
    exact Or.inl (stranded_by_testBusy (stepped hs) hC)
  · by_cases he' : e = .setBusy
    · subst he'
      exact Or.inr (stranded_by_setBusy hpaired (stepped hs) hC)
    · refine absurd ?_ hC
      cases e
      case setBusy => exact absurd rfl he'
      case testBusy => exact absurd rfl he
      all_goals trivial

end Writers

instance (e : Event) (d : DriverData) : Decidable (InOrder e d) :=
  match e with
  | .setBusy => inferInstanceAs (Decidable (_ ∨ _))
  | .testBusy => inferInstanceAs (Decidable (_ → _))
  | .sha256Write _ | .issuePending | .writeErr | .signalWriter | .dmaCallback | .wakeReader
  | .wakeWriter | .terminateAll | .clearBusy | .sha256Read | .testUnit | .signalReader
  | .unitStarts | .unitFinishes => isTrue trivial

/-- The writer sleeps while the callback of its only chunk is on its way. -/
def sleeping : DriverData := ⟨true, true, false, .asleep ⟨0, 64⟩, .out, .wakeWriter⟩

theorem writers_woken_iff_sleeping : sleeping.WriterSafe := by
  have hrun : Run step InOrder DriverData.init [.sha256Write 64, .issuePending, .setBusy, .testBusy,
      .dmaCallback, .wakeReader] sleeping := Steps.run_of_exec (by decide)
  exact (writers_woken_iff hrun).1

/-- The writer tests again between its wake-up and `busy = 0`. -/
theorem writer_left_asleep : ¬ ∀ es d, Run step Any DriverData.init es d → d.WriterSafe := by
  intro h
  have hrun : Run step Any DriverData.init [.sha256Write 64, .issuePending, .setBusy, .testBusy,
      .dmaCallback, .wakeReader, .wakeWriter, .testBusy, .terminateAll, .clearBusy]
      ⟨false, false, false, .asleep ⟨0, 64⟩, .out, .none⟩ := Steps.run_of_exec (by decide)
  exact Bool.noConfusion (h _ _ hrun ⟨0, 64⟩ rfl).2

/-! ## The reader -/

namespace DriverData

/-- A callback has the check for `r_wqh` ahead of it. -/
def CheckAhead (d : DriverData) : Prop :=
  match d.callback with
  | .none | .clearBusy => d.chan = true
  | .wakeReader => True
  | .wakeWriter | .terminateAll => False

/-- A reader on `r_wqh` with the core idle will be woken. -/
def ReaderSafe (d : DriverData) : Prop :=
  d.reader = .asleep → d.unit = false → d.CheckAhead

end DriverData

/-- The reader goes to sleep only while a callback has its check ahead, and the check
finds the core idle when a reader sleeps. -/
def Heard (e : Event) (d : DriverData) : Prop :=
  match e with
  | .testUnit => d.unit = true → d.CheckAhead
  | .wakeReader => d.reader = .asleep → d.unit = false
  | _ => True

section Readers

variable {e : Event} {d d' : DriverData}

open DriverData

theorem Reader.wakeUp_ne (r : Reader) : r.wakeUp ≠ asleep := by
  rcases r with _ | _ | _
  all_goals
    intro h
    cases h

/-- A sleeping reader keeps a check ahead, whether the core is busy or not. -/
theorem checkAhead_step (h : d.reader = .asleep → d.CheckAhead) (hC : Heard e d)
    (hs : Stepped d e d') : d'.reader = .asleep → d'.CheckAhead := by
  intro hr'
  rcases hs with ⟨count, hw⟩ | ⟨c, hw⟩ | ⟨c, hw⟩ | ⟨c, hw⟩ | ⟨c, hw, -⟩ | ⟨c, hw, -⟩ | ⟨c, hw⟩ |
    ⟨hch, hcb⟩ | hcb | hcb | hcb | hcb | hr | hr | hr | hch | hu
  case issuePending =>
    have hahead := h hr'
    rcases hcb : d.callback with _ | _ | _ | _ | _
    case wakeWriter | terminateAll => simp [CheckAhead, hcb] at hahead
    all_goals trivial
  case dmaCallback => trivial
  case wakeReader =>
    -- whoever the check leaves asleep was asleep before it
    by_cases hu : d.unit = true
    · rw [if_pos hu] at hr'
      have hidle := hC hr'
      rw [hu] at hidle
      cases hidle
    · rw [if_neg hu] at hr'
      exact absurd hr' (Reader.wakeUp_ne _)
  case wakeWriter | terminateAll | clearBusy => simpa [CheckAhead, hcb] using h hr'
  case sha256Read =>
    split at hr'
    · cases hr'
    · cases hr'
  case testUnit =>
    by_cases hu : d.unit = true
    · exact hC hu
    · rw [if_neg hu] at hr'
      cases hr'
  case signalReader => cases hr'
  all_goals exact h hr'

theorem run_checkAhead {es : List Event} (h : Run step Heard init es d) :
    d.reader = .asleep → d.CheckAhead := by
  refine h.invariant (J := fun d => d.reader = .asleep → d.CheckAhead)
    (fun hr => Reader.noConfusion hr) fun e d d' hC hs ih => ?_
  exact checkAhead_step ih hC (stepped hs)

/-- A step that is not heard leaves a sleeping reader, the core busy and no check ahead. -/
theorem unheard (hs : Stepped d e d') (hC : ¬Heard e d) :
    d'.reader = .asleep ∧ d'.unit = true ∧ ¬d'.CheckAhead := by
  rcases hs with ⟨count, hw⟩ | ⟨c, hw⟩ | ⟨c, hw⟩ | ⟨c, hw⟩ | ⟨c, hw, -⟩ | ⟨c, hw, -⟩ | ⟨c, hw⟩ |
    ⟨hch, hcb⟩ | hcb | hcb | hcb | hcb | hr | hr | hr | hch | hu
  case wakeReader =>
    obtain ⟨hr, hu⟩ := Classical.not_imp.1 hC
    rw [Bool.not_eq_false] at hu
    exact ⟨(if_pos hu).trans hr, hu, id⟩
  case testUnit =>
    obtain ⟨hu, hahead⟩ := Classical.not_imp.1 hC
    exact ⟨if_pos hu, hu, hahead⟩
  all_goals exact absurd trivial hC

/-- A run that hears its readers keeps them safe. The first step that does not is
followed by a reader asleep on an idle core with no wake-up to come. -/
theorem readers_woken_iff {es : List Event} (h : Run step Heard init es d) :
    d.ReaderSafe ∧
    ∀ e d', step e d = some d' → ¬Heard e d →
      ∃ d'', step .unitFinishes d' = some d'' ∧ ¬d''.ReaderSafe := by
  refine ⟨fun hr _ => run_checkAhead h hr, fun e d' hs hC => ?_⟩
  obtain ⟨hr, hu, hahead⟩ := unheard (stepped hs) hC
  exact ⟨{ d' with unit := false }, if_pos hu, fun hsafe => hahead (hsafe hr rfl)⟩

end Readers

instance : (d : DriverData) → Decidable d.CheckAhead
  | ⟨_, chan, _, _, _, .none⟩ | ⟨_, chan, _, _, _, .clearBusy⟩ =>
    inferInstanceAs (Decidable (chan = true))
  | ⟨_, _, _, _, _, .wakeReader⟩ => isTrue trivial
  | ⟨_, _, _, _, _, .wakeWriter⟩ | ⟨_, _, _, _, _, .terminateAll⟩ => isFalse id

instance (e : Event) (d : DriverData) : Decidable (Heard e d) :=
  match e with
  | .testUnit | .wakeReader => inferInstanceAs (Decidable (_ → _))
  | .sha256Write _ | .issuePending | .writeErr | .setBusy | .testBusy | .signalWriter
  | .dmaCallback | .wakeWriter | .terminateAll | .clearBusy | .sha256Read | .signalReader
  | .unitStarts | .unitFinishes => isTrue trivial

/-- The core has finished a block with the reader asleep; the callback is about to check. -/
def listening : DriverData := ⟨true, true, false, .asleep ⟨0, 64⟩, .asleep, .wakeReader⟩

theorem readers_woken_iff_listening : listening.ReaderSafe := by
  have hrun : Run step Heard DriverData.init [.sha256Write 64, .issuePending, .setBusy, .testBusy,
      .unitStarts, .sha256Read, .testUnit, .dmaCallback, .unitFinishes] listening :=
    Steps.run_of_exec (by decide)
  exact (readers_woken_iff hrun).1

/-- The callback of the last chunk checks while its last block is in the core; the reader
comes after it. -/
theorem reader_left_asleep : ¬ ∀ es d, Run step Any DriverData.init es d → d.ReaderSafe := by
  intro h
  have hrun : Run step Any DriverData.init [.sha256Write 64, .issuePending, .setBusy, .testBusy,
      .unitStarts, .dmaCallback, .wakeReader, .wakeWriter, .terminateAll, .clearBusy, .testBusy,
      .sha256Read, .testUnit, .unitFinishes]
      ⟨false, false, false, .out, .asleep, .none⟩ := Steps.run_of_exec (by decide)
  exact Bool.noConfusion (h _ _ hrun rfl rfl)

end ZynqSha256.ZynqDriver
