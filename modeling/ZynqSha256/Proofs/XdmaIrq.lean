import ZynqSha256.Driver.XdmaIrq
import ZynqSha256.Proofs.XdmaService

/-! An engine driven by its interrupt. It is serviced only while its hardware is at rest, so its
runs are runs of `engineStep` under `AtRest`; and a transfer that has ended is serviced, unless
it ended with errors for which no interrupt is enabled. -/

namespace ZynqSha256.Xdma

open Steps (Run Any)

variable {es : List IrqEvent} {ev : IrqEvent} {t t' : IrqState}

/-! ## The engine in a service -/

/-- A running engine leaves a service at work. -/
theorem service_running {s : EngineState} {wb : BitVec 32} (hInv : EngineInv s)
    (hrest : s.busy = false) (hwb : wb = 0 ∨ wb = s.writeback)
    (hrun : (engineService s wb).running = true) : (engineService s wb).busy = true := by
  rcases hInv.mode with hI | ⟨xfer, xfers, hA⟩
  · have hstop := (service_idle wb hI).1.running
    exact absurd (hstop.symm.trans hrun) Bool.false_ne_true
  · by_cases hc : s.completedDescCount = 0
    · have hstop := (service_stall hA hrest hwb hc).1.running
      exact absurd (hstop.symm.trans hrun) Bool.false_ne_true
    · obtain ⟨s₁, hT, hs₁⟩ := service_spec hA hrest hwb hc
      have hInv₁ := hInv.takenOff hA hrest hT
      rw [hs₁] at hrun ⊢
      cases hl : xfers with
      | nil =>
        have hempty : s₁.transferList = [] := hT.list.trans hl
        unfold engineServiceResume at hrun
        rw [if_pos (by rw [hT.idle.running]; rfl), if_neg (by simp [hempty])] at hrun
        split at hrun
        next => exact absurd (hT.idle.running.symm.trans hrun) Bool.false_ne_true
        next => exact absurd (hT.idle.running.symm.trans hrun) Bool.false_ne_true
      | cons next rest =>
        have hlist : s₁.transferList = next :: rest := hT.list.trans hl
        exact (resume_cons hT.idle hlist (hInv₁.pos next (by simp [hlist]))).2.1

/-- A submission leaves the hardware alone, or starts it. -/
theorem queue_hardware (s : EngineState) (offline : Bool) (xfer : QTransfer) :
    ((transferQueue s offline xfer).2.running = s.running ∧
      (transferQueue s offline xfer).2.busy = s.busy ∧
      (transferQueue s offline xfer).2.errors = s.errors ∧
      (transferQueue s offline xfer).2.finished = s.finished) ∨
    (s.running = false ∧ (transferQueue s offline xfer).2.running = true ∧
      (transferQueue s offline xfer).2.busy = true ∧
      (transferQueue s offline xfer).2.errors = s.errors) := by
  unfold transferQueue
  split
  next => exact Or.inl ⟨rfl, rfl, rfl, rfl⟩
  next =>
    split
    next => exact Or.inl ⟨rfl, rfl, rfl, rfl⟩
    next =>
      split
      next => exact Or.inl ⟨rfl, rfl, rfl, rfl⟩
      next =>
        dsimp only
        split
        next => exact Or.inl ⟨rfl, rfl, rfl, rfl⟩
        next hrun =>
          right
          unfold engineStart
          rw [if_neg hrun, if_neg (by simp)]
          exact ⟨Bool.eq_false_iff.2 hrun, rfl, rfl, rfl⟩

/-! ## The invariant -/

/-- There are errors, and no interrupt is enabled for them. -/
def Silent (errors : BitVec 32) : Prop := errors ≠ 0 ∧ errors &&& interruptEnableMaskValue = 0

/-- Who acts next on the interrupt: the handler, the work, or its end. -/
def IrqState.Turn (t : IrqState) : Prop :=
  (t.enabled = true ∧ t.work = false ∧ t.serving = false) ∨
    (t.enabled = false ∧ t.work = true ∧ t.serving = false) ∨
    (t.enabled = false ∧ t.work = false ∧ t.serving = true)

structure IrqInv (t : IrqState) : Prop where
  engine : EngineInv t.engine
  turn : t.Turn
  /-- The two bits are set only in a running engine at rest, -/
  rest : t.stopped = true → t.engine.running = true ∧ t.engine.busy = false ∧ t.engine.errors = 0
  /-- and they are where the hardware has stopped without an error. -/
  stops : t.engine.running = true → t.engine.busy = false → t.engine.errors = 0 → t.stopped = true
  work : t.work = true → t.engine.running = true ∧ t.engine.busy = false ∧ ¬Silent t.engine.errors

/-- An error stops the hardware of a running engine. -/
theorem EngineInv.of_errors {s : EngineState} (hInv : EngineInv s) (h : s.errors ≠ 0) :
    s.running = true ∧ s.busy = false := by
  rcases hInv.mode with hI | ⟨xfer, xfers, hA⟩
  · exact absurd hI.errors h
  · refine ⟨hA.running, ?_⟩
    by_contra hb
    exact h (hA.work (by simpa using hb)).1

theorem EngineInv.of_busy {s : EngineState} (hInv : EngineInv s) (h : s.busy = true) :
    s.running = true ∧ s.errors = 0 := by
  obtain ⟨xfer, xfers, hA⟩ := hInv.active h
  exact ⟨hA.running, (hA.work h).1⟩

theorem request_iff (hI : IrqInv t) : t.request = true ↔ t.enabled = true ∧
    (t.stopped = true ∨ t.engine.errors &&& interruptEnableMaskValue ≠ 0) := by
  unfold IrqState.request IrqState.statusBits
  rw [Bool.and_eq_true, decide_eq_true_iff]
  refine and_congr_right fun _ => ?_
  by_cases hs : t.stopped = true
  · rw [if_pos hs, (hI.rest hs).2.2]
    exact iff_of_true (by decide) (Or.inl hs)
  · have h0 : t.engine.errors ||| 0 = t.engine.errors := BitVec.or_zero
    rw [if_neg hs, h0, or_iff_right hs]

theorem not_silent_of_request (hI : IrqInv t) (h : t.request = true) :
    t.engine.running = true ∧ t.engine.busy = false ∧ ¬Silent t.engine.errors := by
  rcases ((request_iff hI).1 h).2 with hs | he
  · obtain ⟨hrun, hb, h0⟩ := hI.rest hs
    exact ⟨hrun, hb, fun hsil => hsil.1 h0⟩
  · have hne : t.engine.errors ≠ 0 := by
      intro h0
      rw [h0] at he
      exact he (by decide)
    obtain ⟨hrun, hb⟩ := hI.engine.of_errors hne
    exact ⟨hrun, hb, fun hsil => he hsil.2⟩

theorem irqInv_init (dir : DmaDataDirection) : IrqInv (.init (EngineState.init dir)) where
  engine := engineInv_init dir
  turn := Or.inl ⟨rfl, rfl, rfl⟩
  rest h := by cases h
  stops h := by cases h
  work h := by cases h

/-! ## One step -/

/-- What one step can do. -/
inductive IrqStepped (t : IrqState) : IrqEvent → IrqState → Prop
  | queue (offline : Bool) (xfer : QTransfer) : IrqStepped t (.queue offline xfer)
      { t with engine := (transferQueue t.engine offline xfer).2 }
  | desc (engine : EngineState) : engineStep .desc t.engine = some engine →
      IrqStepped t .desc { t with engine := engine, stopped := t.stopped || !engine.busy }
  | fault (errors : BitVec 32) (engine : EngineState) :
      engineStep (.fault errors) t.engine = some engine →
      IrqStepped t (.fault errors) { t with engine := engine }
  | isr : t.request = true → IrqStepped t .isr { t with enabled := false, work := true }
  | service : t.work = true → IrqStepped t .service
      { t with engine := engineService t.engine 0, stopped := false, work := false, serving := true }
  | enable : t.serving = true → IrqStepped t .enable { t with enabled := true, serving := false }

theorem irqStepped (h : irqStep ev t = some t') : IrqStepped t ev t' := by
  cases ev with
  | queue offline xfer =>
    simp only [irqStep] at h
    split at h
    next => cases h
    next => exact Option.some.inj h ▸ .queue offline xfer
  | desc =>
    obtain ⟨engine, hs, rfl⟩ := Option.map_eq_some_iff.1 h
    exact .desc engine hs
  | fault errors =>
    obtain ⟨engine, hs, rfl⟩ := Option.map_eq_some_iff.1 h
    exact .fault errors engine hs
  | isr =>
    simp only [irqStep] at h
    split at h
    next hreq => exact Option.some.inj h ▸ .isr hreq
    next => cases h
  | service =>
    simp only [irqStep] at h
    split at h
    next hw => exact Option.some.inj h ▸ .service (Bool.and_eq_true_iff.1 hw).1
    next => cases h
  | enable =>
    simp only [irqStep] at h
    split at h
    next hs => exact Option.some.inj h ▸ .enable hs
    next => cases h

/-- It is the handler's turn, -/
theorem IrqState.Turn.enabled (h : t.Turn) (hen : t.enabled = true) :
    t.work = false ∧ t.serving = false := by
  rcases h with ⟨-, hrest⟩ | ⟨hdis, -⟩ | ⟨hdis, -⟩
  · exact hrest
  · exact absurd (hdis.symm.trans hen) Bool.false_ne_true
  · exact absurd (hdis.symm.trans hen) Bool.false_ne_true

/-- that of the work, -/
theorem IrqState.Turn.work (h : t.Turn) (hw : t.work = true) : t.enabled = false := by
  rcases h with ⟨-, hno, -⟩ | ⟨hdis, -⟩ | ⟨hdis, -⟩
  · exact absurd (hno.symm.trans hw) Bool.false_ne_true
  · exact hdis
  · exact hdis

/-- or that of its end. -/
theorem IrqState.Turn.serving (h : t.Turn) (hs : t.serving = true) : t.work = false := by
  rcases h with ⟨-, -, hno⟩ | ⟨-, -, hno⟩ | ⟨-, hw, -⟩
  · exact absurd (hno.symm.trans hs) Bool.false_ne_true
  · exact absurd (hno.symm.trans hs) Bool.false_ne_true
  · exact hw

theorem irqInv_queue (hI : IrqInv t) (offline : Bool) (xfer : QTransfer) :
    IrqInv { t with engine := (transferQueue t.engine offline xfer).2 } := by
  have hInv := hI.engine.queue offline xfer
  rcases queue_hardware t.engine offline xfer with ⟨hrun, hb, he, -⟩ | ⟨hrun, hrun', hb, he⟩
  · refine ⟨hInv, hI.turn, ?_, ?_, ?_⟩
    · dsimp only
      rw [hrun, hb, he]
      exact hI.rest
    · dsimp only
      rw [hrun, hb, he]
      exact hI.stops
    · dsimp only
      rw [hrun, hb, he]
      exact hI.work
  · -- a stopped engine has neither of the two bits set
    have hno {P : Prop} (hrun' : t.engine.running = true) : P :=
      absurd (hrun.symm.trans hrun') Bool.false_ne_true
    refine ⟨hInv, hI.turn, fun hs => hno (hI.rest hs).1, fun _ hrest => ?_, fun hw => hno (hI.work hw).1⟩
    exact absurd (hrest.symm.trans hb) Bool.false_ne_true

theorem irqInv_desc {engine : EngineState} (hI : IrqInv t) (hs : engineStep .desc t.engine = some engine) :
    IrqInv { t with engine := engine, stopped := t.stopped || !engine.busy } := by
  obtain ⟨hInv, hrun⟩ := hI.engine.desc hs
  have hbusy := busy_of_desc hs
  obtain ⟨hrunning, h0⟩ := hI.engine.of_busy hbusy
  have hstopped : t.stopped = false := by
    by_contra hne
    have hb := (hI.rest (by simpa using hne)).2.1
    exact Bool.false_ne_true (hb.symm.trans hbusy)
  have herr : engine.errors = 0 := by
    simp only [engineStep, hbusy] at hs
    split at hs
    next => cases hs
    next => exact Option.some.inj hs ▸ h0
  refine ⟨hInv, hI.turn, fun hst => ?_, fun _ hb _ => ?_, fun hw => ?_⟩
  · refine ⟨hrun.trans hrunning, ?_, herr⟩
    simpa [hstopped] using hst
  · dsimp only at hb ⊢
    rw [hb, Bool.not_false, Bool.or_true]
  · have hb := (hI.work hw).2.1
    exact absurd (hb.symm.trans hbusy) Bool.false_ne_true

theorem irqInv_fault {errors : BitVec 32} {engine : EngineState} (hI : IrqInv t)
    (hs : engineStep (.fault errors) t.engine = some engine) : IrqInv { t with engine := engine } := by
  obtain ⟨hInv, hrun⟩ := hI.engine.fault hs
  have hbusy := busy_of_fault hs
  have hne : engine.errors ≠ 0 := by
    simp only [engineStep] at hs
    split at hs
    next hmask => exact Option.some.inj hs ▸ hmask.2
    next => cases hs
  have hno {P : Prop} (hrest : t.engine.busy = false) : P :=
    absurd (hrest.symm.trans hbusy) Bool.false_ne_true
  exact ⟨hInv, hI.turn, fun hst => hno (hI.rest hst).2.1, fun _ _ h0 => absurd h0 hne,
    fun hw => hno (hI.work hw).2.1⟩

theorem irqInv_isr (hI : IrqInv t) (hreq : t.request = true) :
    IrqInv { t with enabled := false, work := true } := by
  obtain ⟨hen, -⟩ := (request_iff hI).1 hreq
  have hwork := not_silent_of_request hI hreq
  exact ⟨hI.engine, Or.inr (Or.inl ⟨rfl, rfl, (hI.turn.enabled hen).2⟩), hI.rest, hI.stops, fun _ => hwork⟩

theorem irqInv_service (hI : IrqInv t) (hw : t.work = true) : IrqInv
    { t with engine := engineService t.engine 0, stopped := false, work := false, serving := true } := by
  have hrest := (hI.work hw).2.1
  refine ⟨(hI.engine.service hrest (Or.inl rfl)).1, Or.inr (Or.inr ⟨hI.turn.work hw, rfl, rfl⟩), ?_, ?_, ?_⟩
  · intro hst
    cases hst
  · intro hrun hb
    have hbusy := service_running hI.engine hrest (Or.inl rfl) hrun
    exact absurd (hb.symm.trans hbusy) Bool.false_ne_true
  · intro hno
    cases hno

theorem irqInv_enable (hI : IrqInv t) (hs : t.serving = true) :
    IrqInv { t with enabled := true, serving := false } :=
  ⟨hI.engine, Or.inl ⟨rfl, hI.turn.serving hs, rfl⟩, hI.rest, hI.stops, hI.work⟩

theorem irqInv_step (hI : IrqInv t) (h : IrqStepped t ev t') : IrqInv t' := by
  cases h with
  | queue offline xfer => exact irqInv_queue hI offline xfer
  | desc engine hs => exact irqInv_desc hI hs
  | fault errors engine hs => exact irqInv_fault hI hs
  | isr hreq => exact irqInv_isr hI hreq
  | service hw => exact irqInv_service hI hw
  | enable hs => exact irqInv_enable hI hs

/-! ## Runs -/

/-- The events that the engine sees. -/
def IrqEvent.engine : IrqEvent → Option EngineEvent
  | .queue offline xfer => some (.queue offline xfer)
  | .desc => some .desc
  | .fault errors => some (.fault errors)
  | .isr => none
  | .service => some .work
  | .enable => none

theorem irq_simulates (hI : IrqInv t) (h : IrqStepped t ev t') :
    (ev.engine = none ∧ t'.engine = t.engine) ∨ ∃ ev', ev.engine = some ev' ∧
      AtRest ev' t.engine ∧ engineStep ev' t.engine = some t'.engine := by
  cases h with
  | queue offline xfer => exact Or.inr ⟨_, rfl, trivial, rfl⟩
  | desc engine hs => exact Or.inr ⟨_, rfl, trivial, hs⟩
  | fault errors engine hs => exact Or.inr ⟨_, rfl, trivial, hs⟩
  | isr hreq => exact Or.inl ⟨rfl, rfl⟩
  | service hw => exact Or.inr ⟨_, rfl, (hI.work hw).2.1, rfl⟩
  | enable hs => exact Or.inl ⟨rfl, rfl⟩

theorem irq_run {dir : DmaDataDirection} (h : Run irqStep Any (.init (EngineState.init dir)) es t) :
    IrqInv t ∧ Run engineStep AtRest (EngineState.init dir) (es.filterMap IrqEvent.engine) t.engine :=
  h.simulates (f := IrqState.engine) (irqInv_init dir) fun _ _ _ _ hs hI =>
    ⟨irqInv_step hI (irqStepped hs), irq_simulates hI (irqStepped hs)⟩

/-! ## After the hardware has stopped -/

/-- The events of the interrupt alone. -/
def IrqOnly : IrqEvent → IrqState → Prop
  | .isr, _ | .service, _ | .enable, _ => True
  | .queue _ _, _ | .desc, _ | .fault _, _ => False

/-- The engine is serviced as it is. -/
def Served (t : IrqState) : Prop :=
  ∃ es t', Run irqStep IrqOnly t es t' ∧ t'.engine = engineService t.engine 0

theorem served_work (hw : t.work = true) (hs : t.serving = false) : Served t := by
  have hstep : irqStep .service t = some
      { t with engine := engineService t.engine 0, stopped := false, work := false, serving := true } := by
    simp [irqStep, hw, hs]
  exact ⟨_, _, Run.one (show IrqOnly .service t from trivial) hstep, rfl⟩

theorem served_of_step (hC : IrqOnly ev t) (h : irqStep ev t = some t') (he : t'.engine = t.engine)
    (hS : Served t') : Served t := by
  obtain ⟨es, t'', hrun, heng⟩ := hS
  exact ⟨_, t'', (Run.one hC h).trans hrun, by rw [heng, he]⟩

theorem served_enabled (hI : IrqInv t) (hen : t.enabled = true) (hrun : t.engine.running = true)
    (hrest : t.engine.busy = false) (hS : ¬Silent t.engine.errors) : Served t := by
  have hreq : t.request = true := by
    refine (request_iff hI).2 ⟨hen, ?_⟩
    by_cases h0 : t.engine.errors = 0
    · exact Or.inl (hI.stops hrun hrest h0)
    · exact Or.inr fun hmask => hS ⟨h0, hmask⟩
  have hstep : irqStep .isr t = some { t with enabled := false, work := true } := if_pos hreq
  exact served_of_step (show IrqOnly .isr t from trivial) hstep rfl
    (served_work rfl (hI.turn.enabled hen).2)

theorem served (hI : IrqInv t) (hrun : t.engine.running = true) (hrest : t.engine.busy = false)
    (hS : ¬Silent t.engine.errors) : Served t := by
  rcases hI.turn with ⟨hen, -⟩ | ⟨-, hw, hs⟩ | ⟨-, -, hs⟩
  · exact served_enabled hI hen hrun hrest hS
  · exact served_work hw hs
  · have hstep : irqStep .enable t = some { t with enabled := true, serving := false } := if_pos hs
    exact served_of_step (show IrqOnly .enable t from trivial) hstep rfl
      (served_enabled (irqInv_enable hI hs) rfl hrun hrest hS)

/-- The engine waits for an interrupt that does not come. -/
structure Unserved (finished : List Finished) (t : IrqState) : Prop where
  inv : IrqInv t
  running : t.engine.running = true
  busy : t.engine.busy = false
  silent : Silent t.engine.errors
  finished : t.engine.finished = finished

theorem unserved_step {finished : List Finished} (hU : Unserved finished t)
    (h : IrqStepped t ev t') : Unserved finished t' := by
  have hI' := irqInv_step hU.inv h
  have hno : t.engine.busy ≠ true := by
    rw [hU.busy]
    exact Bool.false_ne_true
  cases h with
  | queue offline xfer =>
    rcases queue_hardware t.engine offline xfer with ⟨hrun, hb, he, hf⟩ | ⟨hstop, -⟩
    · exact ⟨hI', hrun.trans hU.running, hb.trans hU.busy, he ▸ hU.silent, hf.trans hU.finished⟩
    · exact absurd (hstop.symm.trans hU.running) Bool.false_ne_true
  | desc engine hs => exact absurd (busy_of_desc hs) hno
  | fault errors engine hs => exact absurd (busy_of_fault hs) hno
  | isr hreq => exact absurd hU.silent (not_silent_of_request hU.inv hreq).2.2
  | service hw => exact absurd hU.silent (hU.inv.work hw).2.2
  | enable hs => exact ⟨hI', hU.running, hU.busy, hU.silent, hU.finished⟩

/-- In every interleaving of submissions, hardware, handler and work, the engine takes a run in
which services find the hardware at rest. When the hardware has stopped, the interrupt alone
brings the engine its service, unless it has stopped with errors none of which has its interrupt
enabled: then no transfer ends any more. -/
theorem interrupts_serve {dir : DmaDataDirection}
    (h : Run irqStep Any (.init (EngineState.init dir)) es t) :
    Run engineStep AtRest (EngineState.init dir) (es.filterMap IrqEvent.engine) t.engine ∧
      (t.engine.running = true → t.engine.busy = false →
        (¬Silent t.engine.errors → Served t) ∧
        (Silent t.engine.errors → ∀ es' t', Run irqStep Any t es' t' →
          t'.engine.finished = t.engine.finished)) := by
  obtain ⟨hI, hrun⟩ := irq_run h
  refine ⟨hrun, fun hrunning hrest => ⟨served hI hrunning hrest, fun hS es' t' hrun' => ?_⟩⟩
  have hU := hrun'.invariant (J := Unserved t.engine.finished) ⟨hI, hrunning, hrest, hS, rfl⟩
    fun _ _ _ _ hs hJ => unserved_step hJ (irqStepped hs)
  exact hU.finished

/-- The card cannot decode the address that it writes to: no interrupt is enabled for that. -/
theorem interrupts_serve_decode : ∃ t, Run irqStep Any (.init (EngineState.init .toDevice))
    [.queue false firstHalf, .fault 0x4000] t ∧ ∀ es' t', Run irqStep Any t es' t' →
      t'.engine.finished = [] := by
  have hrun : Run irqStep Any (.init (EngineState.init .toDevice))
      [.queue false firstHalf, .fault 0x4000] _ := Steps.run_of_exec rfl
  exact ⟨_, hrun, ((interrupts_serve hrun).2 rfl rfl).2 ⟨by decide, by decide⟩⟩

end ZynqSha256.Xdma
