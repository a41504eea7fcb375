import ZynqSha256.Lib.Steps
import ZynqSha256.Driver.XdmaThread

/-! The polling thread over all runs. A submission that wakes it is never left waiting; one that
does not wake it is, when the thread sleeps. A request to stop ends the thread unless the thread
has cleared the flag that was set for it. -/

namespace ZynqSha256.Xdma

open Steps (Run Any)

variable {w : List ℕ} {es : List ThreadEvent} {ev : ThreadEvent} {t t' : XdmaKthread}

/-! ## One step -/

/-- What the thread can do by itself. -/
inductive Threaded (t : XdmaKthread) : XdmaKthread → Prop
  | exits : t.main = .loop → t.shouldStop = true → Threaded t { t with main := .exited }
  | enters : t.main = .loop → t.shouldStop = false →
      Threaded t { t with main := .pending t.workList }
  | none : t.main = .pending [] → Threaded t { t with main := .waiting }
  | finds (engine : ℕ) (rest : List ℕ) : t.main = .pending (engine :: rest) →
      t.transferList engine ≠ 0 → Threaded t { t with main := .clear }
  | skips (engine : ℕ) (rest : List ℕ) : t.main = .pending (engine :: rest) →
      t.transferList engine = 0 → Threaded t { t with main := .pending rest }
  | goes : t.main = .waiting → t.schedule = true → Threaded t { t with main := .clear }
  | sleeps : t.main = .waiting → t.schedule = false → Threaded t { t with main := .asleep }
  | clears : t.main = .clear → Threaded t { t with schedule := false, main := .proc t.workList }
  | done : t.main = .proc [] → Threaded t { t with main := .loop }
  | serves (engine : ℕ) (rest : List ℕ) (completed : ℕ) : t.main = .proc (engine :: rest) →
      Threaded t { unqueue engine completed t with main := .proc rest }

theorem threaded {completed : ℕ} (h : xthreadMain completed t = some t') : Threaded t t' := by
  unfold xthreadMain at h
  split at h
  next hm =>
    obtain rfl := Option.some.inj h
    by_cases hs : t.shouldStop = true
    · rw [if_pos hs]
      exact .exits hm hs
    · rw [if_neg hs]
      exact .enters hm (Bool.eq_false_iff.2 hs)
  next hm => exact Option.some.inj h ▸ .none hm
  next engine rest hm =>
    obtain rfl := Option.some.inj h
    by_cases h0 : t.transferList engine = 0
    · rw [if_neg (not_not.2 h0)]
      exact .skips engine rest hm h0
    · rw [if_pos h0]
      exact .finds engine rest hm h0
  next hm =>
    obtain rfl := Option.some.inj h
    by_cases hs : t.schedule = true
    · rw [if_pos hs]
      exact .goes hm hs
    · rw [if_neg hs]
      exact .sleeps hm (Bool.eq_false_iff.2 hs)
  next => cases h
  next hm => exact Option.some.inj h ▸ .clears hm
  next hm => exact Option.some.inj h ▸ .done hm
  next engine rest hm =>
    split at h
    · exact Option.some.inj h ▸ .serves engine rest completed hm
    · cases h
  next => cases h

/-- What one step can do. -/
inductive ThreadStepped (t : XdmaKthread) : ThreadEvent → XdmaKthread → Prop
  | thread (completed : ℕ) (t' : XdmaKthread) : Threaded t t' → ThreadStepped t (.thread completed) t'
  | submit (engine : ℕ) : engine ∈ t.workList → ThreadStepped t (.submit engine)
      { queueOn engine t with toSchedule := t.toSchedule + 1 }
  | setSchedule : t.toSchedule ≠ 0 → ThreadStepped t .setSchedule
      { t with schedule := true, toSchedule := t.toSchedule - 1, toWake := t.toWake + 1 }
  | wakeUp : t.toWake ≠ 0 → ThreadStepped t .wakeUp
      { t with main := t.main.wakeUp, toWake := t.toWake - 1 }
  | submitNowait (engine : ℕ) : engine ∈ t.workList →
      ThreadStepped t (.submitNowait engine) (queueOn engine t)
  | abort (engine : ℕ) : ThreadStepped t (.abort engine) (unqueue engine 1 t)
  | stopSchedule : ThreadStepped t .stopSchedule { t with schedule := true }
  | stopRequest : ThreadStepped t .stopRequest { t with shouldStop := true, main := t.main.wakeUp }

theorem threadStepped (h : threadStep ev t = some t') : ThreadStepped t ev t' := by
  cases ev with
  | thread completed => exact .thread completed t' (threaded h)
  | submit engine =>
    simp only [threadStep] at h
    split at h
    next hmem => exact Option.some.inj h ▸ .submit engine hmem
    next => cases h
  | setSchedule =>
    simp only [threadStep] at h
    split at h
    next => cases h
    next hne => exact Option.some.inj h ▸ .setSchedule hne
  | wakeUp =>
    simp only [threadStep] at h
    split at h
    next => cases h
    next hne => exact Option.some.inj h ▸ .wakeUp hne
  | submitNowait engine =>
    simp only [threadStep] at h
    split at h
    next hmem => exact Option.some.inj h ▸ .submitNowait engine hmem
    next => cases h
  | abort engine =>
    simp only [threadStep] at h
    split at h
    next => cases h
    next => exact Option.some.inj h ▸ .abort engine
  | stopSchedule => exact Option.some.inj h ▸ .stopSchedule
  | stopRequest => exact Option.some.inj h ▸ .stopRequest

theorem threaded_workList (h : Threaded t t') : t'.workList = t.workList := by
  cases h <;> rfl

theorem workList_step (h : threadStep ev t = some t') : t'.workList = t.workList := by
  cases threadStepped h with
  | thread completed _ hth => exact threaded_workList hth
  | _ => rfl

/-! ## Submissions that wake the thread -/

/-- A transfer of the thread's engines waits. -/
def XdmaKthread.Pending (t : XdmaKthread) (engine : ℕ) : Prop :=
  engine ∈ t.workList ∧ t.transferList engine ≠ 0

/-- The thread sleeps on with a transfer to complete, and nobody is about to wake it. -/
structure XdmaKthread.Stranded (t : XdmaKthread) : Prop where
  asleep : t.main = .asleep
  pending : ∃ engine, t.Pending engine
  toSchedule : t.toSchedule = 0
  toWake : t.toWake = 0

/-- The thread will find the flag set. -/
def XdmaKthread.Told (t : XdmaKthread) : Prop := t.schedule = true ∨ t.toSchedule ≠ 0

/-- What the thread does not look at again before it sleeps, it has been told of. -/
def XdmaKthread.Covered (t : XdmaKthread) : Prop :=
  match t.main with
  | .pending rest => ∀ engine, t.Pending engine → engine ∈ rest ∨ t.Told
  | .waiting => ∀ engine, t.Pending engine → t.Told
  | .asleep => (∀ engine, t.Pending engine → t.Told) ∧ (t.schedule = true → t.toWake ≠ 0)
  | .loop | .clear | .proc _ | .exited => True

/-- Every submission wakes the thread, and nobody stops it. -/
def Waking : ThreadEvent → XdmaKthread → Prop
  | .submitNowait _, _ | .stopSchedule, _ | .stopRequest, _ => False
  | .thread _, _ | .submit _, _ | .setSchedule, _ | .wakeUp, _ | .abort _, _ => True

theorem covered_thread (hC : t.Covered) (h : Threaded t t') : t'.Covered := by
  cases h with
  | exits hm hs => trivial
  | enters hm hs => exact fun engine hp => Or.inl hp.1
  | none hm =>
    simp only [XdmaKthread.Covered, hm] at hC
    exact fun engine hp => (hC engine hp).resolve_left (List.not_mem_nil)
  | finds engine rest hm hne => trivial
  | skips engine rest hm h0 =>
    simp only [XdmaKthread.Covered, hm] at hC
    intro e hp
    rcases hC e hp with hmem | htold
    · rcases List.mem_cons.1 hmem with rfl | hrest
      · exact absurd h0 hp.2
      · exact Or.inl hrest
    · exact Or.inr htold
  | goes hm hs => trivial
  | sleeps hm hs =>
    simp only [XdmaKthread.Covered, hm] at hC
    exact ⟨hC, fun hset => absurd (hs.symm.trans hset) Bool.false_ne_true⟩
  | clears hm => trivial
  | done hm => trivial
  | serves engine rest completed hm => trivial

theorem pending_unqueue {engine n e : ℕ} (h : (unqueue engine n t).Pending e) : t.Pending e := by
  refine ⟨h.1, fun h0 => h.2 ?_⟩
  by_cases he : e = engine
  · subst he
    simp [unqueue, h0]
  · simpa [unqueue, he] using h0

/-- Whatever keeps the place of the thread, tells it no less and adds only transfers that it is
told of keeps the cover. -/
theorem covered_frame (hC : t.Covered) (hm : t'.main = t.main)
    (hp : ∀ e, t'.Pending e → t.Pending e ∨ t'.Told) (ht : t.Told → t'.Told)
    (hs : t.main = .asleep → t'.schedule = true → t.schedule = true ∨ t'.toWake ≠ 0)
    (hw : t.toWake ≠ 0 → t'.toWake ≠ 0) : t'.Covered := by
  unfold XdmaKthread.Covered at hC ⊢
  rw [hm]
  cases hmain : t.main with
  | pending rest =>
    rw [hmain] at hC
    intro e he
    rcases hp e he with hold | htold
    · exact (hC e hold).imp id ht
    · exact Or.inr htold
  | waiting =>
    rw [hmain] at hC
    exact fun e he => (hp e he).elim (fun hold => ht (hC e hold)) id
  | asleep =>
    rw [hmain] at hC hs
    refine ⟨fun e he => (hp e he).elim (fun hold => ht (hC.1 e hold)) id, fun hset => ?_⟩
    exact (hs rfl hset).elim (fun hold => hw (hC.2 hold)) id
  | loop => trivial
  | clear => trivial
  | proc rest => trivial
  | exited => trivial

theorem covered_wakeUp (hC : t.Covered) (n : ℕ) :
    { t with main := t.main.wakeUp, toWake := n }.Covered := by
  unfold XdmaKthread.Covered at hC ⊢
  cases hmain : t.main with
  | asleep =>
    rw [hmain] at hC
    exact hC.1
  | pending rest =>
    rw [hmain] at hC
    exact hC
  | waiting =>
    rw [hmain] at hC
    exact hC
  | loop => trivial
  | clear => trivial
  | proc rest => trivial
  | exited => trivial

theorem covered_step (hC : t.Covered) (hW : Waking ev t) (h : threadStep ev t = some t') :
    t'.Covered := by
  cases threadStepped h with
  | thread completed _ hth => exact covered_thread hC hth
  | submit engine hmem =>
    refine covered_frame hC rfl (fun e _ => Or.inr (Or.inr (Nat.succ_ne_zero _))) (fun _ => ?_)
      (fun _ hset => Or.inl hset) id
    exact Or.inr (Nat.succ_ne_zero _)
  | setSchedule hne =>
    exact covered_frame hC rfl (fun e he => Or.inl he) (fun _ => Or.inl rfl)
      (fun _ _ => Or.inr (Nat.succ_ne_zero _)) (fun _ => Nat.succ_ne_zero _)
  | wakeUp hne => exact covered_wakeUp hC _
  | abort engine =>
    exact covered_frame hC rfl (fun e he => Or.inl (pending_unqueue he)) id
      (fun _ hset => Or.inl hset) id
  | submitNowait engine hmem => exact hW.elim
  | stopSchedule => exact hW.elim
  | stopRequest => exact hW.elim

theorem covered (h : Run threadStep Waking (.init w) es t) : t.Covered :=
  h.invariant trivial fun _ _ _ hW hs hC => covered_step hC hW hs

theorem covered_not_stranded (hC : t.Covered) : ¬t.Stranded := by
  rintro ⟨hm, ⟨engine, hp⟩, hS, hWk⟩
  unfold XdmaKthread.Covered at hC
  rw [hm] at hC
  rcases hC.1 engine hp with hset | htold
  · exact hC.2 hset hWk
  · exact htold hS

/-! ## Submissions that do not -/

/-- Nobody stops the thread. -/
def NotStopped : ThreadEvent → XdmaKthread → Prop
  | .stopSchedule, _ | .stopRequest, _ => False
  | .thread _, _ | .submit _, _ | .setSchedule, _ | .wakeUp, _ | .submitNowait _, _ | .abort _, _ =>
    True

/-- Nobody submits a transfer that wakes the thread, and none is aborted. -/
def Unwoken : ThreadEvent → XdmaKthread → Prop
  | .submit _, _ | .abort _, _ | .stopSchedule, _ | .stopRequest, _ => False
  | .thread _, _ | .setSchedule, _ | .wakeUp, _ | .submitNowait _, _ => True

theorem le_queueOn (engine e : ℕ) : t.transferList e ≤ (queueOn engine t).transferList e := by
  by_cases he : e = engine
  · subst he
    simp [queueOn]
  · simp [queueOn, he]

theorem stranded_queueOn {engine : ℕ} (h : t.main = .asleep) (hS : t.toSchedule = 0)
    (hW : t.toWake = 0) (hmem : engine ∈ t.workList) : (queueOn engine t).Stranded :=
  ⟨h, ⟨engine, hmem, by simp [queueOn]⟩, hS, hW⟩

theorem stranded_step (h : t.Stranded) (hU : Unwoken ev t) (hs : threadStep ev t = some t') :
    t'.Stranded ∧ ∀ e, t.transferList e ≤ t'.transferList e := by
  obtain ⟨hm, hp, hS, hW⟩ := h
  cases threadStepped hs with
  | thread completed _ hth =>
    cases hth with
    | exits hm' hs => cases hm.symm.trans hm'
    | enters hm' hs => cases hm.symm.trans hm'
    | none hm' => cases hm.symm.trans hm'
    | finds engine rest hm' hne => cases hm.symm.trans hm'
    | skips engine rest hm' h0 => cases hm.symm.trans hm'
    | goes hm' hs => cases hm.symm.trans hm'
    | sleeps hm' hs => cases hm.symm.trans hm'
    | clears hm' => cases hm.symm.trans hm'
    | done hm' => cases hm.symm.trans hm'
    | serves engine rest completed hm' => cases hm.symm.trans hm'
  | submitNowait engine hmem => exact ⟨stranded_queueOn hm hS hW hmem, le_queueOn engine⟩
  | setSchedule hne => exact absurd hS hne
  | wakeUp hne => exact absurd hW hne
  | submit engine hmem => exact hU.elim
  | abort engine => exact hU.elim
  | stopSchedule => exact hU.elim
  | stopRequest => exact hU.elim

theorem stranded_run {es : List ThreadEvent} (h : t.Stranded) (hrun : Run threadStep Unwoken t es t') :
    t'.Stranded ∧ ∀ e, t.transferList e ≤ t'.transferList e := by
  refine hrun.invariant (J := fun s => s.Stranded ∧ ∀ e, t.transferList e ≤ s.transferList e)
    ⟨h, fun _ => le_rfl⟩ fun ev s s' hU hs hJ => ?_
  obtain ⟨hnext, hle⟩ := stranded_step hJ.1 hU hs
  exact ⟨hnext, fun e => (hJ.2 e).trans (hle e)⟩

/-- Where every submission wakes the thread, it never sleeps with a transfer to complete while
nobody is about to wake it. A submission of `xdma_xfer_submit_nowait` to a thread at rest strands
its transfer, until another task submits one and waits. -/
theorem polled_wakeups (h : Run threadStep NotStopped (.init w) es t) :
    ((∀ ev ∈ es, ∀ engine, ev ≠ .submitNowait engine) → ¬t.Stranded) ∧
      (t.main = .asleep → t.toSchedule = 0 → t.toWake = 0 → ∀ engine ∈ w, ∃ t',
        threadStep (.submitNowait engine) t = some t' ∧ t'.Stranded ∧
          ∀ es' t'', Run threadStep Unwoken t' es' t'' →
            t''.Stranded ∧ t'.transferList engine ≤ t''.transferList engine) := by
  constructor
  · intro hev
    apply covered_not_stranded
    refine covered (w := w) (h.mono_mem fun ev hmem s hN => ?_)
    cases ev with
    | submitNowait engine => exact absurd rfl (hev _ hmem engine)
    | stopSchedule => exact hN
    | stopRequest => exact hN
    | _ => trivial
  · intro hm hS hW engine hmem
    have hlist : t.workList = w :=
      h.invariant (J := fun t => t.workList = w) rfl fun _ _ _ _ hs hJ => (workList_step hs).trans hJ
    have hmem' : engine ∈ t.workList := hlist ▸ hmem
    have hstr := stranded_queueOn hm hS hW hmem'
    refine ⟨queueOn engine t, if_pos hmem', hstr, fun es' t'' hrun => ?_⟩
    obtain ⟨hstr', hle⟩ := stranded_run hstr hrun
    exact ⟨hstr', hle engine⟩

/-- The thread finds nothing to do and goes to sleep. -/
theorem polled_wakeups_idle : ∃ t t',
    Run threadStep NotStopped (.init [0]) [.thread 0, .thread 0, .thread 0, .thread 0] t ∧
      threadStep (.submitNowait 0) t = some t' ∧ t'.Stranded := by
  have hrun : Run threadStep NotStopped (.init [0]) [.thread 0, .thread 0, .thread 0, .thread 0]
      ⟨.asleep, false, false, [0], fun _ => 0, 0, 0⟩ :=
    ((((Run.nil.snoc trivial rfl).snoc trivial rfl).snoc trivial rfl).snoc trivial rfl)
  obtain ⟨t', ht', hstr, -⟩ := (polled_wakeups hrun).2 rfl rfl rfl 0 (by simp)
  exact ⟨_, t', hrun, ht', hstr⟩

/-! ## The request to stop -/

/-- Nobody sets the flag: only the thread goes on, wake-ups come late and aborts. -/
def Alone : ThreadEvent → XdmaKthread → Prop
  | .thread _, _ | .wakeUp, _ | .abort _, _ => True
  | .submit _, _ | .submitNowait _, _ | .setSchedule, _ | .stopSchedule, _ | .stopRequest, _ => False

/-- The thread can end. -/
def XdmaKthread.Ends (t : XdmaKthread) : Prop :=
  ∃ es t', Run threadStep Alone t es t' ∧ t'.main = .exited

/-- The places from which the flag is tested before `kthread_should_stop`. -/
def XthreadMain.BeforeTest : XthreadMain → Prop
  | .pending _ | .waiting | .asleep => True
  | .loop | .clear | .proc _ | .exited => False

theorem ends_of_thread (h : xthreadMain 0 t = some t') (hE : t'.Ends) : t.Ends := by
  obtain ⟨es, t'', hrun, hm⟩ := hE
  exact ⟨_, t'', (Run.one (C := Alone) (e := .thread 0) trivial h).trans hrun, hm⟩

theorem ends_loop (hm : t.main = .loop) (hs : t.shouldStop = true) : t.Ends := by
  have hstep : xthreadMain 0 t = some { t with main := .exited } := by simp [xthreadMain, hm, hs]
  exact ends_of_thread hstep ⟨[], _, Run.nil, rfl⟩

theorem ends_proc {rest : List ℕ} (hm : t.main = .proc rest) (hs : t.shouldStop = true) : t.Ends := by
  induction rest generalizing t with
  | nil =>
    have hstep : xthreadMain 0 t = some { t with main := .loop } := by simp [xthreadMain, hm]
    exact ends_of_thread hstep (ends_loop rfl hs)
  | cons engine rest ih =>
    have hstep : xthreadMain 0 t = some { unqueue engine 0 t with main := .proc rest } := by
      simp [xthreadMain, hm]
    exact ends_of_thread hstep (ih rfl hs)

theorem ends_clear (hm : t.main = .clear) (hs : t.shouldStop = true) : t.Ends := by
  have hstep : xthreadMain 0 t = some { t with schedule := false, main := .proc t.workList } := by
    simp [xthreadMain, hm]
  exact ends_of_thread hstep (ends_proc rfl hs)

theorem ends_waiting (hm : t.main = .waiting) (hs : t.shouldStop = true) (hset : t.schedule = true) :
    t.Ends := by
  have hstep : xthreadMain 0 t = some { t with main := .clear } := by simp [xthreadMain, hm, hset]
  exact ends_of_thread hstep (ends_clear rfl hs)

theorem ends_pending {rest : List ℕ} (hm : t.main = .pending rest) (hs : t.shouldStop = true)
    (hset : t.schedule = true) : t.Ends := by
  induction rest generalizing t with
  | nil =>
    have hstep : xthreadMain 0 t = some { t with main := .waiting } := by simp [xthreadMain, hm]
    exact ends_of_thread hstep (ends_waiting rfl hs hset)
  | cons engine rest ih =>
    by_cases h0 : t.transferList engine = 0
    · have hstep : xthreadMain 0 t = some { t with main := .pending rest } := by
        simp [xthreadMain, hm, h0]
      exact ends_of_thread hstep (ih rfl hs hset)
    · have hstep : xthreadMain 0 t = some { t with main := .clear } := by
        simp [xthreadMain, hm, h0]
      exact ends_of_thread hstep (ends_clear rfl hs)

/-- With the flag cleared and nothing to do, the thread does not get past the wait. -/
structure XdmaKthread.Lost (t : XdmaKthread) : Prop where
  before : t.main.BeforeTest
  schedule : t.schedule = false
  idle : ∀ engine, t.transferList engine = 0

theorem before_wakeUp {main : XthreadMain} (h : main.BeforeTest) : main.wakeUp.BeforeTest := by
  cases main <;> exact h

theorem lost_step (h : t.Lost) (hA : Alone ev t) (hs : threadStep ev t = some t') : t'.Lost := by
  obtain ⟨hb, hset, hidle⟩ := h
  cases threadStepped hs with
  | thread completed _ hth =>
    cases hth with
    | none hm => exact ⟨trivial, hset, hidle⟩
    | skips engine rest hm h0 => exact ⟨trivial, hset, hidle⟩
    | sleeps hm hs => exact ⟨trivial, hset, hidle⟩
    | finds engine rest hm hne => exact absurd (hidle engine) hne
    | goes hm hsched => exact absurd (hset.symm.trans hsched) Bool.false_ne_true
    | exits hm hs => exact (hm ▸ hb : XthreadMain.BeforeTest .loop).elim
    | enters hm hs => exact (hm ▸ hb : XthreadMain.BeforeTest .loop).elim
    | clears hm => exact (hm ▸ hb : XthreadMain.BeforeTest .clear).elim
    | done hm => exact (hm ▸ hb : XthreadMain.BeforeTest (.proc [])).elim
    | serves engine rest completed hm => exact (hm ▸ hb : XthreadMain.BeforeTest (.proc _)).elim
  | wakeUp hne => exact ⟨before_wakeUp hb, hset, hidle⟩
  | abort engine =>
    refine ⟨hb, hset, fun e => ?_⟩
    by_cases he : e = engine
    · subst he
      simp [unqueue, hidle]
    · simp [unqueue, he, hidle]
  | submit engine hmem => exact hA.elim
  | submitNowait engine hmem => exact hA.elim
  | setSchedule hne => exact hA.elim
  | stopSchedule => exact hA.elim
  | stopRequest => exact hA.elim

theorem lost_not_ends (h : t.Lost) : ¬t.Ends := by
  rintro ⟨es, t', hrun, hm⟩
  have hlost := hrun.invariant h fun _ _ _ hA hs hL => lost_step hL hA hs
  have hb := hlost.before
  rw [hm] at hb
  exact hb

/-- `kthread_stop` gets the thread to end exactly if the thread has not cleared the flag that
`xdma_kthread_stop` sets before, or is at a place where it tests for the request first. In the
other case it sleeps on, however often it is woken. -/
theorem kthread_stops_iff (hidle : ∀ engine, t.transferList engine = 0)
    (h : threadStep .stopRequest t = some t') (hrun : t.main ≠ .exited) :
    t'.Ends ↔ t.schedule = true ∨ ¬t.main.BeforeTest := by
  obtain rfl := Option.some.inj h
  constructor
  · intro hE
    by_contra hno
    rw [not_or, Bool.not_eq_true, not_not] at hno
    have hlost : XdmaKthread.Lost { t with shouldStop := true, main := t.main.wakeUp } :=
      ⟨before_wakeUp hno.2, hno.1, hidle⟩
    exact lost_not_ends hlost hE
  · intro hor
    cases hm : t.main with
    | loop => exact ends_loop rfl rfl
    | clear => exact ends_clear rfl rfl
    | proc rest => exact ends_proc rfl rfl
    | exited => exact absurd hm hrun
    | pending rest =>
      have hset : t.schedule = true := hor.resolve_right (not_not.2 (hm ▸ trivial))
      exact ends_pending rfl rfl hset
    | waiting =>
      have hset : t.schedule = true := hor.resolve_right (not_not.2 (hm ▸ trivial))
      exact ends_waiting rfl rfl hset
    | asleep =>
      have hset : t.schedule = true := hor.resolve_right (not_not.2 (hm ▸ trivial))
      exact ends_waiting rfl rfl hset

/-- The thread takes the flag just before the request. -/
theorem kthread_stops_iff_race : ∃ t t',
    Run threadStep Any (.init []) [.thread 0, .thread 0, .stopSchedule, .thread 0, .thread 0,
      .thread 0, .thread 0] t ∧ threadStep .stopRequest t = some t' ∧ ¬t'.Ends := by
  have hrun : Run threadStep Any (.init []) [.thread 0, .thread 0, .stopSchedule, .thread 0,
      .thread 0, .thread 0, .thread 0] ⟨.pending [], false, false, [], fun _ => 0, 0, 0⟩ :=
    Steps.run_of_exec rfl
  have hiff := kthread_stops_iff (fun _ => rfl) (t := ⟨.pending [], false, false, [], fun _ => 0, 0, 0⟩)
    rfl (by simp)
  refine ⟨_, _, hrun, rfl, fun hE => ?_⟩
  rcases hiff.1 hE with hset | hb
  · cases hset
  · exact hb trivial

/-! ## The engines of each thread -/

/-- No thread has two engines more than another. -/
def Balanced (threads : List ℕ) : Prop := ∀ a ∈ threads, ∀ b ∈ threads, a ≤ b + 1

/-- The loop keeps the count of the first thread to compare with, and takes the last thread that
has fewer engines or the first that has none. -/
theorem pickThread_some (ws : List ℕ) (i idx v : ℕ) :
    (pickThread i (some (idx, v)) ws = some (idx, v) ∧ ∀ w ∈ ws, v ≤ w) ∨
      ∃ k c, ws[k]? = some c ∧ (c = 0 ∨ c < v) ∧
        pickThread i (some (idx, v)) ws = some (i + k, v) := by
  induction ws generalizing i idx with
  | nil => exact Or.inl ⟨rfl, by simp⟩
  | cons w ws ih =>
    have hnext : ∀ {k}, i + 1 + k = i + (k + 1) := by omega
    by_cases h0 : w = 0
    · refine Or.inr ⟨0, w, rfl, Or.inl h0, ?_⟩
      rw [pickThread, if_pos h0, Nat.add_zero]
    by_cases hlt : w < v
    · rw [pickThread, if_neg h0, if_pos hlt]
      rcases ih (i + 1) i with ⟨heq, -⟩ | ⟨k, c, hk, hc, heq⟩
      · exact Or.inr ⟨0, w, rfl, Or.inr hlt, heq⟩
      · exact Or.inr ⟨k + 1, c, hk, hc, heq.trans (by rw [hnext])⟩
    · rw [pickThread, if_neg h0, if_neg hlt]
      rcases ih (i + 1) idx with ⟨heq, hle⟩ | ⟨k, c, hk, hc, heq⟩
      · exact Or.inl ⟨heq, List.forall_mem_cons.2 ⟨Nat.le_of_not_lt hlt, hle⟩⟩
      · exact Or.inr ⟨k + 1, c, hk, hc, heq.trans (by rw [hnext])⟩

/-- Among balanced threads the choice falls on one with the fewest engines. -/
theorem addWork_least {threads : List ℕ} (hne : threads ≠ []) (hb : Balanced threads) :
    ∃ idx c, threads[idx]? = some c ∧ (∀ b ∈ threads, c ≤ b) ∧
      xdmaThreadAddWork threads = some (threads.modify idx (· + 1)) := by
  obtain ⟨w, ws, rfl⟩ := List.exists_cons_of_ne_nil hne
  have hpick : pickThread 0 none (w :: ws) = pickThread 1 (some (0, w)) ws := rfl
  unfold xdmaThreadAddWork
  rw [hpick]
  rcases pickThread_some ws 1 0 w with ⟨heq, hle⟩ | ⟨k, c, hk, hc, heq⟩
  · exact ⟨0, w, rfl, List.forall_mem_cons.2 ⟨le_rfl, hle⟩, by rw [heq]; rfl⟩
  · refine ⟨k + 1, c, hk, fun b hmem => ?_, by rw [heq, Nat.add_comm 1 k]; rfl⟩
    rcases hc with rfl | hlt
    · exact Nat.zero_le b
    · have hw := hb w (List.mem_cons_self ..) b hmem
      omega

theorem mem_modify {l : List ℕ} {idx c a : ℕ} (hc : l[idx]? = some c)
    (h : a ∈ l.modify idx (· + 1)) : a ∈ l ∨ a = c + 1 := by
  obtain ⟨j, hj⟩ := List.mem_iff_getElem?.1 h
  rw [List.getElem?_modify] at hj
  by_cases heq : idx = j
  · subst heq
    rw [hc] at hj
    exact Or.inr (by simpa using hj.symm)
  · exact Or.inl (List.mem_iff_getElem?.2 ⟨j, by simpa [heq] using hj⟩)

theorem balanced_modify {l : List ℕ} {idx c : ℕ} (hb : Balanced l) (hc : l[idx]? = some c)
    (hle : ∀ b ∈ l, c ≤ b) : Balanced (l.modify idx (· + 1)) := by
  have hmem : c ∈ l := List.mem_of_getElem? hc
  intro a ha b hb'
  rcases mem_modify hc ha with ha | rfl <;> rcases mem_modify hc hb' with hbl | rfl
  · exact hb a ha b hbl
  · exact (hb a ha c hmem).trans (Nat.le_succ _)
  · exact Nat.succ_le_succ (hle b hbl)
  · exact Nat.le_succ _

theorem sum_modify {l : List ℕ} {idx c : ℕ} (hc : l[idx]? = some c) :
    (l.modify idx (· + 1)).sum = l.sum + 1 := by
  induction l generalizing idx with
  | nil => cases hc
  | cons a l ih =>
    cases idx with
    | zero => simp [Nat.add_right_comm]
    | succ idx => simp [ih hc, Nat.add_assoc]

/-- A balanced list is filled evenly. -/
theorem Balanced.even {l : List ℕ} (hb : Balanced l) {c : ℕ} (hc : c ∈ l) :
    l.sum / l.length ≤ c ∧ c ≤ (l.sum + l.length - 1) / l.length := by
  have hpos : 0 < l.length := List.length_pos_of_mem hc
  obtain ⟨s, t, rfl⟩ := List.append_of_mem hc
  have hup : ∀ r : List ℕ, (∀ b ∈ r, b ≤ c + 1) → r.sum ≤ r.length * (c + 1) := fun r h =>
    (List.sum_le_card_nsmul r (c + 1) h).trans (le_of_eq (smul_eq_mul ..))
  have hdown : ∀ r : List ℕ, (∀ b ∈ r, c ≤ b + 1) → r.length * c ≤ r.sum + r.length := by
    intro r h
    induction r with
    | nil => simp
    | cons b r ih =>
      have hb := h b (List.mem_cons_self ..)
      have hr := ih fun x hx => h x (List.mem_cons_of_mem b hx)
      simp only [List.length_cons, List.sum_cons, Nat.succ_mul]
      omega
  have hs := fun b (hmem : b ∈ s) => hb b (List.mem_append_left _ hmem) c hc
  have ht := fun b (hmem : b ∈ t) => hb b (List.mem_append_right _ (List.mem_cons_of_mem c hmem)) c hc
  have hs' := fun b (hmem : b ∈ s) => hb c hc b (List.mem_append_left _ hmem)
  have ht' := fun b (hmem : b ∈ t) =>
    hb c hc b (List.mem_append_right _ (List.mem_cons_of_mem c hmem))
  have h1 := hup s hs
  have h2 := hup t ht
  have h3 := hdown s hs'
  have h4 := hdown t ht'
  simp only [List.length_append, List.length_cons, List.sum_append, List.sum_cons] at hpos ⊢
  constructor
  · refine Nat.lt_succ_iff.1 ((Nat.div_lt_iff_lt_mul hpos).2 ?_)
    have heq : (s.length + (t.length + 1)) * (c + 1) =
        s.length * (c + 1) + t.length * (c + 1) + (c + 1) := by ring
    rw [Nat.mul_comm, heq]
    omega
  · refine (Nat.le_div_iff_mul_le hpos).2 ?_
    have heq : (s.length + (t.length + 1)) * c = s.length * c + t.length * c + c := by ring
    rw [Nat.mul_comm, heq]
    omega

/-- Whatever the number of engines and of threads, `xdma_thread_add_work` gives each thread its
share of the engines, rounded up or down. -/
theorem engines_shared (engines : ℕ) {threadCnt : ℕ} (hpos : 0 < threadCnt) :
    ∃ threads, addEngines engines (List.replicate threadCnt 0) = some threads ∧
      threads.length = threadCnt ∧ threads.sum = engines ∧
      ∀ workCnt ∈ threads, engines / threadCnt ≤ workCnt ∧
        workCnt ≤ (engines + threadCnt - 1) / threadCnt := by
  have hrun : ∃ threads, addEngines engines (List.replicate threadCnt 0) = some threads ∧
      threads.length = threadCnt ∧ threads.sum = engines ∧ Balanced threads := by
    induction engines with
    | zero =>
      refine ⟨_, rfl, List.length_replicate, by simp, fun a ha b _ => ?_⟩
      rw [List.eq_of_mem_replicate ha]
      exact Nat.zero_le _
    | succ engines ih =>
      obtain ⟨threads, heq, hlen, hsum, hb⟩ := ih
      have hne : threads ≠ [] := List.ne_nil_of_length_pos (hlen ▸ hpos)
      obtain ⟨idx, c, hc, hle, hadd⟩ := addWork_least hne hb
      refine ⟨threads.modify idx (· + 1), ?_, ?_, ?_, balanced_modify hb hc hle⟩
      · rw [addEngines, heq]
        exact hadd
      · rw [List.length_modify, hlen]
      · rw [sum_modify hc, hsum]
  obtain ⟨threads, heq, rfl, rfl, hb⟩ := hrun
  exact ⟨threads, heq, rfl, rfl, fun workCnt hmem => hb.even hmem⟩

/-- Eight engines on three threads: the second and the third get three. -/
theorem engines_shared_eight : addEngines 8 [0, 0, 0] = some [3, 2, 3] ∧
    ∃ threads, addEngines 8 (List.replicate 3 0) = some threads ∧ threads.length = 3 ∧
      threads.sum = 8 ∧ ∀ workCnt ∈ threads, 8 / 3 ≤ workCnt ∧ workCnt ≤ (8 + 3 - 1) / 3 :=
  ⟨by decide, engines_shared 8 (by decide)⟩

end ZynqSha256.Xdma
