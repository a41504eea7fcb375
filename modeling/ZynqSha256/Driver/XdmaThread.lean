import Mathlib

/-! bench/pcie_linux_driver/xdma_thread.c: `xthread_main`, which completes transfers in polled
mode, beside the tasks that submit transfers and the one that stops it, as steps that happen in
any order; and `xdma_thread_add_work`. -/

namespace ZynqSha256.Xdma

/-! ## xthread_main -/

/-- Where the thread is. -/
inductive XthreadMain where
  /-- At the test of `while (!kthread_should_stop())`. -/
  | loop
  /-- In `xthread_work_pending`, before the engines `rest`. -/
  | pending (rest : List ℕ)
  /-- At the test of `wait_event_interruptible`. -/
  | waiting
  /-- On `waitq`. -/
  | asleep
  /-- Before `thp->schedule = 0`. -/
  | clear
  /-- Before `fproc` of the engines `rest`. -/
  | proc (rest : List ℕ)
  | exited
  deriving DecidableEq

/-- `struct xdma_kthread`, with the engines on its `work_list` and how long the transfer list of
an engine is. -/
structure XdmaKthread where
  main : XthreadMain
  schedule : Bool
  shouldStop : Bool
  workList : List ℕ
  transferList : ℕ → ℕ
  /-- The tasks in `xdma_kthread_wakeup` before `thp->schedule = 1`, -/
  toSchedule : ℕ
  /-- and those before `wake_up_interruptible`. -/
  toWake : ℕ

/-- As `xdma_threads_create` leaves it, once its engines are assigned. -/
def XdmaKthread.init (workList : List ℕ) : XdmaKthread :=
  ⟨.loop, false, false, workList, fun _ => 0, 0, 0⟩

/-- Wakes a thread that is on `waitq`: it tests again. -/
def XthreadMain.wakeUp : XthreadMain → XthreadMain
  | .asleep => .waiting
  | main => main

inductive ThreadEvent where
  /-- The thread goes on; a call of `fproc` completes this many transfers. -/
  | thread (completed : ℕ)
  /-- `transfer_queue` in `xdma_xfer_submit`. -/
  | submit (engine : ℕ)
  | setSchedule
  | wakeUp
  /-- `transfer_queue` in `xdma_xfer_submit_nowait`, which wakes no thread. -/
  | submitNowait (engine : ℕ)
  /-- `transfer_abort` after a timeout. -/
  | abort (engine : ℕ)
  /-- `xdma_kthread_stop` sets `schedule`, -/
  | stopSchedule
  /-- and calls `kthread_stop`, which wakes the thread but sends it no signal. -/
  | stopRequest
  deriving DecidableEq

def queueOn (engine : ℕ) (t : XdmaKthread) : XdmaKthread :=
  { t with transferList := Function.update t.transferList engine (t.transferList engine + 1) }

/-- `completed` transfers leave the list. -/
def unqueue (engine completed : ℕ) (t : XdmaKthread) : XdmaKthread :=
  { t with transferList := Function.update t.transferList engine (t.transferList engine - completed) }

def xthreadMain (completed : ℕ) (t : XdmaKthread) : Option XdmaKthread :=
  match t.main with
  | .loop => some { t with main := if t.shouldStop then .exited else .pending t.workList }
  | .pending [] => some { t with main := .waiting }
  | .pending (engine :: rest) =>
    some { t with main := if t.transferList engine ≠ 0 then .clear else .pending rest }
  | .waiting => some { t with main := if t.schedule then .clear else .asleep }
  | .asleep => none
  | .clear => some { t with schedule := false, main := .proc t.workList }
  | .proc [] => some { t with main := .loop }
  | .proc (engine :: rest) =>
    if completed ≤ t.transferList engine then some { unqueue engine completed t with main := .proc rest }
    else none
  | .exited => none

def threadStep : ThreadEvent → XdmaKthread → Option XdmaKthread
  | .thread completed, t => xthreadMain completed t
  | .submit engine, t =>
    if engine ∈ t.workList then some { queueOn engine t with toSchedule := t.toSchedule + 1 } else none
  | .setSchedule, t =>
    if t.toSchedule = 0 then none
    else some { t with schedule := true, toSchedule := t.toSchedule - 1, toWake := t.toWake + 1 }
  | .wakeUp, t =>
    if t.toWake = 0 then none else some { t with main := t.main.wakeUp, toWake := t.toWake - 1 }
  | .submitNowait engine, t => if engine ∈ t.workList then some (queueOn engine t) else none
  | .abort engine, t => if t.transferList engine = 0 then none else some (unqueue engine 1 t)
  | .stopSchedule, t => some { t with schedule := true }
  | .stopRequest, t => some { t with shouldStop := true, main := t.main.wakeUp }

/-! ## xdma_thread_add_work -/

/-- The loop over the threads from `i` on: `idx` and `v` so far, `none` before the first. -/
def pickThread : ℕ → Option (ℕ × ℕ) → List ℕ → Option (ℕ × ℕ)
  | _, idx, [] => idx
  | i, none, workCnt :: threads => pickThread (i + 1) (some (i, workCnt)) threads
  | i, some (idx, v), workCnt :: threads =>
    if workCnt = 0 then some (i, v)
    else if workCnt < v then pickThread (i + 1) (some (i, v)) threads
    else pickThread (i + 1) (some (idx, v)) threads

/-- The `work_cnt` of each thread afterwards; without threads the array is left. -/
def xdmaThreadAddWork (threads : List ℕ) : Option (List ℕ) :=
  (pickThread 0 none threads).map fun (idx, _) => threads.modify idx (· + 1)

/-- The engines of a device are added one after the other. -/
def addEngines : ℕ → List ℕ → Option (List ℕ)
  | 0, threads => some threads
  | engines + 1, threads => (addEngines engines threads).bind xdmaThreadAddWork

end ZynqSha256.Xdma
