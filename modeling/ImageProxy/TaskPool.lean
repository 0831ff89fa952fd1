import Mathlib.Data.List.Basic
import Mathlib.Data.List.Count
import Mathlib.Data.List.Nodup
import Mathlib.Data.Int.Notation
import ImageProxy.Library.StepSystem

set_option autoImplicit false

/-! # The task pool (`task_pool.h`, `task_pool.cpp`)

Producers queue render tasks with `AddTask`, worker threads take them in `WorkerThread`, and `Stop`
empties the queue and asks the workers to exit. Everything under `tasks_mutex` is one step here: the
mutex makes the sections atomic, and a `wait` ends one section and starts another when the worker
wakes. What happens outside the mutex (the test of `threads.empty()`, rendering, `SendResponse`, the
joins) is a step of its own, so a run is any interleaving of these steps.

The four histories at the end of `TaskPool` and the `ticket` of a task are not members of the
source; they record what happened so that statements can speak about it. -/

namespace ImageProxy

/-- `TaskPool::Task`: three `shared_ptr`s, `none` when null. `ticket` is the number of the accepted
`AddTask` call the task came from. -/
structure Task (ι : Type) where
  connection : Option ι
  page : Option ι
  out : Option ι
  ticket : ℕ
deriving DecidableEq, Repr

/-- `Task::operator!`. -/
def Task.isNull {ι : Type} (t : Task ι) : Bool :=
  t.connection.isNone || t.page.isNone || t.out.isNone

/-- Where a worker is in `TaskPool::WorkerThread`. -/
inductive Worker (ι : Type) where
  /-- At the top of the loop, about to lock. -/
  | start
  /-- Inside `tasks_cv.wait(lock)`; `notified` once a `notify_all` has reached it. -/
  | waiting (notified : Bool)
  /-- Inside `task.page->Render`. -/
  | rendering (task : Task ι)
  /-- `Render` has returned or thrown, the second section is still to come. -/
  | rendered (task : Task ι) (statusCode : ℤ)
  /-- The second section saw no exit request; about to call `SendResponse`. -/
  | responding (task : Task ι) (statusCode : ℤ)
  /-- The thread function has returned. -/
  | exited
deriving DecidableEq, Repr

/-- The task a worker holds. -/
def Worker.task {ι : Type} : Worker ι → Option (Task ι)
  | .rendering t => some t
  | .rendered t _ => some t
  | .responding t _ => some t
  | _ => none

@[simp] theorem Worker.task_start {ι : Type} : (Worker.start : Worker ι).task = none := rfl

@[simp] theorem Worker.task_waiting {ι : Type} (b : Bool) :
    (Worker.waiting b : Worker ι).task = none := rfl

@[simp] theorem Worker.task_rendering {ι : Type} (t : Task ι) :
    (Worker.rendering t).task = some t := rfl

@[simp] theorem Worker.task_rendered {ι : Type} (t : Task ι) (code : ℤ) :
    (Worker.rendered t code).task = some t := rfl

@[simp] theorem Worker.task_responding {ι : Type} (t : Task ι) (code : ℤ) :
    (Worker.responding t code).task = some t := rfl

@[simp] theorem Worker.task_exited {ι : Type} : (Worker.exited : Worker ι).task = none := rfl

/-- `notify_all` as one worker sees it. -/
def Worker.notify {ι : Type} : Worker ι → Worker ι
  | .waiting _ => .waiting true
  | w => w

/-- A call of `Stop` in progress. -/
inductive StopCall where
  /-- Past the test of `threads.empty()`, before the section. -/
  | entered (join : Bool)
  /-- The section is done; these threads are still to be joined, then `threads` is cleared. -/
  | joining (remaining : List ℕ)
deriving DecidableEq, Repr

/-- The members of `TaskPool`, the calls in progress, and the histories. -/
structure TaskPool (ι : Type) where
  /-- The thread objects, named by their place in `workers`. -/
  threads : List ℕ
  tasks : List (Task ι)
  exitRequested : Bool
  /-- Every worker thread ever started. -/
  workers : List (Worker ι)
  /-- `Init` calls past their test, with the number of threads still to start. -/
  inits : List ℕ
  /-- `AddTask` calls past their test: connection, page and output of the task to queue. -/
  adders : List (Option ι × Option ι × Option ι)
  stops : List StopCall
  /-- Tasks queued by an `AddTask` that returned true, in order. -/
  accepted : List (Task ι)
  /-- Tasks that left the queue, in order, with whether a worker took them and, if so, whether exit
  had been requested by then. -/
  gone : List (Task ι × Option Bool)
  /-- Tasks whose page `Render` was called on. -/
  renders : List (Task ι)
  /-- `SendResponse` calls of workers. -/
  responses : List (Task ι × ℤ)
  /-- Tasks given up without a response: swapped away by `Stop`, or dropped by an exiting worker. -/
  dropped : List (Task ι)

namespace TaskPool

variable {ι : Type}

/-- `TaskPool::TaskPool`. -/
def new : TaskPool ι := ⟨[], [], false, [], [], [], [], [], [], [], [], []⟩

/-- `TaskPool::NextTask`: the front of the queue, or a null task, and the rest of the queue. -/
def nextTask : List (Task ι) → Task ι × List (Task ι)
  | [] => (⟨none, none, none, 0⟩, [])
  | t :: rest => (t, rest)

/-- The steps of all parties. Calls in progress are named by their place in their list, workers by
their place in `workers`. -/
inductive Event (ι : Type) where
  | initCall (numThreads : ℤ)
  | initSpawn (i : ℕ)
  | addCall (connection page out : Option ι)
  | addPush (i : ℕ)
  | stopCall (join : Bool)
  | stopSection (i : ℕ)
  | stopJoin (i : ℕ)
  | stopClear (i : ℕ)
  /-- The first section of the loop body: from the top of the loop, or on a wake-up, spurious or
  not. -/
  | workerSection (w : ℕ)
  /-- `Render` returns (`ok`) or throws a `std::exception`. -/
  | renderDone (w : ℕ) (ok : Bool)
  /-- The second section, which reads `exit_requested` again. -/
  | workerCheck (w : ℕ)
  | sendResponse (w : ℕ)

/-- Worker `w` moves on to `x`. -/
def setWorker (s : TaskPool ι) (w : ℕ) (x : Worker ι) : TaskPool ι :=
  { s with workers := s.workers.set w x }

/-- `tasks_cv.notify_all()`. -/
def notifyAll (s : TaskPool ι) : TaskPool ι := { s with workers := s.workers.map Worker.notify }

/-- `TaskPool::Init` up to its loop; `none` is the call that returns false. -/
def initCall (s : TaskPool ι) (numThreads : ℤ) : Option (TaskPool ι) :=
  if !s.threads.isEmpty || numThreads < 1 then none
  else some { s with inits := s.inits ++ [numThreads.toNat] }

/-- One turn of the loop of `TaskPool::Init`: start a thread and push it. -/
def initSpawn (s : TaskPool ι) (i : ℕ) : Option (TaskPool ι) :=
  match s.inits[i]? with
  | some (n + 1) =>
      some { s with
        inits := s.inits.set i n
        workers := s.workers ++ [.start]
        threads := s.threads ++ [s.workers.length] }
  | _ => none

/-- `TaskPool::AddTask` up to the lock; `none` is the call that returns false. -/
def addCall (s : TaskPool ι) (connection page out : Option ι) : Option (TaskPool ι) :=
  if s.threads.isEmpty || connection.isNone || page.isNone || out.isNone then none
  else some { s with adders := s.adders ++ [(connection, page, out)] }

/-- The locked part of `TaskPool::AddTask`, which then returns true. -/
def addPush (s : TaskPool ι) (i : ℕ) : Option (TaskPool ι) :=
  match s.adders[i]? with
  | some (connection, page, out) =>
      let task : Task ι := ⟨connection, page, out, s.accepted.length⟩
      some ({ s with
        adders := s.adders.eraseIdx i
        tasks := s.tasks ++ [task]
        accepted := s.accepted ++ [task] }.notifyAll)
  | none => none

/-- `TaskPool::Stop` up to the lock; `none` is the call that returns at once. -/
def stopCall (s : TaskPool ι) (join : Bool) : Option (TaskPool ι) :=
  if s.threads.isEmpty then none else some { s with stops := s.stops ++ [.entered join] }

/-- The section of `TaskPool::Stop`: the queue is swapped with an empty one, exit is requested, the
workers are woken. `Stop(false)` returns here. -/
def stopSection (s : TaskPool ι) (i : ℕ) : Option (TaskPool ι) :=
  match s.stops[i]? with
  | some (.entered join) =>
      some ({ s with
        stops := if join then s.stops.set i (.joining s.threads) else s.stops.eraseIdx i
        gone := s.gone ++ s.tasks.map fun t => (t, none)
        dropped := s.dropped ++ s.tasks
        tasks := []
        exitRequested := true }.notifyAll)
  | _ => none

/-- `Stop(true)` joins its next thread, which has to have finished. -/
def stopJoin (s : TaskPool ι) (i : ℕ) : Option (TaskPool ι) :=
  match s.stops[i]? with
  | some (.joining (w :: remaining)) =>
      match s.workers[w]? with
      | some .exited => some { s with stops := s.stops.set i (.joining remaining) }
      | _ => none
  | _ => none

/-- `Stop(true)` has joined all threads: `threads.clear()`. -/
def stopClear (s : TaskPool ι) (i : ℕ) : Option (TaskPool ι) :=
  match s.stops[i]? with
  | some (.joining []) => some { s with stops := s.stops.eraseIdx i, threads := [] }
  | _ => none

/-- What worker `w` does under the lock at the top of the loop or on waking: wait again, render the
task it took, or leave the loop. -/
def workerBody (s : TaskPool ι) (w : ℕ) : TaskPool ι :=
  let (task, rest) := nextTask s.tasks
  let s' := { s with
    tasks := rest
    gone := if s.tasks.isEmpty then s.gone else s.gone ++ [(task, some s.exitRequested)] }
  if task.isNull && !s.exitRequested then s'.setWorker w (.waiting false)
  else if !task.isNull && !s.exitRequested then
    { s'.setWorker w (.rendering task) with renders := s.renders ++ [task] }
  else
    { s'.setWorker w .exited with
      dropped := if task.isNull then s.dropped else s.dropped ++ [task] }

/-- The first section of the loop body of `TaskPool::WorkerThread`. -/
def workerSection (s : TaskPool ι) (w : ℕ) : Option (TaskPool ι) :=
  match s.workers[w]? with
  | some .start => some (s.workerBody w)
  | some (.waiting _) => some (s.workerBody w)
  | _ => none

/-- `Render` ends; an exception turns the status into 500. -/
def renderDone (s : TaskPool ι) (w : ℕ) (ok : Bool) : Option (TaskPool ι) :=
  match s.workers[w]? with
  | some (.rendering task) => some (s.setWorker w (.rendered task (if ok then 200 else 500)))
  | _ => none

/-- The second section of `TaskPool::WorkerThread`. -/
def workerCheck (s : TaskPool ι) (w : ℕ) : Option (TaskPool ι) :=
  match s.workers[w]? with
  | some (.rendered task statusCode) =>
      if s.exitRequested then
        some { s.setWorker w .exited with dropped := s.dropped ++ [task] }
      else some (s.setWorker w (.responding task statusCode))
  | _ => none

/-- `task.connection->SendResponse(status_code)`. -/
def sendResponse (s : TaskPool ι) (w : ℕ) : Option (TaskPool ι) :=
  match s.workers[w]? with
  | some (.responding task statusCode) =>
      some { s.setWorker w .start with responses := s.responses ++ [(task, statusCode)] }
  | _ => none

def step (s : TaskPool ι) : Event ι → Option (TaskPool ι)
  | .initCall n => s.initCall n
  | .initSpawn i => s.initSpawn i
  | .addCall connection page out => s.addCall connection page out
  | .addPush i => s.addPush i
  | .stopCall join => s.stopCall join
  | .stopSection i => s.stopSection i
  | .stopJoin i => s.stopJoin i
  | .stopClear i => s.stopClear i
  | .workerSection w => s.workerSection w
  | .renderDone w ok => s.renderDone w ok
  | .workerCheck w => s.workerCheck w
  | .sendResponse w => s.sendResponse w

/-- The tasks workers hold. -/
def held (s : TaskPool ι) : List (Task ι) := s.workers.filterMap Worker.task

/-! ## What a step does to the tasks held by workers -/

theorem held_count_set [DecidableEq ι] (l : List (Worker ι)) (w : ℕ) (y x : Worker ι) (t : Task ι)
    (h : l[w]? = some y) :
    ((l.set w x).filterMap Worker.task).count t + y.task.toList.count t
      = (l.filterMap Worker.task).count t + x.task.toList.count t := by
  induction l generalizing w with
  | nil => simp at h
  | cons a rest ih =>
      cases w with
      | zero =>
          simp only [List.getElem?_cons_zero, Option.some.injEq] at h
          subst h
          simp only [List.set_cons_zero]
          cases hx : x.task <;> cases ha : a.task <;> simp [hx, ha, List.count_cons]
          omega
      | succ w =>
          have hrest := ih w (by simpa using h)
          simp only [List.set_cons_succ]
          cases ha : a.task <;> simp [ha, List.count_cons] at * <;> omega

/-- A step of worker `w` changes what is held by `w`'s own task only. -/
theorem held_setWorker [DecidableEq ι] {s : TaskPool ι} {w : ℕ} {y : Worker ι} (x : Worker ι)
    (t : Task ι) (h : s.workers[w]? = some y) :
    (s.setWorker w x).held.count t + y.task.toList.count t
      = s.held.count t + x.task.toList.count t :=
  held_count_set s.workers w y x t h

@[simp] theorem task_notify (w : Worker ι) : w.notify.task = w.task := by cases w <;> rfl

@[simp] theorem held_notifyAll (s : TaskPool ι) : s.notifyAll.held = s.held := by
  simp only [held, notifyAll, List.filterMap_map]
  congr 1
  funext w
  exact task_notify w

theorem waiting_false_not_mem_notifyAll (s : TaskPool ι) :
    Worker.waiting false ∉ s.notifyAll.workers := by
  simp only [notifyAll, List.mem_map, not_exists, not_and]
  intro w _
  cases w <;> simp [Worker.notify]

theorem exited_mem_notifyAll {s : TaskPool ι} (h : Worker.exited ∈ s.notifyAll.workers) :
    Worker.exited ∈ s.workers := by
  simp only [notifyAll, List.mem_map] at h
  obtain ⟨w, hw, heq⟩ := h
  cases w <;> simp [Worker.notify] at heq
  exact hw

theorem mem_setWorker {s : TaskPool ι} {w : ℕ} {x y : Worker ι}
    (h : y ∈ (s.setWorker w x).workers) : y = x ∨ y ∈ s.workers := by
  rcases List.mem_or_eq_of_mem_set h with h | h
  · exact Or.inr h
  · exact Or.inl h

/-! ## The invariant -/

/-- What holds in every reachable state. The last six clauses are about the time before the section
of `Stop`: nothing is dropped, no worker has exited, and no worker sleeps through a queued task. -/
structure Inv [DecidableEq ι] (s : TaskPool ι) : Prop where
  fifo : s.accepted = s.gone.map Prod.fst ++ s.tasks
  tickets : s.accepted.map Task.ticket = List.range s.accepted.length
  queued : ∀ t ∈ s.tasks, t.isNull = false
  adding : ∀ a ∈ s.adders, a.1.isSome ∧ a.2.1.isSome ∧ a.2.2.isSome
  conserved : ∀ t, s.accepted.count t = s.tasks.count t + s.held.count t
    + (s.responses.map Prod.fst).count t + s.dropped.count t
  rendered : ∀ t ∈ s.renders, (t, some false) ∈ s.gone
  kept : s.exitRequested = false → s.dropped = []
  awake : s.exitRequested = false → s.tasks ≠ [] → Worker.waiting false ∉ s.workers
  alive : s.exitRequested = false → Worker.exited ∉ s.workers
  staffed : s.exitRequested = false → s.workers = [] → s.threads = [] ∧ s.adders = [] ∧ s.tasks = []

variable [DecidableEq ι]

theorem inv_new : Inv (new : TaskPool ι) := by
  constructor <;> simp [new, held]

/-! ## The steps of `Init`, `AddTask` and `Stop` -/

theorem Inv.initCall {s s' : TaskPool ι} {n : ℤ} (h : Inv s) (hs : s.initCall n = some s') :
    Inv s' := by
  simp only [TaskPool.initCall] at hs
  split at hs
  · exact absurd hs (by simp)
  · cases hs
    exact ⟨h.fifo, h.tickets, h.queued, h.adding, h.conserved, h.rendered, h.kept, h.awake, h.alive,
      h.staffed⟩

theorem Inv.initSpawn {s s' : TaskPool ι} {i : ℕ} (h : Inv s) (hs : s.initSpawn i = some s') :
    Inv s' := by
  simp only [TaskPool.initSpawn] at hs
  split at hs
  · cases hs
    refine ⟨h.fifo, h.tickets, h.queued, h.adding, fun t => ?_, h.rendered, h.kept, ?_, ?_, ?_⟩
    · have hheld : (s.workers ++ [Worker.start]).filterMap Worker.task = s.held := by
        rw [List.filterMap_append]
        exact List.append_nil _
      have hcount := h.conserved t
      simp only [held] at hcount hheld ⊢
      rw [hheld]
      exact hcount
    · intro hexit htasks
      simpa using h.awake hexit htasks
    · intro hexit
      simpa using h.alive hexit
    · intro _ hworkers
      exact absurd hworkers (by simp)
  · exact absurd hs (by simp)

theorem Inv.addCall {s s' : TaskPool ι} {c p o : Option ι} (h : Inv s)
    (hs : s.addCall c p o = some s') : Inv s' := by
  simp only [TaskPool.addCall] at hs
  split at hs
  · exact absurd hs (by simp)
  · next hset =>
      simp only [Bool.or_eq_true, not_or, Option.isNone_iff_eq_none, List.isEmpty_iff] at hset
      obtain ⟨⟨⟨hthreads, hc⟩, hp⟩, ho⟩ := hset
      cases hs
      refine ⟨h.fifo, h.tickets, h.queued, ?_, h.conserved, h.rendered, h.kept, h.awake, h.alive, ?_⟩
      · intro a ha
        rcases List.mem_append.1 ha with ha | ha
        · exact h.adding a ha
        · rw [List.mem_singleton] at ha
          subst ha
          exact ⟨Option.isSome_iff_ne_none.2 hc, Option.isSome_iff_ne_none.2 hp,
            Option.isSome_iff_ne_none.2 ho⟩
      · intro hexit hworkers
        exact absurd (h.staffed hexit hworkers).1 hthreads

/-- The section of `AddTask` appends one task with set pointers and wakes every waiting worker. -/
theorem Inv.addPush {s s' : TaskPool ι} {i : ℕ} (h : Inv s) (hs : s.addPush i = some s') :
    Inv s' := by
  simp only [TaskPool.addPush] at hs
  split at hs
  · next c p o hadder =>
      cases hs
      obtain ⟨hc, hp, ho⟩ := h.adding _ (List.mem_of_getElem? hadder)
      simp only at hc hp ho
      refine ⟨?_, ?_, ?_, ?_, fun t => ?_, h.rendered, h.kept, ?_, ?_, ?_⟩
      · simp [notifyAll, h.fifo]
      · simp [notifyAll, h.tickets, List.range_succ]
      · intro t ht
        rcases List.mem_append.1 ht with ht | ht
        · exact h.queued t ht
        · rw [List.mem_singleton] at ht
          rw [ht, Task.isNull, Option.isNone_eq_false_iff.2 hc, Option.isNone_eq_false_iff.2 hp,
            Option.isNone_eq_false_iff.2 ho]
          rfl
      · intro a ha
        exact h.adding a (List.mem_of_mem_eraseIdx ha)
      · have hcount := h.conserved t
        rw [held_notifyAll]
        simp only [notifyAll, held, List.count_append] at hcount ⊢
        omega
      · intro _ _
        exact waiting_false_not_mem_notifyAll _
      · intro hexit hmem
        exact h.alive hexit (exited_mem_notifyAll hmem)
      · intro hexit hworkers
        have hnil : s.workers = [] := by simpa [notifyAll] using hworkers
        have hadders := (h.staffed hexit hnil).2.1
        rw [hadders] at hadder
        exact absurd hadder (by simp)
  · exact absurd hs (by simp)

theorem Inv.stopCall {s s' : TaskPool ι} {join : Bool} (h : Inv s)
    (hs : s.stopCall join = some s') : Inv s' := by
  simp only [TaskPool.stopCall] at hs
  split at hs
  · exact absurd hs (by simp)
  · cases hs
    exact ⟨h.fifo, h.tickets, h.queued, h.adding, h.conserved, h.rendered, h.kept, h.awake, h.alive,
      h.staffed⟩

/-- The section of `Stop` moves the whole queue to the dropped tasks. -/
theorem Inv.stopSection {s s' : TaskPool ι} {i : ℕ} (h : Inv s) (hs : s.stopSection i = some s') :
    Inv s' := by
  simp only [TaskPool.stopSection] at hs
  split at hs
  · cases hs
    refine ⟨?_, h.tickets, by simp [notifyAll], h.adding, fun t => ?_, ?_, ?_, ?_, ?_, ?_⟩
    · simp [notifyAll, h.fifo, Function.comp_def]
    · have hcount := h.conserved t
      rw [held_notifyAll]
      simp only [notifyAll, held, List.count_append, List.count_nil] at hcount ⊢
      omega
    · intro t ht
      exact List.mem_append_left _ (h.rendered t ht)
    all_goals exact fun hexit => absurd hexit (by simp [notifyAll])
  · exact absurd hs (by simp)

theorem Inv.stopJoin {s s' : TaskPool ι} {i : ℕ} (h : Inv s) (hs : s.stopJoin i = some s') :
    Inv s' := by
  simp only [TaskPool.stopJoin] at hs
  split at hs
  · split at hs
    · cases hs
      exact ⟨h.fifo, h.tickets, h.queued, h.adding, h.conserved, h.rendered, h.kept, h.awake,
        h.alive, h.staffed⟩
    · exact absurd hs (by simp)
  · exact absurd hs (by simp)

theorem Inv.stopClear {s s' : TaskPool ι} {i : ℕ} (h : Inv s) (hs : s.stopClear i = some s') :
    Inv s' := by
  simp only [TaskPool.stopClear] at hs
  split at hs
  · cases hs
    exact ⟨h.fifo, h.tickets, h.queued, h.adding, h.conserved, h.rendered, h.kept, h.awake, h.alive,
      fun hexit hworkers => ⟨rfl, (h.staffed hexit hworkers).2⟩⟩
  · exact absurd hs (by simp)

/-! ## The steps of a worker -/

omit [DecidableEq ι] in
theorem setWorker_workers_ne_nil {s : TaskPool ι} {w : ℕ} {y : Worker ι} (x : Worker ι)
    (h : s.workers[w]? = some y) : (s.setWorker w x).workers ≠ [] := by
  intro hnil
  have hlen := congrArg List.length hnil
  simp only [setWorker, List.length_set, List.length_nil] at hlen
  rw [List.length_eq_zero_iff.1 hlen] at h
  exact absurd h (by simp)

/-- A worker that holds no task and finds the queue empty waits, or leaves if exit is requested. -/
theorem Inv.workerBody_nil {s : TaskPool ι} {w : ℕ} {y : Worker ι} (h : Inv s)
    (hy : s.workers[w]? = some y) (hnone : y.task = none) (hnil : s.tasks = []) :
    Inv (s.workerBody w) := by
  have hbody : s.workerBody w
      = s.setWorker w (if s.exitRequested then .exited else .waiting false) := by
    obtain ⟨⟩ := s
    simp only at hnil
    subst hnil
    simp only [workerBody, nextTask, Task.isNull]
    split_ifs <;> simp_all [setWorker]
  have hheld : ∀ t, (s.workerBody w).held.count t = s.held.count t := by
    intro t
    rw [hbody]
    have hset := held_setWorker (if s.exitRequested then .exited else .waiting false) t hy
    cases hexit : s.exitRequested <;> simpa [hnone, hexit] using hset
  refine ⟨?_, ?_, ?_, ?_, fun t => ?_, ?_, ?_, ?_, ?_, ?_⟩
  · rw [hbody]; exact h.fifo
  · rw [hbody]; exact h.tickets
  · rw [hbody]; exact h.queued
  · rw [hbody]; exact h.adding
  · rw [hheld, hbody]; exact h.conserved t
  · rw [hbody]; exact h.rendered
  · rw [hbody]; exact h.kept
  · intro _ htasks
    exact absurd (by rw [hbody]; exact hnil) htasks
  · intro hexit hmem
    rw [hbody] at hexit hmem
    have hfalse : s.exitRequested = false := hexit
    rcases mem_setWorker hmem with heq | hmem
    · simp [hfalse] at heq
    · exact h.alive hfalse hmem
  · intro _ hworkers
    rw [hbody] at hworkers
    exact absurd hworkers (setWorker_workers_ne_nil _ hy)

/-- A worker that holds no task takes the front of the queue, and renders it unless exit is
requested. -/
theorem Inv.workerBody_cons {s : TaskPool ι} {w : ℕ} {y : Worker ι} {t₀ : Task ι}
    {rest : List (Task ι)} (h : Inv s) (hy : s.workers[w]? = some y) (hnone : y.task = none)
    (hcons : s.tasks = t₀ :: rest) : Inv (s.workerBody w) := by
  have hset : t₀.isNull = false := h.queued t₀ (by simp [hcons])
  have hfifo := h.fifo
  have hqueued : ∀ t ∈ rest, t.isNull = false :=
    fun t ht => h.queued t (by simp [hcons, ht])
  cases hexit : s.exitRequested with
  | false =>
      have hbody : s.workerBody w = { s.setWorker w (.rendering t₀) with
          tasks := rest, gone := s.gone ++ [(t₀, some false)], renders := s.renders ++ [t₀] } := by
        simp [workerBody, nextTask, hcons, hset, hexit, setWorker]
      rw [hbody]
      refine ⟨?_, h.tickets, hqueued, h.adding, fun t => ?_, ?_, h.kept, ?_, ?_, ?_⟩
      · simp [setWorker, hfifo, hcons]
      · have hcount := h.conserved t
        have hheld := held_setWorker (.rendering t₀) t hy
        rw [hcons] at hcount
        rw [hnone] at hheld
        simp [held, setWorker, List.count_cons] at hcount hheld ⊢
        omega
      · intro t ht
        rcases List.mem_append.1 ht with ht | ht
        · exact List.mem_append_left _ (h.rendered t ht)
        · rw [List.mem_singleton] at ht
          simp [ht]
      · intro _ _ hmem
        rcases mem_setWorker hmem with heq | hmem
        · simp at heq
        · exact h.awake hexit (by simp [hcons]) hmem
      · intro _ hmem
        rcases mem_setWorker hmem with heq | hmem
        · simp at heq
        · exact h.alive hexit hmem
      · intro _ hworkers
        exact absurd hworkers (setWorker_workers_ne_nil _ hy)
  | true =>
      have hbody : s.workerBody w = { s.setWorker w .exited with
          tasks := rest, gone := s.gone ++ [(t₀, some true)], dropped := s.dropped ++ [t₀] } := by
        simp [workerBody, nextTask, hcons, hset, hexit, setWorker]
      rw [hbody]
      refine ⟨?_, h.tickets, hqueued, h.adding, fun t => ?_, ?_, ?_, ?_, ?_, ?_⟩
      · simp [setWorker, hfifo, hcons]
      · have hcount := h.conserved t
        have hheld := held_setWorker .exited t hy
        rw [hcons] at hcount
        rw [hnone] at hheld
        simp [held, setWorker, List.count_cons] at hcount hheld ⊢
        omega
      · intro t ht
        exact List.mem_append_left _ (h.rendered t ht)
      all_goals exact fun hf => absurd (hexit.symm.trans hf) (by simp)

theorem Inv.workerSection {s s' : TaskPool ι} {w : ℕ} (h : Inv s)
    (hs : s.workerSection w = some s') : Inv s' := by
  have hcases : ∃ y, s.workers[w]? = some y ∧ y.task = none ∧ s' = s.workerBody w := by
    simp only [TaskPool.workerSection] at hs
    split at hs
    · next hw => cases hs; exact ⟨_, hw, rfl, rfl⟩
    · next hw => cases hs; exact ⟨_, hw, rfl, rfl⟩
    · exact absurd hs (by simp)
  obtain ⟨y, hy, hnone, rfl⟩ := hcases
  cases htasks : s.tasks with
  | nil => exact h.workerBody_nil hy hnone htasks
  | cons t rest => exact h.workerBody_cons hy hnone htasks

/-- A worker that moves on with the task it holds, neither to the wait nor out of the loop. -/
theorem Inv.setWorker {s : TaskPool ι} {w : ℕ} {x y : Worker ι} (h : Inv s)
    (hy : s.workers[w]? = some y) (htask : x.task = y.task) (hwait : x ≠ .waiting false)
    (hexited : x ≠ .exited) : Inv (s.setWorker w x) := by
  refine ⟨h.fifo, h.tickets, h.queued, h.adding, fun t => ?_, h.rendered, h.kept, ?_, ?_, ?_⟩
  · have hcount := h.conserved t
    have hheld := held_setWorker x t hy
    rw [htask] at hheld
    simp only [TaskPool.setWorker, held] at hcount hheld ⊢
    omega
  · intro hexit htasks hmem
    rcases mem_setWorker hmem with heq | hmem
    · exact hwait heq.symm
    · exact h.awake hexit htasks hmem
  · intro hexit hmem
    rcases mem_setWorker hmem with heq | hmem
    · exact hexited heq.symm
    · exact h.alive hexit hmem
  · intro _ hworkers
    exact absurd hworkers (setWorker_workers_ne_nil _ hy)

theorem Inv.renderDone {s s' : TaskPool ι} {w : ℕ} {ok : Bool} (h : Inv s)
    (hs : s.renderDone w ok = some s') : Inv s' := by
  simp only [TaskPool.renderDone] at hs
  split at hs
  · next hw =>
      cases hs
      exact h.setWorker hw rfl (by simp) (by simp)
  · exact absurd hs (by simp)

theorem Inv.workerCheck {s s' : TaskPool ι} {w : ℕ} (h : Inv s)
    (hs : s.workerCheck w = some s') : Inv s' := by
  simp only [TaskPool.workerCheck] at hs
  split at hs
  · next t code hw =>
      split at hs
      · next hexit =>
          cases hs
          refine ⟨h.fifo, h.tickets, h.queued, h.adding, fun t' => ?_, h.rendered, ?_, ?_, ?_, ?_⟩
          · have hcount := h.conserved t'
            have hheld := held_setWorker .exited t' hw
            simp [held, TaskPool.setWorker, List.count_cons] at hcount hheld ⊢
            omega
          all_goals exact fun hf => absurd (hexit.symm.trans hf) (by simp)
      · cases hs
        exact h.setWorker hw rfl (by simp) (by simp)
  · exact absurd hs (by simp)

theorem Inv.sendResponse {s s' : TaskPool ι} {w : ℕ} (h : Inv s)
    (hs : s.sendResponse w = some s') : Inv s' := by
  simp only [TaskPool.sendResponse] at hs
  split at hs
  · next t code hw =>
      cases hs
      refine ⟨h.fifo, h.tickets, h.queued, h.adding, fun t' => ?_, h.rendered, h.kept, ?_, ?_, ?_⟩
      · have hcount := h.conserved t'
        have hheld := held_setWorker .start t' hw
        simp [held, TaskPool.setWorker, List.count_cons] at hcount hheld ⊢
        omega
      · intro hexit htasks hmem
        rcases mem_setWorker hmem with heq | hmem
        · simp at heq
        · exact h.awake hexit htasks hmem
      · intro hexit hmem
        rcases mem_setWorker hmem with heq | hmem
        · simp at heq
        · exact h.alive hexit hmem
      · intro _ hworkers
        exact absurd hworkers (setWorker_workers_ne_nil _ hw)
  · exact absurd hs (by simp)

/-- Every step of every party keeps the invariant. -/
theorem Inv.step {s s' : TaskPool ι} (h : Inv s) (e : Event ι) (hs : s.step e = some s') :
    Inv s' := by
  cases e with
  | initCall n => exact h.initCall hs
  | initSpawn i => exact h.initSpawn hs
  | addCall c p o => exact h.addCall hs
  | addPush i => exact h.addPush hs
  | stopCall join => exact h.stopCall hs
  | stopSection i => exact h.stopSection hs
  | stopJoin i => exact h.stopJoin hs
  | stopClear i => exact h.stopClear hs
  | workerSection w => exact h.workerSection hs
  | renderDone w ok => exact h.renderDone hs
  | workerCheck w => exact h.workerCheck hs
  | sendResponse w => exact h.sendResponse hs

theorem inv_of_reachable {s : TaskPool ι} (h : StepSystem.Reachable TaskPool.step new s) : Inv s :=
  h.invariant (fun _ e _ hInv he => hInv.step e he) inv_new

/-! ## No task is lost, duplicated or reordered -/

omit [DecidableEq ι] in
theorem accepted_nodup {s : TaskPool ι}
    (h : s.accepted.map Task.ticket = List.range s.accepted.length) : s.accepted.Nodup := by
  have hrange : (s.accepted.map Task.ticket).Nodup := h ▸ List.nodup_range
  exact hrange.of_map _

theorem Inv.count_accepted_le {s : TaskPool ι} (h : Inv s) (t : Task ι) :
    s.accepted.count t ≤ 1 :=
  List.nodup_iff_count_le_one.1 (accepted_nodup h.tickets) t

omit [DecidableEq ι] in
/-- In a list of pairs with distinct first components, the first component fixes the second. -/
theorem snd_eq_of_nodup_fst {α β : Type} {l : List (α × β)} (h : (l.map Prod.fst).Nodup) {a : α}
    {b c : β} (hb : (a, b) ∈ l) (hc : (a, c) ∈ l) : b = c := by
  have hpair := List.inj_on_of_nodup_map h hb hc rfl
  exact (Prod.mk.inj hpair).2

theorem Inv.gone_nodup {s : TaskPool ι} (h : Inv s) : (s.gone.map Prod.fst).Nodup := by
  have hnodup := accepted_nodup h.tickets
  rw [h.fifo] at hnodup
  exact (List.nodup_append.1 hnodup).1

/-- What the pool owes its callers in a state. -/
structure Sound (s : TaskPool ι) : Prop where
  /-- Until the section of `Stop`, an accepted task is queued, held by one worker or responded to
  once, and only one of the three. -/
  place : s.exitRequested = false → ∀ t ∈ s.accepted,
    s.tasks.count t + s.held.count t + (s.responses.map Prod.fst).count t = 1
  /-- Tasks leave the queue in the order in which they were accepted. -/
  order : s.accepted = s.gone.map Prod.fst ++ s.tasks
  /-- No task is responded to twice. -/
  once : ∀ t, (s.responses.map Prod.fst).count t ≤ 1
  /-- A task a worker takes after the section of `Stop` is not rendered. -/
  unrendered : ∀ t, (t, some true) ∈ s.gone → t ∉ s.renders
  /-- The workers do not all sleep through a queued task. -/
  wakeful : ¬(s.tasks ≠ [] ∧ s.exitRequested = false ∧ ∀ w ∈ s.workers, w = Worker.waiting false)

theorem Inv.sound {s : TaskPool ι} (h : Inv s) : Sound s := by
  refine ⟨fun hexit t ht => ?_, h.fifo, fun t => ?_, fun t hgone hrender => ?_, ?_⟩
  · have hcount := h.conserved t
    rw [h.kept hexit, List.count_nil] at hcount
    have hpos := List.count_pos_iff.2 ht
    have hle := h.count_accepted_le t
    omega
  · have hcount := h.conserved t
    have hle := h.count_accepted_le t
    omega
  · have heq := snd_eq_of_nodup_fst h.gone_nodup hgone (h.rendered t hrender)
    exact absurd heq (by simp)
  · rintro ⟨htasks, hexit, hall⟩
    cases hworkers : s.workers with
    | nil => exact htasks (h.staffed hexit hworkers).2.2
    | cons w rest =>
        have hmem : w ∈ s.workers := by simp [hworkers]
        have hwait := hall w hmem
        exact h.awake hexit htasks (hwait ▸ hmem)

/-- **Whatever the interleaving, the pool neither loses, duplicates nor reorders a task, and no
wake-up is lost.** -/
theorem sound_of_reachable {s : TaskPool ι} (h : StepSystem.Reachable TaskPool.step new s) :
    Sound s :=
  (inv_of_reachable h).sound

/-- Two workers, two tasks: the first is being rendered, the second has been responded to, when
`Stop` asks for exit. -/
def twoWorkersRun : List (Event ℕ) :=
  [.initCall 2, .initSpawn 0, .initSpawn 0, .workerSection 0, .addCall (some 1) (some 2) (some 3),
    .addPush 0, .addCall (some 4) (some 5) (some 6), .workerSection 0, .addPush 0,
    .workerSection 1, .renderDone 1 false, .workerCheck 1, .sendResponse 1, .stopCall true,
    .stopSection 0]

theorem sound_twoWorkersRun :
    ∃ s : TaskPool ℕ, StepSystem.run TaskPool.step new twoWorkersRun = some s ∧
      s.held = [⟨some 1, some 2, some 3, 0⟩] ∧
      s.responses = [(⟨some 4, some 5, some 6, 1⟩, 500)] ∧ Sound s :=
  ⟨_, rfl, rfl, rfl, sound_of_reachable ⟨twoWorkersRun, rfl⟩⟩

/-! ## Stranded tasks

`AddTask` looks at `threads` while the workers look at `exit_requested`, and only `Stop(true)`
empties `threads`, after its joins. -/

/-- A queued task has a worker that may still take and render it. -/
def NoneStranded (s : TaskPool ι) : Prop :=
  s.tasks ≠ [] → s.exitRequested = false ∧ ∃ w ∈ s.workers, w ≠ Worker.exited

/-- When the step is an `AddTask` about to return true, exit is not requested and some worker has
not exited. -/
def AcceptsLive (s : TaskPool ι) : Event ι → Prop
  | .addPush i => (s.addPush i).isSome → s.exitRequested = false ∧ ∃ w ∈ s.workers, w ≠ Worker.exited
  | _ => True

/-- No task is accepted to be stranded, at any time of the run. -/
def NeverStrands (es : List (Event ι)) : Prop :=
  StepSystem.EveryState TaskPool.step NoneStranded new es ∧
    StepSystem.EveryStep TaskPool.step AcceptsLive new es

/-- The step is not the section of an `AddTask` that comes after the section of a `Stop`. -/
def AddsBeforeStop (s : TaskPool ι) : Event ι → Prop
  | .addPush i => (s.addPush i).isSome → s.exitRequested = false
  | _ => True

/-- Exit is requested only with an empty queue, as long as no `AddTask` comes after a `Stop`. -/
def EmptyOnExit (s : TaskPool ι) : Prop := s.exitRequested = true → s.tasks = []

omit [DecidableEq ι] in
theorem workerBody_exitRequested (s : TaskPool ι) (w : ℕ) :
    (s.workerBody w).exitRequested = s.exitRequested := by
  simp only [workerBody]
  split_ifs <;> rfl

omit [DecidableEq ι] in
theorem workerBody_tasks (s : TaskPool ι) (w : ℕ) :
    (s.workerBody w).tasks = (nextTask s.tasks).2 := by
  simp only [workerBody]
  split_ifs <;> rfl

omit [DecidableEq ι] in
/-- Outside the section of `AddTask` no step adds to the queue, and only `Stop`, which empties it,
requests exit. -/
theorem EmptyOnExit.step {s s' : TaskPool ι} (h : EmptyOnExit s) (e : Event ι)
    (hadd : AddsBeforeStop s e) (hs : s.step e = some s') : EmptyOnExit s' := by
  cases e <;> simp only [TaskPool.step] at hs
  case addPush i =>
    have hexit := hadd (by simp [hs])
    intro hexit'
    simp only [TaskPool.addPush] at hs
    split at hs
    · cases hs
      exact absurd (hexit.symm.trans hexit') (by simp)
    · exact absurd hs (by simp)
  case stopSection i =>
    simp only [TaskPool.stopSection] at hs
    split at hs
    · cases hs
      exact fun _ => rfl
    · exact absurd hs (by simp)
  case workerSection w =>
    have hs' : s' = s.workerBody w := by
      simp only [TaskPool.workerSection] at hs
      split at hs <;> first | exact (Option.some.inj hs).symm | exact absurd hs (by simp)
    subst hs'
    intro hexit
    rw [workerBody_exitRequested] at hexit
    rw [workerBody_tasks, h hexit]
    rfl
  all_goals
    simp only [TaskPool.initCall, TaskPool.initSpawn, TaskPool.addCall, TaskPool.stopCall,
      TaskPool.stopJoin, TaskPool.stopClear, TaskPool.renderDone, TaskPool.workerCheck,
      TaskPool.sendResponse] at hs
    repeat' split at hs
    all_goals first | contradiction | (cases hs; exact h)

theorem Inv.live_worker {s : TaskPool ι} (h : Inv s) (hexit : s.exitRequested = false)
    (hwork : s.tasks ≠ [] ∨ s.adders ≠ []) : ∃ w ∈ s.workers, w ≠ Worker.exited := by
  cases hworkers : s.workers with
  | nil =>
      have hidle := (h.staffed hexit hworkers).2
      exact absurd hidle (by simp only [not_and_or]; exact hwork.symm)
  | cons w rest =>
      refine ⟨w, by simp, fun hexited => h.alive hexit ?_⟩
      simp [hworkers, hexited]

omit [DecidableEq ι] in
theorem adders_ne_nil_of_addPush {s : TaskPool ι} {i : ℕ} (h : (s.addPush i).isSome) :
    s.adders ≠ [] := by
  intro hnil
  simp [addPush, hnil] at h

omit [DecidableEq ι] in
theorem addPush_strands {s s' : TaskPool ι} {i : ℕ} (hs : s.addPush i = some s')
    (h : NoneStranded s') : s.exitRequested = false := by
  simp only [addPush] at hs
  split at hs
  · cases hs
    exact (h (by simp [notifyAll])).1
  · exact absurd hs (by simp)

theorem everyStep_acceptsLive {s : TaskPool ι} {es : List (Event ι)} (h : Inv s)
    (hadds : StepSystem.EveryStep TaskPool.step AddsBeforeStop s es) :
    StepSystem.EveryStep TaskPool.step AcceptsLive s es := by
  induction es generalizing s with
  | nil => trivial
  | cons e es ih =>
      refine ⟨?_, fun s' he => ih (h.step e he) (hadds.2 s' he)⟩
      cases e with
      | addPush i =>
          intro hsome
          have hexit := hadds.1 hsome
          exact ⟨hexit, h.live_worker hexit (Or.inr (adders_ne_nil_of_addPush hsome))⟩
      | _ => trivial

theorem everyState_noneStranded {es : List (Event ι)}
    (hadds : StepSystem.EveryStep TaskPool.step AddsBeforeStop (new : TaskPool ι) es) :
    StepSystem.EveryState TaskPool.step NoneStranded (new : TaskPool ι) es := by
  have hstates : StepSystem.EveryState TaskPool.step (fun s => Inv s ∧ EmptyOnExit s) new es :=
    StepSystem.EveryState.of_steps
      (fun _ e _ h hC he => ⟨h.1.step e he, h.2.step e hC he⟩) ⟨inv_new, fun _ => rfl⟩ hadds
  refine hstates.mono ?_
  rintro s ⟨h, hempty⟩ htasks
  cases hexit : s.exitRequested with
  | false => exact ⟨rfl, h.live_worker hexit (Or.inl htasks)⟩
  | true => exact absurd (hempty hexit) htasks

omit [DecidableEq ι] in
theorem everyStep_addsBeforeStop {s : TaskPool ι} {es : List (Event ι)}
    (h : StepSystem.EveryState TaskPool.step NoneStranded s es) :
    StepSystem.EveryStep TaskPool.step AddsBeforeStop s es := by
  induction es generalizing s with
  | nil => trivial
  | cons e es ih =>
      refine ⟨?_, fun s' he => ih (h.2 s' he)⟩
      cases e with
      | addPush i =>
          intro hsome
          obtain ⟨s', hs'⟩ := Option.isSome_iff_exists.1 hsome
          exact addPush_strands hs' (h.2 s' hs').head
      | _ => trivial

/-- **A run strands no accepted task exactly when none of its `AddTask` calls enters its section
after the section of a `Stop`.** -/
theorem neverStrands_iff (es : List (Event ι)) :
    NeverStrands es ↔ StepSystem.EveryStep TaskPool.step AddsBeforeStop (new : TaskPool ι) es := by
  constructor
  · rintro ⟨hstates, _⟩
    exact everyStep_addsBeforeStop hstates
  · intro hadds
    exact ⟨everyState_noneStranded hadds, everyStep_acceptsLive inv_new hadds⟩

/-- `Init(1)`, `Stop(false)`, `AddTask`: the task is accepted and stays in the queue. -/
def lateAddRun : List (Event ℕ) :=
  [.initCall 1, .initSpawn 0, .stopCall false, .stopSection 0, .addCall (some 1) (some 2) (some 3),
    .addPush 0]

theorem not_neverStrands_lateAdd : ¬ NeverStrands lateAddRun := by
  intro h
  have hstranded := StepSystem.EveryState.last h.1
    (rfl : StepSystem.run TaskPool.step new lateAddRun = some _)
  exact absurd (hstranded (by decide)).1 (by decide)

end TaskPool

end ImageProxy
