import ImageProxy.Library.Ranking
import ImageProxy.TaskPool

set_option autoImplicit false

/-! # Stopping the task pool

`Stop(true)` joins its threads, so it returns only if every worker comes to its end. Once exit is
requested no worker sleeps, and none has more than two steps left to make, whatever is queued and
however many threads are started in the meantime (`Stopping`). -/

namespace ImageProxy

/-- The steps that a worker has left, exit being requested. -/
def Worker.stepsLeft {ι : Type} : Worker ι → ℕ
  | .start | .waiting _ | .rendered _ _ => 1
  | .rendering _ | .responding _ _ => 2
  | .exited => 0

namespace TaskPool

variable {ι : Type}

/-- The step of a worker. -/
def Event.isWorker : Event ι → Bool
  | .workerSection _ | .renderDone _ _ | .workerCheck _ | .sendResponse _ => true
  | _ => false

/-- The threads that the step asks for. -/
def Event.threadsAsked : Event ι → ℕ
  | .initCall n => n.toNat
  | _ => 0

/-- The steps that the workers have left, those of the threads still to be started included. -/
def stepsLeft (s : TaskPool ι) : ℕ := (s.workers.map Worker.stepsLeft).sum + s.inits.sum

/-- The threads of the pool and those to be joined are workers. Exit being requested, none of them
sleeps unnotified. -/
structure Staffed (s : TaskPool ι) : Prop where
  threads : ∀ w ∈ s.threads, w < s.workers.length
  joining : ∀ remaining, StopCall.joining remaining ∈ s.stops → ∀ w ∈ remaining, w < s.workers.length
  awake : s.exitRequested = true → Worker.waiting false ∉ s.workers

@[simp] theorem stepsLeft_notify (w : Worker ι) : w.notify.stepsLeft = w.stepsLeft := by
  cases w <;> rfl

/-- A sum changes by what one of its terms does. -/
theorem sum_map_set {β : Type} (f : β → ℕ) {l : List β} {i : ℕ} {y : β} (x : β) (h : l[i]? = some y) :
    ((l.set i x).map f).sum + f y = (l.map f).sum + f x := by
  induction l generalizing i with
  | nil => simp at h
  | cons a rest ih =>
      cases i with
      | zero =>
          simp only [List.getElem?_cons_zero, Option.some.injEq] at h
          subst h
          simp only [List.set_cons_zero, List.map_cons, List.sum_cons]
          omega
      | succ i =>
          have hrest := ih (i := i) (by simpa using h)
          simp only [List.set_cons_succ, List.map_cons, List.sum_cons]
          omega

/-- A worker at the top of the loop, or woken, leaves if exit is requested. -/
theorem workerBody_workers {s : TaskPool ι} (hexit : s.exitRequested = true) (w : ℕ) :
    (s.workerBody w).workers = s.workers.set w .exited := by
  simp [workerBody, hexit, setWorker]

theorem workerSection_cases {s s' : TaskPool ι} {w : ℕ} (hs : s.workerSection w = some s') :
    s' = s.workerBody w ∧ ∃ y, s.workers[w]? = some y ∧ y.stepsLeft = 1 := by
  simp only [workerSection] at hs
  split at hs
  · next hw => exact ⟨(Option.some.inj hs).symm, _, hw, rfl⟩
  · next hw => exact ⟨(Option.some.inj hs).symm, _, hw, rfl⟩
  · exact absurd hs (by simp)

/-- What a step does to the workers once exit is requested: they are at most notified, one is started,
or one of them makes a step. -/
inductive Moved (s : TaskPool ι) (e : Event ι) (s' : TaskPool ι) : Prop where
  | aside (hworker : e.isWorker = false) (workers : s'.workers = s.workers ∨
        s'.workers = s.workers.map Worker.notify)
      (inits : s'.inits.sum = s.inits.sum + e.threadsAsked)
  | started (hworker : e.isWorker = false) (workers : s'.workers = s.workers ++ [.start])
      (inits : s'.inits.sum + 1 = s.inits.sum)
  | stepped (w : ℕ) (x y : Worker ι) (hy : s.workers[w]? = some y)
      (workers : s'.workers = s.workers.set w x) (hx : x ≠ .waiting false)
      (less : x.stepsLeft + 1 = y.stepsLeft) (inits : s'.inits = s.inits)

theorem step_moved {s s' : TaskPool ι} {e : Event ι} (hexit : s.exitRequested = true)
    (hs : s.step e = some s') : s'.exitRequested = true ∧ Moved s e s' := by
  cases e <;> simp only [step] at hs
  case initSpawn i =>
    simp only [initSpawn] at hs
    split at hs
    · next n hinit =>
        cases hs
        have hsum : (s.inits.set i n).sum + (n + 1) = s.inits.sum + n := by
          simpa using sum_map_set id n hinit
        exact ⟨hexit, .started rfl rfl (by simp only; omega)⟩
    · exact absurd hs (by simp)
  case initCall n =>
    simp only [initCall] at hs
    split at hs
    · exact absurd hs (by simp)
    · cases hs
      exact ⟨hexit, .aside rfl (Or.inl rfl) (by simp [Event.threadsAsked])⟩
  case workerSection w =>
    obtain ⟨rfl, y, hy, hleft⟩ := workerSection_cases hs
    refine ⟨by rw [workerBody_exitRequested, hexit], ?_⟩
    refine .stepped w .exited y hy (workerBody_workers hexit w) (by simp) hleft.symm ?_
    simp only [workerBody]
    split_ifs <;> rfl
  case renderDone w ok =>
    simp only [renderDone] at hs
    split at hs
    · next t hw =>
        cases hs
        exact ⟨hexit, .stepped w _ _ hw rfl (by simp) rfl rfl⟩
    · exact absurd hs (by simp)
  case workerCheck w =>
    simp only [workerCheck, hexit, if_true] at hs
    split at hs
    · next t code hw =>
        cases hs
        exact ⟨hexit, .stepped w _ _ hw rfl (by simp) rfl rfl⟩
    · exact absurd hs (by simp)
  case sendResponse w =>
    simp only [sendResponse] at hs
    split at hs
    · next t code hw =>
        cases hs
        exact ⟨hexit, .stepped w _ _ hw rfl (by simp) rfl rfl⟩
    · exact absurd hs (by simp)
  -- a caller moves no worker; `AddTask` and the section of `Stop` notify them
  all_goals
    simp only [addCall, addPush, stopCall, stopSection, stopJoin, stopClear] at hs
    repeat' split at hs
    all_goals first
      | contradiction
      | (cases hs; exact ⟨hexit, .aside rfl (Or.inl rfl) rfl⟩)
      | (cases hs; exact ⟨by first | exact hexit | rfl, .aside rfl (Or.inr rfl) rfl⟩)

theorem Moved.stepsLeft {s s' : TaskPool ι} {e : Event ι} (h : Moved s e s') :
    (if e.isWorker then 1 else 0) + s'.stepsLeft ≤ s.stepsLeft + e.threadsAsked := by
  cases h with
  | aside hworker workers inits =>
      have hsum : (s'.workers.map Worker.stepsLeft).sum = (s.workers.map Worker.stepsLeft).sum := by
        rcases workers with hsame | hnotified
        · rw [hsame]
        · rw [hnotified, List.map_map]
          congr 2
          funext w
          exact stepsLeft_notify w
      simp only [TaskPool.stepsLeft, hworker, hsum, inits]
      simp
      omega
  | started hworker workers inits =>
      simp only [TaskPool.stepsLeft, hworker, workers, List.map_append, List.sum_append,
        List.map_cons, List.map_nil, List.sum_cons, List.sum_nil, Worker.stepsLeft]
      simp
      omega
  | stepped w x y hy workers hx less inits =>
      have hsum := sum_map_set Worker.stepsLeft x hy
      simp only [TaskPool.stepsLeft, workers, inits]
      split <;> omega

theorem Moved.awake {s s' : TaskPool ι} {e : Event ι} (h : Moved s e s')
    (hs : Worker.waiting false ∉ s.workers) : Worker.waiting false ∉ s'.workers := by
  cases h with
  | aside hworker workers inits =>
      rcases workers with hsame | hnotified
      · rwa [hsame]
      · rw [hnotified]
        exact waiting_false_not_mem_notifyAll s
  | started hworker workers inits => simpa [workers] using hs
  | stepped w x y hy workers hx less inits =>
      rw [workers]
      intro hmem
      rcases List.mem_or_eq_of_mem_set hmem with hmem | heq
      · exact hs hmem
      · exact hx heq.symm

/-! ## Every state -/

theorem workerBody_length (s : TaskPool ι) (w : ℕ) :
    (s.workerBody w).workers.length = s.workers.length := by
  simp only [workerBody]
  split_ifs <;> simp [setWorker]

/-- Workers are only added, the threads are workers, and the section of `Stop` joins the threads there
are. -/
theorem step_threads {s s' : TaskPool ι} {e : Event ι} (h : Staffed s) (hs : s.step e = some s') :
    s.workers.length ≤ s'.workers.length ∧ (∀ w ∈ s'.threads, w < s'.workers.length) ∧
      ∀ remaining, StopCall.joining remaining ∈ s'.stops →
        ∀ w ∈ remaining, w < s'.workers.length := by
  have hthreads := h.threads
  have hjoining := h.joining
  cases e <;> simp only [step] at hs
  case initSpawn i =>
    simp only [initSpawn] at hs
    split at hs
    · cases hs
      simp only [List.length_append, List.length_singleton]
      refine ⟨Nat.le_succ _, fun w hw => ?_, fun remaining hmem w hw =>
        Nat.lt_succ_of_lt (hjoining remaining hmem w hw)⟩
      rcases List.mem_append.1 hw with hw | hw
      · exact Nat.lt_succ_of_lt (hthreads w hw)
      · rw [List.mem_singleton.1 hw]
        exact Nat.lt_succ_self _
    · exact absurd hs (by simp)
  case stopCall join =>
    simp only [stopCall] at hs
    split at hs
    · exact absurd hs (by simp)
    · cases hs
      refine ⟨Nat.le_refl _, hthreads, fun remaining hmem => hjoining remaining ?_⟩
      simpa using hmem
  case stopSection i =>
    simp only [stopSection] at hs
    split at hs
    · cases hs
      simp only [notifyAll, List.length_map]
      refine ⟨Nat.le_refl _, hthreads, fun remaining hmem => ?_⟩
      split at hmem
      · -- the call that has run its section joins the threads there are
        rcases List.mem_or_eq_of_mem_set hmem with hmem | heq
        · exact hjoining remaining hmem
        · cases heq
          exact hthreads
      · exact hjoining remaining (List.mem_of_mem_eraseIdx hmem)
    · exact absurd hs (by simp)
  case stopJoin i =>
    simp only [stopJoin] at hs
    split at hs
    · next w remaining hstop =>
        split at hs
        · cases hs
          refine ⟨Nat.le_refl _, hthreads, fun remaining' hmem => ?_⟩
          rcases List.mem_or_eq_of_mem_set hmem with hmem | heq
          · exact hjoining remaining' hmem
          · cases heq
            exact fun w hw => hjoining _ (List.mem_of_getElem? hstop) w (List.mem_cons_of_mem _ hw)
        · exact absurd hs (by simp)
    · exact absurd hs (by simp)
  case stopClear i =>
    simp only [stopClear] at hs
    split at hs
    · cases hs
      exact ⟨Nat.le_refl _, by simp, fun remaining hmem =>
        hjoining remaining (List.mem_of_mem_eraseIdx hmem)⟩
    · exact absurd hs (by simp)
  case workerSection w =>
    obtain ⟨rfl, -⟩ := workerSection_cases hs
    rw [workerBody_length]
    refine ⟨Nat.le_refl _, ?_, ?_⟩ <;> simp only [workerBody] <;> split_ifs <;> assumption
  all_goals
    simp only [initCall, addCall, addPush, renderDone, workerCheck, sendResponse] at hs
    repeat' split at hs
    all_goals first
      | contradiction
      | (cases hs; simp only [setWorker, notifyAll, List.length_set, List.length_map]
         exact ⟨Nat.le_refl _, hthreads, hjoining⟩)

/-- Exit is requested by the section of `Stop`, which notifies every worker. -/
theorem step_exits {s s' : TaskPool ι} {e : Event ι} (hexit : s.exitRequested = false)
    (hs : s.step e = some s') : s'.exitRequested = true → Worker.waiting false ∉ s'.workers := by
  cases e <;> simp only [step] at hs
  case stopSection i =>
    simp only [stopSection] at hs
    split at hs
    · cases hs
      exact fun _ => waiting_false_not_mem_notifyAll _
    · exact absurd hs (by simp)
  case workerSection w =>
    obtain ⟨rfl, -⟩ := workerSection_cases hs
    rw [workerBody_exitRequested, hexit]
    exact fun h => absurd h (by simp)
  all_goals
    simp only [initCall, initSpawn, addCall, addPush, stopCall, stopJoin, stopClear, renderDone,
      workerCheck, sendResponse] at hs
    repeat' split at hs
    all_goals first
      | contradiction
      | (cases hs; exact fun h => absurd (hexit.symm.trans h) (by simp))

theorem Staffed.step {s s' : TaskPool ι} {e : Event ι} (h : Staffed s) (hs : s.step e = some s') :
    Staffed s' := by
  obtain ⟨-, hthreads, hjoining⟩ := step_threads h hs
  refine ⟨hthreads, hjoining, ?_⟩
  cases hexit : s.exitRequested with
  | false => exact step_exits hexit hs
  | true => exact fun _ => (step_moved hexit hs).2.awake (h.awake hexit)

end TaskPool

end ImageProxy
