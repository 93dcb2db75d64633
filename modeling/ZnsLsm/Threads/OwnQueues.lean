import ZnsLsm.Threads.Delivery

/-!
# Workers with queues of their own

In `ThreadPool` the tasks of a worker stand in a line: the one in hand, then those in its
queue.  Only sending and finishing a task change the line, whatever else the threads do; and
with its tasks counted, the pool is the one whose destructor may strand a worker.
-/

namespace ZnsLsm.Threads

open ZnsLsm.Transition

universe u

namespace TaskPool

variable {τ : Type u} {threads : Nat} {pool pool' : TaskPool τ} {journal : Journal τ}
  {action : Action τ} {i queue : Nat}

/-! ## The line of a worker -/

/-- The tasks of a worker, oldest first. -/
def line (pool : TaskPool τ) (i : Nat) : List τ :=
  (pool.task i).toList ++ pool.tasks i

/-- A task goes to the end of the line. -/
theorem line_enqueue {task : τ}
    (stepped : Steps (ThreadPool.shape threads) pool (.enqueue queue task) pool') :
    pool'.line = Function.update pool.line queue (pool.line queue ++ [task]) := by
  cases stepped
  funext i
  by_cases eq : i = queue
  · subst eq
    simp [line]
  · simp [line, eq]

/-- The task at the head of the line is finished. -/
theorem line_finish {task : τ} (held : pool.task i = some task)
    (stepped : Steps (ThreadPool.shape threads) pool (.finish i) pool') :
    pool.line i = task :: pool.tasks i ∧
      pool'.line = Function.update pool.line i (pool.tasks i) := by
  cases stepped
  refine ⟨by simp [line, held], ?_⟩
  funext j
  by_cases eq : j = i
  · subst eq
    simp [line, TaskPool.setWorker]
  · simp [line, TaskPool.setWorker, eq]

/-- Nothing else changes a line. -/
theorem Accounted.line_eq (accounted : pool.Accounted (ThreadPool.shape threads) journal)
    (notEnqueue : ∀ queue task, action ≠ .enqueue queue task) (notFinish : ∀ i, action ≠ .finish i)
    (stepped : Steps (ThreadPool.shape threads) pool action pool') : pool'.line = pool.line := by
  cases stepped with
  | @take i task rest lt passed head =>
      have none_held : pool.task i = none := by
        by_contra held
        cases passed.symm.trans (accounted.busy held).2
      funext j
      by_cases eq : j = i
      · subst eq
        have queued : pool.tasks j = task :: rest := head
        simp [line, none_held, queued, ThreadPool.shape]
      · simp [line, eq, ThreadPool.shape]
  | enqueue => exact absurd rfl (notEnqueue _ _)
  | finish => exact absurd rfl (notFinish _)
  | lock | pass | fail | block | retire | wake | miss | store | notifyAll | join => rfl

/-! ## Counting the tasks -/

/-- `ThreadPool` with its tasks counted. -/
def counted (pool : TaskPool τ) : ThreadPool where
  workers := pool.workers
  tasks queue := (pool.tasks queue).length
  stop := pool.stop
  owner := pool.owner

def Action.counted : Action τ → Threads.Action
  | .lock i => .lock i
  | .test i => .test i
  | .block i => .block i
  | .leave i => .leave i
  | .finish i => .finish i
  | .enqueue queue _ => .enqueue queue
  | .notifyOne queue _ => .notifyOne queue
  | .store => .store
  | .notifyAll queue => .notifyAll queue
  | .join i => .join i

theorem counted_update (pool : TaskPool τ) (queue : Nat) (tasks : List τ) :
    (fun other => (Function.update pool.tasks queue tasks other).length) =
      Function.update pool.counted.tasks queue tasks.length :=
  funext (Function.apply_update (fun _ => List.length) pool.tasks queue tasks)

/-- The pools with their tasks do what the pools that count them do. -/
theorem Watched.step_counted (watched : pool.Watched (ThreadPool.shape threads))
    (stepped : Steps (ThreadPool.shape threads) pool action pool') :
    pool.counted.step threads action.counted = some pool'.counted := by
  cases stepped with
  | lock lt waits unlocked => exact if_pos ⟨lt, waits⟩
  | @pass i lt locked ready =>
      have isReady : pool.counted.ready i = true := by
        simpa [ThreadPool.ready, TaskPool.counted, ThreadPool.shape] using ready
      refine (if_pos ⟨lt, locked⟩).trans ?_
      rw [if_pos isReady]
      rfl
  | @fail i lt locked running empty =>
      have notReady : pool.counted.ready i = false := by
        simpa [ThreadPool.ready, TaskPool.counted, ThreadPool.shape, running] using empty
      refine (if_pos ⟨lt, locked⟩).trans ?_
      rw [notReady]
      rfl
  | block lt failed => exact if_pos ⟨lt, failed⟩
  | @retire i lt passed stopped empty =>
      refine (if_pos ⟨lt, passed⟩).trans (if_pos ⟨stopped, ?_⟩)
      exact congrArg List.length empty
  | @take i task rest lt passed head =>
      have length : pool.counted.tasks i = rest.length + 1 := congrArg List.length head
      refine (if_pos ⟨lt, passed⟩).trans ((if_neg ?_).trans ?_)
      · rintro ⟨_, empty⟩
        rw [length] at empty
        cases empty
      · rw [length]
        exact congrArg some (congrArg
          (fun tasks => { pool.counted.setWorker i .running with tasks := tasks })
          (counted_update pool i rest).symm)
  | finish lt running => exact if_pos ⟨lt, running⟩
  | @enqueue queue task lt owner unlocked =>
      have free : (pool.counted.workers queue).holds = false := unlocked queue lt rfl
      refine (if_pos ⟨lt, owner, by rw [free]; rfl⟩).trans ?_
      have length : (pool.tasks queue ++ [task]).length = pool.counted.tasks queue + 1 :=
        List.length_append
      rw [← length, ← counted_update]
      rfl
  | @wake queue i owner wakes =>
      obtain ⟨lt, rfl, blocked⟩ := wakes
      refine (if_pos owner).trans ?_
      have woken : (pool.counted.workers i).notify = .woken := congrArg Worker.notify blocked
      change some { pool.counted.setWorker i (pool.counted.workers i).notify with
        owner := .using } = _
      rw [woken]
      rfl
  | @miss queue owner wakes =>
      have awake := wakes queue (watched.notifying owner) rfl
      have same : (pool.counted.workers queue).notify = pool.counted.workers queue := by
        cases phase : pool.counted.workers queue with
        | blocked => exact absurd phase awake
        | outside | locked | failed | woken | passed | running | returned => rfl
      refine (if_pos owner).trans ?_
      rw [same]
      exact congrArg some (congrArg
        (fun workers => { pool.counted with workers := workers, owner := .using })
        (Function.update_eq_self queue pool.counted.workers))
  | store owner => exact if_pos owner
  | @notifyAll queue lt owner =>
      refine (if_pos ⟨lt, owner⟩).trans ?_
      have workers : Function.update pool.workers queue (pool.workers queue).notify =
          fun i => if (ThreadPool.shape threads).queueOf i = queue then (pool.workers i).notify
            else pool.workers i := by
        funext i
        by_cases eq : i = queue
        · subst eq
          exact (Function.update_self _ _ _).trans (if_pos rfl).symm
        · exact (Function.update_of_ne eq _ _).trans (if_neg eq).symm
      exact congrArg some (congrArg
        (fun workers => { pool.counted with workers := workers, owner := .stopping (queue + 1) })
        workers)
  | join lt returned owner => exact if_pos ⟨lt, returned, owner⟩

/-- Every run of the pools with their tasks is a run of those that count them. -/
theorem counted_of_reachable {state : TaskPool τ × Journal τ}
    (reachable : (system (ThreadPool.shape threads)).Reachable state) :
    (ThreadPool.system threads).Reachable state.1.counted := by
  refine System.reachable_of_simulation (fun state => state.1.counted) ?_ ?_ reachable
  · rintro _ rfl
    rfl
  · intro state action next before advanced
    exact .inr ⟨action.counted,
      (kept_of_reachable before).1.step_counted (steps_of_advance advanced).1⟩

end TaskPool

end ZnsLsm.Threads
