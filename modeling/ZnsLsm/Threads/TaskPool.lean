import ZnsLsm.Threads.ThreadPool

/-!
# Pools and their tasks

`ThreadPool` and `ReadPool` run the same loop: a worker waits on the condition of a queue
until the queue has a task or the pool is stopped, takes the oldest task and runs it.  In
`ThreadPool` every worker has a queue, a mutex and a condition of its own; in `ReadPool` all
workers share one.  The model keeps the tasks themselves, and a journal of them beside the
pool.
-/

namespace ZnsLsm.Threads

open ZnsLsm.Transition

universe u

/-! ## Workers and queues -/

/-- Which queue each worker serves; every queue has a worker. -/
structure Shape where
  threads : Nat
  queues : Nat
  queueOf : Nat → Nat
  server : Nat → Nat
  queueOf_lt : ∀ {i : Nat}, i < threads → queueOf i < queues
  server_lt : ∀ {queue : Nat}, queue < queues → server queue < threads
  queueOf_server : ∀ {queue : Nat}, queue < queues → queueOf (server queue) = queue

/-- `ThreadPool(threads)`. -/
def ThreadPool.shape (threads : Nat) : Shape where
  threads := threads
  queues := threads
  queueOf := id
  server := id
  queueOf_lt lt := lt
  server_lt lt := lt
  queueOf_server _ := rfl

/-- `ReadPool(threads)`. -/
def ReadPool.shape (threads : Nat) (pos : 0 < threads) : Shape where
  threads := threads
  queues := 1
  queueOf _ := 0
  server _ := 0
  queueOf_lt _ := Nat.one_pos
  server_lt _ := pos
  queueOf_server lt := (Nat.lt_one_iff.mp lt).symm

/-- The state of a pool. -/
structure TaskPool (τ : Type u) where
  workers : Nat → Worker
  /-- The task that a worker has taken and not finished. -/
  task : Nat → Option τ
  tasks : Nat → List τ
  stop : Bool
  owner : Owner

namespace TaskPool

variable {τ : Type u}

/-- The atomic actions. -/
inductive Action (τ : Type u)
  | lock (i : Nat)
  | test (i : Nat)
  | block (i : Nat)
  | leave (i : Nat)
  | finish (i : Nat)
  | enqueue (queue : Nat) (task : τ)
  /-- `notify_one`, and the worker that it wakes. -/
  | notifyOne (queue : Nat) (woken : Option Nat)
  | store
  | notifyAll (queue : Nat)
  | join (i : Nat)

/-- Nobody holds the mutex of the queue. -/
def Unlocked (shape : Shape) (pool : TaskPool τ) (queue : Nat) : Prop :=
  ∀ i < shape.threads, shape.queueOf i = queue → (pool.workers i).holds = false

instance (shape : Shape) (pool : TaskPool τ) (queue : Nat) :
    Decidable (pool.Unlocked shape queue) :=
  inferInstanceAs (Decidable (∀ i < shape.threads, _))

/-- `notify_one` wakes one of the workers blocked on the condition, if there is one. -/
def Wakes (shape : Shape) (pool : TaskPool τ) (queue : Nat) : Option Nat → Prop
  | some i => i < shape.threads ∧ shape.queueOf i = queue ∧ pool.workers i = .blocked
  | none => ∀ i < shape.threads, shape.queueOf i = queue → pool.workers i ≠ .blocked

instance (shape : Shape) (pool : TaskPool τ) (queue : Nat) :
    (woken : Option Nat) → Decidable (pool.Wakes shape queue woken)
  | some i => inferInstanceAs
      (Decidable (i < shape.threads ∧ shape.queueOf i = queue ∧ pool.workers i = .blocked))
  | none => inferInstanceAs (Decidable (∀ i < shape.threads, _))

def setWorker (pool : TaskPool τ) (i : Nat) (worker : Worker) : TaskPool τ :=
  { pool with workers := Function.update pool.workers i worker }

@[simp]
theorem setWorker_self (pool : TaskPool τ) (i : Nat) (worker : Worker) :
    (pool.setWorker i worker).workers i = worker :=
  Function.update_self _ _ _

@[simp]
theorem setWorker_of_ne (pool : TaskPool τ) {i j : Nat} (ne : j ≠ i) (worker : Worker) :
    (pool.setWorker i worker).workers j = pool.workers j :=
  Function.update_of_ne ne _ _

/-- The predicate that the workers of a queue wait for. -/
def ready (pool : TaskPool τ) (queue : Nat) : Bool :=
  pool.stop || !(pool.tasks queue).isEmpty

/-- One atomic action.  To take a task from an empty queue is undefined. -/
def step (shape : Shape) (pool : TaskPool τ) : Action τ → Option (TaskPool τ)
  | .lock i =>
      if i < shape.threads ∧ (pool.workers i = .outside ∨ pool.workers i = .woken) ∧
          pool.Unlocked shape (shape.queueOf i) then
        some (pool.setWorker i .locked)
      else
        none
  | .test i =>
      if i < shape.threads ∧ pool.workers i = .locked then
        some (pool.setWorker i (if pool.ready (shape.queueOf i) then .passed else .failed))
      else
        none
  | .block i =>
      if i < shape.threads ∧ pool.workers i = .failed then
        some (pool.setWorker i .blocked)
      else
        none
  | .leave i =>
      if i < shape.threads ∧ pool.workers i = .passed then
        match pool.tasks (shape.queueOf i) with
        | [] => if pool.stop then some (pool.setWorker i .returned) else none
        | task :: rest =>
            some
              { pool.setWorker i .running with
                task := Function.update pool.task i (some task)
                tasks := Function.update pool.tasks (shape.queueOf i) rest }
      else
        none
  | .finish i =>
      if i < shape.threads ∧ pool.workers i = .running then
        some { pool.setWorker i .outside with task := Function.update pool.task i none }
      else
        none
  | .enqueue queue task =>
      if queue < shape.queues ∧ pool.owner = .using ∧ pool.Unlocked shape queue then
        some
          { pool with
            tasks := Function.update pool.tasks queue (pool.tasks queue ++ [task])
            owner := .notifying queue }
      else
        none
  | .notifyOne queue woken =>
      if pool.owner = .notifying queue ∧ pool.Wakes shape queue woken then
        match woken with
        | some i => some { pool.setWorker i .woken with owner := .using }
        | none => some { pool with owner := .using }
      else
        none
  | .store =>
      if pool.owner = .using then
        some { pool with stop := true, owner := .stopping 0 }
      else
        none
  | .notifyAll queue =>
      if queue < shape.queues ∧ pool.owner = .stopping queue then
        some
          { pool with
            workers := fun i =>
              if shape.queueOf i = queue then (pool.workers i).notify else pool.workers i
            owner := .stopping (queue + 1) }
      else
        none
  | .join i =>
      if i < shape.threads ∧ pool.workers i = .returned ∧
          (pool.owner = .joining i ∨ i = 0 ∧ pool.owner = .stopping shape.queues) then
        some { pool with owner := .joining (i + 1) }
      else
        none

/-- The constructor. -/
def new : TaskPool τ where
  workers := fun _ => .outside
  task := fun _ => none
  tasks := fun _ => []
  stop := false
  owner := .using

/-! ## What an action does -/

/-- The cases of `step`. -/
inductive Steps (shape : Shape) (pool : TaskPool τ) : Action τ → TaskPool τ → Prop
  | lock {i : Nat} (lt : i < shape.threads)
      (waits : pool.workers i = .outside ∨ pool.workers i = .woken)
      (unlocked : pool.Unlocked shape (shape.queueOf i)) :
      Steps shape pool (.lock i) (pool.setWorker i .locked)
  | pass {i : Nat} (lt : i < shape.threads) (locked : pool.workers i = .locked)
      (ready : pool.stop = true ∨ pool.tasks (shape.queueOf i) ≠ []) :
      Steps shape pool (.test i) (pool.setWorker i .passed)
  | fail {i : Nat} (lt : i < shape.threads) (locked : pool.workers i = .locked)
      (running : pool.stop = false) (empty : pool.tasks (shape.queueOf i) = []) :
      Steps shape pool (.test i) (pool.setWorker i .failed)
  | block {i : Nat} (lt : i < shape.threads) (failed : pool.workers i = .failed) :
      Steps shape pool (.block i) (pool.setWorker i .blocked)
  | retire {i : Nat} (lt : i < shape.threads) (passed : pool.workers i = .passed)
      (stopped : pool.stop = true) (empty : pool.tasks (shape.queueOf i) = []) :
      Steps shape pool (.leave i) (pool.setWorker i .returned)
  | take {i : Nat} {task : τ} {rest : List τ} (lt : i < shape.threads)
      (passed : pool.workers i = .passed) (head : pool.tasks (shape.queueOf i) = task :: rest) :
      Steps shape pool (.leave i)
        { pool.setWorker i .running with
          task := Function.update pool.task i (some task)
          tasks := Function.update pool.tasks (shape.queueOf i) rest }
  | finish {i : Nat} (lt : i < shape.threads) (running : pool.workers i = .running) :
      Steps shape pool (.finish i)
        { pool.setWorker i .outside with task := Function.update pool.task i none }
  | enqueue {queue : Nat} {task : τ} (lt : queue < shape.queues) (owner : pool.owner = .using)
      (unlocked : pool.Unlocked shape queue) :
      Steps shape pool (.enqueue queue task)
        { pool with
          tasks := Function.update pool.tasks queue (pool.tasks queue ++ [task])
          owner := .notifying queue }
  | wake {queue i : Nat} (owner : pool.owner = .notifying queue)
      (wakes : pool.Wakes shape queue (some i)) :
      Steps shape pool (.notifyOne queue (some i))
        { pool.setWorker i .woken with owner := .using }
  | miss {queue : Nat} (owner : pool.owner = .notifying queue)
      (wakes : pool.Wakes shape queue none) :
      Steps shape pool (.notifyOne queue none) { pool with owner := .using }
  | store (owner : pool.owner = .using) :
      Steps shape pool .store { pool with stop := true, owner := .stopping 0 }
  | notifyAll {queue : Nat} (lt : queue < shape.queues) (owner : pool.owner = .stopping queue) :
      Steps shape pool (.notifyAll queue)
        { pool with
          workers := fun i =>
            if shape.queueOf i = queue then (pool.workers i).notify else pool.workers i
          owner := .stopping (queue + 1) }
  | join {i : Nat} (lt : i < shape.threads) (returned : pool.workers i = .returned)
      (owner : pool.owner = .joining i ∨ i = 0 ∧ pool.owner = .stopping shape.queues) :
      Steps shape pool (.join i) { pool with owner := .joining (i + 1) }

@[simp]
theorem ready_iff {pool : TaskPool τ} {queue : Nat} :
    pool.ready queue = true ↔ pool.stop = true ∨ pool.tasks queue ≠ [] := by
  simp [ready]

theorem steps_of_step {shape : Shape} {pool pool' : TaskPool τ} {action : Action τ}
    (stepped : pool.step shape action = some pool') : Steps shape pool action pool' := by
  cases action with
  | lock i =>
      obtain ⟨⟨lt, waits, unlocked⟩, ⟨⟩⟩ := Option.ite_none_right_eq_some.mp stepped
      exact .lock lt waits unlocked
  | test i =>
      obtain ⟨⟨lt, locked⟩, taken⟩ := Option.ite_none_right_eq_some.mp stepped
      by_cases ready : pool.ready (shape.queueOf i) = true
      · rw [if_pos ready] at taken
        obtain rfl := Option.some.inj taken
        exact .pass lt locked (ready_iff.mp ready)
      · rw [if_neg ready] at taken
        obtain rfl := Option.some.inj taken
        rw [ready_iff, not_or, Bool.not_eq_true, not_not] at ready
        exact .fail lt locked ready.1 ready.2
  | block i =>
      obtain ⟨⟨lt, failed⟩, ⟨⟩⟩ := Option.ite_none_right_eq_some.mp stepped
      exact .block lt failed
  | leave i =>
      obtain ⟨⟨lt, passed⟩, taken⟩ := Option.ite_none_right_eq_some.mp stepped
      cases head : pool.tasks (shape.queueOf i) with
      | nil =>
          rw [head] at taken
          obtain ⟨stopped, ⟨⟩⟩ := Option.ite_none_right_eq_some.mp taken
          exact .retire lt passed stopped head
      | cons task rest =>
          rw [head] at taken
          obtain rfl := Option.some.inj taken
          exact .take lt passed head
  | finish i =>
      obtain ⟨⟨lt, running⟩, ⟨⟩⟩ := Option.ite_none_right_eq_some.mp stepped
      exact .finish lt running
  | enqueue queue task =>
      obtain ⟨⟨lt, owner, unlocked⟩, ⟨⟩⟩ := Option.ite_none_right_eq_some.mp stepped
      exact .enqueue lt owner unlocked
  | notifyOne queue woken =>
      obtain ⟨⟨owner, wakes⟩, taken⟩ := Option.ite_none_right_eq_some.mp stepped
      cases woken with
      | none =>
          obtain rfl := Option.some.inj taken
          exact .miss owner wakes
      | some i =>
          obtain rfl := Option.some.inj taken
          exact .wake owner wakes
  | store =>
      obtain ⟨owner, ⟨⟩⟩ := Option.ite_none_right_eq_some.mp stepped
      exact .store owner
  | notifyAll queue =>
      obtain ⟨⟨lt, owner⟩, ⟨⟩⟩ := Option.ite_none_right_eq_some.mp stepped
      exact .notifyAll lt owner
  | join i =>
      obtain ⟨⟨lt, returned, owner⟩, ⟨⟩⟩ := Option.ite_none_right_eq_some.mp stepped
      exact .join lt returned owner

end TaskPool

/-! ## The journal -/

/-- The tasks in order: sent, with their queues; taken and finished, with their workers. -/
structure Journal (τ : Type u) where
  sent : List (Nat × τ)
  taken : List (Nat × τ)
  finished : List (Nat × τ)

namespace Journal

variable {τ : Type u}

/-- What an action adds. -/
def note (shape : Shape) (pool : TaskPool τ) (journal : Journal τ) :
    TaskPool.Action τ → Journal τ
  | .enqueue queue task => { journal with sent := journal.sent ++ [(queue, task)] }
  | .leave i =>
      { journal with
        taken := journal.taken ++ ((pool.tasks (shape.queueOf i)).head?.map (i, ·)).toList }
  | .finish i =>
      { journal with finished := journal.finished ++ ((pool.task i).map (i, ·)).toList }
  | _ => journal

/-- The tasks of the entries that meet a condition, in order. -/
def select (P : Nat → Prop) [DecidablePred P] (entries : List (Nat × τ)) : List τ :=
  (entries.filter (P ·.1)).map Prod.snd

end Journal

namespace TaskPool

variable {τ : Type u}

/-- One atomic action, with the journal beside the pool. -/
def advance (shape : Shape) (state : TaskPool τ × Journal τ) (action : Action τ) :
    Option (TaskPool τ × Journal τ) :=
  (state.1.step shape action).map (·, state.2.note shape state.1 action)

/-- All interleavings of the workers and the owner. -/
def system (shape : Shape) : System (TaskPool τ × Journal τ) (Action τ) where
  Init state := state = (new, ⟨[], [], []⟩)
  Step state action next := advance shape state action = some next

theorem steps_of_advance {shape : Shape} {state next : TaskPool τ × Journal τ}
    {action : Action τ} (advanced : advance shape state action = some next) :
    Steps shape state.1 action next.1 ∧ next.2 = state.2.note shape state.1 action := by
  obtain ⟨pool', stepped, rfl⟩ := Option.map_eq_some_iff.mp advanced
  exact ⟨steps_of_step stepped, rfl⟩

end TaskPool

end ZnsLsm.Threads
