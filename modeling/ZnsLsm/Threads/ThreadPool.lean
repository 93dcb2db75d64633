import Mathlib.Data.List.Basic
import Mathlib.Logic.Function.Basic
import ZnsLsm.Transition

/-!
# The thread pool

`ThreadPool` gives every worker its own task queue, mutex and condition variable.  The
model has one step for each atomic action of a worker and of the thread that owns the
pool: `wait(lock, pred)` is the loop that tests the predicate with the mutex held and,
if it fails, blocks and releases the mutex in one action.  Nothing wakes a blocked worker
but a notification.
-/

namespace ZnsLsm.Threads

open ZnsLsm.Transition

/-- Where a worker stands in its loop. -/
inductive Worker
  /-- Before `unique_lock`. -/
  | outside
  /-- With the mutex, before the test of the predicate. -/
  | locked
  /-- With the mutex, after a test that failed, about to block. -/
  | failed
  /-- Blocked on its condition variable. -/
  | blocked
  /-- Notified, before the mutex is taken again. -/
  | woken
  /-- With the mutex, behind `wait`. -/
  | passed
  /-- Running a task. -/
  | running
  | returned
  deriving DecidableEq, Repr

/-- Where the owner of the pool stands. -/
inductive Owner
  /-- The pool is in use. -/
  | using
  /-- In `enqueue`, before `condition[index].notify_one()`. -/
  | notifying (index : Nat)
  /-- In the destructor: `stop` is set, and the first `notified` conditions are notified. -/
  | stopping (notified : Nat)
  /-- In the destructor, before `workers[joined].join()`. -/
  | joining (joined : Nat)
  deriving DecidableEq, Repr

/-- The state of a pool; a task queue counts its tasks. -/
structure ThreadPool where
  workers : Nat → Worker
  tasks : Nat → Nat
  stop : Bool
  owner : Owner

/-- The atomic actions. -/
inductive Action
  /-- `unique_lock`, and the end of a wake-up. -/
  | lock (i : Nat)
  /-- The test of the predicate. -/
  | test (i : Nat)
  /-- Block on the condition and release the mutex. -/
  | block (i : Nat)
  /-- Behind `wait`: return, or take a task; release the mutex. -/
  | leave (i : Nat)
  /-- The task is done. -/
  | finish (i : Nat)
  /-- `enqueue` up to the end of its critical section. -/
  | enqueue (i : Nat)
  | notifyOne (i : Nat)
  /-- `stop.store(true)`. -/
  | store
  | notifyAll (i : Nat)
  | join (i : Nat)
  deriving DecidableEq, Repr

/-- A worker holds its mutex. -/
def Worker.holds : Worker → Bool
  | .locked | .failed | .passed => true
  | _ => false

/-- A notification reaches a worker only if it is blocked. -/
def Worker.notify : Worker → Worker
  | .blocked => .woken
  | worker => worker

namespace ThreadPool

/-- The predicate that workers wait for. -/
def ready (pool : ThreadPool) (i : Nat) : Bool :=
  pool.stop || pool.tasks i != 0

def setWorker (pool : ThreadPool) (i : Nat) (worker : Worker) : ThreadPool :=
  { pool with workers := Function.update pool.workers i worker }

/-- One atomic action in a pool of `threads` workers. -/
def step (threads : Nat) (pool : ThreadPool) : Action → Option ThreadPool
  | .lock i =>
      if i < threads ∧ (pool.workers i = .outside ∨ pool.workers i = .woken) then
        some (pool.setWorker i .locked)
      else
        none
  | .test i =>
      if i < threads ∧ pool.workers i = .locked then
        some (pool.setWorker i (if pool.ready i then .passed else .failed))
      else
        none
  | .block i =>
      if i < threads ∧ pool.workers i = .failed then some (pool.setWorker i .blocked) else none
  | .leave i =>
      if i < threads ∧ pool.workers i = .passed then
        if pool.stop ∧ pool.tasks i = 0 then
          some (pool.setWorker i .returned)
        else
          some
            { pool.setWorker i .running with
              tasks := Function.update pool.tasks i (pool.tasks i - 1) }
      else
        none
  | .finish i =>
      if i < threads ∧ pool.workers i = .running then some (pool.setWorker i .outside) else none
  | .enqueue i =>
      if i < threads ∧ pool.owner = .using ∧ !(pool.workers i).holds then
        some
          { pool with
            tasks := Function.update pool.tasks i (pool.tasks i + 1)
            owner := .notifying i }
      else
        none
  | .notifyOne i =>
      if pool.owner = .notifying i then
        some { pool.setWorker i (pool.workers i).notify with owner := .using }
      else
        none
  | .store =>
      if pool.owner = .using then
        some { pool with stop := true, owner := .stopping 0 }
      else
        none
  | .notifyAll i =>
      if i < threads ∧ pool.owner = .stopping i then
        some { pool.setWorker i (pool.workers i).notify with owner := .stopping (i + 1) }
      else
        none
  | .join i =>
      if i < threads ∧ pool.workers i = .returned ∧
          (pool.owner = .joining i ∨ i = 0 ∧ pool.owner = .stopping threads) then
        some { pool with owner := .joining (i + 1) }
      else
        none

/-- The constructor. -/
def new : ThreadPool where
  workers := fun _ => .outside
  tasks := fun _ => 0
  stop := false
  owner := .using

/-- All interleavings of the workers and the owner. -/
def system (threads : Nat) : System ThreadPool Action where
  Init pool := pool = new
  Step pool action pool' := pool.step threads action = some pool'

end ThreadPool

end ZnsLsm.Threads
