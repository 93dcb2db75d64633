import ZnsLsm.Threads.ThreadPool

/-!
# Shutting a thread pool down

The destructor sets `stop` and notifies without the mutexes of the workers.  A worker
that has found nothing to do, but has not blocked yet, misses the notification and blocks
for ever.  That window is the only way to strand a worker.
-/

namespace ZnsLsm.Threads

open ZnsLsm.Transition

namespace ThreadPool

/-- The destructor is past all of its notifications. -/
def Announced (threads : Nat) (pool : ThreadPool) : Prop :=
  pool.owner = .stopping threads ∨ ∃ joined, pool.owner = .joining joined

/-- A worker is blocked and nobody is left to notify it. -/
def Stranded (threads : Nat) (pool : ThreadPool) : Prop :=
  pool.Announced threads ∧ ∃ i < threads, pool.workers i = .blocked

/-- No notification of the destructor falls between a failed test of its worker and the
blocking. -/
def Timely (pool : ThreadPool) : Action → Prop
  | .notifyAll i => pool.workers i ≠ .failed
  | _ => True

/-- The destructor has notified worker `i`. -/
def Notified (pool : ThreadPool) (i : Nat) : Prop :=
  (∃ notified, pool.owner = .stopping notified ∧ i < notified) ∨
    ∃ joined, pool.owner = .joining joined

/-- The invariant: the destructor runs with `stop` set, and a worker that it has notified
neither blocks nor is going to. -/
structure Attended (threads : Nat) (pool : ThreadPool) : Prop where
  stopped : ∀ {count}, pool.owner = .stopping count ∨ pool.owner = .joining count →
    pool.stop = true
  awake : ∀ {i}, i < threads → pool.Notified i →
    pool.workers i ≠ .failed ∧ pool.workers i ≠ .blocked

instance (pool : ThreadPool) : (action : Action) → Decidable (pool.Timely action)
  | .notifyAll i => inferInstanceAs (Decidable (pool.workers i ≠ .failed))
  | .lock _ | .test _ | .block _ | .leave _ | .finish _ | .enqueue _ | .notifyOne _ | .store
  | .join _ => inferInstanceAs (Decidable True)

section Shutdown

variable {threads : Nat} {pool pool' : ThreadPool}

/-- Before the destructor runs nothing is demanded. -/
theorem attended_of_running (notStopping : ∀ count, pool.owner ≠ .stopping count)
    (notJoining : ∀ count, pool.owner ≠ .joining count) : pool.Attended threads where
  stopped owner := by
    rcases owner with owner | owner
    · exact absurd owner (notStopping _)
    · exact absurd owner (notJoining _)
  awake _ notified := by
    rcases notified with ⟨count, owner, _⟩ | ⟨count, owner⟩
    · exact absurd owner (notStopping count)
    · exact absurd owner (notJoining count)

theorem attended_new : new.Attended threads :=
  attended_of_running (fun _ owner => by cases owner) (fun _ owner => by cases owner)

/-- A notified worker finds `stop` set, so its test succeeds. -/
theorem Attended.stop_of_notified (attended : pool.Attended threads) {i : Nat}
    (notified : pool.Notified i) : pool.stop = true := by
  rcases notified with ⟨_, owner, _⟩ | ⟨_, owner⟩
  · exact attended.stopped (.inl owner)
  · exact attended.stopped (.inr owner)

/-- A step of one worker that neither blocks nor fails the test after `stop` is set. -/
theorem Attended.setWorker (attended : pool.Attended threads) {i : Nat} {worker : Worker}
    (tasks : Nat → Nat)
    (harmless : pool.Notified i → worker ≠ .failed ∧ worker ≠ .blocked) :
    ({ pool.setWorker i worker with tasks := tasks } : ThreadPool).Attended threads where
  stopped owner := attended.stopped owner
  awake {j} lt notified := by
    by_cases same : j = i
    · subst same
      simpa [ThreadPool.setWorker] using harmless notified
    · simpa [ThreadPool.setWorker, Function.update_of_ne same] using attended.awake lt notified

/-- A timely notification wakes its worker, and the others stay as they are. -/
theorem Attended.notifyAll (attended : pool.Attended threads) {i : Nat}
    (timely : pool.workers i ≠ .failed) (owner : pool.owner = .stopping i) :
    ({ pool.setWorker i (pool.workers i).notify with
        owner := .stopping (i + 1) } : ThreadPool).Attended threads where
  stopped _ := attended.stopped (.inl owner)
  awake {j} lt notified := by
    by_cases same : j = i
    · subst same
      simp only [ThreadPool.setWorker, Function.update_self]
      cases worker : pool.workers j <;> simp_all [Worker.notify]
    · simp only [ThreadPool.setWorker, Function.update_of_ne same]
      apply attended.awake lt
      rcases notified with ⟨_, owner', before⟩ | ⟨_, owner'⟩
      · cases owner'
        exact .inl ⟨i, owner, Nat.lt_of_le_of_ne (Nat.le_of_lt_succ before) same⟩
      · cases owner'

/-- Every worker is notified before the first one is joined. -/
theorem Attended.join (attended : pool.Attended threads) {i joined : Nat}
    (owner : pool.owner = .joining i ∨ i = 0 ∧ pool.owner = .stopping threads) :
    ({ pool with owner := .joining joined } : ThreadPool).Attended threads where
  stopped _ := by
    rcases owner with owner | ⟨_, owner⟩
    · exact attended.stopped (.inr owner)
    · exact attended.stopped (.inl owner)
  awake lt _ := by
    apply attended.awake lt
    rcases owner with owner | ⟨_, owner⟩
    · exact .inr ⟨i, owner⟩
    · exact .inl ⟨threads, owner, lt⟩

/-- Step lemma: the invariant survives every action but an untimely notification. -/
theorem Attended.step (attended : pool.Attended threads) {action : Action}
    (timely : pool.Timely action) (stepped : pool.step threads action = some pool') :
    pool'.Attended threads := by
  cases action with
  | lock i =>
      obtain ⟨-, rfl⟩ := Option.ite_none_right_eq_some.mp stepped |>.imp_right Option.some.inj
      exact attended.setWorker pool.tasks fun _ => by simp
  | test i =>
      obtain ⟨-, rfl⟩ := Option.ite_none_right_eq_some.mp stepped |>.imp_right Option.some.inj
      apply attended.setWorker pool.tasks
      intro notified
      simp [ready, attended.stop_of_notified notified]
  | block i =>
      obtain ⟨⟨lt, failed⟩, rfl⟩ :=
        Option.ite_none_right_eq_some.mp stepped |>.imp_right Option.some.inj
      apply attended.setWorker pool.tasks
      intro notified
      exact absurd failed (attended.awake lt notified).1
  | leave i =>
      obtain ⟨-, rest⟩ := Option.ite_none_right_eq_some.mp stepped
      split at rest
      · cases rest
        exact attended.setWorker pool.tasks fun _ => by simp
      · cases rest
        exact attended.setWorker _ fun _ => by simp
  | finish i =>
      obtain ⟨-, rfl⟩ := Option.ite_none_right_eq_some.mp stepped |>.imp_right Option.some.inj
      exact attended.setWorker pool.tasks fun _ => by simp
  | enqueue i =>
      obtain ⟨-, rfl⟩ := Option.ite_none_right_eq_some.mp stepped |>.imp_right Option.some.inj
      exact attended_of_running (fun _ owner => by cases owner) (fun _ owner => by cases owner)
  | notifyOne i =>
      obtain ⟨-, rfl⟩ := Option.ite_none_right_eq_some.mp stepped |>.imp_right Option.some.inj
      exact attended_of_running (fun _ owner => by cases owner) (fun _ owner => by cases owner)
  | store =>
      obtain ⟨-, rfl⟩ := Option.ite_none_right_eq_some.mp stepped |>.imp_right Option.some.inj
      constructor
      · intro count _
        rfl
      · intro j _ notified
        rcases notified with ⟨_, owner, before⟩ | ⟨_, owner⟩
        · cases owner
          exact absurd before (Nat.not_lt_zero j)
        · cases owner
  | notifyAll i =>
      obtain ⟨⟨_, owner⟩, rfl⟩ :=
        Option.ite_none_right_eq_some.mp stepped |>.imp_right Option.some.inj
      exact attended.notifyAll timely owner
  | join i =>
      obtain ⟨⟨_, _, owner⟩, rfl⟩ :=
        Option.ite_none_right_eq_some.mp stepped |>.imp_right Option.some.inj
      exact attended.join owner

theorem not_stranded_of_attended
    (reachable : ((system threads).guarded Timely).Reachable pool) : ¬pool.Stranded threads := by
  have attended : pool.Attended threads :=
    System.invariant_of_reachable (P := fun pool => pool.Attended threads)
      (fun pool built => built ▸ attended_new)
      (fun _ _ _ attended ⟨timely, stepped⟩ => attended.step timely stepped) reachable
  rintro ⟨announced, i, lt, blocked⟩
  refine (attended.awake lt ?_).2 blocked
  rcases announced with owner | joining
  · exact .inl ⟨threads, owner, lt⟩
  · exact .inr joining

/-- The remaining notifications do not reach a worker that was blocked too late. -/
theorem stranded_of_blocked {i : Nat} (lt : i < threads) (left : Nat) {pool : ThreadPool}
    (owner : pool.owner = .stopping (threads - left)) (le : left < threads - i)
    (blocked : pool.workers i = .blocked) :
    ∃ actions pool', System.run (step threads) (fun _ _ => True) pool actions = some pool' ∧
      pool'.Stranded threads := by
  induction left generalizing pool with
  | zero => exact ⟨[], pool, rfl, .inl owner, i, lt, blocked⟩
  | succ left ih =>
      obtain ⟨next, nextDef⟩ : ∃ next, next = threads - (left + 1) := ⟨_, rfl⟩
      have ne : i ≠ next := by omega
      rw [← nextDef] at owner
      have notified : pool.step threads (.notifyAll next) =
          some { pool.setWorker next (pool.workers next).notify with
            owner := .stopping (next + 1) } :=
        if_pos ⟨by omega, owner⟩
      have owner' : ({ pool.setWorker next (pool.workers next).notify with
          owner := .stopping (next + 1) } : ThreadPool).owner = .stopping (threads - left) :=
        congrArg Owner.stopping (by omega)
      obtain ⟨actions, pool', ran, stranded⟩ := ih owner' (by omega)
        ((Function.update_of_ne ne ..).trans blocked)
      refine ⟨.notifyAll next :: actions, pool', ?_, stranded⟩
      rw [System.run, List.foldlM_cons, if_pos trivial, notified]
      exact ran

/-- A notification that comes too early for its worker strands it in some continuation. -/
theorem stranded_of_untimely {i : Nat} (lt : i < threads) (owner : pool.owner = .stopping i)
    (failed : pool.workers i = .failed) :
    ∃ actions pool', System.run (step threads) (fun _ _ => True) pool actions = some pool' ∧
      pool'.Stranded threads := by
  have notified : pool.step threads (.notifyAll i) =
      some { pool.setWorker i (pool.workers i).notify with owner := .stopping (i + 1) } :=
    if_pos ⟨lt, owner⟩
  obtain ⟨after, afterDef⟩ : ∃ after : ThreadPool,
    after = { pool.setWorker i (pool.workers i).notify with owner := .stopping (i + 1) } :=
      ⟨_, rfl⟩
  have stillFailed : after.workers i = .failed := by
    simp [afterDef, ThreadPool.setWorker, failed, Worker.notify]
  have blocked : after.step threads (.block i) = some (after.setWorker i .blocked) :=
    if_pos ⟨lt, stillFailed⟩
  have owner' : (after.setWorker i .blocked).owner =
      .stopping (threads - (threads - (i + 1))) := by
    rw [Nat.sub_sub_self lt, afterDef]
    rfl
  obtain ⟨actions, pool', ran, stranded⟩ := stranded_of_blocked lt (threads - (i + 1)) owner'
    (by omega) (Function.update_self ..)
  refine ⟨.notifyAll i :: .block i :: actions, pool', ?_, stranded⟩
  rw [System.run, List.foldlM_cons, if_pos trivial, notified, ← afterDef, Option.bind_eq_bind,
    Option.bind_some, List.foldlM_cons, if_pos trivial, blocked]
  exact ran

/-- No worker is stranded as long as every notification of the destructor comes in time,
and a notification that does not lets its worker be stranded. -/
theorem stranded_exactly_if_untimely (threads : Nat) :
    (∀ pool, ((system threads).guarded Timely).Reachable pool → ¬pool.Stranded threads) ∧
      ∀ pool i, (system threads).Reachable pool → i < threads → pool.owner = .stopping i →
        ¬pool.Timely (.notifyAll i) →
        ∃ actions pool', System.run (step threads) (fun _ _ => True) pool actions = some pool' ∧
          pool'.Stranded threads := by
  constructor
  · intro pool reachable
    exact not_stranded_of_attended reachable
  · intro pool i _ lt owner untimely
    exact stranded_of_untimely lt owner (not_not.mp untimely)

/-- One worker that blocks before the destructor comes. -/
theorem not_stranded_after_block :
    ∃ pool, System.run (step 1) Timely new
        [.lock 0, .test 0, .block 0, .store, .notifyAll 0] = some pool ∧
      ¬pool.Stranded 1 := by
  obtain ⟨pool, ran⟩ := Option.isSome_iff_exists.mp
    (show (System.run (step 1) Timely new
      [.lock 0, .test 0, .block 0, .store, .notifyAll 0]).isSome by decide)
  have reachable : ((system 1).guarded Timely).Reachable pool :=
    System.reachable_of_run (fun stepped => stepped) rfl ran
  exact ⟨pool, ran, (stranded_exactly_if_untimely 1).1 pool reachable⟩

/-- One worker that has tested before `stop` is set and blocks after the notification. -/
theorem stranded_after_late_block :
    ¬∀ threads pool, (system threads).Reachable pool → ¬pool.Stranded threads := by
  intro never
  obtain ⟨pool, ran, last⟩ : ∃ pool,
      System.run (step 1) (fun _ _ => True) new
          [.lock 0, .test 0, .store, .notifyAll 0, .block 0] = some pool ∧
        (pool.owner, pool.workers 0) = (.stopping 1, .blocked) :=
    Option.map_eq_some_iff.mp (by decide)
  obtain ⟨owner, blocked⟩ := Prod.mk.inj last
  have reachable : ((system 1).guarded fun _ _ => True).Reachable pool :=
    System.reachable_of_run (fun stepped => stepped) rfl ran
  exact never 1 pool (System.reachable_of_guarded reachable)
    ⟨.inl owner, 0, Nat.one_pos, blocked⟩

end Shutdown

end ThreadPool

end ZnsLsm.Threads
