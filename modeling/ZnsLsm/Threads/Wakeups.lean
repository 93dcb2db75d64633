import ZnsLsm.Threads.TaskPool

/-!
# No wake-up is lost that a task needs

A task is sent with the mutex of its queue held, so no worker is then between a test that
failed and the blocking that follows.  Hence a queue with tasks always has a worker that is
going to look at it, or its notification is still to come.  The destructor does not take the
mutexes: it may strand a worker, but never a task.
-/

namespace ZnsLsm.Threads

open ZnsLsm.Transition

universe u

/-- The worker is going to look at its queue without another notification. -/
def Worker.Awake : Worker → Prop
  | .outside | .locked | .woken | .passed | .running => True
  | .failed | .blocked | .returned => False

namespace TaskPool

variable {τ : Type u} {shape : Shape} {pool pool' : TaskPool τ} {journal : Journal τ}
  {action : Action τ} {i queue : Nat}

/-! ## Mutexes and notifications -/

/-- What a worker of the queue knows where it stands. -/
def Suits (pool : TaskPool τ) (queue : Nat) : Worker → Prop
  /- While it is about to block, nothing is sent. -/
  | .failed => pool.tasks queue = []
  /- While it is behind `wait`, nothing is taken. -/
  | .passed => pool.stop = true ∨ pool.tasks queue ≠ []
  | .returned => pool.stop = true ∧ pool.tasks queue = []
  | _ => True

theorem Suits.of_eq {worker : Worker} (suits : pool.Suits queue worker)
    (stop : pool'.stop = pool.stop) (tasks : pool'.tasks queue = pool.tasks queue) :
    pool'.Suits queue worker := by
  cases worker with
  | failed => exact tasks.trans suits
  | passed => exact suits.imp stop.trans fun nonempty => by rwa [tasks]
  | returned => exact ⟨stop.trans suits.1, tasks.trans suits.2⟩
  | outside | locked | blocked | woken | running => trivial

/-- The invariant of mutexes, conditions and `stop`. -/
structure Watched (shape : Shape) (pool : TaskPool τ) : Prop where
  exclusive : ∀ {i j : Nat}, i < shape.threads → j < shape.threads →
    shape.queueOf i = shape.queueOf j → (pool.workers i).holds = true →
      (pool.workers j).holds = true → i = j
  suits : ∀ {i : Nat}, i < shape.threads → pool.Suits (shape.queueOf i) (pool.workers i)
  /-- A queue with tasks is looked at. -/
  attended : ∀ {queue : Nat}, queue < shape.queues → pool.tasks queue ≠ [] →
    pool.owner = .notifying queue ∨
      ∃ i < shape.threads, shape.queueOf i = queue ∧ (pool.workers i).Awake
  notifying : ∀ {queue : Nat}, pool.owner = .notifying queue → queue < shape.queues
  inUse : pool.owner = .using ∨ (∃ queue, pool.owner = .notifying queue) → pool.stop = false
  joined : ∀ {count : Nat}, pool.owner = .joining count → ∀ i < count, pool.workers i = .returned

theorem watched_new : (new : TaskPool τ).Watched shape where
  exclusive _ _ _ holds _ := by cases holds
  suits _ := trivial
  attended _ tasks := absurd rfl tasks
  notifying owner := by cases owner
  inUse _ := rfl
  joined owner := by cases owner

/-- The tasks in hand do not matter. -/
theorem Watched.setTask (watched : pool.Watched shape) (task : Nat → Option τ) :
    { pool with task := task }.Watched shape :=
  ⟨watched.exclusive, watched.suits, watched.attended, watched.notifying, watched.inUse,
    watched.joined⟩

theorem Watched.failed (watched : pool.Watched shape) (lt : i < shape.threads)
    (failed : pool.workers i = .failed) : pool.tasks (shape.queueOf i) = [] := by
  have suits := watched.suits lt
  rwa [failed] at suits

theorem Watched.passed (watched : pool.Watched shape) (lt : i < shape.threads)
    (passed : pool.workers i = .passed) :
    pool.stop = true ∨ pool.tasks (shape.queueOf i) ≠ [] := by
  have suits := watched.suits lt
  rwa [passed] at suits

theorem Watched.returned (watched : pool.Watched shape) (lt : i < shape.threads)
    (returned : pool.workers i = .returned) :
    pool.stop = true ∧ pool.tasks (shape.queueOf i) = [] := by
  have suits := watched.suits lt
  rwa [returned] at suits

/-- A step of one worker: it takes the mutex only if it is free, and does not go to sleep
with tasks in its queue. -/
theorem Watched.setWorker (watched : pool.Watched shape) {worker : Worker}
    (lt : i < shape.threads) (before : pool.workers i ≠ .returned)
    (holds : worker.holds = true →
      (pool.workers i).holds = true ∨ pool.Unlocked shape (shape.queueOf i))
    (suits : pool.Suits (shape.queueOf i) worker)
    (awake : worker.Awake ∨ pool.tasks (shape.queueOf i) = []) :
    (pool.setWorker i worker).Watched shape where
  exclusive {j k} ltJ ltK same holdsJ holdsK := by
    have alone : ∀ other < shape.threads, shape.queueOf other = shape.queueOf i → other ≠ i →
        worker.holds = true → (pool.workers other).holds = true → False := by
      intro other ltOther sameQueue ne takes held
      rcases holds takes with mine | unlocked
      · exact ne (watched.exclusive ltOther lt sameQueue held mine)
      · rw [unlocked other ltOther sameQueue] at held
        cases held
    by_cases eqJ : j = i
    · subst eqJ
      by_contra ne
      rw [setWorker_self] at holdsJ
      rw [setWorker_of_ne _ (Ne.symm ne)] at holdsK
      exact alone k ltK same.symm (Ne.symm ne) holdsJ holdsK
    · rw [setWorker_of_ne _ eqJ] at holdsJ
      by_cases eqK : k = i
      · subst eqK
        rw [setWorker_self] at holdsK
        exact absurd holdsJ fun held => alone j ltJ same eqJ holdsK held
      · rw [setWorker_of_ne _ eqK] at holdsK
        exact watched.exclusive ltJ ltK same holdsJ holdsK
  suits {j} ltJ := by
    by_cases eq : j = i
    · subst eq
      rw [setWorker_self]
      exact suits
    · rw [setWorker_of_ne _ eq]
      exact watched.suits ltJ
  attended {queue} ltQueue tasks := by
    refine (watched.attended ltQueue tasks).imp_right ?_
    rintro ⟨j, ltJ, rfl, awakeJ⟩
    refine ⟨j, ltJ, rfl, ?_⟩
    by_cases eq : j = i
    · subst eq
      rw [setWorker_self]
      exact awake.resolve_right tasks
    · rwa [setWorker_of_ne _ eq]
  notifying := watched.notifying
  inUse := watched.inUse
  joined {count} owner j less := by
    have isReturned := watched.joined owner j less
    rw [setWorker_of_ne]
    · exact isReturned
    · rintro rfl
      exact before isReturned

/-- The worker takes the oldest task; it has the mutex, so no other worker of the queue is
between its test and what follows. -/
theorem Watched.take (watched : pool.Watched shape) {task : τ} {rest : List τ}
    (lt : i < shape.threads) (passed : pool.workers i = .passed)
    (head : pool.tasks (shape.queueOf i) = task :: rest) :
    { pool.setWorker i .running with
      tasks := Function.update pool.tasks (shape.queueOf i) rest }.Watched shape := by
  have moved : (pool.setWorker i .running).Watched shape :=
    watched.setWorker lt (by rw [passed]; decide) (fun holds => by cases holds) trivial
      (.inl trivial)
  have held : (pool.workers i).holds = true := by
    rw [passed]
    rfl
  constructor
  case exclusive => exact moved.exclusive
  case notifying => exact moved.notifying
  case inUse => exact moved.inUse
  case joined => exact moved.joined
  case suits =>
    intro j ltJ
    dsimp only
    by_cases same : shape.queueOf j = shape.queueOf i
    · by_cases eq : j = i
      · subst eq
        rw [setWorker_self]
        trivial
      · rw [setWorker_of_ne _ eq]
        have free : (pool.workers j).holds ≠ true := fun holds =>
          eq (watched.exclusive ltJ lt same holds held)
        cases phase : pool.workers j with
        | failed | passed => exact absurd (by rw [phase]; rfl) free
        | returned =>
            have empty := (watched.returned ltJ phase).2
            rw [same, head] at empty
            cases empty
        | outside | locked | blocked | woken | running => trivial
    · exact (moved.suits ltJ).of_eq rfl (Function.update_of_ne same _ _)
  case attended =>
    intro queue ltQueue tasks
    by_cases eq : queue = shape.queueOf i
    · subst eq
      refine .inr ⟨i, lt, rfl, ?_⟩
      dsimp only
      rw [setWorker_self]
      exact trivial
    · dsimp only at tasks
      rw [Function.update_of_ne eq] at tasks
      exact moved.attended ltQueue tasks

/-- A task is sent with the mutex held, so no worker of its queue is about to block. -/
theorem Watched.enqueue (watched : pool.Watched shape) {task : τ} (lt : queue < shape.queues)
    (owner : pool.owner = .using) (unlocked : pool.Unlocked shape queue) :
    { pool with
      tasks := Function.update pool.tasks queue (pool.tasks queue ++ [task])
      owner := .notifying queue }.Watched shape := by
  have running := watched.inUse (.inl owner)
  constructor
  case exclusive => exact watched.exclusive
  case notifying =>
    intro _ owner
    cases owner
    exact lt
  case inUse => exact fun _ => running
  case joined => exact fun owner => by cases owner
  case suits =>
    intro j ltJ
    by_cases same : shape.queueOf j = queue
    · have free := unlocked j ltJ same
      cases phase : pool.workers j with
      | failed | passed =>
          rw [phase] at free
          cases free
      | returned =>
          have stopped := (watched.returned ltJ phase).1
          rw [running] at stopped
          cases stopped
      | outside | locked | blocked | woken | running => trivial
    · exact (watched.suits ltJ).of_eq rfl (Function.update_of_ne same _ _)
  case attended =>
    intro other ltOther tasks
    by_cases eq : other = queue
    · exact .inl (congrArg Owner.notifying eq.symm)
    · dsimp only at tasks
      rw [Function.update_of_ne eq] at tasks
      exact .inr ((watched.attended ltOther tasks).resolve_left fun notifying => by
        cases owner.symm.trans notifying)

/-- A worker of a queue with tasks looks at it, unless it is blocked. -/
theorem Watched.awake (watched : pool.Watched shape) (lt : i < shape.threads)
    (tasks : pool.tasks (shape.queueOf i) ≠ []) (notBlocked : pool.workers i ≠ .blocked) :
    (pool.workers i).Awake := by
  cases phase : pool.workers i with
  | failed => exact tasks (watched.failed lt phase)
  | blocked => exact notBlocked phase
  | returned => exact tasks (watched.returned lt phase).2
  | outside | locked | woken | passed | running => trivial

/-- The notification is made once somebody looks at the queue. -/
theorem Watched.notified (watched : pool.Watched shape) (owner : pool.owner = .notifying queue)
    (looked : queue < shape.queues → pool.tasks queue ≠ [] →
      ∃ i < shape.threads, shape.queueOf i = queue ∧ (pool.workers i).Awake) :
    { pool with owner := .using }.Watched shape := by
  have running := watched.inUse (.inr ⟨queue, owner⟩)
  constructor
  case exclusive => exact watched.exclusive
  case suits => exact fun lt => (watched.suits lt).of_eq rfl rfl
  case notifying => exact fun owner => by cases owner
  case inUse => exact fun _ => running
  case joined => exact fun owner => by cases owner
  case attended =>
    intro other ltOther tasks
    refine .inr ?_
    rcases watched.attended ltOther tasks with notifying | awake
    · rw [owner] at notifying
      cases notifying
      exact looked ltOther tasks
    · exact awake

/-- A notification changes only workers that are blocked. -/
theorem Watched.notifyAll (watched : pool.Watched shape) (owner : pool.owner = .stopping queue) :
    { pool with
      workers := fun i =>
        if shape.queueOf i = queue then (pool.workers i).notify else pool.workers i
      owner := .stopping (queue + 1) }.Watched shape := by
  have same : ∀ i, (if shape.queueOf i = queue then (pool.workers i).notify
        else pool.workers i) = pool.workers i ∨
      pool.workers i = .blocked ∧ (if shape.queueOf i = queue then (pool.workers i).notify
        else pool.workers i) = .woken := by
    intro i
    split
    · cases pool.workers i with
      | blocked => exact .inr ⟨rfl, rfl⟩
      | outside | locked | failed | woken | passed | running | returned => exact .inl rfl
    · exact .inl rfl
  constructor
  case exclusive =>
    intro i j ltI ltJ sameQueue holdsI holdsJ
    dsimp only at holdsI holdsJ
    rcases same i with sameI | ⟨_, woken⟩
    · rcases same j with sameJ | ⟨_, woken⟩
      · rw [sameI] at holdsI
        rw [sameJ] at holdsJ
        exact watched.exclusive ltI ltJ sameQueue holdsI holdsJ
      · rw [woken] at holdsJ
        cases holdsJ
    · rw [woken] at holdsI
      cases holdsI
  case suits =>
    intro i lt
    dsimp only
    rcases same i with sameI | ⟨_, woken⟩
    · rw [sameI]
      exact (watched.suits lt).of_eq rfl rfl
    · rw [woken]
      trivial
  case notifying => exact fun owner => by cases owner
  case inUse =>
    rintro (eq | ⟨_, eq⟩)
    · cases eq
    · cases eq
  case joined => exact fun owner => by cases owner
  case attended =>
    intro other ltOther tasks
    obtain notifying | ⟨i, lt, rfl, awake⟩ := watched.attended ltOther tasks
    · cases owner.symm.trans notifying
    · refine .inr ⟨i, lt, rfl, ?_⟩
      dsimp only
      rcases same i with sameI | ⟨blocked, _⟩
      · rwa [sameI]
      · rw [blocked] at awake
        exact awake.elim

/-- The destructor starts. -/
theorem Watched.store (watched : pool.Watched shape) (owner : pool.owner = .using) :
    { pool with stop := true, owner := .stopping 0 }.Watched shape := by
  constructor
  case exclusive => exact watched.exclusive
  case suits =>
    intro i lt
    have suits := watched.suits lt
    dsimp only
    cases phase : pool.workers i with
    | failed => exact watched.failed lt phase
    | passed => exact .inl rfl
    | returned => exact ⟨rfl, (watched.returned lt phase).2⟩
    | outside | locked | blocked | woken | running => trivial
  case notifying => exact fun owner => by cases owner
  case inUse =>
    rintro (eq | ⟨_, eq⟩)
    · cases eq
    · cases eq
  case joined => exact fun owner => by cases owner
  case attended =>
    intro other ltOther tasks
    exact .inr ((watched.attended ltOther tasks).resolve_left fun notifying => by
      cases owner.symm.trans notifying)

/-- The workers are joined in order. -/
theorem Watched.join (watched : pool.Watched shape) (returned : pool.workers i = .returned)
    (owner : pool.owner = .joining i ∨ i = 0 ∧ pool.owner = .stopping shape.queues) :
    { pool with owner := .joining (i + 1) }.Watched shape := by
  constructor
  case exclusive => exact watched.exclusive
  case suits => exact fun lt => (watched.suits lt).of_eq rfl rfl
  case notifying => exact fun owner => by cases owner
  case inUse =>
    rintro (eq | ⟨_, eq⟩)
    · cases eq
    · cases eq
  case joined =>
    rintro count eq j less
    cases eq
    rcases Nat.lt_succ_iff_lt_or_eq.mp less with before | rfl
    · rcases owner with joining | ⟨rfl, _⟩
      · exact watched.joined joining j before
      · exact absurd before (Nat.not_lt_zero j)
    · exact returned
  case attended =>
    intro other ltOther tasks
    refine .inr ((watched.attended ltOther tasks).resolve_left fun notifying => ?_)
    rcases owner with joining | ⟨_, stopping⟩
    · cases joining.symm.trans notifying
    · cases stopping.symm.trans notifying

/-- Step lemma. -/
theorem Watched.step (watched : pool.Watched shape) (stepped : Steps shape pool action pool') :
    pool'.Watched shape := by
  cases stepped with
  | lock lt waits unlocked =>
      exact watched.setWorker lt (by rcases waits with waits | waits <;> rw [waits] <;> decide)
        (fun _ => .inr unlocked) trivial (.inl trivial)
  | pass lt locked ready =>
      exact watched.setWorker lt (by rw [locked]; decide) (fun _ => .inl (by rw [locked]; rfl))
        ready (.inl trivial)
  | fail lt locked running empty =>
      exact watched.setWorker lt (by rw [locked]; decide) (fun _ => .inl (by rw [locked]; rfl))
        empty (.inr empty)
  | block lt failed =>
      exact watched.setWorker lt (by rw [failed]; decide) (fun holds => by cases holds) trivial
        (.inr (watched.failed lt failed))
  | retire lt passed stopped empty =>
      exact watched.setWorker lt (by rw [passed]; decide) (fun holds => by cases holds)
        ⟨stopped, empty⟩ (.inr empty)
  | take lt passed head => exact (watched.take lt passed head).setTask _
  | @finish i lt running =>
      have outside : (pool.setWorker i .outside).Watched shape :=
        watched.setWorker lt (by rw [running]; decide) (fun holds => by cases holds) trivial
          (.inl trivial)
      exact outside.setTask _
  | enqueue lt owner unlocked => exact watched.enqueue lt owner unlocked
  | @wake queue i owner wakes =>
      obtain ⟨lt, same, blocked⟩ := wakes
      have woken : (pool.setWorker i .woken).Watched shape :=
        watched.setWorker lt (by rw [blocked]; decide) (fun holds => by cases holds) trivial
          (.inl trivial)
      refine woken.notified owner fun _ _ => ⟨i, lt, same, ?_⟩
      rw [setWorker_self]
      trivial
  | @miss queue owner wakes =>
      refine watched.notified owner fun ltQueue tasks => ?_
      have same := shape.queueOf_server ltQueue
      refine ⟨shape.server queue, shape.server_lt ltQueue, same, ?_⟩
      exact watched.awake (shape.server_lt ltQueue) (by rwa [same])
        (wakes _ (shape.server_lt ltQueue) same)
  | store owner => exact watched.store owner
  | notifyAll _ owner => exact watched.notifyAll owner
  | join _ returned owner => exact watched.join returned owner

/-- The destructor has no part in the action. -/
def Action.InUse : Action τ → Prop
  | .store | .notifyAll _ | .join _ => False
  | _ => True

theorem owner_of_inUse (inUse : action.InUse)
    (owner : pool.owner = .using ∨ ∃ queue, pool.owner = .notifying queue)
    (stepped : Steps shape pool action pool') :
    pool'.owner = .using ∨ ∃ queue, pool'.owner = .notifying queue := by
  cases stepped with
  | enqueue => exact .inr ⟨_, rfl⟩
  | wake | miss => exact .inl rfl
  | store | notifyAll | join => exact inUse.elim
  | lock | pass | fail | block | retire | take | finish => exact owner

end TaskPool

end ZnsLsm.Threads
