import Mathlib.Data.List.Perm.Basic
import ZnsLsm.Threads.Wakeups
import ZnsLsm.WriteQueues

/-!
# Every task is run once

The journal says which tasks were sent, taken and finished.  A queue is served in the order
of its tasks, a worker finishes what it takes before it takes more, and whatever the workers
do, by themselves they come to an end at which all tasks that were sent are finished.
-/

namespace ZnsLsm.Threads

open ZnsLsm.Transition ZnsLsm.WriteQueues

universe u

variable {τ : Type u}

namespace Journal

/-! ## Entries of a journal -/

@[simp]
theorem select_append (P : Nat → Prop) [DecidablePred P] (entries entries' : List (Nat × τ)) :
    select P (entries ++ entries') = select P entries ++ select P entries' := by
  simp [select]

@[simp]
theorem select_entry (P : Nat → Prop) [DecidablePred P] (i : Nat) (task : Option τ) :
    select P (task.map (i, ·)).toList = if P i then task.toList else [] := by
  cases task with
  | none => split <;> rfl
  | some task => by_cases holds : P i <;> simp [select, holds]

@[simp]
theorem count_select [DecidableEq τ] (i : Nat) (task : τ) (entries : List (Nat × τ)) :
    (select (· = i) entries).count task = entries.count (i, task) := by
  induction entries with
  | nil => rfl
  | cons entry rest ih =>
      obtain ⟨j, other⟩ := entry
      by_cases eq : j = i
      · subst eq
        have head : select (· = j) ((j, other) :: rest) = other :: select (· = j) rest := by
          simp [select]
        rw [head, List.count_cons, List.count_cons, ih]
        simp
      · have head : select (· = i) ((j, other) :: rest) = select (· = i) rest := by
          simp [select, eq]
        rw [head, ih, List.count_cons_of_ne]
        simp [eq]

/-- Two journals that agree on each name agree up to the order of the entries. -/
theorem perm_of_select_eq {entries entries' : List (Nat × τ)}
    (same : ∀ i, select (· = i) entries = select (· = i) entries') : entries.Perm entries' := by
  classical
  rw [List.perm_iff_count]
  rintro ⟨i, task⟩
  rw [← count_select, ← count_select, same]

theorem select_perm (P : Nat → Prop) [DecidablePred P] {entries entries' : List (Nat × τ)}
    (perm : entries.Perm entries') : (select P entries).Perm (select P entries') :=
  (perm.filter _).map _

end Journal

open Journal

/-- The steps to the end of the loop of a worker that finds no task. -/
def Worker.stepsLeft : Worker → Nat
  | .running => 5
  | .outside | .woken => 4
  | .locked => 3
  | .failed | .passed => 2
  | .blocked => 1
  | .returned => 0

namespace TaskPool

variable {shape : Shape} {pool pool' : TaskPool τ} {journal : Journal τ}
  {action : Action τ} {i queue : Nat}

/-! ## The journal and the pool -/

/-- The journal accounts for the tasks of the pool. -/
structure Accounted (shape : Shape) (pool : TaskPool τ) (journal : Journal τ) : Prop where
  fifo : ∀ queue, select (· = queue) journal.sent =
    select (shape.queueOf · = queue) journal.taken ++ pool.tasks queue
  single : ∀ i, select (· = i) journal.taken =
    select (· = i) journal.finished ++ (pool.task i).toList
  busy : ∀ {i}, pool.task i ≠ none → i < shape.threads ∧ pool.workers i = .running
  held : ∀ {i}, pool.workers i = .running → pool.task i ≠ none

theorem accounted_new : (new : TaskPool τ).Accounted shape ⟨[], [], []⟩ where
  fifo _ := rfl
  single _ := rfl
  busy held := absurd rfl held
  held running := by cases running

/-- Workers without a task in hand may move. -/
theorem Accounted.setWorkers (accounted : pool.Accounted shape journal)
    (tasks : pool'.tasks = pool.tasks) (task : pool'.task = pool.task)
    (moves : ∀ j, pool'.workers j = .running ↔ pool.workers j = .running) :
    pool'.Accounted shape journal where
  fifo queue := by
    rw [tasks]
    exact accounted.fifo queue
  single i := by
    rw [task]
    exact accounted.single i
  busy held := by
    rw [task] at held
    exact ⟨(accounted.busy held).1, (moves _).mpr (accounted.busy held).2⟩
  held running := by
    rw [task]
    exact accounted.held ((moves _).mp running)

theorem Accounted.setWorker (accounted : pool.Accounted shape journal) {worker : Worker}
    (before : pool.workers i ≠ .running) (after : worker ≠ .running) :
    (pool.setWorker i worker).Accounted shape journal := by
  refine accounted.setWorkers rfl rfl fun j => ?_
  by_cases eq : j = i
  · subst eq
    rw [setWorker_self]
    exact ⟨fun running => absurd running after, fun running => absurd running before⟩
  · rw [setWorker_of_ne _ eq]

/-- The oldest task goes from the queue into the hands of the worker. -/
theorem Accounted.take (accounted : pool.Accounted shape journal) {task : τ} {rest : List τ}
    (lt : i < shape.threads) (passed : pool.workers i = .passed)
    (head : pool.tasks (shape.queueOf i) = task :: rest) :
    { pool.setWorker i .running with
      task := Function.update pool.task i (some task)
      tasks := Function.update pool.tasks (shape.queueOf i) rest }.Accounted shape
        (journal.note shape pool (.leave i)) := by
  have none_held : pool.task i = none := by
    by_contra held
    have running := (accounted.busy held).2
    rw [passed] at running
    cases running
  have noted : journal.note shape pool (.leave i) =
      { journal with taken := journal.taken ++ ((some task).map (i, ·)).toList } := by
    simp only [note, head]
    rfl
  rw [noted]
  constructor
  case fifo =>
    intro queue
    simp only [select_append, select_entry]
    by_cases eq : shape.queueOf i = queue
    · subst eq
      rw [Function.update_self, if_pos rfl, accounted.fifo, head]
      simp
    · rw [Function.update_of_ne (Ne.symm eq), if_neg eq, accounted.fifo]
      simp
  case single =>
    intro j
    simp only [select_append, select_entry]
    rw [accounted.single]
    by_cases eq : j = i
    · subst eq
      rw [Function.update_self, if_pos rfl, none_held]
      simp
    · rw [Function.update_of_ne eq, if_neg (Ne.symm eq)]
      simp
  case busy =>
    intro j held
    dsimp only at held ⊢
    by_cases eq : j = i
    · subst eq
      exact ⟨lt, setWorker_self _ _ _⟩
    · rw [Function.update_of_ne eq] at held
      rw [setWorker_of_ne _ eq]
      exact accounted.busy held
  case held =>
    intro j running
    dsimp only at running ⊢
    by_cases eq : j = i
    · subst eq
      rw [Function.update_self]
      exact Option.some_ne_none task
    · rw [setWorker_of_ne _ eq] at running
      rw [Function.update_of_ne eq]
      exact accounted.held running

/-- The task in hand is finished. -/
theorem Accounted.finish (accounted : pool.Accounted shape journal) :
    { pool.setWorker i .outside with task := Function.update pool.task i none }.Accounted shape
      (journal.note shape pool (.finish i)) := by
  constructor
  case fifo => exact accounted.fifo
  case single =>
    intro j
    simp only [note, select_append, select_entry]
    rw [accounted.single]
    by_cases eq : j = i
    · subst eq
      rw [Function.update_self, if_pos rfl]
      simp
    · rw [Function.update_of_ne eq, if_neg (Ne.symm eq)]
      simp
  case busy =>
    intro j held
    dsimp only at held ⊢
    by_cases eq : j = i
    · subst eq
      exact absurd (Function.update_self _ _ _) held
    · rw [Function.update_of_ne eq] at held
      rw [setWorker_of_ne _ eq]
      exact accounted.busy held
  case held =>
    intro j running
    dsimp only at running ⊢
    by_cases eq : j = i
    · subst eq
      rw [setWorker_self] at running
      cases running
    · rw [setWorker_of_ne _ eq] at running
      rw [Function.update_of_ne eq]
      exact accounted.held running

theorem Accounted.enqueue (accounted : pool.Accounted shape journal) (task : τ) :
    { pool with
      tasks := Function.update pool.tasks queue (pool.tasks queue ++ [task])
      owner := .notifying queue }.Accounted shape
        (journal.note shape pool (.enqueue queue task)) := by
  constructor
  case fifo =>
    intro other
    have entry := select_entry (· = other) queue (some task)
    simp only [note, select_append]
    rw [accounted.fifo, List.append_assoc]
    congr 1
    by_cases eq : other = queue
    · subst eq
      rw [Function.update_self]
      congr 1
      simpa using entry
    · rw [Function.update_of_ne eq]
      rw [if_neg (Ne.symm eq)] at entry
      simpa using entry
  case single => exact accounted.single
  case busy => exact accounted.busy
  case held => exact accounted.held

/-- Step lemma. -/
theorem Accounted.step (accounted : pool.Accounted shape journal)
    (stepped : Steps shape pool action pool') :
    pool'.Accounted shape (journal.note shape pool action) := by
  cases stepped with
  | lock lt waits unlocked =>
      exact accounted.setWorker (by rcases waits with waits | waits <;> rw [waits] <;> decide)
        (by decide)
  | pass lt locked ready => exact accounted.setWorker (by rw [locked]; decide) (by decide)
  | fail lt locked running empty => exact accounted.setWorker (by rw [locked]; decide) (by decide)
  | block lt failed => exact accounted.setWorker (by rw [failed]; decide) (by decide)
  | @retire i lt passed stopped empty =>
      have noted : journal.note shape pool (.leave i) = journal := by
        simp [note, empty]
      rw [noted]
      exact accounted.setWorker (by rw [passed]; decide) (by decide)
  | take lt passed head => exact accounted.take lt passed head
  | finish lt running => exact accounted.finish
  | enqueue lt owner unlocked => exact accounted.enqueue _
  | @wake queue i owner wakes =>
      have woken : (pool.setWorker i .woken).Accounted shape journal :=
        accounted.setWorker (by rw [wakes.2.2]; decide) (by decide)
      exact woken.setWorkers rfl rfl fun _ => .rfl
  | miss owner wakes => exact accounted.setWorkers rfl rfl fun _ => .rfl
  | store owner => exact accounted.setWorkers rfl rfl fun _ => .rfl
  | notifyAll lt owner =>
      refine accounted.setWorkers rfl rfl fun j => ?_
      dsimp only
      split
      · cases pool.workers j <;> simp [Worker.notify]
      · rfl
  | join lt returned owner => exact accounted.setWorkers rfl rfl fun _ => .rfl

/-! ## The workers by themselves -/

/-- The workers, and a notification that is under way. -/
def Action.Proceeds : Action τ → Prop
  | .lock _ | .test _ | .block _ | .leave _ | .finish _ | .notifyOne _ _ => True
  | .enqueue _ _ | .store | .notifyAll _ | .join _ => False

theorem Action.Proceeds.inUse (proceeds : action.Proceeds) : action.InUse := by
  cases action with
  | lock | test | block | leave | finish | notifyOne => trivial
  | enqueue | store | notifyAll | join => exact proceeds.elim

/-- Nothing is sent any more. -/
def proceeding (shape : Shape) : System (TaskPool τ × Journal τ) (Action τ) :=
  (system shape).guarded fun _ action => action.Proceeds

/-- No task is queued or in hand. -/
def Idle (shape : Shape) (pool : TaskPool τ) : Prop :=
  (∀ queue < shape.queues, pool.tasks queue = []) ∧ ∀ i, pool.task i = none

/-- A task takes a worker round its loop once more, and so does a notification. -/
def stepsLeft (shape : Shape) (pool : TaskPool τ) : Nat :=
  (∑ i ∈ Finset.range shape.threads, (pool.workers i).stepsLeft) +
    4 * (∑ queue ∈ Finset.range shape.queues, (pool.tasks queue).length) +
      match pool.owner with
      | .notifying _ => 4
      | _ => 0

theorem sum_setWorker (pool : TaskPool τ) (lt : i < shape.threads) (worker : Worker) :
    (∑ j ∈ Finset.range shape.threads, ((pool.setWorker i worker).workers j).stepsLeft) +
        (pool.workers i).stepsLeft =
      (∑ j ∈ Finset.range shape.threads, (pool.workers j).stepsLeft) + worker.stepsLeft :=
  sum_comp_update Worker.stepsLeft pool.workers (Finset.mem_range.mpr lt) worker

/-- A step of one worker towards the end of its loop. -/
theorem stepsLeft_setWorker (pool : TaskPool τ) (lt : i < shape.threads) {worker : Worker}
    (less : worker.stepsLeft < (pool.workers i).stepsLeft) :
    (pool.setWorker i worker).stepsLeft shape < pool.stepsLeft shape := by
  have sum := sum_setWorker pool lt worker
  have tasks : (pool.setWorker i worker).tasks = pool.tasks := rfl
  have owner : (pool.setWorker i worker).owner = pool.owner := rfl
  unfold stepsLeft
  rw [tasks, owner]
  omega

/-- Every step of a worker, and every notification, brings the end nearer. -/
theorem stepsLeft_lt (stepped : Steps shape pool action pool') (proceeds : action.Proceeds) :
    pool'.stepsLeft shape < pool.stepsLeft shape := by
  cases stepped with
  | lock lt waits unlocked =>
      exact stepsLeft_setWorker pool lt
        (by rcases waits with waits | waits <;> rw [waits] <;> decide)
  | pass lt locked ready => exact stepsLeft_setWorker pool lt (by rw [locked]; decide)
  | fail lt locked running empty => exact stepsLeft_setWorker pool lt (by rw [locked]; decide)
  | block lt failed => exact stepsLeft_setWorker pool lt (by rw [failed]; decide)
  | retire lt passed stopped empty => exact stepsLeft_setWorker pool lt (by rw [passed]; decide)
  | @take i task rest lt passed head =>
      have sum := sum_setWorker pool lt .running
      have tasks := sum_comp_update List.length pool.tasks
        (Finset.mem_range.mpr (shape.queueOf_lt lt)) rest
      rw [head, List.length_cons] at tasks
      rw [passed] at sum
      have owner : (pool.setWorker i .running).owner = pool.owner := rfl
      change _ + 2 = _ + 5 at sum
      simp only [stepsLeft, owner]
      omega
  | finish lt running => exact stepsLeft_setWorker pool lt (by rw [running]; decide)
  | @wake queue i owner wakes =>
      have sum := sum_setWorker pool wakes.1 .woken
      rw [wakes.2.2] at sum
      change _ + 1 = _ + 4 at sum
      have tasks : (pool.setWorker i .woken).tasks = pool.tasks := rfl
      simp only [stepsLeft, owner, tasks]
      omega
  | miss owner wakes =>
      simp only [stepsLeft, owner]
      omega
  | enqueue _ _ _ | store _ | notifyAll _ _ | join _ _ _ => exact proceeds.elim

theorem stepsLeft_enqueue {task : τ} (stepped : Steps shape pool (.enqueue queue task) pool') :
    pool'.stepsLeft shape = pool.stepsLeft shape + 8 := by
  cases stepped with
  | enqueue lt owner unlocked =>
      have tasks := sum_comp_update List.length pool.tasks (Finset.mem_range.mpr lt)
        (pool.tasks queue ++ [task])
      rw [List.length_append, List.length_singleton] at tasks
      simp only [stepsLeft, owner]
      omega

/-! ## Progress -/

/-- Whoever holds a mutex can go on. -/
theorem Watched.can_move_of_holds (watched : pool.Watched shape) (lt : i < shape.threads)
    (holds : (pool.workers i).holds = true) :
    ∃ action : Action τ, action.Proceeds ∧ ∃ pool', pool.step shape action = some pool' := by
  cases phase : pool.workers i with
  | locked => exact ⟨.test i, trivial, _, if_pos ⟨lt, phase⟩⟩
  | failed => exact ⟨.block i, trivial, _, if_pos ⟨lt, phase⟩⟩
  | passed =>
      refine ⟨.leave i, trivial, Option.isSome_iff_exists.mp ?_⟩
      cases tasks : pool.tasks (shape.queueOf i) with
      | nil =>
          have stopped := (watched.passed lt phase).resolve_right (not_not_intro tasks)
          simp [TaskPool.step, lt, phase, tasks, stopped]
      | cons task rest => simp [TaskPool.step, lt, phase, tasks]
  | outside | blocked | woken | running | returned =>
      rw [phase] at holds
      cases holds

/-- A worker that is going to look at its queue can go on, or one that has the mutex can. -/
theorem Watched.can_move_of_awake (watched : pool.Watched shape) (lt : i < shape.threads)
    (awake : (pool.workers i).Awake) :
    ∃ action : Action τ, action.Proceeds ∧ ∃ pool', pool.step shape action = some pool' := by
  have can_lock : (pool.workers i = .outside ∨ pool.workers i = .woken) →
      ∃ action : Action τ, action.Proceeds ∧ ∃ pool', pool.step shape action = some pool' := by
    intro waits
    by_cases unlocked : pool.Unlocked shape (shape.queueOf i)
    · exact ⟨.lock i, trivial, _, if_pos ⟨lt, waits, unlocked⟩⟩
    · simp only [Unlocked, not_forall, Bool.not_eq_false] at unlocked
      obtain ⟨j, ltJ, _, holds⟩ := unlocked
      exact watched.can_move_of_holds ltJ holds
  cases phase : pool.workers i with
  | outside => exact can_lock (.inl phase)
  | woken => exact can_lock (.inr phase)
  | locked | passed => exact watched.can_move_of_holds lt (by rw [phase]; rfl)
  | running => exact ⟨.finish i, trivial, _, if_pos ⟨lt, phase⟩⟩
  | failed | blocked | returned =>
      rw [phase] at awake
      exact awake.elim

/-- A notification under way is made. -/
theorem can_notify (owner : pool.owner = .notifying queue) :
    ∃ action : Action τ, action.Proceeds ∧ ∃ pool', pool.step shape action = some pool' := by
  by_cases asleep : pool.Wakes shape queue none
  · exact ⟨.notifyOne queue none, trivial, _, if_pos ⟨owner, asleep⟩⟩
  · simp only [Wakes, not_forall, not_not] at asleep
    obtain ⟨i, lt, same, blocked⟩ := asleep
    exact ⟨.notifyOne queue (some i), trivial, _, if_pos ⟨owner, lt, same, blocked⟩⟩

/-- While a task is queued or in hand, something goes on. -/
theorem Watched.can_move (watched : pool.Watched shape) (accounted : pool.Accounted shape journal)
    (notIdle : ¬pool.Idle shape) :
    ∃ action : Action τ, action.Proceeds ∧ ∃ pool', pool.step shape action = some pool' := by
  by_cases held : ∀ i, pool.task i = none
  · have queued : ∃ queue < shape.queues, pool.tasks queue ≠ [] := by
      by_contra empty
      exact notIdle ⟨fun queue lt => by_contra fun tasks => empty ⟨queue, lt, tasks⟩, held⟩
    obtain ⟨queue, ltQueue, tasks⟩ := queued
    obtain owner | ⟨i, lt, _, awake⟩ := watched.attended ltQueue tasks
    · exact can_notify owner
    · exact watched.can_move_of_awake lt awake
  · obtain ⟨i, inHand⟩ := not_forall.mp held
    obtain ⟨lt, running⟩ := accounted.busy inHand
    exact ⟨.finish i, trivial, _, if_pos ⟨lt, running⟩⟩

/-! ## Whole runs -/

/-- When nothing is queued or in hand, what was sent to a queue was finished by its workers. -/
theorem Accounted.finished_perm (accounted : pool.Accounted shape journal)
    (empty : pool.tasks queue = []) (held : ∀ i, pool.task i = none) :
    (select (shape.queueOf · = queue) journal.finished).Perm
      (select (· = queue) journal.sent) := by
  have all : journal.taken.Perm journal.finished := by
    apply perm_of_select_eq
    intro i
    rw [accounted.single, held]
    exact List.append_nil _
  rw [accounted.fifo, empty, List.append_nil]
  exact (select_perm _ all).symm

/-- Pool and journal. -/
def Kept (shape : Shape) (state : TaskPool τ × Journal τ) : Prop :=
  state.1.Watched shape ∧ state.1.Accounted shape state.2

theorem Kept.step {state next : TaskPool τ × Journal τ} (kept : Kept shape state)
    (advanced : advance shape state action = some next) : Kept shape next := by
  obtain ⟨stepped, noted⟩ := steps_of_advance advanced
  refine ⟨kept.1.step stepped, ?_⟩
  rw [noted]
  exact kept.2.step stepped

theorem kept_of_reachable {state : TaskPool τ × Journal τ}
    (reachable : (system shape).Reachable state) : Kept shape state := by
  refine System.invariant_of_reachable ?_ (fun _ _ _ kept advanced => kept.step advanced) reachable
  rintro _ rfl
  exact ⟨watched_new, accounted_new⟩

/-- What a pool owes to those who send tasks. -/
structure Delivers (shape : Shape) (state : TaskPool τ × Journal τ) : Prop where
  /-- A queue is served in the order of its tasks. -/
  fifo : ∀ queue, select (· = queue) state.2.sent =
    select (shape.queueOf · = queue) state.2.taken ++ state.1.tasks queue
  /-- A worker finishes a task before it takes the next one. -/
  single : ∀ i, select (· = i) state.2.taken =
    select (· = i) state.2.finished ++ (state.1.task i).toList
  /-- No worker takes a task from an empty queue. -/
  granted : ∀ i < shape.threads, state.1.workers i = .passed →
    state.1.stop = true ∨ state.1.tasks (shape.queueOf i) ≠ []
  bounded : ∀ {labels last}, (proceeding shape).Path state labels last →
    labels.length + last.1.stepsLeft shape ≤ state.1.stepsLeft shape
  /-- Where the workers come to an end, all tasks are finished. -/
  delivered : ∀ {labels last}, (proceeding shape).Path state labels last →
    (∀ action next, ¬(proceeding shape).Step last action next) →
      last.1.Idle shape ∧ ∀ queue < shape.queues,
        (select (shape.queueOf · = queue) last.2.finished).Perm
          (select (· = queue) state.2.sent)
  /-- The destructor returns only when all tasks are finished. -/
  joined : state.1.owner = .joining shape.threads → ∀ queue < shape.queues,
    (select (shape.queueOf · = queue) state.2.finished).Perm (select (· = queue) state.2.sent)

/-- What proceeds sends nothing. -/
theorem sent_eq_of_path {state last : TaskPool τ × Journal τ} {labels : List (Action τ)}
    (path : (proceeding shape).Path state labels last) : last.2.sent = state.2.sent := by
  induction path with
  | nil _ => rfl
  | @cons state next last action labels step _ ih =>
      rw [ih, (steps_of_advance step.2).2]
      cases action with
      | enqueue _ _ => exact step.1.elim
      | lock _ | test _ | block _ | leave _ | finish _ | notifyOne _ _ | store | notifyAll _
      | join _ => rfl

/-- Joined workers have nothing in hand and have left nothing behind. -/
theorem Kept.idle_of_joined {state : TaskPool τ × Journal τ} (kept : Kept shape state)
    (owner : state.1.owner = .joining shape.threads) : state.1.Idle shape := by
  have returned : ∀ i < shape.threads, state.1.workers i = .returned := kept.1.joined owner
  constructor
  · intro queue lt
    have ltServer := shape.server_lt lt
    have left := (kept.1.returned ltServer (returned _ ltServer)).2
    rwa [shape.queueOf_server lt] at left
  · intro i
    by_contra held
    obtain ⟨lt, running⟩ := kept.2.busy held
    cases running.symm.trans (returned i lt)

/-- Over every run of a pool, each task is taken in its turn and finished once; the workers by
themselves finish all of them in a bounded number of steps, and the destructor leaves none. -/
theorem delivers_of_reachable {state : TaskPool τ × Journal τ}
    (reachable : (system shape).Reachable state) : Delivers shape state := by
  have kept := kept_of_reachable reachable
  have preserved : ∀ {state : TaskPool τ × Journal τ} {action next}, Kept shape state →
      (proceeding shape).Step state action next → Kept shape next :=
    fun kept step => kept.step step.2
  constructor
  case fifo => exact kept.2.fifo
  case single => exact kept.2.single
  case granted => exact fun i lt passed => kept.1.passed lt passed
  case bounded =>
    intro labels last path
    refine path.length_le (P := Kept shape) (fun state => state.1.stepsLeft shape) preserved ?_ kept
    exact fun _ step => stepsLeft_lt (steps_of_advance step.2).1 step.1
  case delivered =>
    intro labels last path stuck
    have keptLast := path.invariant (P := Kept shape) preserved kept
    have idle : last.1.Idle shape := by
      by_contra notIdle
      obtain ⟨action, proceeds, pool', stepped⟩ := keptLast.1.can_move keptLast.2 notIdle
      exact stuck action _ ⟨proceeds, Option.map_eq_some_iff.mpr ⟨pool', stepped, rfl⟩⟩
    refine ⟨idle, fun queue lt => ?_⟩
    rw [← sent_eq_of_path path]
    exact keptLast.2.finished_perm (idle.1 queue lt) idle.2
  case joined =>
    intro owner queue lt
    have idle := kept.idle_of_joined owner
    exact kept.2.finished_perm (idle.1 queue lt) idle.2

/-- Of two readers, the one with the second task is done first. -/
theorem delivers_two_readers : ∃ state : TaskPool Nat × Journal Nat,
    (state.2.taken, state.2.finished) = ([(1, 7), (0, 8)], [(0, 8)]) ∧
      Delivers (ReadPool.shape 2 (by decide)) state := by
  obtain ⟨state, ran, entries⟩ := Option.map_eq_some_iff.mp
    (show (System.run (advance (ReadPool.shape 2 (by decide))) (fun _ _ => True)
        (new, ⟨[], [], []⟩)
        [.lock 1, .test 1, .block 1, .enqueue 0 7, .notifyOne 0 (some 1), .lock 1, .test 1,
          .leave 1, .enqueue 0 8, .notifyOne 0 none, .lock 0, .test 0, .leave 0, .finish 0]).map
        (fun state => (state.2.taken, state.2.finished)) = some ([(1, 7), (0, 8)], [(0, 8)]) by
      decide)
  have reachable : ((system (ReadPool.shape 2 (by decide))).guarded fun _ _ => True).Reachable
      state :=
    System.reachable_of_run (fun advanced => advanced) rfl ran
  exact ⟨state, entries, delivers_of_reachable (System.reachable_of_guarded reachable)⟩

end TaskPool

end ZnsLsm.Threads
