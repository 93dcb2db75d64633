import Mathlib.Data.List.Induction
import ZnsLsm.Pool.ZoneQueue
import ZnsLsm.RoundRobin
import ZnsLsm.Transition

/-!
# Runs of the striped pool

A run of `queue_cache` carries the zones that entered the pool and those that left it, oldest
first.  Every queue is what is left of its zones in the order in which they entered, and as
long as no queue is empty the queues take turns.
-/

namespace ZnsLsm.Pool

open ZnsLsm.RoundRobin ZnsLsm.Transition

namespace QueueCache

variable {pool pool' : QueueCache}

/-! ## The queue that is served -/

/-- The cursor behind the search loop of `get`. -/
def front (pool : QueueCache) : Nat :=
  if pool.empty then pool.ptr else seek pool.queues pool.queues.length pool.ptr

theorem lt_of_getD_ne_nil {queues : List (List Nat)} {q : Nat} (ne : queues.getD q [] ≠ []) :
    q < queues.length := by
  by_contra ge
  exact ne (List.getD_eq_default _ _ (Nat.le_of_not_lt ge))

theorem seek_of_ne_nil {queues : List (List Nat)} {ptr : Nat} (ne : queues.getD ptr [] ≠ [])
    (rounds : Nat) : seek queues rounds ptr = ptr := by
  cases rounds with
  | zero => rfl
  | succ rounds =>
      rw [seek, if_neg]
      rwa [List.isEmpty_iff]

/-- A search that has ended does not go on. -/
theorem seek_add {queues : List (List Nat)} {rounds ptr : Nat}
    (ended : queues.getD (seek queues rounds ptr) [] ≠ []) (more : Nat) :
    seek queues (rounds + more) ptr = seek queues rounds ptr := by
  induction rounds generalizing ptr with
  | zero =>
      rw [Nat.zero_add]
      exact seek_of_ne_nil ended more
  | succ rounds ih =>
      rw [Nat.add_right_comm]
      simp only [seek] at ended ⊢
      split
      · rename_i isEmpty
        rw [if_pos isEmpty] at ended
        exact ih ended
      · rfl

/-- `get` takes the first zone of the queue behind the search. -/
theorem get_eq_some_front {zone : Nat} (got : pool.get = some (zone, pool')) :
    ∃ rest, pool.queues.getD pool.front [] = zone :: rest ∧
      pool' = { pool with
        queues := pool.queues.set pool.front rest
        ptr := (pool.front + 1) % pool.queues.length
        size := pool.size - 1 } := by
  unfold get at got
  simp only at got
  split at got
  · cases got
  · rename_i val rest queueEq
    cases got
    exact ⟨rest, queueEq, rfl⟩

theorem front_ne_nil_of_get {zone : Nat} (got : pool.get = some (zone, pool')) :
    pool.queues.getD pool.front [] ≠ [] := by
  obtain ⟨rest, queueEq, -⟩ := get_eq_some_front got
  rw [queueEq]
  exact List.cons_ne_nil _ _

theorem front_of_ne_nil (ne : pool.queues.getD pool.ptr [] ≠ []) : pool.front = pool.ptr := by
  rw [front]
  split
  · rfl
  · exact seek_of_ne_nil ne _

theorem length_get {zone : Nat} (got : pool.get = some (zone, pool')) :
    pool'.queues.length = pool.queues.length := by
  obtain ⟨rest, -, rfl⟩ := get_eq_some_front got
  exact List.length_set

theorem getD_emplace {div zone : Nat} {queues : List (List Nat)}
    (inside : index div zone < queues.length) (q : Nat) :
    (emplace div queues zone).getD q [] =
      queues.getD q [] ++ if index div zone = q then [zone] else [] := by
  rw [flatten_emplace_eq_set inside]
  by_cases same : index div zone = q
  · subst same
    rw [if_pos rfl, List.getD_eq_getElem _ _ (by rwa [List.length_set]), List.getElem_set_self,
      List.getD_eq_getElem _ _ inside]
  · rw [if_neg same, List.append_nil, List.getD_eq_getElem?_getD, List.getElem?_set_ne same,
      List.getD_eq_getElem?_getD]

/-! ## Turns -/

/-- The queues that the next gets serve, with any puts in between; before each get no queue is
empty. -/
inductive Turns : QueueCache → List Nat → Prop
  | nil {pool : QueueCache} : Turns pool []
  | get {pool pool' : QueueCache} {zone : Nat} {served : List Nat} :
      (∀ queue ∈ pool.queues, queue ≠ []) → pool.get = some (zone, pool') → Turns pool' served →
        Turns pool (pool.front :: served)
  | put {pool : QueueCache} {zone : Nat} {served : List Nat} :
      Turns (pool.put zone) served → Turns pool served

/-- As long as no queue is empty, the queues are served in a circle. -/
theorem Turns.eq_turns {served : List Nat} (serves : Turns pool served)
    (inside : pool.ptr < pool.queues.length) :
    served = turns pool.queues.length pool.ptr served.length := by
  induction serves with
  | nil => rfl
  | @get pool pool' zone served nonempty got _ ih =>
      have here : pool.front = pool.ptr := by
        apply front_of_ne_nil
        rw [List.getD_eq_getElem _ _ inside]
        exact nonempty _ (List.getElem_mem inside)
      have length := length_get got
      obtain ⟨rest, -, next⟩ := get_eq_some_front got
      have ptr : pool'.ptr = (pool.ptr + 1) % pool.queues.length := by rw [next, ← here]
      have pos := Nat.zero_lt_of_lt inside
      have later := ih (by rw [length, ptr]; exact Nat.mod_lt _ pos)
      rw [length, ptr, turns_mod] at later
      rw [here, List.length_cons, turns_cons, Nat.mod_eq_of_lt inside, ← later]
  | @put pool zone served _ ih =>
      have length : (pool.put zone).queues.length = pool.queues.length := length_emplace ..
      have later := ih (by rw [length]; exact inside)
      rw [length] at later
      exact later

end QueueCache

/-! ## Runs -/

open QueueCache

inductive PoolOp
  | get
  | put (zone : Nat)
  deriving DecidableEq, Repr

/-- The pool with the zones that entered and left it, oldest first. -/
structure PoolRun where
  pool : QueueCache
  entered : List Nat
  left : List Nat

def PoolRun.start (num div : Nat) : PoolRun where
  pool := .new num div (num * div)
  entered := List.range (num * div)
  left := []

def PoolRun.step (run : PoolRun) : PoolOp → Option PoolRun
  | .get => run.pool.get.map fun got => ⟨got.2, run.entered, run.left ++ [got.1]⟩
  | .put zone => some ⟨run.pool.put zone, run.entered ++ [zone], run.left⟩

def serving (num div : Nat) : System PoolRun PoolOp where
  Init run := run = .start num div
  Step run op run' := run.step op = some run'

/-- A get needs a zone, and a put a zone number that is not in the pool. -/
def Allowed (num div : Nat) (run : PoolRun) : PoolOp → Prop
  | .get => run.pool.empty = false
  | .put zone => zone < num * div ∧ zone ∉ run.pool.contents

instance (num div : Nat) (run : PoolRun) (op : PoolOp) : Decidable (Allowed num div run op) :=
  match op with
  | .get => inferInstanceAs (Decidable (_ = _))
  | .put _ => inferInstanceAs (Decidable (_ ∧ _))

/-- The zones of one queue. -/
def ofQueue (div q : Nat) (zones : List Nat) : List Nat :=
  zones.filter (fun zone => index div zone = q)

@[simp]
theorem ofQueue_concat (div q : Nat) (zones : List Nat) (zone : Nat) :
    ofQueue div q (zones ++ [zone]) =
      ofQueue div q zones ++ if index div zone = q then [zone] else [] := by
  rw [ofQueue, List.filter_append]
  congr 1
  by_cases same : index div zone = q
  · rw [if_pos same, List.filter_singleton, decide_eq_true same]
    rfl
  · rw [if_neg same, List.filter_singleton, decide_eq_false same]
    rfl

/-- The counters are truthful and every queue holds the rest of its zones. -/
structure Queued (num div : Nat) (run : PoolRun) : Prop where
  length_eq : run.pool.queues.length = num
  div_eq : run.pool.div = div
  size_eq : run.pool.size = run.pool.contents.length
  ptr_lt : 0 < num → run.pool.ptr < num
  kept : ∀ zone, run.left.count zone + run.pool.contents.count zone = run.entered.count zone
  once : ∀ zone, run.pool.contents.count zone ≤ 1
  fifo : ∀ q, ofQueue div q run.entered =
    ofQueue div q run.left ++ run.pool.queues.getD q []

section Runs

variable {num div : Nat} {run run' : PoolRun}

theorem getD_foldl_emplace (zones : List Nat) (inside : ∀ zone ∈ zones, index div zone < num)
    (q : Nat) :
    (zones.foldl (emplace div) (List.replicate num [])).length = num ∧
      (zones.foldl (emplace div) (List.replicate num [])).getD q [] = ofQueue div q zones := by
  induction zones using List.reverseRecOn with
  | nil =>
      refine ⟨List.length_replicate, ?_⟩
      rw [List.foldl_nil, List.getD_eq_getElem?_getD, List.getElem?_replicate]
      split
      · rfl
      · rfl
  | append_singleton zones zone ih =>
      obtain ⟨length, eq⟩ := ih fun other mem => inside other (List.mem_append_left _ mem)
      have lt := inside zone (List.mem_append_right _ (List.mem_singleton_self zone))
      rw [List.foldl_concat, length_emplace, getD_emplace (by rwa [length]), eq, ofQueue_concat]
      exact ⟨length, rfl⟩

theorem queued_start (even : 2 ∣ num) : Queued num div (.start num div) := by
  have inside : ∀ zone < num * div, index div zone < num :=
    fun zone lt => index_lt even rfl lt
  have built := getD_foldl_emplace (List.range (num * div))
    fun zone mem => inside zone (List.mem_range.mp mem)
  have count := count_new inside
  refine ⟨(built 0).1, rfl, ?_, fun pos => pos, ?_, ?_, ?_⟩
  · have perm : (QueueCache.new num div (num * div)).contents.Perm (List.range (num * div)) := by
      rw [List.perm_iff_count]
      intro zone
      rw [count, List.count_range]
    exact List.length_range.symm.trans perm.length_eq.symm
  · intro zone
    change 0 + (QueueCache.new num div (num * div)).contents.count zone = _
    rw [Nat.zero_add, count]
    exact List.count_range.symm
  · intro zone
    rw [PoolRun.start, count]
    split
    · exact Nat.le_refl 1
    · exact Nat.zero_le 1
  · intro q
    exact (built q).2.symm

/-- Step lemma for a get. -/
theorem Queued.get (queued : Queued num div run) {zone : Nat} {pool : QueueCache}
    (got : run.pool.get = some (zone, pool)) :
    Queued num div ⟨pool, run.entered, run.left ++ [zone]⟩ := by
  have served := front_ne_nil_of_get got
  have frontLt := lt_of_getD_ne_nil served
  have count := count_get got
  have length := length_get got
  obtain ⟨rest, queueEq, rfl⟩ := get_eq_some_front got
  have ofFront : index div zone = run.pool.front := by
    have mem : zone ∈ ofQueue div run.pool.front run.entered := by
      rw [queued.fifo, queueEq]
      exact List.mem_append_right _ List.mem_cons_self
    exact of_decide_eq_true (List.mem_filter.mp mem).2
  have shorter := length_flatten_set frontLt rest
  rw [List.getD_eq_getElem _ _ frontLt] at queueEq
  rw [queueEq, List.length_cons] at shorter
  refine ⟨length.trans queued.length_eq, queued.div_eq, ?_, ?_, ?_, ?_, ?_⟩
  · simp only [contents, queued.size_eq] at shorter ⊢
    omega
  · intro pos
    rw [← queued.length_eq] at pos ⊢
    exact Nat.mod_lt _ pos
  · intro other
    have before := queued.kept other
    rw [count other] at before
    rw [List.count_append, List.count_singleton, ← before]
    by_cases same : other = zone
    · subst same
      simp only [beq_self_eq_true, if_true]
      omega
    · have differ : (zone == other) = false := by simpa using Ne.symm same
      simp only [differ, same, if_false, Bool.false_eq_true]
      omega
  · intro other
    have before := queued.once other
    rw [count other] at before
    exact Nat.le_trans (Nat.le_add_right ..) before
  · intro q
    rw [ofQueue_concat, queued.fifo q, List.append_assoc, ofFront]
    congr 1
    by_cases same : run.pool.front = q
    · subst same
      rw [if_pos rfl, List.getD_eq_getElem _ _ frontLt, queueEq,
        List.getD_eq_getElem _ _ (by rwa [List.length_set]), List.getElem_set_self]
      rfl
    · rw [if_neg same, List.nil_append, List.getD_eq_getElem?_getD, List.getD_eq_getElem?_getD,
        List.getElem?_set_ne same]

/-- Step lemma for a put. -/
theorem Queued.put (queued : Queued num div run) {zone : Nat} (inside : index div zone < num)
    (absent : zone ∉ run.pool.contents) :
    Queued num div ⟨run.pool.put zone, run.entered ++ [zone], run.left⟩ := by
  have lt : index run.pool.div zone < run.pool.queues.length := by
    rwa [queued.div_eq, queued.length_eq]
  have count := count_put lt
  refine ⟨(length_emplace ..).trans queued.length_eq, queued.div_eq, ?_, queued.ptr_lt, ?_, ?_, ?_⟩
  · have longer := length_flatten_emplace lt
    exact (congrArg (· + 1) queued.size_eq).trans longer.symm
  · intro other
    rw [count other, ← Nat.add_assoc, queued.kept other, List.count_append, List.count_singleton]
    by_cases same : other = zone
    · subst same
      rw [if_pos rfl, beq_self_eq_true, if_pos rfl]
    · have differ : (zone == other) = false := by simpa using Ne.symm same
      rw [if_neg same, differ]
      rfl
  · intro other
    rw [count other]
    split
    · rename_i same
      rw [same, List.count_eq_zero.mpr absent]
    · exact queued.once other
  · intro q
    have emplaced := getD_emplace lt q
    rw [queued.div_eq] at emplaced
    rw [ofQueue_concat, queued.fifo q, List.append_assoc, ← emplaced, QueueCache.put,
      queued.div_eq]

/-- Run lemma. -/
theorem queued_of_reachable (even : 2 ∣ num)
    (reachable : ((serving num div).guarded (Allowed num div)).Reachable run) :
    Queued num div run := by
  apply System.invariant_of_reachable _ _ reachable
  · rintro _ rfl
    exact queued_start even
  · rintro run op run' queued ⟨allowed, stepped⟩
    cases op with
    | get =>
        obtain ⟨⟨zone, pool⟩, got, rfl⟩ := Option.map_eq_some_iff.mp stepped
        exact queued.get got
    | put zone =>
        obtain rfl := Option.some.inj stepped
        exact queued.put (index_lt even rfl allowed.1) allowed.2

/-- Nothing is lost or duplicated, and the queues are served in turn. -/
structure Rotates (num div : Nat) (run : PoolRun) : Prop where
  index_lt : ∀ zone < num * div, index run.pool.div zone < run.pool.queues.length
  ptr_lt : 0 < num → run.pool.ptr < run.pool.queues.length
  size_eq : run.pool.size = (run.pool.queues.map List.length).sum
  contents : (run.left ++ run.pool.contents).Perm run.entered
  once : run.pool.contents.Nodup
  fifo : ∀ q < num, ofQueue div q run.entered =
    ofQueue div q run.left ++ run.pool.queues.getD q []
  /-- The search of `get` ends, at a queue with a zone. -/
  found : run.pool.empty = false →
    run.pool.front < run.pool.queues.length ∧ run.pool.queues.getD run.pool.front [] ≠ [] ∧
      (∀ more, seek run.pool.queues (run.pool.queues.length + more) run.pool.ptr =
        run.pool.front) ∧
      run.pool.get.isSome
  turns : ∀ served, Turns run.pool served → served.length ≤ num → served.Nodup

theorem Queued.num_pos (queued : Queued num div run) (nonempty : run.pool.empty = false) :
    0 < num := by
  apply Nat.pos_of_ne_zero
  rintro rfl
  have noQueues := List.length_eq_zero_iff.mp queued.length_eq
  have size := queued.size_eq
  rw [QueueCache.contents, noQueues] at size
  rw [QueueCache.empty, size] at nonempty
  exact absurd nonempty (by decide)

theorem Queued.wf (queued : Queued num div run) (nonempty : run.pool.empty = false) :
    run.pool.Wf := by
  refine ⟨queued.size_eq, ?_⟩
  rw [queued.length_eq]
  exact queued.ptr_lt (queued.num_pos nonempty)

/-- The search of a get ends at a queue with a zone. -/
theorem Queued.found (queued : Queued num div run) (nonempty : run.pool.empty = false) :
    run.pool.front < run.pool.queues.length ∧ run.pool.queues.getD run.pool.front [] ≠ [] ∧
      (∀ more, seek run.pool.queues (run.pool.queues.length + more) run.pool.ptr =
        run.pool.front) ∧
      run.pool.get.isSome := by
  have served := (queued.wf nonempty).get_isSome nonempty
  obtain ⟨⟨zone, pool⟩, got⟩ := Option.isSome_iff_exists.mp served
  have ended := front_ne_nil_of_get got
  refine ⟨lt_of_getD_ne_nil ended, ended, ?_, served⟩
  have search : run.pool.front = seek run.pool.queues run.pool.queues.length run.pool.ptr := by
    rw [front, nonempty]
    rfl
  intro more
  rw [search] at ended ⊢
  exact seek_add ended more

/-- One round serves no queue twice. -/
theorem Queued.nodup_turns (queued : Queued num div run) {served : List Nat}
    (serves : Turns run.pool served) (few : served.length ≤ num) : served.Nodup := by
  by_cases pos : 0 < num
  · have inside : run.pool.ptr < run.pool.queues.length := by
      rw [queued.length_eq]
      exact queued.ptr_lt pos
    rw [serves.eq_turns inside, queued.length_eq]
    exact RoundRobin.nodup_turns few
  · obtain rfl : served = [] := List.eq_nil_of_length_eq_zero (by omega)
    exact List.nodup_nil

/-- After every run of gets and puts. -/
theorem rotates_of_reachable (even : 2 ∣ num)
    (reachable : ((serving num div).guarded (Allowed num div)).Reachable run) :
    Rotates num div run := by
  have queued := queued_of_reachable even reachable
  constructor
  · intro zone lt
    rw [queued.div_eq, queued.length_eq]
    exact QueueCache.index_lt even rfl lt
  · rw [queued.length_eq]
    exact queued.ptr_lt
  · rw [queued.size_eq, QueueCache.contents, List.length_flatten]
  · rw [List.perm_iff_count]
    intro zone
    rw [List.count_append]
    exact queued.kept zone
  · exact List.nodup_iff_count_le_one.mpr queued.once
  · intro q _
    exact queued.fifo q
  · exact queued.found
  · intro served
    exact queued.nodup_turns

/-- Two zones are taken from a pool of four, and the first one comes back. -/
theorem rotates_after_put :
    ∃ run, System.run PoolRun.step (Allowed 2 2) (.start 2 2) [.get, .get, .put 0] = some run ∧
      Rotates 2 2 run := by
  obtain ⟨run, ran⟩ := Option.isSome_iff_exists.mp
    (show (System.run PoolRun.step (Allowed 2 2) (.start 2 2) [.get, .get, .put 0]).isSome by
      decide)
  have reachable : ((serving 2 2).guarded (Allowed 2 2)).Reachable run :=
    System.reachable_of_run (fun stepped => stepped) rfl ran
  exact ⟨run, ran, rotates_of_reachable (by decide) reachable⟩

end Runs

end ZnsLsm.Pool
