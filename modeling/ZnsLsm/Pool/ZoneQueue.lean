import Mathlib.Data.List.Count
import Mathlib.Data.List.GetD
import Mathlib.Algebra.BigOperators.Group.List.Basic

/-!
# The striped pool of free zones

`queue_cache` spreads the free zones over queues, one for the zones of a die, and
serves the queues in turn.
-/

namespace ZnsLsm.Pool

structure QueueCache where
  queues : List (List Nat)
  ptr : Nat
  div : Nat
  size : Nat

namespace QueueCache

/-- The queue of a zone. -/
def index (div order : Nat) : Nat :=
  order / 2 / div * 2 + order % 2

/-- `queues[index].emplace(order)`. -/
def emplace (div : Nat) (queues : List (List Nat)) (order : Nat) : List (List Nat) :=
  queues.modify (index div order) (fun queue => queue ++ [order])

/-- The constructor `queue_cache(num, div, total)`. -/
def new (num div total : Nat) : QueueCache where
  queues := (List.range total).foldl (emplace div) (List.replicate num [])
  ptr := 0
  div := div
  size := total

def empty (pool : QueueCache) : Bool :=
  pool.size == 0

/-- The search loop of `get`: advance `ptr` past empty queues.  A round over all
queues is enough when one of them is not empty. -/
def seek (queues : List (List Nat)) : Nat → Nat → Nat
  | 0, ptr => ptr
  | rounds + 1, ptr =>
      if (queues.getD ptr []).isEmpty then seek queues rounds ((ptr + 1) % queues.length)
      else ptr

/-- `queue_cache::get`; `none` is `front` on an empty queue. -/
def get (pool : QueueCache) : Option (Nat × QueueCache) :=
  let ptr := if pool.empty then pool.ptr else seek pool.queues pool.queues.length pool.ptr
  match pool.queues.getD ptr [] with
  | [] => none
  | val :: rest =>
      some (val,
        { pool with
          queues := pool.queues.set ptr rest
          ptr := (ptr + 1) % pool.queues.length
          size := pool.size - 1 })

/-- `queue_cache::put`. -/
def put (pool : QueueCache) (order : Nat) : QueueCache :=
  { pool with queues := emplace pool.div pool.queues order, size := pool.size + 1 }

/-- All zones of the pool. -/
def contents (pool : QueueCache) : List Nat :=
  pool.queues.flatten

/-- The size counter is truthful and the cursor is within bounds. -/
structure Wf (pool : QueueCache) : Prop where
  size_eq : pool.size = pool.contents.length
  ptr_lt : pool.ptr < pool.queues.length

variable {pool : QueueCache}

/-- Replacing one queue changes the count of a zone by that queue's change. -/
theorem count_flatten_set {queues : List (List Nat)} {ptr : Nat} (lt : ptr < queues.length)
    (queue : List Nat) (zone : Nat) :
    (queues.set ptr queue).flatten.count zone + (queues[ptr]).count zone =
      queues.flatten.count zone + queue.count zone := by
  induction queues generalizing ptr with
  | nil => simp at lt
  | cons head tail ih =>
      cases ptr with
      | zero => simp only [List.set_cons_zero, List.flatten_cons, List.count_append,
          List.getElem_cons_zero]; omega
      | succ ptr =>
          have := ih (Nat.lt_of_succ_lt_succ lt)
          simp only [List.set_cons_succ, List.flatten_cons, List.count_append,
            List.getElem_cons_succ]
          omega

theorem length_flatten_set {queues : List (List Nat)} {ptr : Nat} (lt : ptr < queues.length)
    (queue : List Nat) :
    (queues.set ptr queue).flatten.length + (queues[ptr]).length =
      queues.flatten.length + queue.length := by
  induction queues generalizing ptr with
  | nil => simp at lt
  | cons head tail ih =>
      cases ptr with
      | zero => simp only [List.set_cons_zero, List.flatten_cons, List.length_append,
          List.getElem_cons_zero]; omega
      | succ ptr =>
          have := ih (Nat.lt_of_succ_lt_succ lt)
          simp only [List.set_cons_succ, List.flatten_cons, List.length_append,
            List.getElem_cons_succ]
          omega

/-! ## Taking a zone -/

/-- The search stops at a non-empty queue within `rounds` of the cursor. -/
theorem seek_nonempty {queues : List (List Nat)} (rounds : Nat) {ptr ahead : Nat}
    (lt : ptr < queues.length) (near : ahead < rounds)
    (nonempty : queues.getD ((ptr + ahead) % queues.length) [] ≠ []) :
    queues.getD (seek queues rounds ptr) [] ≠ [] := by
  induction rounds generalizing ptr ahead with
  | zero => exact absurd near (Nat.not_lt_zero _)
  | succ rounds ih =>
      unfold seek
      split
      · rename_i isEmpty
        cases ahead with
        | zero =>
            rw [Nat.add_zero, Nat.mod_eq_of_lt lt] at nonempty
            exact absurd (List.isEmpty_iff.mp isEmpty) nonempty
        | succ ahead =>
            apply ih (Nat.mod_lt _ (Nat.zero_lt_of_lt lt)) (Nat.lt_of_succ_lt_succ near)
            rw [Nat.mod_add_mod, Nat.add_right_comm]
            exact nonempty
      · rename_i notEmpty
        simpa [List.isEmpty_iff] using notEmpty

/-- A queue with a zone in it is one of the queues. -/
theorem getElem_of_getD_eq_cons {queues : List (List Nat)} {ptr zone : Nat} {rest : List Nat}
    (queueEq : queues.getD ptr [] = zone :: rest) :
    ∃ lt : ptr < queues.length, queues[ptr] = zone :: rest := by
  have lt : ptr < queues.length := by
    by_contra ge
    rw [List.getD_eq_default _ _ (Nat.le_of_not_lt ge)] at queueEq
    cases queueEq
  rw [List.getD_eq_getElem _ _ lt] at queueEq
  exact ⟨lt, queueEq⟩

/-- What a successful `get` does, in terms of the queue that it serves. -/
theorem get_eq_some {zone : Nat} {pool' : QueueCache} (got : pool.get = some (zone, pool')) :
    ∃ (ptr : Nat) (rest : List Nat) (lt : ptr < pool.queues.length),
      pool.queues[ptr] = zone :: rest ∧
      pool' = { pool with
        queues := pool.queues.set ptr rest
        ptr := (ptr + 1) % pool.queues.length
        size := pool.size - 1 } := by
  unfold get at got
  simp only at got
  split at got
  · cases got
  · rename_i val rest queueEq
    cases got
    obtain ⟨lt, queueEq'⟩ := getElem_of_getD_eq_cons queueEq
    exact ⟨_, rest, lt, queueEq', rfl⟩

/-- Taking a zone removes one occurrence of it. -/
theorem count_get {zone : Nat} {pool' : QueueCache} (got : pool.get = some (zone, pool'))
    (z : Nat) :
    pool.contents.count z = pool'.contents.count z + if z = zone then 1 else 0 := by
  obtain ⟨ptr, rest, lt, queueEq, rfl⟩ := get_eq_some got
  have := count_flatten_set lt rest z
  rw [queueEq, List.count_cons] at this
  simp only [contents]
  by_cases same : z = zone
  · subst same
    simp only [beq_self_eq_true, if_true] at this ⊢
    omega
  · have differ : (zone == z) = false := by simpa using Ne.symm same
    simp only [differ, same, if_false, Bool.false_eq_true] at this ⊢
    omega

theorem Wf.get (wf : pool.Wf) {zone : Nat} {pool' : QueueCache}
    (got : pool.get = some (zone, pool')) : pool'.Wf := by
  obtain ⟨ptr, rest, lt, queueEq, rfl⟩ := get_eq_some got
  have := length_flatten_set lt rest
  rw [queueEq, List.length_cons] at this
  refine ⟨?_, ?_⟩
  · simp only [contents, wf.size_eq]
    omega
  · simp only [List.length_set]
    exact Nat.mod_lt _ (Nat.zero_lt_of_lt lt)

/-- A pool that is not empty serves a zone. -/
theorem Wf.get_isSome (wf : pool.Wf) (nonempty : pool.empty = false) : pool.get.isSome := by
  have sizeNe : pool.size ≠ 0 := by simpa [empty] using nonempty
  have contentsNe : pool.contents ≠ [] := fun nil => sizeNe (by rw [wf.size_eq, nil]; rfl)
  obtain ⟨queue, mem, queueNe⟩ : ∃ queue ∈ pool.queues, queue ≠ [] := by
    by_contra none
    push Not at none
    exact contentsNe (List.flatten_eq_nil_iff.mpr none)
  obtain ⟨i, iLt, rfl⟩ := List.mem_iff_getElem.mp mem
  have near : (pool.ptr + (i + pool.queues.length - pool.ptr) % pool.queues.length) %
      pool.queues.length = i := by
    have ptrLt := wf.ptr_lt
    rw [Nat.add_mod_mod, Nat.add_sub_cancel' (by omega), Nat.add_mod_right,
      Nat.mod_eq_of_lt iLt]
  have found := seek_nonempty pool.queues.length wf.ptr_lt
    (Nat.mod_lt (i + pool.queues.length - pool.ptr) (Nat.zero_lt_of_lt wf.ptr_lt))
    (by rw [near, List.getD_eq_getElem _ _ iLt]; exact queueNe)
  unfold QueueCache.get
  simp only [nonempty, Bool.false_eq_true, if_false]
  split
  · rename_i nil
    exact absurd nil found
  · rfl

/-! ## Returning a zone -/

@[simp]
theorem length_emplace (div : Nat) (queues : List (List Nat)) (order : Nat) :
    (emplace div queues order).length = queues.length := by
  simp [emplace]

theorem flatten_emplace_eq_set {div : Nat} {queues : List (List Nat)} {order : Nat}
    (lt : index div order < queues.length) :
    emplace div queues order =
      queues.set (index div order) (queues[index div order] ++ [order]) := by
  rw [emplace, List.modify_eq_set_getElem?, List.getElem?_eq_getElem lt]
  rfl

theorem count_emplace {div : Nat} {queues : List (List Nat)} {order : Nat}
    (lt : index div order < queues.length) (z : Nat) :
    (emplace div queues order).flatten.count z =
      queues.flatten.count z + if z = order then 1 else 0 := by
  have := count_flatten_set lt (queues[index div order] ++ [order]) z
  rw [← flatten_emplace_eq_set lt, List.count_append, List.count_singleton] at this
  by_cases same : z = order
  · subst same
    simp only [beq_self_eq_true, if_true] at this ⊢
    omega
  · have differ : (order == z) = false := by simpa using Ne.symm same
    simp only [differ, same, if_false, Bool.false_eq_true] at this ⊢
    omega

theorem length_flatten_emplace {div : Nat} {queues : List (List Nat)} {order : Nat}
    (lt : index div order < queues.length) :
    (emplace div queues order).flatten.length = queues.flatten.length + 1 := by
  have := length_flatten_set lt (queues[index div order] ++ [order])
  rw [← flatten_emplace_eq_set lt, List.length_append, List.length_singleton] at this
  omega

theorem count_put {order : Nat} (lt : index pool.div order < pool.queues.length) (z : Nat) :
    (pool.put order).contents.count z =
      pool.contents.count z + if z = order then 1 else 0 :=
  count_emplace lt z

theorem Wf.put (wf : pool.Wf) {order : Nat}
    (lt : index pool.div order < pool.queues.length) : (pool.put order).Wf where
  size_eq := by
    have := length_flatten_emplace lt
    simp only [QueueCache.put, contents, wf.size_eq] at this ⊢
    exact this.symm
  ptr_lt := by simpa [QueueCache.put] using wf.ptr_lt

/-! ## The initial pool -/

/-- The queue index is within bounds for every zone, given an even number of
queues. -/
theorem index_lt {num div total order : Nat} (even : 2 ∣ num)
    (total_eq : total = num * div) (lt : order < total) : index div order < num := by
  obtain ⟨half, rfl⟩ := even
  have pairLt : order / 2 / div < half := by
    rw [Nat.div_div_eq_div_mul]
    apply Nat.div_lt_of_lt_mul
    calc
      order < 2 * half * div := total_eq ▸ lt
      _ = 2 * div * half := by
        rw [Nat.mul_assoc, Nat.mul_assoc, Nat.mul_comm half]
  unfold index
  omega

private theorem foldl_emplace (div : Nat) (zones : List Nat) (queues : List (List Nat))
    (inside : ∀ zone ∈ zones, index div zone < queues.length) :
    (zones.foldl (emplace div) queues).length = queues.length ∧
      ∀ z, (zones.foldl (emplace div) queues).flatten.count z =
        queues.flatten.count z + zones.count z := by
  induction zones generalizing queues with
  | nil => simp
  | cons zone zones ih =>
      have zoneLt := inside zone List.mem_cons_self
      obtain ⟨lengthEq, countEq⟩ := ih (emplace div queues zone) (fun z mem => by
        rw [length_emplace]
        exact inside z (List.mem_cons_of_mem zone mem))
      refine ⟨by simpa using lengthEq, fun z => ?_⟩
      rw [List.foldl_cons, countEq, count_emplace zoneLt, List.count_cons]
      by_cases same : z = zone
      · subst same
        simp
        omega
      · have differ : (zone == z) = false := by simpa using Ne.symm same
        simp [same, differ]

variable {num div total : Nat}

@[simp]
theorem length_new (inside : ∀ zone < total, index div zone < num) :
    (new num div total).queues.length = num := by
  have built := foldl_emplace div (List.range total) (List.replicate num [])
    (fun zone mem => by simpa using inside zone (List.mem_range.mp mem))
  simpa [new] using built.1

/-- The initial pool holds every zone once. -/
@[simp]
theorem count_new (inside : ∀ zone < total, index div zone < num) (z : Nat) :
    (new num div total).contents.count z = if z < total then 1 else 0 := by
  have built := foldl_emplace div (List.range total) (List.replicate num [])
    (fun zone mem => by simpa using inside zone (List.mem_range.mp mem))
  have := built.2 z
  simpa [new, contents, List.count_range] using this

theorem wf_new (inside : ∀ zone < total, index div zone < num) (numPos : 0 < num) :
    (new num div total).Wf where
  size_eq := by
    have perm : (new num div total).contents.Perm (List.range total) := by
      rw [List.perm_iff_count]
      intro z
      rw [count_new inside, List.count_range]
    rw [perm.length_eq, List.length_range]
    rfl
  ptr_lt := by
    rw [length_new inside]
    exact numPos

end QueueCache

end ZnsLsm.Pool
