import Mathlib.Algebra.GroupWithZero.Nat
import Mathlib.Data.List.Induction
import Mathlib.Logic.Function.Basic
import Mathlib.Order.Lattice.Nat

/-!
# Servers that work their jobs off in turn

Every job arrives at a server at some time, waits until the server has done the jobs that
were booked before it, and occupies the server for its length.  The jobs of a server never
overlap, and as long as a job waits that was not booked early, its server is at work.
-/

namespace ZnsLsm.Timetable

universe u

structure Job (ι : Type u) where
  server : ι
  arrival : Nat
  len : Nat

/-- A job with the time at which it starts. -/
structure Slot (ι : Type u) extends Job ι where
  start : Nat

variable {ι : Type u}

def Slot.finish (slot : Slot ι) : Nat :=
  slot.start + slot.len

variable [DecidableEq ι]

/-- The slot of the next job; `clock` says when a server is free. -/
def slotOf (clock : ι → Nat) (job : Job ι) : Slot ι :=
  { job with start := max (clock job.server) job.arrival }

def book (clock : ι → Nat) (job : Job ι) : ι → Nat :=
  Function.update clock job.server (slotOf clock job).finish

/-- When the servers are free after some jobs. -/
def clockAfter (clock : ι → Nat) (jobs : List (Job ι)) : ι → Nat :=
  jobs.foldl book clock

def timetable (clock : ι → Nat) : List (Job ι) → List (Slot ι)
  | [] => []
  | job :: jobs => slotOf clock job :: timetable (book clock job) jobs

variable {clock : ι → Nat} {jobs : List (Job ι)} {job : Job ι} {server : ι} {slot : Slot ι}

theorem clockAfter_append (clock : ι → Nat) (jobs jobs' : List (Job ι)) :
    clockAfter clock (jobs ++ jobs') = clockAfter (clockAfter clock jobs) jobs' :=
  List.foldl_append

theorem timetable_append (clock : ι → Nat) (jobs jobs' : List (Job ι)) :
    timetable clock (jobs ++ jobs') =
      timetable clock jobs ++ timetable (clockAfter clock jobs) jobs' := by
  induction jobs generalizing clock with
  | nil => rfl
  | cons job jobs ih => exact congrArg (List.cons _) (ih (book clock job))

@[simp]
theorem timetable_concat (clock : ι → Nat) (jobs : List (Job ι)) (job : Job ι) :
    timetable clock (jobs ++ [job]) =
      timetable clock jobs ++ [slotOf (clockAfter clock jobs) job] :=
  timetable_append clock jobs [job]

@[simp]
theorem clockAfter_concat (clock : ι → Nat) (jobs : List (Job ι)) (job : Job ι) :
    clockAfter clock (jobs ++ [job]) = book (clockAfter clock jobs) job :=
  clockAfter_append clock jobs [job]

/-- The jobs are in the timetable, in order. -/
@[simp]
theorem map_toJob_timetable (clock : ι → Nat) (jobs : List (Job ι)) :
    (timetable clock jobs).map Slot.toJob = jobs := by
  induction jobs generalizing clock with
  | nil => rfl
  | cons job jobs ih => exact congrArg (List.cons job) (ih (book clock job))

/-- A server is free when its last job is done. -/
theorem finish_le_clockAfter (mem : slot ∈ timetable clock jobs) :
    slot.finish ≤ clockAfter clock jobs slot.server := by
  induction jobs using List.reverseRecOn with
  | nil => cases mem
  | append_singleton jobs job ih =>
      rw [timetable_concat, List.mem_append, List.mem_singleton] at mem
      rw [clockAfter_concat, book]
      rcases mem with before | rfl
      · have earlier := ih before
        by_cases same : slot.server = job.server
        · rw [same, Function.update_self]
          rw [same] at earlier
          exact earlier.trans ((le_max_left _ _).trans (Nat.le_add_right _ _))
        · rwa [Function.update_of_ne same]
      · exact (Function.update_self job.server _ (clockAfter clock jobs)).ge

/-- Two jobs of a server do not overlap. -/
theorem timetable_pairwise (clock : ι → Nat) (jobs : List (Job ι)) :
    (timetable clock jobs).Pairwise fun slot later =>
      slot.server = later.server → slot.finish ≤ later.start := by
  induction jobs using List.reverseRecOn with
  | nil => exact List.Pairwise.nil
  | append_singleton jobs job ih =>
      rw [timetable_concat, List.pairwise_append]
      refine ⟨ih, List.pairwise_singleton _ _, ?_⟩
      intro slot mem last isLast same
      rw [List.mem_singleton] at isLast
      subst isLast
      have earlier := finish_le_clockAfter mem
      rw [show slot.server = job.server from same] at earlier
      exact earlier.trans (le_max_left _ _)

/-- From the arrival of its latest job until it is free, a server is at work, or was not free
from the beginning. -/
theorem at_work {arrival time : Nat} (arrived : arrival ≤ time)
    (early : ∀ job ∈ jobs, job.server = server → job.arrival ≤ arrival)
    (busy : time < clockAfter clock jobs server) :
    time < clock server ∨ ∃ slot ∈ timetable clock jobs,
      slot.server = server ∧ slot.start ≤ time ∧ time < slot.finish := by
  induction jobs using List.reverseRecOn with
  | nil => exact .inl busy
  | append_singleton jobs job ih =>
      have before := ih fun other mem => early other (List.mem_append_left _ mem)
      have extend : (time < clock server ∨ ∃ slot ∈ timetable clock jobs,
          slot.server = server ∧ slot.start ≤ time ∧ time < slot.finish) →
          time < clock server ∨ ∃ slot ∈ timetable clock (jobs ++ [job]),
            slot.server = server ∧ slot.start ≤ time ∧ time < slot.finish := by
        rw [timetable_concat]
        exact Or.imp_right fun ⟨slot, mem, facts⟩ => ⟨slot, List.mem_append_left _ mem, facts⟩
      rw [clockAfter_concat, book] at busy
      by_cases same : server = job.server
      · subst same
        rw [Function.update_self] at busy
        by_cases started : (slotOf (clockAfter clock jobs) job).start ≤ time
        · right
          rw [timetable_concat]
          exact ⟨_, List.mem_append_right _ (List.mem_singleton_self _), rfl, started, busy⟩
        · apply extend
          apply before
          have arrives : job.arrival ≤ time :=
            (early job (List.mem_append_right _ (List.mem_singleton_self _)) rfl).trans arrived
          exact (lt_max_iff.mp (Nat.lt_of_not_le started)).resolve_right (Nat.not_lt.mpr arrives)
      · rw [Function.update_of_ne same] at busy
        exact extend (before busy)

/-- While a job waits, and none of its server that was booked earlier came later, its server is
at work. -/
theorem at_work_of_waiting {before after : List (Slot ι)}
    (split : timetable clock jobs = before ++ slot :: after)
    (early : ∀ other ∈ before, other.server = slot.server → other.arrival ≤ slot.arrival)
    {time : Nat} (arrived : slot.arrival ≤ time) (waits : time < slot.start) :
    time < clock slot.server ∨ ∃ other ∈ before,
      other.server = slot.server ∧ other.start ≤ time ∧ time < other.finish := by
  have jobsSplit : jobs = before.map Slot.toJob ++ slot.toJob :: after.map Slot.toJob := by
    rw [← map_toJob_timetable clock jobs, split, List.map_append, List.map_cons]
  have table := split
  rw [jobsSplit, timetable_append] at table
  have lengths : (timetable clock (before.map Slot.toJob)).length = before.length := by
    rw [← List.length_map Slot.toJob, map_toJob_timetable, List.length_map]
  obtain ⟨first, rest⟩ := List.append_inj table lengths
  obtain ⟨this, -⟩ := List.cons.inj rest
  have start : slot.start = max (clockAfter clock (before.map Slot.toJob) slot.server)
      slot.arrival := congrArg Slot.start this.symm
  rw [start] at waits
  have busy := (lt_max_iff.mp waits).resolve_right (Nat.not_lt.mpr arrived)
  rw [← first]
  apply at_work arrived _ busy
  intro job mem same
  obtain ⟨other, isBefore, rfl⟩ := List.mem_map.mp mem
  exact early other isBefore same

/-- The work of a server is done by the time it is free. -/
theorem work_le_clockAfter (clock : ι → Nat) (jobs : List (Job ι)) (server : ι) :
    clock server + ((jobs.filter (·.server = server)).map Job.len).sum ≤
      clockAfter clock jobs server := by
  induction jobs using List.reverseRecOn with
  | nil => exact Nat.le_refl _
  | append_singleton jobs job ih =>
      rw [clockAfter_concat, book, List.filter_append, List.map_append, List.sum_append]
      by_cases same : server = job.server
      · subst same
        rw [Function.update_self]
        have waits :
            clockAfter clock jobs job.server ≤ (slotOf (clockAfter clock jobs) job).start :=
          le_max_left _ _
        simp only [decide_true, List.filter_cons_of_pos, List.filter_nil, List.map_cons,
          List.map_nil, List.sum_singleton, Slot.finish]
        have len : (slotOf (clockAfter clock jobs) job).len = job.len := rfl
        omega
      · rw [Function.update_of_ne same]
        have other : [job].filter (·.server = server) = [] := by
          simp [Ne.symm same]
        rw [other]
        exact ih

end ZnsLsm.Timetable
