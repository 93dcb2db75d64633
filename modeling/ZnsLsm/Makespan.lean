import Mathlib.Data.Finset.Lattice.Fold
import Mathlib.Data.List.Induction
import Mathlib.Order.Lattice.Nat

/-!
# Jobs on parallel servers

All jobs of a batch arrive at the same time and take equally long.  Each waits until its
server is free.  The greatest response time of the batch is that of the server which ends
last, so it depends only on how many jobs each server has.
-/

namespace ZnsLsm.Makespan

universe u

variable {ι : Type u} [DecidableEq ι]

/-- Serve one job; `clock` says when a server is free. -/
def occupy (start len : Nat) (clock : ι → Nat) (server : ι) : ι → Nat :=
  Function.update clock server (max (clock server) start + len)

/-- Serve jobs one after the other; the second component is the greatest response time. -/
def serve (start len : Nat) (jobs : List ι) (state : (ι → Nat) × Nat) : (ι → Nat) × Nat :=
  jobs.foldl
    (fun state server =>
      (occupy start len state.1 server, max (max (state.1 server) start + len - start) state.2))
    state

/-- How long the jobs of a server take, with the wait for the server. -/
def span (start len : Nat) (clock : ι → Nat) (jobs : List ι) (server : ι) : Nat :=
  max (clock server) start + jobs.count server * len - start

variable {start len : Nat} {clock : ι → Nat} {jobs : List ι} {server : ι}

@[simp]
theorem serve_concat (jobs : List ι) (server : ι) (state : (ι → Nat) × Nat) :
    serve start len (jobs ++ [server]) state =
      (occupy start len (serve start len jobs state).1 server,
        max (max ((serve start len jobs state).1 server) start + len - start)
          (serve start len jobs state).2) :=
  List.foldl_append

/-- A server that gets jobs works them off without a break. -/
theorem clock_serve (start len : Nat) (clock : ι → Nat) (jobs : List ι) (longest : Nat)
    (server : ι) :
    (serve start len jobs (clock, longest)).1 server =
      if server ∈ jobs then max (clock server) start + jobs.count server * len
      else clock server := by
  induction jobs using List.reverseRecOn with
  | nil => rfl
  | append_singleton jobs last ih =>
      simp only [serve_concat, occupy]
      by_cases same : server = last
      · subst same
        have member : server ∈ jobs ++ [server] :=
          List.mem_append_right _ (List.mem_singleton_self server)
        rw [Function.update_self, ih, if_pos member, List.count_append, List.count_singleton_self,
          Nat.add_mul, Nat.one_mul, ← Nat.add_assoc]
        by_cases mem : server ∈ jobs
        · rw [if_pos mem, max_eq_left]
          exact (le_max_right _ _).trans (Nat.le_add_right ..)
        · rw [if_neg mem, List.count_eq_zero.mpr mem, Nat.zero_mul, Nat.add_zero]
      · have other : server ∈ jobs ++ [last] ↔ server ∈ jobs := by
          rw [List.mem_append, List.mem_singleton, or_iff_left same]
        rw [Function.update_of_ne same, ih, List.count_append,
          List.count_eq_zero.mpr (mt List.mem_singleton.mp same), Nat.add_zero]
        simp only [other]

/-- The response of one more job is the span of its server. -/
theorem response_eq (start len : Nat) (clock : ι → Nat) (jobs : List ι) (longest : Nat)
    (server : ι) :
    max ((serve start len jobs (clock, longest)).1 server) start + len - start =
      span start len clock (jobs ++ [server]) server := by
  have after := clock_serve start len clock (jobs ++ [server]) longest server
  rw [serve_concat, if_pos (List.mem_append_right _ (List.mem_singleton_self server))] at after
  simp only [occupy, Function.update_self] at after
  rw [after, span]

theorem span_concat_le (jobs : List ι) (last server : ι) :
    span start len clock jobs server ≤ span start len clock (jobs ++ [last]) server := by
  rw [span, span, List.count_append]
  exact Nat.sub_le_sub_right
    (Nat.add_le_add_left (Nat.mul_le_mul_right _ (Nat.le_add_right ..)) _) _

@[simp]
theorem span_concat_of_ne {last : ι} (differ : server ≠ last) :
    span start len clock (jobs ++ [last]) server = span start len clock jobs server := by
  rw [span, span, List.count_append, List.count_eq_zero.mpr (mt List.mem_singleton.mp differ),
    Nat.add_zero]

/-- The greatest response time is the greatest span of a server. -/
theorem longest_serve (start len : Nat) (clock : ι → Nat) (jobs : List ι) :
    (serve start len jobs (clock, 0)).2 = jobs.toFinset.sup (span start len clock jobs) := by
  induction jobs using List.reverseRecOn with
  | nil => rfl
  | append_singleton jobs last ih =>
      have servers : (jobs ++ [last]).toFinset = insert last jobs.toFinset := by
        ext server
        rw [List.mem_toFinset, Finset.mem_insert, List.mem_toFinset, List.mem_append,
          List.mem_singleton, or_comm]
      rw [serve_concat, response_eq, ih, servers, Finset.sup_insert]
      apply le_antisymm
      · apply max_le_max_left
        exact Finset.sup_mono_fun fun server _ => span_concat_le jobs last server
      · apply max_le (le_max_left _ _)
        apply Finset.sup_le
        intro server mem
        by_cases same : server = last
        · subst same
          exact le_max_left _ _
        · rw [span_concat_of_ne same]
          exact (Finset.le_sup mem).trans (le_max_right _ _)

/-- On free servers a span is the work of the server. -/
@[simp]
theorem span_of_idle (idle : clock server ≤ start) :
    span start len clock jobs server = jobs.count server * len := by
  rw [span, max_eq_right idle, Nat.add_sub_cancel_left]

end ZnsLsm.Makespan
