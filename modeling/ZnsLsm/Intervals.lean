import Mathlib.Data.List.Induction
import Mathlib.Order.Basic

/-!
# Maximal intervals of an increasing sequence

Numbers come one after the other in increasing order.  Each prolongs the last interval if it
continues it, and starts a new one otherwise; so the intervals cover exactly the numbers, and
between two intervals there is a gap.
-/

namespace ZnsLsm.Intervals

/-- Add a number that is greater than all covered ones. -/
def extend (intervals : List (Nat × Nat)) (number : Nat) : List (Nat × Nat) :=
  match intervals.getLast? with
  | none => [(number, number)]
  | some last =>
      if last.2 + 1 = number then intervals.dropLast ++ [(last.1, number)]
      else intervals ++ [(number, number)]

/-- The maximal intervals of an increasing list. -/
def ofList (numbers : List Nat) : List (Nat × Nat) :=
  numbers.foldl extend []

def Covers (intervals : List (Nat × Nat)) (number : Nat) : Prop :=
  ∃ it ∈ intervals, it.1 ≤ number ∧ number ≤ it.2

/-- Nonempty, in increasing order, and with a gap between any two. -/
structure Separated (intervals : List (Nat × Nat)) : Prop where
  ordered : ∀ it ∈ intervals, it.1 ≤ it.2
  apart : intervals.Pairwise (fun it later => it.2 + 1 < later.1)

variable {intervals : List (Nat × Nat)} {it last : Nat × Nat} {number other : Nat}

@[simp]
theorem covers_concat :
    Covers (intervals ++ [last]) number ↔
      Covers intervals number ∨ last.1 ≤ number ∧ number ≤ last.2 := by
  simp only [Covers, List.mem_append, List.mem_singleton, or_and_right, exists_or, exists_eq_left]

theorem separated_nil : Separated [] where
  ordered _ mem := absurd mem List.not_mem_nil
  apart := List.Pairwise.nil

@[simp]
theorem separated_concat :
    Separated (intervals ++ [last]) ↔
      Separated intervals ∧ last.1 ≤ last.2 ∧ ∀ it ∈ intervals, it.2 + 1 < last.1 := by
  constructor
  · intro separated
    obtain ⟨before, -, gap⟩ := List.pairwise_append.mp separated.apart
    refine ⟨⟨fun it mem => separated.ordered it (List.mem_append_left _ mem), before⟩, ?_, ?_⟩
    · exact separated.ordered last (List.mem_append_right _ (List.mem_singleton_self last))
    · exact fun it mem => gap it mem last (List.mem_singleton_self last)
  · rintro ⟨separated, ordered, gap⟩
    constructor
    · intro it mem
      rcases List.mem_append.mp mem with old | new
      · exact separated.ordered it old
      · obtain rfl := List.mem_singleton.mp new
        exact ordered
    · apply List.pairwise_append.mpr
      refine ⟨separated.apart, List.pairwise_singleton .., ?_⟩
      intro it mem other same
      obtain rfl := List.mem_singleton.mp same
      exact gap it mem

@[simp]
theorem extend_continued (front : List (Nat × Nat)) (first : Nat) (next : other + 1 = number) :
    extend (front ++ [(first, other)]) number = front ++ [(first, number)] := by
  rw [extend, List.getLast?_concat, List.dropLast_concat]
  exact if_pos next

/-- A number that continues no interval starts a new one. -/
theorem extend_apart (gap : ∀ it ∈ intervals, it.2 + 1 < number) :
    extend intervals number = intervals ++ [(number, number)] := by
  rw [extend]
  split
  · rename_i none
    rw [List.getLast?_eq_none_iff.mp none]
    rfl
  · rename_i last lastEq
    have less := gap last (List.mem_of_getLast? lastEq)
    exact if_neg (Nat.ne_of_lt less)

/-- Adding a number covers that number besides. -/
theorem extend_spec (separated : Separated intervals) (above : ∀ it ∈ intervals, it.2 < number) :
    Separated (extend intervals number) ∧ (∀ it ∈ extend intervals number, it.2 ≤ number) ∧
      ∀ other, Covers (extend intervals number) other ↔
        Covers intervals other ∨ other = number := by
  have fresh (gap : ∀ it ∈ intervals, it.2 + 1 < number) :
      Separated (extend intervals number) ∧ (∀ it ∈ extend intervals number, it.2 ≤ number) ∧
        ∀ other, Covers (extend intervals number) other ↔
          Covers intervals other ∨ other = number := by
    rw [extend_apart gap]
    refine ⟨separated_concat.mpr ⟨separated, Nat.le_refl _, gap⟩, ?_, ?_⟩
    · intro it mem
      rcases List.mem_append.mp mem with old | new
      · exact Nat.le_of_lt (above it old)
      · obtain rfl := List.mem_singleton.mp new
        exact Nat.le_refl number
    · intro other
      rw [covers_concat, and_comm, Nat.le_antisymm_iff]
  rcases List.eq_nil_or_concat intervals with rfl | ⟨front, ⟨first, last⟩, split⟩
  · exact fresh fun it mem => absurd mem List.not_mem_nil
  · rw [List.concat_eq_append] at split
    subst split
    obtain ⟨before, ordered, gap⟩ := separated_concat.mp separated
    have lastLt := above (first, last) (List.mem_append_right _ (List.mem_singleton_self _))
    simp only at ordered gap lastLt
    by_cases next : last + 1 = number
    · rw [extend_continued front first next]
      refine ⟨separated_concat.mpr ⟨before, by simp only; omega, gap⟩, ?_, ?_⟩
      · intro it mem
        rcases List.mem_append.mp mem with old | new
        · exact Nat.le_of_lt (above it (List.mem_append_left _ old))
        · obtain rfl := List.mem_singleton.mp new
          exact Nat.le_refl number
      · intro other
        rw [covers_concat, covers_concat, or_assoc]
        apply or_congr_right
        simp only
        omega
    · apply fresh
      intro it mem
      rcases List.mem_append.mp mem with old | new
      · have less := gap it old
        omega
      · obtain rfl := List.mem_singleton.mp new
        exact Nat.lt_of_le_of_ne lastLt next

/-- The intervals of an increasing list cover exactly its numbers. -/
theorem ofList_spec {numbers : List Nat} (increasing : numbers.Pairwise (· < ·)) :
    Separated (ofList numbers) ∧ ∀ number, Covers (ofList numbers) number ↔ number ∈ numbers := by
  suffices all : Separated (ofList numbers) ∧
      (∀ it ∈ ofList numbers, ∃ number ∈ numbers, it.2 ≤ number) ∧
      ∀ number, Covers (ofList numbers) number ↔ number ∈ numbers from ⟨all.1, all.2.2⟩
  induction numbers using List.reverseRecOn with
  | nil =>
      refine ⟨separated_nil, fun it mem => absurd mem List.not_mem_nil, fun number => ?_⟩
      exact iff_of_false (fun ⟨_, mem, _⟩ => List.not_mem_nil mem) List.not_mem_nil
  | append_singleton numbers number ih =>
      obtain ⟨before, -, later⟩ := List.pairwise_append.mp increasing
      obtain ⟨separated, bounded, covers⟩ := ih before
      have above : ∀ it ∈ ofList numbers, it.2 < number := by
        intro it mem
        obtain ⟨other, otherMem, le⟩ := bounded it mem
        exact Nat.lt_of_le_of_lt le (later other otherMem number (List.mem_singleton_self number))
      obtain ⟨separated', bounded', covers'⟩ := extend_spec separated above
      have step : ofList (numbers ++ [number]) = extend (ofList numbers) number :=
        List.foldl_append
      rw [step]
      refine ⟨separated', ?_, ?_⟩
      · intro it mem
        exact ⟨number, List.mem_append_right _ (List.mem_singleton_self number), bounded' it mem⟩
      · intro other
        rw [covers', covers, List.mem_append, List.mem_singleton]

end ZnsLsm.Intervals
