import Mathlib.Data.Int.CardIntervalMod

/-!
# Taking turns

`n` parties take turns in a circle.  Of `m` turns in a row every party gets `m / n`, rounded
up or down, and the one that begins gets the rounded up share.
-/

namespace ZnsLsm.RoundRobin

/-- The parties of `m` turns in a row, from `start` on. -/
def turns (n start m : Nat) : List Nat :=
  (List.range m).map (fun turn => (start + turn) % n)

/-- The share of one of `n` parties in `m` turns, rounded up. -/
def largestShare (n m : Nat) : Nat :=
  (m + n - 1) / n

variable {n start m party : Nat}

@[simp]
theorem length_turns (n start m : Nat) : (turns n start m).length = m := by
  rw [turns, List.length_map, List.length_range]

@[simp]
theorem turns_cons (n start m : Nat) :
    turns n start (m + 1) = start % n :: turns n (start + 1) m := by
  simp only [turns, List.range_succ_eq_map, List.map_cons, List.map_map, Nat.add_zero]
  congr 1
  apply List.map_congr_left
  intro turn _
  rw [Function.comp_apply, Nat.succ_eq_add_one, Nat.add_right_comm, Nat.add_assoc]

/-- Only the remainder of `start` matters. -/
@[simp]
theorem turns_mod (n start m : Nat) : turns n (start % n) m = turns n start m := by
  apply List.map_congr_left
  intro turn _
  rw [Nat.mod_add_mod]

theorem lt_of_mem_turns (pos : 0 < n) (mem : party ∈ turns n start m) : party < n := by
  obtain ⟨turn, -, rfl⟩ := List.mem_map.mp mem
  exact Nat.mod_lt _ pos

/-- The turns of a party are a residue class. -/
theorem turn_eq_iff (lt : party < n) (turn : Nat) :
    (start + turn) % n = party ↔ turn ≡ party + (n - start % n) [MOD n] := by
  have wraps : start + (n - start % n) ≡ 0 [MOD n] := by
    have split := Nat.div_add_mod start n
    have less := Nat.mod_lt start (Nat.zero_lt_of_lt lt)
    have whole : start + (n - start % n) = n * (start / n + 1) := by
      rw [Nat.mul_succ]
      omega
    rw [whole]
    exact Nat.modEq_zero_iff_dvd.mpr (Nat.dvd_mul_right ..)
  have shifted : turn ≡ start + turn + (n - start % n) [MOD n] := by
    rw [Nat.add_right_comm, Nat.add_comm _ turn]
    exact (wraps.add_left turn).symm
  constructor
  · intro same
    have now : start + turn ≡ party [MOD n] := same.trans (Nat.mod_eq_of_lt lt).symm
    exact shifted.trans (now.add_right _)
  · intro same
    have now : start + turn ≡ party [MOD n] :=
      Nat.ModEq.add_right_cancel' _ (shifted.symm.trans same)
    exact Nat.mod_eq_of_modEq now lt

theorem count_turns (lt : party < n) :
    (turns n start m).count party =
      m / n + if (party + (n - start % n)) % n < m % n then 1 else 0 := by
  rw [← Nat.count_modEq_card m (Nat.zero_lt_of_lt lt), turns, List.count, List.countP_map,
    Nat.count]
  apply List.countP_congr
  intro turn _
  simp only [Function.comp_apply, beq_iff_eq, decide_eq_true_eq]
  exact turn_eq_iff lt turn

theorem largestShare_eq (pos : 0 < n) (m : Nat) :
    largestShare n m = m / n + if 0 < m % n then 1 else 0 := by
  have split := Nat.div_add_mod m n
  have less := Nat.mod_lt m pos
  have eq : m + n - 1 = m % n + n - 1 + n * (m / n) := by omega
  rw [largestShare, eq, Nat.add_mul_div_left _ _ pos, Nat.add_comm]
  congr 1
  split
  · apply Nat.div_eq_of_lt_le
    · omega
    · omega
  · apply Nat.div_eq_of_lt
    omega

/-- No party falls behind by a whole round. -/
theorem le_count_turns (lt : party < n) : m / n ≤ (turns n start m).count party := by
  rw [count_turns lt]
  exact Nat.le_add_right ..

theorem count_turns_le (lt : party < n) : (turns n start m).count party ≤ largestShare n m := by
  rw [count_turns lt, largestShare_eq (Nat.zero_lt_of_lt lt)]
  split
  · rename_i less
    rw [if_pos (Nat.zero_lt_of_lt less)]
  · exact Nat.le_add_right ..

/-- The party that begins has the largest share. -/
theorem count_turns_start (pos : 0 < n) (start m : Nat) :
    (turns n start m).count (start % n) = largestShare n m := by
  have less := Nat.mod_lt start pos
  rw [count_turns less, largestShare_eq pos, Nat.add_sub_cancel' less.le, Nat.mod_self]

/-- Within one round nobody has two turns. -/
theorem nodup_turns (le : m ≤ n) : (turns n start m).Nodup := by
  apply List.nodup_iff_count_le_one.mpr
  intro party
  by_cases mem : party ∈ turns n start m
  · have pos : 0 < n := by
      have positive := List.length_pos_of_mem mem
      rw [length_turns] at positive
      exact Nat.lt_of_lt_of_le positive le
    refine (count_turns_le (lt_of_mem_turns pos mem)).trans ?_
    apply Nat.le_of_lt_succ
    apply Nat.div_lt_of_lt_mul
    omega
  · rw [List.count_eq_zero.mpr mem]
    exact Nat.zero_le 1

end ZnsLsm.RoundRobin
