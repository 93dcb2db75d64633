import Mathlib.Order.Bounds.Basic

/-!
# Running bounds

Two variables follow the least and the greatest of the keys seen so far.  They start from
seeds, which are keys like any other, so they are the true bounds exactly if the seeds do
not lie beyond the keys.
-/

namespace ZnsLsm

universe u

variable {κ : Type u} [LinearOrder κ]

/-- The bounds `least` and `greatest` have followed some keys from their seeds on. -/
structure RunningBounds (low high : κ) (keys : Set κ) (least greatest : κ) : Prop where
  least_le_seed : least ≤ low
  least_le : least ∈ lowerBounds keys
  least_seen : least = low ∨ least ∈ keys
  seed_le_greatest : high ≤ greatest
  le_greatest : greatest ∈ upperBounds keys
  greatest_seen : greatest = high ∨ greatest ∈ keys

namespace RunningBounds

variable {low high least greatest : κ} {keys : Set κ}

theorem start (low high : κ) : RunningBounds low high ∅ low high where
  least_le_seed := le_rfl
  least_le _ mem := mem.elim
  least_seen := .inl rfl
  seed_le_greatest := le_rfl
  le_greatest _ mem := mem.elim
  greatest_seen := .inl rfl

/-- One more key. -/
theorem insert (bounds : RunningBounds low high keys least greatest) (key : κ) :
    RunningBounds low high (insert key keys) (if key < least then key else least)
      (if greatest < key then key else greatest) where
  least_le_seed := by
    split
    · rename_i less
      exact less.le.trans bounds.least_le_seed
    · exact bounds.least_le_seed
  least_le := by
    rintro other (rfl | old)
    · split
      · exact le_rfl
      · rename_i notLess
        exact not_lt.mp notLess
    · split
      · rename_i less
        exact less.le.trans (bounds.least_le old)
      · exact bounds.least_le old
  least_seen := by
    split
    · exact .inr (Set.mem_insert ..)
    · exact bounds.least_seen.imp_right (Set.mem_insert_of_mem _)
  seed_le_greatest := by
    split
    · rename_i less
      exact bounds.seed_le_greatest.trans less.le
    · exact bounds.seed_le_greatest
  le_greatest := by
    rintro other (rfl | old)
    · split
      · exact le_rfl
      · rename_i notLess
        exact not_lt.mp notLess
    · split
      · rename_i less
        exact (bounds.le_greatest old).trans less.le
      · exact bounds.le_greatest old
  greatest_seen := by
    split
    · exact .inr (Set.mem_insert ..)
    · exact bounds.greatest_seen.imp_right (Set.mem_insert_of_mem _)

theorem isLeast_iff (bounds : RunningBounds low high keys least greatest) :
    IsLeast keys least ↔ ∃ key ∈ keys, key ≤ low := by
  constructor
  · rintro ⟨seen, -⟩
    exact ⟨least, seen, bounds.least_le_seed⟩
  · rintro ⟨key, mem, le⟩
    refine ⟨?_, bounds.least_le⟩
    rcases bounds.least_seen with seed | seen
    · have same : least = key := le_antisymm (bounds.least_le mem) (le.trans seed.ge)
      rw [same]
      exact mem
    · exact seen

theorem isGreatest_iff (bounds : RunningBounds low high keys least greatest) :
    IsGreatest keys greatest ↔ ∃ key ∈ keys, high ≤ key := by
  constructor
  · rintro ⟨seen, -⟩
    exact ⟨greatest, seen, bounds.seed_le_greatest⟩
  · rintro ⟨key, mem, le⟩
    refine ⟨?_, bounds.le_greatest⟩
    rcases bounds.greatest_seen with seed | seen
    · have same : greatest = key := le_antisymm (seed.le.trans le) (bounds.le_greatest mem)
      rw [same]
      exact mem
    · exact seen

/-- Some key or the seed lies at or below a bound. -/
theorem least_le_iff (bounds : RunningBounds low high keys least greatest) (bound : κ) :
    least ≤ bound ↔ (∃ key ∈ keys, key ≤ bound) ∨ low ≤ bound := by
  constructor
  · intro le
    rcases bounds.least_seen with seed | seen
    · exact .inr (seed.ge.trans le)
    · exact .inl ⟨least, seen, le⟩
  · rintro (⟨key, mem, le⟩ | le)
    · exact (bounds.least_le mem).trans le
    · exact bounds.least_le_seed.trans le

theorem le_greatest_iff (bounds : RunningBounds low high keys least greatest) (bound : κ) :
    bound ≤ greatest ↔ (∃ key ∈ keys, bound ≤ key) ∨ bound ≤ high := by
  constructor
  · intro le
    rcases bounds.greatest_seen with seed | seen
    · exact .inr (le.trans seed.le)
    · exact .inl ⟨greatest, seen, le⟩
  · rintro (⟨key, mem, le⟩ | le)
    · exact le.trans (bounds.le_greatest mem)
    · exact le.trans bounds.seed_le_greatest

end RunningBounds

end ZnsLsm
