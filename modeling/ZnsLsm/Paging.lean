import Mathlib.Algebra.Order.Group.Nat

/-!
# Pages of a byte range

A range of bytes meets the page of its first byte, the page of its last byte and the pages
in between.  The page of the byte behind it is one of these exactly if the range does not
end where a page ends.
-/

namespace ZnsLsm.Paging

variable {size start stop page : Nat}

/-- The page begins before `stop` and ends behind `start`. -/
def Meets (size start stop page : Nat) : Prop :=
  page * size < stop ∧ start < (page + 1) * size

theorem meets_iff (pos : 0 < size) :
    Meets size start stop page ↔ start / size ≤ page ∧ page * size < stop := by
  rw [Meets, and_comm, ← Nat.div_lt_iff_lt_mul pos, Nat.lt_succ_iff]

@[simp]
theorem div_mul_lt_iff : stop / size * size < stop ↔ stop % size ≠ 0 := by
  have split := Nat.div_add_mod' stop size
  omega

/-- All pages from the one of `start` to the one of `stop` meet the range exactly if `stop`
is not the start of a page. -/
theorem forall_meets_iff (pos : 0 < size) (le : start ≤ stop) :
    (∀ page, start / size ≤ page → page ≤ stop / size → Meets size start stop page) ↔
      stop % size ≠ 0 := by
  constructor
  · intro meets
    have last := meets (stop / size) (Nat.div_le_div_right le) (Nat.le_refl _)
    exact div_mul_lt_iff.mp last.1
  · intro inner page ge le
    apply (meets_iff pos).mpr
    constructor
    · exact ge
    · calc
        page * size ≤ stop / size * size := Nat.mul_le_mul_right size le
        _ < stop := div_mul_lt_iff.mpr inner

/-- The pages from the one of `start` up to the one of `stop`, the latter left out, are all that
meet the range exactly if `stop` is the start of a page. -/
theorem forall_lt_of_meets_iff (pos : 0 < size) (le : start ≤ stop) :
    (∀ page, Meets size start stop page → start / size ≤ page ∧ page < stop / size) ↔
      size ∣ stop := by
  constructor
  · intro covered
    apply Nat.dvd_of_mod_eq_zero
    by_contra inner
    have meets : Meets size start stop (stop / size) :=
      (meets_iff pos).mpr ⟨Nat.div_le_div_right le, div_mul_lt_iff.mpr inner⟩
    exact Nat.lt_irrefl _ (covered _ meets).2
  · rintro ⟨pages, rfl⟩ page meets
    obtain ⟨ge, lt⟩ := (meets_iff pos).mp meets
    rw [Nat.mul_div_cancel_left _ pos]
    exact ⟨ge, Nat.lt_of_mul_lt_mul_right (Nat.mul_comm size pages ▸ lt)⟩

end ZnsLsm.Paging
