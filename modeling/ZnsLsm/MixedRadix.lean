import Mathlib.Algebra.BigOperators.Group.List.Basic
import Mathlib.Algebra.Order.Group.Nat
import Mathlib.Tactic.Ring

/-!
# Mixed-radix digits and the odometer

A list of radices, least significant first, splits a natural number into digits.
The odometer `tick` increments a digit list in place and reports the carry out
of the last wheel.  Its main law, `tick_digits`, says that ticking the digits of
`n` gives the digits of `n + 1`.
-/

namespace ZnsLsm.MixedRadix

/-- The number of values that the wheels can show. -/
def volume (radices : List Nat) : Nat :=
  radices.prod

/-- Digits of `n`, least significant first; the quotient past the last radix is
dropped. -/
def digits : List Nat → Nat → List Nat
  | [], _ => []
  | radix :: radices, n => n % radix :: digits radices (n / radix)

/-- The number that a digit list denotes. -/
def value : List Nat → List Nat → Nat
  | radix :: radices, digit :: rest => digit + radix * value radices rest
  | _, _ => 0

/-- Every digit is below its radix. -/
def Fits (radices ds : List Nat) : Prop :=
  List.Forall₂ (fun radix digit => digit < radix) radices ds

/-- Increment a digit list; the flag is the carry out of the last wheel. -/
def tick : List Nat → List Nat → List Nat × Bool
  | radix :: radices, digit :: rest =>
      if digit + 1 = radix then
        (0 :: (tick radices rest).1, (tick radices rest).2)
      else
        ((digit + 1) :: rest, false)
  | _, _ => ([], true)

@[simp]
theorem volume_nil : volume [] = 1 :=
  rfl

@[simp]
theorem volume_cons (radix : Nat) (radices : List Nat) :
    volume (radix :: radices) = radix * volume radices :=
  List.prod_cons

theorem digits_fits {radices : List Nat} (positive : ∀ radix ∈ radices, 0 < radix)
    (n : Nat) : Fits radices (digits radices n) := by
  induction radices generalizing n with
  | nil => exact List.Forall₂.nil
  | cons radix radices ih =>
      refine List.Forall₂.cons (Nat.mod_lt n (positive radix List.mem_cons_self)) ?_
      exact ih (fun r member => positive r (List.mem_cons_of_mem radix member)) _

theorem value_lt_volume {radices ds : List Nat} (fits : Fits radices ds) :
    value radices ds < volume radices := by
  induction fits with
  | nil => simp [value]
  | @cons radix digit radices rest digitLt _ ih =>
      calc
        digit + radix * value radices rest < radix + radix * value radices rest :=
          Nat.add_lt_add_right digitLt _
        _ = radix * (value radices rest + 1) := by ring
        _ ≤ radix * volume radices := Nat.mul_le_mul_left radix ih

/-- Reading the digits back loses exactly the multiples of the volume. -/
@[simp]
theorem value_digits (radices : List Nat) (n : Nat) :
    value radices (digits radices n) = n % volume radices := by
  induction radices generalizing n with
  | nil => simp [value, Nat.mod_one]
  | cons radix radices ih =>
      simp only [digits, value, volume_cons, ih]
      rw [Nat.mod_mul]

theorem value_digits_of_lt {radices : List Nat} {n : Nat} (lt : n < volume radices) :
    value radices (digits radices n) = n := by
  rw [value_digits, Nat.mod_eq_of_lt lt]

@[simp]
theorem digits_value {radices ds : List Nat} (fits : Fits radices ds) :
    digits radices (value radices ds) = ds := by
  induction fits with
  | nil => rfl
  | @cons radix digit radices rest digitLt _ ih =>
      have radixPos : 0 < radix := Nat.zero_lt_of_lt digitLt
      simp only [digits, value]
      rw [Nat.add_mul_mod_self_left, Nat.mod_eq_of_lt digitLt,
        Nat.add_mul_div_left digit _ radixPos, Nat.div_eq_of_lt digitLt, Nat.zero_add, ih]

/-- Two fitting digit lists that denote the same number are equal. -/
theorem value_injective {radices ds es : List Nat} (dsFits : Fits radices ds)
    (esFits : Fits radices es) (same : value radices ds = value radices es) : ds = es := by
  rw [← digits_value dsFits, ← digits_value esFits, same]

/-- Two numbers within the volume with the same digits are equal. -/
theorem digits_injective {radices : List Nat} {m n : Nat} (mLt : m < volume radices)
    (nLt : n < volume radices) (same : digits radices m = digits radices n) : m = n := by
  rw [← value_digits_of_lt mLt, ← value_digits_of_lt nLt, same]

private theorem mod_succ_of_last {radix n : Nat} (last : n % radix + 1 = radix) :
    (n + 1) % radix = 0 ∧ (n + 1) / radix = n / radix + 1 := by
  have radixPos : 0 < radix := by omega
  have split : n + 1 = radix * (n / radix + 1) := by
    have := Nat.div_add_mod n radix
    rw [Nat.mul_add, Nat.mul_one]
    omega
  rw [split]
  exact ⟨Nat.mul_mod_right radix _, Nat.mul_div_cancel_left _ radixPos⟩

private theorem mod_succ_of_not_last {radix n : Nat} (radixPos : 0 < radix)
    (notLast : n % radix + 1 ≠ radix) :
    (n + 1) % radix = n % radix + 1 ∧ (n + 1) / radix = n / radix := by
  have digitLt : n % radix + 1 < radix :=
    lt_of_le_of_ne (Nat.mod_lt n radixPos) notLast
  have split : n + 1 = (n % radix + 1) + radix * (n / radix) := by
    have := Nat.div_add_mod n radix
    omega
  rw [split]
  constructor
  · rw [Nat.add_mul_mod_self_left, Nat.mod_eq_of_lt digitLt]
  · rw [Nat.add_mul_div_left _ _ radixPos, Nat.div_eq_of_lt digitLt, Nat.zero_add]

/-- Ticking shows the next number, and the last wheel carries exactly when the
next number is a multiple of the volume. -/
theorem tick_digits {radices : List Nat} (positive : ∀ radix ∈ radices, 0 < radix)
    (n : Nat) :
    tick radices (digits radices n) =
      (digits radices (n + 1), decide ((n + 1) % volume radices = 0)) := by
  induction radices generalizing n with
  | nil => simp [tick, digits, Nat.mod_one]
  | cons radix radices ih =>
      have radixPos : 0 < radix := positive radix List.mem_cons_self
      have restPositive : ∀ r ∈ radices, 0 < r :=
        fun r member => positive r (List.mem_cons_of_mem radix member)
      by_cases last : n % radix + 1 = radix
      · obtain ⟨modZero, divSucc⟩ := mod_succ_of_last last
        simp only [digits, tick, last, if_true, ih restPositive, modZero, divSucc,
          volume_cons, Prod.mk.injEq, true_and, decide_eq_decide]
        rw [Nat.mod_mul, modZero, divSucc, Nat.zero_add, Nat.mul_eq_zero]
        constructor
        · exact Or.inr
        · rintro (radixZero | carry)
          · omega
          · exact carry
      · obtain ⟨modSucc, divSame⟩ := mod_succ_of_not_last radixPos last
        simp only [digits, tick, last, if_false, modSucc, divSame, volume_cons,
          Prod.mk.injEq, true_and]
        rw [Nat.mod_mul, modSucc]
        simp

end ZnsLsm.MixedRadix
