import Mathlib.Data.Nat.Digits.Lemmas
import Mathlib.Data.UInt

/-!
# Steps that mix a word and lose nothing

Hash functions mix words of 64 bits by a few steps: the upper bits are folded onto the lower
ones, the word is rotated, it is multiplied by an odd constant.  Each of them can be undone.
So can the composition of a word from its bytes.
-/

namespace ZnsLsm.WordMixing

/-- To fold the upper half onto the lower one twice changes nothing. -/
theorem xorShift_involutive {s : UInt64} (half : 32 ≤ s.toNat) (lt : s.toNat < 64) :
    Function.Involutive fun x : UInt64 => x ^^^ (x >>> s) := by
  intro x
  apply UInt64.toBitVec_inj.mp
  have count : s.toBitVec.toNat % (64 : BitVec 64).toNat = s.toNat := Nat.mod_eq_of_lt lt
  have gone : x.toBitVec >>> s.toNat >>> s.toNat = 0#64 := by
    rw [← BitVec.shiftRight_add]
    apply BitVec.eq_of_toNat_eq
    rw [BitVec.toNat_ushiftRight, Nat.shiftRight_eq_div_pow]
    apply Nat.div_eq_of_lt
    exact x.toBitVec.isLt.trans_le (Nat.pow_le_pow_right (by decide) (by omega))
  simp only [UInt64.toBitVec_xor, UInt64.toBitVec_shiftRight, BitVec.ushiftRight_eq',
    BitVec.toNat_umod, BitVec.ushiftRight_xor_distrib, count, gone, BitVec.xor_zero]
  rw [BitVec.xor_assoc, BitVec.xor_self, BitVec.xor_zero]

theorem xorShift_injective {s : UInt64} (half : 32 ≤ s.toNat) (lt : s.toNat < 64) :
    Function.Injective fun x : UInt64 => x ^^^ (x >>> s) :=
  (xorShift_involutive half lt).injective

/-- Multiplication by a word that has an inverse. -/
theorem mul_injective {c d : UInt64} (inverse : c * d = 1) :
    Function.Injective fun x : UInt64 => x * c := by
  have undo : Function.LeftInverse (fun y : UInt64 => y * d) fun x => x * c := by
    intro x
    calc
      x * c * d = x * (c * d) := UInt64.mul_assoc x c d
      _ = x := by rw [inverse, UInt64.mul_one]
  exact undo.injective

/-- A rotation swaps the two parts of a word. -/
theorem rotate_toNat {r : UInt64} (pos : 0 < r.toNat) (lt : r.toNat < 64) (x : UInt64) :
    (x <<< r ||| x >>> (64 - r)).toNat =
      x.toNat % 2 ^ (64 - r.toNat) * 2 ^ r.toNat + x.toNat / 2 ^ (64 - r.toNat) := by
  have left : r.toNat % 64 = r.toNat := Nat.mod_eq_of_lt lt
  have rest : (64 - r).toNat = 64 - r.toNat :=
    UInt64.toNat_sub_of_le _ _ (UInt64.le_iff_toNat_le.mpr lt.le)
  have right : (64 - r.toNat) % 64 = 64 - r.toNat := Nat.mod_eq_of_lt (by omega)
  have split : (2 : Nat) ^ 64 = 2 ^ (64 - r.toNat) * 2 ^ r.toNat := by
    rw [← Nat.pow_add, Nat.sub_add_cancel lt.le]
  have small : x.toNat / 2 ^ (64 - r.toNat) < 2 ^ r.toNat := by
    apply Nat.div_lt_of_lt_mul
    rw [← split]
    exact x.toNat_lt
  rw [UInt64.toNat_or, UInt64.toNat_shiftLeft, UInt64.toNat_shiftRight, left, rest, right,
    Nat.shiftLeft_eq, split, Nat.mul_mod_mul_right, Nat.shiftRight_eq_div_pow,
    ← Nat.shiftLeft_eq, ← Nat.shiftLeft_add_eq_or_of_lt small]

theorem rotate_injective {r : UInt64} (pos : 0 < r.toNat) (lt : r.toNat < 64) :
    Function.Injective fun x : UInt64 => x <<< r ||| x >>> (64 - r) := by
  intro x y same
  have parts : ∀ z : UInt64,
      (z <<< r ||| z >>> (64 - r)).toNat / 2 ^ r.toNat = z.toNat % 2 ^ (64 - r.toNat) ∧
        (z <<< r ||| z >>> (64 - r)).toNat % 2 ^ r.toNat = z.toNat / 2 ^ (64 - r.toNat) := by
    intro z
    have small : z.toNat / 2 ^ (64 - r.toNat) < 2 ^ r.toNat := by
      apply Nat.div_lt_of_lt_mul
      rw [← Nat.pow_add, Nat.sub_add_cancel lt.le]
      exact z.toNat_lt
    rw [rotate_toNat pos lt, Nat.mul_comm]
    constructor
    · rw [Nat.mul_add_div (Nat.two_pow_pos _), Nat.div_eq_of_lt small, Nat.add_zero]
    · rw [Nat.mul_add_mod, Nat.mod_eq_of_lt small]
  dsimp only at same
  obtain ⟨lower, upper⟩ := parts x
  rw [same, (parts y).1] at lower
  rw [same, (parts y).2] at upper
  apply UInt64.toNat_inj.mp
  rw [← Nat.div_add_mod x.toNat (2 ^ (64 - r.toNat)), ← upper, ← lower, Nat.div_add_mod]

/-! ## Words of bytes -/

/-- The number with these bytes, the lowest one first. -/
def ofBytes (bytes : List UInt8) : Nat :=
  Nat.ofDigits 256 (bytes.map UInt8.toNat)

@[simp]
theorem ofBytes_cons (byte : UInt8) (bytes : List UInt8) :
    ofBytes (byte :: bytes) = byte.toNat + 256 * ofBytes bytes :=
  Nat.ofDigits_cons

theorem ofBytes_lt {bytes : List UInt8} : ofBytes bytes < 256 ^ bytes.length := by
  rw [ofBytes, ← List.length_map UInt8.toNat]
  apply Nat.ofDigits_lt_base_pow_length (by decide)
  intro digit mem
  obtain ⟨byte, -, rfl⟩ := List.mem_map.mp mem
  exact byte.toNat_lt

/-- The bytes can be read off the number. -/
theorem ofBytes_inj {bytes bytes' : List UInt8} (length : bytes.length = bytes'.length)
    (same : ofBytes bytes = ofBytes bytes') : bytes = bytes' := by
  have digits : ∀ {bytes : List UInt8}, ∀ digit ∈ bytes.map UInt8.toNat, digit < 256 := by
    intro bytes digit mem
    obtain ⟨byte, -, rfl⟩ := List.mem_map.mp mem
    exact byte.toNat_lt
  apply List.map_injective_iff.mpr (fun _ _ => UInt8.toNat_inj.mp)
  apply Nat.ofDigits_inj_of_len_eq (by decide) _ digits digits same
  rw [List.length_map, List.length_map, length]

/-- The lowest `n` bytes of a number, the lowest one first. -/
def toBytes : Nat → Nat → List UInt8
  | 0, _ => []
  | n + 1, x => .ofNat x :: toBytes n (x / 256)

@[simp]
theorem length_toBytes (n x : Nat) : (toBytes n x).length = n := by
  induction n generalizing x with
  | zero => rfl
  | succ n ih => rw [toBytes, List.length_cons, ih]

@[simp]
theorem ofBytes_toBytes (n x : Nat) : ofBytes (toBytes n x) = x % 256 ^ n := by
  induction n generalizing x with
  | zero => rw [Nat.pow_zero, Nat.mod_one]; rfl
  | succ n ih => rw [Nat.pow_succ', Nat.mod_mul, toBytes, ofBytes_cons, ih, UInt8.toNat_ofNat']

theorem xor_eq_add {n low : Nat} (lt : low < 2 ^ n) (high : Nat) :
    2 ^ n * high ^^^ low = 2 ^ n * high + low := by
  have upper : (2 ^ n * high ^^^ low) / 2 ^ n = high := by
    rw [Nat.xor_div_two_pow, Nat.mul_div_cancel_left _ (Nat.two_pow_pos n), Nat.div_eq_of_lt lt,
      Nat.xor_zero]
  have lower : (2 ^ n * high ^^^ low) % 2 ^ n = low := by
    rw [Nat.xor_mod_two_pow, Nat.mul_mod_right, Nat.mod_eq_of_lt lt, Nat.zero_xor]
  rw [← Nat.div_add_mod (2 ^ n * high ^^^ low) (2 ^ n), upper, lower]

/-- The bytes are put to their places, from the number `start` on, beginning with the last. -/
def placeBytes (start : Nat) : List UInt8 → UInt64
  | [] => 0
  | byte :: bytes => placeBytes (start + 1) bytes ^^^ (byte.toUInt64 <<< UInt64.ofNat (8 * start))

@[simp]
theorem placeBytes_toNat {start : Nat} {bytes : List UInt8} (le : start + bytes.length ≤ 8) :
    (placeBytes start bytes).toNat = 2 ^ (8 * start) * ofBytes bytes := by
  induction bytes generalizing start with
  | nil => rfl
  | cons byte bytes ih =>
      rw [List.length_cons] at le
      have place : (byte.toUInt64 <<< UInt64.ofNat (8 * start)).toNat =
          2 ^ (8 * start) * byte.toNat := by
        have count : (UInt64.ofNat (8 * start)).toNat % 64 = 8 * start := by
          rw [UInt64.toNat_ofNat_of_lt' (by omega : 8 * start < 2 ^ 64)]
          omega
        have inner : byte.toNat * 2 ^ (8 * start) < 2 ^ 64 := by
          calc
            byte.toNat * 2 ^ (8 * start) < 2 ^ 8 * 2 ^ (8 * start) :=
              Nat.mul_lt_mul_of_pos_right byte.toNat_lt (Nat.two_pow_pos _)
            _ = 2 ^ (8 + 8 * start) := (Nat.pow_add 2 8 _).symm
            _ ≤ 2 ^ 64 := Nat.pow_le_pow_right (by decide) (by omega)
        rw [UInt64.toNat_shiftLeft, count, UInt8.toNat_toUInt64, Nat.shiftLeft_eq,
          Nat.mod_eq_of_lt inner, Nat.mul_comm]
      have lt : 2 ^ (8 * start) * byte.toNat < 2 ^ (8 * (start + 1)) := by
        rw [Nat.mul_succ, Nat.pow_add]
        exact Nat.mul_lt_mul_of_pos_left byte.toNat_lt (Nat.two_pow_pos _)
      rw [placeBytes, UInt64.toNat_xor, ih (by omega), place, xor_eq_add lt, ofBytes_cons,
        Nat.mul_succ, Nat.pow_add]
      ring

end ZnsLsm.WordMixing
