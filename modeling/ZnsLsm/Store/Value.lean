import ZnsLsm.Pool.Device

/-!
# Values and their sizes

A string is its length and its bytes; a length fits the signed 64-bit range.  The
marker `DEL` is stored in place of a deleted value.
-/

namespace ZnsLsm.Store

/-- `std::string`. -/
structure Str where
  size : Nat
  size_lt : size < 2 ^ 63
  bytes : Fin size → UInt8

namespace Str

instance : DecidableEq Str := fun first second =>
  if same : first.size = second.size then
    decidable_of_iff (∀ i, first.bytes i = second.bytes (i.cast same)) (by
      rcases first with ⟨size, -, bytes⟩
      rcases second with ⟨size', -, bytes'⟩
      cases same
      simp [funext_iff])
  else
    isFalse fun equal => same (equal ▸ rfl)

/-- The empty string, which stands for "not found". -/
def empty : Str :=
  ⟨0, by decide, fun i => i.elim0⟩

/-- `DEL`, the string `~DELETED~`. -/
def del : Str :=
  ⟨9, by decide, fun i => [126, 68, 69, 76, 69, 84, 69, 68, 126].getD i 0⟩

/-- A string of one repeated byte. -/
def replicate (size : Nat) (size_lt : size < 2 ^ 63) (byte : UInt8) : Str :=
  ⟨size, size_lt, fun _ => byte⟩

end Str

/-- `filterSize`. -/
def filterSize : Nat := 1024 * 1024

/-- `InitialSize`: the bytes of a table before its index. -/
def initialSize : Nat := 7 * 4 + filterSize

/-- `INT64_MAX`. -/
def int64Max : Nat := 2 ^ 63 - 1

/-- `INT64_MIN` converted to `uint64_t`. -/
def int64Min : Nat := 2 ^ 63

/-- The bytes that an entry takes in a table: index, key, value and terminator. -/
def entrySize (value : Str) : Nat := 4 + 8 + value.size + 1

/-- The bytes of a table: what comes before the index, and all its entries. -/
def tableSize (entries : List (Nat × Str)) : Nat :=
  initialSize + (entries.map fun entry => entrySize entry.2).sum

end ZnsLsm.Store
