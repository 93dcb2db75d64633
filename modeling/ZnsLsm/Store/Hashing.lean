import ZnsLsm.Store.Table
import ZnsLsm.WordMixing

/-!
# What the hash function tells apart

`MurmurHash3_x64_128` takes in its data in blocks of sixteen bytes, as many as its result
has.  Every step of it can be undone, so data of one length that differ in one block only
have different hashes; in particular no two keys have the same hash.
-/

namespace ZnsLsm.Store

open Function ZnsLsm.WordMixing

/-! ## The function -/

/-- `getblock64`; words stand in memory with the lowest byte first. -/
def getblock64 (data : List UInt8) (i : Nat) : UInt64 :=
  .ofNat (ofBytes ((data.drop (8 * i)).take 8))

def c1 : UInt64 := 0x87c37b91114253d5

def c2 : UInt64 := 0x4cf5ad432745937f

def mixK1 (k1 : UInt64) : UInt64 :=
  rotl64 (k1 * c1) 31 * c2

def mixK2 (k2 : UInt64) : UInt64 :=
  rotl64 (k2 * c2) 33 * c1

/-- One round of the loop over the blocks. -/
def bodyRound (h : UInt64 × UInt64) (k : UInt64 × UInt64) : UInt64 × UInt64 :=
  let h1 := h.1 ^^^ mixK1 k.1
  let h1 := rotl64 h1 27
  let h1 := h1 + h.2
  let h1 := h1 * 5 + 0x52dce729
  let h2 := h.2 ^^^ mixK2 k.2
  let h2 := rotl64 h2 31
  let h2 := h2 + h1
  let h2 := h2 * 5 + 0x38495ab5
  (h1, h2)

/-- The words of block `i`. -/
def blockWords (data : List UInt8) (i : Nat) : UInt64 × UInt64 :=
  (getblock64 data (i * 2 + 0), getblock64 data (i * 2 + 1))

/-- The rounds of the first `nblocks` blocks. -/
def rounds (h : UInt64 × UInt64) (data : List UInt8) (nblocks : Nat) : UInt64 × UInt64 :=
  (List.range nblocks).foldl (fun h i => bodyRound h (blockWords data i)) h

@[simp]
theorem rounds_zero (h : UInt64 × UInt64) (data : List UInt8) : rounds h data 0 = h :=
  rfl

/-- The `switch`: a case runs on into those below it. -/
def tailRound (h : UInt64 × UInt64) (tail : List UInt8) : UInt64 × UInt64 :=
  let h2 := if 9 ≤ tail.length then h.2 ^^^ mixK2 (placeBytes 0 (tail.drop 8)) else h.2
  let h1 := if 1 ≤ tail.length then h.1 ^^^ mixK1 (placeBytes 0 (tail.take 8)) else h.1
  (h1, h2)

def finish (len : Nat) (h : UInt64 × UInt64) : UInt64 × UInt64 :=
  let h1 := h.1 ^^^ .ofNat len
  let h2 := h.2 ^^^ .ofNat len
  let h1 := h1 + h2
  let h2 := h2 + h1
  let h1 := fmix64 h1
  let h2 := fmix64 h2
  let h1 := h1 + h2
  let h2 := h2 + h1
  (h1, h2)

/-- `MurmurHash3_x64_128`; the last `len & 15` bytes are the tail. -/
def murmurHash3 (data : List UInt8) (seed : UInt32) : UInt64 × UInt64 :=
  let nblocks := data.length / 16
  finish data.length (tailRound (rounds (seed.toUInt64, seed.toUInt64) data nblocks)
    (data.drop (nblocks * 16)))

/-- The hash as four words of 32 bits. -/
def hashWords (h : UInt64 × UInt64) : List Nat :=
  [h.1.toNat % 2 ^ 32, h.1.toNat / 2 ^ 32, h.2.toNat % 2 ^ 32, h.2.toNat / 2 ^ 32]

/-- A key in memory. -/
def keyBytes (key : Nat) : List UInt8 :=
  toBytes 8 key

@[simp]
theorem length_keyBytes (key : Nat) : (keyBytes key).length = 8 :=
  length_toBytes 8 key

/-! ## Every step can be undone -/

theorem rotl64_injective {r : UInt64} (pos : 0 < r.toNat) (lt : r.toNat < 64) :
    Injective (rotl64 · r) :=
  rotate_injective pos lt

theorem fmix64_injective : Injective fmix64 := by
  have fold : Injective fun k : UInt64 => k ^^^ (k >>> 33) :=
    xorShift_injective (by decide) (by decide)
  have first : Injective fun k : UInt64 => k * 0xff51afd7ed558ccd :=
    mul_injective (d := 0x4f74430c22a54005) (by decide)
  have second : Injective fun k : UInt64 => k * 0xc4ceb9fe1a85ec53 :=
    mul_injective (d := 0x9cb4b2f8129337db) (by decide)
  exact fold.comp (second.comp (fold.comp (first.comp fold)))

theorem mul_c1_injective : Injective fun k : UInt64 => k * c1 :=
  mul_injective (d := 0xa98409e882ce4d7d) (by decide)

theorem mul_c2_injective : Injective fun k : UInt64 => k * c2 :=
  mul_injective (d := 0xa81e14edd9de2c7f) (by decide)

theorem mixK1_injective : Injective mixK1 :=
  mul_c2_injective.comp ((rotl64_injective (by decide) (by decide)).comp mul_c1_injective)

theorem mixK2_injective : Injective mixK2 :=
  mul_c1_injective.comp ((rotl64_injective (by decide) (by decide)).comp mul_c2_injective)

/-- The result of a round, traced back to where its inputs meet. -/
theorem bodyRound_inj {h h' k k' : UInt64 × UInt64} (same : bodyRound h k = bodyRound h' k') :
    rotl64 (h.1 ^^^ mixK1 k.1) 27 + h.2 = rotl64 (h'.1 ^^^ mixK1 k'.1) 27 + h'.2 ∧
      h.2 ^^^ mixK2 k.2 = h'.2 ^^^ mixK2 k'.2 := by
  have times : Injective fun x : UInt64 => x * 5 :=
    mul_injective (d := 0xcccccccccccccccd) (by decide)
  have turn : Injective (rotl64 · 31) := rotl64_injective (by decide) (by decide)
  obtain ⟨first, second⟩ := Prod.mk.inj same
  refine ⟨times ((UInt64.add_left_inj _).mp first), turn ?_⟩
  rw [first] at second
  exact (UInt64.add_left_inj _).mp (times ((UInt64.add_left_inj _).mp second))

theorem bodyRound_state_injective (k : UInt64 × UInt64) : Injective (bodyRound · k) := by
  intro h h' same
  have turn : Injective (rotl64 · 27) := rotl64_injective (by decide) (by decide)
  obtain ⟨first, second⟩ := bodyRound_inj same
  rw [UInt64.xor_left_inj] at second
  rw [second, UInt64.add_left_inj] at first
  exact Prod.ext ((UInt64.xor_left_inj _).mp (turn first)) second

theorem bodyRound_block_injective (h : UInt64 × UInt64) : Injective (bodyRound h) := by
  intro k k' same
  have turn : Injective (rotl64 · 27) := rotl64_injective (by decide) (by decide)
  obtain ⟨first, second⟩ := bodyRound_inj same
  rw [UInt64.xor_right_inj] at second
  rw [UInt64.add_left_inj] at first
  exact Prod.ext (mixK1_injective ((UInt64.xor_right_inj _).mp (turn first)))
    (mixK2_injective second)

theorem rounds_injective (data : List UInt8) (nblocks : Nat) :
    Injective (rounds · data nblocks) := by
  intro h h' same
  simp only [rounds] at same
  generalize List.range nblocks = indices at same
  induction indices generalizing h h' with
  | nil => exact same
  | cons i indices ih =>
      rw [List.foldl_cons, List.foldl_cons] at same
      exact bodyRound_state_injective _ (ih same)

theorem tailRound_state_injective (tail : List UInt8) : Injective (tailRound · tail) := by
  have part : ∀ {c : Prop} [Decidable c] {x y k : UInt64},
      (if c then x ^^^ k else x) = (if c then y ^^^ k else y) → x = y := by
    intro c _ x y k same
    by_cases holds : c
    · rw [if_pos holds, if_pos holds] at same
      exact (UInt64.xor_left_inj k).mp same
    · rwa [if_neg holds, if_neg holds] at same
  intro h h' same
  obtain ⟨first, second⟩ := Prod.mk.inj same
  exact Prod.ext (part first) (part second)

/-- Each half of a pair has the other one added to it in turn. -/
theorem add_turns_inj {a a' b b' : UInt64} (first : a + b = a' + b')
    (second : b + (a + b) = b' + (a' + b')) : a = a' ∧ b = b' := by
  rw [first, UInt64.add_left_inj] at second
  rw [second, UInt64.add_left_inj] at first
  exact ⟨first, second⟩

theorem finish_injective (len : Nat) : Injective (finish len) := by
  intro h h' same
  obtain ⟨first, second⟩ := Prod.mk.inj same
  obtain ⟨lower, upper⟩ := add_turns_inj first second
  obtain ⟨first, second⟩ := add_turns_inj (fmix64_injective lower) (fmix64_injective upper)
  exact Prod.ext ((UInt64.xor_left_inj _).mp first) ((UInt64.xor_left_inj _).mp second)

/-! ## The data before and behind a block -/

@[simp]
theorem getblock64_append {front : List UInt8} {m : Nat} (length : front.length = 8 * m)
    (rest : List UInt8) (i : Nat) :
    getblock64 (front ++ rest) (m + i) = getblock64 rest i := by
  rw [getblock64, getblock64, Nat.mul_add, ← length, ← List.drop_drop,
    List.drop_left]

@[simp]
theorem getblock64_front {front : List UInt8} {i : Nat} (le : 8 * i + 8 ≤ front.length)
    (rest : List UInt8) :
    getblock64 (front ++ rest) i = getblock64 front i := by
  rw [getblock64, getblock64, List.drop_append_of_le_length (by omega),
    List.take_append_of_le_length (by rw [List.length_drop]; omega)]

theorem blockWords_append {front : List UInt8} {m : Nat} (length : front.length = 16 * m)
    (rest : List UInt8) (i : Nat) :
    blockWords (front ++ rest) (m + i) = blockWords rest i := by
  have first : (m + i) * 2 + 0 = 2 * m + (i * 2 + 0) := by ring
  have second : (m + i) * 2 + 1 = 2 * m + (i * 2 + 1) := by ring
  have words : front.length = 8 * (2 * m) := by omega
  rw [blockWords, blockWords, first, second, getblock64_append words, getblock64_append words]

theorem blockWords_front {front : List UInt8} {i : Nat} (le : 16 * i + 16 ≤ front.length)
    (rest : List UInt8) :
    blockWords (front ++ rest) i = blockWords front i := by
  rw [blockWords, blockWords, getblock64_front (by omega), getblock64_front (by omega)]

theorem getblock64_inj {data data' : List UInt8} {i : Nat} (le : 8 * i + 8 ≤ data.length)
    (le' : 8 * i + 8 ≤ data'.length) (same : getblock64 data i = getblock64 data' i) :
    (data.drop (8 * i)).take 8 = (data'.drop (8 * i)).take 8 := by
  have length : ∀ {data : List UInt8}, 8 * i + 8 ≤ data.length →
      ((data.drop (8 * i)).take 8).length = 8 := by
    intro data le
    rw [List.length_take, List.length_drop]
    omega
  have fits : ∀ {data : List UInt8}, 8 * i + 8 ≤ data.length →
      ofBytes ((data.drop (8 * i)).take 8) < 2 ^ 64 := by
    intro data le
    have bound : ofBytes ((data.drop (8 * i)).take 8) < 256 ^ _ := ofBytes_lt
    rwa [length le] at bound
  apply ofBytes_inj ((length le).trans (length le').symm)
  have numbers := congrArg UInt64.toNat same
  rwa [getblock64, getblock64, UInt64.toNat_ofNat_of_lt' (fits le),
    UInt64.toNat_ofNat_of_lt' (fits le')] at numbers

/-- The words of a block give the block. -/
theorem blockWords_inj {block block' : List UInt8} (length : block.length = 16)
    (length' : block'.length = 16) (same : blockWords block 0 = blockWords block' 0) :
    block = block' := by
  obtain ⟨first, second⟩ := Prod.mk.inj same
  have lower : block.take 8 = block'.take 8 :=
    getblock64_inj (by omega) (by omega) first
  have upper : (block.drop 8).take 8 = (block'.drop 8).take 8 :=
    getblock64_inj (by omega) (by omega) second
  rw [List.take_of_length_le (by rw [List.length_drop]; omega),
    List.take_of_length_le (by rw [List.length_drop]; omega)] at upper
  rw [← List.take_append_drop 8 block, lower, upper, List.take_append_drop]

theorem rounds_append {front : List UInt8} {m : Nat} (length : front.length = 16 * m)
    (h : UInt64 × UInt64) (rest : List UInt8) (n : Nat) :
    rounds h (front ++ rest) (m + n) = rounds (rounds h front m) rest n := by
  have before : rounds h (front ++ rest) m = rounds h front m := by
    apply List.foldl_ext
    intro h i mem
    have lt := List.mem_range.mp mem
    rw [blockWords_front (by omega)]
  rw [rounds, List.range_add, List.foldl_append, List.foldl_map, ← rounds, before]
  apply List.foldl_ext
  intro h i _
  rw [blockWords_append length]

/-! ## The tail -/

theorem placeBytes_inj {bytes bytes' : List UInt8} (length : bytes.length = bytes'.length)
    (le : bytes.length ≤ 8) (same : placeBytes 0 bytes = placeBytes 0 bytes') :
    bytes = bytes' := by
  apply ofBytes_inj length
  have numbers := congrArg UInt64.toNat same
  rwa [placeBytes_toNat (by omega), placeBytes_toNat (by omega), Nat.mul_zero, Nat.pow_zero,
    Nat.one_mul, Nat.one_mul] at numbers

/-- The tail is seen through either half of the state. -/
theorem tailRound_tail_inj (h : UInt64 × UInt64) {tail tail' : List UInt8}
    (length : tail.length = tail'.length) (lt : tail.length < 16)
    (same : tailRound h tail = tailRound h tail') : tail = tail' := by
  have part : ∀ {mix : UInt64 → UInt64} {x : UInt64} {bound : Nat} {bytes bytes' : List UInt8},
      Injective mix → bytes.length = bytes'.length → bytes.length ≤ 8 →
      (bytes.length = 0 ∨ bound ≤ tail.length) →
      (if bound ≤ tail.length then x ^^^ mix (placeBytes 0 bytes) else x) =
        (if bound ≤ tail'.length then x ^^^ mix (placeBytes 0 bytes') else x) →
      bytes = bytes' := by
    intro mix x bound bytes bytes' injective length' le seen same
    by_cases reached : bound ≤ tail.length
    · rw [if_pos reached, if_pos (length ▸ reached), UInt64.xor_right_inj] at same
      exact placeBytes_inj length' le (injective same)
    · have none : bytes.length = 0 := seen.resolve_right reached
      rw [List.eq_nil_of_length_eq_zero none,
        List.eq_nil_of_length_eq_zero (length'.symm.trans none)]
  obtain ⟨first, second⟩ := Prod.mk.inj same
  have upper : tail.drop 8 = tail'.drop 8 := by
    apply part mixK2_injective _ _ _ second
    all_goals simp only [List.length_drop]; omega
  have lower : tail.take 8 = tail'.take 8 := by
    apply part mixK1_injective _ _ _ first
    all_goals simp only [List.length_take]; omega
  rw [← List.take_append_drop 8 tail, lower, upper, List.take_append_drop]

/-! ## What is told apart -/

theorem murmurHash3_block {front block block' rest : List UInt8} {m : Nat} {seed : UInt32}
    (whole : front.length = 16 * m) (full : block.length = 16) (full' : block'.length = 16)
    (same : murmurHash3 (front ++ (block ++ rest)) seed =
      murmurHash3 (front ++ (block' ++ rest)) seed) : block = block' := by
  have expand : ∀ {block : List UInt8}, block.length = 16 →
      murmurHash3 (front ++ (block ++ rest)) seed =
        finish (front.length + (16 + rest.length))
          (tailRound (rounds (bodyRound (rounds (seed.toUInt64, seed.toUInt64) front m)
            (blockWords block 0)) rest (rest.length / 16))
              (rest.drop (rest.length / 16 * 16))) := by
    intro block full
    have length : (front ++ (block ++ rest)).length = front.length + (16 + rest.length) := by
      rw [List.length_append, List.length_append, full]
    have blocks : (front.length + (16 + rest.length)) / 16 = m + (1 + rest.length / 16) := by
      omega
    have one : rounds (rounds (seed.toUInt64, seed.toUInt64) front m) block 1 =
        bodyRound (rounds (seed.toUInt64, seed.toUInt64) front m) (blockWords block 0) := rfl
    have behind : (front ++ (block ++ rest)).drop ((m + (1 + rest.length / 16)) * 16) =
        rest.drop (rest.length / 16 * 16) := by
      have split : (m + (1 + rest.length / 16)) * 16 =
          front.length + (block.length + rest.length / 16 * 16) := by
        rw [whole, full]
        ring
      rw [split, ← List.drop_drop, List.drop_left, ← List.drop_drop, List.drop_left]
    rw [murmurHash3, length, blocks, rounds_append whole, rounds_append (by rw [full]), one, behind]
  rw [expand full, expand full'] at same
  have states := rounds_injective _ _ (tailRound_state_injective _ (finish_injective _ same))
  exact blockWords_inj full full' (bodyRound_block_injective _ states)

theorem murmurHash3_tail {front tail tail' : List UInt8} {m : Nat} {seed : UInt32}
    (whole : front.length = 16 * m) (length : tail.length = tail'.length)
    (lt : tail.length < 16)
    (same : murmurHash3 (front ++ tail) seed = murmurHash3 (front ++ tail') seed) :
    tail = tail' := by
  have expand : ∀ {rest : List UInt8}, rest.length = tail.length →
      murmurHash3 (front ++ rest) seed = finish (front.length + tail.length)
        (tailRound (rounds (seed.toUInt64, seed.toUInt64) front m) rest) := by
    intro rest short
    have total : (front ++ rest).length = front.length + tail.length := by
      rw [List.length_append, short]
    have blocks : (front.length + tail.length) / 16 = m + 0 := by omega
    have behind : (front ++ rest).drop ((m + 0) * 16) = rest := by
      rw [Nat.add_zero, Nat.mul_comm, ← whole, List.drop_left]
    rw [murmurHash3, total, blocks, rounds_append whole, rounds_zero, behind]
  rw [expand rfl, expand length.symm] at same
  exact tailRound_tail_inj _ length lt (finish_injective _ same)

theorem toUInt64_pair_injective :
    Injective fun seed : UInt32 => (seed.toUInt64, seed.toUInt64) := by
  intro seed seed' same
  have numbers := congrArg UInt64.toNat (Prod.mk.inj same).1
  rwa [UInt32.toNat_toUInt64, UInt32.toNat_toUInt64, UInt32.toNat_inj] at numbers

theorem murmurHash_eq (key : Nat) :
    murmurHash key = hashWords (murmurHash3 (keyBytes key) 1) := by
  have word : placeBytes 0 (keyBytes key) = UInt64.ofNat key := by
    have range : 256 ^ 8 = 2 ^ 64 := by decide
    apply UInt64.toNat_inj.mp
    rw [placeBytes_toNat (by rw [length_keyBytes]), keyBytes, ofBytes_toBytes,
      UInt64.toNat_ofNat', Nat.mul_zero, Nat.pow_zero, Nat.one_mul, range]
  have length := length_keyBytes key
  have state : tailRound (1, 1) (keyBytes key) = (1 ^^^ mixK1 (UInt64.ofNat key), 1) := by
    rw [tailRound, length, if_pos (by decide), if_neg (by decide),
      List.take_of_length_le length.le, word]
  have whole : murmurHash3 (keyBytes key) 1 = finish 8 (1 ^^^ mixK1 (UInt64.ofNat key), 1) := by
    rw [← state, murmurHash3, length, Nat.div_eq_of_lt (by decide), rounds_zero, Nat.zero_mul,
      List.drop_zero]
    rfl
  rw [whole]
  rfl

/-- The hash function loses nothing of a block, nothing of its seed and nothing of a key. -/
structure Separates : Prop where
  /-- Data that differ in one block: a whole one, or what is left at the end. -/
  blocks : ∀ seed front block block' rest, 16 ∣ front.length → block.length = block'.length →
    block.length ≤ 16 → (block.length = 16 ∨ rest = []) → block ≠ block' →
      murmurHash3 (front ++ (block ++ rest)) seed ≠ murmurHash3 (front ++ (block' ++ rest)) seed
  seeds : ∀ data, Injective (murmurHash3 data)
  /-- A table hashes its keys as the function does. -/
  plain : ∀ key, murmurHash key = hashWords (murmurHash3 (keyBytes key) 1)
  keys : ∀ key < 2 ^ 64, ∀ key' < 2 ^ 64, murmurHash key = murmurHash key' → key = key'

theorem hashWords_injective : Injective hashWords := by
  intro h h' same
  have word : ∀ {x y : UInt64}, x.toNat % 2 ^ 32 = y.toNat % 2 ^ 32 →
      x.toNat / 2 ^ 32 = y.toNat / 2 ^ 32 → x = y := by
    intro x y low high
    apply UInt64.toNat_inj.mp
    rw [← Nat.div_add_mod x.toNat (2 ^ 32), high, low, Nat.div_add_mod]
  simp only [hashWords, List.cons.injEq, and_true] at same
  obtain ⟨low, high, low', high'⟩ := same
  exact Prod.ext (word low high) (word low' high')

theorem keyBytes_inj {key key' : Nat} (lt : key < 2 ^ 64) (lt' : key' < 2 ^ 64)
    (same : keyBytes key = keyBytes key') : key = key' := by
  have number : ∀ {key : Nat}, key < 2 ^ 64 → ofBytes (keyBytes key) = key := by
    intro key lt
    rw [keyBytes, ofBytes_toBytes]
    exact Nat.mod_eq_of_lt lt
  rw [← number lt, same, number lt']

theorem murmurHash3_seed_injective (data : List UInt8) : Injective (murmurHash3 data) := by
  intro seed seed' same
  have states := tailRound_state_injective _ (finish_injective _ same)
  exact toUInt64_pair_injective (rounds_injective _ _ states)

/-- Each step of the hash function can be undone: a block is mixed into the state by a
bijection, and the state is a function of the seed by another one. -/
theorem separates : Separates where
  blocks seed front block block' rest := by
    rintro ⟨m, whole⟩ length le last differ same
    obtain full | rfl := last
    · exact differ (murmurHash3_block whole full (length ▸ full) same)
    · rw [List.append_nil, List.append_nil] at same
      obtain short | full := Nat.lt_or_eq_of_le le
      · exact differ (murmurHash3_tail whole length short same)
      · rw [← List.append_nil block, ← List.append_nil block'] at same
        exact differ (murmurHash3_block whole full (length ▸ full) same)
  seeds := murmurHash3_seed_injective
  plain := murmurHash_eq
  keys key lt key' lt' same := by
    rw [murmurHash_eq, murmurHash_eq] at same
    have bytes : keyBytes key = keyBytes key' := by
      have nothing : ([] : List UInt8).length = 16 * 0 := rfl
      have length : (keyBytes key).length = (keyBytes key').length := by
        rw [length_keyBytes, length_keyBytes]
      have short : (keyBytes key).length < 16 := by
        rw [length_keyBytes]
        decide
      exact murmurHash3_tail nothing length short (hashWords_injective same)
    exact keyBytes_inj lt lt' bytes

end ZnsLsm.Store
