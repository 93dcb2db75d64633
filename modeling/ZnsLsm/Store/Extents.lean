import ZnsLsm.Store.Lookup

/-!
# Where the values of a table lie

The index gives every key the position at which its value starts; the value ends where the
next one starts.  Positions advance by what a constructor takes for the length of a value:
the compaction counts the value and its terminator, but the flush looks at the value after
it was moved away and counts the terminator alone.
-/

namespace ZnsLsm.Store

namespace Table

variable {length : Str → Nat} {area : Nat} {entries : List (Nat × Str)} {table : Table}

/-! ## Positions -/

/-- The length of the first values. -/
def extent (length : Str → Nat) (entries : List (Nat × Str)) : Nat :=
  (entries.map fun entry => length entry.2).sum

@[simp]
theorem extent_cons (length : Str → Nat) (entry : Nat × Str) (rest : List (Nat × Str)) :
    extent length (entry :: rest) = length entry.2 + extent length rest := by
  rw [extent, extent, List.map_cons, List.sum_cons]

theorem extent_le_of_mem {entry : Nat × Str} (mem : entry ∈ entries) :
    length entry.2 ≤ extent length entries :=
  List.single_le_sum (fun _ _ => Nat.zero_le _) _ (List.mem_map_of_mem mem)

theorem extent_mono {other : Str → Nat} (le : ∀ value, length value ≤ other value)
    (entries : List (Nat × Str)) : extent length entries ≤ extent other entries :=
  List.sum_le_sum fun entry _ => le entry.2

/-- The size of a table without its index is the length of its values. -/
theorem tableSize_eq (entries : List (Nat × Str)) :
    tableSize entries = initialSize + 12 * entries.length +
      extent (fun value => value.size + 1) entries := by
  induction entries with
  | nil => rfl
  | cons entry rest ih =>
      rw [tableSize] at ih ⊢
      rw [List.map_cons, List.sum_cons, List.length_cons, extent_cons, entrySize]
      omega

/-- The position after a value. -/
theorem extent_take_succ {i : Nat} {entry : Nat × Str} (at_i : entries[i]? = some entry) :
    extent length (entries.take (i + 1)) = extent length (entries.take i) + length entry.2 := by
  rw [List.take_add_one, at_i, extent, extent, List.map_append, List.sum_append]
  rfl

theorem extent_take_le (i : Nat) :
    extent length (entries.take i) ≤ extent length entries := by
  have split := congrArg (extent length) (List.take_append_drop i entries)
  rw [extent, List.map_append, List.sum_append] at split
  exact Nat.le_of_add_right_le (Nat.le_of_eq split)

/-- While the positions have 32 bits, they are sums of lengths. -/
theorem buildIndex_getElem? {curlength : Nat} (areaPos : 0 < area)
    (lengthPos : ∀ value, 0 < length value)
    (within : area + curlength + extent length entries ≤ 2 ^ 32) :
    (buildIndex area length curlength entries).2 = curlength + extent length entries ∧
      ∀ i : Nat, (buildIndex area length curlength entries).1[i]? =
        entries[i]?.map fun entry =>
          (entry.1, area + curlength + extent length (entries.take i)) := by
  induction entries generalizing curlength with
  | nil => exact ⟨rfl, fun i => by simp [buildIndex]⟩
  | cons entry rest ih =>
      rcases entry with ⟨key, value⟩
      have pos := lengthPos value
      rw [extent_cons] at within
      dsimp only at within
      have next : (curlength + length value) % 2 ^ 32 = curlength + length value :=
        Nat.mod_eq_of_lt (by omega)
      have here : (area + curlength) % 2 ^ 32 = area + curlength :=
        Nat.mod_eq_of_lt (by omega)
      obtain ⟨total, positions⟩ := @ih (curlength + length value) (by omega)
      simp only [buildIndex, next, here]
      constructor
      · rw [total, extent_cons]
        dsimp only
        omega
      · rintro (_ | i)
        · rfl
        · rw [List.getElem?_cons_succ, positions i, List.getElem?_cons_succ, List.take_succ_cons,
            extent_cons]
          dsimp only
          rw [Nat.add_assoc, Nat.add_assoc, Nat.add_assoc]

/-! ## The description of the data -/

/-- The index describes the data if a value and its terminator take as many bytes as `length`
says. -/
structure DescribedBy (length : Str → Nat) (table : Table) : Prop where
  keys : table.offset.map Prod.fst = table.keyValue.map Prod.fst
  first : ∀ entry ∈ table.offset.head?,
    entry.2 = initialSize + 12 * table.metaInfo.pairNum
  next : ∀ (i : Nat) (key start key' stop : Nat) (value : Str),
    table.keyValue[i]? = some (key, value) → table.offset[i]? = some (key, start) →
      table.offset[i + 1]? = some (key', stop) → stop = start + length value
  last : ∀ (key start : Nat) (value : Str), table.keyValue.getLast? = some (key, value) →
    table.offset.getLast? = some (key, start) →
      dataArea table.metaInfo.pairNum + table.metaInfo.dataLength = start + length value
  /-- A lookup asks for the bytes of the value that it finds. -/
  asked : ∀ (pool : Requests) (i : Nat) (key start : Nat) (value : Str),
    table.keyValue[i]? = some (key, value) → table.offset[i]? = some (key, start) →
      table.getValue pool key =
        (value, .getValue table.metaInfo.level table.metaInfo.order start (length value) :: pool)

/-- Only the lengths of the values of the table matter. -/
theorem DescribedBy.congr {other : Str → Nat} (described : table.DescribedBy length)
    (same : ∀ entry ∈ table.keyValue, length entry.2 = other entry.2) :
    table.DescribedBy other where
  keys := described.keys
  first := described.first
  next i key start key' stop value held at_i at_next := by
    rw [described.next i key start key' stop value held at_i at_next]
    exact congrArg _ (same _ (List.mem_of_getElem? held))
  last key start value held at_last := by
    rw [described.last key start value held at_last]
    exact congrArg _ (same _ (List.mem_of_getLast? held))
  asked pool i key start value held at_i := by
    rw [described.asked pool i key start value held at_i]
    rw [same _ (List.mem_of_getElem? held)]

/-- What a lookup of a stored key returns and asks for. -/
theorem Sound.getValue_stored {level : Nat} (sound : table.Sound level) (pool : Requests)
    {i key : Nat} {value : Str} (at_i : table.keyValue[i]? = some (key, value)) :
    table.getValue pool key =
      (value,
        .getValue table.metaInfo.level table.metaInfo.order (table.offset.getD i (0, 0)).2
          (((if i + 1 ≠ table.offset.length then (table.offset.getD (i + 1) (0, 0)).2
              else (dataArea table.metaInfo.pairNum + table.metaInfo.dataLength) % 2 ^ 32 : Nat) -
            (table.offset.getD i (0, 0)).2 : Int) % 2 ^ 32).toNat :: pool) := by
  obtain ⟨inRange, inFilter⟩ := sound.not_rejected (List.mem_of_getElem? at_i)
  have position : table.search key = i := sound.search_eq at_i
  have notMissed : ¬(i : Int) = -1 := by omega
  have held : table.keyValue.getD i (0, .empty) = (key, value) := by
    rw [List.getD_eq_getElem?_getD, at_i]
    rfl
  rw [Table.getValue, if_neg inRange, if_neg inFilter, position, if_neg notMissed]
  simp only [Int.toNat_natCast, held]

/-- What the index of a table that fits into 2^32 bytes holds. -/
structure Indexed (length : Str → Nat) (entries : List (Nat × Str)) (table : Table) : Prop where
  keyValue : table.keyValue = entries
  pairNum : table.metaInfo.pairNum = entries.length
  area : dataArea entries.length = initialSize + 12 * entries.length
  dataLength : table.metaInfo.dataLength = extent length entries
  offset : ∀ i : Nat, table.offset[i]? = entries[i]?.map fun entry =>
    (entry.1, dataArea entries.length + extent length (entries.take i))

theorem indexed_build {level order timeStamp minKey maxKey : Nat} (nonempty : entries ≠ [])
    (lengthPos : ∀ value, 0 < length value)
    (within : initialSize + 12 * entries.length + extent length entries ≤ 2 ^ 32) :
    (build level order timeStamp entries.length minKey maxKey length entries).Indexed
      length entries := by
  obtain ⟨entry, mem⟩ := List.exists_mem_of_ne_nil entries nonempty
  have positive : 0 < extent length entries :=
    Nat.lt_of_lt_of_le (lengthPos entry.2) (extent_le_of_mem mem)
  have initialPos : 0 < initialSize := by decide
  have area : dataArea entries.length = initialSize + 12 * entries.length := by
    rw [dataArea, Nat.mul_comm, Nat.mod_eq_of_lt (by omega)]
  have fits : dataArea entries.length + 0 + extent length entries ≤ 2 ^ 32 := by omega
  obtain ⟨total, positions⟩ := buildIndex_getElem? (by omega) lengthPos fits
  rw [Nat.zero_add] at total
  exact
    { keyValue := rfl
      pairNum := Nat.mod_eq_of_lt (by omega)
      area := area
      dataLength := total
      offset := positions }

namespace Indexed

variable (indexed : table.Indexed length entries)

include indexed

theorem start_eq {i key start : Nat} (at_i : table.offset[i]? = some (key, start)) :
    start = dataArea entries.length + extent length (entries.take i) := by
  rw [indexed.offset i] at at_i
  obtain ⟨_, -, same⟩ := Option.map_eq_some_iff.mp at_i
  exact (Prod.mk.inj same).2.symm

theorem length_offset : table.offset.length = entries.length := by
  apply Nat.le_antisymm
  · have none := indexed.offset entries.length
    rw [List.getElem?_eq_none (Nat.le_refl _)] at none
    exact List.getElem?_eq_none_iff.mp none
  · have none := indexed.offset table.offset.length
    rw [List.getElem?_eq_none (Nat.le_refl _)] at none
    exact List.getElem?_eq_none_iff.mp (Option.map_eq_none_iff.mp none.symm)

/-- The position after a value is that of the next value, or the end of the data. -/
theorem stop_eq {i : Nat} (inside : i < entries.length) :
    (if i + 1 ≠ table.offset.length then (table.offset.getD (i + 1) (0, 0)).2
      else dataArea table.metaInfo.pairNum + table.metaInfo.dataLength) =
      dataArea entries.length + extent length (entries.take (i + 1)) := by
  rw [indexed.length_offset, indexed.pairNum, indexed.dataLength]
  split
  · rename_i more
    have less : i + 1 < entries.length := by omega
    rw [List.getD_eq_getElem?_getD, indexed.offset, List.getElem?_eq_getElem less]
    rfl
  · rename_i all
    rw [not_not.mp all, List.take_length]

end Indexed

/-- A table that fits into 2^32 bytes is described by the lengths that it was built with. -/
theorem Sound.describedBy {level : Nat} (sound : table.Sound level)
    (indexed : table.Indexed length entries)
    (within : initialSize + 12 * entries.length + extent length entries ≤ 2 ^ 32) :
    table.DescribedBy length := by
  have area := indexed.area
  have initialPos : 0 < initialSize := by decide
  constructor
  · exact sound.offset
  · intro entry isHead
    rw [List.head?_eq_getElem?] at isHead
    have start := indexed.start_eq isHead
    rw [start, indexed.pairNum, area]
    rfl
  · intro i key start key' stop value held at_i at_next
    rw [indexed.keyValue] at held
    rw [indexed.start_eq at_i, indexed.start_eq at_next, extent_take_succ held, Nat.add_assoc]
  · intro key start value held at_last
    rw [indexed.keyValue, List.getLast?_eq_getElem?] at held
    rw [List.getLast?_eq_getElem?, indexed.length_offset] at at_last
    have inside := (List.getElem?_eq_some_iff.mp held).1
    have whole : entries.take (entries.length - 1 + 1) = entries := by
      rw [Nat.sub_add_cancel (by omega), List.take_length]
    have total : extent length (entries.take (entries.length - 1 + 1)) = _ :=
      extent_take_succ held
    rw [whole] at total
    rw [indexed.start_eq at_last, indexed.pairNum, indexed.dataLength, total, Nat.add_assoc]
  · intro pool i key start value held at_i
    have inside : i < entries.length := by
      rw [← indexed.keyValue]
      exact (List.getElem?_eq_some_iff.mp held).1
    have stop := indexed.stop_eq inside
    have startEq := indexed.start_eq at_i
    have start_i : (table.offset.getD i (0, 0)).2 = start := by
      rw [List.getD_eq_getElem?_getD, at_i]
      rfl
    rw [sound.getValue_stored pool held, start_i]
    rw [indexed.keyValue] at held
    have advance : extent length (entries.take (i + 1)) = _ := extent_take_succ held
    have inTotal : extent length (entries.take (i + 1)) ≤ extent length entries :=
      extent_take_le (i + 1)
    have len : (((if i + 1 ≠ table.offset.length then (table.offset.getD (i + 1) (0, 0)).2
          else (dataArea table.metaInfo.pairNum + table.metaInfo.dataLength) % 2 ^ 32 : Nat) -
        start : Int) % 2 ^ 32).toNat = length value := by
      dsimp only at advance
      split
      · rename_i more
        rw [if_pos more] at stop
        omega
      · rename_i all
        rw [if_neg all] at stop
        omega
    rw [len]

/-- The index describes the data. -/
abbrev Described (table : Table) : Prop :=
  table.DescribedBy fun value => value.size + 1

/-- The index of a table describes the data exactly if the table comes out of a compaction or has
empty values only. -/
theorem Built.described_iff {origin : Origin} (built : Built origin table)
    (within : tableSize table.keyValue ≤ 2 ^ 32) :
    table.Described ↔ origin = .compaction ∨ ∀ entry ∈ table.keyValue, entry.2.size = 0 := by
  obtain ⟨level, order, timeStamp, minKey, maxKey, entries, tableEq, sorted, nonempty, range⟩ :=
    built.eq_build
  have keyValue : table.keyValue = entries := by rw [tableEq]; rfl
  rw [keyValue, tableSize_eq] at within
  have lengthPos : ∀ value, 0 < origin.length value := by
    intro value
    cases origin <;> exact Nat.succ_pos _
  have lengthLe : ∀ value, origin.length value ≤ value.size + 1 := by
    intro value
    cases origin with
    | flush => exact Nat.succ_le_succ (Nat.zero_le _)
    | compaction => exact Nat.le_refl _
  have within' : initialSize + 12 * entries.length + extent origin.length entries ≤ 2 ^ 32 :=
    Nat.le_trans (Nat.add_le_add_left (extent_mono lengthLe entries) _) within
  have sound : table.Sound level := tableEq ▸ sound_build sorted nonempty range
  have indexed : table.Indexed origin.length entries :=
    tableEq ▸ indexed_build nonempty lengthPos within'
  have described := sound.describedBy indexed within'
  cases origin with
  | compaction => exact iff_of_true described (.inl rfl)
  | flush =>
      constructor
      · intro right
        right
        intro entry mem
        obtain ⟨i, inside, at_i⟩ := List.getElem_of_mem mem
        have held : table.keyValue[i]? = some (entry.1, entry.2) := by
          rw [List.getElem?_eq_getElem inside, at_i]
        obtain ⟨start, at_start⟩ : ∃ start, table.offset[i]? = some (entry.1, start) := by
          rw [keyValue] at held
          rw [indexed.offset, held]
          exact ⟨_, rfl⟩
        have actual := described.asked [] i _ _ _ held at_start
        rw [right.asked [] i _ _ _ held at_start] at actual
        simp only [Prod.mk.injEq, List.cons.injEq, Pool.Op.getValue.injEq, true_and, and_true]
          at actual
        exact Nat.succ.inj actual
      · rintro (other | empty)
        · cases other
        · apply described.congr
          intro entry mem
          rw [empty entry mem]
          rfl

/-- The flush of one key with a value of three bytes. -/
theorem not_described :
    ¬∀ (origin : Origin) (table : Table), Built origin table →
      tableSize table.keyValue ≤ 2 ^ 32 → table.Described := by
  intro always
  obtain ⟨⟨table, memTable, pool⟩, made, data⟩ := Option.map_eq_some_iff.mp
    (show (ofMemTable [] (SkipList.run [.put 5 (.replicate 3 (by decide) 97)]) 1).map
        (fun made => (made.1.keyValue, made.1.offset, made.1.metaInfo.pairNum,
          made.1.metaInfo.dataLength)) =
        some ([(5, .replicate 3 (by decide) 97)], [(5, 1048616)], 1, 1) by
      decide +kernel)
  simp only [Prod.mk.injEq] at data
  obtain ⟨entries, offset, pairNum, dataLength⟩ := data
  have built : Built .flush table := by
    refine .flush (fun edit mem => ?_) made
    obtain rfl := List.mem_singleton.mp mem
    exact (by decide : 5 < 2 ^ 64)
  have described := always .flush table built (by rw [entries]; decide +kernel)
  have last := described.last 5 1048616 (.replicate 3 (by decide) 97)
    (by rw [entries]; rfl) (by rw [offset]; rfl)
  rw [pairNum, dataLength] at last
  exact absurd last (by decide +kernel)

/-- Entries with values of five bytes, none, a thousand, and the marker. -/
def mixedEntries : List (Nat × Str) :=
  [(3, .replicate 5 (by decide) 97), (7, .empty), (9, .replicate 1000 (by decide) 98),
    (2 ^ 64 - 1, .del)]

/-- Their table is described if a compaction writes it, and not if a flush does. -/
theorem described_of_compaction :
    (∃ table, Built .compaction table ∧ table.keyValue = mixedEntries ∧
      table.offset.map Prod.snd = [1048652, 1048658, 1048659, 1049660] ∧ table.Described) ∧
    ∃ table, Built .flush table ∧ table.keyValue = mixedEntries ∧
      table.offset.map Prod.snd = [1048652, 1048653, 1048654, 1048655] ∧ ¬table.Described := by
  have within : tableSize mixedEntries ≤ 2 ^ 32 := by
    decide +kernel
  have sorted : SortedMap.Sorted mixedEntries := by
    rw [SortedMap.Sorted]
    decide +kernel
  constructor
  · obtain ⟨⟨table, pool⟩, made, offset⟩ := Option.map_eq_some_iff.mp
      (show (ofEntries [] 1 1 1 mixedEntries.length mixedEntries).map
          (fun made => made.1.offset.map Prod.snd) =
          some [1048652, 1048658, 1048659, 1049660] by decide +kernel)
    have built : Built .compaction table := .compaction sorted made
    have same : table.keyValue = mixedEntries := by
      cases made
      rfl
    exact ⟨table, built, same, offset,
      (built.described_iff (by rw [same]; exact within)).mpr (.inl rfl)⟩
  · obtain ⟨⟨table, memTable, pool⟩, made, offset⟩ := Option.map_eq_some_iff.mp
      (show (ofMemTable [] (SkipList.run (mixedEntries.map fun entry => .put entry.1 entry.2))
          1).map (fun made => made.1.offset.map Prod.snd) =
          some [1048652, 1048653, 1048654, 1048655] by decide +kernel)
    have built : Built .flush table := by
      refine .flush (fun edit mem => ?_) made
      obtain ⟨entry, held, rfl⟩ := List.mem_map.mp mem
      exact (by decide +kernel : ∀ entry ∈ mixedEntries, entry.1 < 2 ^ 64) entry held
    have same : table.keyValue = mixedEntries := by
      cases made
      rfl
    refine ⟨table, built, same, offset, fun described => ?_⟩
    rcases (built.described_iff (by rw [same]; exact within)).mp described with other | empty
    · cases other
    · rw [same] at empty
      exact absurd (empty (3, .replicate 5 (by decide) 97) List.mem_cons_self) (by decide)

end Table

end ZnsLsm.Store
