import ZnsLsm.Store.Entries
import ZnsLsm.Store.Memtable

/-!
# What a lookup finds

The filter and the index of a well-formed table lose none of its keys, so `getValue`
returns the value that the table stores.  `get` returns the first value on the way from
the memtable down through the levels, unless it is a deletion marker.
-/

namespace ZnsLsm.Store

open ZnsLsm.Outcome ZnsLsm.Transition

namespace Table

/-! ## The filter -/

/-- A set bit stays set while the words of a hash are added. -/
theorem foldl_update_of_set (words : List Nat) {bits : Nat → Bool} {i : Nat}
    (set : bits i = true) :
    words.foldl (fun bits word => Function.update bits (word % (8 * filterSize)) true)
      bits i = true := by
  induction words generalizing bits with
  | nil => exact set
  | cons word words ih =>
      apply ih
      dsimp only
      by_cases same : i = word % (8 * filterSize)
      · rw [same, Function.update_self]
      · rw [Function.update_of_ne same]
        exact set

theorem setBits_of_mem (bits : Nat → Bool) {key word : Nat} (mem : word ∈ murmurHash key) :
    setBits bits key (word % (8 * filterSize)) = true := by
  rw [setBits]
  generalize murmurHash key = words at mem
  induction words generalizing bits with
  | nil => cases mem
  | cons first words ih =>
      rcases List.mem_cons.mp mem with rfl | later
      · exact foldl_update_of_set words (Function.update_self ..)
      · exact ih _ later

theorem bloom_of_set {entries : List (Nat × Str)} {bits : Nat → Bool} {i : Nat}
    (set : bits i = true) :
    entries.foldl (fun bits entry => setBits bits entry.1) bits i = true := by
  induction entries generalizing bits with
  | nil => exact set
  | cons entry entries ih => exact ih (foldl_update_of_set _ set)

/-- The filter has the bits of every key. -/
theorem bloom_of_mem {entries : List (Nat × Str)} {entry : Nat × Str} (mem : entry ∈ entries)
    {word : Nat} (hashed : word ∈ murmurHash entry.1) :
    bloom entries (word % (8 * filterSize)) = true := by
  rw [bloom]
  generalize (fun _ => false : Nat → Bool) = bits
  induction entries generalizing bits with
  | nil => cases mem
  | cons first entries ih =>
      rcases List.mem_cons.mp mem with rfl | later
      · rw [List.foldl_cons]
        exact bloom_of_set (setBits_of_mem bits hashed)
      · exact ih later _

/-! ## The search -/

/-- The search finds a position of the key if there is one between its bounds. -/
theorem searchLoop_spec {offset : List (Nat × Nat)} {target : Nat}
    (ascending : ∀ i j : Nat, i < j → j < offset.length →
      (offset.getD i (0, 0)).1 < (offset.getD j (0, 0)).1)
    {fuel : Nat} {low high : Int} (lowPos : 0 ≤ low) (highLt : high < offset.length)
    (enough : high - low < fuel)
    (within : ∀ j : Nat, j < offset.length → (offset.getD j (0, 0)).1 = target →
      low ≤ j ∧ (j : Int) ≤ high) :
    (searchLoop offset target fuel low high = -1 ∧
        ∀ j : Nat, j < offset.length → (offset.getD j (0, 0)).1 ≠ target) ∨
      ∃ j : Nat, searchLoop offset target fuel low high = j ∧ j < offset.length ∧
        (offset.getD j (0, 0)).1 = target := by
  induction fuel generalizing low high with
  | zero =>
      left
      refine ⟨rfl, fun j less same => ?_⟩
      have bounds := within j less same
      omega
  | succ fuel ih =>
      rw [searchLoop]
      split
      · rename_i le
        obtain ⟨mid, midEq⟩ : ∃ mid : Nat, (high - low) / 2 + low = mid :=
          ⟨((high - low) / 2 + low).toNat, by omega⟩
        have midLt : mid < offset.length := by omega
        dsimp only
        rw [midEq, Int.toNat_natCast]
        split
        · rename_i same
          exact .inr ⟨mid, rfl, midLt, same⟩
        · rename_i differs
          split
          · rename_i less
            apply ih lowPos (by omega) (by omega)
            intro j jLt same
            obtain ⟨ge, le⟩ := within j jLt same
            refine ⟨ge, ?_⟩
            by_contra above
            rcases Nat.lt_or_ge mid j with later | notLater
            · have order := ascending mid j later jLt
              omega
            · have equal : j = mid := by omega
              subst equal
              exact differs same
          · rename_i notLess
            apply ih (by omega) highLt (by omega)
            intro j jLt same
            obtain ⟨ge, le⟩ := within j jLt same
            refine ⟨?_, le⟩
            by_contra below
            rcases Nat.lt_or_ge j mid with earlier | notEarlier
            · have order := ascending j mid earlier midLt
              omega
            · have equal : j = mid := by omega
              subst equal
              exact differs same
      · rename_i notLe
        left
        refine ⟨rfl, fun j less same => ?_⟩
        have bounds := within j less same
        omega

variable {table : Table} {level : Nat}

theorem Sound.length_offset (sound : table.Sound level) :
    table.offset.length = table.keyValue.length := by
  have same := congrArg List.length sound.offset
  rwa [List.length_map, List.length_map] at same

theorem Sound.offset_getD (sound : table.Sound level) (i : Nat) :
    (table.offset.getD i (0, 0)).1 = (table.keyValue.getD i (0, .empty)).1 := by
  have same := congrArg (fun keys => keys[i]?.getD 0) sound.offset
  simp only [List.getElem?_map] at same
  rw [List.getD_eq_getElem?_getD, List.getD_eq_getElem?_getD]
  cases first : table.offset[i]? with
  | none =>
      rw [first] at same
      cases second : table.keyValue[i]? with
      | none => rfl
      | some entry => rwa [second] at same
  | some pair =>
      rw [first] at same
      cases second : table.keyValue[i]? with
      | none => rwa [second] at same
      | some entry => rwa [second] at same

theorem Sound.ascending (sound : table.Sound level) (i j : Nat) (less : i < j)
    (inside : j < table.offset.length) :
    (table.offset.getD i (0, 0)).1 < (table.offset.getD j (0, 0)).1 := by
  rw [sound.length_offset] at inside
  rw [sound.offset_getD, sound.offset_getD, List.getD_eq_getElem _ _ (less.trans inside),
    List.getD_eq_getElem _ _ inside]
  exact List.pairwise_iff_getElem.mp sound.sorted i j _ _ less

/-- The search finds a key exactly if the table stores it. -/
theorem Sound.search (sound : table.Sound level) (key : Nat) :
    (table.search key = -1 ∧ SortedMap.find key table.keyValue = none) ∨
      ∃ j : Nat, table.search key = j ∧
        SortedMap.find key table.keyValue = some (table.keyValue.getD j (0, .empty)).2 := by
  have bounds : ∀ j : Nat, j < table.offset.length → (table.offset.getD j (0, 0)).1 = key →
      (0 : Int) ≤ j ∧ (j : Int) ≤ table.offset.length - 1 := by
    intro j less _
    omega
  have enough : (table.offset.length : Int) - 1 - 0 < (table.offset.length + 1 : Nat) := by omega
  rcases searchLoop_spec sound.ascending (le_refl 0) (by omega) enough bounds with
    ⟨missed, absent⟩ | ⟨j, found, less, same⟩
  · left
    refine ⟨missed, SortedMap.find_eq_none_iff.mpr ?_⟩
    rintro entry mem rfl
    obtain ⟨j, inside, at_j⟩ := List.getElem_of_mem mem
    apply absent j (sound.length_offset ▸ inside)
    rw [sound.offset_getD, List.getD_eq_getElem _ _ inside, at_j]
  · right
    rw [sound.offset_getD] at same
    rw [sound.length_offset] at less
    refine ⟨j, found, ?_⟩
    rw [← same, List.getD_eq_getElem _ _ less]
    exact sound.sorted.find_of_mem (List.getElem_mem less)

/-- The range and the filter do not reject a key of the table. -/
theorem Sound.not_rejected (sound : table.Sound level) {entry : Nat × Str}
    (mem : entry ∈ table.keyValue) :
    ¬(entry.1 < table.minKey ∨ table.maxKey < entry.1) ∧
      ¬(murmurHash entry.1).any
        (fun word => !table.bloomFilter (word % (8 * filterSize))) := by
  obtain ⟨least, greatest⟩ := sound.range _ mem
  refine ⟨not_or.mpr ⟨Nat.not_lt.mpr least, Nat.not_lt.mpr greatest⟩, ?_⟩
  rw [List.any_eq_true]
  rintro ⟨word, hashed, missing⟩
  rw [sound.bloomFilter, bloom_of_mem mem hashed] at missing
  cases missing

/-- `getValue` returns the value that the table stores. -/
theorem Sound.getValue (sound : table.Sound level) (pool : Requests) (key : Nat) :
    (table.getValue pool key).1 = (SortedMap.find key table.keyValue).getD .empty := by
  cases found : SortedMap.find key table.keyValue with
  | none =>
      rw [Table.getValue]
      split
      · rfl
      · split
        · rfl
        · rcases sound.search key with ⟨missed, -⟩ | ⟨j, -, present⟩
          · rw [if_pos missed]
            rfl
          · rw [found] at present
            cases present
  | some value =>
      obtain ⟨inRange, inFilter⟩ := sound.not_rejected (SortedMap.mem_of_find found)
      rw [Table.getValue, if_neg inRange, if_neg inFilter]
      rcases sound.search key with ⟨-, absent⟩ | ⟨j, present, same⟩
      · rw [found] at absent
        cases absent
      · rw [found, Option.some_inj] at same
        have notMissed : ¬(j : Int) = -1 := by omega
        rw [present, if_neg notMissed]
        exact same.symm

/-- The search ends at the position of the key. -/
theorem Sound.search_eq (sound : table.Sound level) {i : Nat} {entry : Nat × Str}
    (at_i : table.keyValue[i]? = some entry) : table.search entry.1 = i := by
  have inside : i < table.offset.length := by
    rw [sound.length_offset]
    exact (List.getElem?_eq_some_iff.mp at_i).1
  have here : (table.offset.getD i (0, 0)).1 = entry.1 := by
    rw [sound.offset_getD, List.getD_eq_getElem?_getD, at_i]
    rfl
  have bounds : ∀ j : Nat, j < table.offset.length →
      (table.offset.getD j (0, 0)).1 = entry.1 → (0 : Int) ≤ j ∧
        (j : Int) ≤ table.offset.length - 1 := by
    intro j less _
    omega
  have enough : (table.offset.length : Int) - 1 - 0 < (table.offset.length + 1 : Nat) := by omega
  rcases searchLoop_spec sound.ascending (le_refl 0) (by omega) enough bounds with
    ⟨-, absent⟩ | ⟨j, found, less, same⟩
  · exact absurd here (absent i inside)
  · have equal : j = i := by
      rcases Nat.lt_trichotomy j i with earlier | equal | later
      · have order := sound.ascending j i earlier inside
        omega
      · exact equal
      · have order := sound.ascending i j later less
        omega
    exact equal ▸ found

/-- A lookup in the table is a lookup among its entries: no test rejects a stored key, and the
search ends at its position. -/
structure LooksUp (table : Table) : Prop where
  stored : ∀ pool key value, (key, value) ∈ table.keyValue →
    (table.getValue pool key).1 = value
  absent : ∀ pool key, (∀ value, (key, value) ∉ table.keyValue) →
    (table.getValue pool key).1 = .empty
  range : ∀ entry ∈ table.keyValue, ¬(entry.1 < table.minKey ∨ table.maxKey < entry.1)
  filter : ∀ entry ∈ table.keyValue, ∀ word ∈ murmurHash entry.1,
    table.bloomFilter (word % (8 * filterSize)) = true
  search : ∀ (i : Nat) (entry : Nat × Str), table.keyValue[i]? = some entry →
    table.search entry.1 = i

/-- Whichever constructor built a table, a lookup finds exactly what it stores. -/
theorem Built.looksUp {origin : Origin} (built : Built origin table) : table.LooksUp := by
  obtain ⟨level, sound⟩ := built.sound
  constructor
  · intro pool key value mem
    rw [sound.getValue, sound.sorted.find_of_mem mem]
    rfl
  · intro pool key none
    have missing : SortedMap.find key table.keyValue = .none := by
      apply SortedMap.find_eq_none_iff.mpr
      rintro ⟨other, value⟩ mem rfl
      exact none value mem
    rw [sound.getValue, missing]
    rfl
  · exact fun entry mem => (sound.not_rejected mem).1
  · intro entry mem word hashed
    rw [sound.bloomFilter]
    exact bloom_of_mem mem hashed
  · intro i entry at_i
    exact sound.search_eq at_i

/-- A memtable after a flush, with keys beyond the seeds of its range. -/
theorem looksUp_of_flush : ∃ table, Built .flush table ∧
    table.keyValue = [(3, .del), (2 ^ 64 - 1, .empty)] ∧ table.LooksUp := by
  obtain ⟨⟨table, memTable, pool⟩, made, entries⟩ := Option.map_eq_some_iff.mp
    (show (ofMemTable []
        (SkipList.run [.put (2 ^ 64 - 1) .empty, .put 3 .del, .clear, .put 5 .del]) 1).map
          (fun made => made.1.keyValue) = some [(3, .del), (2 ^ 64 - 1, .empty)] by
      decide +kernel)
  have built : Built .flush table := by
    refine .flush (fun edit mem => ?_) made
    simp only [List.mem_cons, List.not_mem_nil, or_false] at mem
    rcases mem with rfl | rfl | rfl | rfl
    · exact (by decide : 2 ^ 64 - 1 < 2 ^ 64)
    · exact (by decide : 3 < 2 ^ 64)
    · exact trivial
    · exact (by decide : 5 < 2 ^ 64)
  exact ⟨table, built, entries, built.looksUp⟩

end Table

namespace KVStore

variable {store : KVStore}

/-! ## Lookups -/

/-- The first value of a key in some tables. -/
def firstValue (key : Nat) (tables : List Table) : Option Str :=
  tables.findSome? fun table => SortedMap.find key table.keyValue

/-- The value of a key that a lookup meets first. -/
def lookup (store : KVStore) (key : Nat) : Option Str :=
  (SortedMap.find key store.memTable.nodes).or (firstValue key store.tables)

/-- What the store maps a key to. -/
def view (store : KVStore) (key : Nat) : Option Str :=
  (store.lookup key).filter (· ≠ .del)

/-- No entry has an empty value, which would stand for "not found". -/
abbrev Filled (store : KVStore) : Prop :=
  store.Entries (· ≠ .empty)

theorem mem_tables {table : Table} (mem : table ∈ store.tables) :
    ∃ level, table ∈ store.ssTable level := by
  obtain ⟨level, -, held⟩ := List.mem_flatMap.mp mem
  exact ⟨level, List.mem_reverse.mp held⟩

theorem scan_eq (key : Nat) {tables : List Table} (pool : Requests)
    (sound : ∀ table ∈ tables, ∃ level, table.Sound level)
    (filled : ∀ table ∈ tables, ∀ entry ∈ table.keyValue, entry.2 ≠ .empty) :
    (scan key tables pool).1 = (firstValue key tables).getD .empty := by
  induction tables generalizing pool with
  | nil => rfl
  | cons table tables ih =>
      obtain ⟨level, tableSound⟩ := sound table List.mem_cons_self
      have value := tableSound.getValue pool key
      have later := ih (table.getValue pool key).2
        (fun other mem => sound other (List.mem_cons_of_mem _ mem))
        (fun other mem => filled other (List.mem_cons_of_mem _ mem))
      rw [scan, firstValue, List.findSome?_cons]
      dsimp only
      cases found : SortedMap.find key table.keyValue with
      | none =>
          rw [found] at value
          rw [if_neg fun ne => ne value]
          exact later
      | some held =>
          rw [found] at value
          have nonempty := filled table List.mem_cons_self _ (SortedMap.mem_of_find found)
          change (table.getValue pool key).1 = held at value
          rw [value, if_pos nonempty]
          rfl

/-- `get` returns what the store maps the key to. -/
theorem get_fst (sound : store.Sound) (filled : store.Filled) (key : Nat) :
    (store.get key).1 = (store.view key).getD .empty := by
  rw [get, view, lookup]
  dsimp only
  rw [sound.memTable.get]
  cases found : SortedMap.find key store.memTable.nodes with
  | some value =>
      have nonempty := filled.memTable _ (SortedMap.mem_of_find found)
      rw [Option.getD_some, if_pos nonempty, Option.some_or]
      by_cases marker : value = .del
      · simp [marker, Option.filter]
      · simp [marker, Option.filter]
  | none =>
      have scanned := scan_eq key store.memoryPool
        (fun table mem => (mem_tables mem).imp fun level held => sound.tables level table held)
        (fun table mem => filled.tables _ table (mem_tables mem).choose_spec)
      rw [Option.getD_none, if_neg fun ne => ne rfl, Option.none_or]
      dsimp only
      rw [scanned]
      cases first : firstValue key store.tables with
      | none => rfl
      | some value =>
          by_cases marker : value = .del
          · simp [marker, Option.filter]
          · simp [marker, Option.filter]

/-- A value that the store maps a key to is not empty. -/
theorem view_ne_empty (filled : store.Filled) {key : Nat} {value : Str}
    (found : store.view key = some value) : value ≠ .empty := by
  obtain ⟨first, -⟩ := Option.filter_eq_some_iff.mp found
  rw [lookup, Option.or_eq_some_iff] at first
  rcases first with inMemory | ⟨-, inTables⟩
  · exact filled.memTable _ (SortedMap.mem_of_find inMemory)
  · obtain ⟨table, mem, held⟩ := List.exists_of_findSome?_eq_some inTables
    obtain ⟨level, member⟩ := mem_tables mem
    exact filled.tables level table member _ (SortedMap.mem_of_find held)

/-- `get` finds something exactly if the store maps the key to something. -/
theorem get_ne_empty_iff (sound : store.Sound) (filled : store.Filled) (key : Nat) :
    (store.get key).1 ≠ .empty ↔ (store.view key).isSome := by
  rw [get_fst sound filled]
  cases found : store.view key with
  | none => simp
  | some value => simpa using view_ne_empty filled found

end KVStore

end ZnsLsm.Store
