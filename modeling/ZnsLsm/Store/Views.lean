import ZnsLsm.Store.Fitting
import ZnsLsm.Store.Lookup
import ZnsLsm.Store.Precedence

/-!
# What flushes and compactions do to the keys

A flush moves the memtable to the top of level 0 and a compaction moves entries from
one level to the next.  Neither changes what the store maps a key to, provided that no
table is dropped and that the merge keeps the newer versions.
-/

namespace ZnsLsm.Store

open ZnsLsm.Outcome ZnsLsm.Transition
open ZnsLsm.Pool (sstableSize)

/-! ## The first value in a range -/

theorem findSome?_congr {α β : Type} {items : List α} {f g : α → Option β}
    (same : ∀ item ∈ items, f item = g item) : items.findSome? f = items.findSome? g := by
  induction items with
  | nil => rfl
  | cons item items ih =>
      rw [List.findSome?_cons, List.findSome?_cons, same item List.mem_cons_self,
        ih fun other mem => same other (List.mem_cons_of_mem _ mem)]

theorem findSome?_range_succ {β : Type} (f : Nat → Option β) (count : Nat) :
    (List.range (count + 1)).findSome? f =
      (f 0).or ((List.range count).findSome? fun i => f (i + 1)) := by
  rw [List.range_succ_eq_map, List.findSome?_cons, List.findSome?_map]
  cases f 0 with
  | none => rfl
  | some value => rfl

/-- The first value before, at, and after two neighbours. -/
theorem findSome?_range_split {β : Type} (f : Nat → Option β) (before after : Nat) :
    (List.range (before + 2 + after)).findSome? f =
      ((List.range before).findSome? f).or (((f before).or (f (before + 1))).or
        ((List.range after).findSome? fun i => f (before + 2 + i))) := by
  rw [List.range_add, List.findSome?_append, List.findSome?_map, List.range_succ,
    List.range_succ, List.findSome?_append, List.findSome?_append, Option.or_assoc,
    Option.or_assoc]
  simp only [List.findSome?_singleton, Option.or_assoc]
  rfl

namespace KVStore

variable {pops : List Table → List Table} {store store' : KVStore} {level : Nat}

/-! ## Lookups by levels -/

/-- The value of a key that a lookup meets first on a level. -/
def levelValue (store : KVStore) (key level : Nat) : Option Str :=
  firstValue key (store.ssTable level).reverse

@[simp]
theorem firstValue_append (key : Nat) (first second : List Table) :
    firstValue key (first ++ second) = (firstValue key first).or (firstValue key second) :=
  List.findSome?_append

@[simp]
theorem firstValue_flatMap (key : Nat) (tables : Nat → List Table) (levels : List Nat) :
    firstValue key (levels.flatMap tables) =
      levels.findSome? fun level => firstValue key (tables level) := by
  induction levels with
  | nil => rfl
  | cons level levels ih =>
      rw [List.flatMap_cons, firstValue_append, ih, List.findSome?_cons]
      cases firstValue key (tables level) with
      | none => rfl
      | some value => rfl

/-- Levels that do not exist hold nothing. -/
@[simp]
theorem Sound.levelValue_of_ge (sound : store.Sound) (key : Nat) (ge : store.depth ≤ level) :
    store.levelValue key level = none := by
  rw [levelValue, (sound.bare level ge).1]
  rfl

/-- A lookup goes through the levels, as far as they exist and further. -/
theorem Sound.lookup_eq (sound : store.Sound) (key : Nat) {count : Nat}
    (ge : store.depth ≤ count) : store.lookup key =
      (SortedMap.find key store.memTable.nodes).or
        ((List.range count).findSome? (store.levelValue key)) := by
  obtain ⟨more, rfl⟩ := Nat.exists_eq_add_of_le ge
  have levels : firstValue key store.tables =
      (List.range store.depth).findSome? (store.levelValue key) :=
    firstValue_flatMap key ..
  rw [lookup, levels]
  congr 1
  clear ge
  induction more with
  | zero => rfl
  | succ more ih =>
      rw [← Nat.add_assoc, List.range_succ, List.findSome?_append, ← ih,
        List.findSome?_singleton, sound.levelValue_of_ge key (Nat.le_add_right ..),
        Option.or_none]

/-- In disjoint tables at most one has a version of a key, whatever the order. -/
theorem firstValue_eq_some_iff {tables : List Table} (partitioned : Partitioned tables)
    (sound : ∀ table ∈ tables, table.Sound level) {key : Nat} {value : Str} :
    firstValue key tables.reverse = some value ↔
      ∃ table ∈ tables, (key, value) ∈ table.keyValue := by
  constructor
  · intro found
    obtain ⟨table, mem, held⟩ := List.exists_of_findSome?_eq_some found
    exact ⟨table, List.mem_reverse.mp mem, SortedMap.mem_of_find held⟩
  · rintro ⟨table, mem, held⟩
    have here := (sound table mem).sorted.find_of_mem held
    cases found : firstValue key tables.reverse with
    | none =>
        have absent := List.findSome?_eq_none_iff.mp found table (List.mem_reverse.mpr mem)
        rw [here] at absent
        cases absent
    | some other =>
        obtain ⟨table', mem', there⟩ := List.exists_of_findSome?_eq_some found
        rw [List.mem_reverse] at mem'
        have same : table' = table := by
          by_contra ne
          have keyIn : key ∈ table.keys := ⟨value, held⟩
          have keyIn' : key ∈ table'.keys := ⟨other, SortedMap.mem_of_find there⟩
          exact Set.disjoint_left.mp (partitioned.disjoint mem' mem ne)
            ((sound table' mem').mem_range keyIn') ((sound table mem).mem_range keyIn)
        rw [same, here] at there
        exact there.symm

/-! ## Compactions -/

/-- A table that is not merged has no merged key. -/
theorem find_eq_none_of_untouched (sound : store.Sound)
    (partitioned : Partitioned (store.ssTable level)) {untouched merged : Table}
    (mem : untouched ∈ store.ssTable level) (notMerged : untouched ∉ store.overlapped level)
    (either : merged ∈ store.picked level ∨ merged ∈ store.overlapped level)
    {key : Nat} {value : Str} (held : (key, value) ∈ merged.keyValue) (other : Str) :
    (key, other) ∉ untouched.keyValue := by
  intro held'
  have mergedSound : ∃ level, merged.Sound level := by
    rcases either with picked | overlapped
    · exact ⟨_, sound.tables _ merged (mem_picked picked)⟩
    · exact ⟨_, sound.tables _ merged (mem_overlapped overlapped)⟩
  obtain ⟨_, mergedSound⟩ := mergedSound
  obtain ⟨least, greatest⟩ := mergedSound.mem_range ⟨value, held⟩
  obtain ⟨least', greatest'⟩ := (sound.tables level untouched mem).mem_range ⟨other, held'⟩
  rcases apart_of_untouched sound partitioned mem notMerged with above | below
  · have less := above merged either
    omega
  · have less := below merged either
    omega

/-- What the target level holds after a compaction that drops no table. -/
structure Moved (pops : List Table → List Table) (level : Nat) (store store' : KVStore) :
    Prop where
  compacted : store.Compacted pops level store'
  partitioned : Partitioned (store.ssTable level)
  agrees : Agrees pops store level
  target : ∀ table, table ∈ store'.ssTable level ↔
    table ∈ store.outTables pops level ∨
      table ∈ store.ssTable level ∧ table ∉ store.overlapped level

/-- The entries of the target level are those that survive the merge and those of the
tables that were not merged. -/
theorem Moved.levelValue_eq_some_iff (moved : store.Moved pops level store')
    (sound : store.Sound) (valid : Pops pops) (pos : 1 ≤ level) {key : Nat} {value : Str} :
    store'.levelValue key level = some value ↔
      (key, value) ∈ store.survivors pops level ∨
        ∃ table ∈ store.ssTable level, table ∉ store.overlapped level ∧
          (key, value) ∈ table.keyValue := by
  have sound' := sound.compacted valid pos moved.compacted
  have partitioned' := moved.partitioned.compacted sound valid moved.compacted
  rw [levelValue, firstValue_eq_some_iff partitioned' (sound'.tables level)]
  constructor
  · rintro ⟨table, mem, held⟩
    rcases (moved.target table).mp mem with new | ⟨old, stays⟩
    · obtain ⟨number, file, -, -, member, rfl⟩ := mem_fileTables new
      exact .inl (mem_survivors_of_file member held)
    · exact .inr ⟨table, old, stays, held⟩
  · rintro (survives | ⟨table, old, stays, held⟩)
    · have flat := flatten_cut initialSize [] (store.survivors pops level)
      rw [List.nil_append] at flat
      rw [← flat] at survives
      obtain ⟨file, member, held⟩ := List.mem_flatten.mp survives
      obtain ⟨table, new, rfl⟩ := exists_outTable member
      exact ⟨table, (moved.target table).mpr (.inl new), held⟩
    · exact ⟨table, (moved.target table).mpr (.inr ⟨old, stays⟩), held⟩

/-- The level above holds a key in a table that stays, or in one that is picked. -/
theorem levelValue_above (store : KVStore) (level key : Nat) :
    store.levelValue key (level - 1) =
      (firstValue key ((store.ssTable (level - 1)).drop (store.compactNum level)).reverse).or
        (firstValue key (store.picked level).reverse) := by
  rw [levelValue, ← firstValue_append, ← List.reverse_append, picked, List.take_append_drop]

namespace Moved

variable (moved : store.Moved pops level store') (sound : store.Sound)

include moved

/-- The merge keeps the newest picked version, or else that of the merged tables below. -/
theorem newest_merging (key : Nat) :
    SortedMap.newest key ((store.merging pops level).map Table.keyValue) =
      (firstValue key (store.picked level).reverse).or
        (firstValue key (store.overlapped level).reverse) :=
  (moved.agrees.newest key).trans (firstValue_append key _ _)

include sound

/-- A key that no merged table holds keeps its value on the target level. -/
theorem levelValue_of_unmerged (valid : Pops pops) (pos : 1 ≤ level) {key : Nat}
    (unmerged : SortedMap.newest key ((store.merging pops level).map Table.keyValue) = none) :
    firstValue key (store.picked level).reverse = none ∧
      store'.levelValue key level = store.levelValue key level := by
  obtain ⟨noPicked, noOverlapped⟩ :=
    Option.or_eq_none_iff.mp ((moved.newest_merging key).symm.trans unmerged)
  refine ⟨noPicked, Option.ext fun value => ?_⟩
  rw [moved.levelValue_eq_some_iff sound valid pos, levelValue,
    firstValue_eq_some_iff moved.partitioned (sound.tables level)]
  constructor
  · rintro (survives | ⟨table, old, -, held⟩)
    · have found := ((mem_survivors_iff sound.ordered valid).mp survives).1
      rw [unmerged] at found
      cases found
    · exact ⟨table, old, held⟩
  · rintro ⟨table, old, held⟩
    refine .inr ⟨table, old, ?_, held⟩
    intro overlapped
    have absent := List.findSome?_eq_none_iff.mp noOverlapped table
      (List.mem_reverse.mpr overlapped)
    rw [(sound.tables level table old).sorted.find_of_mem held] at absent
    cases absent

/-- The value that wins the merge is the one that is found before it. -/
theorem levelValue_of_merged {key : Nat} {value : Str}
    (merged : SortedMap.newest key ((store.merging pops level).map Table.keyValue) =
      some value) :
    (firstValue key (store.picked level).reverse).or (store.levelValue key level) =
      some value := by
  rcases Option.or_eq_some_iff.mp ((moved.newest_merging key).symm.trans merged) with
    picked | ⟨absent, overlapped⟩
  · rw [picked, Option.some_or]
  · rw [absent, Option.none_or, levelValue,
      firstValue_eq_some_iff moved.partitioned (sound.tables level)]
    obtain ⟨table, mem, held⟩ := List.exists_of_findSome?_eq_some overlapped
    exact ⟨table, mem_overlapped (List.mem_reverse.mp mem), SortedMap.mem_of_find held⟩

/-- A deletion marker that wins a merge into the last level leaves no version behind. -/
theorem levelValue_of_dropped (valid : Pops pops) (pos : 1 ≤ level) {key : Nat}
    (merged : SortedMap.newest key ((store.merging pops level).map Table.keyValue) =
      some .del) (last : store.depth ≤ level + 1) :
    store'.levelValue key level = none := by
  apply Option.eq_none_iff_forall_ne_some.mpr
  intro other found
  rcases (moved.levelValue_eq_some_iff sound valid pos).mp found with
    survives | ⟨table, old, stays, held⟩
  · obtain ⟨same, keeps⟩ := (mem_survivors_iff sound.ordered valid).mp survives
    rw [merged, Option.some_inj] at same
    exact keeps ⟨last, same.symm⟩
  · obtain ⟨map, member, inMap⟩ := SortedMap.mem_of_newest merged
    obtain ⟨table', mem', rfl⟩ := List.mem_map.mp member
    exact find_eq_none_of_untouched sound moved.partitioned old stays
      ((mem_merging valid).mp mem') inMap other held

/-- The levels of a compaction hold the same value of a key, or a deletion marker is
dropped on the last level. -/
theorem levels (valid : Pops pops) (pos : 1 ≤ level) (key : Nat) :
    (store'.levelValue key (level - 1)).or (store'.levelValue key level) =
        (store.levelValue key (level - 1)).or (store.levelValue key level) ∨
      (store.levelValue key (level - 1)).or (store.levelValue key level) = some .del ∧
        (store'.levelValue key (level - 1)).or (store'.levelValue key level) = none ∧
          store.depth ≤ level + 1 := by
  have above' : store'.levelValue key (level - 1) =
      firstValue key ((store.ssTable (level - 1)).drop (store.compactNum level)).reverse := by
    rw [levelValue, moved.compacted.above]
  rw [store.levelValue_above, above']
  generalize firstValue key ((store.ssTable (level - 1)).drop _).reverse = rest
  cases rest with
  | some value => exact .inl rfl
  | none =>
      simp only [Option.none_or]
      cases merged : SortedMap.newest key ((store.merging pops level).map Table.keyValue) with
      | none =>
          obtain ⟨noPicked, same⟩ := moved.levelValue_of_unmerged sound valid pos merged
          left
          rw [noPicked, Option.none_or, same]
      | some value =>
          rw [moved.levelValue_of_merged sound merged]
          by_cases dropped : store.depth ≤ level + 1 ∧ value = .del
          · obtain ⟨last, rfl⟩ := dropped
            exact .inr ⟨rfl, moved.levelValue_of_dropped sound valid pos merged last, last⟩
          · left
            rw [moved.levelValue_eq_some_iff sound valid pos]
            exact .inl ((mem_survivors_iff sound.ordered valid).mpr ⟨merged, dropped⟩)

end Moved

/-- A compaction that drops no table and keeps the newer versions does not change what
the store maps a key to. -/
theorem Moved.view (moved : store.Moved pops level store') (sound : store.Sound)
    (valid : Pops pops) (pos : 1 ≤ level) : store'.view = store.view := by
  funext key
  have compacted := moved.compacted
  have sound' := sound.compacted valid pos compacted
  obtain ⟨after, count⟩ : ∃ after, max store.depth (level + 1) = level - 1 + 2 + after :=
    ⟨max store.depth (level + 1) - (level + 1), by omega⟩
  have next : level - 1 + 1 = level := by omega
  rw [KVStore.view, KVStore.view, sound.lookup_eq key (Nat.le_max_left _ (level + 1)),
    sound'.lookup_eq key (Nat.le_of_eq compacted.depth), compacted.memTable, count,
    findSome?_range_split, findSome?_range_split, next]
  have first : (List.range (level - 1)).findSome? (store'.levelValue key) =
      (List.range (level - 1)).findSome? (store.levelValue key) := by
    apply findSome?_congr
    intro other mem
    have less := List.mem_range.mp mem
    rw [levelValue, compacted.others other (by omega) (by omega)]
    rfl
  have last : (List.range after).findSome? (fun i => store'.levelValue key (level - 1 + 2 + i)) =
      (List.range after).findSome? fun i => store.levelValue key (level - 1 + 2 + i) := by
    apply findSome?_congr
    intro other _
    rw [levelValue, compacted.others _ (by omega) (by omega)]
    rfl
  rw [first, last]
  rcases moved.levels sound valid pos key with same | ⟨marker, dropped, deepest⟩
  · rw [same]
  · rw [marker, dropped]
    have empty : (List.range after).findSome?
        (fun i => store.levelValue key (level - 1 + 2 + i)) = none := by
      rw [List.findSome?_eq_none_iff]
      intro i _
      exact sound.levelValue_of_ge key (by omega)
    rw [empty]
    cases SortedMap.find key store.memTable.nodes with
    | some value => rfl
    | none =>
        cases (List.range (level - 1)).findSome? (store.levelValue key) with
        | some value => rfl
        | none => simp [Option.filter]

/-! ## Flushes and writes -/

/-- Only the entries matter. -/
theorem view_of_eq (nodes : store'.memTable.nodes = store.memTable.nodes)
    (depth : store'.depth = store.depth) (tables : store'.ssTable = store.ssTable) :
    store'.view = store.view := by
  funext key
  rw [view, view, lookup, lookup, KVStore.tables, KVStore.tables, nodes, depth, tables]

/-- The table of a flush is the last one of level 0. -/
theorem rank_lt_flushTable (descending : store.Descending) {list : SkipList}
    (stamp : list.timeStamp = store.memTable.timeStamp) (few : list.timeStamp < 2 ^ 32) :
    ∀ other ∈ store.ssTable 0, other.rank < (flushTable list (store.levelNum 0 + 1)).rank := by
  intro other mem
  refine Prod.Lex.toLex_lt_toLex.mpr (.inl ?_)
  change other.getTimestamp < list.timeStamp % 2 ^ 32
  rw [Nat.mod_eq_of_lt few, stamp]
  exact descending.recent 0 other mem

theorem view_flush (sound : store.Sound) (descending : store.Descending) {list : SkipList}
    (nodes : list.nodes = store.memTable.nodes)
    (stamp : list.timeStamp = store.memTable.timeStamp) (few : list.timeStamp < 2 ^ 32)
    {flushed : KVStore} (listSound : list.Sound) (step : store.Flushed list flushed) :
    flushed.view = store.view := by
  funext key
  have flushedSound := sound.flushed listSound step
  have greatest := rank_lt_flushTable descending stamp few
  have top : flushed.levelValue key 0 =
      (SortedMap.find key store.memTable.nodes).or (store.levelValue key 0) := by
    rw [levelValue, step.level0, KeyedSet.emplace_of_greatest greatest, List.reverse_append,
      firstValue_append, ← nodes]
    congr 1
    exact List.findSome?_singleton
  have below : ∀ i, flushed.levelValue key (i + 1) = store.levelValue key (i + 1) := by
    intro i
    rw [levelValue, step.others _ (Nat.succ_ne_zero i)]
    rfl
  have empty : SortedMap.find key flushed.memTable.nodes = none := by
    rw [step.memTable]
    rfl
  obtain ⟨count, depth⟩ : ∃ count, store.depth = count + 1 :=
    ⟨store.depth - 1, by have pos := sound.depth; omega⟩
  have depth' : flushed.depth = count + 1 := step.depth.trans depth
  rw [view, view, sound.lookup_eq key (Nat.le_of_eq depth),
    flushedSound.lookup_eq key (Nat.le_of_eq depth'), findSome?_range_succ,
    findSome?_range_succ, top, empty, Option.none_or, Option.or_assoc]
  simp only [below]

/-- A write maps the key to the value, and to nothing if the value is the marker. -/
@[simp]
theorem view_insert (store : KVStore) (key : Nat) (s : Str) :
    (store.insert key s).view =
      Function.update store.view key ((some s).filter (· ≠ .del)) := by
  funext other
  have assigned : (store.insert key s).lookup other =
      if other = key then some s else store.lookup other := by
    change (SortedMap.find other (SortedMap.assign key s store.memTable.nodes)).or
      (firstValue other store.tables) = _
    rw [SortedMap.find_assign]
    by_cases same : other = key
    · rw [if_pos same.symm, if_pos same, Option.some_or]
    · rw [if_neg fun equal => same equal.symm, if_neg same]
      rfl
  rw [view, assigned]
  by_cases same : other = key
  · rw [if_pos same, same, Function.update_self]
  · rw [if_neg same, Function.update_of_ne same]
    rfl

end KVStore

end ZnsLsm.Store
