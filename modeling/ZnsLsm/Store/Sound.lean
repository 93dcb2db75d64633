import ZnsLsm.Store.Stages

/-!
# Well-formed states

In every state of a run the memtable and the tables are sorted, the range of a table
contains its keys, its index and its filter are those of its entries, and the sets of
tables are ordered.
-/

namespace ZnsLsm.Store

open ZnsLsm.Outcome ZnsLsm.Transition
open ZnsLsm.Pool (sstableSize)

/-! ## The memtable -/

namespace SkipList

structure Sound (list : SkipList) : Prop where
  sorted : SortedMap.Sorted list.nodes
  size : list.size = list.nodes.length
  range : ∀ entry ∈ list.nodes, list.minKey ≤ entry.1 ∧ entry.1 ≤ list.maxKey

variable {list : SkipList}

theorem sound_new : new.Sound where
  sorted := List.Pairwise.nil
  size := rfl
  range entry mem := by cases mem

theorem Sound.put (sound : list.Sound) (key : Nat) (value : Str) :
    (list.put key value).Sound where
  sorted := sound.sorted.assign key value
  size := by
    simp only [SkipList.put]
    rw [SortedMap.length_assign key value sound.sorted, sound.size]
  range entry mem := by
    simp only [SkipList.put]
    rcases SortedMap.mem_assign mem with rfl | old
    · constructor
      · split
        · exact Nat.le_refl _
        · omega
      · split
        · exact Nat.le_refl _
        · omega
    · obtain ⟨least, greatest⟩ := sound.range entry old
      constructor
      · split
        · omega
        · exact least
      · split
        · omega
        · exact greatest

/-- The size of the memtable does not matter. -/
theorem Sound.memory (sound : list.Sound) (memory : Nat) :
    Sound { list with memory := memory } where
  sorted := sound.sorted
  size := sound.size
  range := sound.range

@[simp]
theorem Sound.get (sound : list.Sound) (key : Nat) :
    list.get key = (SortedMap.find key list.nodes).getD .empty := by
  rw [SkipList.get]
  split
  · rename_i zero
    rw [sound.size] at zero
    rw [List.length_eq_zero_iff.mp zero]
    rfl
  · rfl

/-- The memtable after a flush. -/
def restarted (list : SkipList) : SkipList where
  size := 0
  nodes := []
  timeStamp := list.timeStamp + 1
  minKey := int64Max
  maxKey := int64Min
  memory := 10272

theorem sound_restarted (list : SkipList) : list.restarted.Sound where
  sorted := List.Pairwise.nil
  size := rfl
  range entry mem := by cases mem

end SkipList

/-! ## Tables -/

namespace Table

/-- A well-formed table of a level. -/
structure Sound (level : Nat) (table : Table) : Prop where
  level : table.metaInfo.level = level
  sorted : SortedMap.Sorted table.keyValue
  nonempty : table.keyValue ≠ []
  range : ∀ entry ∈ table.keyValue, table.getMinKey ≤ entry.1 ∧ entry.1 ≤ table.getMaxKey
  offset : table.offset.map Prod.fst = table.keyValue.map Prod.fst
  bloomFilter : table.bloomFilter = bloom table.keyValue

@[simp]
theorem map_fst_buildIndex (area : Nat) (length : Str → Nat) (curlength : Nat)
    (entries : List (Nat × Str)) :
    (buildIndex area length curlength entries).1.map Prod.fst = entries.map Prod.fst := by
  induction entries generalizing curlength with
  | nil => rfl
  | cons entry rest ih =>
      simp only [buildIndex, List.map_cons, ih]

theorem sound_build {level order timeStamp pairNum minKey maxKey : Nat} {length : Str → Nat}
    {entries : List (Nat × Str)} (sorted : SortedMap.Sorted entries) (nonempty : entries ≠ [])
    (range : ∀ entry ∈ entries, minKey ≤ entry.1 ∧ entry.1 ≤ maxKey) :
    (build level order timeStamp pairNum minKey maxKey length entries).Sound level where
  level := rfl
  sorted := sorted
  nonempty := nonempty
  range := range
  offset := map_fst_buildIndex ..
  bloomFilter := rfl

end Table

namespace KVStore

/-- The keys of a sorted file lie between its first and its last one. -/
theorem range_of_sorted {file : List (Nat × Str)} (sorted : SortedMap.Sorted file)
    {entry : Nat × Str} (mem : entry ∈ file) :
    (file.head?.map Prod.fst).getD 0 ≤ entry.1 ∧
      entry.1 ≤ (file.getLast?.map Prod.fst).getD 0 := by
  obtain ⟨first, rest, rfl⟩ := List.exists_cons_of_ne_nil (List.ne_nil_of_mem mem)
  constructor
  · rcases List.mem_cons.mp mem with rfl | later
    · exact Nat.le_refl _
    · exact (sorted.head_lt later).le
  · rw [List.getLast?_eq_some_getLast (List.cons_ne_nil _ _)]
    change entry.1 ≤ ((first :: rest).getLast _).1
    have split := List.dropLast_append_getLast (List.cons_ne_nil first rest)
    rw [SortedMap.Sorted, ← split, List.pairwise_append] at sorted
    rw [← split] at mem
    rcases List.mem_append.mp mem with before | last
    · exact (sorted.2.2 entry before _ (List.mem_singleton.mpr rfl)).le
    · rw [List.mem_singleton.mp last]

theorem sound_fileTable {level timestamp order : Nat} {file : List (Nat × Str)}
    (sorted : SortedMap.Sorted file) (nonempty : file ≠ []) :
    (fileTable level timestamp order file).Sound level :=
  Table.sound_build sorted nonempty fun _ mem => range_of_sorted sorted mem

/-- The files of a cut are parts of the entries. -/
theorem sorted_of_mem_outFiles {pops : List Table → List Table} {store : KVStore} {level : Nat}
    (ordered : store.Ordered) (valid : Pops pops) {file : List (Nat × Str)}
    (mem : file ∈ store.outFiles pops level) : SortedMap.Sorted file := by
  have sorted : SortedMap.Sorted (store.survivors pops level) :=
    List.Pairwise.filter _ (SortedMap.sorted_merge (ordered.merging valid level))
  have flat := flatten_cut initialSize [] (store.survivors pops level)
  rw [SortedMap.Sorted, ← List.nil_append (store.survivors pops level), ← flat] at sorted
  exact List.Pairwise.sublist (List.sublist_flatten_of_mem mem) sorted

/-! ## The flush -/

/-- The table of a memtable. -/
def flushTable (memTable : SkipList) (order : Nat) : Table :=
  Table.build 0 order memTable.timeStamp memTable.size memTable.minKey memTable.maxKey
    (fun _ => Str.empty.size + 1) memTable.nodes

/-- What changes when a flush returns. -/
structure Flushed (list : SkipList) (store flushed : KVStore) : Prop where
  nonempty : list.nodes ≠ []
  memTable : flushed.memTable = list.restarted
  depth : flushed.depth = store.depth
  levelNum : flushed.levelNum = Function.update store.levelNum 0 (store.levelNum 0 + 1)
  level0 : flushed.ssTable 0 =
    KeyedSet.emplace Table.rank (flushTable list (store.levelNum 0 + 1)) (store.ssTable 0)
  others : ∀ level ≠ 0, flushed.ssTable level = store.ssTable level
  memoryPool : flushed.memoryPool =
    .writeTable 0 (store.levelNum 0 + 1) :: store.memoryPool

/-- A table was there before, or it is the table of the memtable. -/
theorem Flushed.mem_cases {list : SkipList} {store flushed : KVStore}
    (step : store.Flushed list flushed) {level : Nat} {table : Table}
    (mem : table ∈ flushed.ssTable level) :
    table ∈ store.ssTable level ∨ level = 0 ∧ table = flushTable list (store.levelNum 0 + 1) := by
  by_cases zero : level = 0
  · subst zero
    rw [step.level0] at mem
    rcases KeyedSet.mem_of_mem_emplace mem with new | old
    · exact .inr ⟨rfl, new⟩
    · exact .inl old
  · rw [step.others level zero] at mem
    exact .inl mem

/-- The flush fails only on an empty memtable. -/
theorem flush_ends (store : KVStore) (memTable : SkipList) :
    Ends (store.Flushed memTable) (fun fault => memTable.nodes = [] ∧ fault = .nullNode)
      (store.flush memTable) := by
  rw [flush, Table.ofMemTable, SkipList.getFirstNode]
  cases nodes : memTable.nodes with
  | nil => exact ⟨rfl, rfl⟩
  | cons entry rest =>
      simp only [Option.bind_eq_bind, Option.bind_some, Option.pure_def, SkipList.getTimeStamp,
        SkipList.clear, nodes, ends_pure]
      constructor
      · rw [nodes]
        exact List.cons_ne_nil _ _
      · rfl
      · rfl
      · rfl
      · rw [flushTable, nodes]
        change Function.update store.ssTable 0 _ 0 = _
        rw [Function.update_self]
        rfl
      · intro level ne
        exact Function.update_of_ne ne ..
      · rfl

/-! ## The invariant -/

structure Sound (store : KVStore) : Prop where
  memTable : store.memTable.Sound
  sets : ∀ level, KeyedSet.Sorted Table.rank (store.ssTable level)
  tables : ∀ level, ∀ table ∈ store.ssTable level, table.Sound level
  bare : ∀ level, store.depth ≤ level → store.ssTable level = [] ∧ store.levelNum level = 0
  depth : 1 ≤ store.depth

variable {store store' : KVStore} {stage : Stage}

theorem Sound.ordered (sound : store.Sound) : store.Ordered where
  sets := sound.sets
  tables level table mem := (sound.tables level table mem).sorted
  bare := sound.bare

/-- The memtable and the requests may change. -/
theorem Sound.frame (sound : store.Sound) {memTable : SkipList} (memSound : memTable.Sound)
    (memoryPool : Requests) :
    Sound { store with memTable := memTable, memoryPool := memoryPool } where
  memTable := memSound
  sets := sound.sets
  tables := sound.tables
  bare := sound.bare
  depth := sound.depth

theorem sound_new : new.Sound where
  memTable := SkipList.sound_new
  sets level := List.Pairwise.nil
  tables level table mem := by cases mem
  bare level le := ⟨rfl, rfl⟩
  depth := Nat.le_refl _

theorem Sound.flushed (sound : store.Sound) {memTable : SkipList} (memSound : memTable.Sound)
    (flushed : store.Flushed memTable store') : store'.Sound where
  memTable := flushed.memTable ▸ SkipList.sound_restarted memTable
  sets level := by
    by_cases zero : level = 0
    · subst zero
      rw [flushed.level0]
      exact (sound.sets 0).emplace _
    · rw [flushed.others level zero]
      exact sound.sets level
  tables level table mem := by
    rcases flushed.mem_cases mem with old | ⟨rfl, rfl⟩
    · exact sound.tables level table old
    · exact Table.sound_build memSound.sorted flushed.nonempty memSound.range
  bare level le := by
    have pos := sound.depth
    rw [flushed.depth] at le
    have ne : level ≠ 0 := by omega
    rw [flushed.others level ne, flushed.levelNum, Function.update_of_ne ne]
    exact sound.bare level le
  depth := flushed.depth ▸ sound.depth

theorem Sound.outTables {pops : List Table → List Table} {level : Nat} (sound : store.Sound)
    (valid : Pops pops) (nonempty : [] ∉ store.outFiles pops level) {table : Table}
    (mem : table ∈ store.outTables pops level) : table.Sound level := by
  obtain ⟨number, file, -, -, member, rfl⟩ := mem_fileTables mem
  apply sound_fileTable (sorted_of_mem_outFiles sound.ordered valid member)
  rintro rfl
  exact nonempty member

/-- What survives a merge was stored in a merged table. -/
theorem exists_of_mem_survivors {pops : List Table → List Table} {level : Nat}
    (sound : store.Sound) (valid : Pops pops)
    {entry : Nat × Str} (mem : entry ∈ store.survivors pops level) :
    ∃ table, (table ∈ store.picked level ∨ table ∈ store.overlapped level) ∧
      entry ∈ table.keyValue := by
  have sorted := sound.ordered.merging valid level
  have merged := (SortedMap.sorted_merge sorted).find_of_mem (List.mem_of_mem_filter mem)
  rw [SortedMap.find_merge sorted] at merged
  obtain ⟨map, member, held⟩ := SortedMap.mem_of_newest merged
  obtain ⟨table, tableMem, rfl⟩ := List.mem_map.mp member
  exact ⟨table, (mem_merging valid).mp tableMem, held⟩

theorem mem_survivors_of_file {pops : List Table → List Table} {level : Nat}
    {file : List (Nat × Str)} (member : file ∈ store.outFiles pops level)
    {entry : Nat × Str} (mem : entry ∈ file) : entry ∈ store.survivors pops level := by
  have flat := flatten_cut initialSize [] (store.survivors pops level)
  rw [List.nil_append] at flat
  rw [← flat]
  exact List.mem_flatten_of_mem member mem

/-- The tables of the target level after a compaction are new or were not merged. -/
theorem Compacted.mem_target {pops : List Table → List Table} {level : Nat}
    (compacted : store.Compacted pops level store') {table : Table}
    (mem : table ∈ store'.ssTable level) :
    table ∈ store.outTables pops level ∨
      table ∈ store.ssTable level ∧ table ∉ store.overlapped level := by
  rw [compacted.target] at mem
  obtain ⟨inserted, kept⟩ := KeyedSet.mem_eraseAll.mp mem
  rcases KeyedSet.mem_of_mem_emplaceAll inserted with new | old
  · exact .inl new
  · exact .inr ⟨old, fun merged => kept table merged rfl⟩

/-- The other levels get no tables. -/
theorem Compacted.mem_of_ne {pops : List Table → List Table} {level other : Nat}
    (compacted : store.Compacted pops level store') (ne : other ≠ level) {table : Table}
    (mem : table ∈ store'.ssTable other) : table ∈ store.ssTable other := by
  by_cases above : other = level - 1
  · subst above
    rw [compacted.above] at mem
    exact List.mem_of_mem_drop mem
  · rwa [compacted.others other above ne] at mem

/-- A table was there before, or the compaction has written it. -/
theorem Compacted.mem_cases {pops : List Table → List Table} {level other : Nat}
    (compacted : store.Compacted pops level store') {table : Table}
    (mem : table ∈ store'.ssTable other) :
    table ∈ store.ssTable other ∨ other = level ∧ table ∈ store.outTables pops level := by
  by_cases here : other = level
  · subst here
    rcases compacted.mem_target mem with new | ⟨old, -⟩
    · exact .inr ⟨rfl, new⟩
    · exact .inl old
  · exact .inl (compacted.mem_of_ne here mem)

theorem Sound.compacted {pops : List Table → List Table} {level : Nat} (sound : store.Sound)
    (valid : Pops pops) (pos : 1 ≤ level) (compacted : store.Compacted pops level store') :
    store'.Sound where
  memTable := compacted.memTable ▸ sound.memTable
  sets other := by
    by_cases here : other = level
    · subst here
      rw [compacted.target]
      exact ((sound.sets other).emplaceAll _).eraseAll _
    · by_cases above : other = level - 1
      · subst above
        rw [compacted.above]
        exact List.Pairwise.sublist (List.drop_sublist ..) (sound.sets _)
      · rw [compacted.others other above here]
        exact sound.sets other
  tables other table mem := by
    rcases compacted.mem_cases mem with old | ⟨rfl, new⟩
    · exact sound.tables other table old
    · exact sound.outTables valid compacted.nonempty new
  bare other le := by
    rw [compacted.depth] at le
    rw [compacted.others other (by omega) (by omega), compacted.levelNum,
      Function.update_of_ne (by omega)]
    exact sound.bare other (by omega)
  depth := by
    rw [compacted.depth]
    have pos := sound.depth
    omega

/-! ## The requests of a lookup -/

/-- The requests after a lookup: those before and reads of tables of the store. -/
def Asks (store : KVStore) (memoryPool : Requests) : Prop :=
  ∃ asked : Requests, memoryPool = asked ++ store.memoryPool ∧
    ∀ op ∈ asked, ∃ level, ∃ table ∈ store.ssTable level, ∃ start length,
      op = .getValue table.metaInfo.level table.metaInfo.order start length

theorem getValue_asks (table : Table) (pool : Requests) (key : Nat) :
    (table.getValue pool key).2 = pool ∨ ∃ start length, (table.getValue pool key).2 =
      .getValue table.metaInfo.level table.metaInfo.order start length :: pool := by
  rw [Table.getValue]
  split
  · exact .inl rfl
  · split
    · exact .inl rfl
    · split
      · exact .inl rfl
      · exact .inr ⟨_, _, rfl⟩

theorem scan_asks (key : Nat) (tables : List Table) (pool : Requests) :
    ∃ asked : Requests, (scan key tables pool).2 = asked ++ pool ∧
      ∀ op ∈ asked, ∃ table ∈ tables, ∃ start length,
        op = .getValue table.metaInfo.level table.metaInfo.order start length := by
  induction tables generalizing pool with
  | nil => exact ⟨[], rfl, fun _ mem => absurd mem List.not_mem_nil⟩
  | cons table tables ih =>
      obtain ⟨first, firstEq, firstAsked⟩ : ∃ first : Requests,
          (table.getValue pool key).2 = first ++ pool ∧ ∀ op ∈ first, ∃ start length,
            op = .getValue table.metaInfo.level table.metaInfo.order start length := by
        rcases getValue_asks table pool key with same | ⟨start, length, asks⟩
        · exact ⟨[], same, fun _ mem => absurd mem List.not_mem_nil⟩
        · exact ⟨[_], asks, fun op mem => ⟨start, length, List.mem_singleton.mp mem⟩⟩
      rw [scan]
      dsimp only
      split
      · refine ⟨first, firstEq, fun op mem => ?_⟩
        exact ⟨table, List.mem_cons_self, firstAsked op mem⟩
      · obtain ⟨later, laterEq, laterAsked⟩ := ih (table.getValue pool key).2
        rw [firstEq, ← List.append_assoc] at laterEq
        refine ⟨later ++ first, by rw [firstEq]; exact laterEq, fun op mem => ?_⟩
        rcases List.mem_append.mp mem with inLater | inFirst
        · obtain ⟨other, member, asks⟩ := laterAsked op inLater
          exact ⟨other, List.mem_cons_of_mem _ member, asks⟩
        · exact ⟨table, List.mem_cons_self, firstAsked op inFirst⟩

/-- A lookup changes nothing but the requests. -/
theorem get_eq (store : KVStore) (key : Nat) :
    ∃ memoryPool, (store.get key).2 = { store with memoryPool := memoryPool } ∧
      store.Asks memoryPool := by
  have silent : store.Asks store.memoryPool :=
    ⟨[], rfl, fun _ mem => absurd mem List.not_mem_nil⟩
  rw [get]
  dsimp only
  split
  · exact ⟨store.memoryPool, rfl, silent⟩
  · obtain ⟨asked, same, tables⟩ := scan_asks key store.tables store.memoryPool
    refine ⟨_, rfl, asked, same, fun op mem => ?_⟩
    obtain ⟨table, member, asks⟩ := tables op mem
    obtain ⟨level, -, held⟩ := List.mem_flatMap.mp member
    exact ⟨level, table, List.mem_reverse.mp held, asks⟩

/-- The stages keep the levels in range. -/
structure StageSound (stage : Stage) (store : KVStore) : Prop where
  sound : store.Sound
  level : ∀ {level key : Nat} {s : Str}, stage = .merging level key s →
    1 ≤ level ∧ level ≤ store.depth

theorem StageSound.step {stage' : Stage} {action : Action} (known : StageSound stage store)
    (step : StageStep (stage, store) action (stage', store')) : StageSound stage' store' := by
  obtain ⟨sound, level⟩ := known
  cases step with
  | write small =>
      exact ⟨sound.frame ((sound.memTable.memory _).put _ _) _, fun same => by cases same⟩
  | flush large flushed =>
      have flushedSound := sound.flushed (sound.memTable.memory _)
        ((flush_ends _ _).of_ok flushed)
      exact ⟨flushedSound.frame (flushedSound.memTable.memory _) _, fun same => by cases same⟩
  | skip room => exact ⟨sound, fun same => by cases same⟩
  | descend full =>
      refine ⟨sound, fun same => ?_⟩
      cases same
      exact ⟨Nat.le_refl _, sound.depth⟩
  | merge valid overfull ok =>
      obtain ⟨pos, le⟩ := level rfl
      have compacted := (sound.ordered.compactLevel valid pos le).of_ok ok
      refine ⟨sound.compacted valid pos compacted, fun same => ?_⟩
      cases same
      refine ⟨by omega, ?_⟩
      rw [compacted.depth]
      exact Nat.le_max_right ..
  | stop notOverfull =>
      refine ⟨⟨sound.memTable, sound.sets, sound.tables, ?_, sound.depth⟩,
        fun same => by cases same⟩
      intro level le
      refine ⟨(sound.bare level le).1, ?_⟩
      change Function.update _ 0 0 level = 0
      by_cases zero : level = 0
      · rw [zero, Function.update_self]
      · rw [Function.update_of_ne zero]
        exact (sound.bare level le).2
  | insert =>
      exact ⟨sound.frame (sound.memTable.put _ _) _, fun same => by cases same⟩
  | get =>
      rename_i key
      obtain ⟨memoryPool, same, -⟩ := store.get_eq key
      rw [same]
      exact ⟨sound.frame sound.memTable _, fun same => by cases same⟩

theorem stageSound_of_stageRuns {guard : Guard} (reached : StageRuns guard stage store) :
    StageSound stage store := by
  refine System.invariant_of_reachable (P := fun state => StageSound state.1 state.2) ?_ ?_ reached
  · rintro _ rfl
    exact ⟨sound_new, fun same => by cases same⟩
  · rintro ⟨stage, store⟩ action ⟨stage', store'⟩ known ⟨-, step⟩
    exact known.step step

theorem sound_of_runs {guard : Guard} (reachable : Runs guard store) : store.Sound :=
  (stageSound_of_stageRuns (stages_of_runs reachable)).sound

/-! ## The rule for invariants -/

/-- An invariant of the stages of runs that meet a condition, one field for each kind of
step.  `K` is known of the stages already. -/
structure StageInvariant (guard : Guard) (K P : Stage → KVStore → Prop) : Prop where
  new : P .idle KVStore.new
  write : ∀ {store : KVStore} {key : Nat} {s : Str}, store.Sound → K .idle store →
    P .idle store → guard.puts store key s → (store.charged key s).memory ≤ sstableSize →
      P .idle (insert { store with memTable := store.charged key s } key s)
  flush : ∀ {store flushed : KVStore} {key : Nat} {s : Str}, store.Sound → K .idle store →
    P .idle store → guard.puts store key s → sstableSize < (store.charged key s).memory →
      store.Flushed (store.charged key s) flushed →
        P (.flushed key s) (flushed.recharge (store.memTable.get key) s)
  skip : ∀ {store : KVStore} {key : Nat} {s : Str}, store.Sound → K (.flushed key s) store →
    P (.flushed key s) store → store.levelNum 0 ≤ level0 → P (.settled key s) store
  descend : ∀ {store : KVStore} {key : Nat} {s : Str}, store.Sound →
    K (.flushed key s) store → P (.flushed key s) store → level0 < store.levelNum 0 →
      P (.merging 1 key s) store
  merge : ∀ {pops : List Table → List Table} {store store' : KVStore} {level key : Nat}
    {s : Str}, store.Sound → K (.merging level key s) store → P (.merging level key s) store →
      1 ≤ level → guard.merges ⟨pops, store, level⟩ → Pops pops → store.Overfull level →
        store.Compacted pops level store' → P (.merging (level + 1) key s) store'
  stop : ∀ {store : KVStore} {level key : Nat} {s : Str}, store.Sound →
    K (.merging level key s) store → P (.merging level key s) store →
      ¬store.Overfull level → P (.settled key s) store.stop
  insert : ∀ {store : KVStore} {key : Nat} {s : Str}, store.Sound → K (.settled key s) store →
    P (.settled key s) store → P .idle (store.insert key s)
  get : ∀ {store : KVStore} {memoryPool : Requests}, K .idle store → P .idle store →
    store.Asks memoryPool → P .idle { store with memoryPool := memoryPool }

theorem StageInvariant.holds {guard : Guard} {K P : Stage → KVStore → Prop}
    (invariant : StageInvariant guard K P)
    (known : ∀ {stage store}, StageRuns guard stage store → K stage store)
    (reached : StageRuns guard stage store) : P stage store := by
  refine System.invariant_of_reachable_with
    (K := fun state => StageSound state.1 state.2 ∧ K state.1 state.2)
    (P := fun state => P state.1 state.2)
    (fun _ before => ⟨stageSound_of_stageRuns before, known before⟩) ?_ ?_ reached
  · rintro _ rfl
    exact invariant.new
  · rintro ⟨stage, store⟩ action ⟨stage', store'⟩ ⟨⟨sound, range⟩, known⟩ holds ⟨allowed, step⟩
    cases step with
    | write small => exact invariant.write sound known holds allowed small
    | flush large ok =>
        exact invariant.flush sound known holds allowed large ((flush_ends _ _).of_ok ok)
    | skip room => exact invariant.skip sound known holds room
    | descend full => exact invariant.descend sound known holds full
    | merge valid overfull ok =>
        obtain ⟨pos, le⟩ := range rfl
        exact invariant.merge sound known holds pos allowed valid overfull
          ((sound.ordered.compactLevel valid pos le).of_ok ok)
    | stop notOverfull => exact invariant.stop sound known holds notOverfull
    | insert => exact invariant.insert sound known holds
    | get =>
        rename_i key
        obtain ⟨memoryPool, same, asks⟩ := store.get_eq key
        simp only [same]
        exact invariant.get known holds asks

/-- Nothing is known. -/
def Anything (_ : Stage) (_ : KVStore) : Prop :=
  True

end KVStore

end ZnsLsm.Store
