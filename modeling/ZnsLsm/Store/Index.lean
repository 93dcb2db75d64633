import ZnsLsm.Pool.Ledger
import ZnsLsm.Store.Freshness

/-!
# The tables of the store and the tables of the manager

Every table that a constructor has written must be in a set, and every table that leaves
its set must be deleted.  The requests of the store are in order, and by the ledger of
its requests the manager stores exactly the tables of the sets, as long as no set drops
a table.
-/

namespace ZnsLsm.Store

open ZnsLsm.Outcome ZnsLsm.Transition
open ZnsLsm.Pool (Op TableId Ledger.Clean Ledger.liveIn Ledger.pendingIn Ledger.levelsIn
  Ledger.Reads)

namespace KVStore

variable {pops : List Table → List Table} {store store' : KVStore} {level : Nat}

/-! ## The requests of a compaction -/

theorem writeRequests_eq (level order count : Nat) :
    writeRequests level order count =
      (List.range' (order + 1) count).reverse.map (Op.writeTable level) := by
  induction count generalizing order with
  | zero => rfl
  | succ count ih =>
      rw [writeRequests, ih, List.range'_succ, List.reverse_cons, List.map_append]
      rfl

theorem clearRequests_eq (tables : List Table) :
    clearRequests tables =
      (tables.reverse.map Table.id).map fun t => Op.deleteTable t.1 t.2 := by
  induction tables with
  | nil => rfl
  | cons table tables ih =>
      rw [clearRequests, ih, List.reverse_cons, List.map_append, List.map_append]
      rfl

@[simp]
theorem mem_readRequests {tables : List Table} {op : Op} :
    op ∈ readRequests tables ↔ ∃ table ∈ tables, op = .readTable table.metaInfo.level
      table.metaInfo.order (Table.dataArea table.metaInfo.pairNum) table.metaInfo.dataLength := by
  induction tables with
  | nil => simp [readRequests]
  | cons table tables ih =>
      rw [readRequests, List.mem_append, ih, Table.traverse, List.mem_singleton]
      simp [or_comm]

theorem mem_numbers {order count num : Nat} :
    num ∈ (List.range' (order + 1) count).reverse ↔ order < num ∧ num ≤ order + count := by
  rw [List.mem_reverse, List.mem_range'_1]
  omega

theorem map_id_fileTables (level timestamp : Nat) {order : Nat}
    {files : List (List (Nat × Str))} (small : order + files.length < 2 ^ 32) :
    (fileTables level timestamp order files).map Table.id =
      (List.range' (order + 1) files.length).map fun num => (level, num) := by
  induction files generalizing order with
  | nil => rfl
  | cons file files ih =>
      rw [List.length_cons] at small
      have number : (order + 1) % 2 ^ 32 = order + 1 := Nat.mod_eq_of_lt (by omega)
      rw [fileTables, List.map_cons, ih (by omega), List.length_cons, List.range'_succ,
        List.map_cons]
      congr 1
      exact congrArg (Prod.mk level) number

/-! ## The invariant -/

/-- The pairs of level and order of the tables in the sets. -/
def ids (store : KVStore) : Set TableId :=
  {t | ∃ level, ∃ table ∈ store.ssTable level, table.id = t}

structure Indexed (store : KVStore) : Prop where
  clean : Ledger.Clean store.memoryPool
  live : ∀ t, t ∈ Ledger.liveIn store.memoryPool ↔ t ∈ store.ids
  numbered : ∀ level, ∀ table ∈ store.ssTable level,
    table.metaInfo.order ≤ store.levelNum level
  distinct : ∀ level, ∀ first ∈ store.ssTable level, ∀ second ∈ store.ssTable level,
    first.id = second.id → first = second

theorem indexed_new : new.Indexed where
  clean := trivial
  live t := iff_of_false (Set.notMem_empty t) (by
    rintro ⟨level, table, mem, -⟩
    cases mem)
  numbered level table mem := by cases mem
  distinct level first mem := by cases mem

/-- Only the requests, the sets and the counts matter. -/
theorem Indexed.of_eq (indexed : store.Indexed) (pool : store'.memoryPool = store.memoryPool)
    (tables : store'.ssTable = store.ssTable) (numbers : store'.levelNum = store.levelNum) :
    store'.Indexed where
  clean := pool ▸ indexed.clean
  live t := by
    rw [pool, ids, tables]
    exact indexed.live t
  numbered := by
    rw [tables, numbers]
    exact indexed.numbered
  distinct := by
    rw [tables]
    exact indexed.distinct

theorem Sound.id_fst (sound : store.Sound) {table : Table} (mem : table ∈ store.ssTable level) :
    table.id.1 = level :=
  (sound.tables level table mem).level

/-- A table is stored under its own level only. -/
theorem Sound.mem_ids_iff (sound : store.Sound) (level num : Nat) :
    (level, num) ∈ store.ids ↔
      ∃ table ∈ store.ssTable level, table.metaInfo.order = num := by
  constructor
  · rintro ⟨other, table, mem, same⟩
    obtain ⟨levelEq, orderEq⟩ := Prod.mk.inj same
    have here : other = level := (sound.id_fst mem).symm.trans levelEq
    exact ⟨table, here ▸ mem, orderEq⟩
  · rintro ⟨table, mem, rfl⟩
    exact ⟨level, table, mem, Prod.ext (sound.id_fst mem) rfl⟩

theorem Indexed.mem_live (indexed : store.Indexed) {table : Table}
    (mem : table ∈ store.ssTable level) : table.id ∈ Ledger.liveIn store.memoryPool :=
  (indexed.live _).mpr ⟨level, table, mem, rfl⟩

/-! ## Lookups and flushes -/

theorem Indexed.asked (indexed : store.Indexed) {memoryPool : Requests}
    (asks : store.Asks memoryPool) : Indexed { store with memoryPool := memoryPool } := by
  obtain ⟨asked, rfl, tables⟩ := asks
  have reads : ∀ op ∈ asked, ∃ t ∈ Ledger.liveIn store.memoryPool, Ledger.Reads t op := by
    intro op mem
    obtain ⟨level, table, member, start, length, rfl⟩ := tables op mem
    exact ⟨table.id, indexed.mem_live member, rfl⟩
  obtain ⟨clean, live, -, -⟩ := Pool.Ledger.reads_append indexed.clean reads
  refine ⟨clean, fun t => ?_, indexed.numbered, indexed.distinct⟩
  rw [live]
  exact indexed.live t

theorem Indexed.flushed (indexed : store.Indexed) (sound : store.Sound) {list : SkipList}
    (small : store.levelNum 0 + 1 < 2 ^ 32)
    (fresh : KeyedSet.Fresh Table.rank (flushTable list (store.levelNum 0 + 1))
      (store.ssTable 0)) (flushed : store.Flushed list store') : store'.Indexed := by
  have newId : (flushTable list (store.levelNum 0 + 1)).id = (0, store.levelNum 0 + 1) :=
    congrArg (Prod.mk 0) (Nat.mod_eq_of_lt small)
  have absent : (0, store.levelNum 0 + 1) ∉ store.ids := by
    rw [sound.mem_ids_iff]
    rintro ⟨table, mem, order⟩
    have le := indexed.numbered 0 table mem
    omega
  have mem_zero : ∀ {table}, table ∈ store'.ssTable 0 ↔
      table = flushTable list (store.levelNum 0 + 1) ∨ table ∈ store.ssTable 0 := by
    intro table
    rw [flushed.level0]
    exact fresh.mem_emplace_iff
  constructor
  · rw [flushed.memoryPool]
    refine ⟨⟨fun live => absent ((indexed.live _).mp live), Nat.zero_le _⟩, indexed.clean⟩
  · intro t
    rw [flushed.memoryPool, Ledger.liveIn, Set.mem_insert_iff, indexed.live]
    constructor
    · rintro (rfl | ⟨level, table, mem, same⟩)
      · exact ⟨0, _, mem_zero.mpr (.inl rfl), newId⟩
      · refine ⟨level, table, ?_, same⟩
        by_cases zero : level = 0
        · subst zero
          exact mem_zero.mpr (.inr mem)
        · rwa [flushed.others level zero]
    · rintro ⟨level, table, mem, rfl⟩
      by_cases zero : level = 0
      · subst zero
        rcases mem_zero.mp mem with rfl | old
        · exact .inl newId
        · exact .inr ⟨0, table, old, rfl⟩
      · rw [flushed.others level zero] at mem
        exact .inr ⟨level, table, mem, rfl⟩
  · intro level table mem
    rw [flushed.levelNum]
    by_cases zero : level = 0
    · subst zero
      rw [Function.update_self]
      rcases mem_zero.mp mem with rfl | old
      · exact Nat.mod_le ..
      · exact (indexed.numbered 0 table old).trans (Nat.le_succ _)
    · rw [Function.update_of_ne zero]
      rw [flushed.others level zero] at mem
      exact indexed.numbered level table mem
  · intro level first mem second mem' same
    by_cases zero : level = 0
    · subst zero
      rcases mem_zero.mp mem with rfl | old
      · rcases mem_zero.mp mem' with rfl | old'
        · rfl
        · exact absurd ⟨0, second, old', same.symm.trans newId⟩ absent
      · rcases mem_zero.mp mem' with rfl | old'
        · exact absurd ⟨0, first, old, same.trans newId⟩ absent
        · exact indexed.distinct 0 first old second old' same
    · rw [flushed.others level zero] at mem mem'
      exact indexed.distinct level first mem second mem' same

/-! ## Compactions -/

@[simp]
theorem clearRequests_append (first second : List Table) :
    clearRequests (first ++ second) = clearRequests second ++ clearRequests first := by
  rw [clearRequests_eq, clearRequests_eq, clearRequests_eq, List.reverse_append, List.map_append,
    List.map_append]

/-- No two tables of the store share a pair. -/
theorem Indexed.id_inj (indexed : store.Indexed) (sound : store.Sound) {here there : Nat}
    {first second : Table} (mem : first ∈ store.ssTable here) (mem' : second ∈ store.ssTable there)
    (same : first.id = second.id) : first = second := by
  have levels : here = there :=
    (sound.id_fst mem).symm.trans ((congrArg Prod.fst same).trans (sound.id_fst mem'))
  subst levels
  exact indexed.distinct here first mem second mem' same

theorem Indexed.nodup_ids (indexed : store.Indexed) (sound : store.Sound) {tables : List Table}
    (part : tables.Sublist (store.ssTable level)) : (tables.map Table.id).Nodup := by
  have nodup : tables.Nodup := (sound.sets level).nodup.sublist part
  refine (List.nodup_map_iff_inj_on nodup).mpr ?_
  intro first mem second mem' same
  exact indexed.distinct level first (part.subset mem) second (part.subset mem') same

/-- The names of the new tables are new. -/
theorem Indexed.absent (indexed : store.Indexed) (sound : store.Sound) {num : Nat}
    (above : store.levelNum level < num) : (level, num) ∉ store.ids := by
  rw [sound.mem_ids_iff]
  rintro ⟨table, mem, rfl⟩
  exact Nat.not_le_of_lt above (indexed.numbered level table mem)

/-- A compaction leaves the tables that it does not merge. -/
theorem Compacted.mem_iff (compacted : store.Compacted pops level store') (sound : store.Sound)
    (pos : 1 ≤ level)
    (fresh : KeyedSet.AllFresh Table.rank (store.outTables pops level) (store.ssTable level))
    (apart : ∀ table ∈ store.outTables pops level, ∀ old ∈ store.overlapped level,
      old.rank ≠ table.rank) {other : Nat} {table : Table} :
    table ∈ store'.ssTable other ↔ other = level ∧ table ∈ store.outTables pops level ∨
      table ∈ store.ssTable other ∧ table ∉ store.picked level ∧
        table ∉ store.overlapped level := by
  have level_of : ∀ {here there}, table ∈ store.ssTable here → table ∈ store.ssTable there →
      here = there := fun mem mem' => (sound.id_fst mem).symm.trans (sound.id_fst mem')
  by_cases here : other = level
  · subst here
    rw [compacted.mem_target_iff sound fresh apart, and_iff_right rfl]
    apply or_congr_right
    apply and_congr_right
    intro mem
    refine (and_iff_right ?_).symm
    intro merged
    have same := level_of mem (mem_picked merged)
    omega
  · rw [or_iff_right fun both => here both.1]
    by_cases above : other = level - 1
    · subst above
      have split := KeyedSet.Sorted.eraseAll_take (sound.sets (level - 1))
        (store.compactNum level)
      rw [compacted.above, ← split, KeyedSet.mem_eraseAll]
      apply and_congr_right
      intro mem
      constructor
      · intro distinct
        refine ⟨fun merged => distinct table merged rfl, fun merged => ?_⟩
        exact here (level_of mem (mem_overlapped merged))
      · rintro ⟨stays, -⟩ merged picked same
        apply stays
        rwa [(sound.sets _).eq_of_key_eq mem (mem_picked picked) same]
    · rw [compacted.others other above here]
      refine (and_iff_left_of_imp fun mem => ?_).symm
      refine ⟨fun merged => ?_, fun merged => ?_⟩
      · exact above (level_of mem (mem_picked merged))
      · exact here (level_of mem (mem_overlapped merged))

theorem Indexed.nodup_merged (indexed : store.Indexed) (sound : store.Sound) (pos : 1 ≤ level) :
    ((store.picked level ++ store.overlapped level).reverse.map Table.id).Nodup := by
  have levels : ∀ {first second}, first ∈ store.picked level → second ∈ store.overlapped level →
      first.id ≠ second.id := by
    intro first second above here same
    have equal : level - 1 = level := (sound.id_fst (mem_picked above)).symm.trans
      ((congrArg Prod.fst same).trans (sound.id_fst (mem_overlapped here)))
    omega
  have picked : ((store.picked level).map Table.id).Nodup :=
    indexed.nodup_ids sound (List.take_sublist _ _)
  have overlapped : ((store.overlapped level).map Table.id).Nodup :=
    indexed.nodup_ids sound List.filter_sublist
  rw [List.map_reverse, List.nodup_reverse, List.map_append, List.nodup_append]
  refine ⟨picked, overlapped, ?_⟩
  intro t mem t' mem'
  obtain ⟨first, above, rfl⟩ := List.mem_map.mp mem
  obtain ⟨second, here, rfl⟩ := List.mem_map.mp mem'
  exact levels above here

/-- The requests of a compaction are in order, and afterwards the manager stores the new
tables and those that are not merged. -/
theorem Indexed.requests (indexed : store.Indexed) (sound : store.Sound) (valid : Pops pops)
    (pos : 1 ≤ level) {last : Table} (picked : last ∈ store.picked level)
    (compacted : store.Compacted pops level store') :
    Ledger.Clean store'.memoryPool ∧ ∀ t, t ∈ Ledger.liveIn store'.memoryPool ↔
      ((∃ num, (store.levelNum level < num ∧
          num ≤ store.levelNum level + (store.outFiles pops level).length) ∧ t = (level, num)) ∨
        t ∈ store.ids) ∧
        ∀ table, table ∈ store.picked level ∨ table ∈ store.overlapped level → table.id ≠ t := by
  have requested : store'.memoryPool =
      clearRequests (store.picked level ++ store.overlapped level) ++
        (writeRequests level (store.levelNum level) (store.outFiles pops level).length ++
          (readRequests (store.merging pops level) ++ store.memoryPool)) := by
    rw [compacted.memoryPool, clearRequests_append, List.append_assoc]
  have mem_old : ∀ {t}, t ∈ (store.picked level ++ store.overlapped level).reverse.map Table.id ↔
      ∃ table ∈ store.merging pops level, table.id = t := by
    intro t
    simp only [List.mem_map, List.mem_reverse, List.mem_append, mem_merging valid]
  have stored : ∀ t ∈ (store.picked level ++ store.overlapped level).reverse.map Table.id,
      t ∈ Ledger.liveIn store.memoryPool := by
    intro t mem
    obtain ⟨table, merged, rfl⟩ := mem_old.mp mem
    rcases (mem_merging valid).mp merged with above | here
    · exact indexed.mem_live (mem_picked above)
    · exact indexed.mem_live (mem_overlapped here)
  have next : level ≤ Ledger.levelsIn store.memoryPool := by
    have below := indexed.clean.lt_levelsIn (indexed.mem_live (mem_picked picked))
    have lastLevel : last.id.1 = level - 1 := sound.id_fst (mem_picked picked)
    omega
  have nodup : (List.range' (store.levelNum level + 1)
      (store.outFiles pops level).length).reverse.Nodup :=
    List.nodup_reverse.mpr List.nodup_range'
  obtain ⟨clean, live⟩ := Pool.Ledger.exchange_append indexed.clean
    (indexed.nodup_merged sound pos) stored
    (by
      intro op mem
      obtain ⟨table, merged, rfl⟩ := mem_readRequests.mp mem
      exact ⟨table.id, mem_old.mpr ⟨table, merged, rfl⟩, rfl⟩)
    (by
      intro t mem
      obtain ⟨table, merged, rfl⟩ := mem_old.mp mem
      exact ⟨_, mem_readRequests.mpr ⟨table, merged, rfl⟩, rfl⟩)
    next nodup
    (by
      intro num mem
      rw [indexed.live]
      exact indexed.absent sound (mem_numbers.mp mem).1)
  rw [← writeRequests_eq, ← clearRequests_eq, ← requested] at clean live
  refine ⟨clean, fun t => ?_⟩
  rw [live, indexed.live, mem_old]
  simp only [mem_numbers, not_exists, not_and, mem_merging valid, ne_eq]

/-- The new tables have the numbers that were written. -/
theorem exists_outTable_id
    (small : store.levelNum level + (store.outFiles pops level).length < 2 ^ 32) {t : TableId} :
    (∃ table ∈ store.outTables pops level, table.id = t) ↔
      ∃ num, (store.levelNum level < num ∧
        num ≤ store.levelNum level + (store.outFiles pops level).length) ∧ t = (level, num) := by
  rw [← List.mem_map, outTables, map_id_fileTables _ _ small, ← List.mem_reverse,
    ← List.map_reverse, List.mem_map]
  simp only [mem_numbers, eq_comm]

theorem Indexed.compacted (indexed : store.Indexed) (sound : store.Sound) (valid : Pops pops)
    (pos : 1 ≤ level) {last : Table} (picked : last ∈ store.picked level)
    (small : store.levelNum level + (store.outFiles pops level).length < 2 ^ 32)
    (fresh : KeyedSet.AllFresh Table.rank (store.outTables pops level) (store.ssTable level))
    (apart : ∀ table ∈ store.outTables pops level, ∀ old ∈ store.overlapped level,
      old.rank ≠ table.rank)
    (compacted : store.Compacted pops level store') : store'.Indexed := by
  obtain ⟨clean, live⟩ := indexed.requests sound valid pos picked compacted
  have mem_iff : ∀ {other table}, table ∈ store'.ssTable other ↔ _ :=
    compacted.mem_iff sound pos fresh apart
  have notOld : ∀ {table}, table ∈ store.outTables pops level → ∀ {other old},
      old ∈ store.ssTable other → table.id ≠ old.id := by
    intro table new other old mem same
    obtain ⟨num, ⟨above, -⟩, named⟩ := (exists_outTable_id small).mp ⟨table, new, rfl⟩
    exact indexed.absent sound above ⟨other, old, mem, same.symm.trans named⟩
  refine ⟨clean, ?_, ?_, ?_⟩
  · intro t
    rw [live, ← exists_outTable_id small]
    constructor
    · rintro ⟨⟨table, new, rfl⟩ | ⟨other, table, mem, rfl⟩, notMerged⟩
      · exact ⟨level, table, mem_iff.mpr (.inl ⟨rfl, new⟩), rfl⟩
      · refine ⟨other, table, mem_iff.mpr (.inr ⟨mem, ?_, ?_⟩), rfl⟩
        · exact fun above => notMerged table (.inl above) rfl
        · exact fun here => notMerged table (.inr here) rfl
    · rintro ⟨other, table, mem, rfl⟩
      rcases mem_iff.mp mem with ⟨-, new⟩ | ⟨old, notPicked, notOverlapped⟩
      · refine ⟨.inl ⟨table, new, rfl⟩, ?_⟩
        rintro merged (above | here)
        · exact (notOld new (mem_picked above)).symm
        · exact (notOld new (mem_overlapped here)).symm
      · refine ⟨.inr ⟨other, table, old, rfl⟩, ?_⟩
        rintro merged (above | here) same
        · exact notPicked (indexed.id_inj sound (mem_picked above) old same ▸ above)
        · exact notOverlapped (indexed.id_inj sound (mem_overlapped here) old same ▸ here)
  · intro other table mem
    rw [compacted.levelNum]
    rcases mem_iff.mp mem with ⟨rfl, new⟩ | ⟨old, -, -⟩
    · obtain ⟨num, ⟨-, below⟩, named⟩ := (exists_outTable_id small).mp ⟨table, new, rfl⟩
      have order : table.metaInfo.order = num := congrArg Prod.snd named
      rw [Function.update_self, order]
      exact below
    · have le := indexed.numbered other table old
      by_cases here : other = level
      · subst here
        rw [Function.update_self]
        omega
      · rwa [Function.update_of_ne here]
  · intro other first mem second mem' same
    rcases mem_iff.mp mem with ⟨-, new⟩ | ⟨old, -, -⟩
    · rcases mem_iff.mp mem' with ⟨-, new'⟩ | ⟨old', -, -⟩
      · have nodup : ((store.outTables pops level).map Table.id).Nodup := by
          rw [outTables, map_id_fileTables _ _ small]
          apply List.Nodup.map (f := fun num => (level, num)) ?_ List.nodup_range'
          exact fun _ _ => congrArg Prod.snd
        exact List.inj_on_of_nodup_map nodup new new' same
      · exact absurd same (notOld new old')
    · rcases mem_iff.mp mem' with ⟨-, new'⟩ | ⟨old', -, -⟩
      · exact absurd same.symm (notOld new' old)
      · exact indexed.distinct other first old second old' same

/-! ## All stages -/

/-- The count of level 0 never gets large. -/
theorem levelNum_zero_of_idle {guard : Guard} (reached : StageRuns guard .idle store) :
    store.levelNum 0 ≤ level0 := by
  cases shaped_of_stageRuns reached with
  | idle tallied shaped => exact shaped.top

/-- When the recursion ends, level 0 is empty. -/
theorem empty_of_notOverfull {guard : Guard} {key : Nat} {s : Str}
    (reached : StageRuns guard (.merging level key s) store) (room : ¬store.Overfull level) :
    store.ssTable 0 = [] := by
  cases shaped_of_stageRuns reached with
  | first => exact absurd (.inl rfl) room
  | later _ empty _ => exact empty

/-- The counts of the levels below level 0 fit into an `int`. -/
def Countable (store : KVStore) : Prop :=
  ∀ level, 1 ≤ level → store.levelNum level < 2 ^ 31

/-- As long as no count of a level overflows, the tables stay indexed. -/
theorem stageInvariant_indexed :
    StageInvariant .apart (StageRuns .apart) fun _ store => store.Countable → store.Indexed where
  new _ := indexed_new
  write _ _ before _ _ small := (before small).of_eq rfl rfl rfl
  flush := by
    intro store flushed key s sound reached before _ _ step small
    have few := levelNum_zero_of_idle reached
    have counts : store.Countable := by
      intro level pos
      have after : flushed.levelNum level < 2 ^ 31 := small level pos
      rwa [step.levelNum, Function.update_of_ne (Nat.ne_of_gt pos)] at after
    have indexed := (before counts).flushed sound (by rw [level0] at few; omega)
      (fresh_flushTable (shaped_of_stageRuns reached) key s _) step
    exact indexed.of_eq rfl rfl rfl
  skip _ _ before _ small := before small
  descend _ _ before _ small := before small
  merge := by
    intro pops store store' level key s sound reached before pos apart valid overfull compacted
      small
    have here := small level pos
    rw [compacted.levelNum, Function.update_self] at here
    have counts : store.Countable := by
      intro other posOther
      by_cases same : other = level
      · subst same
        omega
      · have there := small other posOther
        rwa [compacted.levelNum, Function.update_of_ne same] at there
    obtain ⟨last, picked, -, -, -⟩ := exists_last_picked sound overfull compacted.enough
    have distinct := rank_ne_of_stageRuns reached overfull apart compacted
    have fresh := allFresh_outTables sound valid (partitioned_of_stageRuns reached pos)
      compacted.nonempty distinct
    exact (before counts).compacted sound valid pos picked (by omega) fresh distinct compacted
  stop := by
    intro store level key s sound reached before room small
    have counts : store.Countable := by
      intro other pos
      have there : Function.update store.levelNum 0 0 other < 2 ^ 31 := small other pos
      rwa [Function.update_of_ne (Nat.ne_of_gt pos)] at there
    have empty := empty_of_notOverfull reached room
    have indexed := before counts
    refine ⟨⟨trivial, indexed.clean⟩, indexed.live, ?_, indexed.distinct⟩
    intro other table mem
    change table.metaInfo.order ≤ Function.update store.levelNum 0 0 other
    by_cases zero : other = 0
    · subst zero
      change table ∈ store.ssTable 0 at mem
      rw [empty] at mem
      cases mem
    · rw [Function.update_of_ne zero]
      exact indexed.numbered other table mem
  insert _ _ before small := (before small).of_eq rfl rfl rfl
  get _ before asks small := (before small).asked asks

theorem indexed_of_runs (runs : Runs .apart store) (small : store.Countable) : store.Indexed :=
  stageInvariant_indexed.holds id (stages_of_runs runs) small

end KVStore

end ZnsLsm.Store
