import ZnsLsm.Store.Sound

/-!
# The values of the store

What holds of every value that the puts of a run store holds of every entry of the
memtable and of the tables: compactions only move entries.
-/

namespace ZnsLsm.Store

open ZnsLsm.Pool (sstableSize)

namespace KVStore

variable {store : KVStore} {good : Str → Prop}

/-- Every value in the memtable and in the tables is good. -/
structure Entries (good : Str → Prop) (store : KVStore) : Prop where
  memTable : ∀ entry ∈ store.memTable.nodes, good entry.2
  tables : ∀ level, ∀ table ∈ store.ssTable level, ∀ entry ∈ table.keyValue, good entry.2

/-- The value that a stage has still to insert is good. -/
def Pending (good : Str → Prop) : Stage → Prop
  | .idle => True
  | .flushed _ s => good s
  | .merging _ _ s => good s
  | .settled _ s => good s

/-- The memtable after a put. -/
theorem Entries.put (entries : store.Entries good) {memory key : Nat} {s : Str} (holds : good s)
    {entry : Nat × Str}
    (mem : entry ∈ ({ store.memTable with memory := memory }.put key s).nodes) :
    good entry.2 := by
  rcases SortedMap.mem_assign mem with rfl | old
  · exact holds
  · exact entries.memTable entry old

/-- The entry stands in some table. -/
def InTables (store : KVStore) (entry : Nat × Str) : Prop :=
  ∃ level, ∃ table ∈ store.ssTable level, entry ∈ table.keyValue

/-- A compaction makes no entries up. -/
theorem Compacted.inTables {pops : List Table → List Table} {store' : KVStore} {level : Nat}
    (compacted : store.Compacted pops level store') (sound : store.Sound) (valid : Pops pops)
    {entry : Nat × Str} (present : store'.InTables entry) : store.InTables entry := by
  obtain ⟨other, table, mem, held⟩ := present
  rcases compacted.mem_cases mem with old | ⟨rfl, new⟩
  · exact ⟨other, table, old, held⟩
  · obtain ⟨number, file, -, -, member, rfl⟩ := mem_fileTables new
    obtain ⟨merged, either, inTable⟩ :=
      exists_of_mem_survivors sound valid (mem_survivors_of_file member held)
    rcases either with picked | overlapped
    · exact ⟨_, merged, mem_picked picked, inTable⟩
    · exact ⟨_, merged, mem_overlapped overlapped, inTable⟩

theorem stageInvariant_entries {guard : Guard}
    (puts : ∀ {store key s}, guard.puts store key s → good s) :
    StageInvariant guard Anything fun stage store => store.Entries good ∧ Pending good stage where
  new := by
    refine ⟨⟨?_, ?_⟩, trivial⟩
    · intro entry mem
      cases mem
    · intro level table mem
      cases mem
  write _ _ before allowed _ :=
    ⟨⟨fun _ mem => before.1.put (puts allowed) mem, before.1.tables⟩, trivial⟩
  flush := by
    intro store flushed key s _ _ before allowed _ step
    refine ⟨⟨?_, ?_⟩, puts allowed⟩
    · intro entry mem
      change entry ∈ flushed.memTable.nodes at mem
      rw [step.memTable] at mem
      cases mem
    · intro level table mem entry held
      change table ∈ flushed.ssTable level at mem
      rcases step.mem_cases mem with old | ⟨rfl, rfl⟩
      · exact before.1.tables level table old entry held
      · exact before.1.memTable entry held
  skip _ _ before _ := before
  descend _ _ before _ := before
  merge := by
    intro pops store store' level key s sound _ before _ _ valid _ compacted
    refine ⟨⟨compacted.memTable ▸ before.1.memTable, ?_⟩, before.2⟩
    intro other table mem entry held
    obtain ⟨_, merged, old, inTable⟩ := compacted.inTables sound valid ⟨other, table, mem, held⟩
    exact before.1.tables _ merged old entry inTable
  stop _ _ before _ := ⟨⟨before.1.memTable, before.1.tables⟩, before.2⟩
  insert _ _ before :=
    ⟨⟨fun _ mem => before.1.put before.2 mem, before.1.tables⟩, trivial⟩
  get _ before _ := ⟨⟨before.1.memTable, before.1.tables⟩, trivial⟩

/-- If every put of a run stores a good value, all entries are good. -/
theorem entries_of_stageRuns {guard : Guard} {stage : Stage}
    (puts : ∀ {store key s}, guard.puts store key s → good s)
    (reached : StageRuns guard stage store) : store.Entries good :=
  ((stageInvariant_entries puts).holds (fun _ => trivial) reached).1

end KVStore

end ZnsLsm.Store
