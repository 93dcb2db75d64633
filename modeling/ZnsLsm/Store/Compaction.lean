import ZnsLsm.Store.Merging

/-!
# What one compaction does to the levels

`compactLevel` merges the picked tables of the level above with the overlapping tables
of its own level, cuts the merged entries into files, and replaces the merged tables
by the tables of these files.  `compactLevel_ends` says this once for all invariants,
and says exactly when the compaction fails.
-/

namespace ZnsLsm.Store

open ZnsLsm.Outcome
open ZnsLsm.Pool (sstableSize)

/-- An order in which priority queues hand out tables: smaller tables first. -/
def Pops (pops : List Table → List Table) : Prop :=
  ∀ tables, (pops tables).Perm tables ∧
    (pops tables).Pairwise fun first second => first.rank ≤ second.rank

namespace KVStore

/-! ## Cutting the merged entries into files -/

/-- The merged entries that reach the output. -/
def kept (lastLevel : Bool) (entries : List (Nat × Str)) : List (Nat × Str) :=
  entries.filter fun entry => !(lastLevel && entry.2 = .del)

/-- The files that are written when `pending` is collected already. -/
def cut : Nat → List (Nat × Str) → List (Nat × Str) → List (List (Nat × Str))
  | _, pending, [] =>
      match pending with
      | [] => []
      | _ :: _ => [pending]
  | size, pending, entry :: rest =>
      if sstableSize < size + entrySize entry.2 then
        pending :: cut (initialSize + entrySize entry.2) [entry] rest
      else
        cut (size + entrySize entry.2) (pending ++ [entry]) rest

/-- Write one file. -/
def writeFile (level timestamp : Nat) (store : KVStore) (file : List (Nat × Str)) :
    Except Fault KVStore :=
  store.writeToFile level timestamp file.length file

/-- The output loop writes the files of the cut. -/
theorem foldlM_add (level timestamp : Nat) (lastLevel : Bool) (entries : List (Nat × Str))
    (store : KVStore) (size : Nat) (pending : List (Nat × Str)) :
    (entries.foldlM (Output.add level timestamp lastLevel) ⟨store, size, pending⟩ >>=
        Output.finish level timestamp) =
      (cut size pending (kept lastLevel entries)).foldlM (writeFile level timestamp) store := by
  induction entries generalizing store size pending with
  | nil =>
      cases pending with
      | nil => rfl
      | cons entry rest =>
          change writeFile level timestamp store (entry :: rest) =
            (writeFile level timestamp store (entry :: rest) >>= pure)
          rw [bind_pure]
  | cons entry entries ih =>
      rw [List.foldlM_cons, bind_assoc, Output.add]
      by_cases dropped : (lastLevel && entry.2 = .del) = true
      · rw [if_pos dropped, pure_bind, ih, kept, kept, List.filter_cons_of_neg]
        rw [dropped]
        exact Bool.false_ne_true
      · rw [if_neg dropped, kept, List.filter_cons_of_pos, cut]
        dsimp only
        split
        · rw [List.foldlM_cons, bind_assoc]
          apply congrArg
          funext store'
          rw [pure_bind]
          exact ih ..
        · rw [pure_bind]
          exact ih ..
        · rw [Bool.not_eq_true _ |>.mp dropped]
          rfl

@[simp]
theorem flatten_cut (size : Nat) (pending entries : List (Nat × Str)) :
    (cut size pending entries).flatten = pending ++ entries := by
  induction entries generalizing size pending with
  | nil =>
      cases pending with
      | nil => rfl
      | cons entry rest => simp [cut]
  | cons entry rest ih =>
      rw [cut]
      split
      · rw [List.flatten_cons, ih]
        rfl
      · rw [ih, List.append_assoc]
        rfl

theorem nil_notMem_cut {size : Nat} {pending entries : List (Nat × Str)}
    (collected : pending ≠ []) : [] ∉ cut size pending entries := by
  induction entries generalizing size pending with
  | nil =>
      cases pending with
      | nil => exact absurd rfl collected
      | cons entry rest => simp [cut]
  | cons entry rest ih =>
      rw [cut]
      split
      · rw [List.mem_cons, not_or]
        exact ⟨collected.symm, ih (List.cons_ne_nil _ _)⟩
      · exact ih (by simp)

/-- Nothing is written before an entry is collected, unless the first entry alone is too
large for a table. -/
theorem nil_mem_cut_iff (entries : List (Nat × Str)) :
    [] ∈ cut initialSize [] entries ↔
      ∃ entry rest, entries = entry :: rest ∧ sstableSize < initialSize + entrySize entry.2 := by
  cases entries with
  | nil => simp [cut]
  | cons entry rest =>
      rw [cut]
      split
      · rename_i large
        exact iff_of_true List.mem_cons_self ⟨entry, rest, rfl, large⟩
      · rename_i fits
        refine iff_of_false (nil_notMem_cut (by simp)) ?_
        rintro ⟨first, later, same, large⟩
        cases same
        exact fits large

/-! ## Writing files -/

/-- The table of a file. -/
def fileTable (level timestamp order : Nat) (file : List (Nat × Str)) : Table :=
  Table.build level order timestamp file.length ((file.head?.map Prod.fst).getD 0)
    ((file.getLast?.map Prod.fst).getD 0) (fun value => value.size + 1) file

/-- The tables of files, numbered from `order + 1` on. -/
def fileTables (level timestamp : Nat) : Nat → List (List (Nat × Str)) → List Table
  | _, [] => []
  | order, file :: files =>
      fileTable level timestamp (order + 1) file ::
        fileTables level timestamp (order + 1) files

/-- The requests to write tables numbered from `order + 1` on, newest first. -/
def writeRequests (level : Nat) : Nat → Nat → Requests
  | _, 0 => []
  | order, count + 1 =>
      writeRequests level (order + 1) count ++ [.writeTable level (order + 1)]

theorem writeFile_eq (level timestamp : Nat) (store : KVStore) {file : List (Nat × Str)}
    (nonempty : file ≠ []) :
    writeFile level timestamp store file =
      .ok
        { store with
          levelNum := Function.update store.levelNum level (store.levelNum level + 1)
          ssTable :=
            Function.update store.ssTable level
              (KeyedSet.emplace Table.rank
                (fileTable level timestamp (store.levelNum level + 1) file)
                (store.ssTable level))
          memoryPool := .writeTable level (store.levelNum level + 1) :: store.memoryPool } := by
  obtain ⟨first, rest, rfl⟩ := List.exists_cons_of_ne_nil nonempty
  rw [writeFile, writeToFile, Table.ofEntries, List.head?_cons,
    List.getLast?_eq_some_getLast nonempty]
  simp only [Option.bind_eq_bind, Option.bind_some, Option.pure_def]
  rw [fileTable, List.head?_cons, List.getLast?_eq_some_getLast nonempty]
  rfl

@[simp]
theorem writeFile_nil (level timestamp : Nat) (store : KVStore) :
    writeFile level timestamp store [] = .error .emptyTable :=
  rfl

/-- The state after files are written. -/
def wrote (level timestamp : Nat) (store : KVStore) (files : List (List (Nat × Str))) :
    KVStore :=
  { store with
    levelNum := Function.update store.levelNum level (store.levelNum level + files.length)
    ssTable :=
      Function.update store.ssTable level
        (KeyedSet.emplaceAll Table.rank
          (fileTables level timestamp (store.levelNum level) files) (store.ssTable level))
    memoryPool :=
      writeRequests level (store.levelNum level) files.length ++ store.memoryPool }

/-- Writing files fails only at an empty one. -/
theorem foldlM_writeFile (level timestamp : Nat) (files : List (List (Nat × Str)))
    (store : KVStore) :
    files.foldlM (writeFile level timestamp) store =
      if [] ∈ files then .error .emptyTable else .ok (wrote level timestamp store files) := by
  induction files generalizing store with
  | nil =>
      have numbers := Function.update_eq_self level store.levelNum
      have sets := Function.update_eq_self level store.ssTable
      rw [if_neg List.not_mem_nil]
      change Except.ok store = Except.ok
        { store with
          levelNum := Function.update store.levelNum level (store.levelNum level)
          ssTable := Function.update store.ssTable level (store.ssTable level) }
      rw [numbers, sets]
  | cons file files ih =>
      rw [List.foldlM_cons]
      by_cases empty : file = []
      · subst empty
        rw [writeFile_nil, if_pos List.mem_cons_self]
        rfl
      · rw [writeFile_eq level timestamp store empty]
        change files.foldlM (writeFile level timestamp) _ = _
        rw [ih]
        have mem_iff : [] ∈ file :: files ↔ [] ∈ files := by
          rw [List.mem_cons]
          exact or_iff_right fun same => empty same.symm
        simp only [mem_iff]
        split
        · rfl
        · congr 1
          simp only [wrote, Function.update_self, Function.update_idem, List.length_cons,
            writeRequests, fileTables]
          rw [KVStore.mk.injEq]
          refine ⟨rfl, rfl, ?_, rfl, ?_⟩
          · rw [Nat.add_assoc, Nat.add_comm 1]
          · rw [List.append_assoc]
            rfl

theorem mem_fileTables {level timestamp order : Nat} {files : List (List (Nat × Str))}
    {table : Table} (mem : table ∈ fileTables level timestamp order files) :
    ∃ number file, order < number ∧ number ≤ order + files.length ∧ file ∈ files ∧
      table = fileTable level timestamp number file := by
  induction files generalizing order with
  | nil => cases mem
  | cons file files ih =>
      rcases List.mem_cons.mp mem with rfl | later
      · exact ⟨order + 1, file, by omega, by rw [List.length_cons]; omega, List.mem_cons_self, rfl⟩
      · obtain ⟨number, file', above, below, member, rfl⟩ := ih later
        exact ⟨number, file', by omega, by rw [List.length_cons]; omega,
          List.mem_cons_of_mem _ member, rfl⟩

@[simp]
theorem map_keyValue_fileTables (level timestamp order : Nat)
    (files : List (List (Nat × Str))) :
    (fileTables level timestamp order files).map Table.keyValue = files := by
  induction files generalizing order with
  | nil => rfl
  | cons file files ih =>
      rw [fileTables, List.map_cons, ih]
      rfl

/-! ## Removing files -/

/-- The requests to delete tables, newest first. -/
def clearRequests : List Table → Requests
  | [] => []
  | table :: tables => clearRequests tables ++ table.clear []

theorem removeFiles_eq (store : KVStore) (level : Nat) (files : List Table) :
    store.removeFiles level files =
      { store with
        memoryPool := clearRequests files ++ store.memoryPool
        ssTable :=
          Function.update store.ssTable level
            (KeyedSet.eraseAll Table.rank files (store.ssTable level)) } := by
  induction files generalizing store with
  | nil =>
      change store = _
      rw [KeyedSet.eraseAll, List.foldl_nil, Function.update_eq_self]
      rfl
  | cons file files ih =>
      change removeFiles _ level files = _
      rw [ih]
      simp only [Function.update_self, Function.update_idem, clearRequests, List.append_assoc]
      rfl

/-! ## The compaction -/

/-- The requests to read tables, newest first. -/
def readRequests : List Table → Requests
  | [] => []
  | table :: tables => readRequests tables ++ (table.traverse []).2

theorem traverseAll_eq (tables : List Table) (pool : Requests) :
    traverseAll tables pool = (tables.map Table.keyValue, readRequests tables ++ pool) := by
  induction tables generalizing pool with
  | nil => rfl
  | cons table tables ih =>
      rw [traverseAll, Table.traverse]
      dsimp only
      rw [ih, readRequests, List.append_assoc]
      rfl

/-- The tables that a compaction merges, in the order in which it reads them. -/
def merging (pops : List Table → List Table) (store : KVStore) (level : Nat) : List Table :=
  pops (store.picked level ++ store.overlapped level)

/-- The merged entries that a compaction into a level keeps: on the last level, it
drops the deletion markers. -/
def survivors (pops : List Table → List Table) (store : KVStore) (level : Nat) :
    List (Nat × Str) :=
  kept (store.depth ≤ level + 1)
    (SortedMap.merge ((store.merging pops level).map Table.keyValue))

/-- The files that a compaction into a level writes. -/
def outFiles (pops : List Table → List Table) (store : KVStore) (level : Nat) :
    List (List (Nat × Str)) :=
  cut initialSize [] (store.survivors pops level)

/-- The tables that a compaction into a level writes. -/
def outTables (pops : List Table → List Table) (store : KVStore) (level : Nat) : List Table :=
  fileTables level (timestampOf (store.picked level)) (store.levelNum level)
    (store.outFiles pops level)

/-- A state without stray data beyond its levels, in whose sets and tables everything is
in order. -/
structure Ordered (store : KVStore) : Prop where
  sets : ∀ level, KeyedSet.Sorted Table.rank (store.ssTable level)
  tables : ∀ level, ∀ table ∈ store.ssTable level, SortedMap.Sorted table.keyValue
  bare : ∀ level, store.depth ≤ level → store.ssTable level = [] ∧ store.levelNum level = 0

/-- What changes when a compaction into a level returns. -/
structure Compacted (pops : List Table → List Table) (level : Nat) (store store' : KVStore) :
    Prop where
  enough : store.compactNum level ≤ (store.ssTable (level - 1)).length
  nonempty : [] ∉ store.outFiles pops level
  memTable : store'.memTable = store.memTable
  depth : store'.depth = max store.depth (level + 1)
  levelNum : store'.levelNum =
    Function.update store.levelNum level
      (store.levelNum level + (store.outFiles pops level).length)
  above : store'.ssTable (level - 1) = (store.ssTable (level - 1)).drop (store.compactNum level)
  target : store'.ssTable level =
    KeyedSet.eraseAll Table.rank (store.overlapped level)
      (KeyedSet.emplaceAll Table.rank (store.outTables pops level) (store.ssTable level))
  others : ∀ other, other ≠ level - 1 → other ≠ level → store'.ssTable other = store.ssTable other
  memoryPool : store'.memoryPool =
    clearRequests (store.overlapped level) ++ (clearRequests (store.picked level) ++
      (writeRequests level (store.levelNum level) (store.outFiles pops level).length ++
        (readRequests (store.merging pops level) ++ store.memoryPool)))

variable {pops : List Table → List Table} {store : KVStore} {level : Nat}

theorem Ordered.openLevel (ordered : store.Ordered) (le : level ≤ store.depth) :
    store.openLevel level = { store with depth := max store.depth (level + 1) } := by
  rw [KVStore.openLevel]
  split
  · rename_i ge
    obtain ⟨noTables, noNumber⟩ := ordered.bare store.depth (Nat.le_refl _)
    have sets := Function.update_eq_self store.depth store.ssTable
    have numbers := Function.update_eq_self store.depth store.levelNum
    rw [noTables] at sets
    rw [noNumber] at numbers
    rw [sets, numbers, Nat.max_eq_right (by omega), show level = store.depth by omega]
  · rw [Nat.max_eq_left (by omega)]

theorem mem_picked {table : Table} (mem : table ∈ store.picked level) :
    table ∈ store.ssTable (level - 1) :=
  List.mem_of_mem_take mem

theorem mem_overlapped {table : Table} (mem : table ∈ store.overlapped level) :
    table ∈ store.ssTable level :=
  List.mem_of_mem_filter mem

@[simp]
theorem mem_merging (valid : Pops pops) {table : Table} :
    table ∈ store.merging pops level ↔
      table ∈ store.picked level ∨ table ∈ store.overlapped level := by
  rw [merging, (valid _).1.mem_iff, List.mem_append]

theorem Ordered.merging (ordered : store.Ordered) (valid : Pops pops) (level : Nat) :
    ∀ entries ∈ (store.merging pops level).map Table.keyValue, SortedMap.Sorted entries := by
  intro entries mem
  obtain ⟨table, merged, rfl⟩ := List.mem_map.mp mem
  rcases (mem_merging valid).mp merged with above | here
  · exact ordered.tables _ table (mem_picked above)
  · exact ordered.tables _ table (mem_overlapped here)

/-- A compaction fails only if the level above has too few tables or if the first entry
that survives the merge is too large for a table. -/
theorem Ordered.compactLevel (ordered : store.Ordered) (valid : Pops pops)
    (pos : 1 ≤ level) (le : level ≤ store.depth) :
    Ends (store.Compacted pops level)
      (fun fault =>
        (store.ssTable (level - 1)).length < store.compactNum level ∧ fault = .pastEnd ∨
          store.compactNum level ≤ (store.ssTable (level - 1)).length ∧
            [] ∈ store.outFiles pops level ∧ fault = .emptyTable)
      (store.compactLevel pops level) := by
  rw [KVStore.compactLevel, ordered.openLevel le]
  have last : decide (level = max store.depth (level + 1) - 1) =
      decide (store.depth ≤ level + 1) := decide_eq_decide.mpr (by omega)
  have sameNum : ∀ depth, ({ store with depth := depth } : KVStore).compactNum level =
    store.compactNum level := fun _ => rfl
  have samePicked : ∀ depth, ({ store with depth := depth } : KVStore).picked level =
    store.picked level := fun _ => rfl
  have sameOverlapped : ∀ depth, ({ store with depth := depth } : KVStore).overlapped level =
    store.overlapped level := fun _ => rfl
  have together : pops (store.picked level ++ store.overlapped level) =
    store.merging pops level := rfl
  dsimp only
  rw [sameNum, samePicked, sameOverlapped, traverseAll_eq, together]
  split
  · rename_i few
    exact .inl ⟨few, rfl⟩
  · rename_i few
    have enough := Nat.le_of_not_lt few
    dsimp only
    rw [Merge.mergeLoop_start (ordered.merging valid level), ← bind_assoc, foldlM_add, last]
    change Ends _ _ ((store.outFiles pops level).foldlM (writeFile level _) _ >>= _)
    rw [foldlM_writeFile]
    split
    · rename_i empty
      exact .inr ⟨enough, empty, rfl⟩
    · rename_i nonempty
      have apart : level - 1 ≠ level := by omega
      change store.Compacted pops level _
      rw [removeFiles_eq, removeFiles_eq]
      constructor
      · exact enough
      · exact nonempty
      · rfl
      · rfl
      · rfl
      · change Function.update (Function.update (Function.update store.ssTable level _)
          (level - 1) _) level _ (level - 1) = _
        rw [Function.update_of_ne apart, Function.update_self]
        change KeyedSet.eraseAll Table.rank _
          (Function.update store.ssTable level _ (level - 1)) = _
        rw [Function.update_of_ne apart]
        exact (ordered.sets (level - 1)).eraseAll_take _
      · change Function.update (Function.update (Function.update store.ssTable level _)
          (level - 1) _) level _ level = _
        rw [Function.update_self]
        change KeyedSet.eraseAll Table.rank _
          (Function.update (Function.update store.ssTable level _) (level - 1) _ level) = _
        rw [Function.update_of_ne apart.symm, Function.update_self]
        rfl
      · intro other ne ne'
        change Function.update (Function.update (Function.update store.ssTable level _)
          (level - 1) _) level _ other = _
        rw [Function.update_of_ne ne', Function.update_of_ne ne, Function.update_of_ne ne']
      · rfl

end KVStore

end ZnsLsm.Store
