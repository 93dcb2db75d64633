import ZnsLsm.Store.Fitting
import ZnsLsm.Store.Views

/-!
# Deletion markers

A compaction into the deepest level drops the deletion markers, and the levels only grow
in number, so whatever stands on the deepest level was written there when it was the deepest
already.  A compaction into another level writes every marker that wins its merge, which the
level then holds if the table of the marker is not dropped.
-/

namespace ZnsLsm.Store

open ZnsLsm.Outcome ZnsLsm.Transition
open ZnsLsm.Pool (sstableSize)

namespace KVStore

variable {pops : List Table → List Table} {store store' : KVStore} {level : Nat}

/-! ## The deepest level -/

/-- The entry is no deletion marker. -/
def Unmarked (table : Table) : Prop :=
  ∀ entry ∈ table.keyValue, entry.2 ≠ .del

/-- What a compaction into the last level writes. -/
theorem unmarked_outTables (last : store.depth ≤ level + 1) {table : Table}
    (new : table ∈ store.outTables pops level) : Unmarked table := by
  obtain ⟨number, file, -, -, member, rfl⟩ := mem_fileTables new
  intro entry held
  have survives : entry ∈ store.survivors pops level := mem_survivors_of_file member held
  rw [survivors, kept, List.mem_filter] at survives
  simpa [last] using survives.2

/-- No deletion marker stands on a level from the last one on, except on level 0. -/
theorem stageInvariant_unmarked (guard : Guard) :
    StageInvariant guard Anything fun _ store => ∀ level, 1 ≤ level → store.depth ≤ level + 1 →
      ∀ table ∈ store.ssTable level, Unmarked table where
  new _ _ _ table mem := by cases mem
  write _ _ before _ _ := before
  flush := by
    intro store flushed key s _ _ before _ _ step level pos deep table mem
    change table ∈ flushed.ssTable level at mem
    change flushed.depth ≤ level + 1 at deep
    rw [step.others level (by omega)] at mem
    exact before level pos (step.depth ▸ deep) table mem
  skip _ _ before _ := before
  descend _ _ before _ := before
  merge := by
    intro pops store store' level key s _ _ before pos _ _ _ compacted other otherPos deep table mem
    rw [compacted.depth] at deep
    have deep' : store.depth ≤ other + 1 := (Nat.le_max_left ..).trans deep
    rcases compacted.mem_cases mem with old | ⟨rfl, new⟩
    · exact before other otherPos deep' table old
    · exact unmarked_outTables deep' new
  stop _ _ before _ := before
  insert _ _ before := before
  get _ before _ := before

/-! ## The markers that win a merge -/

/-- The level holds every deletion marker that wins the merge. -/
def KeepsMarkers (call : CompactionCall) (store' : KVStore) : Prop :=
  ∀ key, SortedMap.newest key ((call.store.merging call.pops call.level).map Table.keyValue) =
      some .del →
    ∃ table ∈ store'.ssTable call.level, (key, .del) ∈ table.keyValue

/-- No table with a deletion marker is dropped for one that is merged with it: they differ
in their time stamps or in their least keys. -/
def Lands (call : CompactionCall) : Prop :=
  ∀ table ∈ call.store.outTables call.pops call.level, ¬Unmarked table →
    ∀ old ∈ call.store.overlapped call.level, old.rank ≠ table.rank

/-- A key that survives is in no table that is not merged. -/
theorem notMem_of_survivors (sound : store.Sound) (valid : Pops pops)
    (partitioned : Partitioned (store.ssTable level)) {key : Nat} {value : Str}
    (survives : (key, value) ∈ store.survivors pops level) {untouched : Table}
    (mem : untouched ∈ store.ssTable level) (notMerged : untouched ∉ store.overlapped level)
    (other : Str) : (key, other) ∉ untouched.keyValue := by
  obtain ⟨merged, either, held⟩ := exists_of_mem_survivors sound valid survives
  exact find_eq_none_of_untouched sound partitioned mem notMerged either held other

theorem keepsMarkers_iff (sound : store.Sound) (valid : Pops pops)
    (partitioned : Partitioned (store.ssTable level)) (inner : level + 1 < store.depth)
    (compacted : store.Compacted pops level store') :
    KeepsMarkers ⟨pops, store, level⟩ store' ↔ Lands ⟨pops, store, level⟩ := by
  have wins : ∀ key, SortedMap.newest key
      ((store.merging pops level).map Table.keyValue) = some .del ↔
        (key, .del) ∈ store.survivors pops level := by
    intro key
    rw [mem_survivors_iff sound.ordered valid]
    exact (and_iff_left fun both => absurd both.1 (Nat.not_le.mpr inner)).symm
  constructor
  · intro keeps table new marked old merged same
    change table ∈ store.outTables pops level at new
    simp only [Unmarked, not_forall, not_not] at marked
    obtain ⟨⟨key, _⟩, held, rfl⟩ := marked
    obtain ⟨number, file, -, -, member, equal⟩ := mem_fileTables new
    have survives : (key, .del) ∈ store.survivors pops level :=
      mem_survivors_of_file member (by rw [equal] at held; exact held)
    obtain ⟨table', mem', held'⟩ := keeps key ((wins key).mpr survives)
    rcases compacted.mem_target mem' with new' | ⟨old', stays⟩
    · have equal' : table' = table := by
        by_contra ne
        have disjoint := disjoint_outTables sound valid compacted.nonempty new' new ne
        have range := (sound.outTables valid compacted.nonempty new).mem_range ⟨_, held⟩
        have range' := (sound.outTables valid compacted.nonempty new').mem_range ⟨_, held'⟩
        exact Set.disjoint_left.mp disjoint range' range
      subst equal'
      rw [compacted.target] at mem'
      exact (KeyedSet.mem_eraseAll.mp mem').2 old merged same.symm
    · exact notMem_of_survivors sound valid partitioned survives old' stays _ held'
  · intro lands key won
    have survives := (wins key).mp won
    have flat := flatten_cut initialSize [] (store.survivors pops level)
    rw [List.nil_append] at flat
    rw [← flat] at survives
    obtain ⟨file, member, held⟩ := List.mem_flatten.mp survives
    obtain ⟨table, new, rfl⟩ := exists_outTable member
    have marked : ¬Unmarked table := fun unmarked => unmarked _ held rfl
    have fresh : KeyedSet.Fresh Table.rank table (store.ssTable level) := by
      intro old mem
      by_cases merged : old ∈ store.overlapped level
      · exact lands table new marked old merged
      · exact rank_ne_of_untouched sound valid partitioned compacted.nonempty new mem merged
    refine ⟨table, ?_, held⟩
    rw [compacted.target]
    refine KeyedSet.mem_eraseAll.mpr ⟨?_, ?_⟩
    · exact KeyedSet.mem_emplaceAll_of_fresh
        (distinct_outTables sound valid compacted.nonempty) new fresh
    · intro old merged same
      exact lands table new marked old merged same.symm

/-- No marker is lost if no merged table has the time stamp of the files. -/
theorem lands_of_apart {guard : Guard} {key : Nat} {s : Str}
    (reached : StageRuns guard (.merging level key s) store) (overfull : store.Overfull level)
    (apart : Apart ⟨pops, store, level⟩) (compacted : store.Compacted pops level store') :
    Lands ⟨pops, store, level⟩ :=
  fun table new _ => rank_ne_of_stageRuns reached overfull apart compacted table new

/-! ## Runs -/

/-- After any run no deletion marker stands on the deepest level, if there are two or more.
Every compaction of a run into a level that is not the deepest keeps all markers that win its
merge, if no table that it merges from its level has the time stamp of the last one it picks. -/
theorem markers_of_reachable (reachable : system.Reachable store) :
    (2 ≤ store.depth → ∀ table ∈ store.ssTable (store.depth - 1), Unmarked table) ∧
      ∀ invocation : Invocation,
        ∀ call ∈ store.calls invocation.pops invocation.fuel invocation.command, Apart call →
          ∀ store', call.store.compactLevel call.pops call.level = .ok store' →
            call.level + 1 < store'.depth → KeepsMarkers call store' := by
  have reached := stages_of_runs (runs_none reachable)
  constructor
  · intro deep
    have unmarked := (stageInvariant_unmarked .none).holds (fun _ => trivial) reached
    exact unmarked (store.depth - 1) (by omega) (by omega)
  · intro invocation call mem apart store' ok inner
    obtain ⟨same, key, s, merging, overfull⟩ :=
      (stages_of_exec invocation.valid reached (command_none _ _)).1 call mem
    rcases call with ⟨pops, before, level⟩
    cases same
    have known := stageSound_of_stageRuns merging
    obtain ⟨pos, le⟩ := known.level rfl
    have compacted := (known.sound.ordered.compactLevel invocation.valid pos le).of_ok ok
    have inner' : level + 1 < max before.depth (level + 1) := by
      rw [← compacted.depth]
      exact inner
    have deeper : level + 1 < before.depth := by omega
    have lands := lands_of_apart merging overfull apart compacted
    exact (keepsMarkers_iff known.sound invocation.valid (partitioned_of_stageRuns merging pos)
      deeper compacted).mpr lands

/-- Puts that fill two levels and open a third, and a deletion of key 5. -/
def deepPuts : List Command :=
  ((List.range 13).map fun key => .put key wide) ++ [.del 5] ++
    [20, 21, 22].map fun key => .put key wide

/-- The next compaction merges the marker of key 5 with an older version on level 1, which
keeps it; level 2, the deepest, holds no marker. -/
theorem markers_after_compaction : ∃ store, run .none deepPuts = some store ∧
    store.depth = 3 ∧ store.ssTable 2 ≠ [] ∧ (∀ table ∈ store.ssTable 2, Unmarked table) ∧
      ∃ call ∈ store.calls sortPops 20 (.put 23 wide), ∃ store',
        call.store.compactLevel call.pops call.level = .ok store' ∧ call.level = 1 ∧
          ∃ table ∈ store'.ssTable 1, (5, .del) ∈ table.keyValue := by
  obtain ⟨store, ran, held⟩ := Option.map_eq_some_iff.mp
    (show (run .none deepPuts).map (fun store => (store.depth, (store.ssTable 2).isEmpty,
      decide (∃ call ∈ store.calls sortPops 20 (.put 23 wide), call.level = 1 ∧ Apart call ∧
        SortedMap.newest 5 ((call.store.merging call.pops call.level).map Table.keyValue) =
            some .del ∧
          ((call.store.compactLevel call.pops call.level).toOption.map fun store' =>
            decide (call.level + 1 < store'.depth)) = some true))) =
        some (3, false, true) by decide +kernel)
  obtain ⟨depth, rest⟩ := Prod.mk.inj held
  obtain ⟨filled, found⟩ := Prod.mk.inj rest
  obtain ⟨call, mem, level, apart, won, returns⟩ := of_decide_eq_true found
  obtain ⟨store', returned, inner⟩ := Option.map_eq_some_iff.mp returns
  have ok := Outcome.eq_ok_of_toOption returned
  obtain ⟨unmarked, keeps⟩ :=
    markers_of_reachable (System.reachable_of_guarded (runs_of_run ran))
  rw [depth] at unmarked
  refine ⟨store, ran, depth, ?_, unmarked (by decide), call, mem, store', ok, level, ?_⟩
  · rintro empty
    rw [empty] at filled
    cases filled
  · have marker := keeps (Command.put 23 wide).invoke call mem apart store' ok
      (of_decide_eq_true inner) 5 won
    rwa [level] at marker

/-! ## A run that loses a marker -/

/-- A value that leaves no room in its table. -/
def full : Str :=
  .replicate (sstableSize - initialSize - 13) (by decide) 3

/-- Puts that fill three levels, widen a table of level 2 and delete its greatest key. -/
def markedPuts : List Command :=
  ((List.range 24).map fun i => .put (1000 + i) wide) ++
    [.put 3000 wide, .put 4025 narrow, .put 4040 narrow, .put 4050 narrow] ++
    ((List.range 15).map fun i => .put (5000 + 10 * i) wide) ++
    [.put 4000 wide, .put 4010 wide, .put 4020 wide, .put 4030 full, .put 6000 narrow,
      .del 4050] ++
    (List.range 4).map fun i => .put (7000 + i) wide

/-- The second compaction of the next put loses the marker of key 4050. -/
theorem not_keepsMarkers : ¬∀ store, system.Reachable store → ∀ invocation : Invocation,
    ∀ call ∈ store.calls invocation.pops invocation.fuel invocation.command, ∀ store',
      call.store.compactLevel call.pops call.level = .ok store' →
        call.level + 1 < store'.depth → KeepsMarkers call store' := by
  intro always
  obtain ⟨store, ran, held⟩ := Option.map_eq_some_iff.mp
    (show (run .none markedPuts).map
      (fun store => decide (∃ call ∈ store.calls sortPops 20 (.put 7004 wide),
        SortedMap.newest 4050 ((call.store.merging call.pops call.level).map Table.keyValue) =
            some .del ∧
          ((call.store.compactLevel call.pops call.level).toOption.map fun store' =>
            (decide (call.level + 1 < store'.depth),
              (store'.ssTable call.level).all fun table =>
                (SortedMap.find 4050 table.keyValue).isNone)) = some (true, true))) =
        some true by decide +kernel)
  obtain ⟨call, mem, won, lost⟩ := of_decide_eq_true held
  obtain ⟨store', returned, both⟩ := Option.map_eq_some_iff.mp lost
  obtain ⟨inner, absent⟩ := Prod.mk.inj both
  have ok := Outcome.eq_ok_of_toOption returned
  have keeps := always store (System.reachable_of_guarded (runs_of_run ran))
    (Command.put 7004 wide).invoke call mem store' ok (of_decide_eq_true inner)
  obtain ⟨table, held, marker⟩ := keeps 4050 won
  have gone := List.all_eq_true.mp absent table held
  rw [Option.isNone_iff_eq_none, SortedMap.find_eq_none_iff] at gone
  exact gone _ marker rfl

end KVStore

end ZnsLsm.Store
