import Mathlib.Algebra.BigOperators.Group.Finset.Basic
import Mathlib.Algebra.Order.BigOperators.Group.Finset
import ZnsLsm.Store.Shape

/-!
# Every put ends

A compaction never adds entries to the tree, and a level that holds more tables than it
may holds more than `3 ^ level` entries.  So the recursion stops after as many levels
as there are entries, and a put fails only where a table would be built from nothing.
-/

namespace ZnsLsm.Store

open ZnsLsm.Outcome ZnsLsm.Transition
open ZnsLsm.Pool (sstableSize)

namespace KVStore

variable {pops : List Table → List Table} {store store' : KVStore} {level : Nat}

/-! ## The number of entries -/

def entryCount (tables : List Table) : Nat :=
  (tables.map fun table => table.keyValue.length).sum

/-- The number of entries in the tables of all levels. -/
def weight (store : KVStore) : Nat :=
  ∑ level ∈ Finset.range store.depth, entryCount (store.ssTable level)

theorem length_le_entryCount {tables : List Table}
    (nonempty : ∀ table ∈ tables, table.keyValue ≠ []) : tables.length ≤ entryCount tables := by
  induction tables with
  | nil => exact Nat.le_refl _
  | cons table tables ih =>
      have first := List.length_pos_iff.mpr (nonempty table List.mem_cons_self)
      have rest := ih fun other mem => nonempty other (List.mem_cons_of_mem _ mem)
      change tables.length + 1 ≤ table.keyValue.length + entryCount tables
      omega

theorem Sound.length_le_weight (sound : store.Sound) (level : Nat) :
    (store.ssTable level).length ≤ store.weight := by
  by_cases inside : level < store.depth
  · refine (length_le_entryCount fun table mem => (sound.tables level table mem).nonempty).trans ?_
    exact Finset.single_le_sum_of_canonicallyOrdered
      (f := fun level => entryCount (store.ssTable level)) (Finset.mem_range.mpr inside)
  · rw [(sound.bare level (Nat.le_of_not_lt inside)).1]
    exact Nat.zero_le _

@[simp]
theorem entryCount_append (first second : List Table) :
    entryCount (first ++ second) = entryCount first + entryCount second := by
  rw [entryCount, List.map_append, List.sum_append]
  rfl

theorem entryCount_perm {first second : List Table} (perm : first.Perm second) :
    entryCount first = entryCount second :=
  (perm.map _).sum_nat

@[simp]
theorem entryCount_fileTables (timestamp order : Nat) (files : List (List (Nat × Str))) :
    entryCount (fileTables level timestamp order files) = files.flatten.length := by
  rw [entryCount, List.length_flatten]
  have same := congrArg (List.map List.length)
    (map_keyValue_fileTables level timestamp order files)
  rw [List.map_map] at same
  exact congrArg List.sum same

/-- The new tables hold at most the entries of the merged ones. -/
theorem entryCount_outTables_le (ordered : store.Ordered) (valid : Pops pops) :
    entryCount (store.outTables pops level) ≤
      entryCount (store.picked level) + entryCount (store.overlapped level) := by
  have merged := SortedMap.length_merge_le (ordered.merging valid level)
  have survivors : (store.survivors pops level).length ≤
      (SortedMap.merge ((store.merging pops level).map Table.keyValue)).length :=
    List.length_filter_le ..
  rw [outTables, entryCount_fileTables, outFiles, flatten_cut, List.nil_append]
  rw [List.map_map] at merged
  calc (store.survivors pops level).length
      ≤ entryCount (store.merging pops level) := survivors.trans merged
    _ = entryCount (store.picked level ++ store.overlapped level) :=
        entryCount_perm (valid _).1
    _ = _ := entryCount_append ..

/-- The tables of the target level that are not merged. -/
theorem entryCount_untouched (sorted : KeyedSet.Sorted Table.rank (store.ssTable level)) :
    entryCount (KeyedSet.eraseAll Table.rank (store.overlapped level) (store.ssTable level)) +
      entryCount (store.overlapped level) = entryCount (store.ssTable level) := by
  rw [overlapped, overlapping, sorted.eraseAll_filter, ← entryCount_append]
  exact entryCount_perm (List.perm_append_comm.trans (List.filter_append_perm ..))

theorem entryCount_target_le (sound : store.Sound) (valid : Pops pops)
    (compacted : store.Compacted pops level store') :
    entryCount (store'.ssTable level) ≤
      entryCount (store.picked level) + entryCount (store.ssTable level) := by
  have inserted := KeyedSet.sum_eraseAll_emplaceAll_le Table.rank
    (fun table => table.keyValue.length) (store.overlapped level)
    (store.outTables pops level) (store.ssTable level)
  rw [← compacted.target] at inserted
  change entryCount (store'.ssTable level) ≤ entryCount (store.outTables pops level) +
    entryCount (KeyedSet.eraseAll Table.rank (store.overlapped level) (store.ssTable level))
    at inserted
  have new : entryCount (store.outTables pops level) ≤
      entryCount (store.picked level) + entryCount (store.overlapped level) :=
    entryCount_outTables_le sound.ordered valid
  have old := entryCount_untouched (sound.sets level)
  omega

theorem entryCount_above (compacted : store.Compacted pops level store') :
    entryCount (store'.ssTable (level - 1)) + entryCount (store.picked level) =
      entryCount (store.ssTable (level - 1)) := by
  rw [compacted.above, picked, Nat.add_comm, ← entryCount_append, List.take_append_drop]

/-- Two values of a function may change if their sum does not grow. -/
theorem sum_le_of_two {f g : Nat → Nat} {count a b : Nat} (ne : a ≠ b) (aLt : a < count)
    (bLt : b < count) (others : ∀ i, i ≠ a → i ≠ b → g i = f i)
    (two : g a + g b ≤ f a + f b) :
    ∑ i ∈ Finset.range count, g i ≤ ∑ i ∈ Finset.range count, f i := by
  have split : ∀ h : Nat → Nat, ∑ i ∈ Finset.range count, h i =
      h a + (h b + ∑ i ∈ ((Finset.range count).erase a).erase b, h i) := by
    intro h
    rw [← Finset.add_sum_erase _ h (Finset.mem_range.mpr aLt),
      ← Finset.add_sum_erase _ h
        (Finset.mem_erase.mpr ⟨ne.symm, Finset.mem_range.mpr bLt⟩)]
  have rest : ∑ i ∈ ((Finset.range count).erase a).erase b, g i =
      ∑ i ∈ ((Finset.range count).erase a).erase b, f i := by
    apply Finset.sum_congr rfl
    intro i mem
    obtain ⟨neB, memA⟩ := Finset.mem_erase.mp mem
    exact others i (Finset.mem_erase.mp memA).1 neB
  rw [split g, split f, rest]
  omega

/-- A compaction never adds entries. -/
theorem Compacted.weight_le (sound : store.Sound) (valid : Pops pops) (pos : 1 ≤ level)
    (compacted : store.Compacted pops level store') :
    store'.weight ≤ store.weight := by
  have same : ∑ i ∈ Finset.range (max store.depth (level + 1)), entryCount (store.ssTable i) =
      store.weight := by
    apply (Finset.sum_subset (Finset.range_mono (Nat.le_max_left ..)) ?_).symm
    intro i _ outside
    rw [Finset.mem_range, Nat.not_lt] at outside
    rw [(sound.bare i outside).1]
    rfl
  rw [weight, compacted.depth, ← same]
  apply sum_le_of_two (a := level - 1) (b := level)
  · omega
  · omega
  · omega
  · intro i ne ne'
    rw [compacted.others i ne ne']
  · have target := entryCount_target_le sound valid compacted
    have above := entryCount_above compacted
    omega

/-! ## The recursion ends -/

/-- A compaction has enough tables to pick. -/
theorem enough_of_shaped {key : Nat} {s : Str} (shaped : StageShaped (.merging level key s) store) :
    store.compactNum level ≤ (store.ssTable (level - 1)).length := by
  cases shaped with
  | first length _ =>
      rw [compactNum, if_pos rfl]
      exact Nat.le_of_eq length.symm
  | later two _ _ =>
      rw [compactNum, if_neg (by omega)]
      exact Nat.sub_le ..

/-- A compaction would write an empty file. -/
def Starved (call : CompactionCall) : Prop :=
  [] ∈ call.store.outFiles call.pops call.level

/-- A compaction at a stage that a run reaches fails exactly if it would write an empty
file. -/
theorem compactLevel_of_stageRuns {guard : Guard} (valid : Pops pops) {key : Nat} {s : Str}
    (reached : StageRuns guard (.merging level key s) store) :
    Ends (fun store' => ¬Starved ⟨pops, store, level⟩ ∧ store.Compacted pops level store')
      (fun fault => Starved ⟨pops, store, level⟩ ∧ fault = .emptyTable)
      (store.compactLevel pops level) := by
  obtain ⟨sound, range⟩ := stageSound_of_stageRuns reached
  obtain ⟨pos, le⟩ := range rfl
  have shaped := shaped_of_stageRuns reached
  refine (sound.ordered.compactLevel valid pos le).imp ?_ ?_
  · intro store' compacted
    exact ⟨compacted.nonempty, compacted⟩
  · rintro fault (⟨few, -⟩ | ⟨-, empty, same⟩)
    · exact absurd (enough_of_shaped shaped) (Nat.not_le.mpr few)
    · exact ⟨empty, same⟩

/-- The recursion ends within as many levels as there are entries, or where a compaction
would write an empty file. -/
theorem cascade_ends {guard : Guard} (valid : Pops pops) {key : Nat} {s : Str}
    {bound fuel : Nat} (reached : StageRuns guard (.merging level key s) store)
    (allowed : ∀ call ∈ cascadeCalls pops fuel level store, guard.merges call)
    (light : store.weight ≤ bound) (near : level ≤ bound + 2) (enough : bound + 3 ≤ fuel + level) :
    Ends
      (fun store' => StageRuns guard (.settled key s)
        { store' with levelNum := Function.update store'.levelNum 0 0 })
      (fun fault => fault = .emptyTable ∧
        ∃ call ∈ cascadeCalls pops fuel level store, Starved call)
      (compactionForLevel pops fuel level store) := by
  induction fuel generalizing level store with
  | zero => omega
  | succ fuel ih =>
      obtain ⟨sound, range⟩ := stageSound_of_stageRuns reached
      obtain ⟨pos, le⟩ := range rfl
      rw [cascadeCalls] at allowed ⊢
      rw [compactionForLevel]
      split
      · rename_i room
        exact stageRuns_step (.stop fun overfull => overfull_iff.mp overfull room) trivial reached
      · rename_i full
        rw [if_neg full] at allowed
        have overfull := overfull_iff.mpr full
        have compacts := compactLevel_of_stageRuns valid reached
        cases merged : store.compactLevel pops level with
        | error fault =>
            obtain ⟨starved, rfl⟩ := compacts.of_error merged
            exact ⟨rfl, _, List.mem_cons_self, starved⟩
        | ok next =>
            rw [merged] at allowed
            obtain ⟨-, compacted⟩ := compacts.of_ok merged
            have lighter := compacted.weight_le sound valid pos
            have reached' : StageRuns guard (.merging (level + 1) key s) next :=
              stageRuns_step (.merge valid overfull merged) (allowed _ List.mem_cons_self) reached
            refine (ih reached' (fun call mem => allowed call (List.mem_cons_of_mem _ mem))
              (lighter.trans light) ?_ (by omega)).imp (fun _ => id) ?_
            · rcases overfull with rfl | many
              · omega
              · have few := sound.length_le_weight (level - 1)
                have grows : level - 1 + 1 < 3 ^ (level - 1 + 1) := Nat.lt_pow_self (by decide)
                rw [upperNum] at many
                omega
            · rintro fault ⟨same, call, mem, starved⟩
              exact ⟨same, call, List.mem_cons_of_mem _ mem, starved⟩

/-- Compactions leave the memtable alone. -/
theorem memTable_cascade (valid : Pops pops) {fuel key : Nat} {s : Str}
    (reached : StageRuns .none (.merging level key s) store)
    (ok : compactionForLevel pops fuel level store = .ok store') :
    store'.memTable = store.memTable := by
  induction fuel generalizing level store with
  | zero => cases ok
  | succ fuel ih =>
      rw [compactionForLevel] at ok
      split at ok
      · cases ok
        rfl
      · rename_i full
        cases merged : store.compactLevel pops level with
        | error fault =>
            rw [merged] at ok
            cases ok
        | ok next =>
            rw [merged] at ok
            have compacted := ((compactLevel_of_stageRuns valid reached).of_ok merged).2
            have reached' : StageRuns .none (.merging (level + 1) key s) next :=
              stageRuns_step (.merge valid (overfull_iff.mpr full) merged) trivial reached
            exact (ih reached' ok).trans compacted.memTable

theorem memTable_compact (valid : Pops pops) {fuel key : Nat} {s : Str}
    (reached : StageRuns .none (.flushed key s) store)
    (ok : compact pops fuel store = .ok store') : store'.memTable = store.memTable := by
  rw [compact] at ok
  split at ok
  · rename_i full
    cases cascade : compactionForLevel pops fuel 1 store with
    | error fault =>
        rw [cascade] at ok
        cases ok
    | ok merged =>
        rw [cascade] at ok
        cases ok
        change merged.memTable = store.memTable
        exact memTable_cascade valid (stageRuns_step (.descend full) trivial reached) cascade
  · cases ok
    rfl

/-- How a put fails: the memtable is empty and the entry is too large, or a compaction
would write an empty file. -/
def PutFault (pops : List Table → List Table) (fuel : Nat) (store : KVStore) (key : Nat)
    (s : Str) (fault : Fault) : Prop :=
  fault = .nullNode ∧ store.memTable.nodes = [] ∧ sstableSize < (store.charged key s).memory ∨
    fault = .emptyTable ∧ ∃ call ∈ store.putCalls pops fuel key s, Starved call

theorem put_of_small {key : Nat} {s : Str} (small : ¬sstableSize < (store.charged key s).memory)
    (fuel : Nat) : store.put pops fuel key s =
      .ok (insert { store with memTable := store.charged key s } key s) := by
  rw [put]
  change (if sstableSize < (store.charged key s).memory then _ else _) = _
  rw [if_neg small]
  rfl

theorem put_of_error {key : Nat} {s : Str} (large : sstableSize < (store.charged key s).memory)
    {fault : Fault} (flushed : store.flush (store.charged key s) = .error fault) (fuel : Nat) :
    store.put pops fuel key s = .error fault := by
  rw [put]
  change (if sstableSize < (store.charged key s).memory then
    store.flush (store.charged key s) >>= _ else _) = _
  rw [if_pos large, flushed]
  rfl

theorem put_of_flushed {key : Nat} {s : Str} (large : sstableSize < (store.charged key s).memory)
    {next : KVStore} (flushed : store.flush (store.charged key s) = .ok next) (fuel : Nat) :
    store.put pops fuel key s =
      (compact pops fuel (next.recharge (store.memTable.get key) s) >>=
        fun store => Except.ok (store.insert key s)) := by
  rw [put]
  change (if sstableSize < (store.charged key s).memory then
    store.flush (store.charged key s) >>= _ else _) = _
  rw [if_pos large, flushed]
  rfl

theorem putCalls_of_flushed {key : Nat} {s : Str}
    (large : sstableSize < (store.charged key s).memory) {next : KVStore}
    (flushed : store.flush (store.charged key s) = .ok next) (fuel : Nat) :
    store.putCalls pops fuel key s =
      if level0 < next.levelNum 0 then
        cascadeCalls pops fuel 1 (next.recharge (store.memTable.get key) s)
      else
        [] := by
  rw [putCalls, if_pos large, flushed]

/-- Every put ends. -/
theorem put_ends {guard : Guard} (valid : Pops pops) {key : Nat} {s : Str}
    (reached : StageRuns guard .idle store) (puts : guard.puts store key s) :
    ∃ bound, ∀ fuel ≥ bound,
      (∀ call ∈ store.putCalls pops fuel key s, guard.merges call) →
        Ends (StageRuns guard .idle) (PutFault pops fuel store key s)
          (store.put pops fuel key s) := by
  by_cases large : sstableSize < (store.charged key s).memory
  · cases flushed : store.flush (store.charged key s) with
    | error fault =>
        refine ⟨0, fun fuel _ _ => ?_⟩
        obtain ⟨empty, rfl⟩ := (flush_ends _ _).of_error flushed
        rw [put_of_error large flushed]
        exact .inl ⟨rfl, empty, large⟩
    | ok next =>
        have reached' : StageRuns guard (.flushed key s)
            (next.recharge (store.memTable.get key) s) :=
          stageRuns_step (.flush large flushed) puts reached
        refine ⟨next.weight + 2, fun fuel ge allowed => ?_⟩
        have callsEq : store.putCalls pops fuel key s = _ := putCalls_of_flushed large flushed fuel
        rw [callsEq] at allowed
        rw [put_of_flushed large flushed, compact]
        change Ends _ _ ((if level0 < next.levelNum 0 then _ else _) >>= _)
        split
        · rename_i full
          rw [if_pos full] at allowed callsEq
          have descended : StageRuns guard (.merging 1 key s)
              (next.recharge (store.memTable.get key) s) :=
            stageRuns_step (.descend full) trivial reached'
          have light : (next.recharge (store.memTable.get key) s).weight ≤ next.weight :=
            Nat.le_refl _
          have ends := cascade_ends valid descended allowed light (by omega) (by omega)
          cases cascade : compactionForLevel pops fuel 1
              (next.recharge (store.memTable.get key) s) with
          | error fault =>
              refine .inr ?_
              rw [callsEq]
              exact ends.of_error cascade
          | ok merged => exact stageRuns_step .insert trivial (ends.of_ok cascade)
        · rename_i room
          exact stageRuns_step .insert trivial
            (stageRuns_step (.skip (Nat.le_of_not_lt room)) trivial reached')
  · refine ⟨0, fun fuel _ _ => ?_⟩
    rw [put_of_small large]
    exact stageRuns_step (.write (Nat.le_of_not_lt large)) puts reached

/-! ## Every command ends -/

/-- The put that a command makes. -/
inductive Puts (store : KVStore) : Command → KVStore → Nat → Str → Prop
  | put {key : Nat} {s : Str} : Puts store (.put key s) store key s
  | del {key : Nat} : (store.get key).1 ≠ .empty →
      Puts store (.del key) (store.get key).2 key .del

/-- How a command fails. -/
def ExecFault (pops : List Table → List Table) (fuel : Nat) (store : KVStore)
    (command : Command) (fault : Fault) : Prop :=
  ∃ before key s, store.Puts command before key s ∧ PutFault pops fuel before key s fault

theorem exec_ends {guard : Guard} (valid : Pops pops) {command : Command}
    (reached : StageRuns guard .idle store) :
    ∃ bound, ∀ fuel ≥ bound, guard.command store ⟨command, pops, valid, fuel⟩ →
      Ends (fun result => StageRuns guard .idle result.2) (ExecFault pops fuel store command)
        (store.exec pops fuel command) := by
  cases command with
  | put key s =>
      by_cases puts : guard.puts store key s
      · obtain ⟨bound, ends⟩ := put_ends valid reached puts
        refine ⟨bound, fun fuel ge allowed => ?_⟩
        refine ((ends fuel ge allowed.2).imp (fun _ => id) ?_).bind fun next _ settled => settled
        exact fun fault failed => ⟨store, key, s, .put, failed⟩
      · exact ⟨0, fun fuel _ allowed => absurd allowed.1 puts⟩
  | get key => exact ⟨0, fun fuel _ _ => stageRuns_step .get trivial reached⟩
  | del key =>
      have asked : StageRuns guard .idle (store.get key).2 := stageRuns_step .get trivial reached
      by_cases present : (store.get key).1 ≠ .empty
      · by_cases puts : guard.puts (store.get key).2 key .del
        · obtain ⟨bound, ends⟩ := put_ends valid asked puts
          refine ⟨bound, fun fuel ge allowed => ?_⟩
          have merges := allowed.2
          rw [calls, if_pos present] at merges
          rw [exec_del_of_found present]
          refine ((ends fuel ge merges).imp (fun _ => id) ?_).bind fun next _ settled => settled
          exact fun fault failed => ⟨_, key, .del, .del present, failed⟩
        · exact ⟨0, fun fuel _ allowed => absurd (allowed.1 present) puts⟩
      · refine ⟨0, fun fuel _ _ => ?_⟩
        rw [exec_del_of_absent present]
        exact asked

end KVStore

end ZnsLsm.Store
