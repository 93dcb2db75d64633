import ZnsLsm.Store.Freshness

/-!
# Which version of a key is newer

A lookup asks the levels from the top, and within a level the tables with greater time
stamps first.  A merge orders its tables by time stamp and least key alone.  Both take
the same version of every key exactly if no table of the target level ranks as high as
the picked tables with which it shares a key.
-/

namespace ZnsLsm.Store

open ZnsLsm.Outcome ZnsLsm.Transition

/-- The table stores a version of a key. -/
def Table.holds (key : Nat) (table : Table) : Bool :=
  (SortedMap.find key table.keyValue).isSome

namespace KVStore

variable {pops : List Table → List Table} {store store' : KVStore} {level : Nat}

/-- The table whose version of a key the merge keeps: the last one in `KVToCompact`. -/
def keptFrom (pops : List Table → List Table) (store : KVStore) (level key : Nat) :
    Option Table :=
  ((store.merging pops level).filter (Table.holds key)).getLast?

/-- The merged table in which a lookup would have found a key first. -/
def foundIn (store : KVStore) (level key : Nat) : Option Table :=
  ((store.picked level).reverse ++ (store.overlapped level).reverse).find? (Table.holds key)

/-- The merge and a lookup agree on the version of every key. -/
def Agrees (pops : List Table → List Table) (store : KVStore) (level : Nat) : Prop :=
  ∀ key, keptFrom pops store level key = foundIn store level key

/-- A key that a merged table of the target level shares with a picked one is in a picked
table that ranks above it. -/
def Precedes (store : KVStore) (level : Nat) : Prop :=
  ∀ lower ∈ store.overlapped level, ∀ entry ∈ lower.keyValue,
    (∃ upper ∈ store.picked level, Table.holds entry.1 upper) →
      ∃ upper ∈ store.picked level, Table.holds entry.1 upper ∧ lower.rank < upper.rank

instance (store : KVStore) (level : Nat) : Decidable (Precedes store level) :=
  inferInstanceAs (Decidable (∀ lower ∈ _, ∀ entry ∈ _, _ → _))

/-! ## The versions of a key -/

theorem exists_entry_of_holds {key : Nat} {table : Table} (holds : table.holds key) :
    ∃ entry ∈ table.keyValue, entry.1 = key := by
  obtain ⟨value, found⟩ := Option.isSome_iff_exists.mp holds
  exact ⟨(key, value), SortedMap.mem_of_find found, rfl⟩

/-- The newest value is that of the last table with the key. -/
theorem newest_eq_bind_getLast? (key : Nat) (tables : List Table) :
    SortedMap.newest key (tables.map Table.keyValue) =
      (tables.filter (Table.holds key)).getLast?.bind fun table =>
        SortedMap.find key table.keyValue := by
  induction tables with
  | nil => rfl
  | cons table tables ih =>
      rw [List.map_cons, SortedMap.newest, ih]
      by_cases holds : table.holds key
      · rw [List.filter_cons_of_pos holds, List.getLast?_cons]
        cases last : (tables.filter (Table.holds key)).getLast? with
        | none => rfl
        | some newer =>
            have mem := List.mem_of_mem_filter (List.mem_of_getLast? last)
            have found : newer.holds key :=
              (List.mem_filter.mp (List.mem_of_getLast? last)).2
            obtain ⟨value, isSome⟩ := Option.isSome_iff_exists.mp found
            simp only [Option.bind_some, Option.getD_some, isSome, Option.some_or]
      · rw [List.filter_cons_of_neg holds]
        rw [Table.holds, Bool.not_eq_true, Option.isSome_eq_false_iff,
          Option.isNone_iff_eq_none] at holds
        rw [holds, Option.or_none]

/-- The first value is that of the first table with the key. -/
theorem findSome?_eq_bind_find? (key : Nat) (tables : List Table) :
    tables.findSome? (fun table => SortedMap.find key table.keyValue) =
      (tables.find? (Table.holds key)).bind fun table =>
        SortedMap.find key table.keyValue := by
  induction tables with
  | nil => rfl
  | cons table tables ih =>
      rw [List.findSome?_cons, List.find?_cons, ih, Table.holds]
      cases found : SortedMap.find key table.keyValue with
      | none => rfl
      | some value => exact found.symm

/-- If both agree on the tables, the merge keeps the value that a lookup would find. -/
theorem Agrees.newest (agrees : Agrees pops store level) (key : Nat) :
    SortedMap.newest key ((store.merging pops level).map Table.keyValue) =
      ((store.picked level).reverse ++ (store.overlapped level).reverse).findSome?
        fun table => SortedMap.find key table.keyValue := by
  rw [newest_eq_bind_getLast?, findSome?_eq_bind_find?]
  exact congrArg (Option.bind · _) (agrees key)

/-! ## Ranks decide -/

/-- The last item of an ascending list is the one that is above all others. -/
theorem getLast?_of_greatest {tables : List Table}
    (ascending : tables.Pairwise fun first second => first.rank ≤ second.rank) {table : Table}
    (mem : table ∈ tables) (greatest : ∀ other ∈ tables, other ≠ table → other.rank < table.rank) :
    tables.getLast? = some table := by
  have nonempty := List.ne_nil_of_mem mem
  rw [List.getLast?_eq_some_getLast nonempty, Option.some_inj]
  by_contra ne
  have less := greatest _ (List.getLast_mem nonempty) ne
  have split := List.dropLast_append_getLast nonempty
  rw [← split, List.pairwise_append] at ascending
  rw [← split] at mem
  rcases List.mem_append.mp mem with before | last
  · exact not_lt.mpr (ascending.2.2 table before _ (List.mem_singleton.mpr rfl)) less
  · exact ne (List.mem_singleton.mp last).symm

/-- The first item of a set from its end is above all others. -/
theorem greatest_of_find?_reverse {tables : List Table}
    (sorted : KeyedSet.Sorted Table.rank tables) {key : Nat} {table : Table}
    (found : tables.reverse.find? (Table.holds key) = some table) :
    ∀ other ∈ tables, other.holds key → other ≠ table → other.rank < table.rank := by
  intro other mem holds ne
  obtain ⟨-, before, after, split, absent⟩ := List.find?_eq_some_iff_append.mp found
  have descending := List.pairwise_reverse.mpr sorted
  rw [split, List.pairwise_append, List.pairwise_cons] at descending
  have member := List.mem_reverse.mpr mem
  rw [split, List.mem_append, List.mem_cons] at member
  rcases member with first | same | last
  · have lacks := absent other first
    rw [holds] at lacks
    cases lacks
  · exact absurd same ne
  · exact descending.2.1.1 other last

theorem sorted_picked (sound : store.Sound) :
    KeyedSet.Sorted Table.rank (store.picked level) :=
  List.Pairwise.sublist (List.take_sublist ..) (sound.sets _)

theorem sorted_overlapped (sound : store.Sound) :
    KeyedSet.Sorted Table.rank (store.overlapped level) :=
  List.Pairwise.sublist List.filter_sublist (sound.sets _)

/-- The table in which a lookup finds a key ranks above all others that have it. -/
theorem greatest_of_foundIn (sound : store.Sound) (precedes : Precedes store level)
    {key : Nat} {table : Table} (found : foundIn store level key = some table) :
    ∀ other, other ∈ store.picked level ∨ other ∈ store.overlapped level →
      other.holds key → other ≠ table → other.rank < table.rank := by
  rw [foundIn, List.find?_append, Option.or_eq_some_iff] at found
  rcases found with above | ⟨absent, below⟩
  · have greatest := greatest_of_find?_reverse (sorted_picked sound) above
    have member := List.mem_reverse.mp (List.mem_of_find?_eq_some above)
    have tableHolds : table.holds key := List.find?_some above
    rintro other (picked | overlapped) holds ne
    · exact greatest other picked holds ne
    · obtain ⟨entry, mem, rfl⟩ := exists_entry_of_holds holds
      obtain ⟨upper, upperMem, upperHolds, less⟩ :=
        precedes other overlapped entry mem ⟨table, member, tableHolds⟩
      by_cases same : upper = table
      · rwa [← same]
      · exact less.trans (greatest upper upperMem upperHolds same)
  · rintro other (picked | overlapped) holds ne
    · have lacks := List.find?_eq_none.mp absent other (List.mem_reverse.mpr picked)
      exact absurd holds lacks
    · exact greatest_of_find?_reverse (sorted_overlapped sound) below other overlapped holds ne

theorem mem_of_foundIn {key : Nat} {table : Table}
    (found : foundIn store level key = some table) :
    (table ∈ store.picked level ∨ table ∈ store.overlapped level) ∧ table.holds key := by
  refine ⟨?_, List.find?_some found⟩
  have mem := List.mem_of_find?_eq_some found
  rw [List.mem_append, List.mem_reverse, List.mem_reverse] at mem
  exact mem

theorem Precedes.agrees (precedes : Precedes store level) (sound : store.Sound)
    (valid : Pops pops) : Agrees pops store level := by
  intro key
  cases found : foundIn store level key with
  | none =>
      rw [keptFrom, List.getLast?_eq_none_iff, List.filter_eq_nil_iff]
      intro table mem
      apply List.find?_eq_none.mp found
      rw [List.mem_append, List.mem_reverse, List.mem_reverse]
      exact (mem_merging valid).mp mem
  | some table =>
      obtain ⟨either, holds⟩ := mem_of_foundIn found
      apply getLast?_of_greatest
      · exact List.Pairwise.filter _ (valid _).2
      · exact List.mem_filter.mpr ⟨(mem_merging valid).mpr either, holds⟩
      · intro other mem ne
        obtain ⟨merged, otherHolds⟩ := List.mem_filter.mp mem
        exact greatest_of_foundIn sound precedes found other ((mem_merging valid).mp merged)
          otherHolds ne

/-! ## Where they disagree -/

/-- The merged tables of two levels are different tables. -/
theorem nodup_merged (sound : store.Sound) (pos : 1 ≤ level) :
    (store.picked level ++ store.overlapped level).Nodup := by
  refine List.nodup_append.mpr ⟨(sorted_picked sound).nodup, (sorted_overlapped sound).nodup, ?_⟩
  rintro upper picked lower overlapped rfl
  have above := (sound.tables _ upper (mem_picked picked)).level
  have here := (sound.tables _ upper (mem_overlapped overlapped)).level
  omega

/-- A queue that hands out the tables of the level above first keeps the version of a
table of the target level that ranks as high. -/
theorem rank_lt_of_agrees (sound : store.Sound) (pos : 1 ≤ level)
    (agrees : Agrees sortPops store level) {key : Nat} {upper lower : Table}
    (found : foundIn store level key = some upper) (picked : upper ∈ store.picked level)
    (overlapped : lower ∈ store.overlapped level) (holds : lower.holds key) :
    lower.rank < upper.rank := by
  by_contra notLess
  have le := not_lt.mp notLess
  have pair : [upper, lower].Sublist (store.picked level ++ store.overlapped level) :=
    List.Sublist.append (List.singleton_sublist.mpr picked)
      (List.singleton_sublist.mpr overlapped)
  have sorted : [upper, lower].Sublist (store.merging sortPops level) :=
    List.pair_sublist_insertionSort le pair
  have filtered := sorted.filter (Table.holds key)
  have upperHolds := (mem_of_foundIn found).2
  rw [List.filter_cons_of_pos upperHolds, List.filter_cons_of_pos holds,
    List.filter_nil] at filtered
  have last := agrees key
  rw [found, keptFrom] at last
  have nodup : ((store.merging sortPops level).filter (Table.holds key)).Nodup :=
    ((pops_sortPops _).1.nodup_iff.mpr (nodup_merged sound pos)).filter _
  obtain ⟨before, split⟩ := List.getLast?_eq_some_iff.mp last
  rw [split] at filtered nodup
  -- The upper table would stand twice in the list.
  have notBefore : upper ∉ before := by
    intro mem
    exact (List.nodup_append.mp nodup).2.2 upper mem upper (List.mem_singleton.mpr rfl) rfl
  obtain ⟨front, back, same, inFront, inBack⟩ := List.sublist_append_iff.mp filtered
  cases front with
  | nil =>
      rw [List.nil_append] at same
      subst same
      have short := inBack.length_le
      simp at short
  | cons first front =>
      rw [List.cons_append, List.cons.injEq] at same
      exact notBefore (inFront.subset (same.1 ▸ List.mem_cons_self))

/-- The merge keeps the version that a lookup finds, whatever the queue does with tables
that compare equal, exactly if picked tables rank above. -/
theorem agrees_iff_precedes (sound : store.Sound) (pos : 1 ≤ level) :
    (∀ pops, Pops pops → Agrees pops store level) ↔ Precedes store level := by
  constructor
  · rintro agrees lower overlapped entry mem ⟨upper, picked, holds⟩
    cases found : foundIn store level entry.1 with
    | none =>
        have lacks := List.find?_eq_none.mp found upper
          (List.mem_append.mpr (.inl (List.mem_reverse.mpr picked)))
        exact absurd holds lacks
    | some first =>
        have firstPicked : first ∈ store.picked level := by
          have split := found
          rw [foundIn, List.find?_append, Option.or_eq_some_iff] at split
          rcases split with above | ⟨absent, -⟩
          · exact List.mem_reverse.mp (List.mem_of_find?_eq_some above)
          · exact absurd holds (List.find?_eq_none.mp absent upper (List.mem_reverse.mpr picked))
        have lowerHolds : lower.holds entry.1 :=
          SortedMap.find_isSome_iff.mpr ⟨entry, mem, rfl⟩
        exact ⟨first, firstPicked, (mem_of_foundIn found).2,
          rank_lt_of_agrees sound pos (agrees sortPops pops_sortPops) found firstPicked
            overlapped lowerHolds⟩
  · intro precedes pops valid
    exact precedes.agrees sound valid

/-- In every compaction of every run, the merge keeps the version of each key that a
lookup would have found first, exactly if every key that the two levels share is in a
picked table that ranks above the table of the target level. -/
theorem agrees_iff_of_reachable (reachable : system.Reachable store) (invocation : Invocation)
    {call : CompactionCall}
    (mem : call ∈ store.calls invocation.pops invocation.fuel invocation.command) :
    (∀ pops, Pops pops → Agrees pops call.store call.level) ↔
      Precedes call.store call.level := by
  obtain ⟨-, key, s, merging, -⟩ := (stages_of_exec invocation.valid
    (stages_of_runs (runs_none reachable)) (command_none store invocation)).1 call mem
  have known := stageSound_of_stageRuns merging
  exact agrees_iff_precedes known.sound (known.level rfl).1

/-- A put that merges four tables of level 0 with three of level 1, two of which hold older
versions of their keys. -/
theorem agrees_after_compaction : ∃ store, run .none versionedPuts = some store ∧
    ∃ call ∈ store.calls sortPops 20 (.put 4 wide),
      (call.store.overlapped call.level).map Table.getMinKey = [3, 5, 7] ∧
        (foundIn call.store call.level 5).map Table.getMinKey = some 2 ∧
          ∀ pops, Pops pops → Agrees pops call.store call.level := by
  obtain ⟨store, ran, held⟩ := Option.map_eq_some_iff.mp
    (show (run .none versionedPuts).map
      (fun store => decide (∃ call ∈ store.calls sortPops 20 (.put 4 wide),
        (call.store.overlapped call.level).map Table.getMinKey = [3, 5, 7] ∧
          (foundIn call.store call.level 5).map Table.getMinKey = some 2 ∧
            Precedes call.store call.level)) = some true by decide +kernel)
  obtain ⟨call, mem, overlap, found, precedes⟩ := of_decide_eq_true held
  have reachable := System.reachable_of_guarded (runs_of_run ran)
  exact ⟨store, ran, call, mem, overlap, found,
    (agrees_iff_of_reachable reachable (Command.put 4 wide).invoke mem).mpr precedes⟩

/-- In the last compaction of the run that drops a table, the merge keeps an older
version of a key of level 2 than the one of level 1. -/
theorem not_agrees : ¬∀ store, system.Reachable store → ∀ invocation : Invocation,
    ∀ call ∈ store.calls invocation.pops invocation.fuel invocation.command,
      ∀ pops, Pops pops → Agrees pops call.store call.level := by
  intro always
  obtain ⟨store, ran, held⟩ := Option.map_eq_some_iff.mp
    (show (run .none tiedPuts).map
      (fun store => decide (∃ call ∈ store.calls sortPops 20 (.put 3008 wide),
        (keptFrom sortPops call.store call.level 900).map Table.id ≠
          (foundIn call.store call.level 900).map Table.id)) = some true by decide +kernel)
  obtain ⟨call, mem, differ⟩ := of_decide_eq_true held
  have agrees := always store (System.reachable_of_guarded (runs_of_run ran))
    (Command.put 3008 wide).invoke call mem sortPops pops_sortPops
  exact differ (congrArg (Option.map Table.id) (agrees 900))

end KVStore

end ZnsLsm.Store
