import ZnsLsm.Store.Entries
import ZnsLsm.Store.Termination

/-!
# Values that are too large for a table

The flush builds a table from nothing when the first entry of all is too large, and a
compaction when the least key that survives its merge has a value that is too large:
the size tests fire before anything is collected.  A command whose own entry fits returns
exactly if none of its compactions starves in this way, and if every entry of a run fits a
table, every command does.
-/

namespace ZnsLsm.Store

open ZnsLsm.Outcome ZnsLsm.Transition
open ZnsLsm.Pool (sstableSize)

namespace KVStore

variable {pops : List Table → List Table} {store store' : KVStore} {level : Nat}

/-! ## The empty memtable -/

/-- Only a new store has an empty memtable between two commands. -/
theorem stageInvariant_emptied (guard : Guard) :
    StageInvariant guard Anything fun stage store =>
      stage = .idle → store.memTable.nodes = [] → store.memTable.memory = initialSize where
  new _ _ := rfl
  write _ _ _ _ _ _ empty := (SortedMap.assign_ne_nil _ _ _ empty).elim
  flush _ _ _ _ _ _ same := by cases same
  skip _ _ _ _ same := by cases same
  descend _ _ _ _ same := by cases same
  merge _ _ _ _ _ _ _ _ same := by cases same
  stop _ _ _ _ same := by cases same
  insert _ _ _ _ empty := (SortedMap.assign_ne_nil _ _ _ empty).elim
  get _ emptied _ := emptied

theorem memory_of_empty {guard : Guard} (reached : StageRuns guard .idle store)
    (empty : store.memTable.nodes = []) : store.memTable.memory = initialSize :=
  (stageInvariant_emptied guard).holds (fun _ => trivial) reached rfl empty

/-- The first entry of all is flushed without company exactly if it does not fit. -/
theorem large_of_empty_iff {guard : Guard} (reached : StageRuns guard .idle store)
    (empty : store.memTable.nodes = []) (key : Nat) (s : Str) :
    sstableSize < (store.charged key s).memory ↔ ¬Fits s := by
  have sound := (stageSound_of_stageRuns reached).sound.memTable
  have absent : store.memTable.get key = .empty := by
    rw [sound.get, empty]
    rfl
  have small : initialSize + entrySize s < 2 ^ 64 := by
    have bound := s.size_lt
    rw [entrySize, initialSize, filterSize]
    omega
  rw [charged]
  dsimp only
  rw [charge, absent, memory_of_empty reached empty, if_neg fun ne => ne rfl,
    Nat.mod_eq_of_lt small, Fits, Nat.not_le]

/-! ## The least key that survives a merge -/

/-- The merge keeps a value of a key, its newest one among the merged tables, unless it
is a deletion marker on the last level. -/
def Survives (call : CompactionCall) (key : Nat) (value : Str) : Prop :=
  SortedMap.newest key ((call.store.merging call.pops call.level).map Table.keyValue) =
      some value ∧
    ¬(call.store.depth ≤ call.level + 1 ∧ value = .del)

/-- The least key that survives has a value that fits a table. -/
def LeastFits (call : CompactionCall) : Prop :=
  ∀ key value, Survives call key value →
    (∀ other value, Survives call other value → key ≤ other) → Fits value

theorem mem_survivors_iff (ordered : store.Ordered) (valid : Pops pops) {key : Nat}
    {value : Str} : (key, value) ∈ store.survivors pops level ↔
      Survives ⟨pops, store, level⟩ key value := by
  have sorted := ordered.merging valid level
  rw [survivors, kept, List.mem_filter, ← (SortedMap.sorted_merge sorted).find_eq_some_iff,
    SortedMap.find_merge sorted, Survives]
  apply and_congr_right
  intro _
  by_cases last : store.depth ≤ level + 1
  · by_cases marker : value = .del
    · simp [last, marker]
    · simp [last, marker]
  · simp [last]

theorem starved_iff (ordered : store.Ordered) (valid : Pops pops) :
    Starved ⟨pops, store, level⟩ ↔ ¬LeastFits ⟨pops, store, level⟩ := by
  have sorted : SortedMap.Sorted (store.survivors pops level) :=
    List.Pairwise.filter _ (SortedMap.sorted_merge (ordered.merging valid level))
  change [] ∈ cut initialSize [] (store.survivors pops level) ↔ _
  rw [nil_mem_cut_iff]
  constructor
  · rintro ⟨entry, rest, same, large⟩ fits
    rw [same] at sorted
    refine Nat.not_le.mpr large (fits entry.1 entry.2 ?_ ?_)
    · exact (mem_survivors_iff ordered valid).mp (same ▸ List.mem_cons_self)
    · intro other value survives
      have mem := (mem_survivors_iff ordered valid).mpr survives
      rw [same] at mem
      rcases List.mem_cons.mp mem with equal | later
      · exact (congrArg Prod.fst equal).ge
      · exact (sorted.head_lt later).le
  · intro unfit
    simp only [LeastFits, not_forall] at unfit
    obtain ⟨key, value, survives, least, large⟩ := unfit
    have mem := (mem_survivors_iff ordered valid).mpr survives
    cases same : store.survivors pops level with
    | nil =>
        rw [same] at mem
        cases mem
    | cons entry rest =>
        rw [same] at mem sorted
        refine ⟨entry, rest, rfl, ?_⟩
        have le : key ≤ entry.1 := least entry.1 entry.2
          ((mem_survivors_iff ordered valid).mp (same ▸ List.mem_cons_self))
        rcases List.mem_cons.mp mem with rfl | later
        · exact Nat.lt_of_not_le large
        · exact absurd (sorted.head_lt later) (Nat.not_lt.mpr le)

/-! ## Tables built from nothing -/

/-- The computation builds a table from nothing. -/
def FromNothing {α : Type} (result : Except Fault α) : Prop :=
  result = .error .nullNode ∨ result = .error .emptyTable

@[simp]
theorem fromNothing_error {α : Type} {fault : Fault} :
    FromNothing (.error fault : Except Fault α) ↔ fault = .nullNode ∨ fault = .emptyTable := by
  simp [FromNothing]

theorem not_fromNothing_ok {α : Type} (value : α) : ¬FromNothing (.ok value) := by
  simp [FromNothing]

/-- What follows without a fault does not matter. -/
@[simp]
theorem fromNothing_bind {α β : Type} {first : Except Fault α} (next : α → β) :
    FromNothing (first >>= fun value => .ok (next value)) ↔ FromNothing first := by
  cases first with
  | error fault => exact fromNothing_error.trans fromNothing_error.symm
  | ok value => exact iff_of_false (not_fromNothing_ok _) (not_fromNothing_ok _)

theorem cascade_fromNothing_iff (valid : Pops pops) {fuel key : Nat} {s : Str}
    (reached : StageRuns .none (.merging level key s) store) :
    FromNothing (compactionForLevel pops fuel level store) ↔
      ∃ call ∈ cascadeCalls pops fuel level store, Starved call := by
  induction fuel generalizing level store with
  | zero =>
      refine iff_of_false ?_ ?_
      · rintro (fault | fault)
        · cases fault
        · cases fault
      · rintro ⟨call, mem, -⟩
        cases mem
  | succ fuel ih =>
      rw [cascadeCalls, compactionForLevel]
      split
      · refine iff_of_false (not_fromNothing_ok _) ?_
        rintro ⟨call, mem, -⟩
        cases mem
      · rename_i full
        have compacts := compactLevel_of_stageRuns valid reached
        cases merged : store.compactLevel pops level with
        | error fault =>
            obtain ⟨starved, rfl⟩ := compacts.of_error merged
            exact iff_of_true (.inr rfl) ⟨_, List.mem_cons_self, starved⟩
        | ok next =>
            obtain ⟨nonempty, -⟩ := compacts.of_ok merged
            refine (ih (stageRuns_step (.merge valid (overfull_iff.mpr full) merged) trivial
              reached)).trans ?_
            constructor
            · rintro ⟨call, mem, starved⟩
              exact ⟨call, List.mem_cons_of_mem _ mem, starved⟩
            · rintro ⟨call, mem, starved⟩
              rcases List.mem_cons.mp mem with rfl | later
              · exact absurd starved nonempty
              · exact ⟨call, later, starved⟩

/-- A put builds a table from nothing exactly if it is the first one and its entry does
not fit, or if one of its compactions would write an empty file. -/
theorem put_fromNothing_iff (valid : Pops pops) {fuel key : Nat} {s : Str}
    (reached : StageRuns .none .idle store) :
    FromNothing (store.put pops fuel key s) ↔
      (store.memTable.nodes = [] ∧ ¬Fits s) ∨
        ∃ call ∈ store.putCalls pops fuel key s, Starved call := by
  by_cases large : sstableSize < (store.charged key s).memory
  · cases flushed : store.flush (store.charged key s) with
    | error fault =>
        obtain ⟨empty, rfl⟩ := (flush_ends _ _).of_error flushed
        rw [put_of_error large flushed]
        exact iff_of_true (.inl rfl)
          (.inl ⟨empty, (large_of_empty_iff reached empty key s).mp large⟩)
    | ok next =>
        have filled : store.memTable.nodes ≠ [] := ((flush_ends _ _).of_ok flushed).nonempty
        rw [put_of_flushed large flushed, fromNothing_bind, putCalls_of_flushed large flushed,
          compact]
        rw [or_iff_right fun both => filled both.1]
        change FromNothing (if level0 < next.levelNum 0 then _ else _) ↔ _
        split
        · rename_i full
          have reached' : StageRuns .none (.flushed key s)
              (next.recharge (store.memTable.get key) s) :=
            stageRuns_step (.flush large flushed) trivial reached
          have descended : StageRuns .none (.merging 1 key s)
              (next.recharge (store.memTable.get key) s) :=
            stageRuns_step (.descend full) trivial reached'
          exact (fromNothing_bind _).trans (cascade_fromNothing_iff valid descended)
        · refine iff_of_false (not_fromNothing_ok _) ?_
          rintro ⟨call, mem, -⟩
          cases mem
  · rw [put_of_small large]
    refine iff_of_false (not_fromNothing_ok _) ?_
    rintro (⟨empty, unfit⟩ | ⟨call, mem, -⟩)
    · exact large ((large_of_empty_iff reached empty key s).mpr unfit)
    · rw [putCalls, if_neg large] at mem
      cases mem

/-- The first entry of all fits a table, and so does the value of the least key that
survives a merge. -/
def Guard.fed : Guard where
  puts store _ s := store.memTable.nodes = [] → Fits s
  merges := LeastFits

/-- A call starves exactly if its least surviving key has a value that is too large. -/
theorem starved_iff_of_call (valid : Pops pops) {fuel : Nat} {command : Command}
    (reached : StageRuns .none .idle store) {call : CompactionCall}
    (mem : call ∈ store.calls pops fuel command) : Starved call ↔ ¬LeastFits call := by
  obtain ⟨same, key, s, merging, -⟩ :=
    (stages_of_exec valid reached (command_none store _)).1 call mem
  rcases call with ⟨pops', store', level⟩
  cases same
  exact starved_iff (stageSound_of_stageRuns merging).sound.ordered valid

theorem exec_fromNothing_iff (reached : StageRuns .none .idle store) (invocation : Invocation) :
    FromNothing (store.exec invocation.pops invocation.fuel invocation.command) ↔
      ¬Guard.fed.command store invocation := by
  rcases invocation with ⟨command, pops, valid, fuel⟩
  have starved : (∃ call ∈ store.calls pops fuel command, Starved call) ↔
      ¬∀ call ∈ store.calls pops fuel command, LeastFits call := by
    simp only [not_forall, exists_prop]
    constructor
    · rintro ⟨call, mem, holds⟩
      exact ⟨call, mem, (starved_iff_of_call valid reached mem).mp holds⟩
    · rintro ⟨call, mem, unfit⟩
      exact ⟨call, mem, (starved_iff_of_call valid reached mem).mpr unfit⟩
  cases command with
  | put key s =>
      change FromNothing (store.put pops fuel key s >>= fun store => .ok (Reply.done, store)) ↔
        ¬((store.memTable.nodes = [] → Fits s) ∧
          ∀ call ∈ store.calls pops fuel (.put key s), LeastFits call)
      rw [fromNothing_bind, put_fromNothing_iff valid reached, not_and_or, ← starved,
        Classical.not_imp]
      rfl
  | get key =>
      refine iff_of_false (not_fromNothing_ok _) ?_
      rw [not_not]
      exact ⟨trivial, fun call mem => by cases mem⟩
  | del key =>
      have commandIff : Guard.fed.command store ⟨.del key, pops, valid, fuel⟩ ↔
          ∀ call ∈ store.calls pops fuel (.del key), LeastFits call :=
        and_iff_right fun _ _ => fits_del
      have asked : StageRuns .none .idle (store.get key).2 :=
        stageRuns_step .get trivial reached
      rw [commandIff, ← starved]
      change FromNothing (store.exec pops fuel (.del key)) ↔ _
      by_cases found : (store.get key).1 ≠ .empty
      · rw [exec_del_of_found found, fromNothing_bind, calls, if_pos found,
          put_fromNothing_iff valid asked]
        exact or_iff_right fun both => both.2 fits_del
      · rw [exec_del_of_absent found, calls, if_neg found]
        refine iff_of_false (not_fromNothing_ok _) ?_
        rintro ⟨call, mem, -⟩
        cases mem

/-! ## Runs that build no table from nothing -/

/-- Invocations one after the other. -/
def execAll : KVStore → List Invocation → Except Fault KVStore
  | store, [] => .ok store
  | store, invocation :: rest =>
      match store.exec invocation.pops invocation.fuel invocation.command with
      | .error fault => .error fault
      | .ok (_, next) => execAll next rest

/-- Every step of a run meets a condition. -/
def AllMeet (guard : Guard) : KVStore → List Invocation → Prop
  | _, [] => True
  | store, invocation :: rest =>
      guard.command store invocation ∧
        match store.exec invocation.pops invocation.fuel invocation.command with
        | .error _ => True
        | .ok (_, next) => AllMeet guard next rest

theorem fromNothing_iff_of_stages (invocations : List Invocation)
    (reached : StageRuns .none .idle store) :
    ¬FromNothing (store.execAll invocations) ↔ AllMeet .fed store invocations := by
  induction invocations generalizing store with
  | nil => exact iff_of_true (not_fromNothing_ok _) trivial
  | cons invocation rest ih =>
      have step := exec_fromNothing_iff reached invocation
      rw [execAll, AllMeet]
      cases result : store.exec invocation.pops invocation.fuel invocation.command with
      | error fault =>
          rw [result, fromNothing_error] at step
          simp only [fromNothing_error, and_true]
          rw [step, not_not]
      | ok pair =>
          rcases pair with ⟨reply, next⟩
          rw [result] at step
          have meets := not_not.mp fun unmet => not_fromNothing_ok _ (step.mpr unmet)
          have reached' := (stages_of_exec invocation.valid reached
            (command_none store invocation)).2 reply next result
          exact (ih reached').trans (and_iff_right meets).symm

/-- A run builds no table from nothing exactly if its first entry fits a table and so
does, in every compaction, the value of the least key that survives the merge. -/
theorem not_fromNothing_iff_fed (invocations : List Invocation) :
    ¬FromNothing (new.execAll invocations) ↔ AllMeet .fed new invocations :=
  fromNothing_iff_of_stages invocations (.init rfl)

/-- The first put of a value of the size of a table. -/
theorem fromNothing_of_large_put : ¬∀ invocations, ¬FromNothing (new.execAll invocations) := by
  intro never
  refine never [(Command.put 0 (.replicate sstableSize (by decide) 1)).invoke] (.inl ?_)
  rfl

/-! ## Runs whose entries fit -/

/-- Every entry fits a table. -/
def Guard.fits : Guard where
  puts _ _ s := Fits s
  merges _ := True

instance (store : KVStore) (key : Nat) (s : Str) : Decidable (Guard.fits.puts store key s) :=
  inferInstanceAs (Decidable (Fits s))

instance (call : CompactionCall) : Decidable (Guard.fits.merges call) :=
  inferInstanceAs (Decidable True)

/-- No compaction starves if every entry fits. -/
theorem not_starved_of_fits {guard : Guard}
    (fits : ∀ {store key s}, guard.puts store key s → Fits s) (valid : Pops pops) {key : Nat}
    {s : Str} (reached : StageRuns guard (.merging level key s) store) :
    ¬Starved ⟨pops, store, level⟩ := by
  have sound := (stageSound_of_stageRuns reached).sound
  have entries := entries_of_stageRuns fits reached
  rw [starved_iff sound.ordered valid, not_not]
  intro other value survives _
  obtain ⟨merged, either, held⟩ :=
    exists_of_mem_survivors sound valid ((mem_survivors_iff sound.ordered valid).mpr survives)
  rcases either with picked | overlapped
  · exact entries.tables _ merged (mem_picked picked) _ held
  · exact entries.tables _ merged (mem_overlapped overlapped) _ held

/-! ## Every command ends and leaves the tree in shape -/

/-- A command whose entry fits fails only where a compaction would write an empty file. -/
theorem exec_ends_of_fits {guard : Guard} (valid : Pops pops) {command : Command}
    (reached : StageRuns guard .idle store) (fits : command.Fits) :
    ∃ bound, ∀ fuel ≥ bound, guard.command store ⟨command, pops, valid, fuel⟩ →
      Ends (fun result => StageRuns guard .idle result.2)
        (fun fault => fault = .emptyTable ∧ ∃ call ∈ store.calls pops fuel command, Starved call)
        (store.exec pops fuel command) := by
  obtain ⟨bound, ends⟩ := exec_ends valid reached
  refine ⟨bound, fun fuel ge allowed => (ends fuel ge allowed).imp (fun _ => id) ?_⟩
  rintro fault ⟨before, key, s, puts, failed⟩
  cases puts with
  | put =>
      rcases failed with ⟨-, empty, large⟩ | starves
      · exact absurd fits ((large_of_empty_iff reached empty key s).mp large)
      · exact starves
  | del present =>
      have asked : StageRuns guard .idle (store.get key).2 := stageRuns_step .get trivial reached
      rcases failed with ⟨-, empty, large⟩ | starves
      · exact absurd fits_del ((large_of_empty_iff asked empty key .del).mp large)
      · rw [calls, if_pos present]
        exact starves

theorem shaped_of_idle {guard : Guard} (reached : StageRuns guard .idle store) :
    store.Shaped := by
  cases shaped_of_stageRuns reached with
  | idle _ shaped => exact shaped

theorem command_fits {command : Command} (fits : command.Fits) (valid : Pops pops)
    (fuel : Nat) : Guard.fits.command store ⟨command, pops, valid, fuel⟩ := by
  refine ⟨?_, fun _ _ => trivial⟩
  cases command with
  | put key s => exact fits
  | get key => exact trivial
  | del key => exact fun _ => fits_del

/-- If all entries of a run fit, a further command whose entry fits returns. -/
theorem exec_returns {guard : Guard} (fits : ∀ {store key s}, guard.puts store key s → Fits s)
    (valid : Pops pops) {command : Command} (reached : StageRuns guard .idle store)
    (commandFits : command.Fits) :
    ∃ bound, ∀ fuel ≥ bound, guard.command store ⟨command, pops, valid, fuel⟩ →
      ∃ reply store', store.exec pops fuel command = .ok (reply, store') ∧
        StageRuns guard .idle store' := by
  obtain ⟨bound, ends⟩ := exec_ends_of_fits valid reached commandFits
  refine ⟨bound, fun fuel ge allowed => ?_⟩
  have ended := ends fuel ge allowed
  cases result : store.exec pops fuel command with
  | error fault =>
      obtain ⟨-, call, mem, starved⟩ := ended.of_error result
      obtain ⟨same, key, s, merging, -⟩ := (stages_of_exec valid reached allowed).1 call mem
      rcases call with ⟨pops', store', level⟩
      cases same
      exact absurd starved (not_starved_of_fits fits valid merging)
  | ok pair => exact ⟨pair.1, pair.2, rfl, ended.of_ok result⟩

/-- From some amount of fuel on, a command returns and leaves the tree in shape. -/
def Settles (pops : List Table → List Table) (store : KVStore) (command : Command) : Prop :=
  ∃ bound, ∀ fuel ≥ bound, ∃ reply store',
    store.exec pops fuel command = .ok (reply, store') ∧ store'.Shaped

theorem mem_cascadeCalls_of_le {fuel fuel' : Nat} (le : fuel ≤ fuel') {call : CompactionCall}
    (mem : call ∈ cascadeCalls pops fuel level store) :
    call ∈ cascadeCalls pops fuel' level store := by
  induction fuel generalizing fuel' level store with
  | zero => cases mem
  | succ fuel ih =>
      obtain ⟨fuel', rfl⟩ := Nat.exists_eq_succ_of_ne_zero (Nat.ne_zero_of_lt le)
      rw [cascadeCalls] at mem ⊢
      split at mem
      · cases mem
      · rename_i full
        rw [if_neg full]
        rcases List.mem_cons.mp mem with rfl | later
        · exact List.mem_cons_self
        · refine List.mem_cons_of_mem _ ?_
          cases merged : store.compactLevel pops level with
          | error fault =>
              rw [merged] at later
              cases later
          | ok next =>
              rw [merged] at later
              exact ih (Nat.le_of_succ_le_succ le) later

theorem mem_putCalls_of_le {fuel fuel' key : Nat} {s : Str} (le : fuel ≤ fuel')
    {call : CompactionCall} (mem : call ∈ store.putCalls pops fuel key s) :
    call ∈ store.putCalls pops fuel' key s := by
  by_cases large : sstableSize < (store.charged key s).memory
  · rw [putCalls, if_pos large] at mem ⊢
    cases flushed : store.flush (store.charged key s) with
    | error fault =>
        rw [flushed] at mem
        cases mem
    | ok next =>
        rw [flushed] at mem
        change call ∈ if level0 < next.levelNum 0 then _ else _ at mem
        change call ∈ if level0 < next.levelNum 0 then _ else _
        split at mem
        · rename_i full
          rw [if_pos full]
          exact mem_cascadeCalls_of_le le mem
        · cases mem
  · rw [putCalls, if_neg large] at mem
    cases mem

/-- With more fuel a command goes through the same compactions, and maybe further ones. -/
theorem mem_calls_of_le {fuel fuel' : Nat} (le : fuel ≤ fuel') {command : Command}
    {call : CompactionCall} (mem : call ∈ store.calls pops fuel command) :
    call ∈ store.calls pops fuel' command := by
  cases command with
  | put key s => exact mem_putCalls_of_le le mem
  | get key => cases mem
  | del key =>
      rw [calls] at mem ⊢
      split at mem
      · rename_i found
        rw [if_pos found]
        exact mem_putCalls_of_le le mem
      · cases mem

/-- Where the cascade returns it goes through all its compactions. -/
theorem mem_cascadeCalls_of_ok {fuel fuel' : Nat}
    (ok : compactionForLevel pops fuel level store = .ok store') {call : CompactionCall}
    (mem : call ∈ cascadeCalls pops fuel' level store) :
    call ∈ cascadeCalls pops fuel level store := by
  induction fuel generalizing fuel' level store with
  | zero => cases ok
  | succ fuel ih =>
      cases fuel' with
      | zero => cases mem
      | succ fuel' =>
          rw [compactionForLevel] at ok
          rw [cascadeCalls] at mem ⊢
          split at mem
          · cases mem
          · rename_i full
            rw [if_neg full] at ok ⊢
            cases merged : store.compactLevel pops level with
            | error fault =>
                rw [merged] at ok
                cases ok
            | ok next =>
                rw [merged] at ok mem
                rcases List.mem_cons.mp mem with rfl | later
                · exact List.mem_cons_self
                · exact List.mem_cons_of_mem _ (ih ok later)

theorem mem_putCalls_of_ok {fuel fuel' key : Nat} {s : Str}
    (ok : store.put pops fuel key s = .ok store') {call : CompactionCall}
    (mem : call ∈ store.putCalls pops fuel' key s) : call ∈ store.putCalls pops fuel key s := by
  by_cases large : sstableSize < (store.charged key s).memory
  · cases flushed : store.flush (store.charged key s) with
    | error fault =>
        rw [put_of_error large flushed] at ok
        cases ok
    | ok next =>
        rw [put_of_flushed large flushed, compact] at ok
        rw [putCalls_of_flushed large flushed] at mem ⊢
        change (if level0 < next.levelNum 0 then _ else _) >>= _ = _ at ok
        split at mem
        · rename_i full
          rw [if_pos full] at ok ⊢
          cases cascade : compactionForLevel pops fuel 1
              (next.recharge (store.memTable.get key) s) with
          | error fault =>
              rw [cascade] at ok
              cases ok
          | ok merged => exact mem_cascadeCalls_of_ok cascade mem
        · cases mem
  · rw [putCalls, if_neg large] at mem
    cases mem

/-- No compaction of a command that returns starves. -/
theorem leastFits_of_ok (reached : StageRuns .none .idle store) (valid : Pops pops) {fuel : Nat}
    {command : Command} {result : Reply × KVStore} (ok : store.exec pops fuel command = .ok result)
    {call : CompactionCall} (mem : call ∈ store.calls pops fuel command) : LeastFits call := by
  have fed := exec_fromNothing_iff reached ⟨command, pops, valid, fuel⟩
  rw [ok, iff_not_comm, iff_true_right (not_fromNothing_ok _)] at fed
  exact fed.2 call mem

/-- After any run a command whose entry fits settles exactly if none of its compactions
starves. -/
theorem settles_iff_leastFits (reached : StageRuns .none .idle store) (valid : Pops pops)
    {command : Command} (fits : command.Fits) :
    store.Settles pops command ↔ ∀ fuel, ∀ call ∈ store.calls pops fuel command,
      LeastFits call := by
  obtain ⟨bound, ends⟩ := exec_ends_of_fits valid reached fits
  constructor
  · rintro ⟨bound', returns⟩ fuel call mem
    obtain ⟨reply, store', ok, -⟩ := returns (max fuel bound') (Nat.le_max_right ..)
    exact leastFits_of_ok reached valid ok (mem_calls_of_le (Nat.le_max_left ..) mem)
  · intro least
    refine ⟨bound, fun fuel ge => ?_⟩
    have ended := ends fuel ge (command_none ..)
    cases result : store.exec pops fuel command with
    | error fault =>
        obtain ⟨-, call, mem, starved⟩ := ended.of_error result
        exact absurd (least fuel call mem) ((starved_iff_of_call valid reached mem).mp starved)
    | ok pair => exact ⟨pair.1, pair.2, rfl, shaped_of_idle (ended.of_ok result)⟩

/-- If all entries of a run fit, a further command whose entry fits settles. -/
theorem settles_of_fits (runs : Runs .fits store) (valid : Pops pops) {command : Command}
    (fits : command.Fits) : store.Settles pops command := by
  obtain ⟨bound, returns⟩ := exec_returns id valid (stages_of_runs runs) fits
  refine ⟨bound, fun fuel ge => ?_⟩
  obtain ⟨reply, store', ok, reached⟩ := returns fuel ge (command_fits fits valid fuel)
  exact ⟨reply, store', ok, shaped_of_idle reached⟩

/-- After any run, a command whose entry fits ends with the tree in shape or where a
compaction would write an empty file.  It settles exactly if in each of its compactions the
value of the least key that survives fits a table, and always if the entries of the run
fit. -/
theorem settles_iff_of_reachable (reachable : system.Reachable store) (valid : Pops pops)
    {command : Command} (fits : command.Fits) :
    (∃ bound, ∀ fuel ≥ bound,
        Ends (fun result => result.2.Shaped) (fun fault => fault = .emptyTable)
          (store.exec pops fuel command)) ∧
      (store.Settles pops command ↔
        ∀ fuel, ∀ call ∈ store.calls pops fuel command, LeastFits call) ∧
      (Runs .fits store → store.Settles pops command) := by
  have reached := stages_of_runs (runs_none reachable)
  refine ⟨?_, settles_iff_leastFits reached valid fits,
    fun runs => settles_of_fits runs valid fits⟩
  obtain ⟨bound, ends⟩ := exec_ends_of_fits valid reached fits
  refine ⟨bound, fun fuel ge => (ends fuel ge (command_none ..)).imp ?_ ?_⟩
  · intro result reached'
    exact shaped_of_idle reached'
  · intro fault failed
    exact failed.1

/-- A put whose compaction merges four tables of level 0 with three of level 1. -/
theorem settles_after_compaction : ∃ store,
    run .fits ([7, 3, 5, 1, 9, 2, 4, 6].map fun key => .put key wide) = some store ∧
      (store.calls sortPops 20 (.put 8 wide)).map (fun call =>
        (call.store.overlapped call.level).map Table.getMinKey) = [[3, 5, 7]] ∧
      store.Settles sortPops (.put 8 wide) ∧
        ∀ fuel, ∀ call ∈ store.calls sortPops fuel (.put 8 wide), LeastFits call := by
  obtain ⟨store, ran, merges⟩ := Option.map_eq_some_iff.mp
    (show (run .fits ([7, 3, 5, 1, 9, 2, 4, 6].map fun key => .put key wide)).map
      (fun store => (store.calls sortPops 20 (.put 8 wide)).map fun call =>
        (call.store.overlapped call.level).map Table.getMinKey) = some [[3, 5, 7]]
      by decide +kernel)
  have runs := runs_of_run ran
  have fits : (Command.put 8 wide).Fits := show Fits wide by decide +kernel
  obtain ⟨-, exact, fitting⟩ :=
    settles_iff_of_reachable (System.reachable_of_guarded runs) pops_sortPops fits
  exact ⟨store, ran, merges, fitting runs, exact.mp (fitting runs)⟩

/-- A value of the size of a table, and the put that merges it while its key is the least
one. -/
def starvingPuts : List Command :=
  [.put 5 narrow, .put 1 (.replicate sstableSize (by decide) 1), .put 2 wide, .put 3 wide]

/-- The entry of the fifth put fits, but the put does not return. -/
theorem not_settles : ¬∀ {store : KVStore} {pops : List Table → List Table} {command : Command},
    system.Reachable store → Pops pops → command.Fits → store.Settles pops command := by
  intro always
  obtain ⟨store, ran, starves⟩ := Option.map_eq_some_iff.mp
    (show (run .none starvingPuts).map (fun store =>
      (store.calls sortPops 1 (.put 4 wide)).any fun call =>
        (call.store.outFiles call.pops call.level).any List.isEmpty) = some true by decide +kernel)
  have runs := runs_of_run ran
  have fits : (Command.put 4 wide).Fits := show Fits wide by decide +kernel
  have reached := stages_of_runs runs
  have least := (settles_iff_leastFits reached pops_sortPops fits).mp
    (always (System.reachable_of_guarded runs) pops_sortPops fits)
  obtain ⟨call, mem, written⟩ := List.any_eq_true.mp starves
  obtain ⟨file, fileMem, empty⟩ := List.any_eq_true.mp written
  rw [List.isEmpty_iff.mp empty] at fileMem
  have starved : Starved call := fileMem
  exact (starved_iff_of_call pops_sortPops reached mem).mp starved (least 1 call mem)

end KVStore

end ZnsLsm.Store
