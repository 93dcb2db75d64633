import ZnsLsm.Store.Fitting

/-!
# The size of the memtable

`put` keeps account of the bytes that the memtable will take as a table.  The account
is right until a put overwrites an empty value, which it takes for an absent key, or
flushes, after which `clear` leaves a number that is no longer the size of an empty
table.
-/

namespace ZnsLsm.Store

open ZnsLsm.Outcome ZnsLsm.Transition
open ZnsLsm.Pool (sstableSize)

/-- The bytes that entries take as a table. -/
def occupied (entries : List (Nat × Str)) : Nat :=
  initialSize + (entries.map fun entry => entrySize entry.2).sum

/-- The bytes of the file of a table. -/
def Table.fileSize (table : Table) : Nat :=
  initialSize + 12 * table.metaInfo.pairNum +
    (table.keyValue.map fun entry => entry.2.size + 1).sum

theorem sum_entrySize (entries : List (Nat × Str)) :
    (entries.map fun entry => entrySize entry.2).sum =
      12 * entries.length + (entries.map fun entry => entry.2.size + 1).sum := by
  induction entries with
  | nil => rfl
  | cons entry entries ih =>
      simp only [List.map_cons, List.sum_cons, List.length_cons]
      rw [ih, entrySize]
      omega

namespace KVStore

variable {pops : List Table → List Table} {store store' : KVStore}

/-- The account of the memtable is right, and its entries fit a table. -/
structure Accounts (store : KVStore) : Prop where
  memory : store.memTable.memory = occupied store.memTable.nodes
  room : occupied store.memTable.nodes ≤ sstableSize

/-- A put neither flushes nor overwrites an empty value. -/
def Guard.steady : Guard where
  puts store key s := (store.charged key s).memory ≤ sstableSize ∧
    SortedMap.find key store.memTable.nodes ≠ some .empty
  merges _ := True

instance (store : KVStore) (key : Nat) (s : Str) : Decidable (Guard.steady.puts store key s) :=
  inferInstanceAs (Decidable (_ ∧ _))

instance (call : CompactionCall) : Decidable (Guard.steady.merges call) :=
  inferInstanceAs (Decidable True)

/-! ## One put -/

theorem entrySize_le_of_find {key : Nat} {value : Str} {entries : List (Nat × Str)}
    (found : SortedMap.find key entries = some value) :
    initialSize + entrySize value ≤ occupied entries := by
  have mem := List.mem_map_of_mem (f := fun entry : Nat × Str => entrySize entry.2)
    (SortedMap.mem_of_find found)
  exact Nat.add_le_add_left (List.le_sum_of_mem mem) _

/-- The account of a put that does not flush is right exactly if it does not take an empty
value for an absent key. -/
theorem accounts_write_iff (sound : store.Sound) (accounts : store.Accounts) {key : Nat}
    {s : Str} (small : (store.charged key s).memory ≤ sstableSize) :
    (insert { store with memTable := store.charged key s } key s).Accounts ↔
      SortedMap.find key store.memTable.nodes ≠ some .empty := by
  have total := SortedMap.sum_assign entrySize key s sound.memTable.sorted
  have memory := accounts.memory
  have room := accounts.room
  have bound := s.size_lt
  have sizes : sstableSize < 2 ^ 62 := by decide
  have nodes : occupied (insert { store with memTable := store.charged key s } key s).memTable.nodes
      = initialSize +
        ((SortedMap.assign key s store.memTable.nodes).map fun entry => entrySize entry.2).sum :=
    rfl
  have account : (insert { store with memTable := store.charged key s } key s).memTable.memory =
      (store.charged key s).memory := rfl
  have charged : (store.charged key s).memory =
      charge store.memTable.memory (store.memTable.get key) s := rfl
  rw [sound.memTable.get, charge] at charged
  -- The account is right if the memory is that of the entries, which then fit.
  have iff : (insert { store with memTable := store.charged key s } key s).Accounts ↔
      (store.charged key s).memory = occupied
        (insert { store with memTable := store.charged key s } key s).memTable.nodes :=
    ⟨Accounts.memory, fun same => ⟨same, same ▸ small⟩⟩
  rw [iff, nodes]
  rw [occupied] at memory room
  cases found : SortedMap.find key store.memTable.nodes with
  | none =>
      rw [found] at total charged
      simp only [Option.map_none, Option.getD_none] at total charged
      rw [if_neg fun ne => ne rfl] at charged
      refine iff_of_true ?_ (by simp)
      rw [charged, entrySize]
      rw [entrySize] at total
      omega
  | some value =>
      have held := entrySize_le_of_find found
      rw [occupied] at held
      rw [found] at total charged
      simp only [Option.map_some, Option.getD_some] at total charged
      by_cases empty : value = .empty
      · refine iff_of_false ?_ (by simp [empty])
        rw [if_neg fun ne => ne empty] at charged
        subst empty
        have none : Str.empty.size = 0 := rfl
        rw [entrySize, none, entrySize] at total
        rw [charged, entrySize]
        omega
      · refine iff_of_true ?_ (by simp [empty])
        rw [if_pos empty] at charged
        rw [entrySize] at total held
        rw [entrySize] at total
        omega

/-- The account is wrong after every put that flushes. -/
theorem not_accounts_of_flush (sound : store.Sound) (accounts : store.Accounts) {key : Nat}
    {s : Str} {merged : KVStore}
    (memTable : merged.memTable =
      { (store.charged key s).restarted with
        memory := charge (store.charged key s).restarted.memory (store.memTable.get key) s }) :
    ¬(merged.insert key s).Accounts := by
  intro accounts'
  have memory := accounts'.memory
  change merged.memTable.memory =
    occupied (SortedMap.assign key s merged.memTable.nodes) at memory
  rw [memTable] at memory
  change charge 10272 (store.memTable.get key) s = initialSize + (entrySize s + 0) at memory
  have room := accounts.room
  have bound := s.size_lt
  have sizes : sstableSize < 2 ^ 62 := by decide
  have header : initialSize = 1048604 := rfl
  rw [sound.memTable.get, charge] at memory
  cases found : SortedMap.find key store.memTable.nodes with
  | none =>
      rw [found, Option.getD_none, if_neg fun ne => ne rfl, entrySize] at memory
      omega
  | some value =>
      have held := entrySize_le_of_find found
      rw [found, Option.getD_some] at memory
      by_cases empty : value = .empty
      · rw [if_neg fun ne => ne empty, entrySize] at memory
        omega
      · rw [if_pos empty, entrySize] at memory
        rw [entrySize] at held
        omega

/-- The account is right after a put exactly if the put neither flushes nor overwrites an
empty value. -/
theorem accounts_put_iff (valid : Pops pops) {fuel key : Nat} {s : Str}
    (reached : StageRuns .none .idle store) (accounts : store.Accounts)
    (ok : store.put pops fuel key s = .ok store') :
    store'.Accounts ↔ Guard.steady.puts store key s := by
  have sound := (stageSound_of_stageRuns reached).sound
  by_cases large : sstableSize < (store.charged key s).memory
  · refine iff_of_false ?_ fun steady => Nat.not_lt.mpr steady.1 large
    cases flushed : store.flush (store.charged key s) with
    | error fault =>
        rw [put_of_error large flushed] at ok
        cases ok
    | ok next =>
        rw [put_of_flushed large flushed] at ok
        cases compacts : compact pops fuel (next.recharge (store.memTable.get key) s) with
        | error fault =>
            rw [compacts] at ok
            cases ok
        | ok merged =>
            rw [compacts] at ok
            cases ok
            apply not_accounts_of_flush sound accounts
            have step := (flush_ends _ _).of_ok flushed
            have reached' : StageRuns .none (.flushed key s)
                (next.recharge (store.memTable.get key) s) :=
              stageRuns_step (.flush large flushed) trivial reached
            rw [memTable_compact valid reached' compacts, recharge, step.memTable]
  · have small := Nat.le_of_not_lt large
    rw [put_of_small large] at ok
    cases ok
    exact (accounts_write_iff sound accounts small).trans (and_iff_right small).symm

/-! ## Runs -/

/-- Only the memtable matters. -/
theorem accounts_of_eq (same : store'.memTable = store.memTable) :
    store'.Accounts ↔ store.Accounts := by
  constructor
  · rintro ⟨memory, room⟩
    rw [same] at memory room
    exact ⟨memory, room⟩
  · rintro ⟨memory, room⟩
    rw [← same] at memory room
    exact ⟨memory, room⟩

@[simp]
theorem memTable_get (store : KVStore) (key : Nat) :
    (store.get key).2.memTable = store.memTable := by
  obtain ⟨memoryPool, same, -⟩ := store.get_eq key
  rw [same]

theorem accounts_exec_iff (reached : StageRuns .none .idle store) (accounts : store.Accounts)
    (invocation : Invocation) {reply : Reply}
    (ok : store.exec invocation.pops invocation.fuel invocation.command = .ok (reply, store')) :
    store'.Accounts ↔ Guard.steady.command store invocation := by
  rcases invocation with ⟨command, pops, valid, fuel⟩
  have allowed : ∀ call ∈ store.calls pops fuel command, Guard.steady.merges call :=
    fun _ _ => trivial
  cases command with
  | put key s =>
      have done := (exec_put_ok ok).2
      exact (accounts_put_iff valid reached accounts done).trans (and_iff_left allowed).symm
  | get key =>
      rw [(exec_get_ok ok).2, accounts_of_eq (memTable_get store key)]
      exact iff_of_true accounts ⟨trivial, allowed⟩
  | del key =>
      have command : Guard.steady.command store ⟨.del key, pops, valid, fuel⟩ ↔
          ((store.get key).1 ≠ .empty → Guard.steady.puts (store.get key).2 key .del) :=
        and_iff_left allowed
      rw [command]
      have asked : StageRuns .none .idle (store.get key).2 :=
        stageRuns_step .get trivial reached
      have accounts' := (accounts_of_eq (memTable_get store key)).mpr accounts
      rcases exec_del_ok ok with ⟨found, -, done⟩ | ⟨absent, -, rfl⟩
      · rw [accounts_put_iff valid asked accounts' done]
        exact ⟨fun steady _ => steady, fun steady => steady found⟩
      · exact iff_of_true accounts' fun present => absurd present absent

theorem accounts_of_runs (runs : Runs .steady store) : store.Accounts := by
  induction runs with
  | init isInit =>
      cases isInit
      exact ⟨rfl, by decide⟩
  | @step _ _ invocation before step ih =>
      obtain ⟨allowed, reply, ok⟩ := step
      exact (accounts_exec_iff (stageRuns_none (stages_of_runs before)) ih invocation ok).mpr
        allowed

/-- The file of a flushed memtable. -/
theorem Accounts.fileSize (accounts : store.Accounts) (sound : store.Sound) (key : Nat) (s : Str)
    (order : Nat) : (flushTable (store.charged key s) order).fileSize =
      occupied store.memTable.nodes := by
  have room := accounts.room
  rw [occupied, sum_entrySize] at room
  have sizes : sstableSize < 2 ^ 32 := by decide
  have pairs : store.memTable.size % 2 ^ 32 = store.memTable.nodes.length := by
    rw [sound.memTable.size]
    exact Nat.mod_eq_of_lt (by omega)
  change initialSize + 12 * (store.memTable.size % 2 ^ 32) +
    (store.memTable.nodes.map fun entry => entry.2.size + 1).sum = _
  rw [pairs, occupied, sum_entrySize, Nat.add_assoc]

/-- In a run whose puts neither flush nor overwrite an empty value, the account of the
memtable is right, and the table of a flush fits.  After any further command that returns
the account is right exactly if that command meets the condition too. -/
theorem accounts_iff_of_runs (runs : Runs .steady store) :
    store.Accounts ∧
      (∀ key s order, (flushTable (store.charged key s) order).fileSize ≤ sstableSize) ∧
        ∀ (invocation : Invocation) (reply : Reply) (store' : KVStore),
          store.exec invocation.pops invocation.fuel invocation.command = .ok (reply, store') →
            (store'.Accounts ↔ Guard.steady.command store invocation) := by
  have accounts := accounts_of_runs runs
  have reached := stageRuns_none (stages_of_runs runs)
  have sound := (stageSound_of_stageRuns reached).sound
  refine ⟨accounts, ?_, ?_⟩
  · intro key s order
    rw [accounts.fileSize sound]
    exact accounts.room
  · intro invocation reply store' ok
    exact accounts_exec_iff reached accounts invocation ok

/-- A put, an overwriting put and a deletion. -/
theorem accounts_after_delete : ∃ store,
    run .steady [.put 7 wide, .put 3 narrow, .put 7 narrow, .del 3] = some store ∧
      store.memTable.memory = initialSize + 36 ∧ store.Accounts := by
  obtain ⟨store, ran, memory⟩ := Option.map_eq_some_iff.mp
    (show (run .steady [.put 7 wide, .put 3 narrow, .put 7 narrow, .del 3]).map
      (fun store => store.memTable.memory) = some (initialSize + 36) by decide +kernel)
  exact ⟨store, ran, memory, (accounts_iff_of_runs (runs_of_run ran)).1⟩

/-- The first flush leaves a wrong account. -/
theorem not_accounts : ¬∀ store, Runs .fits store → store.Accounts := by
  intro always
  obtain ⟨store, ran, memory⟩ := Option.map_eq_some_iff.mp
    (show (run .fits [.put 7 wide, .put 3 wide]).map
      (fun store => decide (store.memTable.memory = occupied store.memTable.nodes)) =
        some false by decide +kernel)
  exact of_decide_eq_false memory (always store (runs_of_run ran)).memory

end KVStore

end ZnsLsm.Store
