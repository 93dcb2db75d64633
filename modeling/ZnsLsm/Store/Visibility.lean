import ZnsLsm.Store.Refinement

/-!
# What a lookup sees

The memtable and the tables answer with the empty string for a key they do not have, so a
lookup goes past every empty version of its key.  It ends at the first version that is not
empty, and a `put` of the empty string lets an older version show through.
-/

namespace ZnsLsm.Store

open ZnsLsm.Outcome ZnsLsm.Transition
open ZnsLsm.Pool (sstableSize)

namespace KVStore

variable {pops : List Table → List Table} {store store' : KVStore} {level : Nat}

/-! ## Versions that are not empty -/

/-- The first version of a key in some tables that is not empty. -/
def firstFilled (key : Nat) (tables : List Table) : Option Str :=
  tables.findSome? fun table => (SortedMap.find key table.keyValue).filter (· ≠ .empty)

/-- The value that a lookup sees, if it sees one. -/
def visible (store : KVStore) (key : Nat) : Option Str :=
  (((SortedMap.find key store.memTable.nodes).filter (· ≠ .empty)).or
    (firstFilled key store.tables)).filter (· ≠ .del)

@[simp]
theorem firstFilled_append (key : Nat) (first second : List Table) :
    firstFilled key (first ++ second) = (firstFilled key first).or (firstFilled key second) :=
  List.findSome?_append

theorem exists_of_firstFilled {key : Nat} {tables : List Table} {value : Str}
    (found : firstFilled key tables = some value) :
    value ≠ .empty ∧ ∃ table ∈ tables, (key, value) ∈ table.keyValue := by
  obtain ⟨table, mem, held⟩ := List.exists_of_findSome?_eq_some found
  obtain ⟨held, nonempty⟩ := Option.filter_eq_some_iff.mp held
  exact ⟨of_decide_eq_true nonempty, table, mem, SortedMap.mem_of_find held⟩

theorem scan_fst (key : Nat) {tables : List Table} (pool : Requests)
    (sound : ∀ table ∈ tables, ∃ level, table.Sound level) :
    (scan key tables pool).1 = (firstFilled key tables).getD .empty := by
  induction tables generalizing pool with
  | nil => rfl
  | cons table tables ih =>
      obtain ⟨level, tableSound⟩ := sound table List.mem_cons_self
      have value := tableSound.getValue pool key
      have later := ih (table.getValue pool key).2
        fun other mem => sound other (List.mem_cons_of_mem _ mem)
      rw [scan, firstFilled, List.findSome?_cons]
      dsimp only
      rw [value]
      cases SortedMap.find key table.keyValue with
      | none =>
          rw [Option.getD_none, if_neg fun ne => ne rfl]
          exact later
      | some held =>
          rw [Option.getD_some]
          by_cases empty : held = .empty
          · have passed : (some held).filter (· ≠ Str.empty) = none :=
              Option.filter_some_neg (by simpa using empty)
            rw [if_neg fun ne => ne empty, passed]
            exact later
          · have kept : (some held).filter (· ≠ Str.empty) = some held :=
              Option.filter_some_pos (decide_eq_true empty)
            rw [if_pos empty, kept]
            rfl

/-- A lookup returns what it sees. -/
theorem Sound.get_fst (sound : store.Sound) (key : Nat) :
    (store.get key).1 = (store.visible key).getD .empty := by
  have scanned := scan_fst key store.memoryPool fun table mem =>
    (mem_tables mem).imp fun level held => sound.tables level table held
  have marked : ∀ found : Option Str, (if found.getD .empty = .del then .empty
      else found.getD .empty) = (found.filter (· ≠ .del)).getD .empty := by
    intro found
    cases found with
    | none => rfl
    | some value =>
        by_cases marker : value = .del
        · simp [marker, Option.filter]
        · simp [marker, Option.filter]
  rw [get, visible]
  dsimp only
  rw [sound.memTable.get, scanned]
  cases SortedMap.find key store.memTable.nodes with
  | none =>
      rw [Option.getD_none, if_neg fun ne => ne rfl]
      exact marked _
  | some value =>
      rw [Option.getD_some]
      by_cases empty : value = .empty
      · have passed : (some value).filter (· ≠ Str.empty) = none :=
          Option.filter_some_neg (by simpa using empty)
        rw [if_neg fun ne => ne empty, passed]
        exact marked _
      · rw [if_pos empty]
        have first := marked (some value)
        rw [Option.getD_some] at first
        have kept : (some value).filter (· ≠ Str.empty) = some value :=
          Option.filter_some_pos (decide_eq_true empty)
        rw [kept, Option.some_or]
        exact first

/-! ## The put before it enters its key -/

/-- An older version of the key is left in the tables, where a lookup sees it through an
empty one. -/
def ShowsThrough (pops : List Table → List Table) (fuel : Nat) (store : KVStore) (key : Nat)
    (s : Str) : Prop :=
  ∃ settled value, store.settle pops fuel key s = .ok settled ∧
    firstFilled key settled.tables = some value ∧ value ≠ .del

/-- A put that does not flush leaves the tables alone. -/
theorem showsThrough_iff_of_small {key : Nat} {s : Str}
    (small : ¬sstableSize < (store.charged key s).memory) (fuel : Nat) :
    store.ShowsThrough pops fuel key s ↔
      ∃ value, firstFilled key store.tables = some value ∧ value ≠ .del := by
  rw [ShowsThrough, settle, if_neg small]
  constructor
  · rintro ⟨settled, value, same, found⟩
    cases same
    exact ⟨value, found⟩
  · rintro ⟨value, found⟩
    exact ⟨_, value, rfl, found⟩

/-- The cascade makes no entries up. -/
theorem inTables_cascade (valid : Pops pops) {fuel key : Nat} {s : Str}
    (reached : StageRuns .none (.merging level key s) store)
    (ok : compactionForLevel pops fuel level store = .ok store') {entry : Nat × Str}
    (present : store'.InTables entry) : store.InTables entry := by
  induction fuel generalizing level store with
  | zero => cases ok
  | succ fuel ih =>
      rw [compactionForLevel] at ok
      split at ok
      · cases ok
        exact present
      · rename_i full
        cases merged : store.compactLevel pops level with
        | error fault =>
            rw [merged] at ok
            cases ok
        | ok next =>
            rw [merged] at ok
            have sound := (stageSound_of_stageRuns reached).sound
            have compacted := ((compactLevel_of_stageRuns valid reached).of_ok merged).2
            have reached' : StageRuns .none (.merging (level + 1) key s) next :=
              stageRuns_step (.merge valid (overfull_iff.mpr full) merged) trivial reached
            exact compacted.inTables sound valid (ih reached' ok)

/-- Nor does the compaction of a put. -/
theorem inTables_compact (valid : Pops pops) {fuel key : Nat} {s : Str}
    (reached : StageRuns .none (.flushed key s) store)
    (ok : compact pops fuel store = .ok store') {entry : Nat × Str}
    (present : store'.InTables entry) : store.InTables entry := by
  rw [compact] at ok
  split at ok
  · rename_i full
    cases cascade : compactionForLevel pops fuel 1 store with
    | error fault =>
        rw [cascade] at ok
        cases ok
    | ok merged =>
        rw [cascade] at ok
        cases ok
        exact inTables_cascade valid (stageRuns_step (.descend full) trivial reached) cascade
          present
  · cases ok
    exact present

/-- The entries of the tables were in the memtable or in the tables before. -/
theorem inTables_settle (valid : Pops pops) {fuel key : Nat} {s : Str}
    (reached : StageRuns .none .idle store) {settled : KVStore}
    (ok : store.settle pops fuel key s = .ok settled) {entry : Nat × Str}
    (present : settled.InTables entry) :
    entry ∈ store.memTable.nodes ∨ store.InTables entry := by
  rcases settle_cases ok with ⟨-, rfl⟩ | ⟨large, next, flushed, compacts⟩
  · exact .inr present
  · have step := (flush_ends _ _).of_ok flushed
    have reached' : StageRuns .none (.flushed key s)
        (next.recharge (store.memTable.get key) s) :=
      stageRuns_step (.flush large flushed) trivial reached
    have afterFlush : next.InTables entry := inTables_compact valid reached' compacts present
    obtain ⟨level, table, mem, held⟩ := afterFlush
    rcases step.mem_cases mem with old | ⟨rfl, rfl⟩
    · exact .inr ⟨level, table, old, held⟩
    · exact .inl held

/-- What shows through is a version from before the put. -/
theorem exists_of_showsThrough (valid : Pops pops) {fuel key : Nat} {s : Str}
    (reached : StageRuns .none .idle store) (shown : store.ShowsThrough pops fuel key s) :
    ∃ value, value ≠ .empty ∧ value ≠ .del ∧
      ((key, value) ∈ store.memTable.nodes ∨ store.InTables (key, value)) := by
  obtain ⟨settled, value, ok, found, marker⟩ := shown
  obtain ⟨nonempty, table, mem, held⟩ := exists_of_firstFilled found
  obtain ⟨level, member⟩ := mem_tables mem
  exact ⟨value, nonempty, marker, inTables_settle valid reached ok ⟨level, table, member, held⟩⟩

/-- A flush puts the versions of the memtable before those of the tables. -/
theorem firstFilled_flush (sound : store.Sound) (descending : store.Descending)
    {list : SkipList} (stamp : list.timeStamp = store.memTable.timeStamp)
    (few : list.timeStamp < 2 ^ 32) {flushed : KVStore} (step : store.Flushed list flushed)
    (key : Nat) : firstFilled key flushed.tables =
      ((SortedMap.find key list.nodes).filter (· ≠ .empty)).or (firstFilled key store.tables) := by
  have greatest := rank_lt_flushTable descending stamp few
  obtain ⟨count, depth⟩ : ∃ count, store.depth = count + 1 :=
    ⟨store.depth - 1, by have pos := sound.depth; omega⟩
  have split : ∀ ssTable : Nat → List Table,
      (List.range (count + 1)).flatMap (fun level => (ssTable level).reverse) =
        (ssTable 0).reverse ++
          (List.range count).flatMap fun level => (ssTable (level + 1)).reverse := by
    intro ssTable
    rw [List.range_succ_eq_map, List.flatMap_cons, List.flatMap_map]
  have below : ∀ level, flushed.ssTable (level + 1) = store.ssTable (level + 1) :=
    fun level => step.others _ (Nat.succ_ne_zero level)
  rw [tables, tables, step.depth, depth, split, split, step.level0,
    KeyedSet.emplace_of_greatest greatest, List.reverse_append, List.append_assoc,
    firstFilled_append]
  simp only [below]
  congr 1
  exact List.findSome?_singleton

/-- If a put flushes without a compaction, what shows through is what a lookup sees before. -/
theorem showsThrough_iff_of_flush (reached : StageRuns .none .idle store)
    (few : store.memTable.timeStamp < 2 ^ 32) {key : Nat} {s : Str}
    (large : sstableSize < (store.charged key s).memory) (filled : store.memTable.nodes ≠ [])
    (room : store.levelNum 0 < level0) (fuel : Nat) :
    store.ShowsThrough pops fuel key s ↔ (store.get key).1 ≠ .empty := by
  have sound := (stageSound_of_stageRuns reached).sound
  have stamp : (store.charged key s).timeStamp = store.memTable.timeStamp := rfl
  cases flushed : store.flush (store.charged key s) with
  | error fault => exact absurd ((flush_ends _ _).of_error flushed).1 filled
  | ok next =>
      have step := (flush_ends _ _).of_ok flushed
      have settles : store.settle pops fuel key s =
          .ok (next.recharge (store.memTable.get key) s) := by
        rw [settle, if_pos large, flushed]
        change compact pops fuel (next.recharge (store.memTable.get key) s) = _
        rw [compact, if_neg]
        · rfl
        · change ¬level0 < next.levelNum 0
          rw [step.levelNum, Function.update_self]
          omega
      have first := firstFilled_flush sound (descending_of_stageRuns reached few.le) stamp few step
        key
      change firstFilled key (next.recharge (store.memTable.get key) s).tables =
        ((SortedMap.find key store.memTable.nodes).filter _).or _ at first
      rw [sound.get_fst, visible, ← first, ShowsThrough, settles]
      cases seen : firstFilled key (next.recharge (store.memTable.get key) s).tables with
      | none => simp [seen]
      | some value =>
          have nonempty := (exists_of_firstFilled seen).1
          by_cases marker : value = .del
          · simp [seen, marker, Option.filter]
          · simp [seen, marker, Option.filter, nonempty]

/-- After `put`, a lookup finds the value that was put, unless it is empty and an older
version shows through. -/
theorem get_insert {key : Nat} {s : Str} (sound : (store.insert key s).Sound)
    (marker : s ≠ .del) : ((store.insert key s).get key).1 = s ↔
      s ≠ .empty ∨ ¬∃ value, firstFilled key store.tables = some value ∧ value ≠ .del := by
  have found : SortedMap.find key (store.insert key s).memTable.nodes = some s :=
    (SortedMap.find_assign ..).trans (if_pos rfl)
  rw [sound.get_fst, visible, found]
  change (Option.filter _ (Option.or _ (firstFilled key store.tables))).getD .empty = s ↔ _
  by_cases empty : s = .empty
  · have passed : (some s).filter (· ≠ Str.empty) = none :=
      Option.filter_some_neg (by simpa using empty)
    rw [passed, Option.none_or, or_iff_right (not_not_intro empty), empty]
    cases first : firstFilled key store.tables with
    | none => simp
    | some value =>
        have nonempty := (exists_of_firstFilled first).1
        by_cases dropped : value = .del
        · simp [dropped, Option.filter]
        · simp [dropped, Option.filter, nonempty]
  · have kept : (some s).filter (· ≠ Str.empty) = some s :=
      Option.filter_some_pos (decide_eq_true empty)
    have shown : (some s).filter (· ≠ Str.del) = some s :=
      Option.filter_some_pos (decide_eq_true marker)
    rw [kept, Option.some_or, shown]
    exact iff_of_true rfl (.inl empty)

/-! ## What the state before a put tells -/

theorem firstFilled_of_firstValue {key : Nat} {tables : List Table} {value : Str}
    (first : firstValue key tables = some value) (filled : value ≠ .empty) :
    firstFilled key tables = some value := by
  induction tables with
  | nil => cases first
  | cons table tables ih =>
      rw [firstValue, List.findSome?_cons] at first
      rw [firstFilled, List.findSome?_cons]
      cases held : SortedMap.find key table.keyValue with
      | none =>
          rw [held] at first
          exact ih first
      | some other =>
          rw [held] at first
          cases first
          have kept : (some value).filter (· ≠ Str.empty) = some value :=
            Option.filter_some_pos (decide_eq_true filled)
          rw [kept]

theorem firstFilled_of_absent {key : Nat} {tables : List Table}
    (absent : firstValue key tables = none) : firstFilled key tables = none := by
  rw [firstValue, List.findSome?_eq_none_iff] at absent
  rw [firstFilled, List.findSome?_eq_none_iff]
  intro table mem
  rw [absent table mem]
  rfl

/-- A put that flushes leaves the versions of a key to the tables. -/
theorem view_settled (valid : Pops pops) {fuel key : Nat} {s : Str}
    (reached : StageRuns .none .idle store) (large : sstableSize < (store.charged key s).memory)
    {settled : KVStore} (ok : store.settle pops fuel key s = .ok settled) :
    settled.view key = (firstValue key settled.tables).filter (· ≠ .del) := by
  rcases settle_cases ok with ⟨small, -⟩ | ⟨-, next, flushed, compacts⟩
  · exact absurd large small
  · have step := (flush_ends _ _).of_ok flushed
    have reached' : StageRuns .none (.flushed key s)
        (next.recharge (store.memTable.get key) s) :=
      stageRuns_step (.flush large flushed) trivial reached
    have emptied : settled.memTable.nodes = [] := by
      rw [memTable_compact valid reached' compacts]
      change next.memTable.nodes = []
      rw [step.memTable]
      rfl
    rw [view, lookup, emptied]
    rfl

/-- Time stamps last, no compaction of the put drops a table, and each keeps the newer
versions. -/
def PutKeeps (pops : List Table → List Table) (store : KVStore) (key : Nat) (s : Str) : Prop :=
  store.memTable.timeStamp < 2 ^ 32 ∧
    ∀ fuel, ∀ call ∈ store.putCalls pops fuel key s, Apart call ∧ Precedes call.store call.level

/-- No older version of the key can show through after a put: the first one in the tables that
is not empty is the marker, if the put does not flush; a lookup finds nothing, if it flushes
while level 0 has room; the key is absent or deleted, and the compactions keep it so; or there
are only empty versions and markers. -/
inductive Conceals (pops : List Table → List Table) (store : KVStore) (key : Nat) (s : Str) :
    Prop
  | untouched : ¬sstableSize < (store.charged key s).memory →
      (∀ value, firstFilled key store.tables = some value → value = .del) →
        Conceals pops store key s
  | flushed : sstableSize < (store.charged key s).memory → store.levelNum 0 < level0 →
      store.memTable.timeStamp < 2 ^ 32 → (store.get key).1 = .empty → Conceals pops store key s
  | merged : sstableSize < (store.charged key s).memory → store.PutKeeps pops key s →
      store.view key = none → Conceals pops store key s
  | blank : (∀ value, (key, value) ∈ store.memTable.nodes ∨ store.InTables (key, value) →
      value = .empty ∨ value = .del) → Conceals pops store key s

/-- The state before a put decides whether an older version shows through: the put does not
flush, or level 0 has room, or the compactions keep the newest version and this is not empty. -/
inductive Decides (pops : List Table → List Table) (store : KVStore) (key : Nat) (s : Str) :
    Prop
  | untouched : ¬sstableSize < (store.charged key s).memory → Decides pops store key s
  | flushed : sstableSize < (store.charged key s).memory → store.levelNum 0 < level0 →
      store.memTable.timeStamp < 2 ^ 32 → Decides pops store key s
  | merged : sstableSize < (store.charged key s).memory → store.PutKeeps pops key s →
      store.view key ≠ some .empty → Decides pops store key s

/-- What the compactions of a put that returns meet is what they meet with any fuel. -/
theorem putKeeps_of_ok {fuel key : Nat} {s : Str} (few : store.memTable.timeStamp < 2 ^ 32)
    (ok : store.put pops fuel key s = .ok store')
    (keeps : ∀ call ∈ store.putCalls pops fuel key s,
      Apart call ∧ Precedes call.store call.level) : store.PutKeeps pops key s :=
  ⟨few, fun _ call mem => keeps call (mem_putCalls_of_ok ok mem)⟩

/-- What the store maps a key to is a version of the memtable or of a table. -/
theorem exists_of_view {key : Nat} {value : Str} (seen : store.view key = some value) :
    value ≠ .del ∧ ((key, value) ∈ store.memTable.nodes ∨ store.InTables (key, value)) := by
  obtain ⟨found, marker⟩ := Option.filter_eq_some_iff.mp seen
  refine ⟨of_decide_eq_true marker, ?_⟩
  rcases Option.or_eq_some_iff.mp found with held | ⟨-, first⟩
  · exact .inl (SortedMap.mem_of_find held)
  · obtain ⟨table, mem, held⟩ := List.exists_of_findSome?_eq_some first
    obtain ⟨level, member⟩ := mem_tables mem
    exact .inr ⟨level, table, member, SortedMap.mem_of_find held⟩

/-- The newest version of a key shows through a put that flushes into a full level 0. -/
theorem not_conceals_of_view {key : Nat} {s : Str}
    (large : sstableSize < (store.charged key s).memory) (full : ¬store.levelNum 0 < level0)
    {value : Str} (seen : store.view key = some value) (filled : value ≠ .empty) :
    ¬store.Conceals pops key s := by
  intro conceals
  cases conceals with
  | untouched small _ => exact small large
  | flushed _ room _ _ => exact full room
  | merged _ _ unseen =>
      rw [seen] at unseen
      cases unseen
  | blank only =>
      obtain ⟨marker, held⟩ := exists_of_view seen
      exact (only value held).elim filled marker

theorem nodes_ne_nil_of_large (reached : StageRuns .none .idle store) {key : Nat} {s : Str}
    (fits : Fits s) (large : sstableSize < (store.charged key s).memory) :
    store.memTable.nodes ≠ [] := by
  intro empty
  exact (large_of_empty_iff reached empty key s).mp large fits

theorem not_showsThrough_of_conceals (valid : Pops pops) (reached : StageRuns .none .idle store)
    {key : Nat} {s : Str} (fits : Fits s) (conceals : store.Conceals pops key s) (fuel : Nat) :
    ¬store.ShowsThrough pops fuel key s := by
  cases conceals with
  | untouched small hidden =>
      rw [showsThrough_iff_of_small small]
      rintro ⟨value, found, marker⟩
      exact marker (hidden value found)
  | flushed large room few missing =>
      have filled := nodes_ne_nil_of_large reached fits large
      rw [showsThrough_iff_of_flush reached few large filled room]
      exact not_not_intro missing
  | merged large keeps unseen =>
      rintro ⟨settled, value, ok, found, marker⟩
      have same := congrFun (view_settle valid reached keeps.1 (keeps.2 fuel) ok) key
      rw [unseen, view_settled valid reached large ok] at same
      cases first : firstValue key settled.tables with
      | none =>
          rw [firstFilled_of_absent first] at found
          cases found
      | some newest =>
          rw [first, Option.filter_eq_none_iff] at same
          have deleted : newest = .del := by simpa using same newest rfl
          have nonempty : newest ≠ .empty := by
            rw [deleted]
            decide
          rw [firstFilled_of_firstValue first nonempty] at found
          cases found
          exact marker deleted
  | blank only =>
      intro shown
      obtain ⟨value, filled, marker, held⟩ := exists_of_showsThrough valid reached shown
      rcases only value held with empty | deleted
      · exact filled empty
      · exact marker deleted

theorem showsThrough_of_decides (valid : Pops pops) (reached : StageRuns .none .idle store)
    {key : Nat} {s : Str} (fits : Fits s) (decides : store.Decides pops key s)
    (unconcealed : ¬store.Conceals pops key s) {fuel : Nat} {settled : KVStore}
    (ok : store.settle pops fuel key s = .ok settled) :
    store.ShowsThrough pops fuel key s := by
  cases decides with
  | untouched small =>
      rw [showsThrough_iff_of_small small]
      by_contra hidden
      refine unconcealed (.untouched small fun value found => ?_)
      by_contra marker
      exact hidden ⟨value, found, marker⟩
  | flushed large room few =>
      have filled := nodes_ne_nil_of_large reached fits large
      rw [showsThrough_iff_of_flush reached few large filled room]
      exact fun missing => unconcealed (.flushed large room few missing)
  | merged large keeps newest =>
      have same := congrFun (view_settle valid reached keeps.1 (keeps.2 fuel) ok) key
      cases seen : store.view key with
      | none => exact absurd (.merged large keeps seen) unconcealed
      | some value =>
          rw [seen, view_settled valid reached large ok, Option.filter_eq_some_iff] at same
          have filled : value ≠ .empty := fun empty => newest (by rw [seen, empty])
          exact ⟨settled, value, ok, firstFilled_of_firstValue same.1 filled,
            of_decide_eq_true same.2⟩

/-! ## Reading back -/

/-- From some amount of fuel on, `put` returns and the next `get` returns the value. -/
def ReadsBack (pops : List Table → List Table) (store : KVStore) (key : Nat) (s : Str) : Prop :=
  ∃ bound, ∀ fuel ≥ bound, ∃ store', store.put pops fuel key s = .ok store' ∧
    (store'.get key).1 = s

theorem exec_put_of_ok {fuel key : Nat} {s : Str} (ok : store.put pops fuel key s = .ok store') :
    store.exec pops fuel (.put key s) = .ok (.done, store') := by
  rw [exec, ok]
  rfl

theorem get_put_iff (valid : Pops pops) (reached : StageRuns .none .idle store) {fuel key : Nat}
    {s : Str} (marker : s ≠ .del) (ok : store.put pops fuel key s = .ok store') :
    (store'.get key).1 = s ↔ s ≠ .empty ∨ ¬store.ShowsThrough pops fuel key s := by
  have reached' := (stages_of_exec valid reached
    (command_none store ⟨.put key s, pops, valid, fuel⟩)).2 _ _ (exec_put_of_ok ok)
  obtain ⟨settled, settles, rfl⟩ := put_ok ok
  have through : store.ShowsThrough pops fuel key s ↔
      ∃ value, firstFilled key settled.tables = some value ∧ value ≠ .del := by
    rw [ShowsThrough, settles]
    simp
  rw [through]
  exact get_insert (stageSound_of_stageRuns reached').sound marker

theorem leastFits_of_readsBack (valid : Pops pops) (reached : StageRuns .none .idle store)
    {key : Nat} {s : Str} (readsBack : store.ReadsBack pops key s) (fuel : Nat) :
    ∀ call ∈ store.putCalls pops fuel key s, LeastFits call := by
  intro call mem
  obtain ⟨bound, returns⟩ := readsBack
  obtain ⟨store', ok, -⟩ := returns (max fuel bound) (Nat.le_max_right ..)
  exact leastFits_of_ok reached valid (exec_put_of_ok ok)
    (mem_putCalls_of_le (Nat.le_max_left ..) mem)

/-- After any run, `put` of a value that fits and is not the marker returns and is seen by the
next `get` if no compaction starves and the value is not empty or no older version can show
through; where the state before decides, only then.  No compaction starves if the entries of
the run fit. -/
theorem readsBack_of_reachable (reachable : system.Reachable store) (valid : Pops pops)
    (key : Nat) {s : Str} (fits : Fits s) (marker : s ≠ .del) :
    ((∀ fuel, ∀ call ∈ store.putCalls pops fuel key s, LeastFits call) ∧
        (s ≠ .empty ∨ store.Conceals pops key s) → store.ReadsBack pops key s) ∧
      (store.Decides pops key s →
        (store.ReadsBack pops key s ↔
          (∀ fuel, ∀ call ∈ store.putCalls pops fuel key s, LeastFits call) ∧
            (s ≠ .empty ∨ store.Conceals pops key s))) ∧
      (Runs .fits store → ∀ fuel, ∀ call ∈ store.putCalls pops fuel key s, LeastFits call) := by
  have reached := stages_of_runs (runs_none reachable)
  have commandFits : (Command.put key s).Fits := fits
  have settles := settles_iff_leastFits reached valid commandFits
  have enough : (∀ fuel, ∀ call ∈ store.putCalls pops fuel key s, LeastFits call) ∧
      (s ≠ .empty ∨ store.Conceals pops key s) → store.ReadsBack pops key s := by
    rintro ⟨least, hidden⟩
    obtain ⟨bound, returns⟩ := settles.mpr least
    refine ⟨bound, fun fuel ge => ?_⟩
    obtain ⟨reply, store', ok, -⟩ := returns fuel ge
    obtain ⟨-, done⟩ := exec_put_ok ok
    refine ⟨store', done, (get_put_iff valid reached marker done).mpr ?_⟩
    exact hidden.imp_right fun conceals =>
      not_showsThrough_of_conceals valid reached fits conceals fuel
  refine ⟨enough, fun decides => ⟨fun readsBack => ?_, enough⟩, fun runs => ?_⟩
  · refine ⟨leastFits_of_readsBack valid reached readsBack, ?_⟩
    obtain ⟨bound, returns⟩ := readsBack
    obtain ⟨store', done, reads⟩ := returns bound (Nat.le_refl _)
    obtain ⟨settled, settled_ok, -⟩ := put_ok done
    refine ((get_put_iff valid reached marker done).mp reads).imp_right fun hidden => ?_
    by_contra unconcealed
    exact hidden (showsThrough_of_decides valid reached fits decides unconcealed settled_ok)
  · exact settles.mp (settles_of_fits runs valid commandFits)

/-- The value that leaves no byte free in what a flushed memtable counts with a wide one. -/
def filling : Str :=
  .replicate (sstableSize - 10272 - entrySize wide - entrySize .empty) (by decide) 3

/-- A compaction, a deletion of key 1, and three tables in level 0 before the next one. -/
def mergingPuts : List Command :=
  ([7, 3, 5, 1, 9].map fun key => .put key wide) ++
    [.del 1, .put 2 wide, .put 4 wide, .put 6 wide, .put 8 filling]

/-- An empty put flushes and merges four tables with four of level 1: it reads back for the
deleted key, and not for a key with an older version. -/
theorem readsBack_of_deleted : ∃ store, run .fits mergingPuts = some store ∧
    (store.putCalls sortPops 20 1 .empty).map (fun call =>
      (call.store.overlapped call.level).map Table.getMinKey) = [[1, 3, 5, 7]] ∧
    store.ReadsBack sortPops 1 .empty ∧ ¬store.ReadsBack sortPops 3 .empty := by
  obtain ⟨store, ran, held⟩ := Option.map_eq_some_iff.mp
    (show (run .fits mergingPuts).map (fun store =>
      ((store.putCalls sortPops 20 1 .empty).map (fun call =>
          (call.store.overlapped call.level).map Table.getMinKey),
        decide (store.memTable.timeStamp < 2 ^ 32 ∧ ¬store.levelNum 0 < level0 ∧
          ∀ key ∈ [1, 3], sstableSize < (store.charged key .empty).memory ∧
            (store.put sortPops 20 key .empty).toOption.isSome ∧
              ∀ call ∈ store.putCalls sortPops 20 key .empty,
                Apart call ∧ Precedes call.store call.level),
        (store.view 1).isNone, (store.view 3).map Str.size)) =
          some ([[1, 3, 5, 7]], true, true, some 40000000) by decide +kernel)
  obtain ⟨overlap, rest⟩ := Prod.mk.inj held
  obtain ⟨facts, views⟩ := Prod.mk.inj rest
  obtain ⟨unseen, seen⟩ := Prod.mk.inj views
  obtain ⟨few, full, both⟩ := of_decide_eq_true facts
  have keeps : ∀ key ∈ [1, 3], store.PutKeeps sortPops key .empty := by
    intro key mem
    obtain ⟨-, returns, kept⟩ := both key mem
    obtain ⟨next, ok⟩ := Outcome.exists_ok_of_isSome returns
    exact putKeeps_of_ok few ok kept
  have runs := runs_of_run ran
  have reads : ∀ key, _ := fun key => readsBack_of_reachable (System.reachable_of_guarded runs)
    pops_sortPops key (by decide +kernel : Fits .empty) (by decide)
  have one := (both 1 (by decide)).1
  have three := (both 3 (by decide)).1
  obtain ⟨value, seen, size⟩ := Option.map_eq_some_iff.mp seen
  have filled : value ≠ .empty := by
    rintro rfl
    cases size
  refine ⟨store, ran, overlap, ?_, ?_⟩
  · refine (reads 1).1 ⟨(reads 1).2.2 runs, .inr (.merged one (keeps 1 (by decide)) ?_)⟩
    exact Option.isNone_iff_eq_none.mp unseen
  · intro readsBack
    have decides : store.Decides sortPops 3 .empty := by
      refine .merged three (keeps 3 (by decide)) ?_
      rw [seen]
      exact fun same => filled (Option.some.inj same)
    rcases (((reads 3).2.1 decides).mp readsBack).2 with nonempty | conceals
    · exact nonempty rfl
    · exact not_conceals_of_view three full seen filled conceals

/-- An older version of key 1 and a wide one of key 2, flushed before key 3. -/
def shadedPuts : List Command :=
  [.put 1 narrow, .put 2 wide, .put 3 wide]

/-- The older version of key 1 shows through an empty one. -/
theorem not_readsBack : ¬∀ store, system.Reachable store → ∀ pops, Pops pops →
    ∀ fuel key s, Fits s → s ≠ .del → ∀ store', store.put pops fuel key s = .ok store' →
      (store'.get key).1 = s := by
  intro always
  obtain ⟨store, ran, held⟩ := Option.map_eq_some_iff.mp
    (show (run .none shadedPuts).map (fun store =>
      ((store.put sortPops 20 1 .empty).toOption.map fun store => (store.get 1).1.size)) =
        some (some 1) by decide +kernel)
  obtain ⟨store', returned, size⟩ := Option.map_eq_some_iff.mp held
  have ok := Outcome.eq_ok_of_toOption returned
  have reads := always store (System.reachable_of_guarded (runs_of_run ran)) sortPops pops_sortPops
    20 1 .empty (by decide +kernel) (by decide) store' ok
  rw [reads] at size
  cases size

end KVStore

end ZnsLsm.Store
