import Mathlib.Algebra.BigOperators.Group.Finset.Basic
import Mathlib.Algebra.Order.BigOperators.Group.Finset
import ZnsLsm.Store.Sound

/-!
# The shape of the tree

Between two commands level 0 holds as many tables as `Level[0]` counts, at most
`Level0`, and every other level at most `UpperNum` of its number.  A compaction brings
the level above back to its bound and moves on.  The entries of the tree never grow in
number while the bounds grow without limit, so the recursion ends.
-/

namespace ZnsLsm.Store

open ZnsLsm.Outcome ZnsLsm.Transition
open ZnsLsm.Pool (sstableSize)

namespace KVStore

variable {pops : List Table → List Table} {store store' : KVStore} {level : Nat}

/-! ## Level 0 -/

/-- `Level[0]` counts the tables of level 0, and these have the time stamps of the last
flushes. -/
structure Tallied (store : KVStore) : Prop where
  count : store.levelNum 0 = (store.ssTable 0).length
  recent : ∀ table ∈ store.ssTable 0, ∃ age, 1 ≤ age ∧ age ≤ (store.ssTable 0).length ∧
    (table.getTimestamp + age) % 2 ^ 32 = store.memTable.timeStamp % 2 ^ 32

/-- While level 0 holds few tables, the time stamp of a flush is new there. -/
theorem Tallied.fresh (tallied : store.Tallied) (few : (store.ssTable 0).length < 2 ^ 32)
    {list : SkipList} (same : list.timeStamp = store.memTable.timeStamp) (order : Nat) :
    KeyedSet.Fresh Table.rank (flushTable list order) (store.ssTable 0) := by
  intro table mem equal
  obtain ⟨age, pos, le, recent⟩ := tallied.recent table mem
  have stamps : table.getTimestamp = list.timeStamp % 2 ^ 32 :=
    congrArg (fun rank => (ofLex rank).1) equal
  rw [← same] at recent
  omega

theorem Tallied.flushed (tallied : store.Tallied) (few : (store.ssTable 0).length < 2 ^ 32)
    {list : SkipList} (same : list.timeStamp = store.memTable.timeStamp)
    (flushed : store.Flushed list store') :
    store'.Tallied ∧ (store'.ssTable 0).length = (store.ssTable 0).length + 1 := by
  have fresh := tallied.fresh few same (store.levelNum 0 + 1)
  have length : (store'.ssTable 0).length = (store.ssTable 0).length + 1 := by
    rw [flushed.level0, fresh.length_emplace]
  refine ⟨⟨?_, ?_⟩, length⟩
  · rw [flushed.levelNum, Function.update_self, length, tallied.count]
  · intro table mem
    rw [length, flushed.memTable, SkipList.restarted]
    dsimp only
    rw [same]
    rcases flushed.mem_cases mem with old | ⟨-, rfl⟩
    · obtain ⟨age, pos, le, recent⟩ := tallied.recent table old
      refine ⟨age + 1, by omega, by omega, ?_⟩
      omega
    · refine ⟨1, Nat.le_refl _, by omega, ?_⟩
      change (list.timeStamp % 2 ^ 32 + 1) % 2 ^ 32 = _
      rw [same]
      omega

/-! ## The bounds -/

/-- The tree is in shape. -/
structure Shaped (store : KVStore) : Prop where
  count : store.levelNum 0 = (store.ssTable 0).length
  top : store.levelNum 0 ≤ level0
  bounded : ∀ i, 1 ≤ i → (store.ssTable i).length ≤ upperNum i

/-- The shape at every stage. -/
inductive StageShaped : Stage → KVStore → Prop
  | idle {store : KVStore} : store.Tallied → store.Shaped → StageShaped .idle store
  | flushed {store : KVStore} {key : Nat} {s : Str} : store.Tallied →
      store.levelNum 0 ≤ level0 + 1 → (∀ i, 1 ≤ i → (store.ssTable i).length ≤ upperNum i) →
        StageShaped (.flushed key s) store
  | first {store : KVStore} {key : Nat} {s : Str} :
      (store.ssTable 0).length = level0 + 1 →
        (∀ i, 1 ≤ i → (store.ssTable i).length ≤ upperNum i) →
          StageShaped (.merging 1 key s) store
  | later {store : KVStore} {level key : Nat} {s : Str} : 2 ≤ level →
      store.ssTable 0 = [] →
        (∀ i, 1 ≤ i → i ≠ level - 1 → (store.ssTable i).length ≤ upperNum i) →
          StageShaped (.merging level key s) store
  | settled {store : KVStore} {key : Nat} {s : Str} : store.Tallied → store.Shaped →
      StageShaped (.settled key s) store

theorem Tallied.of_eq (tallied : store.Tallied) (number : store'.levelNum 0 = store.levelNum 0)
    (tables : store'.ssTable 0 = store.ssTable 0)
    (stamp : store'.memTable.timeStamp = store.memTable.timeStamp) : store'.Tallied where
  count := by rw [number, tables, tallied.count]
  recent := by
    rw [tables, stamp]
    exact tallied.recent

theorem Shaped.of_eq (shaped : store.Shaped) (number : store'.levelNum = store.levelNum)
    (tables : store'.ssTable = store.ssTable) : store'.Shaped where
  count := by rw [number, tables, shaped.count]
  top := by rw [number]; exact shaped.top
  bounded := by rw [tables]; exact shaped.bounded

/-- A compaction brings the level above back to its bound. -/
theorem Compacted.shaped (compacted : store.Compacted pops level store') {key : Nat} {s : Str}
    (overfull : store.Overfull level) (shaped : StageShaped (.merging level key s) store) :
    StageShaped (.merging (level + 1) key s) store' := by
  cases shaped with
  | first length bounded =>
      have empty : store'.ssTable 0 = [] := by
        have above := compacted.above
        rw [compactNum, if_pos rfl, ← length] at above
        rw [above, List.drop_length]
      refine .later (Nat.le_refl 2) empty ?_
      intro i pos ne
      rw [compacted.others i (by omega) (by omega)]
      exact bounded i pos
  | later two empty bounded =>
      refine .later (by omega) ?_ ?_
      · rw [compacted.others 0 (by omega) (by omega), empty]
      · intro i pos ne
        by_cases above : i = level - 1
        · subst above
          rw [compacted.above, compactNum, if_neg (by omega), List.length_drop]
          omega
        · rw [compacted.others i above (by omega)]
          exact bounded i pos above

/-- An empty level 0 is tallied when the count is reset. -/
theorem tallied_stop (empty : store.ssTable 0 = []) : store.stop.Tallied where
  count := by
    change Function.update store.levelNum 0 0 0 = (store.ssTable 0).length
    rw [Function.update_self, empty]
    rfl
  recent table mem := by
    change table ∈ store.ssTable 0 at mem
    rw [empty] at mem
    cases mem

theorem stageInvariant_shaped (guard : Guard) :
    StageInvariant guard Anything StageShaped where
  new := by
    refine .idle ⟨rfl, ?_⟩ ⟨rfl, Nat.zero_le _, fun _ _ => Nat.zero_le _⟩
    intro table mem
    cases mem
  write _ _ before _ _ := by
    cases before with
    | idle tallied shaped => exact .idle (tallied.of_eq rfl rfl rfl) (shaped.of_eq rfl rfl)
  flush := by
    intro store flushed key s _ _ before _ _ step
    cases before with
    | idle tallied shaped =>
        have top := shaped.top
        rw [shaped.count, level0] at top
        have stamp : (store.charged key s).timeStamp = store.memTable.timeStamp := rfl
        obtain ⟨tallied', length⟩ := tallied.flushed (by omega) stamp step
        refine .flushed (tallied'.of_eq rfl rfl rfl) ?_ ?_
        · change flushed.levelNum 0 ≤ _
          rw [tallied'.count, length, level0]
          omega
        · intro i pos
          change (flushed.ssTable i).length ≤ _
          rw [step.others i (by omega)]
          exact shaped.bounded i pos
  skip _ _ before room := by
    cases before with
    | flushed tallied top bounded => exact .settled tallied ⟨tallied.count, room, bounded⟩
  descend _ _ before full := by
    cases before with
    | flushed tallied top bounded =>
        refine .first ?_ bounded
        rw [← tallied.count]
        omega
  merge _ _ before _ _ _ overfull compacted := compacted.shaped overfull before
  stop := by
    intro store level key s _ _ before notOverfull
    rw [Overfull, not_or] at notOverfull
    cases before with
    | first => exact absurd rfl notOverfull.1
    | later two empty bounded =>
        refine .settled (tallied_stop empty) ⟨(tallied_stop empty).count, ?_, ?_⟩
        · change Function.update store.levelNum 0 0 0 ≤ _
          rw [Function.update_self]
          exact Nat.zero_le _
        · intro i pos
          by_cases above : i = level - 1
          · subst above
            exact Nat.le_of_not_lt notOverfull.2
          · exact bounded i pos above
  insert _ _ before := by
    cases before with
    | settled tallied shaped => exact .idle (tallied.of_eq rfl rfl rfl) (shaped.of_eq rfl rfl)
  get _ before _ := by
    cases before with
    | idle tallied shaped => exact .idle (tallied.of_eq rfl rfl rfl) (shaped.of_eq rfl rfl)

theorem shaped_of_stageRuns {guard : Guard} {stage : Stage}
    (reached : StageRuns guard stage store) : StageShaped stage store :=
  (stageInvariant_shaped guard).holds (fun _ => trivial) reached

end KVStore

end ZnsLsm.Store
