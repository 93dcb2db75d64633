import ZnsLsm.Store.Sound

/-!
# Memtables and the tables built

A memtable is changed by `put`, `clear` and the flush alone, so it is what a list of edits
makes of a new one.  A table is built from such a memtable or from merged entries.
-/

namespace ZnsLsm.Store

namespace SkipList

/-- What the store does to its memtable. -/
inductive Edit
  | put (key : Nat) (value : Str)
  | clear
  | getTimeStamp
  /-- An assignment to `memory`. -/
  | setMemory (memory : Nat)

/-- Keys have 64 bits. -/
def Edit.Valid : Edit → Prop
  | .put key _ => key < 2 ^ 64
  | _ => True

def edit (list : SkipList) : Edit → SkipList
  | .put key value => list.put key value
  | .clear => list.clear
  | .getTimeStamp => list.getTimeStamp.2
  | .setMemory memory => { list with memory := memory }

/-- The memtable after some edits, newest first. -/
def run : List Edit → SkipList
  | [] => new
  | edit :: edits => (run edits).edit edit

variable {list : SkipList}

@[simp]
theorem nodes_clear (list : SkipList) : list.clear.nodes = [] := by
  rw [clear]
  split
  · assumption
  · rfl

theorem Sound.clear (sound : list.Sound) : list.clear.Sound := by
  rw [SkipList.clear]
  split
  · exact sound
  · exact
      { sorted := List.Pairwise.nil
        size := rfl
        range := fun _ mem => by cases mem }

theorem Sound.edit (sound : list.Sound) (edit : Edit) : (list.edit edit).Sound := by
  cases edit with
  | put key value => exact sound.put key value
  | clear => exact sound.clear
  | getTimeStamp => exact ⟨sound.sorted, sound.size, sound.range⟩
  | setMemory memory => exact sound.memory memory

theorem sound_run (edits : List Edit) : (run edits).Sound := by
  induction edits with
  | nil => exact sound_new
  | cons edit edits ih => exact ih.edit edit

end SkipList

namespace Table

/-- Which constructor builds a table. -/
inductive Origin
  | flush
  | compaction
  deriving DecidableEq, Repr

/-- What `curlength` advances by for a value, which the flush has moved away by then. -/
def Origin.length : Origin → Str → Nat
  | .flush, _ => Str.empty.size + 1
  | .compaction, value => value.size + 1

/-- The table comes out of a constructor. -/
inductive Built : Origin → Table → Prop
  /-- From a memtable. -/
  | flush {edits : List SkipList.Edit} {pool pool' : Requests} {order : Nat} {table : Table}
      {memTable : SkipList} : (∀ edit ∈ edits, edit.Valid) →
        ofMemTable pool (SkipList.run edits) order = some (table, memTable, pool') →
        Built .flush table
  /-- From entries in ascending order of the keys. -/
  | compaction {entries : List (Nat × Str)} {pool pool' : Requests}
      {level order timeStamp : Nat} {table : Table} : SortedMap.Sorted entries →
        ofEntries pool level order timeStamp entries.length entries = some (table, pool') →
        Built .compaction table

/-- What a constructor fills in. -/
theorem Built.eq_build {origin : Origin} {table : Table} (built : Built origin table) :
    ∃ level order timeStamp minKey maxKey entries,
      table = build level order timeStamp entries.length minKey maxKey origin.length entries ∧
      SortedMap.Sorted entries ∧ entries ≠ [] ∧
      ∀ entry ∈ entries, minKey ≤ entry.1 ∧ entry.1 ≤ maxKey := by
  cases built with
  | @flush edits pool pool' order table memTable valid made =>
      have sound := SkipList.sound_run edits
      generalize SkipList.run edits = list at made sound
      rw [ofMemTable, SkipList.getFirstNode] at made
      cases nodes : list.nodes with
      | nil =>
          rw [nodes] at made
          cases made
      | cons entry rest =>
          simp only [nodes, Option.bind_eq_bind, Option.bind_some, Option.pure_def,
            SkipList.getTimeStamp, Option.some_inj, Prod.mk.injEq] at made
          obtain ⟨rfl, -, -⟩ := made
          refine ⟨0, order, list.timeStamp, list.minKey, list.maxKey, entry :: rest, ?_, ?_, ?_, ?_⟩
          · rw [sound.size, nodes]
            rfl
          · exact nodes ▸ sound.sorted
          · exact List.cons_ne_nil entry rest
          · exact nodes ▸ sound.range
  | @compaction entries pool pool' level order timeStamp table sorted made =>
      rw [ofEntries] at made
      cases entries with
      | nil => cases made
      | cons entry rest =>
          rw [List.head?_cons, List.getLast?_eq_some_getLast (List.cons_ne_nil entry rest)] at made
          simp only [Option.bind_eq_bind, Option.bind_some, Option.pure_def, Option.some_inj,
            Prod.mk.injEq] at made
          obtain ⟨rfl, -⟩ := made
          refine ⟨level, order, timeStamp, _, _, entry :: rest, rfl, sorted, ?_, ?_⟩
          · exact List.cons_ne_nil entry rest
          · intro other mem
            have range := KVStore.range_of_sorted sorted mem
            rwa [List.head?_cons, List.getLast?_eq_some_getLast (List.cons_ne_nil entry rest)]
              at range

theorem Built.sound {origin : Origin} {table : Table} (built : Built origin table) :
    ∃ level, table.Sound level := by
  obtain ⟨level, order, timeStamp, minKey, maxKey, entries, rfl, sorted, nonempty, range⟩ :=
    built.eq_build
  exact ⟨level, sound_build sorted nonempty range⟩

end Table

end ZnsLsm.Store
