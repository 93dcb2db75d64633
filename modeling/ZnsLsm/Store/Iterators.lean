import ZnsLsm.Store.KVStore

/-!
# Iterators that were never assigned

`Merge` counts an iterator that was never assigned as one at the end.  `Scan` tells the
two apart: to compare or to dereference an iterator that was never assigned is a fault, and
so is to dereference one at the end.  A scan that meets no fault does what the merge does.
-/

namespace ZnsLsm.Store

/-- Why a scan does not return. -/
inductive ScanFault
  /-- A use of an iterator that was never assigned. -/
  | unset
  /-- A dereference of an iterator at the end. -/
  | pastEnd
  /-- A loop ran longer than the fuel. -/
  | fuel
  deriving DecidableEq, Repr

/-- `KVToCompactIter` and `minKey`; `none` is an iterator that was never assigned. -/
structure Scan where
  iters : List (Option (List (Nat × Str)))
  minKey : List (Nat × Nat)

namespace Scan

open SortedMap

/-- The loop that assigns the first iterators, from the last table to the first. -/
def start : List (List (Nat × Str)) → Nat → Scan
  | [], _ => ⟨[], []⟩
  | entries :: tables, i =>
      let scan := start tables (i + 1)
      match Merge.skip scan.minKey entries with
      | [] => ⟨none :: scan.iters, scan.minKey⟩
      | entry :: rest => ⟨some (entry :: rest) :: scan.iters, assign entry.1 i scan.minKey⟩

/-- `update`. -/
def update : Nat → Nat → Scan → Except ScanFault Scan
  | 0, _, _ => throw .fuel
  | fuel + 1, index, scan =>
      match scan.iters.getD index none with
      | none => throw .unset
      | some [] => pure scan
      | some ((select, _) :: rest) =>
          match find select scan.minKey with
          | none => pure { scan with minKey := assign select index scan.minKey }
          | some pos =>
              if pos < index then
                update fuel pos { scan with minKey := assign select index scan.minKey }
              else
                update fuel index { scan with iters := scan.iters.set index (some rest) }

/-- The merge that counts every iterator without a position as one at the end. -/
def toMerge (scan : Scan) : Merge :=
  ⟨scan.iters.map (·.getD []), scan.minKey⟩

/-- The entries that the main loop visits. -/
def run : Nat → Scan → Except ScanFault (List (Nat × Str))
  | 0, _ => throw .fuel
  | fuel + 1, scan =>
      match scan.minKey with
      | [] => pure []
      | (tempKey, index) :: minKey =>
          match scan.iters.getD index none with
          | none => throw .unset
          | some [] => throw .pastEnd
          | some ((_, tempValue) :: rest) => do
              let scan ← update (2 * scan.toMerge.left + 1) index
                ⟨scan.iters.set index (some rest), minKey⟩
              let visited ← run fuel scan
              pure ((tempKey, tempValue) :: visited)

/-- Every iterator with an entry in `minKey` was assigned. -/
def Assigned (scan : Scan) : Prop :=
  ∀ entry ∈ scan.minKey, ∃ iter, scan.iters.getD entry.2 none = some iter

variable {scan : Scan}

theorem getD_toMerge (scan : Scan) (i : Nat) :
    scan.toMerge.iters.getD i [] = (scan.iters.getD i none).getD [] := by
  simp only [toMerge, List.getD_eq_getElem?_getD, List.getElem?_map]
  cases scan.iters[i]? <;> rfl

@[simp]
theorem toMerge_set (scan : Scan) (i : Nat) (rest : List (Nat × Str)) (minKey : List (Nat × Nat)) :
    (⟨scan.iters.set i (some rest), minKey⟩ : Scan).toMerge =
      ⟨scan.toMerge.iters.set i rest, minKey⟩ := by
  simp only [toMerge, List.map_set, Option.getD_some]

/-- An iterator that was assigned stays so. -/
theorem isSet_set {i j : Nat} {iter rest : List (Nat × Str)}
    (isSet : scan.iters.getD j none = some iter) :
    ∃ iter', (scan.iters.set i (some rest)).getD j none = some iter' := by
  rw [List.getD_eq_getElem?_getD] at isSet
  rw [List.getD_eq_getElem?_getD, List.getElem?_set]
  split
  · rename_i same
    subst same
    split
    · exact ⟨rest, rfl⟩
    · rename_i ge
      rw [List.getElem?_eq_none (Nat.le_of_not_lt ge)] at isSet
      cases isSet
  · exact ⟨iter, isSet⟩

theorem Assigned.set (assigned : scan.Assigned) (i : Nat) (rest : List (Nat × Str)) :
    Assigned ⟨scan.iters.set i (some rest), scan.minKey⟩ := by
  intro entry mem
  obtain ⟨iter, isSet⟩ := assigned entry mem
  exact isSet_set isSet

theorem Assigned.assign (assigned : scan.Assigned) {i : Nat} {iter : List (Nat × Str)}
    (isSet : scan.iters.getD i none = some iter) (select : Nat) :
    Assigned ⟨scan.iters, assign select i scan.minKey⟩ := by
  intro entry mem
  rcases mem_assign mem with rfl | old
  · exact ⟨iter, isSet⟩
  · exact assigned entry old

/-- At an iterator that was assigned, `update` does what it does in the merge. -/
theorem update_toMerge {fuel : Nat} : ∀ {scan : Scan} {index : Nat} {iter : List (Nat × Str)}
    {merge' : Merge}, scan.Assigned → scan.iters.getD index none = some iter →
    Merge.update fuel index scan.toMerge = .ok merge' →
      ∃ scan', update fuel index scan = .ok scan' ∧ scan'.toMerge = merge' ∧
        scan'.Assigned := by
  induction fuel with
  | zero =>
      intro _ _ _ _ _ _ ok
      cases ok
  | succ fuel ih =>
      intro scan index iter merge' assigned isSet ok
      rw [Merge.update, getD_toMerge, isSet, Option.getD_some] at ok
      rw [update, isSet]
      cases iter with
      | nil =>
          cases ok
          exact ⟨scan, rfl, rfl, assigned⟩
      | cons entry rest =>
          rcases entry with ⟨select, value⟩
          dsimp only at ok ⊢
          change (match find select scan.minKey with | none => _ | some pos => _) = _ at ok
          cases entered : find select scan.minKey with
          | none =>
              rw [entered] at ok
              cases ok
              exact ⟨_, rfl, rfl, assigned.assign isSet select⟩
          | some pos =>
              rw [entered] at ok
              dsimp only at ok ⊢
              split
              · rename_i less
                rw [if_pos less] at ok
                obtain ⟨iter', isSet'⟩ := assigned _ (mem_of_find entered)
                exact ih (assigned.assign isSet select) isSet' ok
              · rename_i notLess
                rw [if_neg notLess] at ok
                have moved : ∃ iter', (scan.iters.set index (some rest)).getD index none =
                    some iter' := isSet_set isSet
                obtain ⟨iter', isSet'⟩ := moved
                apply ih (assigned.set index rest) isSet'
                rw [toMerge_set]
                exact ok

/-- The first iterators are those of the merge, and those with a key were assigned. -/
theorem start_toMerge (tables : List (List (Nat × Str))) (i : Nat) :
    (start tables i).toMerge = Merge.start tables i ∧
      ∀ entry ∈ (start tables i).minKey, ∃ j iter, entry.2 = i + j ∧
        (start tables i).iters.getD j none = some iter := by
  induction tables generalizing i with
  | nil => exact ⟨rfl, fun _ mem => by cases mem⟩
  | cons entries tables ih =>
      obtain ⟨same, assigned⟩ := ih (i + 1)
      have later : ∀ entry ∈ (start tables (i + 1)).minKey, ∀ first, ∃ j iter,
          entry.2 = i + j ∧ (first :: (start tables (i + 1)).iters).getD j none = some iter := by
        intro entry mem first
        obtain ⟨j, iter, number, isSet⟩ := assigned entry mem
        exact ⟨j + 1, iter, by omega, isSet⟩
      have minKey : (Merge.start tables (i + 1)).minKey = (start tables (i + 1)).minKey := by
        rw [← same]
        rfl
      have iters : (Merge.start tables (i + 1)).iters =
          (start tables (i + 1)).iters.map (·.getD []) := by
        rw [← same]
        rfl
      rw [start, Merge.start, minKey, iters]
      cases skipped : Merge.skip (start tables (i + 1)).minKey entries with
      | nil => exact ⟨rfl, fun entry mem => later entry mem none⟩
      | cons entry rest =>
          refine ⟨rfl, fun other mem => ?_⟩
          rcases mem_assign mem with rfl | old
          · exact ⟨0, entry :: rest, rfl, rfl⟩
          · exact later other old _

theorem assigned_start (tables : List (List (Nat × Str))) : (start tables 0).Assigned := by
  intro entry mem
  obtain ⟨j, iter, number, isSet⟩ := (start_toMerge tables 0).2 entry mem
  rw [Nat.zero_add] at number
  exact ⟨iter, number ▸ isSet⟩

end Scan

end ZnsLsm.Store
