import ZnsLsm.Outcome
import ZnsLsm.Store.Iterators

/-!
# What the merge of a compaction outputs

The heads of the iterators have distinct keys, and `minKey` maps these keys to the
iterators.  Every step of the merge keeps the newest value of every key that is still
to come, so the merge outputs the newest value of every key in ascending order.
-/

namespace ZnsLsm.Store

namespace Merge

open SortedMap

/-- The key at the head of an iterator. -/
def headKey (merge : Merge) (i : Nat) : Option Nat :=
  (merge.iters.getD i []).head?.map Prod.fst

/-- `minKey` holds the heads of all iterators but the one at `hole`. -/
structure Heads (hole : Option Nat) (merge : Merge) : Prop where
  iters : ∀ i, Sorted (merge.iters.getD i [])
  minKey : Sorted merge.minKey
  find_iff : ∀ key i, find key merge.minKey = some i ↔
    some i ≠ hole ∧ merge.headKey i = some key

variable {merge : Merge}

theorem headKey_of_cons {i : Nat} {key : Nat} {value : Str} {rest : List (Nat × Str)}
    (head : merge.iters.getD i [] = (key, value) :: rest) : merge.headKey i = some key := by
  rw [headKey, head]
  rfl

theorem exists_of_headKey {i key : Nat} (head : merge.headKey i = some key) :
    ∃ value rest, merge.iters.getD i [] = (key, value) :: rest := by
  rw [headKey] at head
  cases iter : merge.iters.getD i [] with
  | nil =>
      rw [iter] at head
      cases head
  | cons entry rest =>
      rw [iter] at head
      cases head
      exact ⟨entry.2, rest, rfl⟩

/-! ## Advancing one iterator -/

/-- Move the iterator at `i` to `iter`. -/
def move (merge : Merge) (i : Nat) (iter : List (Nat × Str)) : Merge :=
  { merge with iters := merge.iters.set i iter }

theorem getD_move (merge : Merge) (i j : Nat) (iter : List (Nat × Str)) :
    (merge.move i iter).iters.getD j [] =
      if i = j ∧ j < merge.iters.length then iter else merge.iters.getD j [] := by
  simp only [move, List.getD_eq_getElem?_getD, List.getElem?_set]
  split
  · rename_i same
    subst same
    split
    · rename_i lt
      simp [lt]
    · rename_i ge
      simp [ge]
  · rename_i ne
    simp [ne]

@[simp]
theorem headKey_move_of_ne {i j : Nat} (ne : i ≠ j) (iter : List (Nat × Str)) :
    (merge.move i iter).headKey j = merge.headKey j := by
  rw [headKey, headKey, getD_move, if_neg fun both => ne both.1]

theorem lt_of_cons {i : Nat} {entry : Nat × Str} {rest : List (Nat × Str)}
    (head : merge.iters.getD i [] = entry :: rest) : i < merge.iters.length := by
  by_contra ge
  rw [List.getD_eq_default _ _ (Nat.le_of_not_lt ge)] at head
  cases head

/-- The iterator that has no entry in `minKey` may move on. -/
theorem Heads.advance {i : Nat} {entry : Nat × Str} {rest : List (Nat × Str)}
    (heads : merge.Heads (some i)) (head : merge.iters.getD i [] = entry :: rest) :
    (merge.move i rest).Heads (some i) where
  iters j := by
    rw [getD_move]
    split
    · have sorted := heads.iters i
      rw [head] at sorted
      exact sorted.tail
    · exact heads.iters j
  minKey := heads.minKey
  find_iff key j := by
    change find key merge.minKey = some j ↔ _
    rw [heads.find_iff key j]
    apply and_congr_right
    intro ne
    rw [headKey_move_of_ne fun same => ne (congrArg some same.symm)]

theorem left_move {i : Nat} {entry : Nat × Str} {rest : List (Nat × Str)}
    (head : merge.iters.getD i [] = entry :: rest) :
    (merge.move i rest).left + 1 = merge.left := by
  have lt := lt_of_cons head
  have at_i : merge.iters[i] = entry :: rest := by
    rw [← head, List.getD_eq_getElem _ _ lt]
  have split := List.take_append_drop i merge.iters
  rw [List.drop_eq_getElem_cons lt, at_i] at split
  rw [left, left, move, List.set_eq_take_append_cons_drop, if_pos lt]
  conv_rhs => rw [← split]
  simp only [List.map_append, List.map_cons, List.sum_append, List.sum_cons,
    List.length_cons]
  omega

/-- An iterator may pass a key that a later table still has. -/
theorem newest_move_shadowed {i j : Nat} {select : Nat} {value : Str}
    {rest : List (Nat × Str)} (head : merge.iters.getD i [] = (select, value) :: rest)
    (less : i < j) (later : merge.headKey j = some select) (key : Nat) :
    newest key (merge.move i rest).iters = newest key merge.iters := by
  by_cases same : select = key
  · subst same
    obtain ⟨value', rest', iter⟩ := exists_of_headKey later
    apply newest_set_of_shadowed rest less
    rw [iter, find_cons_self]
    rfl
  · apply newest_set
    rw [head, find_cons_of_ne same]

/-! ## `update` -/

/-- Enter the head of the iterator at `i` into `minKey`. -/
def enter (merge : Merge) (select i : Nat) : Merge :=
  { merge with minKey := assign select i merge.minKey }

/-- A new head enters `minKey`. -/
theorem Heads.enter_new {i select : Nat} (heads : merge.Heads (some i))
    (head : merge.headKey i = some select) (new : find select merge.minKey = none) :
    (merge.enter select i).Heads none where
  iters := heads.iters
  minKey := heads.minKey.assign select i
  find_iff key j := by
    change find key (assign select i merge.minKey) = some j ↔ some j ≠ none ∧ merge.headKey j = _
    rw [find_assign]
    by_cases same : i = j
    · subst same
      rw [head]
      constructor
      · intro found
        split at found
        · rename_i equal
          exact ⟨Option.some_ne_none i, congrArg some equal⟩
        · exact absurd rfl ((heads.find_iff key i).mp found).1
      · rintro ⟨-, equal⟩
        rw [if_pos (Option.some.inj equal)]
    · have other := heads.find_iff key j
      rw [ne_eq, Option.some.injEq, eq_false (Ne.symm same), not_false_eq_true, true_and] at other
      rw [ne_eq, eq_false (Option.some_ne_none j), not_false_eq_true, true_and, ← other]
      split
      · rename_i equal
        subst equal
        rw [new]
        simp [same]
      · rfl

/-- A head of a later table takes the place of an equal one, whose iterator is now the
one without an entry. -/
theorem Heads.enter_later {i j select : Nat} (heads : merge.Heads (some i))
    (head : merge.headKey i = some select) (old : find select merge.minKey = some j) :
    (merge.enter select i).Heads (some j) where
  iters := heads.iters
  minKey := heads.minKey.assign select i
  find_iff key p := by
    change find key (assign select i merge.minKey) = some p ↔
      some p ≠ some j ∧ merge.headKey p = _
    obtain ⟨ne, head_j⟩ := (heads.find_iff select j).mp old
    rw [find_assign]
    split
    · rename_i equal
      subst equal
      constructor
      · intro same
        cases same
        exact ⟨Ne.symm ne, head⟩
      · rintro ⟨apart, head_p⟩
        by_contra ne_p
        have found : find select merge.minKey = some p :=
          (heads.find_iff select p).mpr ⟨Ne.symm ne_p, head_p⟩
        exact apart (found.symm.trans old)
    · rename_i unequal
      rw [heads.find_iff key p]
      constructor
      · rintro ⟨-, head_p⟩
        refine ⟨?_, head_p⟩
        intro same
        cases same
        exact unequal (Option.some.inj (head_j.symm.trans head_p))
      · rintro ⟨-, head_p⟩
        refine ⟨?_, head_p⟩
        intro same
        cases same
        exact unequal (Option.some.inj (head.symm.trans head_p))

/-- An iterator at its end needs no entry in `minKey`. -/
theorem Heads.of_end {i : Nat} (heads : merge.Heads (some i))
    (iter : merge.iters.getD i [] = []) : merge.Heads none where
  iters := heads.iters
  minKey := heads.minKey
  find_iff key j := by
    rw [heads.find_iff key j]
    constructor
    · rintro ⟨-, head⟩
      exact ⟨Option.some_ne_none j, head⟩
    · rintro ⟨-, head⟩
      refine ⟨?_, head⟩
      intro same
      cases same
      rw [headKey, iter] at head
      cases head

/-- `update` gives the iterator without an entry in `minKey` one, or finds it at the
end.  It keeps the newest values. -/
theorem update_spec {fuel : Nat} : ∀ {merge : Merge} {i : Nat}, merge.Heads (some i) →
    2 * merge.left < fuel → ∃ merge', update fuel i merge = .ok merge' ∧
      merge'.Heads none ∧ merge'.left ≤ merge.left ∧
      ∀ key, newest key merge'.iters = newest key merge.iters := by
  induction fuel using Nat.strong_induction_on with
  | _ fuel ih =>
      intro merge i heads enough
      obtain ⟨fuel, rfl⟩ : ∃ fuel', fuel = fuel' + 1 := ⟨fuel - 1, by omega⟩
      rw [update]
      cases iter : merge.iters.getD i [] with
      | nil =>
          exact ⟨merge, rfl, heads.of_end iter, Nat.le_refl _, fun _ => rfl⟩
      | cons entry rest =>
          rcases entry with ⟨select, value⟩
          have head := headKey_of_cons iter
          have fewer := left_move iter
          dsimp only
          cases entered : find select merge.minKey with
          | none =>
              exact ⟨merge.enter select i, rfl, heads.enter_new head entered, Nat.le_refl _,
                fun _ => rfl⟩
          | some pos =>
              obtain ⟨ne, head_pos⟩ := (heads.find_iff select pos).mp entered
              dsimp only
              split
              · rename_i less
                -- The next round passes the head of the earlier table.
                have heads' := heads.enter_later head entered
                obtain ⟨value', rest', iter'⟩ := exists_of_headKey head_pos
                obtain ⟨fuel, rfl⟩ : ∃ fuel', fuel = fuel' + 1 := ⟨fuel - 1, by omega⟩
                have fewer' := left_move iter'
                have iterEq : (merge.enter select i).iters.getD pos [] =
                    (select, value') :: rest' := iter'
                obtain ⟨merge', ran, heads'', le, same⟩ :=
                  ih fuel (by omega) (heads'.advance iterEq) (by
                    change 2 * (merge.move pos rest').left < fuel
                    omega)
                have later : find select (merge.enter select i).minKey = some i := by
                  simp [enter]
                refine ⟨merge', ?_, heads'', ?_, ?_⟩
                · change update (fuel + 1) pos (merge.enter select i) = _
                  rw [update, iterEq]
                  simp only [later, if_neg (Nat.lt_asymm less)]
                  exact ran
                · change merge'.left ≤ (merge.move pos rest').left at le
                  omega
                · intro key
                  rw [same key]
                  exact newest_move_shadowed iter' less head key
              · rename_i notLess
                have less : i < pos := by
                  have apart : pos ≠ i := fun same => ne (congrArg some same)
                  omega
                obtain ⟨merge', ran, heads', le, same⟩ :=
                  ih fuel (by omega) (heads.advance iter) (by omega)
                refine ⟨merge', ran, heads', by omega, ?_⟩
                intro key
                rw [same key]
                exact newest_move_shadowed iter less head_pos key

/-! ## The first iterators -/

theorem sorted_skip {minKey : List (Nat × Nat)} {entries : List (Nat × Str)}
    (sorted : Sorted entries) : Sorted (skip minKey entries) := by
  induction entries with
  | nil => exact sorted
  | cons entry rest ih =>
      rw [skip]
      split
      · exact ih sorted.tail
      · exact sorted

@[simp]
theorem find_skip {minKey : List (Nat × Nat)} {entries : List (Nat × Str)} {key : Nat}
    (absent : find key minKey = none) : find key (skip minKey entries) = find key entries := by
  induction entries with
  | nil => rfl
  | cons entry rest ih =>
      rw [skip]
      split
      · rename_i present
        have ne : entry.1 ≠ key := by
          rintro rfl
          rw [absent] at present
          cases present
        rw [ih, find_cons_of_ne ne]
      · rfl

theorem absent_of_skip {minKey : List (Nat × Nat)} {entries : List (Nat × Str)}
    {entry : Nat × Str} {rest : List (Nat × Str)}
    (skipped : skip minKey entries = entry :: rest) : find entry.1 minKey = none := by
  induction entries with
  | nil => cases skipped
  | cons first later ih =>
      rw [skip] at skipped
      split at skipped
      · exact ih skipped
      · rename_i absent
        cases skipped
        exact Option.not_isSome_iff_eq_none.mp absent

theorem length_skip_le (minKey : List (Nat × Nat)) (entries : List (Nat × Str)) :
    (skip minKey entries).length ≤ entries.length := by
  induction entries with
  | nil => exact Nat.le_refl _
  | cons entry rest ih =>
      rw [skip]
      split
      · exact Nat.le_succ_of_le ih
      · exact Nat.le_refl _

/-- The first iterators of the tables from `i` on. -/
structure Started (tables : List (List (Nat × Str))) (i : Nat) (merge : Merge) : Prop where
  iters : ∀ j, Sorted (merge.iters.getD j [])
  minKey : Sorted merge.minKey
  find_iff : ∀ key p, find key merge.minKey = some p ↔
    ∃ j, p = i + j ∧ merge.headKey j = some key
  newest : ∀ key, newest key merge.iters = newest key tables
  left : merge.left ≤ (tables.map List.length).sum

section Tables

variable {tables : List (List (Nat × Str))} {i : Nat}

/-- The heads of the later tables, counted from the table before them. -/
theorem Started.find_iff_succ (started : Started tables (i + 1) merge) (key p : Nat) :
    find key merge.minKey = some p ↔
      ∃ j, p = i + (j + 1) ∧ merge.headKey j = some key := by
  rw [started.find_iff key p]
  constructor
  · rintro ⟨j, rfl, head⟩
    exact ⟨j, by omega, head⟩
  · rintro ⟨j, rfl, head⟩
    exact ⟨j, by omega, head⟩

/-- The heads are the new one and those of the later tables. -/
theorem Started.head_cons_iff (started : Started tables (i + 1) merge)
    (iter : List (Nat × Str)) (key p : Nat) :
    (∃ j, p = i + j ∧ headKey ⟨iter :: merge.iters, merge.minKey⟩ j = some key) ↔
      p = i ∧ iter.head?.map Prod.fst = some key ∨ find key merge.minKey = some p := by
  rw [started.find_iff_succ key p]
  constructor
  · rintro ⟨_ | j, rfl, head⟩
    · exact .inl ⟨rfl, head⟩
    · exact .inr ⟨j, rfl, head⟩
  · rintro (⟨rfl, head⟩ | ⟨j, rfl, head⟩)
    · exact ⟨0, rfl, head⟩
    · exact ⟨j + 1, rfl, head⟩

/-- Only entries that a later table replaces are skipped. -/
theorem Started.newest_cons (started : Started tables (i + 1) merge)
    (entries : List (Nat × Str)) (key : Nat) :
    SortedMap.newest key (skip merge.minKey entries :: merge.iters) =
      SortedMap.newest key (entries :: tables) := by
  rw [SortedMap.newest, SortedMap.newest, ← started.newest key]
  cases present : find key merge.minKey with
  | none => rw [find_skip present]
  | some p =>
      obtain ⟨j, -, head⟩ := (started.find_iff key p).mp present
      obtain ⟨value, rest, iter⟩ := exists_of_headKey head
      cases newestHere : SortedMap.newest key merge.iters with
      | none =>
          have none_j := find_getD_eq_none newestHere j
          rw [iter, find_cons_self] at none_j
          cases none_j
      | some value => rfl

theorem started (sorted : ∀ entries ∈ tables, Sorted entries) (i : Nat) :
    Started tables i (start tables i) := by
  induction tables generalizing i with
  | nil =>
      refine ⟨fun j => List.Pairwise.nil, List.Pairwise.nil, ?_, fun _ => rfl, Nat.le_refl _⟩
      intro key p
      constructor
      · intro found
        cases found
      · rintro ⟨j, -, head⟩
        cases head
  | cons entries tables ih =>
      have later := ih (fun entries mem => sorted entries (List.mem_cons_of_mem _ mem)) (i + 1)
      have iterSorted : Sorted (skip (start tables (i + 1)).minKey entries) :=
        sorted_skip (sorted entries List.mem_cons_self)
      rw [start]
      generalize start tables (i + 1) = merge at *
      constructor
      · rintro (_ | j)
        · exact iterSorted
        · exact later.iters j
      · simp only
        split
        · exact later.minKey
        · exact later.minKey.assign ..
      · intro key p
        refine Iff.trans ?_ (later.head_cons_iff _ key p).symm
        cases skipped : skip merge.minKey entries with
        | nil => simp
        | cons entry rest =>
            have absent := absent_of_skip skipped
            change find key (assign entry.1 i merge.minKey) = some p ↔ _
            by_cases same : entry.1 = key
            · subst same
              simp [absent, eq_comm]
            · simp [same]
      · exact later.newest_cons entries
      · change (skip merge.minKey entries).length + (merge.iters.map List.length).sum ≤
          entries.length + (tables.map List.length).sum
        exact Nat.add_le_add (length_skip_le ..) later.left

end Tables

/-- All heads are in `minKey` at the start. -/
theorem heads_start {tables : List (List (Nat × Str))}
    (sorted : ∀ entries ∈ tables, Sorted entries) : (start tables 0).Heads none where
  iters := (started sorted 0).iters
  minKey := (started sorted 0).minKey
  find_iff key i := by
    rw [(started sorted 0).find_iff key i]
    simp

/-! ## The main loop -/

/-- The iterator of the least head. -/
theorem Heads.first {key index : Nat} {minKey : List (Nat × Nat)}
    (heads : merge.Heads none) (least : merge.minKey = (key, index) :: minKey) :
    ∃ value rest, merge.iters.getD index [] = (key, value) :: rest ∧
      (∀ j ≠ index, ∀ other, (find other (merge.iters.getD j [])).isSome → key < other) ∧
      Heads (some index) ⟨merge.iters.set index rest, minKey⟩ := by
  have sorted : Sorted ((key, index) :: minKey) := least ▸ heads.minKey
  have found : find key merge.minKey = some index := by rw [least, find_cons_self]
  obtain ⟨value, rest, iter⟩ := exists_of_headKey ((heads.find_iff key index).mp found).2
  refine ⟨value, rest, iter, ?_, ?_⟩
  · intro j ne other present
    cases iter_j : merge.iters.getD j [] with
    | nil =>
        rw [iter_j] at present
        cases present
    | cons entry rest_j =>
        have head := headKey_of_cons iter_j
        have mem := (heads.find_iff entry.1 j).mpr ⟨Option.some_ne_none j, head⟩
        have later : key < entry.1 := by
          rw [least] at mem
          have apart : key ≠ entry.1 := by
            rintro rfl
            rw [find_cons_self] at mem
            exact ne (Option.some.inj mem).symm
          rw [find_cons_of_ne apart] at mem
          exact sorted.lt_of_find (mem ▸ rfl)
        have sorted_j := heads.iters j
        rw [iter_j] at sorted_j present
        exact later.trans_le (sorted_j.le_of_find present)
  · constructor
    · intro j
      change Sorted ((merge.move index rest).iters.getD j [])
      rw [getD_move]
      split
      · have sorted_i := heads.iters index
        rw [iter] at sorted_i
        exact sorted_i.tail
      · exact heads.iters j
    · exact sorted.tail
    · intro other j
      change find other minKey = some j ↔
        some j ≠ some index ∧ (merge.move index rest).headKey j = some other
      rw [sorted.find_tail, ← least]
      by_cases same : index = j
      · subst same
        constructor
        · intro held
          split at held
          · cases held
          · rename_i apart
            have head := ((heads.find_iff other index).mp held).2
            rw [headKey_of_cons iter] at head
            exact absurd (Option.some.inj head).symm apart
        · rintro ⟨apart, -⟩
          exact absurd rfl apart
      · rw [headKey_move_of_ne same, ne_eq, Option.some.injEq, eq_false (Ne.symm same),
          not_false_eq_true, true_and]
        have other_iff := heads.find_iff other j
        rw [ne_eq, eq_false (Option.some_ne_none j), not_false_eq_true, true_and] at other_iff
        rw [← other_iff]
        split
        · rename_i equal
          subst equal
          rw [found]
          simp [same]
        · rfl

/-- Without a head nothing is left to merge. -/
theorem Heads.newest_eq_none (heads : merge.Heads none) (least : merge.minKey = []) (key : Nat) :
    newest key merge.iters = none := by
  rw [newest_eq_none_iff]
  intro entries mem
  obtain ⟨j, at_j⟩ := List.mem_iff_getElem?.mp mem
  have iter : merge.iters.getD j [] = entries := by
    rw [List.getD_eq_getElem?_getD, at_j]
    rfl
  cases entries with
  | nil => rfl
  | cons entry rest =>
      have held := (heads.find_iff entry.1 j).mpr
        ⟨Option.some_ne_none j, headKey_of_cons iter⟩
      rw [least] at held
      cases held

/-- Behind the least head only greater keys are left. -/
theorem Heads.lt_of_newest {key index : Nat} {value : Str} {rest : List (Nat × Str)}
    (heads : merge.Heads none) (iter : merge.iters.getD index [] = (key, value) :: rest)
    (greater : ∀ j ≠ index, ∀ other, (find other (merge.iters.getD j [])).isSome → key < other)
    {other : Nat} (present : (newest other (merge.iters.set index rest)).isSome) : key < other := by
  by_contra notLess
  have absent : ∀ entries ∈ merge.iters.set index rest, find other entries = none := by
    intro entries mem
    obtain ⟨j, at_j⟩ := List.mem_iff_getElem?.mp mem
    by_contra isSome
    have held : (find other ((merge.move index rest).iters.getD j [])).isSome := by
      rw [List.getD_eq_getElem?_getD, move, at_j]
      exact Option.ne_none_iff_isSome.mp isSome
    rw [getD_move] at held
    split at held
    · have sorted_i := heads.iters index
      rw [iter] at sorted_i
      exact notLess (sorted_i.lt_of_find held)
    · rename_i outside
      by_cases at_index : index = j
      · subst at_index
        exact outside ⟨rfl, lt_of_cons iter⟩
      · exact notLess (greater j (Ne.symm at_index) other held)
  rw [newest_eq_none_iff.mpr absent] at present
  cases present

/-- One round of a scan takes the least head as the merge does. -/
theorem run_of_least {fuel key index : Nat} {value : Str} {rest : List (Nat × Str)}
    {minKey : List (Nat × Nat)} {merge' : Merge} {scan : Scan} (assigned : scan.Assigned)
    (least : scan.minKey = (key, index) :: minKey)
    (iter : scan.toMerge.iters.getD index [] = (key, value) :: rest)
    (ran : update (2 * scan.toMerge.left + 1) index
      ⟨scan.toMerge.iters.set index rest, minKey⟩ = .ok merge') :
    ∃ scan' : Scan, scan'.Assigned ∧ scan'.toMerge = merge' ∧
      scan.run (fuel + 1) = scan'.run fuel >>= fun visited => pure ((key, value) :: visited) := by
  obtain ⟨iter', isSet⟩ := assigned (key, index) (least ▸ List.mem_cons_self)
  rw [Scan.getD_toMerge, isSet, Option.getD_some] at iter
  subst iter
  have after : (⟨scan.iters.set index (some rest), minKey⟩ : Scan).Assigned := by
    intro entry mem
    exact assigned.set index rest entry (least ▸ List.mem_cons_of_mem _ mem)
  have moved : ∃ iter', (scan.iters.set index (some rest)).getD index none = some iter' :=
    Scan.isSet_set isSet
  obtain ⟨iter', isSet'⟩ := moved
  obtain ⟨scan', updated, same, assigned'⟩ :=
    Scan.update_toMerge after isSet' ((Scan.toMerge_set ..).symm ▸ ran)
  refine ⟨scan', assigned', same, ?_⟩
  rw [Scan.run, least]
  dsimp only
  rw [isSet]
  dsimp only
  rw [updated]
  rfl

/-- The loop outputs a sorted list of the newest values, and meets no iterator that was
never assigned. -/
theorem mergeLoop_spec {fuel : Nat} : ∀ {merge : Merge}, merge.Heads none →
    merge.left < fuel → ∃ entries, Sorted entries ∧
      (∀ key, find key entries = newest key merge.iters) ∧
      (∀ level timestamp lastLevel out,
        KVStore.mergeLoop level timestamp lastLevel fuel merge out =
          entries.foldlM (KVStore.Output.add level timestamp lastLevel) out) ∧
      ∀ scan : Scan, scan.Assigned → scan.toMerge = merge → scan.run fuel = .ok entries := by
  induction fuel with
  | zero =>
      intro merge _ enough
      exact absurd enough (Nat.not_lt_zero _)
  | succ fuel ih =>
      intro merge heads enough
      cases least : merge.minKey with
      | nil =>
          refine ⟨[], List.Pairwise.nil, ?_, ?_, ?_⟩
          · intro key
            rw [find_nil, heads.newest_eq_none least key]
          · intro level timestamp lastLevel out
            rw [KVStore.mergeLoop, least]
            rfl
          · rintro scan - rfl
            have none : scan.minKey = [] := least
            rw [Scan.run, none]
            rfl
      | cons first minKey =>
          rcases first with ⟨key, index⟩
          obtain ⟨value, rest, iter, greater, heads'⟩ := heads.first least
          have fewer := left_move iter
          have enough : 2 * (merge.move index rest).left < 2 * merge.left + 1 := by omega
          obtain ⟨merge', ran, heads'', le, same⟩ := update_spec heads' enough
          change merge'.left ≤ (merge.move index rest).left at le
          obtain ⟨entries, sorted, found, loop, scans⟩ := ih heads'' (by omega)
          refine ⟨(key, value) :: entries, ?_, ?_, ?_, ?_⟩
          · refine List.pairwise_cons.mpr ⟨?_, sorted⟩
            intro entry mem
            apply heads.lt_of_newest iter greater
            rw [← same entry.1, ← found entry.1, sorted.find_of_mem mem]
            rfl
          · intro other
            by_cases equal : key = other
            · subst equal
              rw [find_cons_self, newest_of_unique (i := index), iter, find_cons_self]
              intro j ne
              by_contra present
              exact lt_irrefl _ (greater j ne key (Option.ne_none_iff_isSome.mp present))
            · rw [find_cons_of_ne equal, found other, same other]
              apply newest_set
              rw [iter, find_cons_of_ne equal]
          · intro level timestamp lastLevel out
            rw [KVStore.mergeLoop, least]
            dsimp only
            rw [iter, List.foldlM_cons]
            dsimp only
            apply congrArg
            funext out'
            rw [ran]
            exact loop level timestamp lastLevel out'
          · rintro scan assigned rfl
            obtain ⟨scan', assigned', same', stepped⟩ := run_of_least assigned least iter ran
            rw [stepped, scans scan' assigned' same']
            rfl

/-- A merge of tables outputs the map of their newest values. -/
theorem mergeLoop_start {tables : List (List (Nat × Str))}
    (sorted : ∀ entries ∈ tables, Sorted entries) (level timestamp : Nat) (lastLevel : Bool)
    (out : KVStore.Output) :
    KVStore.mergeLoop level timestamp lastLevel ((tables.map List.length).sum + 1)
        (start tables 0) out =
      (SortedMap.merge tables).foldlM (KVStore.Output.add level timestamp lastLevel) out := by
  obtain ⟨entries, entriesSorted, found, loop, -⟩ :=
    mergeLoop_spec (heads_start sorted) (Nat.lt_succ_of_le (started sorted 0).left)
  rw [loop, entriesSorted.ext (sorted_merge sorted)]
  intro key
  rw [found key, (started sorted 0).newest key, find_merge sorted]

end Merge

/-! ## What a scan visits -/

open SortedMap

/-- The visited entries are those of the newest tables, in ascending order of the keys. -/
structure ExactMerge (tables : List (List (Nat × Str))) (visited : List (Nat × Str)) : Prop where
  ascending : Sorted visited
  keys : ∀ key, key ∈ visited.map Prod.fst ↔ ∃ entries ∈ tables, key ∈ entries.map Prod.fst
  newest : ∀ key value, (key, value) ∈ visited → ∃ i, (key, value) ∈ tables.getD i [] ∧
    ∀ j > i, key ∉ (tables.getD j []).map Prod.fst

theorem exactMerge_of_find {tables : List (List (Nat × Str))} {visited : List (Nat × Str)}
    (ascending : Sorted visited)
    (found : ∀ key, find key visited = SortedMap.newest key tables) :
    ExactMerge tables visited := by
  constructor
  · exact ascending
  · intro key
    rw [mem_keys_iff, found, ← not_iff_not, Option.not_isSome_iff_eq_none, newest_eq_none_iff]
    simp only [mem_keys_iff, not_exists, not_and, Option.not_isSome_iff_eq_none]
  · intro key value mem
    have isNewest := (found key).symm.trans (ascending.find_of_mem mem)
    obtain ⟨i, here, later⟩ := newest_eq_some_iff.mp isNewest
    refine ⟨i, mem_of_find here, fun j greater => ?_⟩
    rw [mem_keys_iff, later j greater]
    exact Bool.false_ne_true

/-- From tables in ascending order, the initial fill and the main loop end without a fault and
visit exactly the newest entries, and the compaction writes what they visit. -/
theorem exactMerge_of_sorted (tables : List (List (Nat × Str)))
    (sorted : ∀ entries ∈ tables, Sorted entries) :
    ∃ visited, (Scan.start tables 0).run ((tables.map List.length).sum + 1) = .ok visited ∧
      ExactMerge tables visited ∧
      ∀ level timestamp lastLevel out,
        KVStore.mergeLoop level timestamp lastLevel ((tables.map List.length).sum + 1)
            (Merge.start tables 0) out =
          visited.foldlM (KVStore.Output.add level timestamp lastLevel) out := by
  have started := Merge.started sorted 0
  obtain ⟨visited, ascending, found, loop, scans⟩ :=
    Merge.mergeLoop_spec (Merge.heads_start sorted) (Nat.lt_succ_of_le started.left)
  refine ⟨visited, ?_, ?_, loop⟩
  · exact scans _ (Scan.assigned_start tables) (Scan.start_toMerge tables 0).1
  · apply exactMerge_of_find ascending
    intro key
    rw [found key, started.newest key]

/-- Three tables of which the first runs out during the initial fill. -/
theorem exactMerge_of_shadowed :
    Scan.run 7 (Scan.start
        [[(2, .empty)], [(1, .empty), (2, .del), (5, .empty)], [(2, .empty), (5, .del)]] 0) =
      .ok [(1, .empty), (2, .empty), (5, .del)] ∧
    ∃ visited, ExactMerge
      [[(2, .empty)], [(1, .empty), (2, .del), (5, .empty)], [(2, .empty), (5, .del)]] visited := by
  constructor
  · decide +kernel
  · obtain ⟨visited, -, exact, -⟩ := exactMerge_of_sorted
      [[(2, .empty)], [(1, .empty), (2, .del), (5, .empty)], [(2, .empty), (5, .del)]]
      (by simp [Sorted])
    exact ⟨visited, exact⟩

end ZnsLsm.Store
