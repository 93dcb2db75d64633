import Mathlib.Algebra.GroupWithZero.Nat
import Mathlib.Order.Lattice
import Mathlib.Data.List.Pairwise
import Mathlib.Data.List.TakeWhile

/-!
# Maps as sorted association lists

A finite map is the list of its entries in ascending order of the keys.  `assign`
inserts or overwrites, and two maps with the same lookups are the same list.  Of
several maps in the order of their age, `newest` looks a key up in the last one that
has it, and `merge` is the map of these newest values.
-/

namespace ZnsLsm.SortedMap

universe u v

variable {κ : Type u} {β : Type v} [LinearOrder κ]

/-- The entries stand in strictly ascending order of their keys. -/
def Sorted (entries : List (κ × β)) : Prop :=
  entries.Pairwise fun first second => first.1 < second.1

/-- The value of a key. -/
def find (key : κ) : List (κ × β) → Option β
  | [] => none
  | (other, value) :: rest => if other = key then some value else find key rest

/-- Insert an entry, or overwrite the value of its key. -/
def assign (key : κ) (value : β) : List (κ × β) → List (κ × β)
  | [] => [(key, value)]
  | (other, old) :: rest =>
      if key < other then (key, value) :: (other, old) :: rest
      else if key = other then (key, value) :: rest
      else (other, old) :: assign key value rest

/-! ## Lookups -/

@[simp]
theorem find_nil (key : κ) : find key ([] : List (κ × β)) = none :=
  rfl

@[simp]
theorem find_cons_self (key : κ) (value : β) (rest : List (κ × β)) :
    find key ((key, value) :: rest) = some value :=
  if_pos rfl

@[simp]
theorem find_cons_of_ne {key other : κ} (ne : other ≠ key) (value : β)
    (rest : List (κ × β)) : find key ((other, value) :: rest) = find key rest :=
  if_neg ne

theorem mem_of_find {key : κ} {value : β} {entries : List (κ × β)}
    (found : find key entries = some value) : (key, value) ∈ entries := by
  induction entries with
  | nil => cases found
  | cons entry rest ih =>
      rcases entry with ⟨other, old⟩
      by_cases same : other = key
      · subst same
        rw [find_cons_self] at found
        cases found
        exact List.mem_cons_self
      · rw [find_cons_of_ne same] at found
        exact List.mem_cons_of_mem _ (ih found)

@[simp]
theorem find_eq_none_iff {key : κ} {entries : List (κ × β)} :
    find key entries = none ↔ ∀ entry ∈ entries, entry.1 ≠ key := by
  induction entries with
  | nil => simp
  | cons entry rest ih =>
      rcases entry with ⟨other, old⟩
      by_cases same : other = key
      · simp [same]
      · rw [find_cons_of_ne same, ih]
        simp [same]

@[simp]
theorem find_isSome_iff {key : κ} {entries : List (κ × β)} :
    (find key entries).isSome ↔ ∃ entry ∈ entries, entry.1 = key := by
  rw [← Option.ne_none_iff_isSome, ne_eq, find_eq_none_iff]
  simp only [ne_eq, not_forall, not_not, exists_prop]

@[simp]
theorem mem_keys_iff {key : κ} {entries : List (κ × β)} :
    key ∈ entries.map Prod.fst ↔ (find key entries).isSome := by
  rw [find_isSome_iff, List.mem_map]

/-! ## Sorted lists -/

theorem Sorted.tail {entry : κ × β} {rest : List (κ × β)} (sorted : Sorted (entry :: rest)) :
    Sorted rest :=
  List.Pairwise.of_cons sorted

theorem Sorted.head_lt {entry other : κ × β} {rest : List (κ × β)}
    (sorted : Sorted (entry :: rest)) (mem : other ∈ rest) : entry.1 < other.1 :=
  List.rel_of_pairwise_cons sorted mem

theorem Sorted.find_of_mem {entries : List (κ × β)} (sorted : Sorted entries)
    {entry : κ × β} (mem : entry ∈ entries) : find entry.1 entries = some entry.2 := by
  induction entries with
  | nil => cases mem
  | cons first rest ih =>
      rcases List.mem_cons.mp mem with rfl | later
      · exact find_cons_self ..
      · rw [find_cons_of_ne (sorted.head_lt later).ne]
        exact ih sorted.tail later

@[simp]
theorem Sorted.find_eq_some_iff {entries : List (κ × β)} (sorted : Sorted entries)
    {key : κ} {value : β} : find key entries = some value ↔ (key, value) ∈ entries :=
  ⟨mem_of_find, fun mem => sorted.find_of_mem mem⟩

/-- The keys after the first one are greater. -/
theorem Sorted.lt_of_find {key other : κ} {value : β} {rest : List (κ × β)}
    (sorted : Sorted ((key, value) :: rest)) (found : (find other rest).isSome) :
    key < other := by
  obtain ⟨entry, mem, rfl⟩ := find_isSome_iff.mp found
  exact sorted.head_lt mem

/-- No key is less than the first one. -/
theorem Sorted.le_of_find {key other : κ} {value : β} {rest : List (κ × β)}
    (sorted : Sorted ((key, value) :: rest))
    (found : (find other ((key, value) :: rest)).isSome) : key ≤ other := by
  by_cases same : key = other
  · exact same.le
  · rw [find_cons_of_ne same] at found
    exact (sorted.lt_of_find found).le

theorem Sorted.find_eq_none {key other : κ} {value : β} {rest : List (κ × β)}
    (sorted : Sorted ((key, value) :: rest)) (less : other < key) :
    find other ((key, value) :: rest) = none := by
  by_contra found
  exact less.not_ge (sorted.le_of_find (Option.ne_none_iff_isSome.mp found))

theorem Sorted.find_tail {key other : κ} {value : β} {rest : List (κ × β)}
    (sorted : Sorted ((key, value) :: rest)) :
    find other rest = if other = key then none else find other ((key, value) :: rest) := by
  split
  · rename_i same
    subst same
    rw [find_eq_none_iff]
    intro entry mem
    exact (sorted.head_lt mem).ne'
  · rename_i ne
    exact (find_cons_of_ne (Ne.symm ne) ..).symm

/-! ## Other values for the same keys -/

theorem Sorted.map {entries : List (κ × β)} (sorted : Sorted entries) {γ : Type*}
    (value : κ → β → γ) : Sorted (entries.map fun entry => (entry.1, value entry.1 entry.2)) :=
  List.pairwise_map.mpr sorted

@[simp]
theorem find_map (entries : List (κ × β)) {γ : Type*} (value : κ → β → γ) (key : κ) :
    find key (entries.map fun entry => (entry.1, value entry.1 entry.2)) =
      (find key entries).map (value key) := by
  induction entries with
  | nil => rfl
  | cons entry rest ih =>
      rcases entry with ⟨other, old⟩
      by_cases same : other = key
      · subst same
        simp
      · simp [same, ih]

/-! ## Assignments -/

theorem mem_assign {key : κ} {value : β} {entries : List (κ × β)} {entry : κ × β}
    (mem : entry ∈ assign key value entries) : entry = (key, value) ∨ entry ∈ entries := by
  induction entries with
  | nil => simpa [assign] using mem
  | cons first rest ih =>
      rcases first with ⟨other, old⟩
      rw [assign] at mem
      split at mem
      · exact List.mem_cons.mp mem
      · split at mem
        · exact (List.mem_cons.mp mem).imp_right fun later => List.mem_cons_of_mem _ later
        · rcases List.mem_cons.mp mem with rfl | later
          · exact .inr List.mem_cons_self
          · exact (ih later).imp_right fun old => List.mem_cons_of_mem _ old

@[simp]
theorem find_assign (key other : κ) (value : β) (entries : List (κ × β)) :
    find other (assign key value entries) =
      if key = other then some value else find other entries := by
  induction entries with
  | nil => rfl
  | cons first rest ih =>
      rcases first with ⟨third, old⟩
      rw [assign]
      split
      · rfl
      · split
        · rename_i same
          subst same
          by_cases equal : key = other
          · simp [find, equal]
          · simp [find, equal]
        · rename_i ne
          by_cases equal : third = other
          · subst equal
            simp [ne]
          · simp [equal, ih]

theorem Sorted.assign {entries : List (κ × β)} (sorted : Sorted entries) (key : κ)
    (value : β) : Sorted (assign key value entries) := by
  induction entries with
  | nil => exact List.pairwise_singleton ..
  | cons first rest ih =>
      rcases first with ⟨other, old⟩
      rw [SortedMap.assign]
      split
      · rename_i less
        refine List.pairwise_cons.mpr ⟨?_, sorted⟩
        intro entry mem
        rcases List.mem_cons.mp mem with rfl | later
        · exact less
        · exact less.trans (sorted.head_lt later)
      · rename_i notLess
        split
        · rename_i same
          subst same
          exact List.pairwise_cons.mpr ⟨fun entry mem => sorted.head_lt mem, sorted.tail⟩
        · rename_i ne
          refine List.pairwise_cons.mpr ⟨?_, ih sorted.tail⟩
          intro entry mem
          rcases mem_assign mem with rfl | later
          · exact lt_of_le_of_ne (not_lt.mp notLess) (Ne.symm ne)
          · exact sorted.head_lt later

theorem length_assign (key : κ) (value : β) {entries : List (κ × β)}
    (sorted : Sorted entries) :
    (SortedMap.assign key value entries).length =
      if (find key entries).isSome then entries.length else entries.length + 1 := by
  induction entries with
  | nil => rfl
  | cons first rest ih =>
      rcases first with ⟨other, old⟩
      rw [SortedMap.assign]
      split
      · rename_i less
        rw [sorted.find_eq_none less]
        rfl
      · split
        · rename_i same
          subst same
          rw [find_cons_self]
          rfl
        · rename_i ne
          rw [find_cons_of_ne (Ne.symm ne), List.length_cons, ih sorted.tail, List.length_cons]
          split
          · rfl
          · rfl

/-- Assigning takes away the weight of the old value and adds that of the new one. -/
theorem sum_assign (weight : β → Nat) (key : κ) (value : β) {entries : List (κ × β)}
    (sorted : Sorted entries) :
    ((SortedMap.assign key value entries).map fun entry => weight entry.2).sum +
        ((find key entries).map weight).getD 0 =
      (entries.map fun entry => weight entry.2).sum + weight value := by
  induction entries with
  | nil => simp [SortedMap.assign]
  | cons first rest ih =>
      rcases first with ⟨other, old⟩
      rw [SortedMap.assign]
      split
      · rename_i less
        rw [sorted.find_eq_none less]
        simp only [List.map_cons, List.sum_cons, Option.map_none, Option.getD_none]
        omega
      · split
        · rename_i same
          subst same
          rw [find_cons_self]
          simp only [List.map_cons, List.sum_cons, Option.map_some, Option.getD_some]
          omega
        · rename_i ne
          have later := ih sorted.tail
          rw [find_cons_of_ne (Ne.symm ne)]
          simp only [List.map_cons, List.sum_cons]
          omega

theorem assign_ne_nil (key : κ) (value : β) (entries : List (κ × β)) :
    assign key value entries ≠ [] := by
  intro nil
  have found := find_assign key key value entries
  rw [nil, if_pos rfl] at found
  cases found

theorem length_assign_le (key : κ) (value : β) (entries : List (κ × β)) :
    (assign key value entries).length ≤ entries.length + 1 := by
  induction entries with
  | nil => exact Nat.le_refl _
  | cons first rest ih =>
      rcases first with ⟨other, old⟩
      rw [assign]
      split
      · exact Nat.le_refl _
      · split
        · exact Nat.le_succ _
        · exact Nat.succ_le_succ ih

/-- A map is determined by its lookups. -/
theorem Sorted.ext {first second : List (κ × β)} (firstSorted : Sorted first)
    (secondSorted : Sorted second) (same : ∀ key, find key first = find key second) :
    first = second := by
  induction first generalizing second with
  | nil =>
      cases second with
      | nil => rfl
      | cons entry rest =>
          have found := same entry.1
          rw [find_cons_self] at found
          cases found
  | cons entry rest ih =>
      rcases entry with ⟨key, value⟩
      cases second with
      | nil =>
          have found := same key
          rw [find_cons_self] at found
          cases found
      | cons entry' rest' =>
          rcases entry' with ⟨key', value'⟩
          have le : key ≤ key' := by
            apply firstSorted.le_of_find
            rw [same key', find_cons_self]
            rfl
          have ge : key' ≤ key := by
            apply secondSorted.le_of_find
            rw [← same key, find_cons_self]
            rfl
          obtain rfl := le_antisymm le ge
          have found := same key
          rw [find_cons_self, find_cons_self] at found
          cases found
          congr 1
          apply ih firstSorted.tail secondSorted.tail
          intro other
          rw [firstSorted.find_tail, secondSorted.find_tail, same other]

/-! ## Cutting a map at a key -/

/-- A key is in a sorted list exactly if it is the first one that is not less. -/
theorem Sorted.find_eq_head? {entries : List (κ × β)} (sorted : Sorted entries) (key : κ) :
    find key entries =
      ((entries.dropWhile (·.1 < key)).head?.filter (·.1 = key)).map Prod.snd := by
  induction entries with
  | nil => rfl
  | cons entry rest ih =>
      rcases entry with ⟨other, value⟩
      rw [List.dropWhile_cons]
      rcases lt_trichotomy other key with less | rfl | greater
      · rw [if_pos (decide_eq_true less), find_cons_of_ne less.ne]
        exact ih sorted.tail
      · rw [if_neg (by simp), find_cons_self]
        simp [Option.filter]
      · rw [if_neg (by simpa using greater.le), find_cons_of_ne greater.ne']
        have absent : find key rest = none := by
          by_contra present
          have later := sorted.lt_of_find (Option.ne_none_iff_isSome.mp present)
          exact lt_asymm later greater
        rw [absent]
        simp [Option.filter, greater.ne']

/-- A key is in a sorted list exactly if it is the last one that is not greater. -/
theorem Sorted.find_isSome_iff_getLast? {entries : List (κ × β)} (sorted : Sorted entries)
    (key : κ) : (find key entries).isSome ↔
      (entries.takeWhile (·.1 ≤ key)).getLast?.map Prod.fst = some key := by
  induction entries with
  | nil => simp
  | cons entry rest ih =>
      rcases entry with ⟨other, value⟩
      rw [List.takeWhile_cons]
      by_cases le : other ≤ key
      · rw [if_pos (decide_eq_true le), List.getLast?_cons]
        have tail := ih sorted.tail
        by_cases same : other = key
        · subst same
          have absent : find other rest = none := by
            by_contra present
            exact lt_irrefl _ (sorted.lt_of_find (Option.ne_none_iff_isSome.mp present))
          rw [find_cons_self]
          refine iff_of_true rfl ?_
          cases last : (rest.takeWhile (·.1 ≤ other)).getLast? with
          | none => rfl
          | some entry =>
              have mem := List.mem_of_getLast? last
              have later := sorted.head_lt ((List.takeWhile_sublist _).mem mem)
              have bound := List.mem_takeWhile_imp mem
              exact absurd (of_decide_eq_true bound) (not_le.mpr later)
        · rw [find_cons_of_ne same, tail]
          cases last : (rest.takeWhile (·.1 ≤ key)).getLast? with
          | none => simp [same]
          | some entry => simp
      · rw [if_neg (by simpa using le)]
        have absent : find key ((other, value) :: rest) = none := by
          by_contra present
          exact le (sorted.le_of_find (Option.ne_none_iff_isSome.mp present))
        rw [absent]
        simp

/-- A new key goes behind the keys that are not greater. -/
theorem Sorted.assign_of_absent {entries : List (κ × β)} (sorted : Sorted entries) {key : κ}
    (absent : find key entries = none) (value : β) :
    SortedMap.assign key value entries =
      entries.takeWhile (·.1 ≤ key) ++ (key, value) :: entries.dropWhile (·.1 ≤ key) := by
  induction entries with
  | nil => rfl
  | cons entry rest ih =>
      rcases entry with ⟨other, old⟩
      have ne : other ≠ key := by
        rintro rfl
        rw [find_cons_self] at absent
        cases absent
      rw [find_cons_of_ne ne] at absent
      rw [SortedMap.assign, List.takeWhile_cons, List.dropWhile_cons]
      rcases lt_or_gt_of_ne ne with less | greater
      · rw [if_neg (lt_asymm less), if_neg (Ne.symm ne), if_pos (decide_eq_true less.le),
          if_pos (decide_eq_true less.le), ih sorted.tail absent]
        rfl
      · have above : ¬decide (other ≤ key) = true := by simpa using greater
        rw [if_pos greater, if_neg above, if_neg above]
        rfl

/-! ## The newest of several maps -/

/-- The value of a key in the last map that has it. -/
def newest (key : κ) : List (List (κ × β)) → Option β
  | [] => none
  | entries :: later => (newest key later).or (find key entries)

@[simp]
theorem newest_eq_none_iff {key : κ} {maps : List (List (κ × β))} :
    newest key maps = none ↔ ∀ entries ∈ maps, find key entries = none := by
  induction maps with
  | nil => simp [newest]
  | cons entries later ih =>
      rw [newest, Option.or_eq_none_iff, ih, List.forall_mem_cons, and_comm]

theorem find_getD_eq_none {key : κ} {maps : List (List (κ × β))}
    (none : newest key maps = none) (i : Nat) : find key (maps.getD i []) = .none := by
  rw [List.getD_eq_getElem?_getD]
  cases at_i : maps[i]? with
  | none => rfl
  | some entries => exact newest_eq_none_iff.mp none entries (List.mem_of_getElem? at_i)

/-- The newest value is that of the last map that has the key. -/
theorem newest_eq_some_iff {key : κ} {value : β} {maps : List (List (κ × β))} :
    newest key maps = some value ↔ ∃ i, find key (maps.getD i []) = some value ∧
      ∀ j > i, find key (maps.getD j []) = none := by
  induction maps with
  | nil => simp [newest]
  | cons entries later ih =>
      rw [newest, Option.or_eq_some_iff, ih]
      constructor
      · rintro (⟨i, here, after⟩ | ⟨absent, here⟩)
        · refine ⟨i + 1, here, ?_⟩
          rintro (_ | j) greater
          · exact absurd greater (Nat.not_lt_zero _)
          · exact after j (Nat.lt_of_succ_lt_succ greater)
        · refine ⟨0, here, ?_⟩
          rintro (_ | j) greater
          · exact absurd greater (Nat.lt_irrefl 0)
          · exact find_getD_eq_none absent j
      · rintro ⟨_ | i, here, after⟩
        · right
          refine ⟨newest_eq_none_iff.mpr ?_, here⟩
          intro map mem
          obtain ⟨j, at_j⟩ := List.mem_iff_getElem?.mp mem
          have absent := after (j + 1) (Nat.succ_pos j)
          rwa [List.getD_cons_succ, List.getD_eq_getElem?_getD, at_j] at absent
        · left
          exact ⟨i, here, fun j greater => after (j + 1) (Nat.succ_lt_succ greater)⟩

theorem mem_of_newest {key : κ} {value : β} {maps : List (List (κ × β))}
    (found : newest key maps = some value) : ∃ map ∈ maps, (key, value) ∈ map := by
  induction maps with
  | nil => cases found
  | cons entries later ih =>
      rw [newest, Option.or_eq_some_iff] at found
      rcases found with found | ⟨-, found⟩
      · obtain ⟨map, mem, held⟩ := ih found
        exact ⟨map, List.mem_cons_of_mem _ mem, held⟩
      · exact ⟨entries, List.mem_cons_self, mem_of_find found⟩

/-- If all maps but one lack a key, its newest value is the one there. -/
theorem newest_of_unique {key : κ} {maps : List (List (κ × β))} {i : Nat}
    (others : ∀ j ≠ i, find key (maps.getD j []) = none) :
    newest key maps = find key (maps.getD i []) := by
  induction maps generalizing i with
  | nil => rfl
  | cons entries later ih =>
      cases i with
      | zero =>
          have absent : newest key later = none := by
            rw [newest_eq_none_iff]
            intro entries mem
            obtain ⟨j, at_j⟩ := List.mem_iff_getElem?.mp mem
            simpa [List.getD_eq_getElem?_getD, at_j] using others (j + 1) (Nat.succ_ne_zero j)
          rw [newest, absent]
          rfl
      | succ i =>
          have first : find key entries = none := by
            simpa using others 0 (Nat.succ_ne_zero i).symm
          rw [newest, first, Option.or_none]
          simpa using ih fun j ne => by simpa using others (j + 1) (by omega)

/-- Replacing a map by one that agrees on a key. -/
theorem newest_set {key : κ} {maps : List (List (κ × β))} {i : Nat}
    {entries : List (κ × β)} (same : find key entries = find key (maps.getD i [])) :
    newest key (maps.set i entries) = newest key maps := by
  induction maps generalizing i with
  | nil => rfl
  | cons first later ih =>
      cases i with
      | zero =>
          rw [List.set_cons_zero, newest, newest, same]
          rfl
      | succ i =>
          rw [List.set_cons_succ, newest, newest, ih (by simpa using same)]

/-- Replacing a map below another one that has the key. -/
theorem newest_set_of_shadowed {key : κ} {maps : List (List (κ × β))} {i j : Nat}
    (entries : List (κ × β)) (less : i < j) (found : (find key (maps.getD j [])).isSome) :
    newest key (maps.set i entries) = newest key maps := by
  induction maps generalizing i j with
  | nil => rfl
  | cons first later ih =>
      cases j with
      | zero => omega
      | succ j =>
          rw [List.getD_cons_succ] at found
          cases i with
          | zero =>
              have present : (newest key later).isSome := by
                by_contra absent
                rw [Option.not_isSome_iff_eq_none] at absent
                rw [find_getD_eq_none absent j] at found
                cases found
              obtain ⟨value, isSome⟩ := Option.isSome_iff_exists.mp present
              rw [List.set_cons_zero, newest, newest, isSome]
              rfl
          | succ i =>
              rw [List.set_cons_succ, newest, newest, ih (by omega) found]

/-! ## Merging maps -/

/-- Assign all entries of a map. -/
def assignAll (new entries : List (κ × β)) : List (κ × β) :=
  new.foldl (fun entries entry => assign entry.1 entry.2 entries) entries

/-- The map of the newest values. -/
def merge (maps : List (List (κ × β))) : List (κ × β) :=
  maps.foldl (fun entries new => assignAll new entries) []

theorem Sorted.assignAll {entries : List (κ × β)} (sorted : Sorted entries)
    (new : List (κ × β)) : Sorted (assignAll new entries) := by
  induction new generalizing entries with
  | nil => exact sorted
  | cons entry new ih => exact ih (sorted.assign ..)

@[simp]
theorem find_assignAll {new : List (κ × β)} (sorted : Sorted new) (key : κ)
    (entries : List (κ × β)) :
    find key (assignAll new entries) = (find key new).or (find key entries) := by
  induction new generalizing entries with
  | nil => rfl
  | cons entry new ih =>
      rcases entry with ⟨other, value⟩
      change find key (assignAll new (assign other value entries)) = _
      rw [ih sorted.tail, find_assign, sorted.find_tail]
      by_cases same : key = other
      · subst same
        rw [if_pos rfl, if_pos rfl, find_cons_self]
        rfl
      · rw [if_neg same, if_neg (Ne.symm same)]

theorem length_assignAll_le (new entries : List (κ × β)) :
    (assignAll new entries).length ≤ new.length + entries.length := by
  induction new generalizing entries with
  | nil => exact Nat.le_of_eq (Nat.zero_add _).symm
  | cons entry new ih =>
      have rest := ih (assign entry.1 entry.2 entries)
      have first := length_assign_le entry.1 entry.2 entries
      change (assignAll new (assign entry.1 entry.2 entries)).length ≤
        new.length + 1 + entries.length
      omega

/-- The maps that are merged are assigned one after the other. -/
theorem merge_induct {maps : List (List (κ × β))} {entries : List (κ × β)}
    (sorted : Sorted entries) (mapsSorted : ∀ map ∈ maps, Sorted map) :
    Sorted (maps.foldl (fun entries new => assignAll new entries) entries) ∧
      (maps.foldl (fun entries new => assignAll new entries) entries).length ≤
        (maps.map List.length).sum + entries.length ∧
      ∀ key, find key (maps.foldl (fun entries new => assignAll new entries) entries) =
        (newest key maps).or (find key entries) := by
  induction maps generalizing entries with
  | nil =>
      refine ⟨sorted, ?_, fun _ => rfl⟩
      exact Nat.le_of_eq (Nat.zero_add _).symm
  | cons map maps ih =>
      obtain ⟨sorted', length, found⟩ := ih (sorted.assignAll map)
        fun other mem => mapsSorted other (List.mem_cons_of_mem _ mem)
      refine ⟨sorted', ?_, ?_⟩
      · have first := length_assignAll_le map entries
        rw [List.foldl_cons, List.map_cons, List.sum_cons]
        omega
      · intro key
        rw [List.foldl_cons, found key, find_assignAll (mapsSorted map List.mem_cons_self),
          newest, Option.or_assoc]

theorem sorted_merge {maps : List (List (κ × β))} (sorted : ∀ map ∈ maps, Sorted map) :
    Sorted (merge maps) :=
  (merge_induct List.Pairwise.nil sorted).1

@[simp]
theorem find_merge {maps : List (List (κ × β))} (sorted : ∀ map ∈ maps, Sorted map)
    (key : κ) : find key (merge maps) = newest key maps := by
  have found := (merge_induct (List.Pairwise.nil : Sorted ([] : List (κ × β))) sorted).2.2 key
  rwa [find_nil, Option.or_none] at found

theorem length_merge_le {maps : List (List (κ × β))} (sorted : ∀ map ∈ maps, Sorted map) :
    (merge maps).length ≤ (maps.map List.length).sum :=
  (merge_induct (List.Pairwise.nil : Sorted ([] : List (κ × β))) sorted).2.1

end ZnsLsm.SortedMap
