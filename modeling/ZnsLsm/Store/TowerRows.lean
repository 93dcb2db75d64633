import ZnsLsm.Store.Towers

/-!
# The rows of a skip list

The nodes in memory form rows of ascending keys, one above the other.  Each row begins with a
head, every key of a row is a key of the row below, and the pointers downwards lead to the
same key there.  `Linked` says this of a memory; the searches follow from it.
-/

namespace ZnsLsm.Store

open SortedMap

/-- The heads of the rows, bottom first, and the address of every key in each row. -/
structure Rows where
  height : Nat
  head : Nat → Nat
  cells : Nat → List (Nat × Nat)

namespace Rows

variable (rows : Rows)

/-- The last key of the first cells of a row; the head of the row has none. -/
def lastKey (before : List (Nat × Nat)) : Option Nat :=
  before.getLast?.map Prod.fst

/-- The address of the last one of the first cells of a row, or of its head. -/
def addr (level : Nat) (before : List (Nat × Nat)) : Nat :=
  (before.getLast?.map Prod.snd).getD (rows.head level)

/-- Where the pointer of a head leads down to. -/
def headBelow : Nat → Option Nat
  | 0 => none
  | level + 1 => some (rows.head level)

/-- Where the pointer of a key leads down to. -/
def below (key : Nat) : Nat → Option Nat
  | 0 => none
  | level + 1 => find key (rows.cells level)

/-- Where the pointer downwards leads to. -/
def down (level : Nat) (before : List (Nat × Nat)) : Option Nat :=
  match lastKey before with
  | none => rows.headBelow level
  | some key => rows.below key level

/-- The node between the first cells of a row and the others. -/
def node (value : Nat → Nat → Str) (level : Nat) (before after : List (Nat × Nat)) : Node where
  right := after.head?.map Prod.snd
  down := rows.down level before
  key := (lastKey before).getD uint64Max
  val := (lastKey before).elim .empty (value level)

variable {rows}

theorem headBelow_congr {rows rows' : Rows} (same : rows.head = rows'.head) (level : Nat) :
    rows.headBelow level = rows'.headBelow level := by
  cases level with
  | zero => rfl
  | succ below => rw [headBelow, headBelow, same]

@[simp]
theorem lastKey_concat (before : List (Nat × Nat)) (cell : Nat × Nat) :
    lastKey (before ++ [cell]) = some cell.1 := by
  rw [lastKey, List.getLast?_concat]
  rfl

@[simp]
theorem addr_concat (level : Nat) (before : List (Nat × Nat)) (cell : Nat × Nat) :
    rows.addr level (before ++ [cell]) = cell.2 := by
  rw [addr, List.getLast?_concat]
  rfl

@[simp]
theorem down_concat (rows : Rows) (level : Nat) (before : List (Nat × Nat)) (cell : Nat × Nat) :
    rows.down level (before ++ [cell]) = rows.below cell.1 level := by
  rw [down, lastKey_concat]

@[simp]
theorem down_zero (rows : Rows) (before : List (Nat × Nat)) : rows.down 0 before = none := by
  rw [down]
  split
  · rfl
  · rfl

/-- The first cells of a row are none, or they end in some cell. -/
theorem last_cases (before : List (Nat × Nat)) :
    before = [] ∨ ∃ first cell, before = first ++ [cell] := by
  rcases List.eq_nil_or_concat before with nil | ⟨first, cell, same⟩
  · exact .inl nil
  · exact .inr ⟨first, cell, by rw [same, List.concat_eq_append]⟩

end Rows

/-! ## Memories that hold rows -/

/-- The memory holds the rows, with a value for every key in every row. -/
structure Linked (heap : Heap) (next : Nat) (rows : Rows) (value : Nat → Nat → Str) : Prop where
  nodes : ∀ {level before after}, level < rows.height → rows.cells level = before ++ after →
    heap (rows.addr level before) = some (rows.node value level before after)
  sorted : ∀ level, Sorted (rows.cells level)
  nonempty : ∀ {level}, level < rows.height → rows.cells level ≠ []
  above : ∀ {level key}, level + 1 < rows.height →
    (find key (rows.cells (level + 1))).isSome → (find key (rows.cells level)).isSome
  small : ∀ {level cell}, level < rows.height → cell ∈ rows.cells level → cell.1 ≤ uint64Max
  /-- Every address belongs to one place. -/
  owned : ∃ owner : Nat → Nat × Option Nat, ∀ level < rows.height,
    owner (rows.head level) = (level, none) ∧
      ∀ cell ∈ rows.cells level, owner cell.2 = (level, some cell.1)
  fresh : ∀ level < rows.height, rows.head level < next ∧
    ∀ cell ∈ rows.cells level, cell.2 < next
  room : ∀ level < rows.height, (rows.cells level).length < next
  tall : rows.height ≤ next

namespace Linked

variable {heap : Heap} {next level : Nat} {rows : Rows} {value : Nat → Nat → Str}
variable {before after : List (Nat × Nat)} {go : Nat → Bool}

theorem addr_lt (linked : Linked heap next rows value) (lt : level < rows.height)
    (split : rows.cells level = before ++ after) : rows.addr level before < next := by
  obtain ⟨head, cells⟩ := linked.fresh level lt
  rcases Rows.last_cases before with rfl | ⟨first, cell, rfl⟩
  · exact head
  · rw [Rows.addr_concat]
    exact cells cell (by simp [split])

/-- The first cells of a row are determined by their last key. -/
theorem before_eq (linked : Linked heap next rows value)
    (split : rows.cells level = before ++ after) {before' after' : List (Nat × Nat)}
    (split' : rows.cells level = before' ++ after')
    (same : Rows.lastKey before = Rows.lastKey before') : before = before' := by
  have sorted := linked.sorted level
  have shorter : ∀ {before middle after : List (Nat × Nat)},
      rows.cells level = (before ++ middle) ++ after →
        Rows.lastKey before = Rows.lastKey (before ++ middle) → middle = [] := by
    intro before middle after split same
    rcases Rows.last_cases middle with nil | ⟨first, cell, rfl⟩
    · exact nil
    · rw [← List.append_assoc, Rows.lastKey_concat] at same
      rcases Rows.last_cases before with rfl | ⟨first', cell', rfl⟩
      · cases same
      · rw [Rows.lastKey_concat] at same
        rw [split] at sorted
        have apart := (List.pairwise_append.mp (List.pairwise_append.mp sorted).1).2.2
        have less := apart cell' (by simp) cell (by simp)
        exact absurd (Option.some.inj same) less.ne
  rcases List.append_eq_append_iff.mp (split.symm.trans split') with
    ⟨middle, rfl, -⟩ | ⟨middle, rfl, -⟩
  · rw [shorter split' same, List.append_nil]
  · rw [shorter split same.symm, List.append_nil]

/-- Nodes at different places have different addresses. -/
theorem place_eq (linked : Linked heap next rows value) (lt : level < rows.height)
    (split : rows.cells level = before ++ after) {level' : Nat} (lt' : level' < rows.height)
    {before' after' : List (Nat × Nat)} (split' : rows.cells level' = before' ++ after')
    (same : rows.addr level before = rows.addr level' before') :
    level = level' ∧ before = before' := by
  obtain ⟨owner, owned⟩ := linked.owned
  have place : ∀ {level before after}, level < rows.height →
      rows.cells level = before ++ after →
        owner (rows.addr level before) = (level, Rows.lastKey before) := by
    intro level before after lt split
    obtain ⟨head, cells⟩ := owned level lt
    rcases Rows.last_cases before with rfl | ⟨first, cell, rfl⟩
    · exact head
    · rw [Rows.addr_concat, Rows.lastKey_concat]
      exact cells cell (by simp [split])
  have owners := place lt split
  rw [same, place lt' split'] at owners
  obtain ⟨rfl, key⟩ := Prod.mk.inj owners
  exact ⟨rfl, linked.before_eq split split' key.symm⟩

theorem addr_ne_next (linked : Linked heap next rows value) (lt : level < rows.height)
    (split : rows.cells level = before ++ after) : rows.addr level before ≠ next :=
  (linked.addr_lt lt split).ne

/-- A key of a row is a key of every row below. -/
theorem isSome_below (linked : Linked heap next rows value) {key : Nat}
    (lt : level < rows.height) (present : (find key (rows.cells level)).isSome) :
    ∀ below ≤ level, (find key (rows.cells below)).isSome := by
  induction level with
  | zero =>
      intro below le
      rw [Nat.le_zero.mp le]
      exact present
  | succ level ih =>
      intro below le
      rcases Nat.le_succ_iff.mp le with le | rfl
      · exact ih (Nat.lt_of_succ_lt lt) (linked.above lt present) below le
      · exact present

/-! ## Walking -/

/-- The walk passes the cells whose keys it may go to. -/
theorem walk_eq (linked : Linked heap next rows value) (lt : level < rows.height)
    {fuel : Nat} (split : rows.cells level = before ++ after) (enough : after.length < fuel) :
    Towers.walk heap go fuel (rows.addr level before) =
      some (rows.addr level (before ++ after.takeWhile (go ·.1))) := by
  induction after generalizing before fuel with
  | nil =>
      obtain ⟨fuel, rfl⟩ : ∃ fuel', fuel = fuel' + 1 := ⟨fuel - 1, by omega⟩
      rw [Towers.walk, linked.nodes lt split]
      rw [List.takeWhile_nil, List.append_nil]
      rfl
  | cons cell after ih =>
      obtain ⟨fuel, rfl⟩ : ∃ fuel', fuel = fuel' + 1 := ⟨fuel - 1, by omega⟩
      have split' : rows.cells level = (before ++ [cell]) ++ after := by simp [split]
      have toRight := linked.nodes lt split'
      rw [Rows.addr_concat] at toRight
      rw [Towers.walk, linked.nodes lt split]
      change (do
        let next ← heap cell.2
        if go next.key then Towers.walk heap go fuel cell.2
          else some (rows.addr level before)) = _
      rw [toRight]
      change (if go ((Rows.lastKey (before ++ [cell])).getD uint64Max) then _ else _) = _
      rw [Rows.lastKey_concat, Option.getD_some, List.takeWhile_cons]
      split
      · have later := ih split' (Nat.lt_of_succ_lt_succ enough)
        rw [Rows.addr_concat] at later
        rw [later, List.append_assoc]
        rfl
      · rw [List.append_nil]

/-- The cells that a walk passes. -/
def passed (rows : Rows) (go : Nat → Bool) (level : Nat) : List (Nat × Nat) :=
  (rows.cells level).takeWhile (go ·.1)

theorem cells_eq (rows : Rows) (go : Nat → Bool) (level : Nat) :
    rows.cells level = passed rows go level ++ (rows.cells level).dropWhile (go ·.1) :=
  List.takeWhile_append_dropWhile.symm

theorem goes_of_passed {cell : Nat × Nat} (mem : cell ∈ passed rows go level) :
    go cell.1 = true :=
  List.mem_takeWhile_imp (p := fun cell : Nat × Nat => go cell.1) mem

/-- A walk may begin anywhere among the cells that it passes. -/
theorem walk_from (linked : Linked heap next rows value) (lt : level < rows.height)
    (split : rows.cells level = before ++ after) (goes : ∀ cell ∈ before, go cell.1 = true) :
    Towers.walk heap go next (rows.addr level before) =
      some (rows.addr level (passed rows go level)) := by
  have room := linked.room level lt
  rw [split, List.length_append] at room
  rw [linked.walk_eq lt split (by omega), passed, split, List.takeWhile_append_of_pos goes]

/-- The pointer downwards from where a walk stops leads to a cell that the walk of the row
below passes. -/
theorem down_passed (linked : Linked heap next rows value) (lt : level + 1 < rows.height)
    (closed : ∀ key key', key ≤ key' → go key' = true → go key = true) :
    ∃ before after, rows.cells level = before ++ after ∧ (∀ cell ∈ before, go cell.1 = true) ∧
      rows.down (level + 1) (passed rows go (level + 1)) = some (rows.addr level before) := by
  rcases Rows.last_cases (passed rows go (level + 1)) with nil | ⟨first, cell, last⟩
  · refine ⟨[], rows.cells level, rfl, fun _ => (absurd · List.not_mem_nil), ?_⟩
    rw [nil]
    rfl
  · have mem : cell ∈ passed rows go (level + 1) := by simp [last]
    have goes : go cell.1 = true := goes_of_passed mem
    have present : (find cell.1 (rows.cells (level + 1))).isSome :=
      find_isSome_iff.mpr ⟨cell, (List.takeWhile_sublist _).mem mem, rfl⟩
    obtain ⟨address, found⟩ := Option.isSome_iff_exists.mp (linked.above lt present)
    obtain ⟨before, after, split⟩ := List.append_of_mem (mem_of_find found)
    have sorted := linked.sorted level
    rw [split] at sorted
    refine ⟨before ++ [(cell.1, address)], after, by simp [split], ?_, ?_⟩
    · intro other member
      rcases List.mem_append.mp member with earlier | last
      · have less := (List.pairwise_append.mp sorted).2.2 other earlier _ List.mem_cons_self
        exact closed _ _ less.le goes
      · rw [List.mem_singleton.mp last]
        exact goes
    · rw [last, Rows.addr_concat, Rows.down, Rows.lastKey_concat]
      exact found

/-! ## Lookups -/

/-- One round of `get` finds the key in its row, or goes down. -/
theorem getLoop_step (linked : Linked heap next rows value) {key : Nat}
    (lt : level < rows.height) (fuel : Nat) (split : rows.cells level = before ++ after)
    (goes : ∀ cell ∈ before, decide (cell.1 < key) = true) :
    Towers.getLoop heap next key (fuel + 1) (some (rows.addr level before)) =
      if (find key (rows.cells level)).isSome then some (value level key)
      else Towers.getLoop heap next key fuel
        (rows.down level (passed rows (fun other => decide (other < key)) level)) := by
  have here := cells_eq rows (fun other => decide (other < key)) level
  rw [Towers.getLoop, linked.walk_from lt split goes, (linked.sorted level).find_eq_head? key]
  change ((heap (rows.addr level _)).bind fun node => _) = _
  rw [linked.nodes lt here, Option.bind_some]
  cases rest : (rows.cells level).dropWhile (fun cell => decide (cell.1 < key)) with
  | nil => rfl
  | cons cell rest' =>
      rw [rest] at here
      have here' : rows.cells level =
          (passed rows (fun other => decide (other < key)) level ++ [cell]) ++ rest' := by
        simpa using here
      have toRight := linked.nodes lt here'
      rw [Rows.addr_concat] at toRight
      change ((heap cell.2).bind fun node => _) = _
      rw [toRight, Option.bind_some]
      change (if (Rows.lastKey (_ ++ [cell])).getD uint64Max = key then
        some ((Rows.lastKey (_ ++ [cell])).elim .empty (value level)) else _) = _
      rw [Rows.lastKey_concat, Option.getD_some, Option.elim_some]
      by_cases same : cell.1 = key
      · simp [same, Option.filter]
      · simp [same, Option.filter, Rows.node]

/-- If all rows agree on the values, `get` finds that of the bottom row. -/
theorem getLoop_eq {value : Nat → Str} (linked : Linked heap next rows fun _ => value)
    (key : Nat) (lt : level < rows.height) {fuel : Nat} (enough : level < fuel)
    (split : rows.cells level = before ++ after)
    (goes : ∀ cell ∈ before, decide (cell.1 < key) = true) :
    Towers.getLoop heap next key fuel (some (rows.addr level before)) =
      some (if (find key (rows.cells 0)).isSome then value key else .empty) := by
  obtain ⟨fuel, rfl⟩ : ∃ fuel', fuel = fuel' + 1 := ⟨fuel - 1, by omega⟩
  induction level generalizing before after fuel with
  | zero =>
      rw [linked.getLoop_step lt fuel split goes]
      split
      · rfl
      · rw [Rows.down_zero, Towers.getLoop]
  | succ level ih =>
      rw [linked.getLoop_step lt fuel split goes]
      split
      · rename_i present
        rw [if_pos (linked.isSome_below lt present 0 (Nat.zero_le _))]
      · obtain ⟨before', after', split', goes', down⟩ :=
          linked.down_passed lt fun other other' le less =>
            decide_eq_true (Nat.lt_of_le_of_lt le (of_decide_eq_true less))
        rw [down]
        obtain ⟨fuel, rfl⟩ : ∃ fuel', fuel = fuel' + 1 := ⟨fuel - 1, by omega⟩
        exact ih (Nat.lt_of_succ_lt lt) split' goes' fuel (by omega)

end Linked

end ZnsLsm.Store
