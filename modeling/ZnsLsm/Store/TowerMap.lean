import ZnsLsm.Store.TowerUpdates

/-!
# The skip list is a sorted map

With the steps on the rows, every function of the skip list does to its towers what
`SkipList` does to the bottom row, whatever `rand` returns.  So the functions never follow a
null pointer, and a run leaves the list with the values put last.
-/

namespace ZnsLsm.Store

open SortedMap

namespace Linked

variable {heap : Heap} {next level key : Nat} {rows : Rows} {value : Nat → Nat → Str}
variable {before after : List (Nat × Nat)}

/-! ## A new row on top -/

theorem down_addTop (rows : Rows) (key address : Nat) {level : Nat} (le : level ≤ rows.height)
    (before : List (Nat × Nat)) :
    (rows.addTop key address).down level before = rows.down level before := by
  cases level with
  | zero => rw [Rows.down_zero, Rows.down_zero]
  | succ below =>
      have ne : below ≠ rows.height := Nat.ne_of_lt le
      rw [Rows.down, Rows.down]
      cases Rows.lastKey before with
      | none => exact congrArg some (Function.update_of_ne ne ..)
      | some other => exact congrArg (find other) (Function.update_of_ne ne ..)

theorem find_addTop (rows : Rows) (key address other : Nat) :
    (find other ((rows.addTop key address).cells 0)).isSome ↔
      rows.height = 0 ∧ other = key ∨ rows.height ≠ 0 ∧ (find other (rows.cells 0)).isSome := by
  change (find other (Function.update rows.cells rows.height [(key, address + 1)] 0)).isSome ↔ _
  by_cases zero : rows.height = 0
  · rw [zero, Function.update_self, find_isSome_iff]
    simp [@eq_comm Nat key]
  · rw [Function.update_of_ne (Ne.symm zero)]
    simp [zero]

theorem addTop_cases (lt : level < (rows.addTop key next).height) :
    level < rows.height ∨ level = rows.height :=
  Nat.lt_succ_iff_lt_or_eq.mp lt

/-- The two new nodes, and the old ones where they were. -/
theorem nodes_addTop (linked : Linked heap next rows value)
    (lt : level < (rows.addTop key next).height)
    (split : (rows.addTop key next).cells level = before ++ after) :
    Function.update
        (Function.update heap next
          (some { Node.blank with right := some (next + 1), down := rows.headBelow rows.height }))
        (next + 1) (some ⟨none, rows.below key rows.height, key, value rows.height key⟩)
        ((rows.addTop key next).addr level before) =
      some ((rows.addTop key next).node value level before after) := by
  rcases addTop_cases lt with lt | rfl
  · rw [rows.cells_addTop_of_ne lt.ne] at split
    have addr : (rows.addTop key next).addr level before = rows.addr level before := by
      rw [Rows.addr, Rows.addr, rows.head_addTop_of_ne lt.ne]
    have less := linked.addr_lt lt split
    rw [addr, Function.update_of_ne (by omega), Function.update_of_ne (by omega),
      linked.nodes lt split, Rows.node, Rows.node, down_addTop rows key next lt.le]
  · rw [rows.cells_addTop_self] at split
    rcases List.append_eq_singleton_iff.mp split.symm with ⟨rfl, rfl⟩ | ⟨rfl, rfl⟩
    · have addr : (rows.addTop key next).addr rows.height [] = next := rows.head_addTop_self ..
      rw [addr, Function.update_of_ne (Nat.ne_of_lt (Nat.lt_succ_self next)),
        Function.update_self, Rows.node, down_addTop rows key next le_rfl]
      rfl
    · have addr : (rows.addTop key next).addr rows.height [(key, next + 1)] = next + 1 := rfl
      rw [addr, Function.update_self, Rows.node, down_addTop rows key next le_rfl]
      rfl

/-- The new addresses belong to the new row. -/
theorem owned_addTop (linked : Linked heap next rows value) (key : Nat) :
    ∃ owner : Nat → Nat × Option Nat, ∀ level < (rows.addTop key next).height,
      owner ((rows.addTop key next).head level) = (level, none) ∧
        ∀ cell ∈ (rows.addTop key next).cells level, owner cell.2 = (level, some cell.1) := by
  obtain ⟨owner, owned⟩ := linked.owned
  refine ⟨Function.update (Function.update owner next (rows.height, none)) (next + 1)
    (rows.height, some key), ?_⟩
  intro level lt
  rcases addTop_cases lt with lt | rfl
  · obtain ⟨head, cells⟩ := linked.fresh level lt
    obtain ⟨headOwned, cellsOwned⟩ := owned level lt
    rw [rows.cells_addTop_of_ne lt.ne, rows.head_addTop_of_ne lt.ne]
    constructor
    · rw [Function.update_of_ne (by omega), Function.update_of_ne (by omega), headOwned]
    · intro cell mem
      have less := cells cell mem
      rw [Function.update_of_ne (by omega), Function.update_of_ne (by omega),
        cellsOwned cell mem]
  · rw [rows.cells_addTop_self, rows.head_addTop_self]
    constructor
    · rw [Function.update_of_ne (Nat.ne_of_lt (Nat.lt_succ_self next)), Function.update_self]
    · intro cell mem
      obtain rfl := List.mem_singleton.mp mem
      exact Function.update_self ..

/-- The memory after a row was added on top. -/
theorem addTop (linked : Linked heap next rows value) (bound : key ≤ uint64Max)
    (present : ∀ below, rows.height = below + 1 → (find key (rows.cells below)).isSome) :
    Linked
      (Function.update
        (Function.update heap next
          (some { Node.blank with right := some (next + 1), down := rows.headBelow rows.height }))
        (next + 1) (some ⟨none, rows.below key rows.height, key, value rows.height key⟩))
      (next + 2) (rows.addTop key next) value := by
  constructor
  case nodes => exact linked.nodes_addTop
  case sorted =>
    intro level
    by_cases same : level = rows.height
    · rw [same, rows.cells_addTop_self]
      exact List.pairwise_singleton ..
    · rw [rows.cells_addTop_of_ne same]
      exact linked.sorted level
  case nonempty =>
    intro level lt
    rcases addTop_cases lt with lt | rfl
    · rw [rows.cells_addTop_of_ne lt.ne]
      exact linked.nonempty lt
    · rw [rows.cells_addTop_self]
      exact List.cons_ne_nil _ _
  case above =>
    intro level other lt present'
    have lt' : level < rows.height := Nat.lt_of_succ_lt_succ lt
    rw [rows.cells_addTop_of_ne lt'.ne]
    rcases addTop_cases lt with above | same
    · rw [rows.cells_addTop_of_ne above.ne] at present'
      exact linked.above above present'
    · rw [same, rows.cells_addTop_self] at present'
      obtain ⟨cell, mem, rfl⟩ := find_isSome_iff.mp present'
      obtain rfl := List.mem_singleton.mp mem
      exact present level same.symm
  case small =>
    intro level cell lt mem
    rcases addTop_cases lt with lt | rfl
    · rw [rows.cells_addTop_of_ne lt.ne] at mem
      exact linked.small lt mem
    · rw [rows.cells_addTop_self] at mem
      obtain rfl := List.mem_singleton.mp mem
      exact bound
  case owned => exact linked.owned_addTop key
  case fresh =>
    intro level lt
    rcases addTop_cases lt with lt | rfl
    · obtain ⟨head, cells⟩ := linked.fresh level lt
      rw [rows.cells_addTop_of_ne lt.ne, rows.head_addTop_of_ne lt.ne]
      exact ⟨by omega, fun cell mem => Nat.lt_add_right 2 (cells cell mem)⟩
    · rw [rows.cells_addTop_self, rows.head_addTop_self]
      refine ⟨by omega, ?_⟩
      intro cell mem
      obtain rfl := List.mem_singleton.mp mem
      exact Nat.lt_succ_self _
  case room =>
    intro level lt
    rcases addTop_cases lt with lt | rfl
    · rw [rows.cells_addTop_of_ne lt.ne]
      exact Nat.lt_add_right 2 (linked.room level lt)
    · rw [rows.cells_addTop_self]
      exact Nat.succ_lt_succ (Nat.succ_pos next)
  case tall =>
    exact Nat.succ_le_succ (Nat.le_succ_of_le linked.tall)

/-! ## The bottom row -/

theorem firstLoop_eq (linked : Linked heap next rows value) (lt : level < rows.height)
    {fuel : Nat} (enough : level < fuel) (q : Option Nat) :
    Towers.firstLoop heap fuel (some (rows.head level)) q = some (some (rows.head 0)) := by
  obtain ⟨fuel, rfl⟩ : ∃ fuel', fuel = fuel' + 1 := ⟨fuel - 1, by omega⟩
  have step : ∀ {level} (fuel : Nat) (q : Option Nat), level < rows.height →
      Towers.firstLoop heap (fuel + 1) (some (rows.head level)) q =
        Towers.firstLoop heap fuel (rows.headBelow level) (some (rows.head level)) := by
    intro level fuel q lt
    have here := linked.nodes lt (List.nil_append _).symm
    change heap (rows.head level) = _ at here
    rw [Towers.firstLoop, here]
    rfl
  induction level generalizing fuel q with
  | zero => rw [step fuel q lt, Rows.headBelow, Towers.firstLoop]
  | succ level ih =>
      obtain ⟨fuel, rfl⟩ : ∃ fuel', fuel = fuel' + 1 := ⟨fuel - 1, by omega⟩
      rw [step (fuel + 1) q lt]
      exact ih (Nat.lt_of_succ_lt lt) _ fuel (by omega)

/-- The row from some cell on, with its values. -/
theorem rowLoop_eq (linked : Linked heap next rows value) (lt : level < rows.height)
    {fuel : Nat} (split : rows.cells level = before ++ after) (enough : after.length < fuel) :
    Towers.rowLoop heap fuel (after.head?.map Prod.snd) =
      some (after.map fun cell => (cell.1, value level cell.1)) := by
  induction after generalizing before fuel with
  | nil => rw [List.head?_nil, Option.map_none, Towers.rowLoop, List.map_nil]
  | cons cell after ih =>
      obtain ⟨fuel, rfl⟩ : ∃ fuel', fuel = fuel' + 1 := ⟨fuel - 1, by omega⟩
      have split' : rows.cells level = (before ++ [cell]) ++ after := by simp [split]
      have here := linked.nodes lt split'
      rw [Rows.addr_concat] at here
      rw [List.head?_cons, Option.map_some, Towers.rowLoop, here]
      change (Towers.rowLoop heap fuel (after.head?.map Prod.snd)).bind _ = _
      rw [ih split' (Nat.lt_of_succ_lt_succ enough), Option.bind_some, Rows.node,
        Rows.lastKey_concat]
      rfl

/-! ## Clearing -/

/-- The inner loop of `clear` leaves the rows below as they are. -/
theorem deleteRow_eq (linked : Linked heap next rows value) (lt : level < rows.height)
    {fuel : Nat} (split : rows.cells level = before ++ after) (enough : after.length < fuel)
    {heap' : Heap}
    (kept : ∀ level' before' after', level' < level ∨ level' = level ∧ before <+: before' →
      rows.cells level' = before' ++ after' →
        heap' (rows.addr level' before') = some (rows.node value level' before' after')) :
    ∃ heap'', Towers.deleteRow fuel (rows.addr level before) heap' = some heap'' ∧
      ∀ level' before' after', level' < level → rows.cells level' = before' ++ after' →
        heap'' (rows.addr level' before') = some (rows.node value level' before' after') := by
  induction after generalizing before fuel heap' with
  | nil =>
      obtain ⟨fuel, rfl⟩ : ∃ fuel', fuel = fuel' + 1 := ⟨fuel - 1, by omega⟩
      rw [Towers.deleteRow, kept level before [] (.inr ⟨rfl, List.prefix_rfl⟩) split]
      refine ⟨_, rfl, ?_⟩
      intro level' before' after' less split'
      rw [Function.update_of_ne]
      · exact kept level' before' after' (.inl less) split'
      · intro same
        exact absurd (linked.place_eq (less.trans lt) split' lt split same).1 less.ne
  | cons cell after ih =>
      obtain ⟨fuel, rfl⟩ : ∃ fuel', fuel = fuel' + 1 := ⟨fuel - 1, by omega⟩
      have split' : rows.cells level = (before ++ [cell]) ++ after := by simp [split]
      rw [Towers.deleteRow, kept level before _ (.inr ⟨rfl, List.prefix_rfl⟩) split]
      have kept' : ∀ level' before' after',
          level' < level ∨ level' = level ∧ before ++ [cell] <+: before' →
            rows.cells level' = before' ++ after' →
              Function.update heap' (rows.addr level before) none (rows.addr level' before') =
                some (rows.node value level' before' after') := by
        intro level' before' after' later split''
        have lt' : level' < rows.height := by omega
        rw [Function.update_of_ne]
        · apply kept level' before' after' _ split''
          exact later.imp_right fun ⟨same, longer⟩ =>
            ⟨same, (List.prefix_append ..).trans longer⟩
        · intro same
          obtain ⟨rfl, rfl⟩ := linked.place_eq lt' split'' lt split same
          rcases later with less | ⟨-, longer⟩
          · exact absurd less (Nat.lt_irrefl _)
          · have length := longer.length_le
            rw [List.length_append, List.length_singleton] at length
            omega
      have rest := ih split' (Nat.lt_of_succ_lt_succ enough) kept'
      rw [Rows.addr_concat] at rest
      exact rest

/-- `clear` reaches the bottom row. -/
theorem deleteRows_isSome (linked : Linked heap next rows value) (lt : level < rows.height)
    {fuel : Nat} (enough : level < fuel) {heap' : Heap}
    (kept : ∀ level' before after, level' ≤ level → rows.cells level' = before ++ after →
      heap' (rows.addr level' before) = some (rows.node value level' before after)) :
    ∃ heap'', Towers.deleteRows next fuel (rows.head level) heap' = some heap'' := by
  obtain ⟨fuel, rfl⟩ : ∃ fuel', fuel = fuel' + 1 := ⟨fuel - 1, by omega⟩
  have step : ∀ {level heap'} (fuel : Nat), level < rows.height →
      (∀ level' before after, level' ≤ level → rows.cells level' = before ++ after →
        heap' (rows.addr level' before) = some (rows.node value level' before after)) →
      ∃ heap'', (∀ level' before after, level' < level → rows.cells level' = before ++ after →
          heap'' (rows.addr level' before) = some (rows.node value level' before after)) ∧
        Towers.deleteRows next (fuel + 1) (rows.head level) heap' =
          (rows.headBelow level).elim (some heap'') fun down =>
            Towers.deleteRows next fuel down heap'' := by
    intro level heap' fuel lt kept
    have here := kept level [] _ le_rfl (List.nil_append _).symm
    change heap' (rows.head level) = _ at here
    have keptRow : ∀ level' before' after', level' < level ∨ level' = level ∧ [] <+: before' →
        rows.cells level' = before' ++ after' →
          heap' (rows.addr level' before') = some (rows.node value level' before' after') :=
      fun level' before' after' le => kept level' before' after' (by omega)
    obtain ⟨heap'', deleted, below⟩ :=
      linked.deleteRow_eq lt (List.nil_append _).symm (linked.room level lt) keptRow
    change Towers.deleteRow next (rows.head level) heap' = _ at deleted
    refine ⟨heap'', below, ?_⟩
    rw [Towers.deleteRows, here]
    change (Towers.deleteRow next (rows.head level) heap').bind _ = _
    rw [deleted]
    cases level with
    | zero => rfl
    | succ level => rfl
  induction level generalizing fuel heap' with
  | zero =>
      obtain ⟨heap'', -, deleted⟩ := step fuel lt kept
      exact ⟨heap'', deleted⟩
  | succ level ih =>
      obtain ⟨heap'', below, deleted⟩ := step fuel lt kept
      obtain ⟨fuel, rfl⟩ : ∃ fuel', fuel = fuel' + 1 := ⟨fuel - 1, by omega⟩
      obtain ⟨last, done⟩ := ih (Nat.lt_of_succ_lt lt)
        (fun level' before after le => below level' before after (Nat.lt_succ_of_le le)) fuel
        (by omega)
      exact ⟨last, deleted.trans done⟩

end Linked

/-! ## Lists and their towers -/

/-- No rows. -/
def Rows.none : Rows := ⟨0, fun _ => 0, fun _ => []⟩

theorem Linked.none (heap : Heap) (next : Nat) (value : Nat → Nat → Str) :
    Linked heap next .none value where
  nodes lt := absurd lt (Nat.not_lt_zero _)
  sorted _ := List.Pairwise.nil
  nonempty lt := absurd lt (Nat.not_lt_zero _)
  above lt := absurd lt (Nat.not_lt_zero _)
  small lt := absurd lt (Nat.not_lt_zero _)
  owned := ⟨fun _ => (0, .none), fun _ lt => absurd lt (Nat.not_lt_zero _)⟩
  fresh _ lt := absurd lt (Nat.not_lt_zero _)
  room _ lt := absurd lt (Nat.not_lt_zero _)
  tall := Nat.zero_le next

/-- The towers hold the entries of a list in every row. -/
structure Represents (list : Towers) (bottom : SkipList) : Prop where
  rows : ∃ rows : Rows,
    Linked list.heap list.next rows (fun _ key => (find key bottom.nodes).getD .empty) ∧
      list.head = rows.headBelow rows.height ∧ (rows.height = 0 ↔ bottom.nodes = []) ∧
      ∀ key, rows.height ≠ 0 →
        ((find key (rows.cells 0)).isSome ↔ (find key bottom.nodes).isSome)
  sorted : Sorted bottom.nodes
  length : bottom.size = bottom.nodes.length
  size : list.size = bottom.size
  timeStamp : list.timeStamp = bottom.timeStamp
  minKey : list.minKey = bottom.minKey
  maxKey : list.maxKey = bottom.maxKey
  memory : list.memory = bottom.memory

namespace Represents

variable {list : Towers} {bottom : SkipList}

theorem new : Represents Towers.new SkipList.new where
  rows := ⟨.none, Linked.none .., rfl, iff_of_true rfl rfl, fun _ ne => absurd rfl ne⟩
  sorted := List.Pairwise.nil
  length := rfl
  size := rfl
  timeStamp := rfl
  minKey := rfl
  maxKey := rfl
  memory := rfl

/-- `get` finds what is in the bottom row. -/
theorem get (represents : Represents list bottom) (key : Nat) :
    list.get key = some (bottom.get key) := by
  obtain ⟨rows, linked, head, empty, same⟩ := represents.rows
  rw [Towers.get, SkipList.get, represents.size]
  by_cases zero : bottom.size = 0
  · rw [if_pos zero, if_pos zero]
  · rw [if_neg zero, if_neg zero, head]
    have ne : rows.height ≠ 0 := by
      intro none
      rw [represents.length, empty.mp none] at zero
      exact zero rfl
    obtain ⟨level, height⟩ := Nat.exists_eq_succ_of_ne_zero ne
    have lt : level < rows.height := height ▸ Nat.lt_succ_self level
    have found := linked.getLoop_eq key lt (lt.trans_le linked.tall)
      (List.nil_append _).symm fun _ => (absurd · List.not_mem_nil)
    rw [height]
    refine found.trans (congrArg some ?_)
    by_cases present : (find key (rows.cells 0)).isSome
    · rw [if_pos present]
    · rw [if_neg present]
      rw [same key ne, Option.not_isSome_iff_eq_none] at present
      rw [present]
      rfl

/-- What is reached from `GetFirstNode` are the entries. -/
theorem bottomRow (represents : Represents list bottom) : list.bottomRow = some bottom.nodes := by
  obtain ⟨rows, linked, head, empty, same⟩ := represents.rows
  rw [Towers.bottomRow, Towers.getFirstNode, head]
  cases height : rows.height with
  | zero =>
      rw [Rows.headBelow, Towers.firstLoop, empty.mp height]
      rfl
  | succ level =>
      have lt : level < rows.height := height ▸ Nat.lt_succ_self level
      have lt0 : 0 < rows.height := Nat.zero_lt_of_lt lt
      have here := linked.nodes lt0 (List.nil_append _).symm
      change list.heap (rows.head 0) = _ at here
      rw [Rows.headBelow, linked.firstLoop_eq lt (lt.trans_le linked.tall)]
      change (list.heap (rows.head 0)).bind _ = _
      rw [here]
      change Towers.rowLoop list.heap list.next ((rows.cells 0).head?.map Prod.snd) = _
      rw [linked.rowLoop_eq lt0 (List.nil_append _).symm (linked.room 0 lt0)]
      congr 1
      apply Sorted.ext ((linked.sorted 0).map fun key _ => (find key bottom.nodes).getD .empty)
        represents.sorted
      intro key
      rw [find_map (rows.cells 0) fun key _ => (find key bottom.nodes).getD .empty]
      have iff := same key (Nat.ne_of_gt lt0)
      cases found : find key bottom.nodes with
      | none =>
          rw [found, Option.isSome_none, Bool.false_eq_true, iff_false,
            Option.not_isSome_iff_eq_none] at iff
          rw [iff, Option.map_none]
      | some value =>
          rw [found, Option.isSome_some] at iff
          obtain ⟨address, held⟩ := Option.isSome_iff_exists.mp (iff.mpr rfl)
          rw [held, Option.map_some, Option.getD_some]

/-- `clear` deletes what `new` gave out. -/
theorem clear (represents : Represents list bottom) :
    ∃ list', list.clear = some list' ∧ Represents list' bottom.clear := by
  obtain ⟨rows, linked, head, empty, -⟩ := represents.rows
  rw [Towers.clear, head, SkipList.clear]
  cases height : rows.height with
  | zero =>
      rw [Rows.headBelow, empty.mp height]
      exact ⟨list, rfl, represents⟩
  | succ level =>
      have lt : level < rows.height := height ▸ Nat.lt_succ_self level
      obtain ⟨heap, deleted⟩ := linked.deleteRows_isSome lt (lt.trans_le linked.tall)
        fun level' before after le => linked.nodes (Nat.lt_of_le_of_lt le lt)
      cases nodes : bottom.nodes with
      | nil =>
          rw [empty.mpr nodes] at height
          cases height
      | cons node rest =>
          rw [Rows.headBelow]
          change ∃ list', (Towers.deleteRows list.next list.next (rows.head level) list.heap).bind
            _ = some list' ∧ _
          rw [deleted]
          refine ⟨_, rfl, ?_⟩
          exact
            { rows := ⟨.none, Linked.none .., rfl, iff_of_true rfl rfl, fun _ ne => absurd rfl ne⟩
              sorted := List.Pairwise.nil
              length := rfl
              size := rfl
              timeStamp := represents.timeStamp
              minKey := rfl
              maxKey := rfl
              memory := rfl }

/-- The path of `put` leaves every row once. -/
theorem path_eq {heap : Heap} {next : Nat} {rows : Rows} {value : Nat → Nat → Str}
    (linked : Linked heap next rows value) (key : Nat) :
    Towers.pathLoop heap next key next (rows.headBelow rows.height) [] =
      some ((List.range' 0 rows.height).map (rows.spot key)) := by
  cases height : rows.height with
  | zero => rw [Rows.headBelow, Towers.pathLoop, List.range'_zero, List.map_nil]
  | succ level =>
      have lt : level < rows.height := height ▸ Nat.lt_succ_self level
      have path := linked.pathLoop_eq key lt (lt.trans_le linked.tall) (List.nil_append _).symm
        (fun _ => (absurd · List.not_mem_nil)) []
      rw [List.append_nil, List.range_eq_range'] at path
      exact path

/-- Rows with the new entry represent the list after `put`. -/
theorem put_of_rows (represents : Represents list bottom) {key : Nat} {value : Str}
    {size next : Nat} {heap : Heap} {rows : Rows}
    (linked : Linked heap next rows fun _ other =>
      (find other (assign key value bottom.nodes)).getD .empty)
    (ne : rows.height ≠ 0)
    (same : ∀ other, (find other (rows.cells 0)).isSome ↔
      other = key ∨ (find other bottom.nodes).isSome)
    (sizeEq : size = (bottom.put key value).size) :
    Represents
      { list with
        size := size
        head := rows.headBelow rows.height
        minKey := if key < list.minKey then key else list.minKey
        maxKey := if list.maxKey < key then key else list.maxKey
        heap := heap
        next := next }
      (bottom.put key value) where
  rows := by
    refine ⟨rows, linked, rfl, iff_of_false ne (assign_ne_nil key value bottom.nodes), ?_⟩
    intro other _
    change _ ↔ (find other (assign key value bottom.nodes)).isSome
    rw [same]
    by_cases equal : key = other
    · simp [equal]
    · simp [equal, Ne.symm equal]
  sorted := represents.sorted.assign key value
  length := by
    change (if (find key bottom.nodes).isSome then bottom.size else bottom.size + 1) =
      (assign key value bottom.nodes).length
    rw [length_assign key value represents.sorted, represents.length]
  size := sizeEq
  timeStamp := represents.timeStamp
  minKey := by
    rw [represents.minKey]
    rfl
  maxKey := by
    rw [represents.maxKey]
    rfl
  memory := represents.memory

/-- The path ends at the key if the list holds it. -/
theorem endsAt_path {heap : Heap} {next : Nat} {rows : Rows} {value : Nat → Nat → Str}
    (linked : Linked heap next rows value) (empty : rows.height = 0 ↔ bottom.nodes = [])
    {key : Nat} (same : rows.height ≠ 0 →
      ((find key (rows.cells 0)).isSome ↔ (find key bottom.nodes).isSome)) :
    Towers.endsAt heap key ((List.range' 0 rows.height).map (rows.spot key)) =
      some (decide (find key bottom.nodes).isSome) := by
  cases height : rows.height with
  | zero =>
      rw [empty.mp height]
      rfl
  | succ level =>
      have lt : 0 < rows.height := height ▸ Nat.succ_pos level
      have here := linked.nodes lt (Linked.upTo_append rows key 0)
      rw [List.range'_succ, List.map_cons]
      change (heap (rows.addr 0 (rows.upTo key 0))).map _ = _
      rw [here, Option.map_some]
      congr 1
      exact decide_eq_decide.mpr ((linked.key_upTo_iff lt).trans (same (Nat.ne_of_gt lt)))

/-- An entry that is there gets the new value in all its copies. -/
theorem replaced (represents : Represents list bottom) {key : Nat} (value : Str) {rows : Rows}
    (linked : Linked list.heap list.next rows fun _ other =>
      (find other bottom.nodes).getD .empty)
    (empty : rows.height = 0 ↔ bottom.nodes = [])
    (same : ∀ other, rows.height ≠ 0 →
      ((find other (rows.cells 0)).isSome ↔ (find other bottom.nodes).isSome))
    (present : (find key bottom.nodes).isSome) :
    ∃ heap,
      Towers.replaceLoop key value ((List.range' 0 rows.height).map (rows.spot key)) list.heap =
        some heap ∧
      Represents
        { list with
          head := rows.headBelow rows.height
          minKey := if key < list.minKey then key else list.minKey
          maxKey := if list.maxKey < key then key else list.maxKey
          heap := heap }
        (bottom.put key value) := by
  have ne : rows.height ≠ 0 := by
    intro none
    rw [empty.mp none] at present
    cases present
  obtain ⟨heap, value', done, linked', values⟩ :=
    linked.replaceLoop_eq value (Nat.zero_add rows.height)
  refine ⟨heap, done, represents.put_of_rows (linked'.congr_value ?_) ne ?_ ?_⟩
  · intro level lt other held
    rw [values level lt other held, find_assign]
    by_cases equal : other = key
    · rw [if_pos equal.symm, if_pos ⟨Nat.zero_le level, equal⟩, Option.getD_some]
    · rw [if_neg (Ne.symm equal), if_neg (equal ·.2)]
  · intro other
    rw [same other ne]
    refine (or_iff_right_of_imp ?_).symm
    rintro rfl
    exact present
  · rw [represents.size]
    exact (if_pos present).symm

/-- A key that is in no row may be assigned any value. -/
theorem linked_assign {heap : Heap} {next key : Nat} {rows : Rows} (value : Str)
    (linked : Linked heap next rows fun _ other => (find other bottom.nodes).getD .empty)
    (absent : ∀ level < rows.height, find key (rows.cells level) = none) :
    Linked heap next rows fun _ other =>
      (find other (assign key value bottom.nodes)).getD .empty := by
  apply linked.congr_value
  intro level lt other held
  have ne : key ≠ other := by
    rintro rfl
    rw [absent level lt] at held
    cases held
  simp [ne]

/-- A key that the list does not hold is in no row. -/
theorem find_eq_none_of_notPresent {heap : Heap} {next key : Nat} {rows : Rows}
    {value : Nat → Nat → Str} (linked : Linked heap next rows value)
    (same : rows.height ≠ 0 →
      ((find key (rows.cells 0)).isSome ↔ (find key bottom.nodes).isSome))
    (notPresent : ¬(find key bottom.nodes).isSome) {level : Nat} (lt : level < rows.height) :
    find key (rows.cells level) = none := by
  by_contra held
  have below := linked.isSome_below lt (Option.ne_none_iff_isSome.mp held) 0 (Nat.zero_le _)
  exact notPresent ((same (by omega)).mp below)

/-- A new entry gets a copy in the bottom row and in the rows above it for which `rand` says
so. -/
theorem inserted (represents : Represents list bottom) {key : Nat} (bound : key ≤ uint64Max)
    (value : Str) (coin : Nat → Bool) {rows : Rows}
    (linked : Linked list.heap list.next rows fun _ other =>
      (find other bottom.nodes).getD .empty)
    (empty : rows.height = 0 ↔ bottom.nodes = [])
    (same : ∀ other, rows.height ≠ 0 →
      ((find other (rows.cells 0)).isSome ↔ (find other bottom.nodes).isSome))
    (notPresent : ¬(find key bottom.nodes).isSome) :
    ∃ after,
      Towers.insertLoop key value coin ((List.range' 0 rows.height).map (rows.spot key)) 0 none
        list.heap list.next = some after ∧
      ∀ list' : Towers,
        list' =
          { list with
            size := list.size + 1
            head := rows.headBelow rows.height
            minKey := if key < list.minKey then key else list.minKey
            maxKey := if list.maxKey < key then key else list.maxKey
            heap := after.heap
            next := after.next } →
        Represents (if after.insertUp then list'.addRow key value after.downNode else list')
          (bottom.put key value) := by
  have absent : ∀ level < rows.height, find key (rows.cells level) = none :=
    fun _ => find_eq_none_of_notPresent linked (same key) notPresent
  have widened := linked_assign value linked absent
  have inserts : ∀ _ : Nat, (find key (assign key value bottom.nodes)).getD .empty = value := by
    intro _
    simp
  obtain ⟨after, rows', done, linked', height, headEq, bottomRow, top⟩ :=
    widened.insertLoop_eq bound coin inserts (Nat.zero_add rows.height)
      (fun level _ => absent level) nofun
  have size : list.size + 1 = (bottom.put key value).size := by
    rw [represents.size]
    exact (if_neg notPresent).symm
  have heads : rows'.headBelow rows'.height = rows.headBelow rows.height := by
    rw [height]
    exact Rows.headBelow_congr headEq _
  refine ⟨after, done, ?_⟩
  rintro list' rfl
  by_cases up : after.insertUp = true
  · obtain ⟨downNode, present'⟩ := top up
    have topped := linked'.addTop bound present'
    rw [heads, ← downNode, inserts rows'.height] at topped
    rw [if_pos up]
    have result := represents.put_of_rows topped (Nat.succ_ne_zero _) ?_ size
    · have top : (rows'.addTop key after.next).headBelow (rows'.addTop key after.next).height =
          some after.next :=
        congrArg some (Function.update_self ..)
      rw [top] at result
      exact result
    · intro other
      rw [Linked.find_addTop, bottomRow, height]
      by_cases zero : rows.height = 0
      · simp [zero, empty.mp zero]
      · simp [zero, same other zero]
  · have ne : rows.height ≠ 0 := by
      intro zero
      rw [zero, List.range'_zero, List.map_nil, Towers.insertLoop] at done
      rw [← Option.some.inj done] at up
      exact up rfl
    have result := represents.put_of_rows linked' (height ▸ ne) ?_ size
    · rw [if_neg up]
      rw [heads] at result
      exact result
    · intro other
      rw [bottomRow, same other ne]
      simp [ne]

/-- `put` replaces a value or inserts an entry, for all outcomes of `rand`. -/
theorem put (represents : Represents list bottom) {key : Nat} (bound : key ≤ uint64Max)
    (value : Str) (coin : Nat → Bool) :
    ∃ list', list.put key value coin = some list' ∧ Represents list' (bottom.put key value) := by
  obtain ⟨rows, linked, head, empty, same⟩ := represents.rows
  rw [Towers.put]
  change ∃ list', (Towers.pathLoop list.heap list.next key list.next list.head []).bind _ =
    some list' ∧ _
  rw [head, path_eq linked key, Option.bind_some]
  change ∃ list', (Towers.endsAt list.heap key _).bind _ = some list' ∧ _
  rw [endsAt_path linked empty (same key), Option.bind_some]
  by_cases present : (find key bottom.nodes).isSome
  · obtain ⟨heap, done, represents'⟩ := represents.replaced value linked empty same present
    rw [decide_eq_true present]
    change ∃ list', (Towers.replaceLoop key value _ list.heap).bind _ = some list' ∧ _
    rw [done]
    exact ⟨_, rfl, represents'⟩
  · obtain ⟨after, done, represents'⟩ :=
      represents.inserted bound value coin linked empty same present
    rw [decide_eq_false present]
    change ∃ list', (Towers.insertLoop key value coin _ 0 (rows.below key 0) list.heap
      list.next).bind _ = some list' ∧ _
    rw [show rows.below key 0 = none from rfl, done]
    exact ⟨_, rfl, represents' _ rfl⟩

end Represents

/-! ## Runs -/

namespace Towers

/-- What a call does to the bottom row. -/
def Call.edits : Call → List SkipList.Edit
  | .put key value _ => [.put key value]
  | .get _ => []
  | .clear => [.clear]

/-- Every run does to the towers what the list does to the bottom row. -/
theorem represents_run {calls : List Call} (valid : ∀ call ∈ calls, call.Valid) :
    ∃ list, run calls = some list ∧ Represents list (SkipList.run (calls.flatMap Call.edits)) := by
  induction calls with
  | nil => exact ⟨new, rfl, .new⟩
  | cons call calls ih =>
      obtain ⟨list, before, represents⟩ := ih fun other mem => valid other (.tail call mem)
      rw [run, before, Option.bind_some]
      cases call with
      | put key value coin =>
          have bound : key ≤ uint64Max := valid _ List.mem_cons_self
          exact represents.put bound value coin
      | get key =>
          rw [exec, represents.get key]
          exact ⟨list, rfl, represents⟩
      | clear => exact represents.clear

/-- The bottom row holds the values put last. -/
@[simp]
theorem find_edits (calls : List Call) (key : Nat) :
    find key (SkipList.run (calls.flatMap Call.edits)).nodes = latest key calls := by
  induction calls with
  | nil => rfl
  | cons call calls ih =>
      rw [List.flatMap_cons]
      cases call with
      | put other value coin =>
          refine (find_assign other key value _).trans ?_
          change (if other = key then some value
            else find key (SkipList.run (calls.flatMap Call.edits)).nodes) = _
          rw [ih]
          rfl
      | get other => exact ih
      | clear => exact congrArg (find key) (SkipList.nodes_clear _)

/-- Whatever `rand` returns, the list is the sorted map of the values put last. -/
theorem sortedMap_of_run {calls : List Call} (valid : ∀ call ∈ calls, call.Valid) :
    ∃ list row, run calls = some list ∧ list.bottomRow = some row ∧ Sorted row ∧
      (∀ key value, (key, value) ∈ row ↔ latest key calls = some value) ∧
      list.size = row.length ∧
      ∀ key, list.get key = some ((latest key calls).getD .empty) := by
  obtain ⟨list, done, represents⟩ := represents_run valid
  refine ⟨list, _, done, represents.bottomRow, represents.sorted, ?_, ?_, ?_⟩
  · intro key value
    rw [← represents.sorted.find_eq_some_iff, find_edits]
  · rw [represents.size, represents.length]
  · intro key
    rw [represents.get, SkipList.get, ← find_edits]
    split
    · rename_i zero
      rw [represents.length, List.length_eq_zero_iff] at zero
      rw [zero]
      rfl
    · rfl

/-- The key of the heads is put below a tower and deleted in both its copies. -/
theorem sortedMap_of_heads :
    ∃ list row,
      run [.put uint64Max .del fun _ => false, .put 5 .empty fun _ => true,
        .put uint64Max .empty fun i => i == 0, .clear, .put 7 .del fun _ => false] =
          some list ∧
      list.bottomRow = some row ∧ Sorted row ∧ (uint64Max, .del) ∈ row ∧
      list.size = row.length ∧ list.get uint64Max = some .del ∧ list.get 7 = some .empty := by
  obtain ⟨list, row, done, bottom, sorted, mem, size, get⟩ :=
    @sortedMap_of_run [.put uint64Max .del fun _ => false, .put 5 .empty fun _ => true,
      .put uint64Max .empty fun i => i == 0, .clear, .put 7 .del fun _ => false]
      (by simp [Call.Valid, uint64Max])
  exact ⟨list, row, done, bottom, sorted, (mem _ _).mpr rfl, size, get _, get _⟩

end Towers

end ZnsLsm.Store
