import ZnsLsm.Store.TowerRows

/-!
# Changing the rows of a skip list

A search of a key leaves every row behind its last key that is not greater.  An insertion
puts a copy there, row by row; a replacement changes the copies that the searches end at.
Each round leads from a memory that holds rows to one that holds the changed rows.
-/

namespace ZnsLsm.Store

open SortedMap

namespace Rows

/-- The cells up to a key. -/
def upTo (rows : Rows) (key level : Nat) : List (Nat × Nat) :=
  Linked.passed rows (fun other => decide (other ≤ key)) level

/-- Where the search for a key leaves a row. -/
def spot (rows : Rows) (key level : Nat) : Nat :=
  rows.addr level (rows.upTo key level)

/-- Put a copy of a key into a row. -/
def insert (rows : Rows) (level key address : Nat) : Rows where
  height := rows.height
  head := rows.head
  cells := Function.update rows.cells level (assign key address (rows.cells level))

/-- Put a row with one copy on top. -/
def addTop (rows : Rows) (key address : Nat) : Rows where
  height := rows.height + 1
  head := Function.update rows.head rows.height address
  cells := Function.update rows.cells rows.height [(key, address + 1)]

@[simp]
theorem cells_addTop_self (rows : Rows) (key address : Nat) :
    (rows.addTop key address).cells rows.height = [(key, address + 1)] :=
  Function.update_self ..

@[simp]
theorem cells_addTop_of_ne (rows : Rows) {level : Nat} (ne : level ≠ rows.height)
    (key address : Nat) : (rows.addTop key address).cells level = rows.cells level :=
  Function.update_of_ne ne ..

@[simp]
theorem head_addTop_self (rows : Rows) (key address : Nat) :
    (rows.addTop key address).head rows.height = address :=
  Function.update_self ..

@[simp]
theorem head_addTop_of_ne (rows : Rows) {level : Nat} (ne : level ≠ rows.height)
    (key address : Nat) : (rows.addTop key address).head level = rows.head level :=
  Function.update_of_ne ne ..

@[simp]
theorem cells_insert_self (rows : Rows) (level key address : Nat) :
    (rows.insert level key address).cells level = assign key address (rows.cells level) :=
  Function.update_self ..

@[simp]
theorem cells_insert_of_ne (rows : Rows) {level level' : Nat} (ne : level' ≠ level)
    (key address : Nat) : (rows.insert level key address).cells level' = rows.cells level' :=
  Function.update_of_ne ne ..

theorem mem_insert {rows : Rows} {level key address level' : Nat} {cell : Nat × Nat}
    (mem : cell ∈ (rows.insert level key address).cells level') :
    level' = level ∧ cell = (key, address) ∨ cell ∈ rows.cells level' := by
  by_cases same : level' = level
  · subst same
    rw [cells_insert_self] at mem
    exact (mem_assign mem).imp_left fun new => ⟨rfl, new⟩
  · rw [cells_insert_of_ne rows same] at mem
    exact .inr mem

theorem find_insert (rows : Rows) (level key address other level' : Nat) :
    (find other ((rows.insert level key address).cells level')).isSome ↔
      level' = level ∧ other = key ∨ (find other (rows.cells level')).isSome := by
  by_cases same : level' = level
  · subst same
    by_cases equal : key = other
    · simp [equal]
    · simp [equal, Ne.symm equal]
  · simp [same]

@[simp]
theorem spot_insert (rows : Rows) {level level' : Nat} (ne : level' ≠ level)
    (key address : Nat) :
    (rows.insert level key address).spot key level' = rows.spot key level' := by
  rw [spot, spot, upTo, upTo, Linked.passed, Linked.passed, cells_insert_of_ne rows ne]
  rfl

/-- An insertion leaves the path through the rows above alone. -/
@[simp]
theorem map_spot_insert (rows : Rows) (level key address n : Nat) :
    (List.range' (level + 1) n).map ((rows.insert level key address).spot key) =
      (List.range' (level + 1) n).map (rows.spot key) := by
  apply List.map_congr_left
  intro level' mem
  have above := (List.mem_range'_1.mp mem).1
  exact rows.spot_insert (by omega) key address

/-- The row at the bottom gets the key if the insertion is into it. -/
theorem find_bottom_insert (rows : Rows) (level key address other : Nat) :
    (find other ((rows.insert level key address).cells 0)).isSome ↔
      level = 0 ∧ other = key ∨ (find other (rows.cells 0)).isSome := by
  rw [find_insert, eq_comm]

end Rows

namespace Linked

variable {heap : Heap} {next level key : Nat} {rows : Rows} {value : Nat → Nat → Str}
variable {before after : List (Nat × Nat)}

/-! ## The path -/

theorem upTo_append (rows : Rows) (key level : Nat) :
    rows.cells level =
      rows.upTo key level ++ (rows.cells level).dropWhile fun cell => decide (cell.1 ≤ key) :=
  cells_eq rows (fun other => decide (other ≤ key)) level

/-- The search ends at a key if and only if the row has it, also if the heads have that key. -/
theorem key_upTo_iff (linked : Linked heap next rows value) (lt : level < rows.height) :
    (Rows.lastKey (rows.upTo key level)).getD uint64Max = key ↔
      (find key (rows.cells level)).isSome := by
  have present := (linked.sorted level).find_isSome_iff_getLast? key
  change _ ↔ Rows.lastKey (rows.upTo key level) = some key at present
  rw [present]
  rcases Rows.last_cases (rows.upTo key level) with nil | ⟨first, cell, last⟩
  · refine iff_of_false ?_ ?_
    · intro same
      rw [nil] at same
      cases row : rows.cells level with
      | nil => exact linked.nonempty lt row
      | cons cell rest =>
          have small := linked.small lt (row ▸ List.mem_cons_self)
          change uint64Max = key at same
          rw [Rows.upTo, passed, row, List.takeWhile_cons,
            if_pos (decide_eq_true (small.trans same.le))] at nil
          cases nil
    · rw [nil]
      exact fun same => Option.some_ne_none key same.symm
  · rw [last, Rows.lastKey_concat, Option.getD_some, Option.some_inj]

/-- One round of `put` records where it leaves a row, and goes down. -/
theorem pathLoop_step (linked : Linked heap next rows value) (lt : level < rows.height)
    (fuel : Nat) (split : rows.cells level = before ++ after)
    (goes : ∀ cell ∈ before, decide (cell.1 ≤ key) = true) (pathList : List Nat) :
    Towers.pathLoop heap next key (fuel + 1) (some (rows.addr level before)) pathList =
      Towers.pathLoop heap next key fuel (rows.down level (rows.upTo key level))
        (rows.spot key level :: pathList) := by
  rw [Towers.pathLoop, linked.walk_from lt split goes]
  change ((heap (rows.spot key level)).bind fun node => _) = _
  rw [Rows.spot, linked.nodes lt (upTo_append rows key level)]
  rfl

theorem pathLoop_eq (linked : Linked heap next rows value) (key : Nat)
    (lt : level < rows.height) {fuel : Nat} (enough : level < fuel)
    (split : rows.cells level = before ++ after)
    (goes : ∀ cell ∈ before, decide (cell.1 ≤ key) = true) (pathList : List Nat) :
    Towers.pathLoop heap next key fuel (some (rows.addr level before)) pathList =
      some ((List.range (level + 1)).map (rows.spot key) ++ pathList) := by
  obtain ⟨fuel, rfl⟩ : ∃ fuel', fuel = fuel' + 1 := ⟨fuel - 1, by omega⟩
  induction level generalizing before after fuel pathList with
  | zero =>
      rw [linked.pathLoop_step lt fuel split goes, Rows.down_zero, Towers.pathLoop]
      rfl
  | succ level ih =>
      obtain ⟨before', after', split', goes', down⟩ :=
        linked.down_passed lt fun other other' le less =>
          decide_eq_true (le.trans (of_decide_eq_true less))
      obtain ⟨fuel, rfl⟩ : ∃ fuel', fuel = fuel' + 1 := ⟨fuel - 1, by omega⟩
      rw [linked.pathLoop_step lt (fuel + 1) split goes, Rows.upTo, down,
        ih (Nat.lt_of_succ_lt lt) split' goes' _ fuel (by omega), List.range_succ (n := level + 1),
        List.map_append, List.append_assoc]
      rfl

/-! ## Replacing -/

/-- Other values for keys that a row does not have. -/
theorem congr_value (linked : Linked heap next rows value) {value' : Nat → Nat → Str}
    (same : ∀ level < rows.height, ∀ other, (find other (rows.cells level)).isSome →
      value' level other = value level other) :
    Linked heap next rows value' :=
  { linked with
    nodes := by
      intro level before after lt split
      rw [linked.nodes lt split, Rows.node, Rows.node]
      rcases Rows.last_cases before with rfl | ⟨first, cell, rfl⟩
      · rfl
      · have present : (find cell.1 (rows.cells level)).isSome :=
          find_isSome_iff.mpr ⟨cell, by simp [split], rfl⟩
        rw [Rows.lastKey_concat, Option.elim_some, Option.elim_some,
          same level lt cell.1 present] }

/-- One round of the loop that replaces values. -/
theorem set_val (linked : Linked heap next rows value) (lt : level < rows.height)
    (split : rows.cells level = before ++ after) (last : Rows.lastKey before = some key)
    (val : Str) :
    Linked
      (Function.update heap (rows.addr level before)
        (some { rows.node value level before after with val := val }))
      next rows (Function.update value level (Function.update (value level) key val)) :=
  { linked with
    nodes := by
      intro level' before' after' lt' split'
      by_cases same : rows.addr level' before' = rows.addr level before
      · obtain ⟨rfl, rfl⟩ := linked.place_eq lt' split' lt split same
        obtain rfl := List.append_cancel_left (split'.symm.trans split)
        simp [Rows.node, last]
      · rw [Function.update_of_ne same, linked.nodes lt' split', Rows.node, Rows.node]
        by_cases level_eq : level' = level
        · subst level_eq
          rw [Function.update_self]
          cases last' : Rows.lastKey before' with
          | none => rfl
          | some other =>
              have ne : other ≠ key := by
                rintro rfl
                have place := linked.before_eq split' split (last'.trans last.symm)
                exact same (by rw [place])
              rw [Option.elim_some, Option.elim_some, Function.update_of_ne ne]
        · rw [Function.update_of_ne level_eq] }

/-- The loop reaches every copy of the key, from some row on. -/
theorem replaceLoop_eq (linked : Linked heap next rows value) (val : Str) {i n : Nat}
    (all : i + n = rows.height) :
    ∃ heap' value',
      Towers.replaceLoop key val ((List.range' i n).map (rows.spot key)) heap = some heap' ∧
        Linked heap' next rows value' ∧
        ∀ level < rows.height, ∀ other, (find other (rows.cells level)).isSome →
          value' level other = if i ≤ level ∧ other = key then val else value level other := by
  induction n generalizing i heap value with
  | zero =>
      refine ⟨heap, value, rfl, linked, ?_⟩
      intro level lt other present
      rw [if_neg (by omega)]
  | succ n ih =>
      have lt : i < rows.height := by omega
      have at_i := linked.nodes lt (upTo_append rows key i)
      rw [List.range'_succ, List.map_cons, Towers.replaceLoop, Rows.spot, at_i]
      change ∃ heap' value', (if (Rows.lastKey (rows.upTo key i)).getD uint64Max = key then _
        else _) = _ ∧ _
      by_cases present : (find key (rows.cells i)).isSome
      · have last := ((linked.sorted i).find_isSome_iff_getLast? key).mp present
        obtain ⟨heap', value', done, linked', values⟩ :=
          ih (linked.set_val lt (upTo_append rows key i) last val) (i := i + 1) (by omega)
        rw [if_pos ((linked.key_upTo_iff lt).mpr present)]
        refine ⟨heap', value', done, linked', ?_⟩
        intro level lt' other present'
        rw [values level lt' other present']
        by_cases level_eq : level = i
        · subst level_eq
          rw [if_neg (by omega), Function.update_self]
          by_cases same : other = key
          · rw [if_pos ⟨le_rfl, same⟩, same, Function.update_self]
          · rw [if_neg (same ·.2), Function.update_of_ne same]
        · rw [Function.update_of_ne level_eq]
          by_cases above : i ≤ level ∧ other = key
          · rw [if_pos above, if_pos ⟨by omega, above.2⟩]
          · rw [if_neg above, if_neg (by omega)]
      · rw [if_neg (mt (linked.key_upTo_iff lt).mp present)]
        refine ⟨heap, value, rfl, linked, ?_⟩
        intro level lt' other present'
        rw [if_neg]
        rintro ⟨le, rfl⟩
        exact present (linked.isSome_below lt' present' i le)

/-! ## Inserting -/

theorem down_insert (rows : Rows) (level address : Nat) {level' : Nat}
    (others : ∀ other, Rows.lastKey before = some other → level' = level + 1 → key ≠ other) :
    (rows.insert level key address).down level' before = rows.down level' before := by
  rw [Rows.down, Rows.down]
  cases last : Rows.lastKey before with
  | none => cases level' with
    | zero => rfl
    | succ below => rfl
  | some other =>
      cases level' with
      | zero => rfl
      | succ below =>
          change find other ((rows.insert level key address).cells below) = _
          by_cases same : below = level
          · subst same
            simp [others other last rfl, Rows.below]
          · rw [rows.cells_insert_of_ne same]
            rfl

/-- The memory after one round of the loop that inserts copies. -/
def inserted (heap : Heap) (next : Nat) (rows : Rows) (value : Nat → Nat → Str)
    (level key : Nat) (node : Node) : Heap :=
  Function.update
    (Function.update heap next
      (some ⟨node.right, rows.below key level, key, value level key⟩))
    (rows.spot key level) (some { node with right := some next })

/-- A node keeps its contents, if the copy does not go behind it. -/
theorem inserted_frame (linked : Linked heap next rows value) (lt : level < rows.height)
    (node : Node) {level' : Nat} (lt' : level' < rows.height)
    (split : rows.cells level' = before ++ after)
    (apart : level' = level → before ≠ rows.upTo key level)
    (others : ∀ other, Rows.lastKey before = some other → level' = level + 1 → key ≠ other)
    {before' after' : List (Nat × Nat)} (last : before'.getLast? = before.getLast?)
    (head : after'.head? = after.head?) :
    inserted heap next rows value level key node (rows.addr level' before') =
      some ((rows.insert level key next).node value level' before' after') := by
  have sameKey : Rows.lastKey before' = Rows.lastKey before := by
    rw [Rows.lastKey, Rows.lastKey, last]
  have sameAddr : rows.addr level' before' = rows.addr level' before := by
    rw [Rows.addr, Rows.addr, last]
  have notSpot : rows.addr level' before ≠ rows.spot key level := by
    intro same
    obtain ⟨rfl, place⟩ := linked.place_eq lt' split lt (upTo_append rows key level) same
    exact apart rfl place
  rw [sameAddr, inserted, Function.update_of_ne notSpot,
    Function.update_of_ne (linked.addr_ne_next lt' split), linked.nodes lt' split, Rows.node,
    Rows.node, ← down_insert rows level next others, Rows.down, Rows.down, sameKey, head]

/-- The nodes in the row of the new copy. -/
theorem nodes_inserted_row (linked : Linked heap next rows value) (lt : level < rows.height)
    (absent : find key (rows.cells level) = none)
    (split : (rows.insert level key next).cells level = before ++ after) :
    inserted heap next rows value level key
        (rows.node value level (rows.upTo key level)
          ((rows.cells level).dropWhile fun cell => decide (cell.1 ≤ key)))
        (rows.addr level before) =
      some ((rows.insert level key next).node value level before after) := by
  have old := upTo_append rows key level
  have row := rows.cells_insert_self level key next
  rw [(linked.sorted level).assign_of_absent absent next] at row
  change _ = rows.upTo key level ++ _ at row
  generalize ((rows.cells level).dropWhile fun cell => decide (cell.1 ≤ key)) = rest at old row ⊢
  have others : ∀ (before : List (Nat × Nat)) (other : Nat), Rows.lastKey before = some other →
      level = level + 1 → key ≠ other :=
    fun _ _ _ absurdity => absurd absurdity (Nat.succ_ne_self level).symm
  have atSpot : inserted heap next rows value level key
        (rows.node value level (rows.upTo key level) rest) (rows.spot key level) =
      some ((rows.insert level key next).node value level (rows.upTo key level)
        ((key, next) :: rest)) := by
    rw [inserted, Function.update_self, Rows.node, Rows.node,
      down_insert rows level next (others _)]
    rfl
  rcases List.append_eq_append_iff.mp (split.symm.trans row) with
    ⟨middle, front, tail⟩ | ⟨middle, rfl, tail⟩
  · cases middle with
    | nil =>
        rw [List.append_nil] at front
        rw [← front, tail]
        exact atSpot
    | cons cell middle =>
        rw [tail]
        rw [front, List.append_assoc] at old
        apply linked.inserted_frame lt _ lt old _ (others _) rfl rfl
        intro _ same
        rw [front] at same
        exact absurd (List.self_eq_append_right.mp same) (List.cons_ne_nil cell middle)
  · cases middle with
    | nil =>
        rw [List.append_nil, ← List.nil_append after, ← tail]
        exact atSpot
    | cons cell middle =>
        obtain ⟨rfl, same⟩ := List.cons.inj tail
        change rest = middle ++ after at same
        rcases Rows.last_cases middle with rfl | ⟨first, cell, rfl⟩
        · rw [List.nil_append] at same
          have apart : next ≠ rows.spot key level := (linked.addr_ne_next lt old).symm
          rw [Rows.addr_concat, inserted, Function.update_of_ne apart, Function.update_self, same,
            Rows.node, Rows.node, down_insert rows level next (others _), Rows.down_concat,
            Rows.lastKey_concat]
          rfl
        · rw [same, ← List.append_assoc] at old
          have last : (rows.upTo key level ++ (key, next) :: (first ++ [cell])).getLast? =
              (rows.upTo key level ++ (first ++ [cell])).getLast? := by
            rw [← List.cons_append, ← List.append_assoc, ← List.append_assoc, List.getLast?_concat,
              List.getLast?_concat]
          apply linked.inserted_frame lt _ lt old _ (others _) last rfl
          intro _ same'
          have nil := List.append_right_eq_self.mp same'
          exact absurd nil (List.append_ne_nil_of_right_ne_nil _ (List.cons_ne_nil cell []))

/-- The round leaves a node at every place of the changed rows. -/
theorem nodes_inserted (linked : Linked heap next rows value) (lt : level < rows.height)
    (absent : find key (rows.cells level) = none) {node : Node}
    (here : heap (rows.spot key level) = some node) {level' : Nat} (lt' : level' < rows.height)
    (split : (rows.insert level key next).cells level' = before ++ after) :
    inserted heap next rows value level key node (rows.addr level' before) =
      some ((rows.insert level key next).node value level' before after) := by
  have old := upTo_append rows key level
  rw [Rows.spot, linked.nodes lt old] at here
  obtain rfl := Option.some.inj here
  by_cases same : level' = level
  · subst same
    exact linked.nodes_inserted_row lt absent split
  · rw [rows.cells_insert_of_ne same] at split
    apply linked.inserted_frame lt _ lt' split (absurd · same) _ rfl rfl
    rintro other last rfl rfl
    have present : (find key (rows.cells (level + 1))).isSome := by
      rcases Rows.last_cases before with rfl | ⟨first, cell, rfl⟩
      · cases last
      · rw [Rows.lastKey_concat] at last
        exact find_isSome_iff.mpr ⟨cell, by simp [split], Option.some.inj last⟩
    have below := linked.isSome_below lt' present level (Nat.le_succ _)
    rw [absent] at below
    cases below

/-- One round of the loop that inserts copies. -/
theorem insert (linked : Linked heap next rows value) (lt : level < rows.height)
    (absent : find key (rows.cells level) = none) (bound : key ≤ uint64Max)
    (present : ∀ below, level = below + 1 → (find key (rows.cells below)).isSome)
    {node : Node} (here : heap (rows.spot key level) = some node) :
    Linked (inserted heap next rows value level key node) (next + 1)
      (rows.insert level key next) value where
  nodes lt' split := linked.nodes_inserted lt absent here lt' split
  sorted level' := by
    by_cases same : level' = level
    · subst same
      rw [Rows.cells_insert_self]
      exact (linked.sorted level').assign key next
    · rw [rows.cells_insert_of_ne same]
      exact linked.sorted level'
  nonempty {level'} lt' := by
    by_cases same : level' = level
    · subst same
      rw [Rows.cells_insert_self]
      exact assign_ne_nil key next _
    · rw [rows.cells_insert_of_ne same]
      exact linked.nonempty lt'
  above {level' other} lt' := by
    rw [Rows.find_insert, Rows.find_insert]
    rintro (⟨rfl, rfl⟩ | present')
    · exact .inr (present level' rfl)
    · exact .inr (linked.above lt' present')
  small lt' mem := by
    rcases Rows.mem_insert mem with ⟨-, rfl⟩ | mem
    · exact bound
    · exact linked.small lt' mem
  owned := by
    obtain ⟨owner, owned⟩ := linked.owned
    refine ⟨Function.update owner next (level, some key), ?_⟩
    intro level' lt'
    obtain ⟨head, cells⟩ := linked.fresh level' lt'
    constructor
    · exact (Function.update_of_ne head.ne ..).trans (owned level' lt').1
    · intro cell mem
      rcases Rows.mem_insert mem with ⟨rfl, rfl⟩ | mem
      · exact Function.update_self ..
      · rw [Function.update_of_ne (cells cell mem).ne]
        exact (owned level' lt').2 cell mem
  fresh level' lt' := by
    obtain ⟨head, cells⟩ := linked.fresh level' lt'
    constructor
    · exact Nat.lt_succ_of_lt head
    · intro cell mem
      rcases Rows.mem_insert mem with ⟨-, rfl⟩ | mem
      · exact Nat.lt_succ_self next
      · exact Nat.lt_succ_of_lt (cells cell mem)
  room level' lt' := by
    have room := linked.room level' lt'
    by_cases same : level' = level
    · subst same
      rw [Rows.cells_insert_self]
      exact Nat.lt_succ_of_le ((length_assign_le ..).trans room)
    · rw [rows.cells_insert_of_ne same]
      exact Nat.lt_succ_of_lt room
  tall := Nat.le_succ_of_le linked.tall

/-- The loop inserts the key into some rows, from a row on upwards, and says whether it was
all of them. -/
theorem insertLoop_eq (linked : Linked heap next rows value) (bound : key ≤ uint64Max)
    (coin : Nat → Bool) {val : Str} (same : ∀ level, value level key = val) {i n : Nat}
    (all : i + n = rows.height)
    (absent : ∀ level, i ≤ level → level < rows.height → find key (rows.cells level) = none)
    (present : ∀ below, i = below + 1 → (find key (rows.cells below)).isSome) :
    ∃ inserted rows',
      Towers.insertLoop key val coin ((List.range' i n).map (rows.spot key)) i
        (rows.below key i) heap next = some inserted ∧
      Linked inserted.heap inserted.next rows' value ∧
      rows'.height = rows.height ∧ rows'.head = rows.head ∧
      (∀ other, (find other (rows'.cells 0)).isSome ↔
        (i = 0 ∧ n ≠ 0) ∧ other = key ∨ (find other (rows.cells 0)).isSome) ∧
      (inserted.insertUp = true → inserted.downNode = rows'.below key rows'.height ∧
        ∀ below, rows'.height = below + 1 → (find key (rows'.cells below)).isSome) := by
  induction n generalizing i heap next rows with
  | zero =>
      obtain rfl : i = rows.height := all
      refine ⟨⟨heap, next, rows.below key rows.height, true⟩, rows, rfl, linked, rfl, rfl, ?_, ?_⟩
      · intro other
        simp
      · intro _
        exact ⟨rfl, present⟩
  | succ n ih =>
      have lt : i < rows.height := by omega
      have here := linked.nodes lt (upTo_append rows key i)
      have step := linked.insert lt (absent i le_rfl lt) bound present here
      have copy : find key ((rows.insert i key next).cells i) = some next := by
        simp
      rw [List.range'_succ, List.map_cons, Towers.insertLoop, Rows.spot, here]
      change ∃ inserted rows', (if coin i then Towers.insertLoop key val coin
        ((List.range' (i + 1) n).map (rows.spot key)) (i + 1) (some next) _ (next + 1) else _) =
          _ ∧ _
      have absent' : ∀ level, i + 1 ≤ level → level < (rows.insert i key next).height →
          find key ((rows.insert i key next).cells level) = none := by
        intro level le lt'
        rw [rows.cells_insert_of_ne (by omega)]
        exact absent level (by omega) lt'
      have present' : ∀ below, i + 1 = below + 1 →
          (find key ((rows.insert i key next).cells below)).isSome := by
        intro below succ
        obtain rfl := Nat.succ.inj succ
        rw [copy]
        rfl
      have down : (rows.insert i key next).below key (i + 1) = some next := copy
      have bottom_iff : ∀ other, (find other ((rows.insert i key next).cells 0)).isSome ↔
          (i = 0 ∧ n + 1 ≠ 0) ∧ other = key ∨ (find other (rows.cells 0)).isSome := by
        intro other
        rw [Rows.find_bottom_insert, and_iff_left (Nat.succ_ne_zero n)]
      obtain rfl := same i
      by_cases up : coin i = true
      · have rest : i + 1 + n = (rows.insert i key next).height :=
          (Nat.succ_add_eq_add_succ i n).trans all
        obtain ⟨after, rows', done, linked', height, head, bottom, top⟩ :=
          ih step rest absent' present'
        rw [down] at done
        rw [if_pos up, ← rows.map_spot_insert i key next]
        refine ⟨after, rows', done, linked', height, head, ?_, top⟩
        intro other
        rw [bottom, bottom_iff]
        simp
      · rw [if_neg up]
        exact ⟨_, _, rfl, step, rfl, rfl, bottom_iff, fun absurdity => nomatch absurdity⟩

end Linked

end ZnsLsm.Store
