import ZnsLsm.Outcome
import ZnsLsm.Pool.Effects

/-!
# Relocating the tables of a zone

The relocation of `resetZone` runs in rounds: take a zone from the free pool, move
tables behind its write pointer while there is room, and then count it as full or
return it to the pool.  Here the rounds are taken apart into these four steps, so that
a property of the relocation is a property of each step.
-/

namespace ZnsLsm.Pool

open ZnsLsm.Outcome

/-! ## Zone records -/

namespace ZoneMeta

/-- The number of written slots. -/
def used (zoneMeta : ZoneMeta) : Nat :=
  (zoneMeta.writePtr - zoneMeta.start) / sstableSize

/-- The record has the bounds of the zone and a whole number of written slots. -/
structure Placed (device : Device) (zone : Nat) (zoneMeta : ZoneMeta) : Prop where
  start_eq : zoneMeta.start = zone * device.zoneCap
  end_eq : zoneMeta.endPtr = (zone + 1) * device.zoneCap - 1
  write_eq : zoneMeta.writePtr = zoneMeta.start + sstableSize * zoneMeta.used
  used_le : zoneMeta.used ≤ device.tables
  valid_lt : zoneMeta.validTableNum < 2 ^ 16

variable {device : Device} {zone : Nat} {zoneMeta : ZoneMeta}

/-- The bytes from the write pointer to the end are whole slots. -/
theorem Placed.room (placed : zoneMeta.Placed device zone) :
    zoneMeta.endPtr + 1 =
      zoneMeta.writePtr + sstableSize * (device.tables - zoneMeta.used) := by
  have capPos := device.zoneCap_pos
  have split : sstableSize * zoneMeta.used + sstableSize * (device.tables - zoneMeta.used) =
      device.zoneCap := by
    rw [← Nat.mul_add, Nat.add_sub_cancel' placed.used_le, Nat.mul_comm, device.zoneCap_eq]
  have next : (zone + 1) * device.zoneCap = zone * device.zoneCap + device.zoneCap :=
    Nat.succ_mul zone device.zoneCap
  rw [placed.write_eq, placed.end_eq, placed.start_eq]
  omega

theorem Placed.lt_end_iff (placed : zoneMeta.Placed device zone) :
    zoneMeta.writePtr < zoneMeta.endPtr ↔ zoneMeta.used < device.tables := by
  have room := placed.room
  have usedLe := placed.used_le
  have large : 2 ≤ sstableSize := by decide
  constructor
  · intro lt
    by_contra ge
    rw [Nat.sub_eq_zero_of_le (Nat.le_of_not_lt ge), Nat.mul_zero] at room
    omega
  · intro lt
    have : sstableSize ≤ sstableSize * (device.tables - zoneMeta.used) :=
      Nat.le_mul_of_pos_right _ (Nat.sub_pos_of_lt lt)
    omega

theorem Placed.end_le_iff (placed : zoneMeta.Placed device zone) :
    zoneMeta.endPtr ≤ zoneMeta.writePtr ↔ zoneMeta.used = device.tables := by
  rw [← Nat.not_lt, placed.lt_end_iff]
  have usedLe := placed.used_le
  omega

theorem Placed.grow_zero (placed : zoneMeta.Placed device zone) : zoneMeta.grow 0 = zoneMeta := by
  rw [grow, Nat.mul_zero, Nat.add_zero, Nat.add_zero, Nat.mod_eq_of_lt placed.valid_lt]

@[simp]
theorem grow_endPtr (moved : Nat) : (zoneMeta.grow moved).endPtr = zoneMeta.endPtr :=
  rfl

@[simp]
theorem grow_one_writePtr : (zoneMeta.grow 1).writePtr = zoneMeta.writePtr + sstableSize := by
  rw [grow, Nat.mul_one]

@[simp]
theorem grow_grow (first second : Nat) :
    (zoneMeta.grow first).grow second = zoneMeta.grow (first + second) := by
  simp only [grow, Nat.mod_add_mod, Nat.mul_add, Nat.add_assoc]

theorem Placed.used_grow (placed : zoneMeta.Placed device zone) (moved : Nat) :
    (zoneMeta.grow moved).used = zoneMeta.used + moved := by
  have write_eq := placed.write_eq
  have offset : zoneMeta.writePtr + sstableSize * moved - zoneMeta.start =
      sstableSize * (zoneMeta.used + moved) := by
    rw [Nat.mul_add]
    omega
  change (zoneMeta.writePtr + sstableSize * moved - zoneMeta.start) / sstableSize = _
  rw [offset, Nat.mul_div_cancel_left _ sstableSize_pos]

theorem Placed.grow (placed : zoneMeta.Placed device zone) {moved : Nat}
    (room : zoneMeta.used + moved ≤ device.tables) :
    (zoneMeta.grow moved).Placed device zone where
  start_eq := placed.start_eq
  end_eq := placed.end_eq
  write_eq := by
    rw [placed.used_grow, Nat.mul_add, ← Nat.add_assoc]
    exact congrArg (· + sstableSize * moved) placed.write_eq
  used_le := by
    rw [placed.used_grow]
    exact room
  valid_lt := Nat.mod_lt _ (by decide)

/-- Deleting and sorting leave the bounds of a zone alone. -/
theorem Placed.drop (placed : zoneMeta.Placed device zone) (s : Nat) :
    (zoneMeta.drop s).Placed device zone where
  start_eq := placed.start_eq
  end_eq := placed.end_eq
  write_eq := placed.write_eq
  used_le := placed.used_le
  valid_lt := by
    have valid_lt := placed.valid_lt
    simp only [ZoneMeta.drop]
    split <;> omega

theorem Placed.relist (placed : zoneMeta.Placed device zone) (deleted : List Nat) :
    ({ zoneMeta with deletedTable := deleted } : ZoneMeta).Placed device zone where
  start_eq := placed.start_eq
  end_eq := placed.end_eq
  write_eq := placed.write_eq
  used_le := placed.used_le
  valid_lt := placed.valid_lt

end ZoneMeta

namespace MemoryManager

/-! ## One round -/

@[simp]
theorem fillZone_setMeta (endPtr zone : Nat) (zoneMeta : ZoneMeta) (rest : List Nat)
    (table i : Nat) (m : MemoryManager) :
    fillZone endPtr rest table i (m.setMeta zone zoneMeta) =
      ((fillZone endPtr rest table i m).1,
        (fillZone endPtr rest table i m).2.setMeta zone zoneMeta) := by
  induction rest generalizing table i m with
  | nil => rfl
  | cons source rest ih =>
      have commutes : (m.setMeta zone zoneMeta).moveTable source table =
          (m.moveTable source table).setMeta zone zoneMeta := by
        rw [moveTable_eq, moveTable_eq]
        rfl
      simp only [fillZone]
      split
      · rw [commutes, ih]
      · rfl

/-- Move the table in slot `source` behind the write pointer of a zone and count it. -/
def place (toZone : Nat) (m : MemoryManager) (source : Nat) : MemoryManager :=
  (m.moveTable source (m.zoneMetas toZone).writePtr).setMeta toZone
    ((m.zoneMetas toZone).grow 1)

@[simp]
theorem place_zoneMetas (toZone : Nat) (m : MemoryManager) (source : Nat) :
    (m.place toZone source).zoneMetas =
      Function.update m.zoneMetas toZone ((m.zoneMetas toZone).grow 1) := by
  rw [place, moveTable_eq]
  rfl

@[simp]
theorem place_emptyZone (toZone : Nat) (m : MemoryManager) (source : Nat) :
    (m.place toZone source).emptyZone = m.emptyZone := by
  rw [place, moveTable_eq]
  rfl

/-- A round moves as many tables as there is room for, one by one. -/
theorem fillZone_eq {device : Device} {toZone : Nat} (rest : List Nat) (i : Nat)
    (m : MemoryManager) (placed : (m.zoneMetas toZone).Placed device toZone) :
    let moved := min rest.length (device.tables - (m.zoneMetas toZone).used)
    let filled :=
      fillZone (m.zoneMetas toZone).endPtr rest (m.zoneMetas toZone).writePtr i m
    filled.1 = i + moved ∧
      filled.2.setMeta toZone ((m.zoneMetas toZone).grow moved) =
        (rest.take moved).foldl (place toZone) m := by
  induction rest generalizing i m with
  | nil => simp [fillZone, placed.grow_zero, setMeta_self]
  | cons source rest ih =>
      by_cases room : (m.zoneMetas toZone).writePtr < (m.zoneMetas toZone).endPtr
      · have usedLt := placed.lt_end_iff.mp room
        have next := ih (i + 1) (m.place toZone source)
          (by rw [place_zoneMetas, Function.update_self]; exact placed.grow usedLt)
        have count : min (source :: rest).length
            (device.tables - (m.zoneMetas toZone).used) =
            1 + min rest.length (device.tables - ((m.zoneMetas toZone).used + 1)) := by
          rw [List.length_cons]
          omega
        simp only [place_zoneMetas, Function.update_self, placed.used_grow,
          ZoneMeta.grow_grow, ZoneMeta.grow_endPtr, ZoneMeta.grow_one_writePtr] at next
        obtain ⟨index, state⟩ := next
        rw [place, fillZone_setMeta] at index state
        rw [setMeta_setMeta] at state
        simp only [fillZone, room, if_true, count]
        refine ⟨index.trans (Nat.add_assoc ..), ?_⟩
        rw [Nat.add_comm 1 (min _ _)] at state ⊢
        rw [List.take_succ_cons, List.foldl_cons]
        exact state
      · have full : (m.zoneMetas toZone).used = device.tables :=
          placed.end_le_iff.mp (Nat.le_of_not_lt room)
        simp [fillZone, room, full, placed.grow_zero, setMeta_self]

/-! ## The whole relocation -/

/-- A property of the zone in hand, the slots still to move and the state, that each
of the four steps of a relocation preserves. -/
structure Relocating (device : Device)
    (P : Option Nat → List Nat → MemoryManager → Prop) : Prop where
  wf : ∀ {hand rest} {m : MemoryManager}, P hand rest m → m.emptyZone.Wf
  placed : ∀ {hand rest} {m : MemoryManager}, P hand rest m →
    ∀ zone, (m.zoneMetas zone).Placed device zone
  take : ∀ {rest toZone pool} {m : MemoryManager}, P none rest m →
    m.emptyZone.get = some (toZone, pool) → P (some toZone) rest { m with emptyZone := pool }
  place : ∀ {source rest toZone} {m : MemoryManager}, P (some toZone) (source :: rest) m →
    (m.zoneMetas toZone).writePtr < (m.zoneMetas toZone).endPtr →
    P (some toZone) rest (m.place toZone source)
  fill : ∀ {rest toZone} {m : MemoryManager}, P (some toZone) rest m →
    (m.zoneMetas toZone).endPtr ≤ (m.zoneMetas toZone).writePtr →
    P none rest { m with fullZone := insert toZone m.fullZone }
  back : ∀ {toZone} {m : MemoryManager}, P (some toZone) [] m →
    (m.zoneMetas toZone).writePtr < (m.zoneMetas toZone).endPtr →
    P none [] { m with emptyZone := m.emptyZone.put toZone }

variable {device : Device} {P : Option Nat → List Nat → MemoryManager → Prop}

/-- Moving as many tables as there is room for. -/
theorem Relocating.foldl_place (relocating : Relocating device P) {toZone : Nat}
    (moving rest : List Nat) {m : MemoryManager} (holds : P (some toZone) (moving ++ rest) m)
    (room : (m.zoneMetas toZone).used + moving.length ≤ device.tables) :
    P (some toZone) rest (moving.foldl (MemoryManager.place toZone) m) ∧
      (moving.foldl (MemoryManager.place toZone) m).emptyZone = m.emptyZone := by
  induction moving generalizing m with
  | nil => exact ⟨holds, rfl⟩
  | cons source moving ih =>
      have placed := relocating.placed holds toZone
      rw [List.length_cons] at room
      have next := relocating.place holds (placed.lt_end_iff.mpr (by omega))
      obtain ⟨holds', pool⟩ := ih next (by
        rw [place_zoneMetas, Function.update_self, placed.used_grow]
        omega)
      exact ⟨holds', pool.trans (place_emptyZone ..)⟩

/-- A relocation ends with no slot left to move, or because the pool is empty. -/
theorem Relocating.relocate (relocating : Relocating device P) (rewrite : List Nat)
    {fuel i prev : Nat} {m : MemoryManager} (holds : P none (rewrite.drop i) m)
    (enough : prev = i ∧ m.emptyZone.size + 2 ≤ fuel ∨ rewrite.length ≤ i ∧ 0 < fuel) :
    Ends (P none [])
      (fun halt => halt.stop = .exit ∧ halt.state.emptyZone.empty ∧
        ∃ rest ≠ [], P none rest halt.state)
      (MemoryManager.relocate rewrite fuel i prev m) := by
  induction fuel generalizing i prev m with
  | zero => omega
  | succ fuel ih =>
      simp only [MemoryManager.relocate]
      by_cases done : rewrite.length ≤ i
      · rw [if_pos done]
        rw [List.drop_eq_nil_of_le done] at holds
        exact holds
      rw [if_neg done]
      obtain ⟨rfl, fuelLe⟩ : prev = i ∧ m.emptyZone.size + 2 ≤ fuel + 1 := by omega
      by_cases empty : m.emptyZone.empty
      · rw [if_pos empty]
        exact ⟨rfl, empty, _, fun none => done (List.drop_eq_nil_iff.mp none), holds⟩
      rw [if_neg empty]
      obtain ⟨⟨toZone, pool⟩, got⟩ := Option.isSome_iff_exists.mp
        ((relocating.wf holds).get_isSome (Bool.eq_false_of_not_eq_true empty))
      have size : pool.size + 1 = m.emptyZone.size := by
        obtain ⟨_, _, _, _, rfl⟩ := QueueCache.get_eq_some got
        have : m.emptyZone.size ≠ 0 := by simpa [QueueCache.empty] using empty
        change m.emptyZone.size - 1 + 1 = _
        omega
      have taken := relocating.take holds got
      have placed := relocating.placed taken toZone
      -- `moved` tables fit into the zone, and the round moves them one by one.
      obtain ⟨index, state⟩ := fillZone_eq (rewrite.drop prev) prev
        { m with emptyZone := pool } placed
      obtain ⟨moved, movedDef⟩ : ∃ moved, moved = min (rewrite.drop prev).length
        (device.tables - (m.zoneMetas toZone).used) := ⟨_, rfl⟩
      have lengthLe : moved ≤ (rewrite.drop prev).length := by omega
      have usedLe := placed.used_le
      simp only [← movedDef] at index state usedLe
      simp only [got, index, Nat.add_sub_cancel_left, state]
      obtain ⟨holds', poolEq⟩ := relocating.foldl_place ((rewrite.drop prev).take moved)
        (rewrite.drop (prev + moved))
        (by rw [← List.drop_drop, List.take_append_drop]; exact taken)
        (by rw [List.length_take_of_le lengthLe]; change (m.zoneMetas toZone).used + _ ≤ _; omega)
      have metaEq := congrArg (fun m => m.zoneMetas toZone) state
      simp only [setMeta_zoneMetas_self] at metaEq
      split
      · rename_i full
        rw [metaEq] at full
        refine ih (relocating.fill holds' full) (.inl ⟨rfl, ?_⟩)
        simp only [poolEq]
        omega
      · rename_i notFull
        rw [metaEq, Nat.not_le] at notFull
        have usedLt : (m.zoneMetas toZone).used + moved < device.tables := by
          have lt := (relocating.placed holds' toZone).lt_end_iff.mp notFull
          rw [← metaEq, placed.used_grow] at lt
          exact lt
        rw [List.length_drop] at lengthLe movedDef
        have done' : rewrite.length ≤ prev + moved := by omega
        rw [List.drop_eq_nil_of_le done'] at holds'
        refine ih ?_ (.inr ⟨done', by omega⟩)
        rw [List.drop_eq_nil_of_le done']
        exact relocating.back holds' notFull

/-- What holds after a scan for the slots that it found holds after the relocation. -/
theorem Relocating.rewriteZone_or_full (relocating : Relocating device P) {zone : Nat}
    {m : MemoryManager} (scanned : P none (m.scanZone zone).1 (m.scanZone zone).2) :
    Ends (P none [])
      (fun halt => halt.stop = .exit ∧ halt.state.emptyZone.empty ∧
        ∃ rest ≠ [], P none rest halt.state)
      (m.rewriteZone zone) := by
  unfold MemoryManager.rewriteZone
  apply relocating.relocate
  · rw [List.drop_zero]
    exact scanned
  · exact .inl ⟨rfl, Nat.le_refl _⟩

theorem Relocating.rewriteZone (relocating : Relocating device P) {zone : Nat}
    {m : MemoryManager} (scanned : P none (m.scanZone zone).1 (m.scanZone zone).2) :
    Ends (P none []) (fun halt => halt.stop = .exit ∧ ∃ rest, P none rest halt.state)
      (m.rewriteZone zone) :=
  (relocating.rewriteZone_or_full scanned).imp (fun _ => id)
    fun _ ⟨stop, _, rest, _, holds⟩ => ⟨stop, rest, holds⟩

end MemoryManager

end ZnsLsm.Pool
