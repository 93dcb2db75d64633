import ZnsLsm.Pool.Bookkeeping

/-!
# Garbage collection

A reset either changes nothing or moves the live tables of the zone behind the written
slots of other zones, one table to a slot, and erases the zone.  `Shifted` describes how
far that has got while the slots of `rest` are still to be moved.
-/

namespace ZnsLsm.Pool

open ZnsLsm.Outcome ZnsLsm.PartialInverse ZnsLsm.Transition

namespace MemoryManager

/-- The live tables of `zone` outside `rest` have moved to slots of other zones that were
not written in `origin`, and nothing else has moved. -/
structure Shifted (device : Device) (origin : MemoryManager) (zone : Nat) (rest : List Nat)
    (m : MemoryManager) : Prop where
  stay : ∀ {t s}, origin.mappingTable t = some s → s / device.zoneCap ≠ zone →
    m.mappingTable t = some s
  pending : ∀ {t s}, origin.mappingTable t = some s → s ∈ rest → m.mappingTable t = some s
  moved : ∀ {t s}, origin.mappingTable t = some s → s / device.zoneCap = zone → s ∉ rest →
    ∃ toZone k, toZone ≠ zone ∧ toZone < device.zoneNum ∧
      (origin.zoneMetas toZone).used ≤ k ∧ k < (m.zoneMetas toZone).used ∧
      m.mappingTable t = some (device.slot toZone k)
  dead : ∀ {t}, origin.mappingTable t = none → m.mappingTable t = none
  grown : ∀ {other}, other ≠ zone → ∃ tables,
    m.zoneMetas other = (origin.zoneMetas other).grow tables ∧
      (origin.zoneMetas other).used + tables ≤ device.tables

/-- What a reset of `zone` that does something has done. -/
structure Collected (device : Device) (m m' : MemoryManager) (zone : Nat) : Prop where
  live : ∀ t, m'.Live t ↔ m.Live t
  stay : ∀ t s, m.mappingTable t = some s → s / device.zoneCap ≠ zone →
    m'.mappingTable t = some s
  moved : ∀ t s, m.mappingTable t = some s → s / device.zoneCap = zone →
    ∃ toZone k, toZone ≠ zone ∧ toZone < device.zoneNum ∧ k < device.tables ∧
      ¬m.Written device toZone (device.slot toZone k) ∧
      m'.mappingTable t = some (device.slot toZone k)
  distinct : ∀ t t' s, m'.mappingTable t = some s → m'.mappingTable t' = some s → t = t'
  pooled : zone ∈ m'.emptyZone.contents ∧ zone ∉ m'.openZone ∧ zone ∉ m'.fullZone
  erased : (m'.zoneMetas zone).writePtr = (m'.zoneMetas zone).start ∧
    (m'.zoneMetas zone).validTableNum = 0 ∧ (m'.zoneMetas zone).deletedTable = [] ∧
    ∀ t s, m'.mappingTable t = some s → s / device.zoneCap ≠ zone
  /-- The other zones grow by the tables that were moved into them. -/
  grown : ∀ other, other ≠ zone → ∃ tables,
    tables = Set.ncard {t | ∃ s s', m.mappingTable t = some s ∧ s / device.zoneCap = zone ∧
      m'.mappingTable t = some s' ∧ s' / device.zoneCap = other} ∧
    (m'.zoneMetas other).writePtr = (m.zoneMetas other).writePtr + sstableSize * tables ∧
    (m'.zoneMetas other).validTableNum = (m.zoneMetas other).validTableNum + tables ∧
    (m'.zoneMetas other).deletedTable = (m.zoneMetas other).deletedTable

section Collection

variable {device : Device} {origin m : MemoryManager} {zone : Nat} {rest : List Nat}

theorem Roles.div_of_written {hand : Option Nat} (roles : m.Roles device hand) {s : Nat}
    (written : m.Written device zone s) : s / device.zoneCap = zone := by
  obtain ⟨k, lt, rfl⟩ := written
  exact device.slot_div_zoneCap (Nat.lt_of_lt_of_le lt (roles.used_le zone))

theorem Shifted.congr {m' : MemoryManager} (shifted : origin.Shifted device zone rest m)
    (mapping : m'.mappingTable = m.mappingTable) (metas : m'.zoneMetas = m.zoneMetas) :
    origin.Shifted device zone rest m' where
  stay located outside := mapping ▸ shifted.stay located outside
  pending located mem := mapping ▸ shifted.pending located mem
  moved located inside gone := by
    rw [mapping, metas]
    exact shifted.moved located inside gone
  dead gone := mapping ▸ shifted.dead gone
  grown other := metas ▸ shifted.grown other

/-- A slot still to be moved is where its table was at first. -/
theorem Shifted.origin_eq (shifted : origin.Shifted device zone rest m) {source : Nat}
    {t : TableId} (located : m.mappingTable t = some source)
    (inside : source / device.zoneCap = zone) (tables : ∀ toZone ≠ zone,
      (m.zoneMetas toZone).used ≤ device.tables) :
    origin.mappingTable t = some source := by
  cases first : origin.mappingTable t with
  | none =>
      rw [shifted.dead first] at located
      cases located
  | some s =>
      have same : ∀ {s'}, m.mappingTable t = some s' → s' = source := fun at_s' =>
        Option.some.inj (at_s'.symm.trans located)
      by_cases outside : s / device.zoneCap = zone
      · by_cases mem : s ∈ rest
        · exact congrArg some (same (shifted.pending first mem))
        · obtain ⟨toZone, k, ne, -, -, lt, at_slot⟩ := shifted.moved first outside mem
          have slot := same at_slot
          rw [← slot, device.slot_div_zoneCap (Nat.lt_of_lt_of_le lt (tables toZone ne))] at inside
          exact absurd inside ne
      · exact congrArg some (same (shifted.stay first outside))

theorem Roles.place_mappingTable {hand : Option Nat} (roles : m.Roles device hand)
    (toZone : Nat) {source : Nat} {t : TableId}
    (at_source : m.remappingTable source = some t) :
    (m.place toZone source).mappingTable =
      Function.update m.mappingTable t
        (some (device.slot toZone (m.zoneMetas toZone).used)) := by
  rw [← (roles.placed toZone).writePtr_eq, MemoryManager.place, moveTable_eq,
    MemoryManager.tableAt, at_source]
  rfl

theorem Roles.used_le_place {hand : Option Nat} (roles : m.Roles device hand)
    (toZone source zone : Nat) :
    (m.zoneMetas zone).used ≤ ((m.place toZone source).zoneMetas zone).used := by
  rw [place_zoneMetas]
  by_cases same : zone = toZone
  · subst same
    rw [Function.update_self, (roles.placed zone).used_grow]
    exact Nat.le_succ _
  · rw [Function.update_of_ne same]

/-- Step lemma: one table moves. -/
theorem Shifted.place {toZone source : Nat}
    (shifted : origin.Shifted device zone (source :: rest) m)
    (books : m.Books device (some zone) (source :: rest))
    (roles : m.Roles device (some toZone)) (other : zone ≠ toZone)
    (placed : (origin.zoneMetas toZone).Placed device toZone)
    (room : (m.zoneMetas toZone).used < device.tables) :
    origin.Shifted device zone rest (m.place toZone source) := by
  obtain ⟨sourceWritten, live⟩ := (books.mem_rest rfl).mp List.mem_cons_self
  obtain ⟨t₀, at_source⟩ := Option.ne_none_iff_exists'.mp live
  have located₀ : m.mappingTable t₀ = some source := (books.inverse t₀ source).mpr at_source
  have inside₀ : source / device.zoneCap = zone := roles.div_of_written sourceWritten
  have first₀ := shifted.origin_eq located₀ inside₀ fun toZone _ => roles.used_le toZone
  have mapping := roles.place_mappingTable toZone at_source
  have other_table : ∀ {t s}, origin.mappingTable t = some s → s ≠ source →
      (m.place toZone source).mappingTable t = m.mappingTable t := by
    intro t s first ne
    rw [mapping, Function.update_of_ne]
    rintro rfl
    exact ne (Option.some.inj (first.symm.trans first₀))
  obtain ⟨notRest, -⟩ := List.nodup_cons.mp books.rest_nodup
  constructor
  · intro t s first outside
    rw [other_table first fun eq => outside (eq ▸ inside₀)]
    exact shifted.stay first outside
  · intro t s first mem
    rw [other_table first fun eq => notRest (eq ▸ mem)]
    exact shifted.pending first (List.mem_cons_of_mem source mem)
  · intro t s first inside gone
    by_cases same : s = source
    · subst same
      obtain rfl := books.inverse.injective (shifted.pending first List.mem_cons_self) located₀
      obtain ⟨tables, grown, -⟩ := shifted.grown other.symm
      refine ⟨toZone, (m.zoneMetas toZone).used, other.symm, (roles.inHand rfl).1, ?_, ?_, ?_⟩
      · rw [grown, placed.used_grow]
        exact Nat.le_add_right _ _
      · simp [(roles.placed toZone).used_grow]
      · rw [mapping, Function.update_self]
    · have notMem : s ∉ source :: rest := fun mem =>
        (List.mem_cons.mp mem).elim same gone
      obtain ⟨zone', k, ne, lt, ge, kLt, at_slot⟩ := shifted.moved first inside notMem
      refine ⟨zone', k, ne, lt, ge, Nat.lt_of_lt_of_le kLt (roles.used_le_place toZone source zone'), ?_⟩
      rw [other_table first same]
      exact at_slot
  · intro t gone
    rw [mapping, Function.update_of_ne]
    · exact shifted.dead gone
    · rintro rfl
      rw [gone] at first₀
      cases first₀
  · intro zone' ne
    obtain ⟨tables, grown, le⟩ := shifted.grown ne
    rw [place_zoneMetas]
    by_cases same : zone' = toZone
    · subst same
      rw [grown, placed.used_grow] at room
      refine ⟨tables + 1, ?_, room⟩
      rw [Function.update_self, grown, ZoneMeta.grow_grow]
    · exact ⟨tables, by rw [Function.update_of_ne same, grown], le⟩

/-- Relocation moves the slots that are still to be moved, one by one. -/
theorem relocating_shifted (placed : ∀ zone, (origin.zoneMetas zone).Placed device zone)
    (zone : Nat) (zoneMeta : ZoneMeta) (toReset : Finset Nat) :
    Relocating device fun hand rest m =>
      (m.Emptying device zone zoneMeta toReset hand ∧ m.Books device (some zone) rest ∧
        origin.SameLive m) ∧ origin.Shifted device zone rest m where
  wf holds := holds.1.1.roles.wf
  placed holds := holds.1.1.roles.placed
  take := fun ⟨holds, shifted⟩ got =>
    ⟨(relocating_books origin zone zoneMeta toReset).take holds got, shifted.congr rfl rfl⟩
  place := by
    rintro source rest toZone m ⟨holds, shifted⟩ room
    refine ⟨(relocating_books origin zone zoneMeta toReset).place holds room, ?_⟩
    apply shifted.place holds.2.1 holds.1.roles holds.1.other (placed toZone)
    exact (holds.1.roles.placed toZone).lt_end_iff.mp room
  fill := fun ⟨holds, shifted⟩ written =>
    ⟨(relocating_books origin zone zoneMeta toReset).fill holds written, shifted.congr rfl rfl⟩
  back := fun ⟨holds, shifted⟩ room =>
    ⟨(relocating_books origin zone zoneMeta toReset).back holds room, shifted.congr rfl rfl⟩

/-- Nothing has moved yet. -/
theorem shifted_start {m' : MemoryManager} (roles : m.Roles device none)
    (roles' : m'.Roles device none) (books' : m'.Books device (some zone) rest)
    (mapping : m'.mappingTable = m.mappingTable)
    (metas : ∀ other ≠ zone, m'.zoneMetas other = m.zoneMetas other) :
    m.Shifted device zone rest m' where
  stay located _ := mapping ▸ located
  pending located _ := mapping ▸ located
  moved := by
    intro t s located inside gone
    rw [← mapping] at located
    obtain ⟨zone', -, written⟩ := books'.written located
    obtain rfl : zone' = zone := (roles'.div_of_written written).symm.trans inside
    have live : m'.remappingTable s ≠ none := by
      rw [(books'.inverse t s).mp located]
      simp
    exact absurd ((books'.mem_rest rfl).mpr ⟨written, live⟩) gone
  dead gone := mapping ▸ gone
  grown := by
    intro other ne
    refine ⟨0, ?_, roles.used_le other⟩
    rw [metas other ne, (roles.placed other).grow_zero]

/-- The scan changes the record of its own zone only. -/
theorem scanZone_frame (m : MemoryManager) (zone : Nat) :
    (m.scanZone zone).2.mappingTable = m.mappingTable ∧
      ∀ other ≠ zone, (m.scanZone zone).2.zoneMetas other = m.zoneMetas other := by
  obtain ⟨m', ⟨mapping, metas⟩, same | same⟩ := m.scanZone_rule
    (P := fun _ m' => m'.mappingTable = m.mappingTable ∧
      ∀ other ≠ zone, m'.zoneMetas other = m.zoneMetas other)
    ⟨rfl, fun _ ne => setMeta_zoneMetas_of_ne m ne _⟩ (fun _ holds => holds)
  · rw [same]
    exact ⟨mapping, metas⟩
  · rw [same]
    exact ⟨mapping, metas⟩

/-! ## Counting the tables of a zone -/

/-- The tables that a zone holds. -/
def tablesOf (device : Device) (m : MemoryManager) (zone : Nat) : Set TableId :=
  {t | ∃ s, m.mappingTable t = some s ∧ s / device.zoneCap = zone}

theorem Books.ncard_tablesOf (books : m.Books device none []) (roles : m.Roles device none)
    (zone : Nat) :
    (m.tablesOf device zone).Finite ∧
      (m.tablesOf device zone).ncard = (m.zoneMetas zone).validTableNum := by
  constructor
  · apply ((m.writtenSlots device zone).toFinset.finite_toSet.image m.tableAt).subset
    rintro t ⟨s, located, inside⟩
    obtain ⟨zone', -, written⟩ := books.written located
    obtain rfl : zone' = zone := (roles.div_of_written written).symm.trans inside
    refine ⟨s, ?_, ?_⟩
    · rw [Finset.mem_coe, List.mem_toFinset, mem_writtenSlots]
      exact written
    · rw [MemoryManager.tableAt, (books.inverse t s).mp located]
      rfl
  · rw [← books.ncard_live roles zone]
    congr 1
    ext t
    constructor
    · rintro ⟨s, located, inside⟩
      obtain ⟨zone', -, written⟩ := books.written located
      obtain rfl : zone' = zone := (roles.div_of_written written).symm.trans inside
      exact ⟨s, located, (roles.written_zone written).mp rfl⟩
    · rintro ⟨s, located, bounds⟩
      obtain ⟨zone', -, written⟩ := books.written located
      obtain rfl := (roles.written_zone written).mpr bounds
      exact ⟨s, located, roles.div_of_written written⟩

/-- The tables of `zone` that have moved to `other`. -/
def movedTables (device : Device) (m m' : MemoryManager) (zone other : Nat) : Set TableId :=
  {t | ∃ s s', m.mappingTable t = some s ∧ s / device.zoneCap = zone ∧
    m'.mappingTable t = some s' ∧ s' / device.zoneCap = other}

/-- Another zone holds the tables that were there before and those that have moved there. -/
theorem Shifted.tablesOf_eq {m₁ : MemoryManager} (shifted : m.Shifted device zone [] m₁)
    (same : m.SameLive m₁) {other : Nat} (ne : other ≠ zone) :
    m₁.tablesOf device other = m.tablesOf device other ∪ m.movedTables device m₁ zone other := by
  ext t
  constructor
  · rintro ⟨s', located', inside'⟩
    obtain ⟨s, located⟩ := Option.isSome_iff_exists.mp
      ((same t).mp (Option.isSome_iff_exists.mpr ⟨s', located'⟩))
    by_cases inside : s / device.zoneCap = zone
    · exact .inr ⟨s, s', located, inside, located', inside'⟩
    · obtain rfl := Option.some.inj (located'.symm.trans (shifted.stay located inside))
      exact .inl ⟨s', located, inside'⟩
  · rintro (⟨s, located, inside⟩ | ⟨-, s', -, -, located', inside'⟩)
    · exact ⟨s, shifted.stay located (inside ▸ ne), inside⟩
    · exact ⟨s', located', inside'⟩

theorem not_mem_movedTables {m' : MemoryManager} {other : Nat} (ne : other ≠ zone) {t : TableId}
    (mem : t ∈ m.tablesOf device other) : t ∉ m.movedTables device m' zone other := by
  obtain ⟨s, located, inside⟩ := mem
  rintro ⟨s₁, -, located₁, inside₁, -⟩
  obtain rfl := Option.some.inj (located.symm.trans located₁)
  exact ne (inside.symm.trans inside₁)

/-! ## Erasing the zone -/

@[simp]
theorem eraseZone_zoneMetas_of_ne {other : Nat} (ne : other ≠ zone) :
    (m.eraseZone device zone).zoneMetas other = m.zoneMetas other :=
  Function.update_of_ne ne ..

/-- An erased zone is in the pool only. -/
theorem Roles.pooled_eraseZone (roles : m.Roles device none) (full : zone ∈ m.fullZone) :
    zone ∈ (m.eraseZone device zone).emptyZone.contents ∧
      zone ∉ (m.eraseZone device zone).openZone ∧ zone ∉ (m.eraseZone device zone).fullZone := by
  have roles' : (m.eraseZone device zone).Roles device none := roles.eraseZone full
  have zoneLt : zone < device.zoneNum := by
    apply roles.lt_of_occurs
    simp only [occurrences, if_pos full]
    omega
  have count := QueueCache.count_put (roles.index_lt zoneLt) zone
  rw [if_pos rfl] at count
  have inPool : 0 < (m.eraseZone device zone).emptyZone.contents.count zone := by
    change 0 < (m.emptyZone.put zone).contents.count zone
    omega
  have once := roles'.occurs_le zone
  simp only [occurrences] at once
  refine ⟨List.count_pos_iff.mp inPool, ?_, ?_⟩
  · intro mem
    have open_pos := List.count_pos_iff.mpr mem
    omega
  · intro mem
    rw [if_pos mem] at once
    omega

/-- A zone whose tables have all moved is erased. -/
theorem Shifted.collected {m₁ : MemoryManager} (shifted : m.Shifted device zone [] m₁)
    (books : m.Books device none []) (roles : m.Roles device none)
    (books₁ : m₁.Books device (some zone) []) (roles₁ : m₁.Roles device none)
    (full : zone ∈ m₁.fullZone) (same : m.SameLive m₁) :
    m.Collected device (m₁.eraseZone device zone) zone := by
  have books' : (m₁.eraseZone device zone).Books device none [] := books₁.eraseZone
  have roles' : (m₁.eraseZone device zone).Roles device none := roles₁.eraseZone full
  have empty : ∀ t s, m₁.mappingTable t = some s → s / device.zoneCap ≠ zone := by
    intro t s located inside
    obtain ⟨zone', -, written⟩ := books₁.written located
    obtain rfl : zone' = zone := (roles₁.div_of_written written).symm.trans inside
    have live : m₁.remappingTable s ≠ none := by
      rw [(books₁.inverse t s).mp located]
      simp
    exact List.not_mem_nil ((books₁.mem_rest rfl).mpr ⟨written, live⟩)
  constructor
  · exact same
  · intro t s located outside
    exact shifted.stay located outside
  · intro t s located inside
    obtain ⟨toZone, k, ne, lt, ge, kLt, at_slot⟩ :=
      shifted.moved located inside List.not_mem_nil
    have kTables : k < device.tables := Nat.lt_of_lt_of_le kLt (roles₁.used_le toZone)
    refine ⟨toZone, k, ne, lt, kTables, ?_, at_slot⟩
    rintro ⟨k', lt', slot⟩
    obtain ⟨-, rfl⟩ := device.slot_injective kTables
      (Nat.lt_of_lt_of_le lt' (roles.used_le toZone)) slot
    exact absurd ge (Nat.not_le.mpr lt')
  · intro t t' s located located'
    exact books'.inverse.injective located located'
  · exact roles₁.pooled_eraseZone full
  · have at_zone : (m₁.eraseZone device zone).zoneMetas zone =
        { m₁.zoneMetas zone with
          writePtr := (m₁.zoneMetas zone).start
          validTableNum := 0
          deletedTable := [] } := Function.update_self ..
    rw [at_zone]
    exact ⟨rfl, rfl, rfl, empty⟩
  · intro other ne
    obtain ⟨tables, grown, le⟩ := shifted.grown ne
    have counted := books.counted (show (none : Option Nat) ≠ some other by simp)
    have tablesLt := device.tables_lt
    have valid : (m₁.zoneMetas other).validTableNum =
        (m.zoneMetas other).validTableNum + tables := by
      rw [grown]
      exact Nat.mod_eq_of_lt (by omega)
    obtain ⟨finite, before⟩ := books.ncard_tablesOf roles other
    obtain ⟨finite', after⟩ := books'.ncard_tablesOf roles' other
    rw [eraseZone_zoneMetas_of_ne ne, valid] at after
    have union := shifted.tablesOf_eq same ne
    change (m₁.tablesOf device other).Finite at finite'
    change (m₁.tablesOf device other).ncard = _ at after
    rw [union] at finite' after
    rw [Set.ncard_union_eq (Set.disjoint_left.mpr fun _ => not_mem_movedTables ne) finite
      (finite'.subset Set.subset_union_right), before] at after
    refine ⟨tables, ?_, ?_, ?_, ?_⟩
    · exact (Nat.add_left_cancel after).symm
    · rw [eraseZone_zoneMetas_of_ne ne, grown]
      rfl
    · rw [eraseZone_zoneMetas_of_ne ne]
      exact valid
    · rw [eraseZone_zoneMetas_of_ne ne, grown]
      rfl

/-- A reset that returns changes nothing or collects its zone. -/
theorem Books.collected (books : m.Books device none []) (roles : m.Roles device none)
    (zone : Nat) (force : Bool) :
    Ends (fun m' => m' = m ∨ m.Collected device m' zone) (fun _ => True)
      (m.resetZone device zone force) := by
  simp only [MemoryManager.resetZone]
  split
  · exact .inl rfl
  · rename_i notWritten
    have full : zone ∈ m.fullZone := (roles.full_iff zone (by simp)).mpr (Nat.not_lt.mp notWritten)
    simp only [if_pos full]
    split
    · split
      · exact trivial
      · exact .inl rfl
    · split
      · split
        · have scanned := roles.scanZone zone
          have frame := m.scanZone_frame zone
          have books' := books.scanZone roles full
          have shifted := shifted_start roles scanned.1 books'.1 frame.1 frame.2
          refine (((relocating_shifted roles.placed zone _ m.toReset).rewriteZone
            ⟨⟨⟨scanned.1, scanned.2.1 ▸ full, rfl, scanned.2.2⟩, books'⟩, shifted⟩).imp
              (fun _ => id) fun _ _ => trivial).bind ?_
          rintro m₁ - ⟨⟨emptying, books₁, same⟩, shifted₁⟩
          exact .inr (shifted₁.collected books roles books₁ emptying.roles emptying.full same)
        · rename_i noValid
          obtain ⟨leaving, length⟩ := books.leave roles full
          rw [not_not.mp noValid] at length
          rw [List.eq_nil_of_length_eq_zero length] at leaving
          have shifted := shifted_start roles roles leaving rfl fun _ _ => rfl
          exact .inr (shifted.collected books roles leaving roles full fun _ => Iff.rfl)
      · exact .inl rfl

/-- Whatever zone is reset, in a state between two operations or where an operation resets
one, the reset changes nothing or collects the zone; evictions keep the live tables. -/
structure Collects (device : Device) (m : MemoryManager) : Prop where
  reset : ∀ zone force m', m.resetZone device zone force = .ok m' →
    m' = m ∨ m.Collected device m' zone
  calls : ∀ iter fuel op, ∀ call ∈ m.resetCalls device iter fuel op, ∀ m',
    call.state.resetZone device call.zone call.force = .ok m' →
      m' = call.state ∨ call.state.Collected device m' call.zone
  tryReset : ∀ iter m', m.tryReset device iter = .ok m' → ∀ t, m'.Live t ↔ m.Live t
  evictZone : ∀ iter m', m.evictZone device iter = .ok m' → ∀ t, m'.Live t ↔ m.Live t

/-- After any operations a reset keeps every live table, with its own slot, and no other. -/
theorem collects_of_reachable (reachable : (storeSystem device).Reachable m) :
    m.Collects device := by
  obtain ⟨roles, books⟩ := books_of_reachable reachable
  have start : m.Roles device none ∧ m.Books device none [] ∧ m.SameLive m :=
    ⟨roles, books, fun _ => Iff.rfl⟩
  constructor
  · intro zone force m' ok
    exact (books.collected roles zone force).of_ok ok
  · intro iter fuel op call mem m' ok
    obtain ⟨roles', books', -⟩ := (evictable_books m).resetCalls start call mem
    exact (books'.collected roles' call.zone call.force).of_ok ok
  · intro iter m' ok
    exact (((evictable_books m).tryReset start fun _ _ => trivial).of_ok ok).2.2
  · intro iter m' ok
    exact (((evictable_books m).evictZone start fun _ _ => trivial).of_ok ok).2.2

/-- The small device after one of two tables was deleted. -/
theorem collects_after_delete :
    ∃ m, storeRun device8G 1
        [.writeTable 0 0, .writeTable 0 1, .readTable 0 0 0 0, .deleteTable 0 0] = some m ∧
      m.Collects device8G := by
  obtain ⟨m, run⟩ := Option.isSome_iff_exists.mp
    (show (storeRun device8G 1
      [.writeTable 0 0, .writeTable 0 1, .readTable 0 0 0 0, .deleteTable 0 0]).isSome by
        decide +kernel)
  exact ⟨m, run, collects_of_reachable (reachable_of_storeRun run)⟩

end Collection

end MemoryManager

end ZnsLsm.Pool
