import Mathlib.Algebra.BigOperators.Group.Finset.Basic
import Mathlib.Algebra.Order.BigOperators.Group.Finset
import ZnsLsm.Pool.Collection

/-!
# The eviction loop ends

A forced reset removes at least one dead slot and creates none, however it moves the
live tables; a round that only tries the zones to reset creates none either, and leaves
no zone to reset.  So the dead slots, counted twice, together with whether zones wait
to be reset, decrease in every round.
-/

namespace ZnsLsm.Pool

open ZnsLsm.Outcome ZnsLsm.Transition

namespace MemoryManager

section Eviction

variable {device : Device} {m m' : MemoryManager} {zone : Nat}

/-! ## The zone of least rate -/

/-- The choice is the first candidate if every zone has at least the least rate so far, and
otherwise a zone below that rate. -/
theorem leastRate_spec (zoneMetas : Nat → ZoneMeta) (zones : List Nat) (minRate toReset : Nat) :
    (leastRate zoneMetas zones minRate toReset = toReset ∧
        ∀ zone ∈ zones, minRate ≤ (zoneMetas zone).validTableNum) ∨
      (leastRate zoneMetas zones minRate toReset ∈ zones ∧
        (zoneMetas (leastRate zoneMetas zones minRate toReset)).validTableNum < minRate) := by
  induction zones generalizing minRate toReset with
  | nil => exact .inl ⟨rfl, fun _ mem => by cases mem⟩
  | cons zone zones ih =>
      simp only [leastRate]
      split
      · rename_i less
        right
        rcases ih (zoneMetas zone).validTableNum zone with ⟨same, -⟩ | ⟨mem, below⟩
        · rw [same]
          exact ⟨List.mem_cons_self, less⟩
        · exact ⟨List.mem_cons_of_mem zone mem, Nat.lt_trans below less⟩
      · rename_i notLess
        rcases ih minRate toReset with ⟨same, all⟩ | ⟨mem, below⟩
        · left
          refine ⟨same, fun other mem => ?_⟩
          rcases List.mem_cons.mp mem with rfl | mem
          · exact Nat.not_lt.mp notLess
          · exact all other mem
        · exact .inr ⟨List.mem_cons_of_mem zone mem, below⟩

/-! ## Full zones -/

@[simp]
theorem maximumTable_eq (device : Device) : device.zoneCap / sstableSize = device.tables := by
  rw [device.zoneCap_eq, Nat.mul_div_cancel _ sstableSize_pos]

/-- The pool and the open zones make up the device if no zone is full. -/
theorem Roles.fullZone_ne_empty (roles : m.Roles device none)
    (many : openZoneNum * 20 + device.zoneNum < device.zoneNum * 20)
    (few : m.emptyZone.size * 20 < device.zoneNum) : m.fullZone ≠ ∅ := by
  intro none
  have perm : (m.emptyZone.contents ++ m.openZone).Perm (List.range device.zoneNum) := by
    apply List.perm_iff_count.mpr
    intro zone
    have once := roles.once zone
    simp only [occurrences, none, Finset.notMem_empty, if_false, reduceCtorEq] at once
    rw [List.count_append, List.count_range]
    exact once
  have length := perm.length_eq
  rw [List.length_append, List.length_range, roles.open_length, ← roles.wf.size_eq] at length
  omega

/-- A full zone has as many live tables and dead slots as it has slots. -/
theorem Books.counted_full (books : m.Books device none []) (roles : m.Roles device none)
    (full : zone ∈ m.fullZone) :
    (m.zoneMetas zone).validTableNum + (m.zoneMetas zone).deletedTable.length =
      device.tables := by
  rw [books.counted (by simp)]
  exact (roles.placed zone).end_le_iff.mp ((roles.full_iff zone (by simp)).mp full)

/-- A full zone without dead slots holds live tables only. -/
theorem Books.all_live (books : m.Books device none []) (roles : m.Roles device none)
    (full : zone ∈ m.fullZone) (valid : device.tables ≤ (m.zoneMetas zone).validTableNum)
    {k : Nat} (lt : k < device.tables) :
    ∃ t, m.mappingTable t = some (device.slot zone k) := by
  have counted := books.counted_full roles full
  have clear : (m.zoneMetas zone).deletedTable = [] := List.eq_nil_of_length_eq_zero (by omega)
  have used := (roles.placed zone).end_le_iff.mp ((roles.full_iff zone (by simp)).mp full)
  have written : m.Written device zone (device.slot zone k) := ⟨k, used.symm ▸ lt, rfl⟩
  have live : m.remappingTable (device.slot zone k) ≠ none := by
    intro dead
    have deleted := (books.deleted (show (none : Option Nat) ≠ some zone by simp)).mpr
      ⟨written, dead⟩
    rw [clear] at deleted
    cases deleted
  obtain ⟨t, located⟩ := Option.ne_none_iff_exists'.mp live
  exact ⟨t, (books.inverse t _).mpr located⟩

/-! ## The dead slots of the device -/

/-- The number of dead slots. -/
def deadSlots (device : Device) (m : MemoryManager) : Nat :=
  ∑ zone ∈ Finset.range device.zoneNum, (m.zoneMetas zone).deletedTable.length

/-- A collection removes the dead slots of its zone. -/
theorem Collected.deadSlots (collected : m.Collected device m' zone) (lt : zone < device.zoneNum) :
    m'.deadSlots device + (m.zoneMetas zone).deletedTable.length = m.deadSlots device := by
  have mem : zone ∈ Finset.range device.zoneNum := Finset.mem_range.mpr lt
  have others : ∀ other ∈ (Finset.range device.zoneNum).erase zone,
      (m'.zoneMetas other).deletedTable.length = (m.zoneMetas other).deletedTable.length := by
    intro other mem
    obtain ⟨_, -, -, -, same⟩ := collected.grown other (Finset.ne_of_mem_erase mem)
    rw [same]
  have erased : (m'.zoneMetas zone).deletedTable.length = 0 := by
    rw [collected.erased.2.2.1]
    rfl
  rw [MemoryManager.deadSlots, MemoryManager.deadSlots, ← Finset.sum_erase_add _ _ mem,
    ← Finset.sum_erase_add (Finset.range device.zoneNum)
      (fun zone => (m.zoneMetas zone).deletedTable.length) mem,
    Finset.sum_congr rfl others, erased, Nat.add_zero]

/-- A zone beyond the device is never reset. -/
@[simp]
theorem Roles.resetZone_outside (roles : m.Roles device none) (outside : ¬zone < device.zoneNum)
    (force : Bool) : m.resetZone device zone force = .ok m := by
  have notFull : zone ∉ m.fullZone := fun full =>
    outside (roles.lt_of_occurs (by simp only [occurrences, if_pos full]; omega))
  rw [MemoryManager.resetZone, if_pos]
  · rfl
  · exact Nat.lt_of_not_le fun ge => notFull ((roles.full_iff zone (by simp)).mpr ge)

/-- No reset creates dead slots. -/
theorem Books.resetZone_deadSlots (books : m.Books device none []) (roles : m.Roles device none)
    (zone : Nat) (force : Bool) :
    Ends (fun m' => m'.deadSlots device ≤ m.deadSlots device) (fun halt => halt.stop = .exit)
      (m.resetZone device zone force) := by
  have both := (books.collected roles zone force).and (roles.resetZone zone force)
  by_cases lt : zone < device.zoneNum
  · refine both.imp ?_ fun _ holds => holds.2.1
    rintro m' ⟨rfl | collected, -⟩
    · exact Nat.le_refl _
    · exact Nat.le_of_add_right_le (Nat.le_of_eq (collected.deadSlots lt))
  · rw [roles.resetZone_outside lt]
    exact Nat.le_refl _

theorem Books.resetZones_deadSlots (books : m.Books device none []) (roles : m.Roles device none)
    (zones : List Nat) :
    Ends (fun m' => m'.deadSlots device ≤ m.deadSlots device) (fun halt => halt.stop = .exit)
      (resetZones device zones m) := by
  induction zones generalizing m with
  | nil => exact Nat.le_refl _
  | cons zone zones ih =>
      have kept := (books.resetZone roles zone false).and (roles.resetZone zone false)
      have first := (books.resetZone_deadSlots roles zone false).and kept
      refine (first.imp (fun _ => id) fun _ holds => holds.1).bind ?_
      rintro m₁ - ⟨le, ⟨books₁, -⟩, roles₁, -⟩
      exact (ih books₁ roles₁).imp (fun _ le₁ => Nat.le_trans le₁ le) fun _ => id

/-- A forced reset of a full zone that does not hold live tables only erases it. -/
theorem Roles.forced_erases (roles : m.Roles device none) (full : zone ∈ m.fullZone)
    (rate : (m.zoneMetas zone).validTableNum < device.tables) :
    Ends (fun m' => (m'.zoneMetas zone).deletedTable = []) (fun halt => halt.stop = .exit)
      (m.resetZone device zone true) := by
  have written := (roles.full_iff zone (by simp)).mp full
  simp only [MemoryManager.resetZone, if_neg (Nat.not_lt.mpr written), if_pos full,
    maximumTable_eq, if_neg (Nat.ne_of_lt rate), or_true, if_true]
  have erases : ∀ m₁ : MemoryManager,
      ((m₁.eraseZone device zone).zoneMetas zone).deletedTable = [] := by
    intro m₁
    simp only [MemoryManager.eraseZone, setMeta_zoneMetas_self]
  split
  · exact ((roles.rewriteZone full).imp (fun _ => id) fun _ holds => holds.1).bind
      fun m₁ _ _ => erases m₁
  · exact erases m

/-- It removes a dead slot. -/
theorem Books.forced_deadSlots (books : m.Books device none []) (roles : m.Roles device none)
    (full : zone ∈ m.fullZone) (rate : (m.zoneMetas zone).validTableNum < device.tables) :
    Ends (fun m' => m'.deadSlots device < m.deadSlots device) (fun halt => halt.stop = .exit)
      (m.resetZone device zone true) := by
  have counted := books.counted_full roles full
  have lt : zone < device.zoneNum :=
    roles.lt_of_occurs (by simp only [occurrences, if_pos full]; omega)
  refine ((books.collected roles zone true).and (roles.forced_erases full rate)).imp ?_
    fun _ holds => holds.2
  rintro m' ⟨rfl | collected, erased⟩
  · rw [erased, List.length_nil] at counted
    omega
  · have dead := collected.deadSlots lt
    omega

/-! ## One round -/

/-- What decreases from round to round. -/
def pendingWork (device : Device) (m : MemoryManager) : Nat :=
  2 * m.deadSlots device + if m.toReset = ∅ then 0 else 1

/-- The zone that an eviction forces holds dead slots, unless no full zone does. -/
theorem leastRate_full {iter : Finset Nat → List Nat} (enumerates : Enumerates iter)
    {first : Nat} {rest : List Nat} (listed : iter m.fullZone = first :: rest) :
    let zone := leastRate m.zoneMetas (first :: rest) device.tables first
    zone ∈ m.fullZone ∧
      ((m.zoneMetas zone).validTableNum < device.tables ∨
        ∀ other ∈ m.fullZone, device.tables ≤ (m.zoneMetas other).validTableNum) := by
  have members : ∀ {zone}, zone ∈ first :: rest ↔ zone ∈ m.fullZone := by
    intro zone
    rw [← listed]
    exact (enumerates m.fullZone).2 zone
  rcases leastRate_spec m.zoneMetas (first :: rest) device.tables first with
    ⟨same, all⟩ | ⟨mem, below⟩
  · dsimp only
    rw [same]
    exact ⟨members.mp List.mem_cons_self, .inr fun other full => all other (members.mpr full)⟩
  · exact ⟨members.mp mem, .inl below⟩

/-- Every round decreases the pending work or stops through `exit`. -/
theorem Books.evictZone_pendingWork (books : m.Books device none [])
    (roles : m.Roles device none) {iter : Finset Nat → List Nat} (enumerates : Enumerates iter)
    (many : openZoneNum * 20 + device.zoneNum < device.zoneNum * 20)
    (few : m.emptyZone.size * 20 < device.zoneNum) :
    Ends (fun m' => m'.pendingWork device < m.pendingWork device) (fun halt => halt.stop = .exit)
      (m.evictZone device iter) := by
  have resetNone := roles.evictZone_toReset iter
  by_cases waiting : m.toReset = ∅
  · have dead : Ends (fun m' => m'.deadSlots device < m.deadSlots device)
        (fun halt => halt.stop = .exit) (m.evictZone device iter) := by
      simp only [MemoryManager.evictZone, waiting, ne_eq, not_true_eq_false, if_false]
      split
      · rename_i listed
        have empty : m.fullZone = ∅ := by
          apply Finset.eq_empty_of_forall_notMem
          intro zone full
          have mem := ((enumerates m.fullZone).2 zone).mpr full
          rw [listed] at mem
          cases mem
        exact absurd empty (roles.fullZone_ne_empty many few)
      · rename_i first rest listed
        rw [maximumTable_eq]
        obtain ⟨full, rate | all⟩ := leastRate_full enumerates listed
        · exact books.forced_deadSlots roles full rate
        · have written := (roles.full_iff _ (by simp)).mp full
          have counted := books.counted_full roles full
          have rate := all _ full
          simp only [MemoryManager.resetZone, if_neg (Nat.not_lt.mpr written), if_pos full,
            maximumTable_eq]
          rw [if_pos (by omega)]
          exact rfl
    refine (dead.and resetNone).imp ?_ fun _ holds => holds.1
    rintro m' ⟨less, empty⟩
    simp only [pendingWork, waiting, empty, if_true]
    omega
  · have dead : Ends (fun m' => m'.deadSlots device ≤ m.deadSlots device)
        (fun halt => halt.stop = .exit) (m.evictZone device iter) := by
      simp only [MemoryManager.evictZone, ne_eq, waiting, not_false_eq_true, if_true]
      refine (books.resetZones_deadSlots roles (iter m.toReset)).bind ?_
      exact fun m₁ _ le => le
    refine (dead.and resetNone).imp ?_ fun _ holds => holds.1
    rintro m' ⟨le, empty⟩
    simp only [pendingWork, if_neg waiting, empty, if_true]
    omega

/-! ## All rounds -/

/-- A round of the loop, in any order of iteration. -/
def Round (device : Device) (m' m : MemoryManager) : Prop :=
  m.emptyZone.size * 20 < device.zoneNum ∧
    ∃ iter, Enumerates iter ∧ m.evictZone device iter = .ok m'

theorem Books.evictZone (books : m.Books device none []) (roles : m.Roles device none)
    (iter : Finset Nat → List Nat) :
    Ends (fun m' => m'.Roles device none ∧ m'.Books device none []) (fun _ => True)
      (m.evictZone device iter) :=
  ((evictable_books m).evictZone ⟨roles, books, fun _ => Iff.rfl⟩ fun _ _ => trivial).imp
    (fun _ holds => ⟨holds.1, holds.2.1⟩) fun _ _ => trivial

theorem Books.rounds_end (books : m.Books device none []) (roles : m.Roles device none)
    (many : openZoneNum * 20 + device.zoneNum < device.zoneNum * 20) :
    Acc (Round device) m := by
  induction work : m.pendingWork device using Nat.strong_induction_on generalizing m with
  | h n ih =>
      subst work
      constructor
      rintro m' ⟨few, iter, enumerates, ok⟩
      obtain ⟨roles', books'⟩ := (books.evictZone roles iter).of_ok ok
      have less := (books.evictZone_pendingWork roles enumerates many few).of_ok ok
      exact ih (m'.pendingWork device) less books' roles' rfl

theorem Books.evictLoop_ends (books : m.Books device none []) (roles : m.Roles device none)
    {iter : Finset Nat → List Nat} (enumerates : Enumerates iter)
    (many : openZoneNum * 20 + device.zoneNum < device.zoneNum * 20) {fuel : Nat}
    (enough : m.pendingWork device < fuel) :
    Ends (fun m' => device.zoneNum ≤ m'.emptyZone.size * 20) (fun halt => halt.stop = .exit)
      (MemoryManager.evictLoop device iter fuel m) := by
  induction fuel generalizing m with
  | zero => exact absurd enough (Nat.not_lt_zero _)
  | succ fuel ih =>
      simp only [MemoryManager.evictLoop]
      split
      · rename_i few
        have kept := (books.evictZone_pendingWork roles enumerates many few).and
          (books.evictZone roles iter)
        refine (kept.imp (fun _ => id) fun _ holds => holds.1).bind ?_
        rintro m₁ - ⟨less, roles₁, books₁⟩
        exact ih books₁ roles₁ (Nat.lt_of_lt_of_le less (Nat.le_of_lt_succ enough))
      · rename_i enoughFree
        exact Nat.le_of_not_lt enoughFree

/-! ## The forced exit -/

/-- The call takes the exit of a forced reset of a zone whose rate is 1. -/
def ResetCall.ForcedExit (device : Device) (call : ResetCall) : Prop :=
  call.force = true ∧ ¬(call.state.zoneMetas call.zone).writePtr <
      (call.state.zoneMetas call.zone).endPtr ∧
    (call.state.zoneMetas call.zone).validTableNum = device.zoneCap / sstableSize

theorem ResetCall.ForcedExit.exits {call : ResetCall} (forced : call.ForcedExit device) :
    Ends (fun _ => False) (fun halt => halt.stop = .exit)
      (call.state.resetZone device call.zone call.force) := by
  obtain ⟨force, written, rate⟩ := forced
  simp only [MemoryManager.resetZone, if_neg written, if_pos rate, if_pos force]
  exact rfl

theorem resetZonesCalls_force {zones : List Nat} :
    ∀ call ∈ resetZonesCalls device zones m, call.force = false := by
  induction zones generalizing m with
  | nil =>
      intro call mem
      cases mem
  | cons zone zones ih =>
      intro call mem
      rcases List.mem_cons.mp mem with rfl | mem
      · rfl
      · cases first : m.resetZone device zone false with
        | error halt =>
            rw [first] at mem
            cases mem
        | ok m₁ =>
            rw [first] at mem
            exact ih call mem

/-- A forced reset is a reset of the zone of least rate. -/
theorem evictLoopCalls_force {iter : Finset Nat → List Nat} {fuel : Nat} :
    ∀ call ∈ evictLoopCalls device iter fuel m, call.force = true →
      ∃ first rest, iter call.state.fullZone = first :: rest ∧
        call.zone = leastRate call.state.zoneMetas (first :: rest) device.tables first := by
  induction fuel generalizing m with
  | zero =>
      intro call mem
      cases mem
  | succ fuel ih =>
      intro call mem force
      simp only [evictLoopCalls] at mem
      split at mem
      · rcases List.mem_append.mp mem with mem | mem
        · simp only [evictZoneCalls] at mem
          split at mem
          · rw [resetZonesCalls_force call mem] at force
            cases force
          · split at mem
            · cases mem
            · rename_i first rest listed
              obtain rfl := List.mem_singleton.mp mem
              exact ⟨first, rest, listed, by rw [maximumTable_eq]⟩
        · cases round : m.evictZone device iter with
          | error halt =>
              rw [round] at mem
              cases mem
          | ok m₁ =>
              rw [round] at mem
              exact ih call mem force
      · cases mem

theorem Books.forcedExit (books : m.Books device none []) (roles : m.Roles device none)
    {iter : Finset Nat → List Nat} (enumerates : Enumerates iter) (fuel : Nat) :
    ∀ call ∈ evictLoopCalls device iter fuel m, call.ForcedExit device →
      ∀ zone ∈ call.state.fullZone, ∀ k < device.tables,
        ∃ t, call.state.mappingTable t = some (device.slot zone k) := by
  rintro call mem ⟨force, -, rate⟩ zone full k lt
  have called : call ∈ m.resetCalls device iter fuel (.writeTable 0 0) := mem
  obtain ⟨roles', books', -⟩ :=
    (evictable_books m).resetCalls ⟨roles, books, fun _ => Iff.rfl⟩ call called
  obtain ⟨first, rest, listed, chosen⟩ := evictLoopCalls_force call mem force
  rw [chosen, maximumTable_eq] at rate
  obtain ⟨-, below | all⟩ := leastRate_full enumerates listed
  · exact absurd below (by rw [rate]; exact Nat.lt_irrefl _)
  · exact books'.all_live roles' full (all zone full) lt

/-! ## Reachable states -/

/-- What the eviction loop of `writeTable` does in a state between two operations. -/
structure EvictionEnds (device : Device) (m : MemoryManager) : Prop where
  /-- The loop leaves 5% of the zones free or stops through `exit`. -/
  loop : ∃ enough, ∀ iter, Enumerates iter → ∀ fuel ≥ enough,
    Ends (fun m' => device.zoneNum ≤ m'.emptyZone.size * 20) (fun halt => halt.stop = .exit)
      (evictLoop device iter fuel m)
  /-- There are finitely many rounds even if every round iterates in an order of its own. -/
  rounds : Acc (Round device) m
  /-- The forced exit is taken only when every slot of every full zone holds a table. -/
  forced : ∀ iter, Enumerates iter → ∀ fuel, ∀ call ∈ evictLoopCalls device iter fuel m,
    call.ForcedExit device → ∀ zone ∈ call.state.fullZone, ∀ k < device.tables,
      ∃ t, call.state.mappingTable t = some (device.slot zone k)

/-- After any operations the evictions before a write come to an end, if the open zones are
fewer than 95% of all zones. -/
theorem evictionEnds_of_reachable (reachable : (storeSystem device).Reachable m)
    (many : openZoneNum * 20 + device.zoneNum < device.zoneNum * 20) :
    m.EvictionEnds device := by
  obtain ⟨roles, books⟩ := books_of_reachable reachable
  constructor
  · exact ⟨m.pendingWork device + 1, fun iter enumerates fuel enough =>
      books.evictLoop_ends roles enumerates many enough⟩
  · exact books.rounds_end roles many
  · exact fun iter enumerates fuel => books.forcedExit roles enumerates fuel

/-- The alternative device after one of two tables was deleted. -/
theorem evictionEnds_after_delete :
    ∃ m, storeRun device8G 1
        [.writeTable 0 0, .writeTable 0 1, .readTable 0 0 0 0, .deleteTable 0 0] = some m ∧
      m.EvictionEnds device8G := by
  obtain ⟨m, run⟩ := Option.isSome_iff_exists.mp
    (show (storeRun device8G 1
      [.writeTable 0 0, .writeTable 0 1, .readTable 0 0 0 0, .deleteTable 0 0]).isSome by
        decide +kernel)
  exact ⟨m, run, evictionEnds_of_reachable (reachable_of_storeRun run) (by decide +kernel)⟩

end Eviction

end MemoryManager

end ZnsLsm.Pool
