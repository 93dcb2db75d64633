import Mathlib.Data.Finset.Sort
import ZnsLsm.Outcome
import ZnsLsm.Pool.Manager
import ZnsLsm.Transition

/-!
# Runs of the memory manager

The operations of the manager as labels of a transition system, and the rules by
which every result about evictions goes through: what one `resetZone` preserves,
and what clearing the set of zones to reset preserves, is preserved by `tryReset`,
`evictZone` and the eviction loop of `writeTable`.  The rules also say where an
eviction stops, and allow a condition on the zones that it resets.
-/

namespace ZnsLsm.Pool

open ZnsLsm.Outcome ZnsLsm.Transition

/-- The public operations of the memory manager. -/
inductive Op
  | writeTable (level num : Nat)
  | getValue (level num offset length : Nat)
  | readTable (level num offset length : Nat)
  | deleteTable (level num : Nat)
  | tryReset
  | evictZone
  deriving DecidableEq, Repr

/-- An iteration order lists every element of a set once. -/
def Enumerates (iter : Finset Nat → List Nat) : Prop :=
  ∀ zones, (iter zones).Nodup ∧ ∀ zone, zone ∈ iter zones ↔ zone ∈ zones

namespace MemoryManager

def exec (device : Device) (iter : Finset Nat → List Nat) (fuel : Nat) (m : MemoryManager) :
    Op → Except Halt MemoryManager
  | .writeTable level num => m.writeTable device iter fuel level num
  | .getValue level num offset length => m.getValue level num offset length
  | .readTable level num offset length => m.readTable level num offset length
  | .deleteTable level num => m.deleteTable device level num
  | .tryReset => m.tryReset device iter
  | .evictZone => m.evictZone device iter

section Exec

variable {device : Device} {iter : Finset Nat → List Nat} {fuel level num : Nat}
  (m : MemoryManager)

@[simp]
theorem exec_getValue (offset length : Nat) :
    m.exec device iter fuel (.getValue level num offset length) =
      m.getValue level num offset length :=
  rfl

@[simp]
theorem exec_readTable (offset length : Nat) :
    m.exec device iter fuel (.readTable level num offset length) =
      m.readTable level num offset length :=
  rfl

@[simp]
theorem exec_deleteTable :
    m.exec device iter fuel (.deleteTable level num) = m.deleteTable device level num :=
  rfl

end Exec

/-- The table is stored. -/
def Live (m : MemoryManager) (t : TableId) : Prop :=
  (m.mappingTable t).isSome

/-- How the store uses the manager: it writes tables that are not stored, on a level
at most one above the levels written before, and reads stored tables only. -/
def Allowed (m : MemoryManager) : Op → Prop
  | .writeTable level num => ¬m.Live (level, num) ∧ level ≤ m.levels
  | .getValue level num _ _ => m.Live (level, num)
  | .readTable level num _ _ => m.Live (level, num)
  | .deleteTable _ _ => True
  | .tryReset => True
  | .evictZone => True

/-- All runs of the manager: any operation may come at any time, sets are iterated
in any order, and the eviction loop may take any number of rounds. -/
def system (device : Device) : System MemoryManager Op where
  Init m := new device = some m
  Step m op m' := ∃ iter fuel, Enumerates iter ∧ m.exec device iter fuel op = .ok m'

/-- The runs in which the manager is used as the store uses it. -/
def storeSystem (device : Device) : System MemoryManager Op :=
  (system device).guarded Allowed

instance (m : MemoryManager) (t : TableId) : Decidable (m.Live t) :=
  inferInstanceAs (Decidable (_ = true))

instance (m : MemoryManager) : (op : Op) → Decidable (m.Allowed op)
  | .writeTable _ _ => inferInstanceAs (Decidable (_ ∧ _))
  | .getValue _ _ _ _ => inferInstanceAs (Decidable (m.Live _))
  | .readTable _ _ _ _ => inferInstanceAs (Decidable (m.Live _))
  | .deleteTable _ _ => inferInstanceAs (Decidable True)
  | .tryReset => inferInstanceAs (Decidable True)
  | .evictZone => inferInstanceAs (Decidable True)

/-! ## Executable runs -/

/-- Ascending order is an iteration order. -/
theorem enumerates_sort : Enumerates fun zones => zones.sort (· ≤ ·) := fun zones =>
  ⟨zones.sort_nodup _, fun _ => zones.mem_sort _⟩

/-- Run operations on a new manager as long as they are allowed and return. -/
def storeRun (device : Device) (fuel : Nat) (ops : List Op) : Option MemoryManager := do
  let m ← new device
  ops.foldlM
    (fun m op =>
      if m.Allowed op then
        (m.exec device (fun zones => zones.sort (· ≤ ·)) fuel op).toOption
      else
        none)
    m

theorem storeRun_nil {device : Device} {fuel : Nat} {m : MemoryManager}
    (run : storeRun device fuel [] = some m) : new device = some m := by
  obtain ⟨first, built, same⟩ := Option.bind_eq_some_iff.mp run
  cases same
  exact built

/-- The last operation of a run. -/
theorem storeRun_concat {device : Device} {fuel : Nat} {ops : List Op} {op : Op}
    {m' : MemoryManager} (run : storeRun device fuel (ops ++ [op]) = some m') :
    ∃ m, storeRun device fuel ops = some m ∧ m.Allowed op ∧
      m.exec device (fun zones => zones.sort (· ≤ ·)) fuel op = .ok m' := by
  obtain ⟨first, built, ran⟩ := Option.bind_eq_some_iff.mp run
  rw [List.foldlM_append] at ran
  obtain ⟨m, before, last⟩ := Option.bind_eq_some_iff.mp ran
  obtain ⟨next, stepped, same⟩ := Option.bind_eq_some_iff.mp last
  cases same
  dsimp only at stepped
  refine ⟨m, Option.bind_eq_some_iff.mpr ⟨first, built, before⟩, ?_⟩
  split at stepped
  · rename_i allowed
    exact ⟨allowed, Outcome.eq_ok_of_toOption stepped⟩
  · cases stepped

theorem reachable_of_storeRun {device : Device} {fuel : Nat} {ops : List Op}
    {m : MemoryManager} (run : storeRun device fuel ops = some m) :
    (storeSystem device).Reachable m := by
  induction ops using List.reverseRecOn generalizing m with
  | nil => exact .init (storeRun_nil run)
  | append_singleton ops op ih =>
      obtain ⟨before, ran, allowed, ok⟩ := storeRun_concat run
      exact .step (ih ran) ⟨allowed, _, fuel, enumerates_sort, ok⟩

/-! ## The resets of an operation -/

/-- A call of `resetZone` and the state it is made in. -/
structure ResetCall where
  state : MemoryManager
  zone : Nat
  force : Bool

/-- The calls in the loop of `tryReset`. -/
def resetZonesCalls (device : Device) : List Nat → MemoryManager → List ResetCall
  | [], _ => []
  | zone :: zones, m =>
      ⟨m, zone, false⟩ ::
        match m.resetZone device zone false with
        | .ok m => resetZonesCalls device zones m
        | .error _ => []

def evictZoneCalls (device : Device) (iter : Finset Nat → List Nat) (m : MemoryManager) :
    List ResetCall :=
  if m.toReset ≠ ∅ then
    resetZonesCalls device (iter m.toReset) m
  else
    match iter m.fullZone with
    | [] => []
    | first :: rest =>
        [⟨m, leastRate m.zoneMetas (first :: rest) (device.zoneCap / sstableSize) first, true⟩]

def evictLoopCalls (device : Device) (iter : Finset Nat → List Nat) :
    Nat → MemoryManager → List ResetCall
  | 0, _ => []
  | fuel + 1, m =>
      if m.emptyZone.size * 20 < device.zoneNum then
        m.evictZoneCalls device iter ++
          match m.evictZone device iter with
          | .ok m => evictLoopCalls device iter fuel m
          | .error _ => []
      else
        []

/-- The calls of `resetZone` that an operation makes. -/
def resetCalls (device : Device) (iter : Finset Nat → List Nat) (fuel : Nat)
    (m : MemoryManager) : Op → List ResetCall
  | .writeTable _ _ => evictLoopCalls device iter fuel m
  | .tryReset => resetZonesCalls device (iter m.toReset) m
  | .evictZone => m.evictZoneCalls device iter
  | _ => []

/-! ## The rules for evictions -/

section Evictions

variable {device : Device} {iter : Finset Nat → List Nat}
variable {Guard : ResetCall → Prop} {Inv : MemoryManager → Prop} {Stopped : Halt → Prop}

/-- A property that every reset where `Guard` holds and every clearing of `toReset`
preserve, and what holds where an eviction stops. -/
structure Evictable (device : Device) (Guard : ResetCall → Prop)
    (Inv : MemoryManager → Prop) (Stopped : Halt → Prop) : Prop where
  reset : ∀ {m : MemoryManager} {zone : Nat} {force : Bool}, Inv m → Guard ⟨m, zone, force⟩ →
    Ends Inv Stopped (m.resetZone device zone force)
  clear : ∀ {m : MemoryManager}, Inv m → Inv { m with toReset := ∅ }
  idle : ∀ {m : MemoryManager} {stop : Stop}, Inv m → stop = .noFullZone ∨ stop = .fuel →
    Stopped ⟨stop, m⟩

theorem Evictable.and {Inv' : MemoryManager → Prop} {Stopped' : Halt → Prop}
    (first : Evictable device Guard Inv Stopped) (second : Evictable device Guard Inv' Stopped') :
    Evictable device Guard (fun m => Inv m ∧ Inv' m)
      (fun halt => Stopped halt ∧ Stopped' halt) where
  reset inv guard := (first.reset inv.1 guard).and (second.reset inv.2 guard)
  clear inv := ⟨first.clear inv.1, second.clear inv.2⟩
  idle inv stops := ⟨first.idle inv.1 stops, second.idle inv.2 stops⟩

theorem Evictable.resetZones (evictable : Evictable device Guard Inv Stopped)
    {zones : List Nat} {m : MemoryManager} (inv : Inv m)
    (guards : ∀ call ∈ resetZonesCalls device zones m, Guard call) :
    Ends Inv Stopped (MemoryManager.resetZones device zones m) := by
  induction zones generalizing m with
  | nil => exact inv
  | cons zone zones ih =>
      simp only [MemoryManager.resetZones]
      refine (evictable.reset inv (guards ⟨m, zone, false⟩ List.mem_cons_self)).bind ?_
      intro m₁ first inv₁
      refine ih inv₁ fun call mem => guards call ?_
      simp only [resetZonesCalls, first]
      exact List.mem_cons_of_mem _ mem

theorem Evictable.tryReset (evictable : Evictable device Guard Inv Stopped)
    {m : MemoryManager} (inv : Inv m)
    (guards : ∀ call ∈ resetZonesCalls device (iter m.toReset) m, Guard call) :
    Ends Inv Stopped (m.tryReset device iter) :=
  (evictable.resetZones inv guards).bind fun _ _ inv₁ => evictable.clear inv₁

theorem Evictable.evictZone (evictable : Evictable device Guard Inv Stopped)
    {m : MemoryManager} (inv : Inv m)
    (guards : ∀ call ∈ m.evictZoneCalls device iter, Guard call) :
    Ends Inv Stopped (m.evictZone device iter) := by
  simp only [MemoryManager.evictZone]
  simp only [MemoryManager.evictZoneCalls] at guards
  split
  · rename_i nonempty
    rw [if_pos nonempty] at guards
    exact evictable.tryReset inv guards
  · rename_i nonempty
    rw [if_neg nonempty] at guards
    split
    · exact evictable.idle inv (.inl rfl)
    · rename_i listed
      simp only [listed] at guards
      exact evictable.reset inv (guards _ List.mem_cons_self)

/-- The loop ends in a state with the property in which 5% of the zones are free. -/
theorem Evictable.evictLoop (evictable : Evictable device Guard Inv Stopped) {fuel : Nat}
    {m : MemoryManager} (inv : Inv m)
    (guards : ∀ call ∈ evictLoopCalls device iter fuel m, Guard call) :
    Ends (fun m' => Inv m' ∧ device.zoneNum ≤ m'.emptyZone.size * 20) Stopped
      (MemoryManager.evictLoop device iter fuel m) := by
  induction fuel generalizing m with
  | zero => exact evictable.idle inv (.inr rfl)
  | succ fuel ih =>
      simp only [MemoryManager.evictLoop]
      simp only [MemoryManager.evictLoopCalls] at guards
      split
      · rename_i few
        rw [if_pos few] at guards
        refine (evictable.evictZone inv fun call mem =>
          guards call (List.mem_append_left _ mem)).bind ?_
        intro m₁ round inv₁
        refine ih inv₁ fun call mem => guards call (List.mem_append_right _ ?_)
        simpa only [round] using mem
      · rename_i enough
        exact ⟨inv, Nat.le_of_not_lt enough⟩

/-! ### The states in which zones are reset -/

theorem Evictable.resetZonesCalls (evictable : Evictable device (fun _ => True) Inv Stopped)
    {zones : List Nat} {m : MemoryManager} (inv : Inv m) :
    ∀ call ∈ resetZonesCalls device zones m, Inv call.state := by
  induction zones generalizing m with
  | nil =>
      intro call mem
      cases mem
  | cons zone zones ih =>
      intro call mem
      rcases List.mem_cons.mp mem with rfl | mem
      · exact inv
      · cases first : m.resetZone device zone false with
        | error halt =>
            rw [first] at mem
            cases mem
        | ok m₁ =>
            rw [first] at mem
            exact ih ((evictable.reset inv trivial).of_ok first) call mem

theorem Evictable.evictZoneCalls (evictable : Evictable device (fun _ => True) Inv Stopped)
    {m : MemoryManager} (inv : Inv m) :
    ∀ call ∈ m.evictZoneCalls device iter, Inv call.state := by
  intro call mem
  simp only [MemoryManager.evictZoneCalls] at mem
  split at mem
  · exact evictable.resetZonesCalls inv call mem
  · split at mem
    · cases mem
    · obtain rfl := List.mem_singleton.mp mem
      exact inv

/-- Every zone that an operation resets is reset in a state with the property. -/
theorem Evictable.resetCalls (evictable : Evictable device (fun _ => True) Inv Stopped)
    {fuel : Nat} {m : MemoryManager} (inv : Inv m) {op : Op} :
    ∀ call ∈ m.resetCalls device iter fuel op, Inv call.state := by
  have loop : ∀ call ∈ evictLoopCalls device iter fuel m, Inv call.state := by
    induction fuel generalizing m with
    | zero =>
        intro call mem
        cases mem
    | succ fuel ih =>
        intro call mem
        simp only [MemoryManager.evictLoopCalls] at mem
        split at mem
        · rcases List.mem_append.mp mem with mem | mem
          · exact evictable.evictZoneCalls inv call mem
          · cases round : m.evictZone device iter with
            | error halt =>
                rw [round] at mem
                cases mem
            | ok m₁ =>
                rw [round] at mem
                exact ih ((evictable.evictZone inv fun _ _ => trivial).of_ok round) call mem
        · cases mem
  cases op with
  | writeTable level num => exact loop
  | tryReset => exact evictable.resetZonesCalls inv
  | evictZone => exact evictable.evictZoneCalls inv
  | getValue level num offset length =>
      intro call mem
      cases mem
  | readTable level num offset length =>
      intro call mem
      cases mem
  | deleteTable level num =>
      intro call mem
      cases mem

end Evictions

end MemoryManager

end ZnsLsm.Pool
