import ZnsLsm.Paging
import ZnsLsm.Pool.Coherence
import ZnsLsm.Pool.Ledger
import ZnsLsm.Pool.Media

/-!
# The pages of a read

`getValue` looks up the page of the first byte that it is asked for, the page of the byte
behind the last one, and all pages in between.  So it stays with the pages of its bytes, in
the slot of its table and on the device, exactly if the bytes do not end where a page ends.
-/

namespace ZnsLsm.Pool

open ZnsLsm.Flash ZnsLsm.Outcome ZnsLsm.Paging ZnsLsm.Transition

/-! ## What a read asks of the cache -/

inductive Access
  | get (page : Nat)
  | put (page : Nat)
  deriving DecidableEq, Repr

def Access.page : Access → Nat
  | .get page => page
  | .put page => page

/-- The cache after an access. -/
def LruCache.access (lru : LruCache) : Access → LruCache
  | .get page => (lru.get page).2
  | .put page => lru.put page

namespace MemoryManager

/-- The accesses of the first loop of `getValue`. -/
def skipAccesses : Nat → Nat → LruCache → List Access
  | 0, _, _ => []
  | count + 1, page, lru =>
      let (hit, lru) := lru.get page
      .get page :: if hit = npos then [] else skipAccesses count (page + 1) lru

/-- The accesses of the second loop of `getValue`. -/
def fetchAccesses : Nat → Nat → LruCache → List Access
  | 0, _, _ => []
  | count + 1, page, lru =>
      let (hit, lru) := lru.get page
      .get page ::
        if hit = npos then .put page :: fetchAccesses count (page + 1) (lru.put page)
        else fetchAccesses count (page + 1) lru

/-- The accesses of `getValue` for a table at `s`, in order. -/
def accesses (s offset length : Nat) (lru : LruCache) : List Access :=
  let left := firstPage s offset
  let right := lastPage s offset length
  let skipped := skipCached (right + 1 - left) left lru
  skipAccesses (right + 1 - left) left lru ++ fetchAccesses skipped.1 skipped.2.1 skipped.2.2

theorem foldl_skipAccesses (count page : Nat) (lru : LruCache) :
    (skipAccesses count page lru).foldl LruCache.access lru = (skipCached count page lru).2.2 := by
  induction count generalizing page lru with
  | zero => rfl
  | succ count ih =>
      simp only [skipAccesses, skipCached, List.foldl_cons]
      split
      · rfl
      · exact ih ..

theorem foldl_fetchAccesses (count page batchLeft batchRight : Nat) (interval : List (Nat × Nat))
    (lru : LruCache) :
    (fetchAccesses count page lru).foldl LruCache.access lru =
      (fetchMissing count page batchLeft batchRight interval lru).2 := by
  induction count generalizing page batchLeft batchRight interval lru with
  | zero => rfl
  | succ count ih =>
      simp only [fetchAccesses, fetchMissing, List.foldl_cons]
      split
      · exact ih ..
      · split
        · exact ih ..
        · exact ih ..

/-- The accesses turn the cache into the one that `getValue` leaves. -/
theorem foldl_accesses (s offset length : Nat) (lru : LruCache) :
    (accesses s offset length lru).foldl LruCache.access lru = (lookup s offset length lru).2 := by
  simp only [accesses, lookup, List.foldl_append, foldl_skipAccesses]
  exact foldl_fetchAccesses ..

/-! ## The pages that are looked up -/

theorem page_of_mem_skipAccesses {count page : Nat} {lru : LruCache} {access : Access}
    (mem : access ∈ skipAccesses count page lru) :
    page ≤ access.page ∧ access.page < page + count := by
  induction count generalizing page lru with
  | zero => cases mem
  | succ count ih =>
      simp only [skipAccesses, List.mem_cons] at mem
      rcases mem with rfl | later
      · exact ⟨Nat.le_refl _, Nat.lt_add_of_pos_right count.succ_pos⟩
      · split at later
        · cases later
        · have range := ih later
          omega

theorem page_of_mem_fetchAccesses {count page : Nat} {lru : LruCache} {access : Access}
    (mem : access ∈ fetchAccesses count page lru) :
    page ≤ access.page ∧ access.page < page + count := by
  induction count generalizing page lru with
  | zero => cases mem
  | succ count ih =>
      have here : page ≤ page ∧ page < page + (count + 1) :=
        ⟨Nat.le_refl _, Nat.lt_add_of_pos_right count.succ_pos⟩
      simp only [fetchAccesses, List.mem_cons] at mem
      rcases mem with rfl | later
      · exact here
      · split at later
        · rcases List.mem_cons.mp later with rfl | later
          · exact here
          · have range := ih later
            omega
        · have range := ih later
          omega

/-- The first loop ends within its pages. -/
theorem skipCached_total (count page : Nat) (lru : LruCache) :
    page ≤ (skipCached count page lru).2.1 ∧
      (skipCached count page lru).2.1 + (skipCached count page lru).1 = page + count := by
  induction count generalizing page lru with
  | zero => exact ⟨Nat.le_refl _, rfl⟩
  | succ count ih =>
      simp only [skipCached]
      split
      · exact ⟨Nat.le_refl _, rfl⟩
      · have range := ih (page + 1) (lru.get page).2
        omega

theorem get_mem_skipAccesses {count page other : Nat} {lru : LruCache} (ge : page ≤ other)
    (lt : other < (skipCached count page lru).2.1) : .get other ∈ skipAccesses count page lru := by
  induction count generalizing page lru with
  | zero => exact absurd lt (Nat.not_lt.mpr ge)
  | succ count ih =>
      simp only [skipAccesses, skipCached] at lt ⊢
      by_cases here : other = page
      · subst here
        exact List.mem_cons_self
      · split at lt
        · exact absurd lt (Nat.not_lt.mpr ge)
        · rename_i hit
          rw [if_neg hit]
          exact List.mem_cons_of_mem _ (ih (by omega) lt)

theorem get_mem_fetchAccesses {count page other : Nat} {lru : LruCache} (ge : page ≤ other)
    (lt : other < page + count) : .get other ∈ fetchAccesses count page lru := by
  induction count generalizing page lru with
  | zero => exact absurd lt (Nat.not_lt.mpr ge)
  | succ count ih =>
      simp only [fetchAccesses]
      by_cases here : other = page
      · subst here
        exact List.mem_cons_self
      · apply List.mem_cons_of_mem
        split
        · exact List.mem_cons_of_mem _ (ih (by omega) (by omega))
        · exact ih (by omega) (by omega)

variable {s offset length : Nat} {lru : LruCache}

theorem firstPage_le_lastPage (s offset length : Nat) :
    firstPage s offset ≤ lastPage s offset length :=
  Nat.div_le_div_right (Nat.le_add_right ..)

theorem page_of_mem_accesses {access : Access} (mem : access ∈ accesses s offset length lru) :
    firstPage s offset ≤ access.page ∧ access.page ≤ lastPage s offset length := by
  have ordered := firstPage_le_lastPage s offset length
  obtain ⟨ge, total⟩ := skipCached_total (lastPage s offset length + 1 - firstPage s offset)
    (firstPage s offset) lru
  rcases List.mem_append.mp mem with skipped | fetched
  · have range := page_of_mem_skipAccesses skipped
    omega
  · have range := page_of_mem_fetchAccesses fetched
    omega

/-- Whatever the cache holds, every page from the first to the last is looked up. -/
theorem get_mem_accesses {page : Nat} (ge : firstPage s offset ≤ page)
    (le : page ≤ lastPage s offset length) : .get page ∈ accesses s offset length lru := by
  obtain ⟨ge', total⟩ := skipCached_total (lastPage s offset length + 1 - firstPage s offset)
    (firstPage s offset) lru
  rw [accesses]
  by_cases skipped :
      page < (skipCached (lastPage s offset length + 1 - firstPage s offset)
        (firstPage s offset) lru).2.1
  · exact List.mem_append_left _ (get_mem_skipAccesses ge skipped)
  · exact List.mem_append_right _ (get_mem_fetchAccesses (Nat.le_of_not_lt skipped) (by omega))

theorem forall_accesses_iff {P : Nat → Prop} :
    (∀ access ∈ accesses s offset length lru, P access.page) ↔
      ∀ page, firstPage s offset ≤ page → page ≤ lastPage s offset length → P page := by
  constructor
  · intro all page ge le
    exact all _ (get_mem_accesses ge le)
  · intro all access mem
    obtain ⟨ge, le⟩ := page_of_mem_accesses mem
    exact all access.page ge le

/-- The second loop reads whole intervals of its pages. -/
theorem intervals_fetchMissing (low batchLeft batchRight : Nat) {high count page : Nat}
    {interval : List (Nat × Nat)} (total : page + count = high)
    (batch : batchLeft ≠ npos → low ≤ batchLeft ∧ batchLeft ≤ batchRight ∧ batchRight < page)
    (le : low ≤ page) (known : ∀ it ∈ interval, low ≤ it.1 ∧ it.1 ≤ it.2 ∧ it.2 < high)
    (lru : LruCache) :
    ∀ it ∈ (fetchMissing count page batchLeft batchRight interval lru).1,
      low ≤ it.1 ∧ it.1 ≤ it.2 ∧ it.2 < high := by
  have closed : batchLeft ≠ npos → ∀ it ∈ interval ++ [(batchLeft, batchRight)],
      low ≤ it.1 ∧ it.1 ≤ it.2 ∧ it.2 < high := by
    intro collecting it mem
    rcases List.mem_append.mp mem with old | new
    · exact known it old
    · obtain rfl := List.mem_singleton.mp new
      obtain ⟨ge, ordered, lt⟩ := batch collecting
      exact ⟨ge, ordered, by omega⟩
  induction count generalizing page batchLeft batchRight interval lru with
  | zero =>
      rw [fetchMissing]
      split
      · exact known
      · rename_i collecting
        exact closed collecting
  | succ count ih =>
      simp only [fetchMissing]
      split
      · have batch' : (if batchLeft = npos then page else batchLeft) ≠ npos →
            low ≤ (if batchLeft = npos then page else batchLeft) ∧
              (if batchLeft = npos then page else batchLeft) ≤ page ∧ page < page + 1 := by
          intro _
          split
          · exact ⟨le, Nat.le_refl _, Nat.lt_succ_self _⟩
          · rename_i collecting
            have range := batch collecting
            omega
        apply ih _ _ (by omega) batch' (by omega) known
        intro collecting it mem
        rcases List.mem_append.mp mem with old | new
        · exact known it old
        · obtain rfl := List.mem_singleton.mp new
          obtain ⟨ge, ordered, lt⟩ := batch' collecting
          exact ⟨ge, ordered, by omega⟩
      · split
        · rename_i collecting
          exact ih _ _ (by omega) (fun absurd => (absurd rfl).elim) (by omega) (closed collecting) _
            fun absurd => (absurd rfl).elim
        · rename_i idle
          exact ih _ _ (by omega) (fun collecting => (idle collecting).elim) (by omega) known _
            fun collecting => (idle collecting).elim

theorem intervals_lookup : ∀ it ∈ (lookup s offset length lru).1,
    firstPage s offset ≤ it.1 ∧ it.1 ≤ it.2 ∧ it.2 ≤ lastPage s offset length := by
  have ordered := firstPage_le_lastPage s offset length
  obtain ⟨ge, total⟩ := skipCached_total (lastPage s offset length + 1 - firstPage s offset)
    (firstPage s offset) lru
  generalize skippedEq : skipCached (lastPage s offset length + 1 - firstPage s offset)
    (firstPage s offset) lru = skipped at ge total
  have all : skipped.2.1 + skipped.1 = lastPage s offset length + 1 := by omega
  have range := intervals_fetchMissing (firstPage s offset) npos npos all
    (fun absurd => (absurd rfl).elim) ge (fun _ => (absurd · List.not_mem_nil)) skipped.2.2
  have lookupEq : lookup s offset length lru =
      fetchMissing skipped.1 skipped.2.1 npos npos [] skipped.2.2 := by
    rw [← skippedEq]
    rfl
  rw [lookupEq]
  intro it mem
  have bounds := range it mem
  omega

end MemoryManager

/-! ## Reads on the device -/

namespace Device

variable {device : Device} {n : FemuCtrl}

/-- The simulator has the parameters of the device. -/
def Simulates (device : Device) (n : FemuCtrl) : Prop :=
  SameParams (femuInit device.toSsdConfig device.devsz) n

/-- Pages of the device. -/
def totalPages (device : Device) : Nat :=
  device.zoneNum * device.tables * pagesPerSlot

/-- Sectors of a page. -/
def pageSecs (device : Device) : Nat :=
  pageSize / device.secsz

theorem pageSize_eq_secs (sectors : device.secsz ∣ pageSize) :
    pageSize = device.secsz * device.pageSecs :=
  (Nat.mul_div_cancel' sectors).symm

theorem pageSecs_pos (sectors : device.secsz ∣ pageSize) : 0 < device.pageSecs :=
  Nat.div_pos (Nat.le_of_dvd pageSize_pos sectors) device.secsz_pos

/-- Sectors of a zone. -/
theorem zoneSecs_eq (sectors : device.secsz ∣ pageSize) :
    device.secsPerPg * device.pages = device.tables * pagesPerSlot * device.pageSecs := by
  apply Nat.eq_of_mul_eq_mul_left device.secsz_pos
  calc
    device.secsz * (device.secsPerPg * device.pages) =
        device.tables * (pagesPerSlot * pageSize) := by
      rw [← device.zoneSize_eq_pages, device.zoneSize_eq_tables, sstableSize_eq_pages]
    _ = device.tables * (pagesPerSlot * (device.secsz * device.pageSecs)) := by
      rw [← pageSize_eq_secs sectors]
    _ = device.secsz * (device.tables * pagesPerSlot * device.pageSecs) := by ring

theorem totalPages_pos (device : Device) : 0 < device.totalPages :=
  Nat.mul_pos (Nat.mul_pos device.zoneNum_pos device.tables_pos) (by decide)

theorem totalSecs_lt (sectors : device.secsz ∣ pageSize) :
    device.totalPages * device.pageSecs < 2 ^ 63 := by
  have total := device.small.2
  rw [Geometry.pageSec, Nat.add_zero, zones_eq, Nat.mul_left_comm, zoneSecs_eq sectors] at total
  rw [totalPages, Nat.mul_assoc device.zoneNum, Nat.mul_assoc]
  exact total

/-- The zone that a sector of a page lies in. -/
theorem Simulates.zoneIdx (simulates : device.Simulates n) (sectors : device.secsz ∣ pageSize)
    {page sec : Nat} (le : page ≤ device.totalPages) (ge : page * device.pageSecs ≤ sec)
    (lt : sec < (page + 1) * device.pageSecs) :
    znsZoneIdx n sec = page / (device.tables * pagesPerSlot) := by
  have zoneSecs : n.zoneSize / n.ssd.sp.secsz =
      device.pageSecs * (device.tables * pagesPerSlot) := by
    rw [simulates.zoneSize, simulates.sp]
    exact device.zoneSize_div_secsz.trans ((zoneSecs_eq sectors).trans (Nat.mul_comm ..))
  have pageEq : sec / device.pageSecs = page := Nat.div_eq_of_lt_le ge lt
  have zoneLe : page / (device.tables * pagesPerSlot) ≤ device.zoneNum := by
    apply Nat.div_le_of_le_mul
    rw [totalPages, Nat.mul_assoc, Nat.mul_comm] at le
    exact le
  rw [znsZoneIdx, zoneSecs, ← Nat.div_div_eq_div_mul, pageEq]
  exact Nat.mod_eq_of_lt (zoneLe.trans_lt device.small.1)

theorem Simulates.byLba_isSome_iff (simulates : device.Simulates n)
    (sectors : device.secsz ∣ pageSize) {page sec : Nat} (le : page ≤ device.totalPages)
    (ge : page * device.pageSecs ≤ sec) (lt : sec < (page + 1) * device.pageSecs) :
    (znsGetZoneByLba n sec).isSome ↔ page < device.totalPages := by
  have inside : znsZoneIdx n sec < n.numZones ↔ page < device.totalPages := by
    rw [simulates.zoneIdx sectors le ge lt, simulates.numZones]
    change _ < device.zoneNum ↔ _
    rw [Nat.div_lt_iff_lt_mul (Nat.mul_pos device.tables_pos (by decide)), totalPages,
      Nat.mul_assoc]
  rw [← inside, znsGetZoneByLba]
  split
  · rename_i room
    exact iff_of_true rfl room
  · rename_i full
    exact iff_of_false Bool.false_ne_true full

/-- The simulator serves a read of pages unless it goes beyond the device. -/
theorem Simulates.femuRead_isSome_iff (simulates : device.Simulates n)
    (sectors : device.secsz ∣ pageSize) {it : Nat × Nat} (le : it.1 ≤ it.2)
    (last : it.2 ≤ device.totalPages) (now : Nat) :
    (femuRead now n ((it.2 - it.1 + 1) * pageSize) (it.1 * pageSize)).isSome ↔
      it.2 < device.totalPages := by
  have secsz : n.ssd.sp.secsz = device.secsz := by
    rw [simulates.sp]
    rfl
  have perPage := pageSecs_pos sectors
  have order : it.1 * device.pageSecs < (it.2 + 1) * device.pageSecs :=
    Nat.mul_lt_mul_of_pos_right (Nat.lt_succ_of_le le) perPage
  have small : (it.2 + 1) * device.pageSecs < 2 ^ 64 := by
    have total := totalSecs_lt sectors
    have room := Nat.mul_le_mul_right device.pageSecs last
    have one := Nat.le_mul_of_pos_left device.pageSecs device.totalPages_pos
    rw [Nat.succ_mul]
    omega
  have secs : ∀ page, page * pageSize / n.ssd.sp.secsz = page * device.pageSecs := by
    intro page
    rw [secsz, Nat.mul_div_assoc _ sectors]
    rfl
  have bytes : it.1 * pageSize + (it.2 - it.1 + 1) * pageSize = (it.2 + 1) * pageSize := by
    rw [← Nat.add_mul]
    congr 1
    omega
  have slba : (dispatchRequest now n ((it.2 - it.1 + 1) * pageSize) (it.1 * pageSize)).slba =
      it.1 * device.pageSecs := secs it.1
  have nlb : (dispatchRequest now n ((it.2 - it.1 + 1) * pageSize) (it.1 * pageSize)).nlb =
      (it.2 + 1) * device.pageSecs - it.1 * device.pageSecs := by
    change (it.1 * pageSize + (it.2 - it.1 + 1) * pageSize) / n.ssd.sp.secsz -
      it.1 * pageSize / n.ssd.sp.secsz = _
    rw [bytes, secs, secs]
  change ((znsRead now n (dispatchRequest now n ((it.2 - it.1 + 1) * pageSize)
    (it.1 * pageSize))).map Prod.fst).isSome ↔ _
  generalize dispatchRequest now n ((it.2 - it.1 + 1) * pageSize) (it.1 * pageSize) = req
    at slba nlb
  have lastEq : lastSector req.slba req.nlb = (it.2 + 1) * device.pageSecs - 1 := by
    rw [lastSector_eq (by omega) (by omega), slba, nlb]
    omega
  have split : (it.2 + 1) * device.pageSecs = it.2 * device.pageSecs + device.pageSecs :=
    Nat.succ_mul ..
  have lastLow : it.2 * device.pageSecs ≤ lastSector req.slba req.nlb := by omega
  have lastHigh : lastSector req.slba req.nlb < (it.2 + 1) * device.pageSecs := by omega
  have startHigh : req.slba < (it.1 + 1) * device.pageSecs := by
    rw [slba, Nat.succ_mul]
    omega
  have ends := simulates.byLba_isSome_iff sectors last lastLow lastHigh
  have starts := simulates.byLba_isSome_iff sectors (le.trans last) slba.ge startHigh
  rw [Option.isSome_map, znsRead, ← ends]
  cases stop : znsGetZoneByLba n (lastSector req.slba req.nlb) with
  | none =>
      cases znsGetZoneByLba n req.slba with
      | none => rfl
      | some zoneStart => rfl
  | some zoneEnd =>
      rw [stop] at ends
      obtain ⟨zoneStart, start⟩ := Option.isSome_iff_exists.mp
        (starts.mpr (le.trans_lt (ends.mp rfl)))
      rw [start]
      rfl

end Device

namespace MemoryManager

variable {device : Device} {m m' : MemoryManager}

/-! ## The levels of stored tables -/

/-- Stored tables are on the levels of the page tables. -/
def Leveled (m : MemoryManager) : Prop :=
  ∀ t, m.Live t → t.1 < m.levels

theorem Leveled.evicted (leveled : m.Leveled) (same : m.SameLive m') (waited : m.Waited m') :
    m'.Leveled := by
  intro t live
  rw [waited.levels]
  exact leveled t ((same t).mp live)

theorem Leveled.entered (leveled : m.Leveled) {level : Nat} (known : level < m.levelsWith level)
    (num s : Nat) : (m.entered level num s).Leveled := by
  intro t live
  change t.1 < m.levelsWith level
  by_cases same : t = (level, num)
  · subst same
    exact known
  · change (Function.update m.mappingTable (level, num) (some s) t).isSome at live
    rw [Function.update_of_ne same] at live
    have less := leveled t live
    rw [levelsWith]
    split
    · exact Nat.lt_succ_of_lt less
    · exact less

theorem Leveled.appendTable (leveled : m.Leveled) (roles : m.Roles device none)
    (nonempty : m.emptyZone.empty = false) (level num : Nat) :
    Ends Leveled (fun _ => True) (m.appendTable level num) := by
  apply m.appendTable_ends roles.wf nonempty
  · intro full opened pool known
    exact Leveled.entered leveled known num _
  · exact fun _ _ _ => trivial

/-- A read of a stored table stores nothing else. -/
theorem Leveled.read (leveled : m.Leveled) {t : TableId} (live : m.Live t)
    (levels : m'.levels = m.levels)
    (mapping : m'.mappingTable = Function.update m.mappingTable t (some (m.location t))) :
    m'.Leveled := by
  intro other live'
  rw [Live, mapping, live.update_location] at live'
  rw [levels]
  exact leveled other live'

theorem Leveled.exec (leveled : m.Leveled) (roles : m.Roles device none)
    (books : m.Books device none []) {op : Op} (allowed : m.Allowed op)
    (iter : Finset Nat → List Nat) (fuel : Nat) :
    Ends Leveled (fun _ => True) (m.exec device iter fuel op) := by
  cases op with
  | writeTable level num =>
      refine (books.evictLoop_waited roles iter fuel).bind ?_
      rintro m₁ - ⟨⟨⟨roles', -, same⟩, waited⟩, nonempty⟩
      exact (leveled.evicted same waited).appendTable roles' nonempty level num
  | getValue level num offset length =>
      rw [exec_getValue, getValue_eq m (leveled (level, num) allowed)]
      exact leveled.read allowed rfl rfl
  | readTable level num offset length =>
      rw [exec_readTable, readTable_eq m (leveled (level, num) allowed)]
      exact leveled.read allowed rfl rfl
  | deleteTable level num =>
      rw [exec_deleteTable]
      by_cases known : level < m.levels
      · rw [deleteTable_eq m device known]
        split
        · exact trivial
        · cases located : m.mappingTable (level, num) with
          | none => exact leveled
          | some s =>
              intro t live
              change (Function.update m.mappingTable (level, num) none t).isSome at live
              apply leveled t
              by_cases same : t = (level, num)
              · subst same
                rw [Function.update_self] at live
                cases live
              · rwa [Function.update_of_ne same] at live
      · rw [MemoryManager.deleteTable, if_pos (Nat.le_of_not_lt known)]
        exact trivial
  | tryReset =>
      have both : Ends (fun m' => (m'.Roles device none ∧ m'.Books device none [] ∧
          m.SameLive m') ∧ m.Waited m') _ (m.tryReset device iter) :=
        ((evictable_books m).and (evictable_waited m)).tryReset
          ⟨⟨roles, books, fun _ => Iff.rfl⟩, Waited.refl m⟩ fun _ _ => trivial
      exact both.imp (fun _ holds => leveled.evicted holds.1.2.2 holds.2) fun _ _ => trivial
  | evictZone =>
      have both : Ends (fun m' => (m'.Roles device none ∧ m'.Books device none [] ∧
          m.SameLive m') ∧ m.Waited m') _ (m.evictZone device iter) :=
        ((evictable_books m).and (evictable_waited m)).evictZone
          ⟨⟨roles, books, fun _ => Iff.rfl⟩, Waited.refl m⟩ fun _ _ => trivial
      exact both.imp (fun _ holds => leveled.evicted holds.1.2.2 holds.2) fun _ _ => trivial

theorem leveled_new (built : new device = some m) : m.Leveled := by
  intro t live
  exact absurd (((recorded_new built).live t).mp live) (Set.notMem_empty t)

theorem leveled_of_reachable (reachable : (storeSystem device).Reachable m) : m.Leveled :=
  System.invariant_of_reachable_with
    (K := fun m => m.Roles device none ∧ m.Books device none [])
    (fun _ reached => books_of_reachable reached)
    (fun _ built => leveled_new built)
    (fun _ _ _ ⟨roles, books⟩ leveled ⟨allowed, iter, fuel, _, ok⟩ =>
      (leveled.exec roles books allowed iter fuel).of_ok ok)
    reachable

/-! ## Reads of a table -/

/-- All pages that a read of a table at `s` looks up, caches or reads have bytes that it is
asked for and lie in the slot of the table, and the simulator serves the reads. -/
structure Confined (device : Device) (s offset length : Nat) (lru : LruCache) : Prop where
  accessed : ∀ access ∈ accesses s offset length lru,
    Meets pageSize (s + offset) (s + offset + length) access.page
  read : ∀ it ∈ (lookup s offset length lru).1, ∀ page, it.1 ≤ page → page ≤ it.2 →
    Meets pageSize (s + offset) (s + offset + length) page
  inSlot : ∀ access ∈ accesses s offset length lru, InSlot s access.page
  served : ∀ n, device.Simulates n → ∀ now, ∀ it ∈ (lookup s offset length lru).1,
    (femuRead now n ((it.2 - it.1 + 1) * pageSize) (it.1 * pageSize)).isSome

variable {zone k : Nat}

/-- The end of a slot. -/
theorem slot_add_sstableSize (device : Device) (zone k : Nat) :
    device.slot zone k + sstableSize =
      (device.slot zone k / pageSize + pagesPerSlot) * pageSize := by
  rw [device.slot_div_pageSize, device.slot_eq, sstableSize_eq_pages]
  ring

@[simp]
theorem slot_mod_pageSize (device : Device) (zone k : Nat) :
    device.slot zone k % pageSize = 0 := by
  rw [device.slot_eq, sstableSize_eq_pages, Nat.mul_right_comm]
  exact Nat.mul_mod_left ..

/-- A slot ends on the device. -/
theorem slot_pages_le (zoneLt : zone < device.zoneNum) (kLt : k < device.tables) :
    device.slot zone k / pageSize + pagesPerSlot ≤ device.totalPages := by
  rw [device.slot_div_pageSize, ← Nat.mul_succ, Device.totalPages, Nat.mul_comm _ pagesPerSlot]
  apply Nat.mul_le_mul_left
  calc
    zone * device.tables + k + 1 ≤ zone * device.tables + device.tables :=
      Nat.add_le_add_left kLt _
    _ = (zone + 1) * device.tables := (Nat.succ_mul ..).symm
    _ ≤ device.zoneNum * device.tables := Nat.mul_le_mul_right _ zoneLt

theorem lastPage_le (within : offset + length ≤ sstableSize) :
    lastPage (device.slot zone k) offset length ≤
      device.slot zone k / pageSize + pagesPerSlot := by
  have ends := slot_add_sstableSize device zone k
  apply Nat.div_le_of_le_mul
  rw [Nat.mul_comm, ← ends, Nat.add_assoc]
  exact Nat.add_le_add_left within _

/-- A read stays in the slot unless it ends where the slot ends. -/
theorem inSlot_iff (lru : LruCache) :
    (∀ access ∈ accesses (device.slot zone k) offset length lru,
        InSlot (device.slot zone k) access.page) ↔ offset + length < sstableSize := by
  have ends := slot_add_sstableSize device zone k
  have last : lastPage (device.slot zone k) offset length <
      device.slot zone k / pageSize + pagesPerSlot ↔ offset + length < sstableSize := by
    rw [lastPage, Nat.div_lt_iff_lt_mul pageSize_pos, ← ends, Nat.add_assoc]
    exact Nat.add_lt_add_iff_left
  rw [← last]
  constructor
  · intro inside
    exact (inside _ (get_mem_accesses (firstPage_le_lastPage ..) (Nat.le_refl _))).2
  · intro less access mem
    obtain ⟨ge, le⟩ := page_of_mem_accesses mem
    constructor
    · exact (Nat.div_le_div_right (Nat.le_add_right ..)).trans ge
    · exact le.trans_lt less

/-- The simulator serves the reads unless one of them goes beyond the device. -/
theorem served_iff (sectors : device.secsz ∣ pageSize) (zoneLt : zone < device.zoneNum)
    (kLt : k < device.tables) (within : offset + length ≤ sstableSize) (lru : LruCache) :
    (∀ n, device.Simulates n → ∀ now, ∀ it ∈ (lookup (device.slot zone k) offset length lru).1,
        (femuRead now n ((it.2 - it.1 + 1) * pageSize) (it.1 * pageSize)).isSome) ↔
      ∀ it ∈ (lookup (device.slot zone k) offset length lru).1, it.2 < device.totalPages := by
  have total : lastPage (device.slot zone k) offset length ≤ device.totalPages :=
    (lastPage_le within).trans (slot_pages_le zoneLt kLt)
  constructor
  · intro served it mem
    obtain ⟨-, le, last⟩ := intervals_lookup it mem
    have simulates : device.Simulates (femuInit device.toSsdConfig device.devsz) :=
      ⟨rfl, rfl, rfl, rfl⟩
    exact (simulates.femuRead_isSome_iff sectors le (last.trans total) 0).mp
      (served _ simulates 0 it mem)
  · intro inside n simulates now it mem
    obtain ⟨-, le, last⟩ := intervals_lookup it mem
    exact (simulates.femuRead_isSome_iff sectors le (last.trans total) now).mpr (inside it mem)

/-- A read is confined exactly if it does not end where a page ends. -/
theorem confined_iff (sectors : device.secsz ∣ pageSize) (zoneLt : zone < device.zoneNum)
    (kLt : k < device.tables) (within : offset + length ≤ sstableSize) (lru : LruCache) :
    Confined device (device.slot zone k) offset length lru ↔
      (offset + length) % pageSize ≠ 0 := by
  have ends : (device.slot zone k + offset + length) % pageSize = (offset + length) % pageSize := by
    rw [Nat.add_assoc, Nat.add_mod, slot_mod_pageSize, Nat.zero_add, Nat.mod_mod]
  have meets := @forall_meets_iff pageSize (device.slot zone k + offset)
    (device.slot zone k + offset + length) pageSize_pos (Nat.le_add_right ..)
  rw [ends] at meets
  constructor
  · intro confined
    exact meets.mp (forall_accesses_iff.mp confined.accessed)
  · intro inner
    have all := meets.mpr inner
    have less : offset + length < sstableSize := by
      apply Nat.lt_of_le_of_ne within
      rintro full
      rw [full] at inner
      exact inner (by decide)
    have inSlot : ∀ access ∈ accesses (device.slot zone k) offset length lru,
        InSlot (device.slot zone k) access.page := (inSlot_iff lru).mpr less
    refine ⟨forall_accesses_iff.mpr all, ?_, inSlot, ?_⟩
    · intro it mem page ge le
      obtain ⟨first, -, last⟩ := intervals_lookup it mem
      exact all page (first.trans ge) (le.trans last)
    · apply (served_iff sectors zoneLt kLt within lru).mpr
      intro it mem
      obtain ⟨first, le, last⟩ := intervals_lookup it mem
      have inside := (inSlot _ (get_mem_accesses (first.trans le) last)).2
      exact inside.trans_le (slot_pages_le zoneLt kLt)

/-- Whatever the cache holds, `getValue` on a stored table returns, and it looks up, caches
and reads only pages with bytes that it is asked for exactly if these do not end where a page
ends.  Pages outside the slot are looked up exactly if the bytes end where the slot ends, and
only then can a read go beyond the device. -/
theorem getValue_confined_iff (sectors : device.secsz ∣ pageSize)
    (reachable : (storeSystem device).Reachable m) {level num : Nat}
    (located : m.mappingTable (level, num) = some s) (within : offset + length ≤ sstableSize)
    (lru : LruCache) :
    (∃ m', MemoryManager.getValue { m with pageCache := lru } level num offset length = .ok m' ∧
        m'.pageCache = (accesses s offset length lru).foldl LruCache.access lru ∧
        m'.calls = ((lookup s offset length lru).1.map readCall).reverse ++
          (m.waits (level, num) ++ m.calls)) ∧
      (Confined device s offset length lru ↔ (offset + length) % pageSize ≠ 0) ∧
      ((∀ access ∈ accesses s offset length lru, InSlot s access.page) ↔
        offset + length < sstableSize) ∧
      ((∀ n, device.Simulates n → ∀ now, ∀ it ∈ (lookup s offset length lru).1,
          (femuRead now n ((it.2 - it.1 + 1) * pageSize) (it.1 * pageSize)).isSome) ↔
        ∀ it ∈ (lookup s offset length lru).1, it.2 < device.totalPages) := by
  obtain ⟨roles, books⟩ := books_of_reachable reachable
  have known : level < m.levels :=
    leveled_of_reachable reachable (level, num) (Option.isSome_iff_exists.mpr ⟨s, located⟩)
  have location : m.location (level, num) = s := by
    rw [MemoryManager.location, located, Option.getD_some]
  obtain ⟨zone, zoneLt, k, used, rfl⟩ := books.written located
  have kLt : k < device.tables := Nat.lt_of_lt_of_le used (roles.used_le zone)
  refine ⟨?_, confined_iff sectors zoneLt kLt within lru, inSlot_iff lru,
    served_iff sectors zoneLt kLt within lru⟩
  have result := MemoryManager.getValue_eq { m with pageCache := lru } known num offset length
  rw [show MemoryManager.location { m with pageCache := lru } (level, num) = _ from location]
    at result
  exact ⟨_, result, (foldl_accesses ..).symm, rfl⟩

/-- A read of the first bytes of a table on the small device. -/
theorem confined_of_first : ∃ m, storeRun device8G 1 [.writeTable 0 0] = some m ∧
    ∀ lru, Confined device8G 0 0 100 lru := by
  obtain ⟨m, ran, located⟩ := Option.map_eq_some_iff.mp
    (show (storeRun device8G 1 [.writeTable 0 0]).map (·.mappingTable (0, 0)) =
      some (some 0) by decide +kernel)
  refine ⟨m, ran, fun lru => ?_⟩
  exact (getValue_confined_iff ⟨32, rfl⟩ (reachable_of_storeRun ran) located (by decide)
    lru).2.1.mpr (by decide)

/-- A read of the last byte of a table looks up the first page of the next slot. -/
theorem not_confined : ¬∀ m, (storeSystem device512G).Reachable m → ∀ level num s,
    m.mappingTable (level, num) = some s → ∀ offset length, 1 ≤ length →
      offset + length ≤ sstableSize → ∀ lru, Confined device512G s offset length lru := by
  intro always
  obtain ⟨m, ran, located⟩ := Option.map_eq_some_iff.mp
    (show (storeRun device512G 1 [.writeTable 0 0]).map (·.mappingTable (0, 0)) =
      some (some 0) by decide +kernel)
  have confined := always m (reachable_of_storeRun ran) 0 0 0 located (sstableSize - 1) 1
    (by decide) (by decide) m.pageCache
  have next : .get 4096 ∈ accesses 0 (sstableSize - 1) 1 m.pageCache :=
    get_mem_accesses (by decide) (by decide)
  exact absurd (confined.inSlot _ next).2 (by decide)

end MemoryManager

end ZnsLsm.Pool
