import ZnsLsm.Pool.Bookkeeping

/-!
# Coherence of the page cache

A cached page should belong to the slot of a live table and have been read after the
last write of that slot.  `getValue` may cache a page behind the end of its table, and
a relocation does not purge the pages of the slots that it empties, so this holds only
for runs that do neither harm.
-/

namespace ZnsLsm.Pool

open ZnsLsm.Outcome ZnsLsm.Transition

namespace MemoryManager

/-! ## What `getValue` caches and reads -/

/-- The key lies in an interval to read, or in the batch that is being collected. -/
def Covered (batchLeft batchRight : Nat) (interval : List (Nat × Nat)) (key : Nat) : Prop :=
  (∃ it ∈ interval, it.1 ≤ key ∧ key ≤ it.2) ∨
    batchLeft ≠ npos ∧ batchLeft ≤ key ∧ key ≤ batchRight

theorem skipCached_spec (count page : Nat) {lru : LruCache} (linked : lru.Linked) :
    (skipCached count page lru).2.2.Linked ∧
      (∀ key, key ∈ (skipCached count page lru).2.2.keys ↔ key ∈ lru.keys) ∧
      page ≤ (skipCached count page lru).2.1 ∧
      (skipCached count page lru).2.1 + (skipCached count page lru).1 = page + count := by
  induction count generalizing page lru with
  | zero => exact ⟨linked, fun _ => Iff.rfl, Nat.le_refl _, rfl⟩
  | succ count ih =>
      simp only [skipCached]
      split
      · exact ⟨linked.get page, LruCache.mem_keys_get linked page, Nat.le_refl _, rfl⟩
      · obtain ⟨linked', keys, le, total⟩ := ih (page + 1) (linked.get page)
        refine ⟨linked', fun key => ?_, by omega, by omega⟩
        rw [keys, LruCache.mem_keys_get linked]

/-- Every page that the second loop caches is in an interval that it reads. -/
theorem fetchMissing_spec (old : Nat → Prop) (low high : Nat)
    (count page batchLeft batchRight : Nat) (interval : List (Nat × Nat)) {lru : LruCache}
    (linked : lru.Linked) (lowLe : low ≤ page) (leHigh : page + count ≤ high)
    (small : high ≤ npos) (batch : batchLeft ≠ npos → batchLeft ≤ page ∧ batchRight ≤ page)
    (known : ∀ key ∈ lru.keys,
      old key ∨ low ≤ key ∧ key < high ∧ Covered batchLeft batchRight interval key) :
    (fetchMissing count page batchLeft batchRight interval lru).2.Linked ∧
      ∀ key ∈ (fetchMissing count page batchLeft batchRight interval lru).2.keys,
        old key ∨ low ≤ key ∧ key < high ∧
          ∃ it ∈ (fetchMissing count page batchLeft batchRight interval lru).1,
            it.1 ≤ key ∧ key ≤ it.2 := by
  induction count generalizing page batchLeft batchRight interval lru with
  | zero =>
      refine ⟨linked, fun key mem => (known key mem).imp_right fun ⟨ge, lt, covered⟩ =>
        ⟨ge, lt, ?_⟩⟩
      simp only [fetchMissing]
      rcases covered with ⟨it, itMem, bounds⟩ | ⟨isBatch, bounds⟩
      · split
        · exact ⟨it, itMem, bounds⟩
        · exact ⟨it, List.mem_append_left _ itMem, bounds⟩
      · rw [if_neg isBatch]
        exact ⟨_, List.mem_append_right _ List.mem_cons_self, bounds⟩
  | succ count ih =>
      have pageNe : page ≠ npos := by omega
      have got := LruCache.mem_keys_get linked page
      simp only [fetchMissing]
      split
      · -- A miss extends the batch by the page.
        refine ih _ _ _ _ ((linked.get page).put page) (by omega) (by omega) ?_ ?_
        · intro _
          split
          · omega
          · rename_i isBatch
            have := batch isBatch
            omega
        · intro key mem
          rcases LruCache.mem_keys_put (linked.get page) mem with rfl | mem
          · refine .inr ⟨lowLe, by omega, .inr ⟨?_, ?_, Nat.le_refl _⟩⟩
            · split
              · exact pageNe
              · assumption
            · split
              · exact Nat.le_refl _
              · rename_i isBatch
                exact (batch isBatch).1
          · refine (known key ((got key).mp mem)).imp_right fun ⟨ge, lt, covered⟩ =>
              ⟨ge, lt, covered.imp_right fun ⟨isBatch, left, right⟩ => ?_⟩
            rw [if_neg isBatch]
            exact ⟨isBatch, left, right.trans (batch isBatch).2⟩
      · split
        · -- A hit closes the batch.
          rename_i isBatch
          refine ih _ _ _ _ (linked.get page) (by omega) (by omega)
            (fun absurd => (absurd rfl).elim) ?_
          intro key mem
          refine (known key ((got key).mp mem)).imp_right fun ⟨ge, lt, covered⟩ =>
            ⟨ge, lt, .inl ?_⟩
          rcases covered with ⟨it, itMem, bounds⟩ | ⟨-, bounds⟩
          · exact ⟨it, List.mem_append_left _ itMem, bounds⟩
          · exact ⟨_, List.mem_append_right _ List.mem_cons_self, bounds⟩
        · refine ih _ _ _ _ (linked.get page) (by omega) (by omega) ?_ fun key mem =>
            known key ((got key).mp mem)
          intro isBatch
          have := batch isBatch
          omega

/-- The first and the last page that `getValue` looks at. -/
def firstPage (s offset : Nat) : Nat :=
  (s + offset) / pageSize

def lastPage (s offset length : Nat) : Nat :=
  (s + offset + length) / pageSize

theorem lookup_spec {s offset length : Nat} {lru : LruCache} (linked : lru.Linked)
    (small : lastPage s offset length < npos) :
    (lookup s offset length lru).2.Linked ∧
      ∀ key ∈ (lookup s offset length lru).2.keys,
        key ∈ lru.keys ∨
          (firstPage s offset ≤ key ∧ key ≤ lastPage s offset length) ∧
            ∃ it ∈ (lookup s offset length lru).1, it.1 ≤ key ∧ key ≤ it.2 := by
  have ordered : firstPage s offset ≤ lastPage s offset length :=
    Nat.div_le_div_right (Nat.le_add_right ..)
  let start :=
    skipCached (lastPage s offset length + 1 - firstPage s offset) (firstPage s offset) lru
  obtain ⟨linked', keys, le, total⟩ := skipCached_spec
    (lastPage s offset length + 1 - firstPage s offset) (firstPage s offset) linked
  obtain ⟨fetched, covered⟩ := fetchMissing_spec (· ∈ lru.keys) (firstPage s offset)
    (lastPage s offset length + 1) start.1 start.2.1 npos npos [] linked' le
    (by simp only [start]; omega) (by omega)
    (fun absurd => (absurd rfl).elim) (fun key mem => .inl ((keys key).mp mem))
  refine ⟨fetched, fun key mem => (covered key mem).imp_right fun ⟨ge, lt, it⟩ => ?_⟩
  exact ⟨⟨ge, by omega⟩, it⟩

/-- `deleteTable` drops the pages of its range and no others. -/
theorem purge_spec (count page : Nat) {lru : LruCache} (linked : lru.Linked) :
    (purge count page lru).Linked ∧
      ∀ key, key ∈ (purge count page lru).keys ↔
        key ∈ lru.keys ∧ ¬(page ≤ key ∧ key < page + count) := by
  induction count generalizing page lru with
  | zero => exact ⟨linked, fun key => by simp [purge]⟩
  | succ count ih =>
      obtain ⟨linked', keys⟩ := ih (page + 1) (linked.del page)
      refine ⟨linked', fun key => ?_⟩
      rw [purge, keys, LruCache.mem_keys_del linked]
      constructor
      · rintro ⟨⟨mem, ne⟩, outside⟩
        exact ⟨mem, by omega⟩
      · rintro ⟨mem, outside⟩
        exact ⟨⟨mem, by omega⟩, by omega⟩

end MemoryManager

/-! ## The property -/

namespace Call

/-- The call is a `femu_write` of the slot at `s`, issued now or handed to a worker. -/
def Writes (s : Nat) : Call → Prop
  | .write offset => offset = s
  | .enqueue _ _ offset => offset = s
  | _ => False

/-- The call is a `femu_read` that covers a page. -/
def Reads (page : Nat) : Call → Prop
  | .read len offset => offset ≤ page * pageSize ∧ (page + 1) * pageSize ≤ offset + len
  | _ => False

end Call

/-- Among the calls, newest first, the page was read after the last write of the slot. -/
def FreshRead (calls : List Call) (s page : Nat) : Prop :=
  ∃ newer read older, calls = newer ++ read :: older ∧ read.Reads page ∧
    ∀ call ∈ newer, ¬call.Writes s

theorem FreshRead.append {calls : List Call} {s page : Nat}
    (fresh : FreshRead calls s page) (new : List Call) (harmless : ∀ call ∈ new, ¬call.Writes s) :
    FreshRead (new ++ calls) s page := by
  obtain ⟨newer, read, older, rfl, reads, noWrite⟩ := fresh
  refine ⟨new ++ newer, read, older, by rw [List.append_assoc], reads, fun call mem => ?_⟩
  exact (List.mem_append.mp mem).elim (harmless call) (noWrite call)

/-- A page that was freshly read was read after every write of its slot. -/
theorem FreshRead.read_after {newer older : List Call} {write : Call} {s page : Nat}
    (fresh : FreshRead (newer ++ write :: older) s page) (writes : write.Writes s) :
    ∃ call ∈ newer, call.Reads page := by
  obtain ⟨newer', read, older', same, reads, noWrite⟩ := fresh
  rcases List.append_eq_append_iff.mp same with ⟨front, eq, eq'⟩ | ⟨front, eq, eq'⟩
  · cases front with
    | nil =>
        obtain ⟨rfl, -⟩ := List.cons.inj eq'
        cases write <;> simp [Call.Writes, Call.Reads] at writes reads
    | cons first front =>
        obtain ⟨rfl, -⟩ := List.cons.inj eq'
        exact absurd writes (noWrite _ (eq ▸ List.mem_append_right _ List.mem_cons_self))
  · cases front with
    | nil =>
        obtain ⟨rfl, -⟩ := List.cons.inj eq'
        cases read <;> simp [Call.Writes, Call.Reads] at writes reads
    | cons first front =>
        obtain ⟨rfl, -⟩ := List.cons.inj eq'
        exact ⟨_, eq ▸ List.mem_append_right _ List.mem_cons_self, reads⟩

/-- One of the newest calls read the page, and none of them wrote the slot. -/
theorem FreshRead.of_mem {new calls : List Call} {read : Call} {s page : Nat}
    (mem : read ∈ new) (reads : read.Reads page) (harmless : ∀ call ∈ new, ¬call.Writes s) :
    FreshRead (new ++ calls) s page := by
  obtain ⟨newer, older, rfl⟩ := List.append_of_mem mem
  refine ⟨newer, read, older ++ calls, by simp, reads, fun call mem => ?_⟩
  exact harmless call (List.mem_append_left _ mem)

theorem readCall_reads {it : Nat × Nat} {page : Nat} (bounds : it.1 ≤ page ∧ page ≤ it.2) :
    (MemoryManager.readCall it).Reads page := by
  refine ⟨Nat.mul_le_mul_right pageSize bounds.1, ?_⟩
  rw [← Nat.add_mul]
  exact Nat.mul_le_mul_right pageSize (by omega)

namespace MemoryManager

/-- Every cached page lies in the slot of a live table and was read after the last
write of the slot. -/
def CacheCoherent (m : MemoryManager) : Prop :=
  ∀ page ∈ m.pageCache.keys, ∃ t s,
    m.mappingTable t = some s ∧ InSlot s page ∧ FreshRead m.calls s page

/-- The invariant. -/
structure Coherent (m : MemoryManager) : Prop where
  linked : m.pageCache.Linked
  coherent : m.CacheCoherent

section Coherent

variable {device : Device} {hand : Option Nat} {m m' : MemoryManager}

/-- Calls that write nothing leave the cache coherent. -/
theorem Coherent.extend (coherent : m.Coherent) (new : List Call)
    (cache : m'.pageCache = m.pageCache) (mapping : m'.mappingTable = m.mappingTable)
    (calls : m'.calls = new ++ m.calls) (harmless : ∀ call ∈ new, ∀ s, ¬call.Writes s) :
    m'.Coherent where
  linked := cache ▸ coherent.linked
  coherent page mem := by
    rw [cache] at mem
    obtain ⟨t, s, located, inside, fresh⟩ := coherent.coherent page mem
    refine ⟨t, s, mapping ▸ located, inside, ?_⟩
    rw [calls]
    exact fresh.append new fun call mem => harmless call mem s

theorem waits_write_nothing (m : MemoryManager) (t : TableId) :
    ∀ call ∈ m.waits t, ∀ s, ¬call.Writes s := by
  intro call mem s
  obtain ⟨ticket, _, rfl⟩ := List.mem_map.mp mem
  simp [Call.Writes]

/-! ## Emptying a zone without cached pages -/

/-- No page of the zone is cached. -/
def Uncached (device : Device) (m : MemoryManager) (zone : Nat) : Prop :=
  ∀ page ∈ m.pageCache.keys, device.zoneOfPage page ≠ zone

/-- Moving a table out of a zone without cached pages. -/
theorem Coherent.place {zone toZone source : Nat} {rest : List Nat} (coherent : m.Coherent)
    (uncached : m.Uncached device zone) (books : m.Books device (some zone) (source :: rest))
    (roles : m.Roles device (some toZone))
    (room : (m.zoneMetas toZone).used < device.tables) : (m.place toZone source).Coherent := by
  obtain ⟨⟨k, lt, rfl⟩, live⟩ := (books.mem_rest rfl).mp List.mem_cons_self
  obtain ⟨moved, at_source⟩ := Option.ne_none_iff_exists'.mp live
  have free := books.free_at_writePtr roles room
  rw [MemoryManager.place, moveTable_eq]
  refine ⟨coherent.linked, fun page mem => ?_⟩
  obtain ⟨t, s, located, inside, fresh⟩ := coherent.coherent page mem
  have notMoved : t ≠ m.tableAt (device.slot zone k) := fun eq => by
    have name : m.tableAt (device.slot zone k) = moved := by
      rw [MemoryManager.tableAt, at_source]
      rfl
    rw [eq, name, (books.inverse moved _).mpr at_source] at located
    cases located
    have inZone : k < device.tables := Nat.lt_of_lt_of_le lt (roles.used_le zone)
    exact uncached page mem (Device.zoneOfPage_of_inSlot inZone inside)
  have elsewhere : s ≠ (m.zoneMetas toZone).writePtr := fun eq => by
    rw [← eq, (books.inverse t s).mp located] at free
    cases free
  refine ⟨t, s, ?_, inside, ?_⟩
  · exact (Function.update_of_ne notMoved ..).trans located
  · exact fresh.append [.write (m.zoneMetas toZone).writePtr] (by
      simpa [Call.Writes] using elsewhere.symm)

theorem relocating_coherent (zone : Nat) (zoneMeta : ZoneMeta) (toReset : Finset Nat) :
    Relocating device fun hand rest m =>
      m.Emptying device zone zoneMeta toReset hand ∧ m.Books device (some zone) rest ∧
        m.Coherent ∧ m.Uncached device zone where
  wf holds := holds.1.roles.wf
  placed holds := holds.1.roles.placed
  take := fun ⟨emptying, books, coherent, uncached⟩ got =>
    ⟨emptying.take got, books.congr rfl rfl rfl books.clean,
      coherent.extend [] rfl rfl rfl (by simp), uncached⟩
  place := by
    intro source rest toZone m ⟨emptying, books, coherent, uncached⟩ room
    have used := (emptying.roles.placed toZone).lt_end_iff.mp room
    refine ⟨emptying.place room source, (books.place emptying.roles emptying.other used).1,
      coherent.place uncached books emptying.roles used, ?_⟩
    rw [MemoryManager.place, moveTable_eq]
    exact uncached
  fill := fun ⟨emptying, books, coherent, uncached⟩ written =>
    ⟨emptying.fill written, books.congr rfl rfl rfl books.clean,
      coherent.extend [] rfl rfl rfl (by simp), uncached⟩
  back := fun ⟨emptying, books, coherent, uncached⟩ room =>
    ⟨emptying.back room, books.congr rfl rfl rfl books.clean,
      coherent.extend [] rfl rfl rfl (by simp), uncached⟩

/-- The scan reads and waits, and leaves cache and tables alone. -/
theorem Coherent.scanZone (coherent : m.Coherent) (zone : Nat) :
    (m.scanZone zone).2.Coherent ∧ (m.scanZone zone).2.pageCache = m.pageCache := by
  obtain ⟨m', ⟨coherent', cache⟩, same | same⟩ := m.scanZone_rule
    (P := fun _ m' => m'.Coherent ∧ m'.pageCache = m.pageCache)
    ⟨coherent.extend [] rfl rfl rfl (by simp), rfl⟩
    (fun {_ m' table} _ ⟨coherent', cache⟩ => by
      refine ⟨coherent'.extend (.read sstableSize table :: m'.waits (m'.tableAt table))
        rfl rfl rfl ?_, cache⟩
      rintro call (_ | ⟨_, mem⟩)
      · simp [Call.Writes]
      · exact waits_write_nothing m' _ call mem)
  · rw [same]
    exact ⟨coherent', cache⟩
  · rw [same]
    exact ⟨coherent'.extend [.zoneErr .readValidWrong] rfl rfl rfl
      (by simp [Call.Writes]), cache⟩

theorem Coherent.rewriteZone (coherent : m.Coherent) {zone : Nat}
    (uncached : m.Uncached device zone) (books : m.Books device none [])
    (roles : m.Roles device none) (full : zone ∈ m.fullZone) :
    Ends Coherent (fun _ => True) (m.rewriteZone zone) := by
  have scanned := roles.scanZone zone
  obtain ⟨coherent', cache⟩ := coherent.scanZone zone
  refine ((relocating_coherent zone _ m.toReset).rewriteZone
    ⟨⟨scanned.1, scanned.2.1 ▸ full, rfl, scanned.2.2⟩, (books.scanZone roles full).1,
      coherent', ?_⟩).imp (fun _ holds => holds.2.2.1) fun _ _ => trivial
  rw [Uncached, cache]
  exact uncached

/-- The reset moves tables to other zones. -/
def ResetCall.Relocates (device : Device) (call : ResetCall) : Prop :=
  let zoneMeta := call.state.zoneMetas call.zone
  let maximumTable := device.zoneCap / sstableSize
  zoneMeta.endPtr ≤ zoneMeta.writePtr ∧ zoneMeta.validTableNum ≠ 0 ∧
    zoneMeta.validTableNum ≠ maximumTable ∧
    (zoneMeta.validTableNum * 5 < maximumTable ∨ call.force = true)

/-- The reset does not move tables out of a zone with cached pages. -/
def ResetCall.Harmless (device : Device) (call : ResetCall) : Prop :=
  call.Relocates device → call.state.Uncached device call.zone

theorem Coherent.resetZone (coherent : m.Coherent) (books : m.Books device none [])
    (roles : m.Roles device none) {zone : Nat} {force : Bool}
    (harmless : ResetCall.Harmless device ⟨m, zone, force⟩) :
    Ends Coherent (fun _ => True) (m.resetZone device zone force) := by
  have erase : ∀ m' : MemoryManager, m'.Coherent → (m'.eraseZone device zone).Coherent :=
    fun m' coherent' => coherent'.extend [.reset device.zoneCap (m'.zoneMetas zone).start]
      rfl rfl rfl (by simp [Call.Writes])
  simp only [MemoryManager.resetZone]
  split
  · exact coherent
  · rename_i notWritten
    have written := Nat.not_lt.mp notWritten
    have full : zone ∈ m.fullZone := (roles.full_iff zone (by simp)).mpr written
    simp only [if_pos full]
    split
    · split
      · exact trivial
      · exact coherent
    · rename_i notAll
      split
      · rename_i chosen
        split
        · rename_i some
          exact (coherent.rewriteZone (harmless ⟨written, some, notAll, chosen⟩) books roles
            full).bind fun m' _ coherent' => erase m' coherent'
        · exact erase m coherent
      · exact coherent

theorem evictable_coherent :
    Evictable device (ResetCall.Harmless device)
      (fun m => (m.Roles device none ∧ m.Books device none []) ∧ m.Coherent)
      (fun _ => True) where
  reset := by
    intro m zone force ⟨⟨roles, books⟩, coherent⟩ harmless
    refine (((roles.resetZone zone force).and (books.resetZone roles zone force)).and
      (coherent.resetZone books roles harmless)).imp ?_ fun _ _ => trivial
    exact fun m' ⟨⟨roles', books'⟩, coherent'⟩ => ⟨⟨roles'.1, books'.1⟩, coherent'⟩
  clear := fun ⟨⟨roles, books⟩, coherent⟩ =>
    ⟨⟨roles.congr rfl rfl rfl rfl rfl roles.quiet, books.congr rfl rfl rfl books.clean⟩,
      coherent.extend [] rfl rfl rfl (by simp)⟩
  idle _ _ := trivial

/-! ## Writing, deleting and reading -/

/-- A table that is not live is written to a slot without cached pages. -/
theorem Coherent.appendTable (coherent : m.Coherent) (books : m.Books device none [])
    (roles : m.Roles device none) (nonempty : m.emptyZone.empty = false) {level num : Nat}
    (unmapped : m.mappingTable (level, num) = none) :
    Ends Coherent (fun _ => True) (m.appendTable level num) := by
  have mem := roles.getD_mem
  obtain ⟨lt, -, room⟩ := roles.open mem
  have free := books.free_at_writePtr roles room
  apply m.appendTable_ends roles.wf nonempty
  · intro full opened pool _
    generalize m.openZone.getD m.whichZone 0 = zone at free ⊢
    refine ⟨coherent.linked, fun page mem => ?_⟩
    obtain ⟨t, s, located, inside, fresh⟩ := coherent.coherent page mem
    have other : t ≠ (level, num) := fun eq => by
      rw [eq, unmapped] at located
      cases located
    have elsewhere : s ≠ (m.zoneMetas zone).writePtr := fun eq => by
      rw [← eq, (books.inverse t s).mp located] at free
      cases free
    refine ⟨t, s, (Function.update_of_ne other ..).trans located, inside, ?_⟩
    exact fresh.append [.enqueue _ _ (m.zoneMetas zone).writePtr] (by
      simpa [Call.Writes] using elsewhere.symm)
  · exact fun _ _ _ => trivial

/-- The pages of a deleted table leave the cache. -/
theorem Coherent.dropTable (coherent : m.Coherent) {t : TableId} {s : Nat}
    (located : m.mappingTable t = some s) : (m.dropTable device t s).Coherent := by
  obtain ⟨linked, keys⟩ := purge_spec ((s + sstableSize) / pageSize + 1 - s / pageSize)
    (s / pageSize) coherent.linked
  have slotPages : (s + sstableSize) / pageSize = s / pageSize + pagesPerSlot := by
    rw [sstableSize_eq_pages, Nat.add_mul_div_right _ _ pageSize_pos]
  refine ⟨linked, fun page mem => ?_⟩
  obtain ⟨kept, outside⟩ := (keys page).mp mem
  obtain ⟨t', s', located', inside, fresh⟩ := coherent.coherent page kept
  have other : t' ≠ t := fun eq => by
    rw [eq, located] at located'
    cases located'
    rw [slotPages] at outside
    exact outside ⟨inside.1, by have := inside.2; omega⟩
  refine ⟨t', s', (Function.update_of_ne other ..).trans located', inside, ?_⟩
  simp only [MemoryManager.dropTable]
  split
  · exact fresh.append [.zoneErr .noTable] (by simp [Call.Writes])
  · exact fresh

/-- Pages that an operation may bring into the cache. -/
def Touches (m : MemoryManager) : Op → Nat → Prop
  | .getValue level num offset length, page =>
      firstPage (m.location (level, num)) offset ≤ page ∧
        page ≤ lastPage (m.location (level, num)) offset length
  | _, _ => False

/-- The page lies in the slot of a live table. -/
def LivePage (m : MemoryManager) (page : Nat) : Prop :=
  ∃ t s, m.mappingTable t = some s ∧ InSlot s page

/-- Pages of slots are small numbers. -/
theorem Books.page_lt (books : m.Books device none []) (roles : m.Roles device none) {page : Nat}
    (live : m.LivePage page) : page < npos := by
  obtain ⟨t, s, located, inside⟩ := live
  obtain ⟨zone, zoneLt, k, lt, rfl⟩ := books.written located
  have slotLt : zone * device.tables + k < device.zoneNum * device.tables := by
    have kLt : k < device.tables := Nat.lt_of_lt_of_le lt (roles.used_le zone)
    calc
      zone * device.tables + k < zone * device.tables + device.tables :=
        Nat.add_lt_add_left kLt _
      _ = (zone + 1) * device.tables := (Nat.succ_mul ..).symm
      _ ≤ device.zoneNum * device.tables := Nat.mul_le_mul_right _ zoneLt
  have pageLt : page < pagesPerSlot * (device.zoneNum * device.tables) := by
    have below := Device.div_of_inSlot inside
    rw [Nat.mul_comm]
    exact Nat.lt_mul_of_div_lt (below.trans_lt slotLt) (by decide)
  exact Nat.lt_trans (Nat.lt_trans pageLt device.pages_lt) (by decide)

theorem Coherent.getValue (coherent : m.Coherent) (books : m.Books device none [])
    (roles : m.Roles device none) {level num offset length : Nat} (live : m.Live (level, num))
    (touched : ∀ page, m.Touches (.getValue level num offset length) page → m.LivePage page) :
    Ends Coherent (fun _ => True) (m.getValue level num offset length) := by
  by_cases known : level < m.levels
  · have same := live.update_location
    have ordered : firstPage (m.location (level, num)) offset ≤
        lastPage (m.location (level, num)) offset length :=
      Nat.div_le_div_right (Nat.le_add_right ..)
    have small := books.page_lt roles (touched _ ⟨ordered, Nat.le_refl _⟩)
    obtain ⟨linked, covered⟩ := lookup_spec coherent.linked small
    rw [getValue_eq m known, same]
    refine ⟨linked, fun page mem => ?_⟩
    have noWrites : ∀ s, ∀ call ∈ ((lookup (m.location (level, num)) offset length
        m.pageCache).1.map readCall).reverse, ¬call.Writes s := by
      intro s call mem
      obtain ⟨it, -, rfl⟩ := List.mem_map.mp (List.mem_reverse.mp mem)
      simp [readCall, Call.Writes]
    rcases covered page mem with old | ⟨range, it, itMem, bounds⟩
    · obtain ⟨t, s, located, inside, fresh⟩ := coherent.coherent page old
      refine ⟨t, s, located, inside, ?_⟩
      exact (fresh.append _ fun call mem => waits_write_nothing m _ call mem s).append _
        (noWrites s)
    · obtain ⟨t, s, located, inside⟩ := touched page range
      refine ⟨t, s, located, inside, ?_⟩
      exact .of_mem (List.mem_reverse.mpr (List.mem_map_of_mem itMem)) (readCall_reads bounds)
        (noWrites s)
  · simp only [MemoryManager.getValue, Nat.not_lt.mp known, if_true]
    exact trivial

theorem Coherent.readTable (coherent : m.Coherent) {level num : Nat}
    (live : m.Live (level, num)) (offset length : Nat) :
    Ends Coherent (fun _ => True) (m.readTable level num offset length) := by
  by_cases known : level < m.levels
  · have same := live.update_location
    rw [readTable_eq m known, same]
    refine coherent.extend
      (tableCall (m.location (level, num)) offset length :: m.waits (level, num)) rfl rfl rfl ?_
    rintro call (_ | ⟨_, mem⟩)
    · simp [tableCall, Call.Writes]
    · exact waits_write_nothing m _ call mem
  · simp only [MemoryManager.readTable, Nat.not_lt.mp known, if_true]
    exact trivial

theorem Coherent.deleteTable (coherent : m.Coherent) (level num : Nat) :
    Ends Coherent (fun _ => True) (m.deleteTable device level num) := by
  by_cases known : level < m.levels
  · rw [deleteTable_eq m device known]
    split
    · exact trivial
    · cases located : m.mappingTable (level, num) with
      | none => exact coherent
      | some s => exact coherent.dropTable located
  · simp only [MemoryManager.deleteTable, Nat.not_lt.mp known, if_true]
    exact trivial

/-- An operation that touches live pages only and does not move tables out of zones
with cached pages. -/
structure Gentle (device : Device) (iter : Finset Nat → List Nat) (fuel : Nat)
    (m : MemoryManager) (op : Op) : Prop where
  allowed : m.Allowed op
  touches : ∀ page, m.Touches op page → m.LivePage page
  resets : ∀ call ∈ m.resetCalls device iter fuel op, call.Harmless device

theorem Coherent.exec (coherent : m.Coherent) (books : m.Books device none [])
    (roles : m.Roles device none) {iter : Finset Nat → List Nat} {fuel : Nat} {op : Op}
    (gentle : m.Gentle device iter fuel op) :
    Ends Coherent (fun _ => True) (m.exec device iter fuel op) := by
  cases op with
  | writeTable level num =>
      have unmapped : ¬m.Live (level, num) := gentle.allowed.1
      have evicted := ((evictable_coherent.evictLoop ⟨⟨roles, books⟩, coherent⟩
        gentle.resets).and ((books.evictLoop roles iter fuel).imp (fun _ => id)
          fun _ _ => trivial)).imp (fun _ => id) fun _ _ => trivial
      refine evicted.bind fun m₁ _ ⟨⟨⟨⟨roles₁, books₁⟩, coherent₁⟩, _⟩, ⟨_, _, same⟩, nonempty⟩ =>
        coherent₁.appendTable books₁ roles₁ nonempty ?_
      simpa [Live] using fun live => unmapped ((same _).mp live)
  | getValue level num offset length =>
      exact coherent.getValue books roles gentle.allowed gentle.touches
  | readTable level num offset length => exact coherent.readTable gentle.allowed offset length
  | deleteTable level num => exact coherent.deleteTable level num
  | tryReset =>
      exact (evictable_coherent.tryReset ⟨⟨roles, books⟩, coherent⟩ gentle.resets).imp
        (fun _ holds => holds.2) fun _ => id
  | evictZone =>
      exact (evictable_coherent.evictZone ⟨⟨roles, books⟩, coherent⟩ gentle.resets).imp
        (fun _ holds => holds.2) fun _ => id

end Coherent

/-! ## Runs -/

/-- The runs of gentle operations. -/
def gentleSystem (device : Device) : System MemoryManager Op where
  Init := (system device).Init
  Step m op m' := ∃ iter fuel, Enumerates iter ∧ m.Gentle device iter fuel op ∧
    m.exec device iter fuel op = .ok m'

theorem storeReachable_of_gentle {device : Device} {m : MemoryManager}
    (reachable : (gentleSystem device).Reachable m) : (storeSystem device).Reachable m := by
  induction reachable with
  | init built => exact .init built
  | step _ step ih =>
      obtain ⟨iter, fuel, order, gentle, ok⟩ := step
      exact .step ih ⟨gentle.allowed, iter, fuel, order, ok⟩

theorem coherent_new {device : Device} {m : MemoryManager} (built : new device = some m) :
    m.Coherent := by
  simp only [new, Option.bind_eq_bind, Option.bind_eq_some_iff] at built
  obtain ⟨⟨zones, pool⟩, -, done⟩ := built
  cases done
  exact ⟨LruCache.linked_new 64000, fun page mem => by cases mem⟩

/-- A page of a live table misses until it is read after the last write of its slot. -/
def MissesUntilRead (m : MemoryManager) : Prop :=
  ∀ newer write older t s page, m.calls = newer ++ write :: older → write.Writes s →
    m.mappingTable t = some s → InSlot s page → (∀ call ∈ newer, ¬call.Reads page) →
    (m.pageCache.get page).1 = npos

/-- In a run of gentle operations the cache stays coherent, so the first read of a page
after a write of its slot goes to the device. -/
theorem cacheCoherent_of_gentle {device : Device} {m : MemoryManager}
    (reachable : (gentleSystem device).Reachable m) :
    m.CacheCoherent ∧ m.MissesUntilRead := by
  obtain ⟨roles, books⟩ := books_of_reachable (storeReachable_of_gentle reachable)
  have coherent : m.Coherent := System.invariant_of_reachable_with
    (K := fun m => m.Roles device none ∧ m.Books device none [])
    (fun _ reached => books_of_reachable (storeReachable_of_gentle reached))
    (fun _ built => coherent_new built)
    (fun _ _ _ ⟨roles, books⟩ coherent ⟨_, _, _, gentle, ok⟩ =>
      (coherent.exec books roles gentle).of_ok ok)
    reachable
  refine ⟨coherent.coherent, ?_⟩
  intro newer write older t s page calls writes located inside unread
  have small := books.page_lt roles ⟨t, s, located, inside⟩
  rw [LruCache.get_eq_npos_iff coherent.linked small.ne]
  intro cached
  obtain ⟨t', s', located', inside', fresh⟩ := coherent.coherent page cached
  obtain ⟨zone, -, k, -, rfl⟩ := books.written located
  obtain ⟨zone', -, k', -, rfl⟩ := books.written located'
  rw [Device.slot_eq_of_inSlot inside' inside, calls] at fresh
  obtain ⟨call, mem, reads⟩ := fresh.read_after writes
  exact unread call mem reads

/-- The small device after a table was written and its first page was read. -/
theorem cacheCoherent_after_read :
    ∃ m, storeRun device8G 1 [.writeTable 0 0, .getValue 0 0 0 100] = some m ∧
      m.CacheCoherent ∧ m.MissesUntilRead := by
  obtain ⟨m₂, run₂⟩ := Option.isSome_iff_exists.mp
    (show (storeRun device8G 1 [.writeTable 0 0, .getValue 0 0 0 100]).isSome by
      decide +kernel)
  obtain ⟨m₁, run₁, live, read⟩ := @storeRun_concat device8G 1 [.writeTable 0 0] _ m₂ run₂
  obtain ⟨m₀, run₀, allowed, written⟩ := @storeRun_concat device8G 1 [] _ m₁ run₁
  have enough : (storeRun device8G 1 []).map
      (fun m => decide (m.emptyZone.size * 20 < device8G.zoneNum)) = some false := by
    decide +kernel
  have located : (storeRun device8G 1 [.writeTable 0 0]).map (·.mappingTable (0, 0)) =
      some (some 0) := by
    decide +kernel
  rw [run₀, Option.map_some, Option.some.injEq, decide_eq_false_iff_not] at enough
  rw [run₁, Option.map_some, Option.some.injEq] at located
  have first : (gentleSystem device8G).Reachable m₁ := by
    refine .step (.init (storeRun_nil run₀))
      ⟨_, 1, enumerates_sort, ⟨allowed, fun _ => False.elim, ?_⟩, written⟩
    simp [resetCalls, evictLoopCalls, enough]
  refine ⟨m₂, run₂, cacheCoherent_of_gentle
    (.step first ⟨_, 1, enumerates_sort, ⟨live, ?_, by simp [resetCalls]⟩, read⟩)⟩
  rintro page ⟨-, le⟩
  rw [location, located] at le
  obtain rfl : page = 0 := Nat.le_zero.mp le
  exact ⟨(0, 0), 0, located, by decide, by decide⟩

/-- Reading the last byte of a table caches the first page of the next slot, in which no
table is stored. -/
theorem not_cacheCoherent :
    ∃ m, (storeSystem device512G).Reachable m ∧ ¬m.CacheCoherent := by
  have run : (storeRun device512G 1
      [.writeTable 0 0, .getValue 0 0 (sstableSize - 1) 1]).map
        (fun m => (m.pageCache.keys, m.remappingTable sstableSize)) =
      some ([4096, 4095], none) := by
    decide +kernel
  obtain ⟨m, ran, facts⟩ := Option.map_eq_some_iff.mp run
  obtain ⟨keys, free⟩ := Prod.mk.inj facts
  have reachable := reachable_of_storeRun ran
  refine ⟨m, reachable, fun coherent => ?_⟩
  obtain ⟨t, s, located, inside, -⟩ := coherent 4096 (by simp [keys])
  obtain ⟨-, books⟩ := books_of_reachable reachable
  obtain ⟨zone, -, k, -, rfl⟩ := books.written located
  have next := Device.div_of_inSlot inside
  rw [(books.inverse t _).mp (?_ : m.mappingTable t = some sstableSize)] at free
  · cases free
  · rw [located, device512G.slot_eq, ← next]
    rfl

end MemoryManager

end ZnsLsm.Pool
