import ZnsLsm.Intervals
import ZnsLsm.Pool.CacheRuns
import ZnsLsm.Pool.Reading

/-!
# The intervals that a read fetches

To the cache every page of a read is a key that is entered, whether it hits or misses.  So the
pages that miss are those of the abstract cache, and the batch of `getValue`, with its sentinel
for "no batch", collects their maximal intervals.
-/

namespace ZnsLsm.Pool

open ZnsLsm.Intervals ZnsLsm.Recency ZnsLsm.Transition

namespace LruCache

variable {lru : LruCache} {page : Nat}

/-- A page that hits is entered by the lookup. -/
theorem Linked.keys_hit (linked : lru.Linked) (ordinary : page ≠ npos)
    (hit : (lru.get page).1 ≠ npos) :
    page ∈ lru.keys ∧ (lru.get page).2.keys = enter lru.cap page lru.keys := by
  have mem : page ∈ lru.keys := by
    by_contra absent
    exact hit ((get_eq_npos_iff linked ordinary).mpr absent)
  refine ⟨mem, ?_⟩
  rw [linked.keys_get, if_pos mem, enter_of_mem mem]

/-- A page that misses is entered by the put. -/
theorem Linked.keys_miss (linked : lru.Linked) (ordinary : page ≠ npos)
    (miss : (lru.get page).1 = npos) :
    page ∉ lru.keys ∧ (lru.get page).2.keys = lru.keys ∧
      ((lru.get page).2.put page).keys = enter lru.cap page lru.keys := by
  have absent := (get_eq_npos_iff linked ordinary).mp miss
  have same : (lru.get page).2.keys = lru.keys := by
    rw [linked.keys_get, if_neg absent]
  refine ⟨absent, same, ?_⟩
  rw [(linked.get page).keys_put, same, cap_get]

end LruCache

/-- A page is looked up while it is not in the cache. -/
def MissedIn (accesses : List Access) (lru : LruCache) (page : Nat) : Prop :=
  ∃ before after, accesses = before ++ .get page :: after ∧
    page ∉ (before.foldl LruCache.access lru).keys

@[simp]
theorem missedIn_cons {access : Access} {accesses : List Access} {lru : LruCache} {page : Nat} :
    MissedIn (access :: accesses) lru page ↔
      access = .get page ∧ page ∉ lru.keys ∨ MissedIn accesses (lru.access access) page := by
  constructor
  · rintro ⟨before, after, split, absent⟩
    cases before with
    | nil =>
        obtain ⟨same, -⟩ := List.cons.inj split
        exact .inl ⟨same, absent⟩
    | cons first before =>
        obtain ⟨rfl, rest⟩ := List.cons.inj split
        exact .inr ⟨before, after, rest, absent⟩
  · rintro (⟨rfl, absent⟩ | ⟨before, after, rfl, absent⟩)
    · exact ⟨[], accesses, rfl, absent⟩
    · exact ⟨access :: before, after, rfl, absent⟩

namespace MemoryManager

variable {count page batchLeft batchRight : Nat} {interval : List (Nat × Nat)} {lru : LruCache}

/-! ## The batch -/

/-- The intervals collected so far, the open batch included. -/
def collected (batchLeft batchRight : Nat) (interval : List (Nat × Nat)) : List (Nat × Nat) :=
  if batchLeft = npos then interval else interval ++ [(batchLeft, batchRight)]

@[simp]
theorem collected_npos (batchRight : Nat) (interval : List (Nat × Nat)) :
    collected npos batchRight interval = interval :=
  if_pos rfl

/-- An open batch ends right before the next page; without one there is a gap before it. -/
structure Batch (page batchLeft batchRight : Nat) (interval : List (Nat × Nat)) : Prop where
  idle : batchLeft = npos → ∀ it ∈ interval, it.2 + 1 < page
  busy : batchLeft ≠ npos → batchRight + 1 = page ∧ ∀ it ∈ interval, it.2 < page

/-- A page that misses extends what is collected. -/
theorem Batch.miss (batch : Batch page batchLeft batchRight interval) (ordinary : page ≠ npos) :
    collected (if batchLeft = npos then page else batchLeft) page interval =
        extend (collected batchLeft batchRight interval) page ∧
      Batch (page + 1) (if batchLeft = npos then page else batchLeft) page interval := by
  by_cases none : batchLeft = npos
  · have gap := batch.idle none
    rw [if_pos none, collected, collected, if_neg ordinary, if_pos none, extend_apart gap]
    refine ⟨rfl, fun absurd => (ordinary absurd).elim, fun _ => ⟨rfl, fun it mem => ?_⟩⟩
    have less := gap it mem
    omega
  · obtain ⟨next, below⟩ := batch.busy none
    rw [if_neg none, collected, collected, if_neg none, if_neg none,
      extend_continued interval batchLeft next]
    refine ⟨rfl, fun absurd => (none absurd).elim, fun _ => ⟨rfl, fun it mem => ?_⟩⟩
    exact Nat.lt_succ_of_lt (below it mem)

/-- A page that hits closes the batch. -/
theorem Batch.hit (batch : Batch page batchLeft batchRight interval) :
    Batch (page + 1) npos batchRight (collected batchLeft batchRight interval) := by
  refine ⟨fun _ it mem => ?_, fun absurd => (absurd rfl).elim⟩
  by_cases none : batchLeft = npos
  · rw [collected, if_pos none] at mem
    have less := batch.idle none it mem
    omega
  · obtain ⟨next, below⟩ := batch.busy none
    rw [collected, if_neg none] at mem
    rcases List.mem_append.mp mem with old | new
    · exact Nat.succ_lt_succ (below it old)
    · obtain rfl := List.mem_singleton.mp new
      simp only
      omega

/-- A page that hits goes on with the batch closed. -/
theorem fetchMissing_hit (count batchLeft batchRight : Nat) (interval : List (Nat × Nat))
    (hit : (lru.get page).1 ≠ npos) :
    fetchMissing (count + 1) page batchLeft batchRight interval lru =
      fetchMissing count (page + 1) npos batchRight (collected batchLeft batchRight interval)
        (lru.get page).2 := by
  simp only [fetchMissing, if_neg hit]
  by_cases none : batchLeft = npos
  · subst none
    rw [if_neg (not_not.mpr rfl), collected_npos]
  · rw [if_pos none, collected, if_neg none]

/-- The second loop collects the maximal intervals of the pages that miss. -/
theorem fetchMissing_eq (linked : lru.Linked) (small : page + count ≤ npos)
    (batch : Batch page batchLeft batchRight interval) :
    (fetchMissing count page batchLeft batchRight interval lru).1 =
        (misses lru.cap (List.range' page count) lru.keys).foldl extend
          (collected batchLeft batchRight interval) ∧
      (fetchMissing count page batchLeft batchRight interval lru).2.keys =
        enterAll lru.cap lru.keys (List.range' page count) := by
  induction count generalizing page batchLeft batchRight interval lru with
  | zero => exact ⟨rfl, rfl⟩
  | succ count ih =>
      have ordinary : page ≠ npos := by omega
      have inside : page + 1 + count ≤ npos := by omega
      rw [List.range'_succ, misses, enterAll, List.foldl_cons, ← enterAll]
      by_cases miss : (lru.get page).1 = npos
      · obtain ⟨absent, -, keys⟩ := linked.keys_miss ordinary miss
        obtain ⟨extended, batch'⟩ := batch.miss ordinary
        have rest := ih ((linked.get page).put page) inside batch'
        rw [keys, LruCache.cap_put, LruCache.cap_get, extended] at rest
        simp only [fetchMissing, if_pos miss]
        rw [if_neg absent, List.foldl_cons]
        exact rest
      · obtain ⟨mem, keys⟩ := linked.keys_hit ordinary miss
        have rest := ih (linked.get page) inside batch.hit
        rw [keys, LruCache.cap_get, collected_npos] at rest
        rw [fetchMissing_hit _ _ _ _ miss, if_pos mem]
        exact rest

/-- The first loop changes neither what misses nor what is cached in the end. -/
theorem skipCached_eq (linked : lru.Linked) (small : page + count ≤ npos) :
    (skipCached count page lru).2.2.Linked ∧ (skipCached count page lru).2.2.cap = lru.cap ∧
      misses lru.cap (List.range' page count) lru.keys =
        misses lru.cap
          (List.range' (skipCached count page lru).2.1 (skipCached count page lru).1)
          (skipCached count page lru).2.2.keys ∧
      enterAll lru.cap lru.keys (List.range' page count) =
        enterAll lru.cap (skipCached count page lru).2.2.keys
          (List.range' (skipCached count page lru).2.1 (skipCached count page lru).1) := by
  induction count generalizing page lru with
  | zero => exact ⟨linked, rfl, rfl, rfl⟩
  | succ count ih =>
      have ordinary : page ≠ npos := by omega
      simp only [skipCached]
      by_cases miss : (lru.get page).1 = npos
      · obtain ⟨-, same, -⟩ := linked.keys_miss ordinary miss
        rw [if_pos miss, same]
        exact ⟨linked.get page, LruCache.cap_get .., rfl, rfl⟩
      · obtain ⟨mem, keys⟩ := linked.keys_hit ordinary miss
        have rest := ih (linked.get page) (show page + 1 + count ≤ npos by omega)
        rw [keys, LruCache.cap_get] at rest
        rw [if_neg miss, List.range'_succ, misses, if_pos mem, enterAll, List.foldl_cons,
          ← enterAll]
        exact rest

/-! ## The pages that miss -/

theorem missedIn_fetchAccesses (linked : lru.Linked) (small : page + count ≤ npos) (other : Nat) :
    MissedIn (fetchAccesses count page lru) lru other ↔
      other ∈ misses lru.cap (List.range' page count) lru.keys := by
  induction count generalizing page lru with
  | zero =>
      refine iff_of_false ?_ List.not_mem_nil
      rintro ⟨before, after, split, -⟩
      exact absurd split.symm (List.append_ne_nil_of_right_ne_nil _ (List.cons_ne_nil _ _))
  | succ count ih =>
      have ordinary : page ≠ npos := by omega
      have inside : page + 1 + count ≤ npos := by omega
      rw [List.range'_succ, misses, fetchAccesses, missedIn_cons, Access.get.injEq]
      by_cases miss : (lru.get page).1 = npos
      · obtain ⟨absent, same, keys⟩ := linked.keys_miss ordinary miss
        have rest := ih ((linked.get page).put page) inside
        rw [keys, LruCache.cap_put, LruCache.cap_get] at rest
        rw [if_pos miss, if_neg absent, missedIn_cons, LruCache.access, LruCache.access, rest,
          List.mem_cons]
        simp only [reduceCtorEq, false_and, false_or]
        apply or_congr_left
        constructor
        · rintro ⟨rfl, -⟩
          rfl
        · rintro rfl
          exact ⟨rfl, absent⟩
      · obtain ⟨mem, keys⟩ := linked.keys_hit ordinary miss
        have rest := ih (linked.get page) inside
        rw [keys, LruCache.cap_get] at rest
        rw [if_neg miss, if_pos mem, LruCache.access, rest]
        apply or_iff_right
        rintro ⟨rfl, absent⟩
        exact absent mem

/-- The pages that miss in either loop are those that the abstract cache misses. -/
theorem missedIn_skipAccesses (linked : lru.Linked) (small : page + count ≤ npos) (other : Nat) :
    MissedIn
        (skipAccesses count page lru ++
          fetchAccesses (skipCached count page lru).1 (skipCached count page lru).2.1
            (skipCached count page lru).2.2) lru other ↔
      other ∈ misses lru.cap (List.range' page count) lru.keys := by
  induction count generalizing page lru with
  | zero => exact missedIn_fetchAccesses linked small other
  | succ count ih =>
      have ordinary : page ≠ npos := by omega
      simp only [skipAccesses, skipCached, List.cons_append]
      rw [missedIn_cons, LruCache.access, Access.get.injEq]
      by_cases miss : (lru.get page).1 = npos
      · -- The page at which the first loop ends is looked up again by the second one.
        obtain ⟨absent, same, -⟩ := linked.keys_miss ordinary miss
        have rest := missedIn_fetchAccesses (linked.get page) small other
        rw [same, LruCache.cap_get] at rest
        rw [if_pos miss, if_pos miss, List.nil_append, rest]
        apply or_iff_right_of_imp
        rintro ⟨rfl, -⟩
        rw [List.range'_succ, misses, if_neg absent]
        exact List.mem_cons_self
      · obtain ⟨mem, keys⟩ := linked.keys_hit ordinary miss
        have rest := ih (linked.get page) (show page + 1 + count ≤ npos by omega)
        rw [keys, LruCache.cap_get] at rest
        rw [if_neg miss, if_neg miss, rest, List.range'_succ, misses, if_pos mem]
        apply or_iff_right
        rintro ⟨rfl, absent⟩
        exact absent mem

/-! ## The reads of a call -/

/-- What a read of a table at `s` fetches: exactly the pages of the range that miss when they
are looked up, in maximal intervals; in the end all pages of the range are cached. -/
structure Batched (s offset length : Nat) (lru lru' : LruCache) (interval : List (Nat × Nat)) :
    Prop where
  separated : Separated interval
  covers_iff : ∀ page, Covers interval page ↔
    (firstPage s offset ≤ page ∧ page ≤ lastPage s offset length) ∧
      MissedIn (accesses s offset length lru) lru page
  cached : ∀ page, firstPage s offset ≤ page → page ≤ lastPage s offset length → page ∈ lru'.keys

theorem batched_lookup {s offset length : Nat} (linked : lru.Linked)
    (small : lastPage s offset length < npos)
    (few : lastPage s offset length + 1 - firstPage s offset ≤ lru.cap) :
    Batched s offset length lru (lookup s offset length lru).2 (lookup s offset length lru).1 := by
  have ordered := firstPage_le_lastPage s offset length
  have inside :
      firstPage s offset + (lastPage s offset length + 1 - firstPage s offset) ≤ npos := by
    omega
  have inRange : ∀ page,
      page ∈ List.range' (firstPage s offset)
          (lastPage s offset length + 1 - firstPage s offset) ↔
        firstPage s offset ≤ page ∧ page ≤ lastPage s offset length := by
    intro page
    rw [List.mem_range'_1]
    omega
  have missed := missedIn_skipAccesses linked inside
  obtain ⟨linked', cap, skipped, entered⟩ := skipCached_eq linked inside
  obtain ⟨-, total⟩ := skipCached_total (lastPage s offset length + 1 - firstPage s offset)
    (firstPage s offset) lru
  generalize pagesEq : List.range' (firstPage s offset)
    (lastPage s offset length + 1 - firstPage s offset) = pages at *
  have increasing : (misses lru.cap pages lru.keys).Pairwise (· < ·) := by
    apply List.Pairwise.sublist (misses_sublist ..)
    rw [← pagesEq]
    exact List.pairwise_lt_range'
  have start : Batch (skipCached (lastPage s offset length + 1 - firstPage s offset)
      (firstPage s offset) lru).2.1 npos npos [] :=
    ⟨fun _ it mem => absurd mem List.not_mem_nil, fun busy => (busy rfl).elim⟩
  obtain ⟨intervals, keys⟩ := fetchMissing_eq linked' (total.trans_le inside) start
  rw [collected_npos, cap, ← skipped] at intervals
  rw [cap, ← entered] at keys
  obtain ⟨separated, covers⟩ := ofList_spec increasing
  rw [ofList, ← intervals] at separated covers
  refine ⟨separated, fun page => ?_, fun page ge le => ?_⟩
  · rw [accesses, missed, ← inRange]
    exact (covers page).trans (iff_and_self.mpr fun mem => (misses_sublist ..).mem mem)
  · have after : (lookup s offset length lru).2.keys = enterAll lru.cap lru.keys pages := keys
    rw [after]
    apply mem_enterAll lru.keys _ _ ((inRange page).mpr ⟨ge, le⟩)
    · rw [← pagesEq]
      exact List.nodup_range'
    · rw [← pagesEq, List.length_range']
      exact few

/-- For every cache that runs of operations lead to, and every table, a read of no more pages
than the cache can hold sends the simulator the maximal intervals of the pages that it misses,
and counts them. -/
theorem getValue_batches {m : MemoryManager} {cap level num offset length : Nat}
    {history : List Nat} (reachable : (caching cap).Reachable ⟨m.pageCache, history⟩)
    (known : level < m.levels)
    (small : lastPage (m.location (level, num)) offset length < 2 ^ 64 - 1)
    (few : lastPage (m.location (level, num)) offset length + 1 -
      firstPage (m.location (level, num)) offset ≤ cap) :
    ∃ m' interval, m.getValue level num offset length = .ok m' ∧
      m'.calls = (interval.map readCall).reverse ++ (m.waits (level, num) ++ m.calls) ∧
      m'.readNum = (m.readNum + interval.length) % 2 ^ 32 ∧
      Batched (m.location (level, num)) offset length m.pageCache m'.pageCache interval := by
  have ordered := firstPage_le_lastPage (m.location (level, num)) offset length
  have caches := caches_of_reachable (show 0 < cap by omega) reachable
  refine ⟨_, (lookup (m.location (level, num)) offset length m.pageCache).1,
    m.getValue_eq known num offset length, rfl, rfl, ?_⟩
  apply batched_lookup caches.linked small
  rw [caches.cap_eq]
  exact few

/-- The pages 2, 0, 9 and 4 in a cache of five, the last one touched first. -/
def fourCached : CacheRun :=
  [CacheOp.put 4, .put 9, .put 0, .put 2].foldl CacheRun.after (.start 5)

theorem reachable_fourCached : (caching 5).Reachable fourCached :=
  reachable_after (reachable_after (reachable_after (reachable_after (.init rfl)
    (by decide)) (by decide)) (by decide)) (by decide)

/-- A read of the pages 0 to 4 by the new manager of the small device: the pages 0 and 2 hit,
page 1 is fetched alone, and page 3 evicts page 4, which is fetched with it. -/
theorem batched_of_evicted : ∃ m m' interval, MemoryManager.new device8G = some m ∧
    MemoryManager.getValue { m with pageCache := fourCached.lru } 0 0 0 (4 * pageSize) =
      .ok m' ∧
    interval.map readCall =
      [.read pageSize pageSize, .read (2 * pageSize) (3 * pageSize)] ∧
    m'.readNum = 2 ∧
    Batched 0 0 (4 * pageSize) fourCached.lru m'.pageCache interval := by
  obtain ⟨m, created, parts⟩ := Option.map_eq_some_iff.mp
    (show (MemoryManager.new device8G).map (fun m =>
        (m.levels, m.location (0, 0), m.readNum)) = some (1, 0, 0) by decide +kernel)
  simp only [Prod.mk.injEq] at parts
  obtain ⟨levels, location, readNum⟩ := parts
  have located : MemoryManager.location { m with pageCache := fourCached.lru } (0, 0) = 0 :=
    location
  have known : 0 < m.levels := by
    rw [levels]
    decide
  obtain ⟨m', interval, read, sent, counted, batched⟩ :=
    @getValue_batches { m with pageCache := fourCached.lru } 5 0 0 0 (4 * pageSize)
      fourCached.history reachable_fourCached known (by rw [located]; decide)
      (by rw [located]; decide)
  -- The requests are those that the function itself sends.
  have result := MemoryManager.getValue_eq { m with pageCache := fourCached.lru } known 0 0
    (4 * pageSize)
  rw [read, located] at result
  have calls := congrArg MemoryManager.calls (Except.ok.inj result)
  rw [sent] at calls
  have fetched : interval.map readCall =
      (lookup 0 0 (4 * pageSize) fourCached.lru).1.map readCall :=
    List.reverse_inj.mp (List.append_cancel_right calls)
  have looked : (lookup 0 0 (4 * pageSize) fourCached.lru).1 = [(1, 1), (3, 4)] := by
    decide +kernel
  rw [looked] at fetched
  have two : interval.length = 2 := by
    rw [← List.length_map readCall, fetched]
    rfl
  rw [located] at batched
  refine ⟨m, m', interval, created, read, fetched, ?_, batched⟩
  calc
    m'.readNum = (m.readNum + interval.length) % 2 ^ 32 := counted
    _ = 2 := by
      rw [readNum, two]
      rfl

end MemoryManager

end ZnsLsm.Pool
