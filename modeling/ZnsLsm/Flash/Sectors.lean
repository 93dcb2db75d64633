import ZnsLsm.Flash.Checks
import ZnsLsm.Paging

/-!
# From bytes to sectors

`dispatch_io` divides both ends of a byte range by the sector size.  The end is rounded down,
so a range that ends inside a sector loses this sector; if it also begins there, no sector is
left, and `slba + nlb - 1` is the sector in front of the range, or wraps around.
-/

namespace ZnsLsm.Flash

open ZnsLsm.Paging ZnsLsm.Transition

/-- Arbitrary requests on a device of `devsz` bytes, from the state that `femu_init` leaves. -/
def device (config : SsdConfig) (devsz : Nat) : System FemuCtrl Io where
  Init n := n = femuInit config devsz
  Step n io n' := ∃ now, Flash.serve now n io = some n'

/-- The request covers the bytes from `offset` to `offset + len`, and the tests of `zns_read`
and `zns_write` let it pass. -/
structure Covers (now : Nat) (n : FemuCtrl) (devsz len offset : Nat) (req : NvmeRequest) :
    Prop where
  nlb_pos : 1 ≤ req.nlb
  covers : ∀ sec, Meets n.ssd.sp.secsz offset (offset + len) sec →
    req.slba ≤ sec ∧ sec < req.slba + req.nlb
  inDevice : (req.slba + req.nlb) * n.ssd.sp.secsz ≤ devsz
  lastSector_eq : lastSector req.slba req.nlb = req.slba + req.nlb - 1
  zoneIdx : ∀ sec, sec = req.slba ∨ sec = lastSector req.slba req.nlb →
    znsZoneIdx n sec = sec / (n.zoneSize / n.ssd.sp.secsz) ∧ znsZoneIdx n sec < n.numZones
  read : (znsRead now n req).isSome
  write : (znsWrite now n req).isSome

section Lookups

variable {n n' : FemuCtrl}

/-- No request changes the parameters. -/
theorem sameParams_of_serve {now : Clock} {io : Io} (served : Flash.serve now n io = some n') :
    SameParams n n' := by
  cases io with
  | read req =>
      obtain ⟨⟨n'', latency⟩, read, rfl⟩ := Option.map_eq_some_iff.mp served
      exact (znsRead_zones read).1
  | write req =>
      obtain ⟨⟨n'', latency⟩, written, rfl⟩ := Option.map_eq_some_iff.mp served
      cases byLba : znsGetZoneByLba n req.slba with
      | none => simp [znsWrite, byLba] at written
      | some idx => exact (znsWrite_of_some byLba written).1
  | reset req =>
      cases byLba : znsGetZoneByLba n req.slba with
      | none => simp [Flash.serve, znsReset, byLba] at served
      | some idx =>
          obtain ⟨n'', same, params, -⟩ := znsReset_eq now.erase byLba
          cases same.symm.trans served
          exact params

theorem sameParams_of_reachable {config : SsdConfig} {devsz : Nat}
    (reachable : (device config devsz).Reachable n) : SameParams (femuInit config devsz) n := by
  apply System.invariant_of_reachable _ _ reachable
  · rintro _ rfl
    exact .refl _
  · rintro n io n' params ⟨now, served⟩
    exact params.trans (sameParams_of_serve served)

/-- Reads and writes go through if the zones of their first and last sector exist. -/
theorem isSome_of_zoneIdx (now : Nat) {req : NvmeRequest}
    (first : znsZoneIdx n req.slba < n.numZones)
    (last : znsZoneIdx n (lastSector req.slba req.nlb) < n.numZones) :
    (znsRead now n req).isSome ∧ (znsWrite now n req).isSome := by
  have byFirst : znsGetZoneByLba n req.slba = some (znsZoneIdx n req.slba) := if_pos first
  have byLast : znsGetZoneByLba n (lastSector req.slba req.nlb) =
      some (znsZoneIdx n (lastSector req.slba req.nlb)) := if_pos last
  constructor
  · simp only [znsRead, byFirst, byLast]
    rfl
  · simp only [znsWrite, byFirst]
    rfl

end Lookups

/-- The zones of the device cover a sector exactly if its zone number is below `num_zones`. -/
theorem Geometry.zoneIdx_iff {geometry : Geometry} {devsz : Nat} {n : FemuCtrl}
    (params : SameParams (femuInit geometry.toSsdConfig devsz) n)
    (few : numZones geometry.toSsdConfig devsz < 2 ^ 32) (sec : Nat) :
    (znsZoneIdx n sec = sec / (n.zoneSize / n.ssd.sp.secsz) ∧ znsZoneIdx n sec < n.numZones) ↔
      (sec + 1) * geometry.secsz ≤ numZones geometry.toSsdConfig devsz * geometry.zoneSize := by
  have zones : n.numZones = numZones geometry.toSsdConfig devsz := params.numZones
  have secs : n.zoneSize / n.ssd.sp.secsz = geometry.secsPerPg * geometry.pages := by
    rw [params.zoneSize, params.sp]
    exact geometry.zoneSize_div_secsz
  have zoneSecsPos : 0 < geometry.secsPerPg * geometry.pages :=
    Nat.mul_pos geometry.secsPerPg_pos geometry.pages_pos
  have inside : sec / (geometry.secsPerPg * geometry.pages) < n.numZones ↔
      (sec + 1) * geometry.secsz ≤ n.numZones * geometry.zoneSize := by
    rw [Nat.div_lt_iff_lt_mul zoneSecsPos, geometry.zoneSize_eq_pages]
    generalize geometry.secsPerPg * geometry.pages = zoneSecs
    rw [Nat.mul_left_comm n.numZones, Nat.mul_comm (sec + 1),
      Nat.mul_le_mul_left_iff geometry.secsz_pos, Nat.succ_le_iff]
  rw [← zones, secs, ← inside]
  constructor
  · rintro ⟨same, lt⟩
    rwa [same] at lt
  · intro lt
    have same := geometry.znsZoneIdx_eq params.sp params.zoneSize (Nat.lt_trans lt (zones ▸ few))
    exact ⟨same, same.symm ▸ lt⟩

section Dispatch

variable {geometry : Geometry} {devsz len offset : Nat} {n : FemuCtrl}

theorem dispatchRequest_end (now : Nat) (n : FemuCtrl) (len offset : Nat) :
    (dispatchRequest now n len offset).slba + (dispatchRequest now n len offset).nlb =
      (offset + len) / n.ssd.sp.secsz :=
  Nat.add_sub_cancel' (Nat.div_le_div_right (Nat.le_add_right ..))

/-- A range that ends with a sector becomes a request that covers it. -/
theorem covers_of_dvd (params : SameParams (femuInit geometry.toSsdConfig devsz) n)
    (size : devsz < 2 ^ 64) (few : numZones geometry.toSsdConfig devsz < 2 ^ 32) (pos : 1 ≤ len)
    (inside : offset + len ≤ devsz) (now : Nat) (whole : geometry.secsz ∣ offset + len)
    (inZones : offset + len ≤ numZones geometry.toSsdConfig devsz * geometry.zoneSize) :
    Covers now n devsz len offset (dispatchRequest now n len offset) := by
  have secsz : n.ssd.sp.secsz = geometry.secsz := by
    rw [params.sp]
    rfl
  have start : (dispatchRequest now n len offset).slba = offset / geometry.secsz := by
    rw [← secsz]
    rfl
  have ends := dispatchRequest_end now n len offset
  rw [secsz] at ends
  have bytes : (offset + len) / geometry.secsz * geometry.secsz = offset + len :=
    Nat.div_mul_cancel whole
  have nonempty : offset / geometry.secsz < (offset + len) / geometry.secsz := by
    apply Nat.div_lt_of_lt_mul
    rw [Nat.mul_comm, bytes]
    exact Nat.lt_add_of_pos_right pos
  generalize (offset + len) / geometry.secsz = stop at ends bytes nonempty
  have last : lastSector (dispatchRequest now n len offset).slba
      (dispatchRequest now n len offset).nlb = stop - 1 := by
    have le : stop ≤ offset + len := by
      rw [← bytes]
      exact Nat.le_mul_of_pos_right _ geometry.secsz_pos
    rw [lastSector_eq (by omega) (by omega), ends]
  have zoneIdx : ∀ sec < stop,
      znsZoneIdx n sec = sec / (n.zoneSize / n.ssd.sp.secsz) ∧ znsZoneIdx n sec < n.numZones := by
    intro sec lt
    apply (Geometry.zoneIdx_iff params few sec).mpr
    calc
      (sec + 1) * geometry.secsz ≤ stop * geometry.secsz := Nat.mul_le_mul_right _ lt
      _ = offset + len := bytes
      _ ≤ _ := inZones
  have first := zoneIdx (dispatchRequest now n len offset).slba (by omega)
  have final := zoneIdx (stop - 1) (by omega)
  obtain ⟨read, write⟩ := isSome_of_zoneIdx now first.2 (last.symm ▸ final.2)
  constructor
  · omega
  · rw [secsz, ends, start, ← Nat.mul_div_cancel stop geometry.secsz_pos, bytes]
    exact (forall_lt_of_meets_iff geometry.secsz_pos (Nat.le_add_right ..)).mpr whole
  · rw [secsz, ends, bytes]
    exact inside
  · rw [last, ends]
  · rintro sec (rfl | rfl)
    · exact first
    · rw [last]
      exact final
  · exact read
  · exact write

/-- After any requests on a device of any size, `dispatch_io` covers a byte range exactly if the
range ends with a sector, and with one that belongs to a zone. -/
theorem dispatchRequest_covers_iff (geometry : Geometry) (size : devsz < 2 ^ 64)
    (few : numZones geometry.toSsdConfig devsz < 2 ^ 32)
    (reachable : (device geometry.toSsdConfig devsz).Reachable n) (pos : 1 ≤ len)
    (inside : offset + len ≤ devsz) (now : Nat) :
    Covers now n devsz len offset (dispatchRequest now n len offset) ↔
      geometry.secsz ∣ offset + len ∧
        offset + len ≤ numZones geometry.toSsdConfig devsz * geometry.zoneSize := by
  have params := sameParams_of_reachable reachable
  have secsz : n.ssd.sp.secsz = geometry.secsz := by
    rw [params.sp]
    rfl
  have ends := dispatchRequest_end now n len offset
  constructor
  · intro covers
    have whole : geometry.secsz ∣ offset + len := by
      have all := covers.covers
      rw [ends, secsz] at all
      apply (forall_lt_of_meets_iff geometry.secsz_pos (Nat.le_add_right offset len)).mp
      intro sec meets
      have found := all sec meets
      rw [← secsz] at found ⊢
      exact found
    refine ⟨whole, ?_⟩
    have last := covers.zoneIdx _ (.inr rfl)
    rw [Geometry.zoneIdx_iff params few, covers.lastSector_eq] at last
    have nlb_pos := covers.nlb_pos
    rwa [Nat.sub_add_cancel (by omega), ends, secsz, Nat.div_mul_cancel whole] at last
  · rintro ⟨whole, inZones⟩
    exact covers_of_dvd params size few pos inside now whole inZones

/-- Three bytes at the end of the first sector of the shipped device. -/
theorem dispatchRequest_covers_tail :
    Covers 1 (femuInit geometry512G.toSsdConfig geometry512G.devsz) geometry512G.devsz 3 509
      (dispatchRequest 1 (femuInit geometry512G.toSsdConfig geometry512G.devsz) 3 509) :=
  (dispatchRequest_covers_iff geometry512G (by decide +kernel) (by decide +kernel) (.init rfl)
    (by decide) (by decide +kernel) 1).mpr ⟨by decide +kernel, by decide +kernel⟩

/-- The first byte of the shipped device becomes a request for no sector, on which `zns_read`
fails the test of the zone number. -/
theorem not_covers :
    (znsRead 1 (femuInit geometry512G.toSsdConfig geometry512G.devsz)
        (dispatchRequest 1 (femuInit geometry512G.toSsdConfig geometry512G.devsz) 1 0)).isNone ∧
      ¬∀ n, (device geometry512G.toSsdConfig geometry512G.devsz).Reachable n →
        ∀ now len offset, 1 ≤ len → offset + len ≤ geometry512G.devsz →
          Covers now n geometry512G.devsz len offset (dispatchRequest now n len offset) := by
  constructor
  · decide +kernel
  · intro always
    have covers := always _ (.init rfl) 1 1 0 (Nat.le_refl 1) (by decide +kernel)
    exact absurd covers.nlb_pos (by decide +kernel)

end Dispatch

end ZnsLsm.Flash
