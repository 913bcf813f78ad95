import Mathlib.Algebra.Group.Nat.Defs
import SnowOs.FrameInv

/-!
# The memory map at boot

`init_physical_memory` takes the end of memory from the firmware's map and
writes a descriptor for every page below it. `page_descriptor[]` has room
for `MAX_PAGES`, and nothing compares the two.

Within that bound the free list is the ascending run of the frames from
`physfree` on (`initPhysicalMemory_spec`). Beyond it there are two ways to
fail: a region that ends below 2^64 writes descriptors behind the array,
and one that ends above wraps around, so that the loop never reaches
`physfree` and the list stays empty.
-/

namespace SnowOs

open Linked

namespace PhysMem

/-- The pages whose descriptors the loop of `init_physical_memory`
writes. -/
def initPages (base length : Word) : List Nat := List.range ((base + length) / pageSize).toNat

/-- What `init_physical_memory` should leave: the array is not exceeded,
and the free list is the run of the frames up to the end of memory, as
long as the count says. -/
structure MapsMemory (physfree base length : Word) : Prop where
  written : ∀ pg ∈ initPages base length, pg < maxPages
  list : (initPhysicalMemory physfree base length).FreeList
    (List.range' (firstPage physfree) (endPage base length - firstPage physfree))
  count : (initPhysicalMemory physfree base length).maxFreePagesAvailable.toNat
    = endPage base length - firstPage physfree

section Loop

variable {physfree base length : Word}

theorem initPhysicalMemory_eq_foldl (physfree base length : Word) :
    initPhysicalMemory physfree base length
      = (initPages base length).foldl (initDescriptor physfree)
        { maxFreePagesAvailable := (base + length - physfree) / pageSize
          maxPagesAvailable := (base + length) / pageSize } := rfl

theorem initDescriptors_maxFree (physfree : Word) (pages : List Nat) (s : PhysMem) :
    (pages.foldl (initDescriptor physfree) s).maxFreePagesAvailable = s.maxFreePagesAvailable := by
  induction pages generalizing s with
  | nil => rfl
  | cons pg pages ih =>
      rw [List.foldl_cons, ih]
      rfl

/-- `free_list` is set at `physfree` only. -/
theorem initDescriptors_freeList {pages : List Nat} (s : PhysMem)
    (h : ∀ pg ∈ pages, BitVec.ofNat 64 pg * pageSize ≠ physfree) :
    (pages.foldl (initDescriptor physfree) s).freeList = s.freeList := by
  induction pages generalizing s with
  | nil => rfl
  | cons pg pages ih =>
      obtain ⟨hpg, hpages⟩ := List.forall_mem_cons.mp h
      rw [List.foldl_cons, ih _ hpages, initDescriptor, if_neg hpg]

/-- A region that ends above 2^64 wraps around to below its base. -/
theorem size_lt_of_wraps (hbase : base.toNat ≤ physfree.toNat)
    (hwrap : 2 ^ 64 ≤ base.toNat + length.toNat) : (base + length).toNat < physfree.toNat := by
  have hlength := length.isLt
  rw [BitVec.toNat_add, Nat.mod_eq_sub_mod hwrap, Nat.mod_eq_of_lt (by omega)]
  omega

/-- So the loop ends before `physfree`, and the list stays empty. -/
theorem freeList_of_wraps (hbase : base.toNat ≤ physfree.toNat)
    (hwrap : 2 ^ 64 ≤ base.toNat + length.toNat) :
    (initPhysicalMemory physfree base length).freeList = none := by
  have hsize := size_lt_of_wraps hbase hwrap
  rw [initPhysicalMemory_eq_foldl, initDescriptors_freeList]
  intro pg hpg heq
  rw [initPages, List.mem_range, BitVec.toNat_udiv, pageSize_toNat] at hpg
  have hlt := physfree.isLt
  have haddr := congrArg BitVec.toNat heq
  rw [BitVec.toNat_mul, BitVec.toNat_ofNat, pageSize_toNat, Nat.mod_eq_of_lt (by omega),
    Nat.mod_eq_of_lt (by omega)] at haddr
  omega

end Loop

/-- **The memory map at boot.** For a page-aligned `physfree` in a region
of any length, boot does what it should exactly if the region ends within
`MAX_PAGES` pages. -/
theorem mapsMemory_iff {physfree base length : Word} (haligned : physfree.toNat % 4096 = 0)
    (hbase : base.toNat ≤ physfree.toNat) (hend : physfree.toNat < base.toNat + length.toNat) :
    MapsMemory physfree base length ↔ endPage base length ≤ maxPages := by
  constructor
  · intro h
    rcases Nat.lt_or_ge (base.toNat + length.toNat) (2 ^ 64) with hfits | hwrap
    · by_contra hlong
      have hsize : (base + length).toNat = base.toNat + length.toNat := by
        rw [BitVec.toNat_add, Nat.mod_eq_of_lt hfits]
      have hmem : maxPages ∈ initPages base length := by
        rw [initPages, List.mem_range, BitVec.toNat_udiv, hsize, pageSize_toNat]
        exact Nat.not_le.mp hlong
      exact Nat.lt_irrefl _ (h.written _ hmem)
    · have hlist := h.list
      have hlt := physfree.isLt
      obtain ⟨k, hk⟩ : ∃ k, endPage base length - firstPage physfree = k + 1 := by
        refine ⟨endPage base length - firstPage physfree - 1, ?_⟩
        rw [endPage, firstPage]
        omega
      rw [FreeList, freeList_of_wraps hbase hwrap, hk, List.range'_succ] at hlist
      exact absurd hlist.1.symm (Option.some_ne_none _)
  · intro hpages
    have hb : BootRegion physfree base length := ⟨haligned, hbase, hend, hpages⟩
    refine ⟨fun pg hpg => ?_, (initPhysicalMemory_spec hb).1.list, ?_⟩
    · rw [initPages, List.mem_range, hb.maxPagesAvailable_toNat] at hpg
      exact Nat.lt_of_lt_of_le hpg hpages
    · rw [initPhysicalMemory_eq_foldl, initDescriptors_maxFree]
      exact hb.maxFree_toNat

/-- 128 MiB, with the kernel in the first two. -/
theorem mapsMemory_small : MapsMemory 0x200000 0x100000 0x7F00000 :=
  (mapsMemory_iff (by decide) (by decide) (by decide)).mpr (by decide)

/-- 512 MiB: descriptor 100000 is written. -/
theorem mapsMemory_overrun :
    maxPages ∈ initPages 0x100000 0x1FF00000 ∧ ¬ MapsMemory 0x200000 0x100000 0x1FF00000 := by
  have hmem : maxPages ∈ initPages 0x100000 0x1FF00000 := by
    rw [initPages, List.mem_range]
    decide
  exact ⟨hmem, fun h => Nat.lt_irrefl _ (h.written _ hmem)⟩

end PhysMem

end SnowOs
