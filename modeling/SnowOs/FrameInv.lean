import SnowOs.PhysicalMemory

/-!
# The frame allocator over whole runs

Boot builds the free list once, as the ascending pages from `physfree` to
the end of the region, and from then on every allocation and every free
only moves one page between two sets: the list and the frames handed
out. `Invariant` says so in one line - list and handed-out pages together
are a permutation of the region's pages - and everything a caller wants
to know (no page twice, no page both free and used, nothing lost) is read
off that permutation.

The in-band failure value is the delicate point. Page 0 is a page like
any other to the list, so `get_free_page` returning `0x0` means refusal
only when the region's free part does not begin at address 0.
-/

namespace SnowOs

open Linked

namespace PhysMem

/-! ## Boot -/

/-- What the boot loader promises: a page-aligned first free address
inside a region whose pages all have a descriptor. -/
structure BootRegion (physfree base length : Word) : Prop where
  aligned : physfree.toNat % 4096 = 0
  base_le : base.toNat ≤ physfree.toNat
  lt_end : physfree.toNat < base.toNat + length.toNat
  pages_le : (base.toNat + length.toNat) / 4096 ≤ maxPages

def firstPage (physfree : Word) : Nat := physfree.toNat / 4096

def endPage (base length : Word) : Nat := (base.toNat + length.toNat) / 4096

section Boot

variable {physfree base length : Word} (hb : BootRegion physfree base length)
include hb

theorem BootRegion.size_toNat : (base + length).toNat = base.toNat + length.toNat := by
  have h := hb.pages_le
  rw [maxPages] at h
  rw [BitVec.toNat_add]
  omega

theorem BootRegion.maxPagesAvailable_toNat :
    ((base + length) / pageSize).toNat = endPage base length := by
  rw [BitVec.toNat_udiv, hb.size_toNat, pageSize_toNat, endPage]

theorem BootRegion.firstPage_le : firstPage physfree ≤ endPage base length := by
  have h := hb.lt_end
  rw [firstPage, endPage]
  omega

theorem BootRegion.maxFree_toNat :
    ((base + length - physfree) / pageSize).toNat
      = endPage base length - firstPage physfree := by
  have hsize := hb.size_toNat
  have hlt := hb.lt_end
  have hal := hb.aligned
  have hsub : (base + length - physfree).toNat
      = base.toNat + length.toNat - physfree.toNat := by
    rw [BitVec.toNat_sub_of_le (BitVec.le_def.mpr (by omega)), hsize]
  rw [BitVec.toNat_udiv, hsub, pageSize_toNat, endPage, firstPage]
  omega

theorem BootRegion.eq_physfree_iff {pg : Nat} (hpg : pg < maxPages) :
    BitVec.ofNat 64 pg * pageSize = physfree ↔ pg = firstPage physfree := by
  have haddr : (BitVec.ofNat 64 pg * pageSize).toNat = pg * 4096 := pageAddress_toNat hpg
  have hal := hb.aligned
  rw [← BitVec.toNat_inj, haddr, firstPage]
  omega

end Boot

/-- The descriptor `init_physical_memory` writes for page `pg`. -/
def bootDescriptor (bound pg : Nat) : PhysicalPage :=
  { pageNumber := BitVec.ofNat 64 pg
    next := if pg + 1 < bound then some (pg + 1) else none
    refCount := 0 }

/-- The loop of `init_physical_memory` after `k` rounds: the first `k`
descriptors are written, the others are still zero, and `free_list` is
set once the loop has passed `physfree`. -/
theorem initDescriptor_rounds {physfree base length : Word}
    (hb : BootRegion physfree base length) (s₀ : PhysMem)
    (hmax : s₀.maxPagesAvailable.toNat = endPage base length)
    (hzero : s₀.pageDescriptor = fun _ => {}) (hnull : s₀.freeList = none) :
    ∀ k ≤ endPage base length,
      let s := (List.range k).foldl (initDescriptor physfree) s₀
      (∀ m, s.pageDescriptor m
        = if m < k then bootDescriptor (endPage base length) m else {}) ∧
      s.freeList = (if firstPage physfree < k then some (firstPage physfree) else none) ∧
      s.maxPagesAvailable = s₀.maxPagesAvailable ∧
      s.maxFreePagesAvailable = s₀.maxFreePagesAvailable ∧ s.pagesUsed = s₀.pagesUsed := by
  intro k
  induction k with
  | zero =>
      intro _
      simp [hzero, hnull]
  | succ k ih =>
      intro hk
      obtain ⟨hd, hf, hm, hmf, hu⟩ := ih (by omega)
      have hkmax : k < maxPages := Nat.lt_of_lt_of_le hk hb.pages_le
      rw [List.range_succ, List.foldl_append, List.foldl_cons, List.foldl_nil]
      generalize (List.range k).foldl (initDescriptor physfree) s₀ = s at hd hf hm hmf hu ⊢
      have hnext : BitVec.ofNat 64 k < s.maxPagesAvailable - 1 ↔ k + 1 < endPage base length := by
        have hpos : (1 : Word) ≤ s.maxPagesAvailable := by
          rw [BitVec.le_def, hm, hmax]
          show 1 ≤ _
          omega
        have hkn : (BitVec.ofNat 64 k).toNat = k := by
          rw [BitVec.toNat_ofNat]
          rw [maxPages] at hkmax
          omega
        rw [BitVec.lt_def, hkn, BitVec.toNat_sub_of_le hpos, hm, hmax]
        show k < _ - 1 ↔ _
        omega
      have hnull' : s.next k = none := by rw [next, hd, if_neg (by omega)]
      refine ⟨fun m => ?_, ?_, hm, hmf, hu⟩
      · by_cases hmk : m = k
        · subst hmk
          simp only [initDescriptor, setDescriptor_self, hnext, hnull', bootDescriptor,
            Nat.lt_succ_self, if_true]
        · have hiff : m < k + 1 ↔ m < k := by omega
          simp [initDescriptor, setDescriptor_of_ne _ hmk, hd, hiff]
      · simp only [initDescriptor, hb.eq_physfree_iff hkmax, hf]
        split <;> split <;> first | (split <;> grind) | grind

/-- The chain that starts at page `p` and runs to the end of the region. -/
theorem chain_boot {nxt : Nat → Option Nat} {bound : Nat}
    (hn : ∀ m < bound, nxt m = if m + 1 < bound then some (m + 1) else none) :
    ∀ d p, p + d = bound →
      Chain nxt (if p < bound then some p else none) (List.range' p d)
  | 0, p, h => by
      rw [if_neg (by omega)]
      rfl
  | d + 1, p, h => by
      rw [if_pos (by omega), List.range'_succ]
      refine ⟨rfl, ?_⟩
      rw [hn p (by omega)]
      exact chain_boot hn d (p + 1) (by omega)

/-- The state `init_physical_memory` leaves: the list is the ascending run
of pages from `physfree` on. -/
theorem initPhysicalMemory_spec {physfree base length : Word}
    (hb : BootRegion physfree base length) :
    let s := initPhysicalMemory physfree base length
    let l := List.range' (firstPage physfree) (endPage base length - firstPage physfree)
    s.Counted l ∧ (∀ m < endPage base length, s.pageDescriptor m
      = bootDescriptor (endPage base length) m) ∧
      s.maxPagesAvailable.toNat = endPage base length := by
  have hmaxP := hb.maxPagesAvailable_toNat
  have hle := hb.firstPage_le
  have hend : endPage base length ≤ maxPages := hb.pages_le
  obtain ⟨hd, hf, hm, hmf, hu⟩ := initDescriptor_rounds hb
    { maxFreePagesAvailable := (base + length - physfree) / pageSize
      maxPagesAvailable := (base + length) / pageSize } hmaxP rfl rfl _ (Nat.le_refl _)
  rw [← hmaxP] at hd hf hm hmf hu
  change ∀ m, (initPhysicalMemory physfree base length).pageDescriptor m = _ at hd
  change (initPhysicalMemory physfree base length).freeList = _ at hf
  change (initPhysicalMemory physfree base length).maxPagesAvailable = _ at hm
  change (initPhysicalMemory physfree base length).maxFreePagesAvailable = _ at hmf
  change (initPhysicalMemory physfree base length).pagesUsed = _ at hu
  rw [hmaxP] at hd hf
  have hdesc : ∀ m < endPage base length,
      (initPhysicalMemory physfree base length).pageDescriptor m
        = bootDescriptor (endPage base length) m := fun m hlt => by rw [hd, if_pos hlt]
  have hmem : ∀ m ∈ List.range' (firstPage physfree)
      (endPage base length - firstPage physfree), m < endPage base length := fun m hin => by
    rw [List.mem_range'_1] at hin
    omega
  refine ⟨⟨?_, ?_, fun m hin => ?_, fun m hin => ?_⟩, hdesc, ?_⟩
  · rw [FreeList, hf]
    exact chain_boot (fun m hlt => by rw [next, hdesc m hlt, bootDescriptor]) _ _ (by omega)
  · rw [getFreePagesCount, hmf, hu, List.length_range', ← hb.maxFree_toNat,
      BitVec.ofNat_toNat, BitVec.setWidth_eq]
    exact BitVec.sub_zero _
  · rw [hdesc m (hmem m hin), bootDescriptor]
  · exact Nat.lt_of_lt_of_le (hmem m hin) hend
  · rw [hm]
    exact hmaxP

/-! ## Runs -/

/-- The states reachable after boot, together with the frames handed out
and not yet given back. -/
inductive Reach (physfree base length : Word) : PhysMem → List Word → Prop
  | boot : Reach physfree base length (initPhysicalMemory physfree base length) []
  | refused {s : PhysMem} {out : List Word} : Reach physfree base length s out →
      s.getFreePagesCount < minPages → Reach physfree base length s.getFreePage.2 out
  | get {s : PhysMem} {out : List Word} : Reach physfree base length s out →
      ¬ s.getFreePagesCount < minPages →
      Reach physfree base length s.getFreePage.2 (s.getFreePage.1 :: out)
  | addBack {s : PhysMem} {out₁ out₂ : List Word} {p : Word} :
      Reach physfree base length s (out₁ ++ p :: out₂) →
      Reach physfree base length (s.addBackFreePages p 1) (out₁ ++ out₂)

/-- The inductive invariant. Free list and handed-out pages together are a
permutation of the region's pages. -/
structure Invariant (first bound : Nat) (s : PhysMem) (l out : List Nat) : Prop where
  counted : s.Counted l
  perm : (l ++ out).Perm (List.range' first (bound - first))
  named : s.Named bound
  refCount : ∀ n ∈ l, (s.pageDescriptor n).refCount = 0
  max : s.maxPagesAvailable.toNat = bound

section Preservation

variable {first bound : Nat} {s : PhysMem} {l out : List Nat}

theorem Invariant.lt_bound (h : Invariant first bound s l out) {n : Nat}
    (hn : n ∈ l ++ out) : first ≤ n ∧ n < bound := by
  have := (h.perm.mem_iff).mp hn
  rw [List.mem_range'_1] at this
  omega

theorem Invariant.nodup (h : Invariant first bound s l out) : (l ++ out).Nodup :=
  h.perm.nodup_iff.mpr (List.nodup_range' ..)

/-- Allocation moves the head of the list to the handed-out pages. -/
theorem Invariant.getFreePage (h : Invariant first bound s l out)
    (hmin : ¬ s.getFreePagesCount < minPages) :
    ∃ n t, l = n :: t ∧ s.getFreePage.1 = pageAddress n ∧
      Invariant first bound s.getFreePage.2 t (n :: out) := by
  obtain ⟨n, t, rfl, haddr, hcounted, htook⟩ := h.counted.getFreePage hmin
  have hnt : n ∉ t := (List.nodup_cons.mp h.counted.list.nodup).1
  refine ⟨n, t, rfl, haddr, hcounted, ?_, fun m hm => ?_, fun m hm => ?_, ?_⟩
  · exact List.perm_middle.trans h.perm
  · rw [htook.pageNumber]
    exact h.named m hm
  · rw [htook.refCount, if_neg fun heq : m = n => hnt (heq ▸ hm)]
    exact h.refCount m (List.mem_cons_of_mem _ hm)
  · rw [htook.maxPagesAvailable]
    exact h.max

/-- Freeing moves a handed-out page to the head of the list. -/
theorem Invariant.addBackFreePages {out₁ out₂ : List Nat} {n : Nat}
    (h : Invariant first bound s l (out₁ ++ n :: out₂)) (hbound : bound ≤ maxPages) :
    Invariant first bound (s.addBackFreePages (pageAddress n) 1) (n :: l) (out₁ ++ out₂) := by
  have hn : n < bound := (h.lt_bound (by simp)).2
  have hlt : n < maxPages := Nat.lt_of_lt_of_le hn hbound
  have hnl : n ∉ l := fun hin =>
    (List.disjoint_of_nodup_append h.nodup) hin (by simp)
  have hg := gave_addBackFreePages (pageAddress n) s
  rw [pageNumber_pageAddress hlt] at hg
  refine ⟨h.counted.addBackFreePages hlt hnl (h.named n hn), ?_, fun m hm => ?_,
    fun m hm => ?_, ?_⟩
  · refine List.Perm.trans ?_ h.perm
    have hmid : (l ++ out₁ ++ n :: out₂).Perm (n :: (l ++ out₁ ++ out₂)) := List.perm_middle
    simpa [List.append_assoc] using hmid.symm
  · rw [hg.pageNumber]
    exact h.named m hm
  · rw [hg.refCount]
    split
    · rfl
    · rename_i hne
      exact h.refCount m ((List.mem_cons.mp hm).resolve_left hne)
  · rw [hg.maxPagesAvailable]
    exact h.max

end Preservation

/-- Every reachable state satisfies the invariant, for the pages the run
has handed out. -/
theorem Reach.invariant {physfree base length : Word}
    (hb : BootRegion physfree base length) {s : PhysMem} {out : List Word}
    (hr : Reach physfree base length s out) :
    ∃ l pages, out = pages.map pageAddress ∧
      Invariant (firstPage physfree) (endPage base length) s l pages := by
  induction hr with
  | boot =>
      obtain ⟨hc, hd, hm⟩ := initPhysicalMemory_spec hb
      refine ⟨_, [], rfl, hc, by simp, fun m hlt => ?_, fun m hin => ?_, hm⟩
      · rw [hd m hlt, bootDescriptor]
      · rw [List.mem_range'_1] at hin
        rw [hd m (by omega), bootDescriptor]
  | refused _ hlt ih =>
      rw [getFreePage_refused hlt]
      exact ih
  | get _ hmin ih =>
      obtain ⟨l, pages, rfl, hinv⟩ := ih
      obtain ⟨n, t, -, haddr, hinv'⟩ := hinv.getFreePage hmin
      exact ⟨t, n :: pages, by rw [haddr, List.map_cons], hinv'⟩
  | @addBack s out₁ out₂ p _ ih =>
      obtain ⟨l, pages, hout, hinv⟩ := ih
      obtain ⟨a, b, rfl, rfl, hcons⟩ := List.append_eq_map_iff.mp hout
      obtain ⟨n, c, rfl, rfl, rfl⟩ := List.map_eq_cons_iff.mp hcons
      exact ⟨n :: l, a ++ c, by simp, hinv.addBackFreePages hb.pages_le⟩

/-! ## The guarantees -/

/-- What the allocator owes its callers in state `s`, with `out` handed
out and the list `l` free. -/
structure FramesAccounted (physfree : Word) (s : PhysMem) (out : List Word)
    (l : List Nat) : Prop where
  /-- Following `free_list` visits `l` and ends, -/
  list : s.FreeList l
  /-- without meeting a page twice, -/
  nodup : l.Nodup
  /-- and without meeting a frame that is handed out. -/
  disjoint : ∀ n ∈ l, pageAddress n ∉ out
  /-- Free and handed-out frames are exactly the region's. -/
  exact : ∀ a, (a ∈ l.map pageAddress ∨ a ∈ out) ↔
    ∃ n, firstPage physfree ≤ n ∧ n < s.maxPagesAvailable.toNat ∧ a = pageAddress n
  refCount : ∀ n ∈ l, (s.pageDescriptor n).refCount = 0
  count : s.getFreePagesCount.toNat = l.length
  /-- Behind the reserve test the list is not null, -/
  notNull : ¬ s.getFreePagesCount < minPages → s.freeList ≠ none
  /-- and the frame taken is not one still handed out. -/
  fresh : ¬ s.getFreePagesCount < minPages → s.getFreePage.1 ∉ out
  /-- `0x0` is returned exactly for want of frames. -/
  refusal : s.getFreePage.1 = 0 ↔ l.length < 10

theorem Invariant.framesAccounted {physfree : Word} {bound : Nat} {s : PhysMem}
    {l pages : List Nat} (h : Invariant (firstPage physfree) bound s l pages)
    (hbound : bound ≤ maxPages) (hpos : 0 < firstPage physfree) :
    FramesAccounted physfree s (pages.map pageAddress) l := by
  have hlt : ∀ {n}, n ∈ l ++ pages → n < maxPages := fun hn =>
    Nat.lt_of_lt_of_le (h.lt_bound hn).2 hbound
  have hdisj := List.disjoint_of_nodup_append h.nodup
  have hsep : ∀ n ∈ l, pageAddress n ∉ pages.map pageAddress := by
    intro n hn hmem
    obtain ⟨m, hm, heq⟩ := List.mem_map.mp hmem
    obtain rfl := pageAddress_inj (hlt (List.mem_append_right _ hm))
      (hlt (List.mem_append_left _ hn)) heq
    exact hdisj hn hm
  refine
    { list := h.counted.list, nodup := h.counted.list.nodup, disjoint := hsep
      exact := fun a => ?_, refCount := h.refCount, count := h.counted.count_toNat
      notNull := fun hmin => ?_, fresh := fun hmin => ?_, refusal := ?_ }
  · rw [← List.mem_append, ← List.map_append, List.mem_map, h.max]
    constructor
    · rintro ⟨n, hn, rfl⟩
      exact ⟨n, (h.lt_bound hn).1, (h.lt_bound hn).2, rfl⟩
    · rintro ⟨n, hle, hlt', rfl⟩
      refine ⟨n, h.perm.mem_iff.mpr ?_, rfl⟩
      rw [List.mem_range'_1]
      omega
  · obtain ⟨n, t, rfl, -, -, -⟩ := h.counted.getFreePage hmin
    rw [h.counted.list.1]
    exact Option.some_ne_none n
  · obtain ⟨n, t, rfl, haddr, -, -⟩ := h.counted.getFreePage hmin
    rw [haddr]
    exact hsep n (List.mem_cons_self ..)
  · rw [← h.counted.refused_iff]
    constructor
    · intro hzero
      by_contra hmin
      obtain ⟨n, t, rfl, haddr, -, -⟩ := h.counted.getFreePage hmin
      have hn : n ∈ (n :: t) ++ pages := by simp
      have := (h.lt_bound hn).1
      exact pageAddress_ne_zero (hlt hn) (by omega) (haddr ▸ hzero)
    · intro hlow
      rw [getFreePage_refused hlow]

/-- **The frame allocator over every run.** From a boot region whose free
part does not begin at address 0, every reachable state accounts for every
frame. -/
theorem reach_framesAccounted {physfree base length : Word}
    (hb : BootRegion physfree base length) (hpos : physfree ≠ 0) {s : PhysMem}
    {out : List Word} (hr : Reach physfree base length s out) :
    ∃ l, FramesAccounted physfree s out l := by
  obtain ⟨l, pages, rfl, hinv⟩ := hr.invariant hb
  refine ⟨l, hinv.framesAccounted hb.pages_le ?_⟩
  have hne : physfree.toNat ≠ 0 := fun h => hpos (BitVec.eq_of_toNat_eq h)
  have hal := hb.aligned
  rw [firstPage]
  omega

/-- A region of twenty pages whose first page is the kernel's, with one
frame handed out. -/
theorem reach_framesAccounted_twenty :
    ∃ l, FramesAccounted 0x1000 (initPhysicalMemory 0x1000 0 0x14000).getFreePage.2
      [(initPhysicalMemory 0x1000 0 0x14000).getFreePage.1] l :=
  have hb : BootRegion 0x1000 0 0x14000 := ⟨by decide, by decide, by decide, by decide⟩
  reach_framesAccounted hb (by decide) (.get .boot (by decide +kernel))

/-- With `physfree` at address 0, page 0 is on the list: the first
`get_free_page` returns `0x0` although twenty frames are free. -/
theorem getFreePage_zero_not_refusal :
    BootRegion 0 0 0x14000 ∧
      ¬ ∀ s out, Reach 0 0 0x14000 s out → ∃ l, FramesAccounted 0 s out l := by
  refine ⟨⟨by decide, by decide, by decide, by decide⟩, fun hall => ?_⟩
  obtain ⟨l, hl⟩ := hall _ _ .boot
  have hlow : l.length < 10 := hl.refusal.mp (by decide +kernel)
  have hcount : (initPhysicalMemory 0 0 0x14000).getFreePagesCount.toNat = 20 := by
    decide +kernel
  have := hl.count
  omega

end PhysMem

end SnowOs
