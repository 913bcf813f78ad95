import SnowOs.World

/-!
# From power-on to the first process

`start` calls `init_physical_memory`, `init_paging` and
`init_idle_process`. If the frames that the boot `memset` does not reach
are zero, the world this leaves is in order: `init_paging` draws the root,
maps page after page of the direct map into it, and every leaf it writes
is one of the direct map. The map of the video memory at the end makes
sure that entry 511 of the root is there, so that all later address
spaces, which copy it, share one kernel half.
-/

namespace SnowOs

open Radix Machine

namespace Machine

/-! ## The loop and CR3

`init_paging` builds its tables before it loads CR3. To the tables it makes
no difference when CR3 is loaded. -/

theorem descend_setNewCr3 (m : Machine) (r t : Word) (i : Fin 512) (flags : Word) :
    (m.setNewCr3 r).descend t i flags
      = ((m.descend t i flags).1, (m.descend t i flags).2.setNewCr3 r) := by
  by_cases hp : present (m.mem t i) = true
  · have hp' : present ((m.setNewCr3 r).mem t i) = true := hp
    rw [descend, descend, if_pos hp, if_pos hp']
    rfl
  · have hp' : ¬ present ((m.setNewCr3 r).mem t i) = true := hp
    rw [descend, descend, if_neg hp, if_neg hp']
    rfl

theorem mapPage_setNewCr3 (m : Machine) (r root v p flags : Word) :
    (m.setNewCr3 r).mapPage root v p flags = (m.mapPage root v p flags).setNewCr3 r := by
  simp only [mapPage, descend_setNewCr3]
  rfl

theorem initPagingLoop_setNewCr3 (root physfree r : Word) : ∀ (fuel : Nat) (v p : Word)
    (m : Machine), initPagingLoop root physfree fuel v p (m.setNewCr3 r)
      = (initPagingLoop root physfree fuel v p m).map fun m => m.setNewCr3 r
  | 0, _, _, _ => rfl
  | fuel + 1, v, p, m => by
      rw [initPagingLoop, initPagingLoop, setNewCr3_phys]
      split
      · rw [mapPage_setNewCr3]
        exact initPagingLoop_setNewCr3 root physfree r fuel ..
      · rfl

theorem initPaging_cases {fuel : Nat} {m m' : Machine} {physfree : Word}
    (h : m.initPaging fuel kernmem physbase physfree = some m') :
    ∃ m₁, initPagingLoop m.getFreePage.1 physfree fuel (kernelVirtualBase + pageAddress 512)
        (pageAddress 512) (m.getFreePage.2.setNewCr3 m.getFreePage.1) = some m₁ ∧
      m' = m₁.mapPage m.getFreePage.1 (kernelVirtualBase + pageAddress 184) (pageAddress 184)
        kernelRwFlags := by
  rw [initPagingLoop_setNewCr3]
  cases hloop : initPagingLoop m.getFreePage.1 physfree fuel
      (kernelVirtualBase + pageAddress 512) (pageAddress 512) m.getFreePage.2 with
  | some m₁ =>
      rw [initPaging_of_loop hloop] at h
      exact ⟨_, rfl, by rw [mapPage_setNewCr3, ← Option.some.inj h]; rfl⟩
  | none =>
      have hbase : physbase = pageAddress 512 := rfl
      rw [initPaging, kernmem, hbase, hloop] at h
      cases h

theorem initPagingLoop_posts {root physfree : Word} : ∀ {fuel : Nat} {v p : Word}
    {m m' : Machine}, initPagingLoop root physfree fuel v p m = some m' → ∃ ts, m.Posts ts m'
  | 0, _, _, _, _, h => by cases h
  | fuel + 1, v, p, m, m', h => by
      rw [initPagingLoop] at h
      split at h
      · obtain ⟨ts, hrest⟩ := initPagingLoop_posts h
        exact ⟨_, (mapPage_posts ..).trans hrest⟩
      · rw [← Option.some.inj h]
        exact ⟨[], .refl⟩

theorem initPaging_posts {fuel : Nat} {m m' : Machine} {physfree : Word}
    (h : m.initPaging fuel kernmem physbase physfree = some m') : ∃ ts, m.Posts ts m' := by
  obtain ⟨m₁, hloop, rfl⟩ := initPaging_cases h
  obtain ⟨ts, hposts⟩ := initPagingLoop_posts hloop
  have hroot : m.Posts [m.getFreePage.1] (m.getFreePage.2.setNewCr3 m.getFreePage.1) :=
    Posts.refl.draw.other rfl rfl
  exact ⟨_, (hroot.trans hposts).trans (mapPage_posts ..)⟩

theorem initPagingLoop_draws {root physfree : Word} {fuel : Nat} {v p : Word} {m m' : Machine}
    (h : initPagingLoop root physfree fuel v p m = some m') : ∃ ts, m.Draws ts m' := by
  obtain ⟨ts, hposts⟩ := initPagingLoop_posts h
  exact ⟨ts, hposts.charges.draws⟩

theorem initPagingLoop_log {root physfree : Word} {fuel : Nat} {v p : Word} {m m' : Machine}
    (h : initPagingLoop root physfree fuel v p m = some m') : m.log <:+ m'.log := by
  obtain ⟨ts, hdraws⟩ := initPagingLoop_draws h
  exact ⟨ts, hdraws.log.symm⟩

theorem ref_initPhysicalMemory (m : Machine) (physfree base length g : Word) :
    (m.initPhysicalMemory physfree base length).ref g = 0 :=
  PhysMem.initPhysicalMemory_refCount physfree base length (pageNumber g)

theorem memsetPhysical_log (m : Machine) (a : Word) (v : Byte) (b : Nat) :
    (m.memsetPhysical a v b).log = m.log := by
  unfold memsetPhysical
  induction List.range b generalizing m with
  | nil => rfl
  | cons j js ih => exact ih _

/-! ## Building the direct map -/

/-- The tables of the direct map while they are built. -/
structure Building (root : Word) (first : Nat) (m : Machine) : Prop where
  owned : Owned [root] m none
  cr3 : m.cr3 = root
  books : ∃ l, m.Ledger l ∧ first + l.length ≤ maxPages

section Building

variable {root physfree : Word} {first n : Nat} {m m' : Machine}

theorem Building.mapPage (h : Building root first m) (hpos : 0 < n) (hn : n < maxPages)
    (hlog : (0 : Word) ∉ (m.mapPage root (kernelVirtualBase + pageAddress n) (pageAddress n)
      kernelRwFlags).log) :
    Building root first (m.mapPage root (kernelVirtualBase + pageAddress n) (pageAddress n)
      kernelRwFlags) := by
  obtain ⟨lab, l, hF⟩ := h.owned.sound
  obtain ⟨l₁, hbooks, hfit⟩ := h.books
  obtain ⟨l₂, hbooks', hsum⟩ := hbooks.charges (mapPage_posts ..).charges hlog
  have hgrow : m.log.length ≤ (m.mapPage root (kernelVirtualBase + pageAddress n) (pageAddress n)
      kernelRwFlags).log.length := by
    rw [(mapPage_draws ..).log, List.length_append]
    exact Nat.le_add_left ..
  have hmap : Mappable lab l (kernelVirtualBase + pageAddress n) (pageAddress n) :=
    ⟨aligned_pageAddress hn, pageAddress_ne_zero hn hpos,
      fun hu => absurd hu (not_userPath_direct hn)⟩
  have hleaf : LeafOwned m.log (path (kernelVirtualBase + pageAddress n))
      (pageAddress n ||| kernelRwFlags) :=
    Or.inr (Or.inr ⟨n, hn, rfl, kernelEntry_frame hn⟩)
  refine ⟨?_, (mapPage_cr3 ..).trans h.cr3, l₂, hbooks', by omega⟩
  have howned := h.owned.updatePageTables hF hmap kernelRwFlags_flagWord hleaf
  rw [updatePageTables, h.cr3] at howned
  exact howned hlog

theorem Building.loop (hal : physfree.toNat = first * 4096) : ∀ {fuel n : Nat} {m m' : Machine},
    Building root first m → 0 < n → n ≤ maxPages →
    initPagingLoop root physfree fuel (kernelVirtualBase + pageAddress n) (pageAddress n) m
      = some m' → (0 : Word) ∉ m'.log → Building root first m'
  | 0, _, _, _, _, _, _, hrun, _ => by cases hrun
  | fuel + 1, n, m, m', h, hpos, hn, hrun, hlog => by
      obtain ⟨l, hbooks, hfit⟩ := h.books
      have hiff := lt_loopBound_iff (p := n) hal
        (show first + m.phys.getFreePagesCount.toNat ≤ maxPages by
          rwa [hbooks.counted.count_toNat]) hn
      rw [initPagingLoop] at hrun
      split at hrun
      · rename_i hlt
        rw [hiff, hbooks.counted.count_toNat] at hlt
        rw [BitVec.add_assoc, ← pageAddress_succ] at hrun
        have hround := h.mapPage hpos (by omega)
          fun hmem => hlog ((initPagingLoop_log hrun).subset hmem)
        exact hround.loop hal (Nat.succ_pos n) (by omega) hrun hlog
      · rw [← Option.some.inj hrun]
        exact h

theorem building_start {bound : Nat} (hstock : m.phys.Stock first bound) (hbound : bound ≤ maxPages)
    (hle : first ≤ bound) (hempty : m.log = []) (hrefs : ∀ g, m.ref g = 0)
    (hzero : ∀ n, first ≤ n → n < bound → ∀ i, m.mem (pageAddress n) i = 0)
    (hlog : (0 : Word) ∉ m.getFreePage.2.log) :
    Building m.getFreePage.1 first (m.getFreePage.2.setNewCr3 m.getFreePage.1) := by
  have hne : m.getFreePage.1 ≠ 0 := fun heq => hlog (heq ▸ List.mem_cons_self ..)
  have hroom : first + 10 ≤ bound := by
    by_contra hlow
    refine hne ?_
    rw [getFreePage_fst, PhysMem.getFreePage_refused (hstock.refused_iff.mpr (by omega))]
  obtain ⟨hroot, hrest⟩ := hstock.getFreePage hroom
  rw [← getFreePage_fst] at hroot
  have hfree : ∀ k ∈ List.range' (first + 1) (bound - (first + 1)), first < k ∧ k < bound := by
    intro k hk
    rw [List.mem_range'_1] at hk
    omega
  have hforest : Forest [m.getFreePage.1] (m.getFreePage.2.setNewCr3 m.getFreePage.1)
      (rootLabel m.getFreePage.1) (List.range' (first + 1) (bound - (first + 1))) := by
    refine forest_root (m := m.getFreePage.2.setNewCr3 m.getFreePage.1) hrest
      (fun k hk => by have := hfree k hk; omega)
      (fun k hk => ⟨fun heq => ?_, hzero k (by have := hfree k hk; omega) (hfree k hk).2⟩)
      (fun i => ?_) hne (List.mem_cons_self ..)
    · have hk := hfree k hk
      rw [setNewCr3_cr3, hroot] at heq
      have := pageAddress_inj (by omega) (by omega) heq
      omega
    · rw [setNewCr3_cr3, hroot]
      exact hzero first (Nat.le_refl _) (by omega) i
  have hbooks : m.Ledger (List.range' first (bound - first)) := by
    have hnone : ∀ f, f ∉ m.log := fun f hf => by
      rw [hempty] at hf
      cases hf
    refine ⟨hstock, fun f hf => absurd hf (hnone f), ?_, fun f hf => absurd hf (hnone f),
      fun n _ hpos => ?_⟩
    · rw [hempty]
      exact List.nodup_nil
    · rw [hrefs] at hpos
      exact absurd hpos (Nat.lt_irrefl 0)
  have hcharges : m.Charges [m.getFreePage.1] (m.getFreePage.2.setNewCr3 m.getFreePage.1) :=
    (getFreePage_charges m).congr rfl rfl
  obtain ⟨l', hbooks', hsum⟩ := hbooks.charges hcharges hlog
  refine ⟨⟨⟨_, _, hforest⟩, fun r hr q _ => Or.inl ?_, fun t ht => by cases ht⟩, rfl, l', hbooks',
    ?_⟩
  · rw [List.mem_singleton.mp hr]
    refine lookup_of_empty (fun i => ?_) q
    rw [setNewCr3_mem, hroot]
    exact hzero first (Nat.le_refl _) (by omega) i
  · rw [List.length_range', hempty] at hsum
    simp only [List.length_nil] at hsum
    omega

theorem follow_of_entryAt {r : Word} {i j : Fin 512} {q : List (Fin 512)}
    (h : m.entryAt r (i :: j :: q) ≠ 0) : ∃ t, follow entryFormat m.mem r [i] = some t := by
  rw [follow_singleton]
  by_cases hp : entryFormat.present (m.mem r i) = true
  · rw [if_pos hp]
    exact ⟨_, rfl⟩
  · rw [entryAt, lookup_cons_cons, if_neg hp] at h
    exact absurd rfl h

end Building

end Machine

/-! ## The first world -/

open PhysMem (BootRegion)

/-- `start` up to `init_idle_process`, on the memory `m` and with the
region the boot loader reports: `init_paging` has left `m'`, and no request
for a frame was refused. -/
structure Booted (physfree base length : Word) (m m' : Machine) : Prop where
  region : BootRegion physfree base length
  log : m.log = []
  paging : ∃ fuel, (m.initPhysicalMemory physfree base length).initPaging fuel kernmem physbase
    physfree = some m'
  served : (0 : Word) ∉ (World.boot m').machine.log

section Booted

variable {physfree base length : Word} {m m' : Machine}

/-- The machine behind `init_paging`: one address space, whose entry 511
is there. -/
theorem Booted.owned (h : Booted physfree base length m m')
    (hzero : m.RestZero physfree base length) :
    ∃ pdpt l, Owned [m'.cr3] m' (some pdpt) ∧ m'.Ledger l := by
  obtain ⟨fuel, hpaging⟩ := h.paging
  have hlog : (0 : Word) ∉ m'.log := by
    have hserved := h.served
    exact fun hmem => hserved ((World.work_boot [] m').log_suffix.subset hmem)
  have hstock := (PhysMem.initPhysicalMemory_spec h.region).1
  have hal : physfree.toNat = PhysMem.firstPage physfree * 4096 := by
    have := h.region.aligned
    rw [PhysMem.firstPage]
    omega
  have hfree := (initPhysicalMemory_freeFramesZero_iff h.region m).mpr hzero
  have hmem : ∀ n, PhysMem.firstPage physfree ≤ n → n < PhysMem.endPage base length → ∀ i,
      (m.initPhysicalMemory physfree base length).mem (pageAddress n) i = 0 := by
    intro n hle hlt
    have hbytes := hfree n ((listed_initPhysicalMemory h.region m).mpr ⟨hle, hlt⟩)
    rw [(named_initPhysicalMemory h.region m).frameOf_eq hlt] at hbytes
    exact mem_eq_zero_of_byteAt hbytes
  have hempty : (m.initPhysicalMemory physfree base length).log = [] :=
    (memsetPhysical_log ..).trans h.log
  have hphys : (m.initPhysicalMemory physfree base length).phys
      = PhysMem.initPhysicalMemory physfree base length := rfl
  have hrefs := ref_initPhysicalMemory m physfree base length
  rw [← hphys] at hstock
  generalize m.initPhysicalMemory physfree base length = boot at hpaging hstock hmem hempty hrefs
  obtain ⟨m₁, hrun, rfl⟩ := initPaging_cases hpaging
  have hlog₁ : (0 : Word) ∉ m₁.log := by
    intro hz
    rw [(mapPage_draws ..).log] at hlog
    exact hlog (List.mem_append_right _ hz)
  have hstart := building_start hstock h.region.pages_le h.region.firstPage_le hempty hrefs hmem
    fun hz => hlog₁ ((initPagingLoop_log hrun).subset hz)
  have hloop := hstart.loop hal (by omega) (by decide) hrun hlog₁
  have hdone := hloop.mapPage (n := 184) (by omega) (by decide) hlog
  obtain ⟨lab, l, hF⟩ := hloop.owned.sound
  have hmap : Mappable lab l (kernelVirtualBase + pageAddress 184) (pageAddress 184) :=
    ⟨aligned_pageAddress (by decide), by decide,
      fun hu => absurd hu (not_userPath_direct (by decide))⟩
  have hself := hF.updatePageTables hmap kernelRwFlags_flagWord
  rw [updatePageTables, hloop.cr3] at hself
  obtain ⟨lab', l', hM⟩ := hself hlog
  have hentry := hM.self
  rw [hloop.cr3] at hentry
  have hpath : path (kernelVirtualBase + pageAddress 184) = 511 :: 510 :: [0, 184] := by decide
  rw [hpath] at hentry
  obtain ⟨t, ht⟩ := follow_of_entryAt (r := boot.getFreePage.1) (i := 511) (j := 510)
    (q := [0, 184]) (by rw [hentry]; decide)
  obtain ⟨l₁, hbooks, -⟩ := hdone.books
  rw [hdone.cr3]
  refine ⟨t, l₁, ⟨hdone.owned.sound, hdone.owned.leaf, fun u hu r hr => ?_⟩, hbooks⟩
  rw [List.mem_singleton.mp hr, ← Option.some.inj hu]
  exact ht

theorem Booted.posts (h : Booted physfree base length m m') :
    ∃ ts, (m.initPhysicalMemory physfree base length).Posts ts (World.boot m').machine := by
  obtain ⟨fuel, hpaging⟩ := h.paging
  obtain ⟨ts, hposts⟩ := initPaging_posts hpaging
  obtain ⟨us, hboot⟩ := (World.work_boot [] m').posts
  exact ⟨_, hposts.trans hboot⟩

theorem emptySpace_ok (m : Machine) : ({ machine := m } : Space).Ok :=
  ⟨fun _ => vmaOk_low (block_zero m) (Nat.zero_le _) (Nat.zero_le _),
    fun _ => ⟨block_zero m, block_zero m⟩⟩

/-- **Boot.** With the memory that the boot `memset` leaves out zeroed, the
first world is in order. -/
theorem Booted.ok (h : Booted physfree base length m m')
    (hzero : m.RestZero physfree base length) : ∃ pdpt, (World.boot m').Ok pdpt := by
  obtain ⟨pdpt, l, howned, hbooks⟩ := h.owned hzero
  have hwork : Work [m'.cr3] m' [m'.cr3] (World.boot m').machine := World.work_boot _ m'
  obtain ⟨ts, hcharges⟩ := hwork.charges
  obtain ⟨l', hbooks', -⟩ := hbooks.charges hcharges h.served
  refine ⟨pdpt, hwork.owned h.served howned, ⟨l', hbooks'⟩,
    (((emptySpace_ok m').kmalloc _).kmalloc _).kmalloc _, fun p hp => ?_,
    fun fo hfo => absurd hfo List.not_mem_nil, fun d hd => absurd hd List.not_mem_nil⟩
  have hkthread := ({ machine := m' } : Space).kmalloc_block (n := sizeofKthread) (by decide)
  have hfiles : ∀ s : Space, s.machine.log <:+
      ((s.kmalloc sizeofFileObject).2.kmalloc sizeofFileObject).2.machine.log :=
    fun s => (kmalloc_log_suffix ..).trans (kmalloc_log_suffix ..)
  rw [List.mem_singleton.mp hp]
  exact ⟨hkthread.mono (hfiles _), block_zero _⟩

end Booted

end SnowOs
