import SnowOs.Boot

/-!
# The kernel heap in the direct map

`kmalloc` maps each of its frames at `kernel_virtual_base` plus the frame,
which is where the direct map has it already. As long as the map reaches
that far, it draws no table and writes every entry with the value it has:
memory does not change at all (`DirectTables.kmalloc`).

This is what makes it possible to say which frame is drawn when, from
power-on to the first process (`exists_booted`).
-/

namespace SnowOs

open Radix

namespace PhysMem

section Draw

variable {s s' : PhysMem} {ts : List Word} {next bound : Nat}

theorem Stock.room_of_ne (h : s.Stock next bound) (hne : s.getFreePage.1 ≠ 0) :
    next + 10 ≤ bound := by
  by_contra hlow
  rw [getFreePage_refused (h.refused_iff.mpr (by omega))] at hne
  exact hne rfl

theorem Stock.draw (h : s.Stock next bound) (hd : Draw s ts s') : (0 : Word) ∉ ts →
    s'.Stock (next + ts.length) bound ∧
      ∀ f ∈ ts, ∃ n, next ≤ n ∧ n < next + ts.length ∧ n + 10 ≤ bound ∧ f = pageAddress n := by
  induction hd with
  | refl => exact fun _ => ⟨h, fun _ hf => absurd hf List.not_mem_nil⟩
  | @take s'' ts _ ih =>
      intro hts
      rw [List.mem_cons, not_or] at hts
      obtain ⟨hstock, hframes⟩ := ih hts.2
      have hroom := hstock.room_of_ne fun hc => hts.1 hc.symm
      obtain ⟨hfirst, hrest⟩ := hstock.getFreePage hroom
      refine ⟨hrest, fun f hf => ?_⟩
      rcases List.mem_cons.mp hf with rfl | hf
      · exact ⟨_, Nat.le_add_right .., Nat.lt_succ_self _, hroom, hfirst⟩
      · obtain ⟨n, hle, hlt, hn, heq⟩ := hframes f hf
        exact ⟨n, hle, Nat.lt_succ_of_lt hlt, hn, heq⟩
  | adjust a c _ ih =>
      intro hts
      exact ⟨(ih hts).1.setPageRefCount a c, (ih hts).2⟩

theorem Stock.all_served (h : s.Stock next bound) (hpos : 0 < next) (hd : Draw s ts s') :
    ¬ s'.getFreePagesCount < minPages → (0 : Word) ∉ ts := by
  induction hd with
  | refl => exact fun _ => List.not_mem_nil
  | @take s'' ts hd ih =>
      intro hmin
      have hmin' : ¬ s''.getFreePagesCount < minPages := by
        intro hlow
        rw [getFreePage_refused hlow] at hmin
        exact hmin hlow
      have hts := ih hmin'
      have hstock := (h.draw hd hts).1
      have hroom : next + ts.length + 10 ≤ bound := by
        by_contra hlow
        exact hmin' (hstock.refused_iff.mpr (by omega))
      have hlt : next + ts.length < maxPages :=
        hstock.bounded _ (List.mem_range'_1.mpr ⟨Nat.le_refl _, by omega⟩)
      rw [List.mem_cons, not_or, (hstock.getFreePage hroom).1]
      exact ⟨(pageAddress_ne_zero hlt (by omega)).symm, hts⟩
  | adjust a c _ ih => exact ih

end Draw

end PhysMem

namespace Machine

theorem mapFresh_length_log (m : Machine) (v flags : Word) :
    m.log.length + 1 ≤ (m.mapFresh v flags).log.length := by
  exact (mapFresh_drawn_suffix m v flags).length_le

/-- `kmalloc` draws a frame for each of its pages, and maybe tables. -/
theorem kmalloc_length_log (m : Machine) (n : BitVec 32) :
    m.log.length + noOfPages n ≤ (m.kmalloc n).2.log.length := by
  have hpages : ∀ k, m.log.length + k ≤ ((List.range k).foldl kmallocPage (0, m)).2.log.length := by
    intro k
    induction k with
    | zero => exact Nat.le_refl _
    | succ k ih =>
        rw [List.range_succ, List.foldl_append, List.foldl_cons, List.foldl_nil, kmallocPage_snd]
        exact (Nat.add_le_add_right ih 1).trans (mapFresh_length_log ..)
  exact hpages (noOfPages n)

/-! ## The tables of the direct map -/

/-- The tables of the direct map up to page `last`, under the current root:
they are the pages from `first` on, in order. -/
structure DirectTables (first last : Nat) (m : Machine) : Prop where
  fits : first + 2 + last / 512 < maxPages
  pml4 : m.mem m.cr3 511 = kernelEntry (first + 1)
  pdpt : m.mem (pageAddress (first + 1)) 510 = kernelEntry (first + 2)
  pd : ∀ j, 0 < j → 512 * j < last →
    m.mem (pageAddress (first + 2)) (Fin.ofNat 512 j) = kernelEntry (first + 2 + j)
  pt : ∀ n, 512 ≤ n → n < last →
    m.mem (pageAddress (first + 2 + n / 512)) (Fin.ofNat 512 n) = kernelEntry n

section DirectTables

variable {first last bound n : Nat} {m m' : Machine} {t g flags : Word} {i : Fin 512}

theorem DirectTables.congr (h : DirectTables first last m) (hmem : m'.mem = m.mem)
    (hcr3 : m'.cr3 = m.cr3) : DirectTables first last m' := by
  refine ⟨h.fits, ?_, ?_, fun j hj hlt => ?_, fun n hn hlt => ?_⟩ <;> rw [hmem]
  · rw [hcr3]
    exact h.pml4
  · exact h.pdpt
  · exact h.pd j hj hlt
  · exact h.pt n hn hlt

theorem DirectTables.mono {last' : Nat} (h : DirectTables first last m) (hle : last' ≤ last) :
    DirectTables first last' m := by
  have hdiv := Nat.div_le_div_right (c := 512) hle
  exact ⟨Nat.lt_of_le_of_lt (by omega) h.fits, h.pml4, h.pdpt,
    fun j hj hlt => h.pd j hj (by omega), fun n hn hlt => h.pt n hn (by omega)⟩

theorem nextTable_kernelEntry (hn : n < maxPages) (h : m.mem t i = kernelEntry n) :
    m.nextTable t i = some (pageAddress n) := by
  rw [nextTable, h, if_pos (present_kernelEntry hn), kernelEntry_frame hn]

theorem DirectTables.translate (h : DirectTables first last m) (hn : 512 ≤ n) (hlt : n < last)
    (hmax : n < maxPages) :
    m.translate m.cr3 (kernelVirtualBase + pageAddress n) = some (pageAddress n) := by
  have hfits := h.fits
  have hlow : n < 2 ^ 18 := hmax.trans (by decide)
  have htable : m.pageTable m.cr3 (kernelVirtualBase + pageAddress n)
      = some (pageAddress (first + 2 + n / 512)) := by
    rw [pageTable, offsetPml4_direct hlow, offsetPdpe_direct hlow, offsetPde_direct hlow,
      nextTable_kernelEntry (by omega) h.pml4, Option.bind_eq_bind, Option.bind_some,
      nextTable_kernelEntry (by omega) h.pdpt, Option.bind_some]
    exact nextTable_kernelEntry (by omega) (h.pd _ (by omega) (by omega))
  rw [Machine.translate, leaf, htable, offsetPte_direct hlow]
  exact nextTable_kernelEntry hmax (h.pt n hn hlt)

theorem write_same {mem : Word → Fin 512 → Word} {t : Word} {i : Fin 512} {w : Word}
    (h : mem t i = w) : write mem t i w = mem := by
  funext u j
  rw [write_apply]
  split
  · rename_i heq
    rw [heq.1, heq.2, h]
  · rfl

theorem descend_eq_self (hg : Aligned g) (hflags : FlagWord flags)
    (h : m.mem t i = g ||| flags) : m.descend t i flags = (g, m) := by
  rw [descend, h, if_pos (present_or hg hflags), frame_or hg hflags.small]
  exact Prod.ext rfl (congrArg (fun mem => { m with mem := mem }) (write_same h))

/-- Mapping again what is mapped leaves the machine as it is. -/
theorem DirectTables.mapPage (h : DirectTables first last m) (hn : 512 ≤ n) (hlt : n < last)
    (hmax : n < maxPages) : m.mapPage m.cr3 (kernelVirtualBase + pageAddress n) (pageAddress n)
      kernelRwFlags = m := by
  have hfits := h.fits
  have hflags := kernelRwFlags_flagWord
  have hlow : n < 2 ^ 18 := hmax.trans (by decide)
  rw [Machine.mapPage, offsetPml4_direct hlow, offsetPdpe_direct hlow, offsetPde_direct hlow,
    offsetPte_direct hlow, descend_eq_self (aligned_pageAddress (by omega)) hflags h.pml4]
  simp only
  rw [descend_eq_self (aligned_pageAddress (by omega)) hflags h.pdpt]
  simp only
  rw [descend_eq_self (aligned_pageAddress (by omega)) hflags
    (h.pd (n / 512) (by omega) (by omega))]
  exact congrArg (fun mem => { m with mem := mem }) (write_same (h.pt n hn hlt))

theorem DirectTables.mapFresh (h : DirectTables first last m) (hstock : m.phys.Stock n bound)
    (hroom : n + 10 ≤ bound) (hn : 512 ≤ n) (hlt : n < last) (hbound : bound ≤ maxPages) :
    (m.mapFresh (kernelVirtualBase + pageAddress n) kernelRwFlags).mem = m.mem ∧
      (m.mapFresh (kernelVirtualBase + pageAddress n) kernelRwFlags).phys.Stock (n + 1) bound := by
  obtain ⟨hframe, hrest⟩ := hstock.getFreePage hroom
  rw [← getFreePage_fst] at hframe
  have htables : DirectTables first last m.getFreePage.2 := h.congr rfl rfl
  rw [Machine.mapFresh, updatePageTables, hframe, htables.mapPage hn hlt (by omega)]
  exact ⟨rfl, hrest⟩

theorem pageAddress_add (n i : Nat) :
    pageAddress n + BitVec.ofNat 64 (i * 4096) = pageAddress (n + i) := by
  rw [pageAddress, pageAddress, BitVec.ofNat_add, BitVec.add_mul, BitVec.ofNat_mul]
  rfl

/-- `kmalloc` of `k` pages takes the next `k` frames and leaves memory as
it is. -/
theorem DirectTables.kmallocPages (h : DirectTables first last m) (hstock : m.phys.Stock n bound)
    (hn : 512 ≤ n) (hbound : bound ≤ maxPages) : ∀ k, n + k + 9 ≤ bound → n + k ≤ last →
    ((List.range k).foldl kmallocPage (0, m)).2.mem = m.mem ∧
      ((List.range k).foldl kmallocPage (0, m)).2.cr3 = m.cr3 ∧
      ((List.range k).foldl kmallocPage (0, m)).2.phys.Stock (n + k) bound
  | 0, _, _ => ⟨rfl, rfl, hstock⟩
  | k + 1, hroom, hlast => by
      obtain ⟨hmem, hcr3, hstock'⟩ := h.kmallocPages hstock hn hbound k (by omega) (by omega)
      have hframe : m.getFreePage.1 = pageAddress n := (hstock.getFreePage (by omega)).1
      have halloc := kmallocPages_fst m (Nat.succ_pos k)
      rw [hframe] at halloc
      rw [List.range_succ, List.foldl_append, List.foldl_cons, List.foldl_nil] at halloc ⊢
      generalize (List.range k).foldl kmallocPage (0, m) = r at halloc hmem hcr3 hstock' ⊢
      have hsnd : (kmallocPage r k).2
          = r.2.mapFresh (kernelVirtualBase + pageAddress (n + k)) kernelRwFlags := by
        rw [kmallocPage_snd, halloc, BitVec.add_assoc, pageAddress_add]
      obtain ⟨hmem', hstock''⟩ := (h.congr hmem hcr3).mapFresh hstock' (by omega) (by omega)
        (by omega) hbound
      refine ⟨?_, ?_, ?_⟩
      · rw [hsnd, hmem', hmem]
      · rw [hsnd, Machine.mapFresh, updatePageTables_cr3]
        exact hcr3
      · rw [hsnd]
        exact hstock''

theorem DirectTables.kmalloc (h : DirectTables first last m) (hstock : m.phys.Stock n bound)
    (hn : 512 ≤ n) (hbound : bound ≤ maxPages) {bytes : BitVec 32} (hpos : 0 < noOfPages bytes)
    (hroom : n + noOfPages bytes + 9 ≤ bound) (hlast : n + noOfPages bytes ≤ last) :
    (m.kmalloc bytes).1 = kernelVirtualBase + pageAddress n ∧
      (m.kmalloc bytes).2.mem = m.mem ∧ DirectTables first last (m.kmalloc bytes).2 ∧
      (m.kmalloc bytes).2.phys.Stock (n + noOfPages bytes) bound := by
  obtain ⟨hmem, hcr3, hstock'⟩ := h.kmallocPages hstock hn hbound (noOfPages bytes) hroom hlast
  have hframe : m.getFreePage.1 = pageAddress n := (hstock.getFreePage (by omega)).1
  have hfst := kmallocPages_fst m hpos
  rw [hframe] at hfst
  rw [Machine.kmalloc]
  generalize (List.range (noOfPages bytes)).foldl kmallocPage (0, m) = r at hfst hmem hcr3 hstock' ⊢
  exact ⟨by rw [hfst], hmem, h.congr hmem hcr3, hstock'⟩

end DirectTables

/-! ## What `init_paging` leaves -/

section Paging

variable {first bound p : Nat} {m m' : Machine} {physfree : Word}

/-- One more page of the map, seen from a frame that is none of its
tables. -/
theorem directStore_other {n q b : Nat} {mem : Word → Fin 512 → Word} (hq : q ≠ b)
    (hmax : q < maxPages) (hfirst : first + 2 < maxPages) (htable : b < first ∨ first + 2 < b)
    (hb : b < maxPages) : directStore mem first n q (pageAddress b) = mem (pageAddress b) := by
  funext i
  rw [directStore_apply hmax hfirst hb, if_neg (by omega), if_neg (by omega),
    if_neg (by omega), if_neg (by omega)]

/-- The loop writes to its own tables only. -/
theorem initPagingLoop_others (hal : physfree.toNat = first * 4096) (hbound : bound ≤ maxPages)
    (hfits : first + pagingFrames bound ≤ maxPages) :
    ∀ {fuel p : Nat} {m m' : Machine}, Mapping first bound p m → p ≤ maxPages →
      initPagingLoop (pageAddress first) physfree fuel (kernelVirtualBase + pageAddress p)
        (pageAddress p) m = some m' → ¬ m'.phys.getFreePagesCount < minPages →
      ∀ b, b < first ∨ first + pagingFrames bound ≤ b → b < maxPages →
        m'.mem (pageAddress b) = m.mem (pageAddress b)
  | 0, _, _, _, _, _, hrun, _ => by cases hrun
  | fuel + 1, p, m, m', h, hp, hrun, hmin => by
      intro b hb hmax
      have hroom := h.room
      have hstart := h.start
      have hcount : m.phys.getFreePagesCount.toNat = bound - (first + usedAt p) := by
        rw [PhysMem.Counted.count_toNat h.stock, List.length_range']
      have hiff := lt_loopBound_iff (p := p) hal
        (show first + m.phys.getFreePagesCount.toNat ≤ maxPages by omega) hp
      rw [initPagingLoop] at hrun
      split at hrun
      · rename_i hlt
        rw [hiff, hcount] at hlt
        have hcond : p + usedAt p < bound := by omega
        have hframes := usedAt_lt_pagingFrames hstart hcond
        rw [usedAt_succ hstart] at hframes
        rw [BitVec.add_assoc, ← pageAddress_succ] at hrun
        obtain ⟨ts, hdraws⟩ := initPagingLoop_draws hrun
        have hserved : ∀ {P : Prop}, (m.mapPage (pageAddress first)
            (kernelVirtualBase + pageAddress p) (pageAddress p)
            kernelRwFlags).phys.getFreePagesCount < minPages → P := by
          intro P hlow
          rw [hdraws.phys.count_of_refused hlow] at hmin
          exact absurd hlow hmin
        rcases h.step_store hbound hcond with ⟨hlow, -⟩ | ⟨hmem, -, -⟩
        · exact hserved hlow
        rcases h.step hbound hcond with ⟨hlow, -⟩ | hnext
        · exact hserved hlow
        rw [initPagingLoop_others hal hbound hfits hnext (by omega) hrun hmin b hb hmax, hmem]
        exact directStore_other (by omega) (by omega) (by omega) (by omega) hmax
      · rw [← Option.some.inj hrun]

theorem Mapping.directTables (h : Mapping first bound p m) (hbound : bound ≤ maxPages)
    (hend : bound ≤ p + usedAt p) (hroom : first + pagingFrames bound ≤ bound)
    (hcr3 : m'.cr3 = pageAddress first)
    (hmem : m'.mem = directStore m.mem first 184 (first + 2 + (p + 511) / 512)) :
    DirectTables first p m' := by
  have hstart := h.start
  have hcases := usedAt_cases hstart
  have hreached := h.reached
  have hframes := pagingFrames_eq hstart h.reached hend
  have hmax : maxPages = 100000 := rfl
  have hq : first + 2 + (p + 511) / 512 < maxPages := by omega
  have hfirst : first + 2 < maxPages := by omega
  have hentry := fun b (hb : b < maxPages) i =>
    (congrFun (congrFun hmem (pageAddress b)) i).trans (directStore_apply hq hfirst hb i)
  refine ⟨by omega, ?_, ?_, fun j hj hlt => ?_, fun n hn hlt => ?_⟩
  · rw [hcr3, hentry _ (by omega), if_neg (by omega), if_neg (by omega), if_neg (by omega),
      if_pos ⟨rfl, rfl⟩]
  · rw [hentry _ (by omega), if_neg (by omega), if_neg (by omega), if_pos ⟨rfl, rfl⟩]
  · have hindex : (Fin.ofNat 512 j).val = j := by
      rw [Fin.val_ofNat]
      omega
    have hother : Fin.ofNat 512 j ≠ Fin.ofNat 512 (184 / 512) := by
      rw [ne_eq, ← Fin.val_inj, hindex, Fin.val_ofNat]
      omega
    rw [hentry _ hfirst, if_neg (by omega), if_neg fun hc => hother hc.2, if_neg (by omega),
      if_neg (by omega), h.pd, hindex, if_pos ⟨hj, hlt⟩]
  · have hsum : 512 * (n / 512) + (Fin.ofNat 512 n).val = n := by
      rw [Fin.val_ofNat]
      omega
    rw [hentry _ (by omega), if_neg (by omega), if_neg (by omega), if_neg (by omega),
      if_neg (by omega), h.pt _ (by omega) (by omega) (by omega), hsum, if_pos hlt]

end Paging

end Machine

/-! ## From power-on to the first process, frame by frame -/

open Machine

/-- What `init_paging` leaves behind on memory that held `mem`: the direct
map up to page `last`, its tables drawn from the front of the free list,
and every other frame as it was. -/
structure Started (first bound last : Nat) (mem : Word → Fin 512 → Word) (m : Machine) :
    Prop where
  ended : bound ≤ last + usedAt last
  cr3 : m.cr3 = pageAddress first
  tables : DirectTables first last m
  stock : m.phys.Stock (first + pagingFrames bound) bound
  account : m.Account (bound - first) (pagingFrames bound)
  taken : m.log.length = pagingFrames bound
  drawn : ∀ f ∈ m.log, ∃ n, first ≤ n ∧ n < first + pagingFrames bound ∧ f = pageAddress n
  others : ∀ b, b < first ∨ first + pagingFrames bound ≤ b → b < maxPages →
    m.mem (pageAddress b) = mem (pageAddress b)

theorem exists_booted {physfree base length : Word} {m : Machine}
    (hb : PhysMem.BootRegion physfree base length) (hlog : m.log = [])
    (hcleared : (m.initPhysicalMemory physfree base length).TablesCleared
      (PhysMem.firstPage physfree) (PhysMem.endPage base length))
    (hlow : 0 < PhysMem.firstPage physfree)
    (hroom : PhysMem.firstPage physfree + pagingFrames (PhysMem.endPage base length) + 53
      ≤ PhysMem.endPage base length) :
    ∃ m' last, Booted physfree base length m m' ∧
      Started (PhysMem.firstPage physfree) (PhysMem.endPage base length) last
        (m.initPhysicalMemory physfree base length).mem m' := by
  have hstock : (m.initPhysicalMemory physfree base length).phys.Stock
      (PhysMem.firstPage physfree) (PhysMem.endPage base length) :=
    (PhysMem.initPhysicalMemory_spec hb).1
  have hal : physfree.toNat = PhysMem.firstPage physfree * 4096 := by
    have := hb.aligned
    rw [PhysMem.firstPage]
    omega
  have hempty : (m.initPhysicalMemory physfree base length).log = [] :=
    (memsetPhysical_log ..).trans hlog
  have hbound : PhysMem.endPage base length ≤ maxPages := hb.pages_le
  have hmax : maxPages = 100000 := rfl
  suffices hstart : ∃ m' last, (m.initPhysicalMemory physfree base length).initPaging
        (PhysMem.endPage base length + 1) kernmem physbase physfree = some m' ∧
      Started (PhysMem.firstPage physfree) (PhysMem.endPage base length) last
        (m.initPhysicalMemory physfree base length).mem m' by
    obtain ⟨m', last, hpaging, hstarted⟩ := hstart
    have hpages : noOfPages sizeofKthread = 9 := rfl
    have hone : noOfPages sizeofFileObject = 1 := rfl
    have hkthread := hstarted.account.kmalloc sizeofKthread (by rw [hpages]; omega)
    have hstdin := hkthread.kmalloc sizeofFileObject (by rw [hpages, hone]; omega)
    have hstdout := hstdin.kmalloc sizeofFileObject (by rw [hpages, hone]; omega)
    refine ⟨m', last, ⟨hb, hlog, ⟨_, hpaging⟩, ?_⟩, hstarted⟩
    rw [World.boot_machine]
    exact hstdout.log
  generalize m.initPhysicalMemory physfree base length = boot at hcleared hstock hempty ⊢
  generalize PhysMem.firstPage physfree = first at hcleared hstock hal hlow hroom ⊢
  generalize PhysMem.endPage base length = bound at hcleared hstock hroom hbound ⊢
  have hroot : boot.getFreePage.1 = pageAddress first := (hstock.getFreePage (by omega)).1
  have hmapping := mapping_start hstock (by omega) hcleared
  obtain ⟨m₁, hrun, ⟨-, hc⟩ | ⟨p, hmap, hend⟩⟩ := initPagingLoop_mapping hal hbound (bound + 1)
    hmapping (by omega) (by omega)
  · omega
  rcases hmap.video_store hbound hend with ⟨-, hc⟩ | ⟨hmem, hstock', hfit⟩
  · omega
  have hpaging := hrun
  rw [← hroot] at hpaging
  have hvideo : physVideoMem = pageAddress 184 := rfl
  have hpaging := initPaging_of_loop hpaging
  rw [hvideo, hroot] at hpaging
  obtain ⟨ts, hdraws⟩ := initPagingLoop_draws hrun
  have hlast := m₁.mapPage_draws (pageAddress first) (kernelVirtualBase + pageAddress 184)
    (pageAddress 184) kernelRwFlags
  have hmin : ¬ (m₁.mapPage (pageAddress first) (kernelVirtualBase + pageAddress 184)
      (pageAddress 184) kernelRwFlags).phys.getFreePagesCount < minPages := by
    rw [hstock'.refused_iff]
    omega
  have hmin₁ : ¬ m₁.phys.getFreePagesCount < minPages := by
    intro hlt
    rw [hlast.phys.count_of_refused hlt] at hmin
    exact hmin hlt
  obtain ⟨us, hall⟩ : ∃ us, boot.Draws us (m₁.mapPage (pageAddress first)
      (kernelVirtualBase + pageAddress 184) (pageAddress 184) kernelRwFlags) :=
    ⟨_, ((getFreePage_draws boot).trans hdraws).trans hlast⟩
  have hts := hstock.all_served hlow hall.phys hmin
  obtain ⟨hstock'', hframes⟩ := hstock.draw hall.phys hts
  have hlen : pagingFrames bound = us.length := by
    have hcount := (PhysMem.Counted.count_toNat hstock').symm.trans
      (PhysMem.Counted.count_toNat hstock'')
    rw [List.length_range', List.length_range'] at hcount
    omega
  have hlog' := hall.log
  rw [hempty, List.append_nil] at hlog'
  refine ⟨_, p, hpaging, hend, rfl, hmap.directTables hbound hend hfit rfl hmem, hstock',
    ⟨⟨_, hstock', fun n hn => ?_, ?_⟩, ?_, ?_⟩, ?_, fun f hf => ?_, fun b hb hlt => ?_⟩
  · rw [List.mem_range'_1] at hn
    omega
  · rw [setNewCr3_log, hlog', List.length_range', ← hlen]
    omega
  · rw [setNewCr3_log, hlog']
    exact hts
  · rw [setNewCr3_log, hlog', ← hlen]
  · rw [setNewCr3_log, hlog', ← hlen]
  · rw [setNewCr3_log, hlog'] at hf
    rw [hlen]
    obtain ⟨n, hle, hlt, -, heq⟩ := hframes f hf
    exact ⟨n, hle, hlt, heq⟩
  · have hframes := pagingFrames_eq hmap.start hmap.reached hend
    rw [setNewCr3_mem, hmem, directStore_other (by omega) (by omega) (by omega) (by omega) hlt,
      initPagingLoop_others hal hbound (by omega) hmapping (by omega) hrun hmin₁ b hb hlt]
    rfl

/-- The direct map of a small memory ends at most nine pages before the
memory does. -/
theorem Started.lt_last {first bound last : Nat} {mem : Word → Fin 512 → Word} {m : Machine}
    (h : Started first bound last mem m) (hbound : bound ≤ 3594) : bound < last + 10 := by
  have hended := h.ended
  rw [usedAt] at hended
  split at hended <;> omega

/-- The world behind `init_idle_process`: its `kthread_t` took nine frames
and the file objects of the terminal two, and memory is as `init_paging`
left it. -/
theorem Started.boot {first bound last : Nat} {mem : Word → Fin 512 → Word} {m : Machine}
    (h : Started first bound last mem m) (hbound : bound ≤ 3594) (hlow : 512 ≤ first)
    (hroom : first + pagingFrames bound + 53 ≤ bound) :
    DirectTables first last (World.boot m).machine ∧ (World.boot m).machine.mem = m.mem ∧
      (World.boot m).machine.phys.Stock (first + pagingFrames bound + 11) bound ∧
      (World.boot m).machine.Account (bound - first) (pagingFrames bound + 44) ∧
      pagingFrames bound + 11 ≤ (World.boot m).machine.log.length := by
  have hpages : noOfPages sizeofKthread = 9 := rfl
  have hone : noOfPages sizeofFileObject = 1 := rfl
  have hlast := h.lt_last hbound
  have hmax : maxPages = 100000 := rfl
  have hpos : 0 < noOfPages sizeofKthread := by
    rw [hpages]
    omega
  obtain ⟨-, hmem, htables, hstock⟩ := h.tables.kmalloc h.stock (by omega) (by omega) hpos
    (by rw [hpages]; omega) (by rw [hpages]; omega)
  have haccount := h.account.kmalloc sizeofKthread (by rw [hpages]; omega)
  have hlen := m.kmalloc_length_log sizeofKthread
  rw [h.taken, hpages] at hlen
  rw [hpages] at hstock haccount
  rw [World.boot_machine, ← hmem]
  generalize (m.kmalloc sizeofKthread).2 = m₁ at htables hstock haccount hlen ⊢
  obtain ⟨-, hmem₂, htables₂, hstock₂⟩ := htables.kmalloc hstock (by omega) (by omega)
    (by rw [hone]; omega : 0 < noOfPages sizeofFileObject) (by rw [hone]; omega)
    (by rw [hone]; omega)
  have haccount₂ := haccount.kmalloc sizeofFileObject (by rw [hone]; omega)
  have hlen₂ := m₁.kmalloc_length_log sizeofFileObject
  rw [hone] at hstock₂ haccount₂ hlen₂
  rw [← hmem₂]
  generalize (m₁.kmalloc sizeofFileObject).2 = m₂ at htables₂ hstock₂ haccount₂ hlen₂ ⊢
  obtain ⟨-, hmem₃, htables₃, hstock₃⟩ := htables₂.kmalloc hstock₂ (by omega) (by omega)
    (by rw [hone]; omega : 0 < noOfPages sizeofFileObject) (by rw [hone]; omega)
    (by rw [hone]; omega)
  have haccount₃ := haccount₂.kmalloc sizeofFileObject (by rw [hone]; omega)
  have hlen₃ := m₂.kmalloc_length_log sizeofFileObject
  rw [hone] at hstock₃ haccount₃ hlen₃
  exact ⟨htables₃, hmem₃, hstock₃, haccount₃, by omega⟩

/-- A machine of 2304 pages, free from page 1024 on, boots. -/
theorem exists_booted_small : ∃ m' last,
    Booted 0x400000 0 0x900000 (filledMachine 0) m' ∧ Started 1024 2304 last
      ((filledMachine 0).initPhysicalMemory 0x400000 0 0x900000).mem m' := by
  have hb : PhysMem.BootRegion 0x400000 0 0x900000 :=
    ⟨by decide, by decide, by decide, by decide⟩
  exact exists_booted hb rfl (tablesCleared_of_le hb _ (by decide)) (by decide) (by decide)

namespace World

theorem createProcess_account {y : World} {phdrs : List Space.Elf64Phdr} {total used : Nat}
    (hacc : y.machine.Account total used)
    (hfit : used + Space.segmentFrames phdrs + 66 ≤ total) :
    (y.createProcess (some phdrs)).machine.Account total
      (used + Space.segmentFrames phdrs + 57) :=
  (Space.loadProcess_account hacc hfit).congr rfl rfl

/-- The block of a new process lies in the direct map. -/
theorem kmalloc_kthread {y : World} {first last n bound : Nat}
    (h : DirectTables first last y.machine) (hstock : y.machine.phys.Stock n bound) (hn : 512 ≤ n)
    (hbound : bound ≤ maxPages) (hroom : n + 18 ≤ bound) (hlast : n + 9 ≤ last) :
    (y.space.kmalloc sizeofKthread).2.machine.mem = y.machine.mem ∧
      DirectTables first last (y.space.kmalloc sizeofKthread).2.machine ∧
      (y.space.kmalloc sizeofKthread).2.machine.phys.Stock (n + 9) bound ∧
      y.machine.log.length + 9 ≤ (y.space.kmalloc sizeofKthread).2.machine.log.length := by
  have hpages : noOfPages sizeofKthread = 9 := rfl
  have hpos : 0 < noOfPages sizeofKthread := by
    rw [hpages]
    omega
  obtain ⟨-, hmem, htables, hstock'⟩ := h.kmalloc hstock hn hbound hpos (by rw [hpages]; omega)
    (by rw [hpages]; omega)
  have hlen := y.machine.kmalloc_length_log sizeofKthread
  rw [hpages] at hstock' hlen
  have hspace : ∀ n, (y.space.kmalloc n).2.machine = (y.machine.kmalloc n).2 := fun _ => rfl
  rw [hspace]
  exact ⟨hmem, htables, hstock', hlen⟩

end World

/-- The machine of 2304 pages has room for a process. -/
theorem exists_created_small : ∃ m' last pdpt,
    Booted 0x400000 0 0x900000 (filledMachine 0) m' ∧ Started 1024 2304 last
      ((filledMachine 0).initPhysicalMemory 0x400000 0 0x900000).mem m' ∧
      (World.boot m').Ok pdpt ∧
      ((World.boot m').createProcess (some [])).machine.Account 1280 109 := by
  obtain ⟨m', last, hbooted, hstarted⟩ := exists_booted_small
  obtain ⟨pdpt, hok⟩ := hbooted.ok (filledMachine_restZero _ _ _)
  obtain ⟨-, -, -, hacc, -⟩ := hstarted.boot (by decide) (by decide) (by decide)
  exact ⟨m', last, pdpt, hbooted, hstarted, hok, World.createProcess_account hacc (by decide)⟩

end SnowOs
