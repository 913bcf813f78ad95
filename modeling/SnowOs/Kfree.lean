import SnowOs.PageMap

/-!
# Giving kernel memory back

`kfree` has two defects that the allocator's books expose. It hands a
frame back only when the frame's reference count is zero, while every
block `kmalloc` returns is counted once; and on the path that does hand a
frame back it moves both counters, so the free count grows by two for one
page. Neither depends on the page tables: `kfree_phys` says what `kfree`
does to the allocator, and the rest is counting.
-/

namespace SnowOs

namespace PhysMem

/-- The free list exists and the count is its length: all that
`get_free_page` relies on. -/
def InStep (s : PhysMem) : Prop :=
  ∃ l, s.FreeList l ∧ s.getFreePagesCount.toNat = l.length

/-- Behind the `MIN_PAGES` test `free_list` is not null. -/
theorem InStep.freeList_ne_none {s : PhysMem} (h : s.InStep)
    (hmin : ¬ s.getFreePagesCount < minPages) : s.freeList ≠ none := by
  obtain ⟨l, hl, hlen⟩ := h
  rw [BitVec.lt_def, hlen, minPages_toNat] at hmin
  obtain ⟨n, t, -, hhead⟩ := hl.head_ne_none (by omega)
  rw [hhead]
  exact Option.some_ne_none n

theorem InStep.getFreePage {s : PhysMem} (h : s.InStep) : s.getFreePage.2.InStep := by
  by_cases hmin : s.getFreePagesCount < minPages
  · rw [getFreePage_refused hmin]
    exact h
  · obtain ⟨l, hl, hlen⟩ := h
    have hmin' := hmin
    rw [BitVec.lt_def, hlen, minPages_toNat] at hmin'
    obtain ⟨n, t, rfl, hhead⟩ := hl.head_ne_none (by omega)
    rw [PhysMem.getFreePage, if_neg hmin, hhead]
    refine ⟨t, ?_, ?_⟩
    · show Linked.Chain (setPageRefCount _ _ s).next ((setPageRefCount _ _ s).next n) t
      rw [setPageRefCount_next]
      exact hl.2
    · show (s.maxFreePagesAvailable - (s.pagesUsed + 1)).toNat = t.length
      rw [getFreePagesCount] at hlen
      rw [List.length_cons] at hlen
      bv_omega

/-- The count after `add_back_free_pages(p, 1)` and `update_max_pages(1)`
together: one page, two on the count. -/
theorem getFreePagesCount_giveBack (s : PhysMem) (a : Word) :
    ((s.addBackFreePages a 1).updateMaxPages 1).getFreePagesCount
      = s.getFreePagesCount + 2 := by
  have hcount := (gave_addBackFreePages a s).count
  rw [getFreePagesCount] at hcount ⊢
  show (s.addBackFreePages a 1).maxFreePagesAvailable + 1 - (s.addBackFreePages a 1).pagesUsed
    = _
  bv_omega

/-- Handing a page back the way `kfree` does always leaves the books
wrong. -/
theorem InStep.not_giveBack {s : PhysMem} (h : s.InStep) (a : Word) :
    ¬ ((s.addBackFreePages a 1).updateMaxPages 1).InStep := by
  rintro ⟨l', hl', hlen'⟩
  obtain ⟨l, hl, hlen⟩ := h
  obtain ⟨-, rfl⟩ := (freeList_addBackFreePages_iff hl a).mp hl'
  rw [getFreePagesCount_giveBack, BitVec.toNat_add, hlen, List.length_cons] at hlen'
  have hlt := s.getFreePagesCount.isLt
  rw [hlen] at hlt
  have htwo : BitVec.toNat (2 : Word) = 2 := rfl
  rw [htwo] at hlen'
  omega

end PhysMem

namespace Machine

/-! ## What `kfree` does to the allocator -/

@[simp] theorem memset_phys (m : Machine) (a : Word) (v : Byte) (b : Nat) :
    (m.memset a v b).phys = m.phys := by
  unfold memset
  induction List.range b generalizing m with
  | nil => rfl
  | cons i is ih => rw [List.foldl_cons, ih, writeByte_phys]

@[simp] theorem removePageTableMapping_phys (m : Machine) (v : Word) :
    (m.removePageTableMapping v).phys = m.phys := by
  unfold removePageTableMapping
  split <;> rfl

theorem releasePage_phys (m : Machine) (ptr phyAddr : Word) :
    (m.releasePage ptr phyAddr).phys
      = (m.phys.addBackFreePages phyAddr 1).updateMaxPages 1 := by
  rw [releasePage, removePageTableMapping_phys]

theorem kfree_of_keepsFrame {m : Machine} {ptr : Word} (h : m.keepsFrame ptr = true) :
    m.kfree ptr = m := by
  rw [kfree, if_pos h]

theorem kfree_phys {m : Machine} {ptr : Word} (h : ¬ m.keepsFrame ptr = true) :
    (m.kfree ptr).phys
      = (m.phys.addBackFreePages (m.walkPageTable ptr) 1).updateMaxPages 1 := by
  rw [kfree, if_neg h, releasePage_phys, memset_phys]

/-! ## Accounting -/

/-- Runs of `get_free_page` and `kfree` in which every `kfree` takes its
early return. -/
inductive KeepingRun (m : Machine) : Machine → Prop
  | start : KeepingRun m m
  | get {m' : Machine} : KeepingRun m m' → KeepingRun m m'.getFreePage.2
  | free {m' : Machine} (ptr : Word) : KeepingRun m m' → m'.keepsFrame ptr = true →
      KeepingRun m (m'.kfree ptr)

theorem KeepingRun.inStep {m m' : Machine} (h : KeepingRun m m') (hm : m.phys.InStep) :
    m'.phys.InStep := by
  induction h with
  | start => exact hm
  | get _ ih => exact ih.getFreePage
  | free ptr _ hkeep ih =>
      rw [kfree_of_keepsFrame hkeep]
      exact ih

theorem inStep_kfree_iff {m : Machine} (hm : m.phys.InStep) (ptr : Word) :
    (m.kfree ptr).phys.InStep ↔ m.keepsFrame ptr = true := by
  constructor
  · intro h
    by_contra hgive
    rw [kfree_phys hgive] at h
    exact hm.not_giveBack _ h
  · intro hkeep
    rw [kfree_of_keepsFrame hkeep]
    exact hm

/-- `kfree` keeps the count equal to the length of the list exactly when
it hands nothing back; and in a run in which every `kfree` takes that
early return the count is the length throughout, so that `free_list` is
never null behind the `MIN_PAGES` test. -/
theorem kfree_accounting {m : Machine} (hm : m.phys.InStep) :
    (∀ ptr, (m.kfree ptr).phys.InStep ↔ m.keepsFrame ptr = true)
      ∧ ∀ m', KeepingRun m m' → m'.phys.InStep
          ∧ (¬ m'.phys.getFreePagesCount < minPages → m'.phys.freeList ≠ none) := by
  refine ⟨inStep_kfree_iff hm, fun m' hrun => ?_⟩
  have hstep := hrun.inStep hm
  exact ⟨hstep, hstep.freeList_ne_none⟩

theorem blankMachine_inStep : (blankMachine 0x9000 0x20000).phys.InStep :=
  ⟨(List.range 23).map (9 + ·), by decide +kernel, by decide +kernel⟩

theorem kfree_accounting_blank :
    (∀ ptr, ((blankMachine 0x9000 0x20000).kfree ptr).phys.InStep
        ↔ (blankMachine 0x9000 0x20000).keepsFrame ptr = true)
      ∧ (blankMachine 0x9000 0x20000).getFreePage.2.phys.InStep :=
  ⟨(kfree_accounting blankMachine_inStep).1,
    ((kfree_accounting blankMachine_inStep).2 _ (.get .start)).1⟩

/-- A page of the kernel image, mapped and never counted, is one `kfree`
does hand back: the list grows by one page, the count by two. -/
theorem kfree_count_drifts :
    ((blankMachine 0x9000 0x20000).updatePageTables 0x5000 0x2000 3).phys.InStep
      ∧ ¬ ((blankMachine 0x9000 0x20000).updatePageTables 0x5000 0x2000 3).keepsFrame 0x5000
          = true
      ∧ ¬ (((blankMachine 0x9000 0x20000).updatePageTables 0x5000 0x2000 3).kfree
          0x5000).phys.InStep := by
  have hstep : ((blankMachine 0x9000 0x20000).updatePageTables 0x5000 0x2000 3).phys.InStep :=
    ⟨(List.range 20).map (12 + ·), by decide +kernel, by decide +kernel⟩
  have hgive : ¬ ((blankMachine 0x9000 0x20000).updatePageTables 0x5000 0x2000 3).keepsFrame
      0x5000 = true := by decide +kernel
  refine ⟨hstep, hgive, ?_⟩
  rw [kfree_phys hgive]
  exact hstep.not_giveBack _

/-! ## A block and its release -/

/-- What freeing the block `b` of `pages` pages in `m'` should restore of
the state `m` before its allocation. -/
structure Undone (m m' : Machine) (b : Word) (pages : Nat) : Prop where
  frames : ∃ l l', m.phys.FreeList l ∧ m'.phys.FreeList l' ∧ ∀ n, n ∈ l' ↔ n ∈ l
  count : m'.phys.getFreePagesCount = m.phys.getFreePagesCount
  unmapped : ∀ i < pages, m'.walkPageTable (b + BitVec.ofNat 64 (i * 4096)) = 0

theorem kmallocPage_draws (r : Word × Machine) (i : Nat) :
    ∃ ts, r.2.getFreePage.2.Draws ts (kmallocPage r i).2 :=
  ⟨_, mapPage_draws ..⟩

theorem kmallocPages_draws (is : List Nat) (r : Word × Machine) :
    ∃ ts, r.2.Draws ts (is.foldl kmallocPage r).2 := by
  induction is generalizing r with
  | nil => exact ⟨[], .refl _⟩
  | cons i is ih =>
      obtain ⟨ts, h₁⟩ := kmallocPage_draws r i
      obtain ⟨us, h₂⟩ := ih (kmallocPage r i)
      exact ⟨_, ((getFreePage_draws r.2).trans h₁).trans h₂⟩

theorem kmalloc_draws (m : Machine) (n : BitVec 32) : ∃ ts, m.Draws ts (m.kmalloc n).2 :=
  kmallocPages_draws _ (0, m)

/-- `allocated_addr` is the first frame, from the first round on. -/
theorem kmallocPages_fst (m : Machine) {k : Nat} (hk : 0 < k) :
    ((List.range k).foldl kmallocPage (0, m)).1 = m.getFreePage.1 := by
  induction k with
  | zero => exact absurd hk (Nat.lt_irrefl 0)
  | succ k ih =>
      rw [List.range_succ, List.foldl_append, List.foldl_cons, List.foldl_nil]
      cases k with
      | zero => rfl
      | succ k => exact ih (Nat.succ_pos k)

theorem noOfPages_pos {n : BitVec 32} (hn : n ≠ 0) : 0 < noOfPages n := by
  have hpos : 0 < n.toNat := by
    rw [Nat.pos_iff_ne_zero]
    exact fun h => hn (BitVec.eq_of_toNat_eq h)
  unfold noOfPages
  split <;> omega

/-- `kmalloc` of a nonempty block unlinks at least one frame. -/
theorem kmalloc_unlinks {m : Machine} {l : List Nat} (h : m.phys.Counted l)
    (hmin : ¬ m.phys.getFreePagesCount < minPages) {n : BitVec 32} (hn : n ≠ 0) :
    ∃ k ns l', l = k :: (ns ++ l') ∧ (m.kmalloc n).2.phys.Counted l' := by
  obtain ⟨k, t, rfl, -, ht, -⟩ := h.getFreePage hmin
  obtain ⟨pages, hpages⟩ := Nat.exists_eq_add_of_lt (noOfPages_pos hn)
  obtain ⟨ts, h₁⟩ := kmallocPage_draws (0, m) 0
  obtain ⟨us, h₂⟩ := kmallocPages_draws ((List.range pages).map (· + 1)) (kmallocPage (0, m) 0)
  have hrun : (m.kmalloc n).2
      = (((List.range pages).map (· + 1)).foldl kmallocPage (kmallocPage (0, m) 0)).2 := by
    rw [kmalloc, hpages, Nat.zero_add, List.range_succ_eq_map, List.foldl_cons]
  obtain ⟨ns, l', rfl, hl', -⟩ := ht.draw (h₁.trans h₂).phys
  rw [hrun]
  exact ⟨k, ns, l', rfl, hl'⟩

/-- The free list cannot be whole again and the count right: freeing
restores at most one page, and then counts it twice. -/
theorem kfree_not_restores {m m' : Machine} {k : Nat} {ns l' : List Nat}
    (h : m.phys.Counted (k :: (ns ++ l'))) (h' : m'.phys.Counted l') (ptr : Word)
    {l₀ l₁ : List Nat} (h₀ : m.phys.FreeList l₀) (h₁ : (m'.kfree ptr).phys.FreeList l₁)
    (hmem : ∀ n, n ∈ l₁ ↔ n ∈ l₀)
    (hcount : (m'.kfree ptr).phys.getFreePagesCount = m.phys.getFreePagesCount) : False := by
  obtain rfl := h₀.unique h.list
  have hnodup := h.list.nodup
  have hlen := h.length_lt
  have hperm := (List.perm_ext_iff_of_nodup h₁.nodup hnodup).mpr hmem
  have hlength := hperm.length_eq
  simp only [List.length_cons, List.length_append, maxPages] at hlength hlen
  by_cases hkeep : m'.keepsFrame ptr = true
  · rw [kfree_of_keepsFrame hkeep] at h₁
    rw [h₁.unique h'.list] at hlength
    omega
  · rw [kfree_phys hkeep] at h₁ hcount
    obtain ⟨-, rfl⟩ := (PhysMem.freeList_addBackFreePages_iff h'.list _).mp h₁
    rw [PhysMem.getFreePagesCount_giveBack, h.count, h'.count] at hcount
    have hnat := congrArg BitVec.toNat hcount
    simp only [List.length_cons, List.length_append] at hlength hnat
    have htwo : BitVec.toNat (2 : Word) = 2 := rfl
    rw [BitVec.toNat_add, BitVec.toNat_ofNat, BitVec.toNat_ofNat, htwo] at hnat
    omega

/-- Whatever the block, `kfree` never undoes `kmalloc`. -/
theorem kfree_never_undoes_kmalloc {m : Machine} {l : List Nat} (h : m.phys.Counted l)
    (hmin : ¬ m.phys.getFreePagesCount < minPages) {n : BitVec 32} (hn : n ≠ 0) :
    ¬ Undone m ((m.kmalloc n).2.kfree (m.kmalloc n).1) (m.kmalloc n).1 (noOfPages n) := by
  intro hundone
  obtain ⟨k, ns, l', rfl, hl'⟩ := kmalloc_unlinks h hmin hn
  obtain ⟨l₀, l₁, h₀, h₁, hmem⟩ := hundone.frames
  exact kfree_not_restores h hl' _ h₀ h₁ hmem hundone.count

theorem blankMachine_counted :
    (blankMachine 0x2000 0x20000).phys.Counted ((List.range 30).map (2 + ·)) where
  list := by decide +kernel
  count := by decide +kernel
  named := by decide +kernel
  bounded := by decide +kernel

theorem kfree_never_undoes_kmalloc_one :
    ¬ Undone (blankMachine 0x2000 0x20000)
      (((blankMachine 0x2000 0x20000).kmalloc 1).2.kfree
        ((blankMachine 0x2000 0x20000).kmalloc 1).1)
      ((blankMachine 0x2000 0x20000).kmalloc 1).1 (noOfPages 1) :=
  kfree_never_undoes_kmalloc blankMachine_counted (by decide +kernel) (by decide)

/-- One page is asked for and freed at once, its frame counted once: the
four frames `kmalloc` took stay taken. -/
theorem kfree_kmalloc_leaks :
    (((blankMachine 0x2000 0x20000).kmalloc 1).2.phys.getPageRefCount
        (((blankMachine 0x2000 0x20000).kmalloc 1).2.walkPageTable
          ((blankMachine 0x2000 0x20000).kmalloc 1).1) = 1)
      ∧ (blankMachine 0x2000 0x20000).phys.getFreePagesCount = 30
      ∧ (((blankMachine 0x2000 0x20000).kmalloc 1).2.kfree
          ((blankMachine 0x2000 0x20000).kmalloc 1).1).phys.getFreePagesCount = 26
      ∧ ¬ Undone (blankMachine 0x2000 0x20000)
          (((blankMachine 0x2000 0x20000).kmalloc 1).2.kfree
            ((blankMachine 0x2000 0x20000).kmalloc 1).1)
          ((blankMachine 0x2000 0x20000).kmalloc 1).1 (noOfPages 1) := by
  have hbefore : (blankMachine 0x2000 0x20000).phys.getFreePagesCount = 30 := by decide +kernel
  have hafter : (((blankMachine 0x2000 0x20000).kmalloc 1).2.kfree
      ((blankMachine 0x2000 0x20000).kmalloc 1).1).phys.getFreePagesCount = 26 := by
    decide +kernel
  refine ⟨by decide +kernel, hbefore, hafter, fun h => ?_⟩
  have hcount := h.count
  rw [hbefore, hafter] at hcount
  exact absurd hcount (by decide)

end Machine

end SnowOs
