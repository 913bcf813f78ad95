import SnowOs.DirectHeap

/-!
# The shared kernel half

Every new root gets entry 511 of the root that is loaded, so all processes
share one PDPT behind it. On zeroed memory this stays so in every run
(`Booted.kernel_half`): tables are trees of their own below the root, and
no mapping in the user half reaches another root.

Frames are not cleared when they are drawn, and boot clears the first
eighth only. A root drawn from memory that was not zero has entries in its
user half already. If they name the root of another process, loading a
program overwrites entry 511 there (`kernel_half_lost`).
-/

namespace SnowOs

open Radix Machine

namespace World

/-- The kernel halves agree: entry 511 of every root names `pdpt`, and
kernel addresses translate the same way in every process. -/
structure KernelHalf (y : World) (pdpt : Word) : Prop where
  shared : ∀ p ∈ y.procs, y.machine.nextTable p.task.cr3 511 = some pdpt
  agree : ∀ p ∈ y.procs, ∀ q ∈ y.procs, ∀ v, offsetPml4 v = 511 →
    y.machine.translate p.task.cr3 v = y.machine.translate q.task.cr3 v

/-- Behind one PDPT the rest of the walk is the same. -/
theorem translate_congr {m : Machine} {r s v : Word}
    (h : m.nextTable r (offsetPml4 v) = m.nextTable s (offsetPml4 v)) :
    m.translate r v = m.translate s v := by
  have htable : m.pageTable r v = m.pageTable s v := by
    rw [pageTable, pageTable, h]
  rw [Machine.translate, Machine.translate, leaf, leaf, htable]

theorem Ok.kernelHalf {y : World} {pdpt : Word} (h : y.Ok pdpt) : y.KernelHalf pdpt := by
  have hshared : ∀ p ∈ y.procs, y.machine.nextTable p.task.cr3 511 = some pdpt := by
    intro p hp
    have hfollow := h.owned.shared pdpt rfl _ (mem_roots hp)
    rw [follow_cons_eq] at hfollow
    obtain ⟨t, ht, hpdpt⟩ := Option.bind_eq_some_iff.mp hfollow
    rw [ht, ← hpdpt]
    rfl
  refine ⟨hshared, fun p hp q hq v hv => translate_congr ?_⟩
  rw [hv, hshared p hp, hshared q hq]

end World

/-- **Kernel half agreement.** From zeroed memory on, all processes share
one PDPT in every run, and reaping one of them changes no translation. -/
theorem Booted.kernel_half {physfree base length : Word} {m m' : Machine}
    (h : Booted physfree base length m m') (hzero : m.RestZero physfree base length) :
    ∃ pdpt, ∀ y, World.Run (World.boot m') y →
      y.KernelHalf pdpt ∧ ∀ p ∈ y.procs, ∀ r v,
        (y.reapProcess p).machine.translate r v = y.machine.translate r v := by
  obtain ⟨pdpt, hok⟩ := h.ok hzero
  refine ⟨pdpt, fun y hrun => ?_⟩
  obtain ⟨hy, -⟩ := hrun.ok hok
  refine ⟨hy.kernelHalf, fun p hp r v => ?_⟩
  rw [hy.reapProcess hp]
  rfl

/-- The idle process and one more, on a small machine. -/
theorem kernel_half_small : ∃ m' pdpt,
    ((World.boot m').createProcess (some [])).procs.length = 2 ∧
      ((World.boot m').createProcess (some [])).KernelHalf pdpt := by
  obtain ⟨m', last, -, hbooted, -, -, hcreated⟩ := exists_created_small
  obtain ⟨pdpt, hruns⟩ := hbooted.kernel_half (filledMachine_restZero _ _ _)
  exact ⟨m', pdpt, rfl,
    (hruns _ (.step .refl (.createProcess Space.loadable_nil) hcreated.log)).1⟩

/-! ## Entries that stay while a process is loaded -/

section Pinned

variable {S : List (Word × Fin 512 × Word)} {m m' : Machine} {root v flags : Word}
  {n : BitVec 32} {bound : Nat}

/-- Few frames have been handed out, and no request was refused. -/
structure Early (m : Machine) : Prop where
  served : (0 : Word) ∉ m.log
  few : m.log.length ≤ 160

theorem Early.of_suffix (h : Early m') (hlog : m.log <:+ m'.log) : Early m :=
  ⟨fun hc => h.served (hlog.subset hc), hlog.length_le.trans h.few⟩

/-- The entries `S` name the tables and frames listed, `root` is loaded,
and the free frames come in order behind the twenty or more from page 1024
on that are taken. -/
structure Pinned (S : List (Word × Fin 512 × Word)) (root : Word) (bound : Nat) (m : Machine) :
    Prop where
  entries : ∀ x ∈ S, m.nextTable x.1 x.2.1 = some x.2.2
  cr3 : m.cr3 = root
  stock : ∃ k, 1044 ≤ k ∧ k ≤ 1024 + m.log.length ∧ m.phys.Stock k bound

theorem mapFresh_draws (m : Machine) (v flags : Word) : ∃ ts, m.Draws ts (m.mapFresh v flags) :=
  ⟨_, (getFreePage_draws m).trans (mapPage_draws ..)⟩

/-- Mapping a fresh frame draws from the stock, whatever the tables are. -/
theorem mapFresh_stock {k : Nat} (hk : k ≤ 1024 + m.log.length) (hstock : m.phys.Stock k bound)
    (hlog : (0 : Word) ∉ (m.mapFresh v flags).log) :
    m.getFreePage.1 = pageAddress k ∧ k + 10 ≤ bound ∧
      ∃ k', k ≤ k' ∧ k' ≤ 1024 + (m.mapFresh v flags).log.length ∧
        (m.mapFresh v flags).phys.Stock k' bound := by
  obtain ⟨ts, hdraws⟩ := mapFresh_draws m v flags
  have hserved : m.getFreePage.1 ≠ 0 := by
    intro hc
    have hfirst : m.getFreePage.1 ∈ (m.mapFresh v flags).log :=
      (mapPage_draws ..).log ▸ List.mem_append_right _ (List.mem_cons_self ..)
    exact hlog (hc ▸ hfirst)
  rw [hdraws.log, List.mem_append, not_or] at hlog
  have hroom := hstock.room_of_ne hserved
  refine ⟨(hstock.getFreePage hroom).1, hroom, _, Nat.le_add_right k ts.length, ?_,
    (hstock.draw hdraws.phys hlog.1).1⟩
  rw [hdraws.log, List.length_append]
  omega

theorem Pinned.mapFresh (h : Pinned S root bound m) (hflags : FlagWord flags)
    (hv : ∀ x ∈ S, offsetPte v ≠ x.2.1) (hearly : Early (m.mapFresh v flags)) :
    Pinned S root bound (m.mapFresh v flags) := by
  obtain ⟨k, hlow, hk, hstock⟩ := h.stock
  obtain ⟨-, -, k', hle, hk', hstock'⟩ := mapFresh_stock hk hstock hearly.served
  refine ⟨fun x hx => ?_, ?_, k', hlow.trans hle, hk', hstock'⟩
  · have hentry : m.getFreePage.2.nextTable x.1 x.2.1 = some x.2.2 := h.entries x hx
    exact nextTable_mapPage hentry hflags (hv x hx)
  · rw [Machine.mapFresh, updatePageTables_cr3]
    exact h.cr3

/-- The kernel heap maps these pages between entries 20 and 184 of a
table. -/
theorem Pinned.kmalloc (h : Pinned S root bound m) (hn : noOfPages n = 1)
    (hS : ∀ x ∈ S, x.2.1.val < 20 ∨ 184 < x.2.1.val) (hearly : Early (m.kmalloc n).2) :
    Pinned S root bound (m.kmalloc n).2 := by
  have hbefore := hearly.of_suffix (kmalloc_log_suffix m n)
  rw [kmalloc_onePage m hn] at hearly ⊢
  obtain ⟨k, hlow, hk, hstock⟩ := h.stock
  obtain ⟨hframe, hroom, -⟩ := mapFresh_stock hk hstock hearly.served
  refine h.mapFresh kernelRwFlags_flagWord (fun x hx heq => ?_) hearly
  have hmax : maxPages = 100000 := rfl
  have hfew := hbefore.few
  have hindex := hS x hx
  rw [← heq, hframe, offsetPte_direct (by omega), Fin.val_ofNat] at hindex
  omega

end Pinned

/-! ## A root that was not empty -/

section Stale

/-- Zeroed memory, but for page 1050: entry 0 names the page itself, and
entry 1 page 1024. -/
def staleMachine : Machine :=
  ((filledMachine 0).setEntry (pageAddress 1050) 0 (pageAddress 1050 ||| userRwFlags)).setEntry
    (pageAddress 1050) 1 (pageAddress 1024 ||| userRwFlags)

/-- A program of one page, the last one that its page directory entry 1
covers. -/
def lastPage : Space.Elf64Phdr :=
  { pType := 1, pFlags := 5, pVaddr := 0x3FF000, pMemsz := 16, contents := [] }

/-- The machine behind `load_file` of the one page: its VMA, two pages,
and the heap and the stack with their VMAs. -/
theorem loadFile_lastPage (s : Space) (task : Task) :
    (s.loadFile task (some [lastPage])).2.machine
      = ((((((s.machine.kmalloc sizeofVmaStruct).2.mapFresh 0x3FF000 userRwFlags).mapFresh 0x400000
          userRwFlags).kmalloc sizeofVmaStruct).2.mapFresh heapStart userRwFlags).kmalloc
            sizeofVmaStruct).2.mapFresh stackStart userRwFlags := by
  have hsegs : (s.loadSegments [lastPage] 0 0).2.machine
      = ((s.machine.kmalloc sizeofVmaStruct).2.mapPages lastPage.pages 0x3FF000) :=
    s.loadSegment_machine lastPage 0 0
  have hpages : lastPage.pages = 2 := by decide
  rw [Space.loadFile_machine, hsegs, hpages]
  rfl

/-- Loading the page under the stale root moves entry 511 of page 1024. -/
theorem Pinned.loadFile {s : Space} {pdpt : Word} (task : Task)
    (h : Pinned [(pageAddress 1050, 511, pdpt), (pageAddress 1050, 0, pageAddress 1050),
      (pageAddress 1050, 1, pageAddress 1024)] (pageAddress 1050) 1184 s.machine)
    (hend : Early (s.loadFile task (some [lastPage])).2.machine) :
    ∃ k, 1044 ≤ k ∧ k < 1184 ∧
      (s.loadFile task (some [lastPage])).2.machine.nextTable (pageAddress 1024) 511
        = some (pageAddress k) ∧
      (s.loadFile task (some [lastPage])).2.machine.nextTable (pageAddress 1050) 511
        = some pdpt := by
  rw [loadFile_lastPage] at hend ⊢
  have hstackVma := hend.of_suffix (mapFresh_log_suffix ..)
  have hheap := hstackVma.of_suffix (kmalloc_log_suffix ..)
  have hheapVma := hheap.of_suffix (mapFresh_log_suffix ..)
  have hsecond := hheapVma.of_suffix (kmalloc_log_suffix ..)
  have hfirst := hsecond.of_suffix (mapFresh_log_suffix ..)
  have hvma := hfirst.of_suffix (mapFresh_log_suffix ..)
  have hone : noOfPages sizeofVmaStruct = 1 := rfl
  have hstart := h.kmalloc hone (by simp) hvma
  generalize (s.machine.kmalloc sizeofVmaStruct).2 = m at *
  obtain ⟨k, hlow, hk, hstock⟩ := hstart.stock
  obtain ⟨hframe, hroom, k', hle, hk', hstock'⟩ := mapFresh_stock hk hstock hfirst.served
  have hself : m.getFreePage.2.nextTable (pageAddress 1050) 0 = some (pageAddress 1050) :=
    hstart.entries (pageAddress 1050, 0, pageAddress 1050)
      (List.mem_cons_of_mem _ (List.mem_cons_self ..))
  have hother : m.getFreePage.2.nextTable (pageAddress 1050) 1 = some (pageAddress 1024) :=
    hstart.entries (pageAddress 1050, 1, pageAddress 1024)
      (List.mem_cons_of_mem _ (List.mem_cons_of_mem _ (List.mem_cons_self ..)))
  have hshared : m.getFreePage.2.nextTable (pageAddress 1050) 511 = some pdpt :=
    hstart.entries (pageAddress 1050, 511, pdpt) (List.mem_cons_self ..)
  obtain ⟨m', hm', hkeep⟩ := mapPage_of_nextTable (p := pageAddress k) (v := 0x3FF000)
    userRwFlags_flagWord hself hself hother
  have hmoved : m.mapFresh 0x3FF000 userRwFlags
      = m'.setEntry (pageAddress 1024) 511 (pageAddress k ||| userRwFlags) := by
    rw [Machine.mapFresh, updatePageTables, getFreePage_cr3, hstart.cr3, hframe]
    exact hm'
  have hmax : maxPages = 100000 := rfl
  have hnext : Pinned [(pageAddress 1024, 511, pageAddress k), (pageAddress 1050, 511, pdpt)]
      (pageAddress 1050) 1184 (m.mapFresh 0x3FF000 userRwFlags) := by
    refine ⟨fun x hx => ?_, ?_, k', hlow.trans hle, hk', hstock'⟩
    · rw [hmoved]
      rcases List.mem_cons.mp hx with rfl | hx
      · exact nextTable_setEntry_self (aligned_pageAddress (by omega)) userRwFlags_flagWord
      · rw [List.mem_singleton.mp hx]
        exact nextTable_setEntry_of_ne (hkeep _ _ _ hshared) _ (by decide)
    · rw [Machine.mapFresh, updatePageTables_cr3]
      exact hstart.cr3
  have hleaf : ∀ v, offsetPte v ≠ 511 → ∀ x ∈ [(pageAddress 1024, (511 : Fin 512), pageAddress k),
      (pageAddress 1050, 511, pdpt)], offsetPte v ≠ x.2.1 := by
    intro v hv
    simp [hv]
  have huser := userRwFlags_flagWord
  have hlast := ((((hnext.mapFresh huser (hleaf _ (by decide)) hsecond).kmalloc hone (by simp)
    hheapVma).mapFresh huser (hleaf _ (by decide)) hheap).kmalloc hone (by simp)
      hstackVma).mapFresh huser (hleaf _ (by decide)) hend
  have hown := hlast.entries (pageAddress 1024, 511, pageAddress k) (List.mem_cons_self ..)
  have hkernel := hlast.entries (pageAddress 1050, 511, pdpt)
    (List.mem_cons_of_mem _ (List.mem_cons_self ..))
  exact ⟨k, hlow, by omega, hown, hkernel⟩

theorem staleMachine_entries : ∀ x ∈ [(pageAddress 1050, (0 : Fin 512), pageAddress 1050),
    (pageAddress 1050, 1, pageAddress 1024)], x.1 = pageAddress 1050 ∧ x.2.1 ≠ 511 ∧
      staleMachine.nextTable (pageAddress 1050) x.2.1 = some x.2.2 := by
  simp only [List.forall_mem_cons, List.not_mem_nil, false_imp_iff, implies_true, and_true,
    true_and]
  exact ⟨⟨by decide, rfl⟩, by decide, rfl⟩

theorem bootRegion_stale : PhysMem.BootRegion 0x400000 0 0x4A0000 :=
  ⟨by decide, by decide, by decide, by decide⟩

theorem exists_booted_stale : ∃ m' last,
    Booted 0x400000 0 0x4A0000 staleMachine m' ∧ Started 1024 1184 last
      (staleMachine.initPhysicalMemory 0x400000 0 0x4A0000).mem m' :=
  exists_booted bootRegion_stale rfl (tablesCleared_of_le bootRegion_stale _ (by decide))
    (by decide) (by decide)

/-- Boot does not reach page 1050: it clears twenty pages. -/
theorem initPhysicalMemory_kept (m : Machine) (i : Fin 512) :
    (m.initPhysicalMemory 0x400000 0 0x4A0000).mem (pageAddress 1050) i
      = m.mem (pageAddress 1050) i := by
  refine mem_eq_of_byteAt (fun k hk => ?_) i
  have hfirst : PhysMem.firstPage 0x400000 = 1024 := by decide
  have hend : PhysMem.endPage 0 0x4A0000 = 1184 := by decide
  rw [byteAt_initPhysicalMemory bootRegion_stale _ (by rw [hfirst]; omega) (by rw [hend]; omega) hk,
    if_neg (by rw [hfirst, hend]; omega)]

/-- The root that `create_process` draws behind a `kthread_t` has the
entries that were in page 1050 at power-on, entry 511 apart. -/
theorem Started.newRoot {last : Nat} {m m₁ m₂ : Machine}
    (h : Started 1024 1184 last (m.initPhysicalMemory 0x400000 0 0x4A0000).mem m₁)
    (hmem : m₂.mem = m₁.mem) (hstock : m₂.phys.Stock 1050 1184) :
    m₂.setupUserPageTables.1 = pageAddress 1050 ∧
      m₂.setupUserPageTables.2.phys.Stock 1051 1184 ∧ ∀ i, i ≠ 511 →
        m₂.setupUserPageTables.2.mem (pageAddress 1050) i = m.mem (pageAddress 1050) i := by
  obtain ⟨hframe, hstock'⟩ := hstock.getFreePage (by decide)
  refine ⟨hframe, hstock', fun i hi => ?_⟩
  rw [setupUserPageTables, setEntry_mem, write_of_index_ne _ _ hi, getFreePage_mem, hmem,
    h.others 1050 (by decide) (by decide), initPhysicalMemory_kept]

theorem Started.pinnedRoot {last : Nat} {m m₁ m₂ : Machine} {S : List (Word × Fin 512 × Word)}
    (h : Started 1024 1184 last (m.initPhysicalMemory 0x400000 0 0x4A0000).mem m₁)
    (htables : DirectTables 1024 last m₂) (hmem : m₂.mem = m₁.mem)
    (hstock : m₂.phys.Stock 1050 1184) (hlen : 26 ≤ m₂.log.length)
    (hS : ∀ x ∈ S, x.1 = pageAddress 1050 ∧ x.2.1 ≠ 511 ∧
      m.nextTable (pageAddress 1050) x.2.1 = some x.2.2) :
    m₂.setupUserPageTables.1 = pageAddress 1050 ∧
      Pinned ((pageAddress 1050, 511, pageAddress 1025) :: S) (pageAddress 1050) 1184
        (m₂.setupUserPageTables.2.setNewCr3 m₂.setupUserPageTables.1) := by
  obtain ⟨hroot, hstock', hkept⟩ := h.newRoot hmem hstock
  have hentry : m₂.getFreePage.2.mem m₂.getFreePage.2.cr3 511 = kernelEntry 1025 := by
    rw [getFreePage_mem, getFreePage_cr3]
    exact htables.pml4
  have hshared : m₂.setupUserPageTables.2.nextTable (pageAddress 1050) 511
      = some (pageAddress 1025) := by
    have hframe : m₂.getFreePage.1 = pageAddress 1050 := hroot
    rw [setupUserPageTables, hframe, hentry]
    exact nextTable_setEntry_self (aligned_pageAddress (by decide)) kernelRwFlags_flagWord
  have hlen' : (m₂.setupUserPageTables.2.setNewCr3 m₂.setupUserPageTables.1).log.length
      = m₂.log.length + 1 := rfl
  refine ⟨hroot, fun x hx => ?_, hroot, 1051, by omega, by omega, hstock'⟩
  rcases List.mem_cons.mp hx with rfl | hx
  · exact hshared
  · obtain ⟨htable, hindex, hold⟩ := hS x hx
    rw [nextTable, setNewCr3_mem, htable, hkept _ hindex]
    exact hold

theorem lastPage_loadable : Space.Loadable (some [lastPage]) := by
  intro phdrs heq p hp
  rw [← Option.some.inj heq, List.mem_singleton] at hp
  subst hp
  exact ⟨fun i hi => absurd hi (Nat.not_lt_zero i), by decide⟩

/-- `load_process` in front of `load_file`: the block for the `mm_struct`. -/
theorem Pinned.mmStruct {S : List (Word × Fin 512 × Word)} {root : Word} {bound : Nat} {s : Space}
    {task : Task} {phdrs : Option (List Space.Elf64Phdr)}
    (h : Pinned S root bound s.machine)
    (hS : ∀ x ∈ S, x.2.1.val < 20 ∨ 184 < x.2.1.val) (hphdrs : Space.Loadable phdrs)
    (hend : Early ((s.kmalloc sizeofMmStruct).2.loadFile task phdrs).2.machine) :
    Early (s.kmalloc sizeofMmStruct).2.machine ∧
      Pinned S root bound (s.kmalloc sizeofMmStruct).2.machine := by
  have hload : Work [] (s.kmalloc sizeofMmStruct).2.machine []
      ((s.kmalloc sizeofMmStruct).2.loadFile task phdrs).2.machine :=
    Space.work_loadFile task hphdrs.inUserHalf
  have hbefore : Early (s.kmalloc sizeofMmStruct).2.machine := hend.of_suffix hload.log_suffix
  exact ⟨hbefore, h.kmalloc (n := sizeofMmStruct) rfl hS hbefore⟩

theorem Pinned.loadProcess {s : Space} {pdpt : Word}
    (hroot : (s.kmalloc sizeofKthread).2.machine.setupUserPageTables.1 = pageAddress 1050)
    (h : Pinned [(pageAddress 1050, 511, pdpt), (pageAddress 1050, 0, pageAddress 1050),
      (pageAddress 1050, 1, pageAddress 1024)] (pageAddress 1050) 1184
      ((s.kmalloc sizeofKthread).2.machine.setupUserPageTables.2.setNewCr3
        (s.kmalloc sizeofKthread).2.machine.setupUserPageTables.1))
    (hend : Early (s.loadProcess (some [lastPage])).2.machine) :
    (s.loadProcess (some [lastPage])).1.cr3 = pageAddress 1050 ∧ ∃ k, 1044 ≤ k ∧ k < 1184 ∧
      (s.loadProcess (some [lastPage])).2.machine.nextTable (pageAddress 1024) 511
        = some (pageAddress k) ∧
      (s.loadProcess (some [lastPage])).2.machine.nextTable (pageAddress 1050) 511
        = some pdpt := by
  rw [Space.loadProcess] at hend ⊢
  generalize (s.kmalloc sizeofKthread).2 = s₁ at hroot h hend ⊢
  obtain ⟨-, hmm⟩ := Pinned.mmStruct h (by simp) lastPage_loadable hend
  exact ⟨hroot, Pinned.loadFile _ hmm hend⟩

/-- `create_process` on the one-page program: the roots of the idle
process and of the new one name different tables. -/
theorem Started.createProcess_stale {last : Nat} {m : Machine} {y : World} {p : MemProc}
    (h : Started 1024 1184 last (staleMachine.initPhysicalMemory 0x400000 0 0x4A0000).mem m)
    (htables : DirectTables 1024 last y.machine) (hmem : y.machine.mem = m.mem)
    (hstock : y.machine.phys.Stock 1041 1184) (hlen : 17 ≤ y.machine.log.length)
    (hp : p ∈ y.procs) (hcr3 : p.task.cr3 = pageAddress 1024)
    (hend : Early (y.createProcess (some [lastPage])).machine) (pdpt : Word) :
    ¬ (y.createProcess (some [lastPage])).KernelHalf pdpt := by
  have hlast := h.lt_last (by decide)
  obtain ⟨hmem', htables', hstock', hkthread⟩ := World.kmalloc_kthread htables hstock (by decide)
    (by decide) (by decide) (by omega)
  obtain ⟨hroot, hpinned⟩ := h.pinnedRoot htables' (hmem'.trans hmem) hstock' (by omega)
    staleMachine_entries
  obtain ⟨hnew, k, hk, hlt, hidle, hshared⟩ := Pinned.loadProcess hroot hpinned
    ⟨hend.served, hend.few⟩
  intro hhalf
  have hfirst := hhalf.shared p (List.mem_cons_of_mem _ hp)
  have hsecond := hhalf.shared _ (List.mem_cons_self ..)
  rw [hcr3] at hfirst
  have hmachine : (y.createProcess (some [lastPage])).machine.mem
      = (y.space.loadProcess (some [lastPage])).2.machine.mem := rfl
  simp only [hnew] at hsecond
  rw [nextTable, hmachine, ← nextTable] at hfirst hsecond
  rw [hidle] at hfirst
  rw [hshared] at hsecond
  have hmax : maxPages = 100000 := rfl
  have heq := pageAddress_inj (by omega) (by omega)
    (Option.some.inj (hfirst.trans hsecond.symm))
  omega

theorem World.createProcess_posts (y : World) {file : Option (List Space.Elf64Phdr)}
    (hfile : Space.Loadable file) : ∃ ts, y.machine.Posts ts (y.createProcess file).machine := by
  obtain ⟨ts, hload⟩ := (show Work [] y.machine _ _ from
    Space.work_loadProcess hfile.inUserHalf).posts
  exact ⟨ts, hload.other rfl rfl⟩

theorem Started.log_page {first bound last : Nat} {mem : Word → Fin 512 → Word} {m m' : Machine}
    {ts : List Word} (h : Started first bound last mem m)
    (hroom : first + pagingFrames bound + 10 ≤ bound) (hd : m.Draws ts m')
    (hlog : (0 : Word) ∉ m'.log) {f : Word} (hf : f ∈ m'.log) :
    ∃ n, first ≤ n ∧ n + 10 ≤ bound ∧ f = pageAddress n := by
  rw [hd.log, List.mem_append, not_or] at hlog
  rw [hd.log, List.mem_append] at hf
  rcases hf with hf | hf
  · obtain ⟨n, hle, -, hn, heq⟩ := (h.stock.draw hd.phys hlog.1).2 f hf
    exact ⟨n, by omega, hn, heq⟩
  · obtain ⟨n, hle, hlt, heq⟩ := h.drawn f hf
    exact ⟨n, hle, by omega, heq⟩

/-- Every frame handed out since boot is in the direct map. -/
theorem Started.log_direct {first bound last : Nat} {mem : Word → Fin 512 → Word} {m m' : Machine}
    {ts : List Word} (h : Started first bound last mem m) (hbound : bound ≤ 3594)
    (hlow : 512 ≤ first) (hroom : first + pagingFrames bound + 10 ≤ bound) (hd : m.Draws ts m')
    (hlog : (0 : Word) ∉ m'.log) {f : Word} (hf : f ∈ m'.log) :
    m.translate m.cr3 (kernelVirtualBase + f) = some f := by
  have hlast := h.lt_last hbound
  have hmax : maxPages = 100000 := rfl
  obtain ⟨n, hle, hn, rfl⟩ := h.log_page hroom hd hlog hf
  exact h.tables.translate (by omega) (by omega) (by omega)

end Stale

/-- The page that the second process gets as its root names the root of
the first: loading a one-page program gives the first a kernel half of its
own. No request is refused, and all frames are in the direct map. -/
theorem kernel_half_lost :
    ∃ m', Booted 0x400000 0 0x4A0000 staleMachine m' ∧
      World.Run (World.boot m') ((World.boot m').createProcess (some [lastPage])) ∧
      (∀ f ∈ ((World.boot m').createProcess (some [lastPage])).machine.log,
        m'.translate m'.cr3 (kernelVirtualBase + f) = some f) ∧
      ∀ pdpt, ¬ ((World.boot m').createProcess (some [lastPage])).KernelHalf pdpt := by
  obtain ⟨m', last, hbooted, hstarted⟩ := exists_booted_stale
  obtain ⟨htables, hmem, hstock, hacc, hlen⟩ := hstarted.boot (by decide) (by decide) (by decide)
  have hcreated : ((World.boot m').createProcess (some [lastPage])).machine.Account 160 119 :=
    World.createProcess_account hacc (by decide)
  obtain ⟨ts, hboot⟩ : ∃ ts, m'.Charges ts (World.boot m').machine :=
    (World.work_boot [] m').charges
  obtain ⟨us, hcreate⟩ := (World.boot m').createProcess_posts lastPage_loadable
  refine ⟨m', hbooted, .step .refl (.createProcess lastPage_loadable) hcreated.log, fun f hf => ?_,
    hstarted.createProcess_stale htables hmem hstock hlen (List.mem_cons_self ..)
      hstarted.cr3 ⟨hcreated.log, hcreated.used.trans (by decide)⟩⟩
  exact hstarted.log_direct (by decide) (by decide) (by decide)
    (hboot.draws.trans hcreate.charges.draws) hcreated.log hf

end SnowOs
