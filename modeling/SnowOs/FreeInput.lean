import SnowOs.KernelHalf
import SnowOs.ProcessRounds

/-!
# What user values reach `kfree`

`user_free`, `close`, `exit` and `reap_process` free user pages and blocks
of the kernel heap, and those frames are all referenced, so nothing is
pushed. `close_dir` hands the value it gets to `kfree`. If that address is
mapped to a frame that was never handed out - any address of the direct
map over free memory will do - the frame is pushed onto the list it is
already on (`closeDir_pushes_free`).
-/

namespace SnowOs

open Radix Machine

namespace Machine

/-- A frame that `kfree(ptr)` would push was handed out before. -/
def PushesHandedOut (m : Machine) (ptr : Word) : Prop :=
  m.keepsFrame ptr = false → m.walkPageTable ptr ∈ m.log

end Machine

/-- **The free list and user values.** In every run from zeroed memory the
free list has no frame twice and none that is handed out, no frame is
handed out twice, and `kfree` pushes a frame that was handed out exactly
for the addresses that are not mapped or are mapped to one. -/
theorem Booted.free_list_integrity {physfree base length : Word} {m m' : Machine} {y : World}
    (h : Booted physfree base length m m') (hzero : m.RestZero physfree base length)
    (hrun : World.Run (World.boot m') y) :
    (∃ l, y.machine.phys.FreeList l ∧ l.Nodup ∧ ∀ n ∈ l, pageAddress n ∉ y.machine.log) ∧
      y.machine.log.Nodup ∧
      ∀ ptr, y.machine.PushesHandedOut ptr ↔ Releasable y.machine ptr := by
  obtain ⟨pdpt, hok⟩ := h.ok hzero
  obtain ⟨hy, -⟩ := hrun.ok hok
  obtain ⟨l, hbooks⟩ := hy.books
  refine ⟨⟨l, hbooks.counted.list, hbooks.counted.list.nodup, fun n hn hmem => ?_⟩, hbooks.nodup,
    fun ptr => ?_⟩
  · obtain ⟨k, hk, heq, hfree⟩ := hbooks.handed _ hmem
    exact hfree (pageAddress_inj (hbooks.counted.bounded n hn) hk heq ▸ hn)
  · have hkeeps := hy.owned.keepsFrame_iff hbooks ptr
    constructor
    · intro hpush
      by_cases hk : y.machine.keepsFrame ptr = true
      · exact hkeeps.mp hk
      · exact Or.inr (hpush (Bool.not_eq_true _ ▸ hk))
    · intro hrel hk
      rw [hkeeps.mpr hrel] at hk
      cases hk

/-- The count of a stream is set, and a name is read. -/
theorem World.exists_run_readDir {y : World} {d filename : Word} (hd : d ∈ y.dirs)
    (hname : ∀ i < DirStreams.bufSize, UserAddr (DirStreams.place filename i))
    (hlog : (0 : Word) ∉ y.machine.log) : ∃ z, World.Run y z ∧ d ∈ z.dirs := by
  have hfilled : (0 : Word) ∉
      (y.machine.writeByte y.machine.cr3 (DirStreams.place d 4) 1).log := by
    rwa [writeByte_log]
  have hfill := World.Run.refl.step (.fillDir (k := 4) 1 hd (by decide)) hfilled
  generalize hz : y.setMachine (y.machine.writeByte y.machine.cr3 (DirStreams.place d 4) 1) = z
    at hfill
  have hzdirs : d ∈ z.dirs := by
    rw [← hz]
    exact hd
  have hzlog : (0 : Word) ∉ (z.setMachine (z.machine.readDir d filename)).machine.log := by
    rw [World.machine_setMachine, readDir_log, ← hz, World.machine_setMachine]
    exact hfilled
  exact ⟨_, hfill.step (.readDir (.inl hzdirs) hname) hzlog, hzdirs⟩

/-- After a fork, by a process that opens a directory and reads it. -/
theorem free_list_integrity_readDir : ∃ m' y p z stream, World.Run (World.boot m') y ∧
    y.Current p ∧ World.Run (y.fork 3 p) z ∧ stream ∈ z.dirs ∧ z.machine.log.Nodup ∧
    ∀ ptr, z.machine.PushesHandedOut ptr ↔ Releasable z.machine ptr := by
  obtain ⟨m', last, pdpt, hbooted, -, hok, hcreated⟩ := exists_created_small
  obtain ⟨y, p, hrun, hp, hfork⟩ := hok.exists_run_fork Space.loadable_nil hcreated (by decide)
  have hforked := hrun.step (.fork 3 hp) hfork.log
  have hopened := hfork.kmalloc (BitVec.ofNat 32 DirStreams.sizeofDirHeader) (by decide)
  have hlog := hopened.log
  rw [← World.openDir_machine] at hlog
  obtain ⟨d, hd⟩ := (y.fork 3 p).exists_mem_dirs_openDir
  have hname : ∀ i < DirStreams.bufSize, UserAddr (DirStreams.place heapStart i) := by decide
  obtain ⟨z, hread, hdir⟩ := World.exists_run_readDir hd hname hlog
  have hstreams := (World.Run.refl.step .openDir hlog).trans hread
  exact ⟨m', y, p, z, d, hrun, hp, hstreams, hdir,
    (hbooted.free_list_integrity (filledMachine_restZero _ _ _) (hforked.trans hstreams)).2⟩

/-! ## A frame that is already free -/

section Walk

variable {S : List (Word × Fin 512 × Word)} {m : Machine} {root v : Word} {bound : Nat}

theorem offsetPte_ne_of_pos (hS : ∀ x ∈ S, 0 < x.2.1.val) (hv : offsetPte v = 0) :
    ∀ x ∈ S, offsetPte v ≠ x.2.1 := by
  intro x hx heq
  have hpos := hS x hx
  rw [← heq, hv] at hpos
  exact absurd hpos (Nat.lt_irrefl 0)

/-- `load_file` of a program with no segments maps the heap and the stack,
both at entry 0 of a page table. -/
theorem Pinned.loadFile_nil {s : Space} (task : Task) (h : Pinned S root bound s.machine)
    (hS : ∀ x ∈ S, 0 < x.2.1.val ∧ (x.2.1.val < 20 ∨ 184 < x.2.1.val))
    (hend : Early (s.loadFile task (some [])).2.machine) :
    Pinned S root bound (s.loadFile task (some [])).2.machine := by
  rw [Space.loadFile_machine] at hend ⊢
  have hstackVma := hend.of_suffix (mapPages_log_suffix ..)
  have hheap := hstackVma.of_suffix (kmalloc_log_suffix ..)
  have hheapVma := hheap.of_suffix (mapPages_log_suffix ..)
  have hone : noOfPages sizeofVmaStruct = 1 := rfl
  have hleaf : ∀ v, offsetPte v = 0 → ∀ x ∈ S, offsetPte v ≠ x.2.1 := fun v =>
    offsetPte_ne_of_pos fun x hx => (hS x hx).1
  have hrange := fun x hx => (hS x hx).2
  have huser := userRwFlags_flagWord
  exact (((h.kmalloc hone hrange hheapVma).mapFresh huser (hleaf heapStart rfl) hheap).kmalloc hone
    hrange hstackVma).mapFresh huser (hleaf stackStart rfl) hend

theorem Pinned.loadProcess_nil {s : Space}
    (hroot : (s.kmalloc sizeofKthread).2.machine.setupUserPageTables.1 = root)
    (h : Pinned S root bound ((s.kmalloc sizeofKthread).2.machine.setupUserPageTables.2.setNewCr3
      (s.kmalloc sizeofKthread).2.machine.setupUserPageTables.1))
    (hS : ∀ x ∈ S, 0 < x.2.1.val ∧ (x.2.1.val < 20 ∨ 184 < x.2.1.val))
    (hend : Early (s.loadProcess (some [])).2.machine) :
    (s.loadProcess (some [])).1.cr3 = root ∧
      Pinned S root bound (s.loadProcess (some [])).2.machine := by
  rw [Space.loadProcess] at hend ⊢
  generalize (s.kmalloc sizeofKthread).2 = s₁ at hroot h hend ⊢
  obtain ⟨-, hmm⟩ := Pinned.mmStruct h (fun x hx => (hS x hx).2) Space.loadable_nil hend
  exact ⟨hroot, Pinned.loadFile_nil _ hmm hS hend⟩

theorem walkPageTable_of_nextTable {pdpe pde pte f : Word}
    (h₁ : m.nextTable m.cr3 (offsetPml4 v) = some pdpe)
    (h₂ : m.nextTable pdpe (offsetPdpe v) = some pde)
    (h₃ : m.nextTable pde (offsetPde v) = some pte)
    (h₄ : m.nextTable pte (offsetPte v) = some f) : m.walkPageTable v = f := by
  rw [nextTable, Option.ite_none_right_eq_some] at h₄
  rw [walkPageTable_eq, leaf, pageTable, h₁, Option.bind_eq_bind, Option.bind_some, h₂,
    Option.bind_some, h₃]
  exact Option.some.inj h₄.2

/-- The way to page 1500 in the direct map, behind the root at page
1052. -/
def directEntries : List (Word × Fin 512 × Word) :=
  [(pageAddress 1052, 511, pageAddress 1025), (pageAddress 1025, 510, pageAddress 1026),
    (pageAddress 1026, 2, pageAddress 1028), (pageAddress 1028, 476, pageAddress 1500)]

theorem directEntries_index : ∀ x ∈ directEntries,
    0 < x.2.1.val ∧ (x.2.1.val < 20 ∨ 184 < x.2.1.val) := by
  simp [directEntries]

/-- The new root shares the direct map. -/
theorem DirectTables.pinned {last : Nat} (h : DirectTables 1024 last m) (hlast : 1500 < last)
    (hstock : m.phys.Stock 1052 2304) (hlen : 28 ≤ m.log.length) :
    m.setupUserPageTables.1 = pageAddress 1052 ∧
      Pinned directEntries (pageAddress 1052) 2304
        (m.setupUserPageTables.2.setNewCr3 m.setupUserPageTables.1) := by
  obtain ⟨hframe, hstock'⟩ := hstock.getFreePage (by decide)
  have hroot : m.getFreePage.1 = pageAddress 1052 := hframe
  have hentry : m.getFreePage.2.mem m.getFreePage.2.cr3 511 = kernelEntry 1025 := by
    rw [getFreePage_mem, getFreePage_cr3]
    exact h.pml4
  have hshared : m.setupUserPageTables.2.nextTable (pageAddress 1052) 511
      = some (pageAddress 1025) := by
    rw [setupUserPageTables, hroot, hentry]
    exact nextTable_setEntry_self (aligned_pageAddress (by decide)) kernelRwFlags_flagWord
  have hkept : ∀ {t : Nat} {i : Fin 512} {n : Nat}, t < 1052 → n < 2304 →
      m.mem (pageAddress t) i = kernelEntry n →
      m.setupUserPageTables.2.nextTable (pageAddress t) i = some (pageAddress n) := by
    intro t i n ht hn hmem
    have hmax : maxPages = 100000 := rfl
    refine nextTable_setEntry_of_ne (nextTable_kernelEntry (by omega) hmem) _ fun hc => ?_
    · have heq := pageAddress_inj (by omega) (by omega) (hc.1.trans hroot)
      omega
  have hlen' : (m.setupUserPageTables.2.setNewCr3 m.setupUserPageTables.1).log.length
      = m.log.length + 1 := rfl
  refine ⟨hroot, fun x hx => ?_, hroot, 1053, by omega, by omega, hstock'⟩
  rcases List.mem_cons.mp hx with rfl | hx
  · exact hshared
  rcases List.mem_cons.mp hx with rfl | hx
  · exact hkept (by omega) (by omega) h.pdpt
  rcases List.mem_cons.mp hx with rfl | hx
  · exact hkept (by omega) (by omega) (h.pd 2 (by omega) (by omega))
  · rw [List.mem_singleton.mp hx]
    exact hkept (by omega) (by omega) (h.pt 1500 (by omega) hlast)

theorem Pinned.closeDir {y : World} {l : List Nat}
    (h : Pinned directEntries (pageAddress 1052) 2304 y.machine) (hearly : Early y.machine)
    (hbooks : y.machine.Ledger l) :
    1500 ∈ l ∧ y.machine.walkPageTable (kernelVirtualBase + pageAddress 1500) = pageAddress 1500 ∧
      ¬ y.machine.PushesHandedOut (kernelVirtualBase + pageAddress 1500) ∧
      ∀ l', ¬ (y.closeDir (kernelVirtualBase + pageAddress 1500)).machine.phys.FreeList l' := by
  obtain ⟨k, hlow, hk, hstock⟩ := h.stock
  have hfew := hearly.few
  have hmem : 1500 ∈ l := by
    rw [hbooks.counted.list.unique hstock.list, List.mem_range'_1]
    omega
  have hfree : pageAddress 1500 ∉ y.machine.log := by
    intro hlog
    obtain ⟨n, hn, heq, hnot⟩ := hbooks.handed _ hlog
    exact hnot (pageAddress_inj (by decide) hn heq ▸ hmem)
  have hwalk : y.machine.walkPageTable (kernelVirtualBase + pageAddress 1500)
      = pageAddress 1500 := by
    have hentry := fun x hx => h.entries x hx
    simp only [directEntries, List.mem_cons, List.not_mem_nil, or_false, forall_eq_or_imp,
      forall_eq] at hentry
    obtain ⟨h₁, h₂, h₃, h₄⟩ := hentry
    rw [← h.cr3, ← @offsetPml4_direct 1500 (by decide)] at h₁
    rw [← @offsetPdpe_direct 1500 (by decide)] at h₂
    have hpde : offsetPde (kernelVirtualBase + pageAddress 1500) = 2 :=
      offsetPde_direct (by decide)
    have hpte : offsetPte (kernelVirtualBase + pageAddress 1500) = 476 :=
      offsetPte_direct (by decide)
    rw [← hpde] at h₃
    rw [← hpte] at h₄
    exact walkPageTable_of_nextTable h₁ h₂ h₃ h₄
  have hkeeps : ¬ y.machine.keepsFrame (kernelVirtualBase + pageAddress 1500) = true := by
    rw [keepsFrame, hwalk, Bool.or_eq_true, decide_eq_true_eq, decide_eq_true_eq, not_or]
    exact ⟨by decide, fun hpos => hfree (hbooks.known 1500 (by decide) hpos)⟩
  refine ⟨hmem, hwalk, fun hpush => ?_, fun l' hlist => ?_⟩
  · rw [PushesHandedOut, hwalk] at hpush
    exact hfree (hpush (Bool.not_eq_true _ ▸ hkeeps))
  · have hphys := kfree_phys hkeeps
    rw [hwalk] at hphys
    have hlist' : (y.machine.phys.addBackFreePages (pageAddress 1500) 1).FreeList l' := by
      have hlist : (y.machine.kfree (kernelVirtualBase + pageAddress 1500)).phys.FreeList l' :=
        hlist
      rw [hphys] at hlist
      exact hlist
    exact ((PhysMem.freeList_addBackFreePages_iff hbooks.counted.list _).mp hlist').1 hmem

theorem Pinned.switch {y : World} {file : Option (List Space.Elf64Phdr)}
    (h : Pinned S root bound (y.space.loadProcess file).2.machine) :
    Pinned S root bound ((y.createProcess file).setMachine
      ((y.createProcess file).machine.setNewCr3 root)).machine :=
  ⟨h.entries, rfl, h.stock⟩

theorem World.exists_switch {y : World} {file : Option (List Space.Elf64Phdr)}
    (hroot : (y.space.loadProcess file).1.cr3 = root) (hfile : Space.Loadable file)
    (hlog : (0 : Word) ∉ (y.createProcess file).machine.log) :
    ∃ p, ((y.createProcess file).setMachine
        ((y.createProcess file).machine.setNewCr3 root)).Current p ∧
      World.Run y ((y.createProcess file).setMachine
        ((y.createProcess file).machine.setNewCr3 root)) := by
  subst hroot
  have hp : (⟨(y.space.kmalloc sizeofKthread).1, (y.space.loadProcess file).1⟩ : MemProc)
      ∈ (y.createProcess file).procs := List.mem_cons_self ..
  exact ⟨_, ⟨hp, rfl⟩, .step (.step .refl (.createProcess hfile) hlog) (.switch hp) hlog⟩

theorem World.Ok.exists_closeDir {y : World} {last : Nat} {pdpt : Word} (hok : y.Ok pdpt)
    (htables : DirectTables 1024 last y.machine) (hlast : 1500 < last)
    (hstock : y.machine.phys.Stock 1043 2304) (hlen : 19 ≤ y.machine.log.length)
    (hacc : (y.createProcess (some [])).machine.Account 1280 109) :
    ∃ y' p l, World.Run y y' ∧ y'.Current p ∧ y'.machine.Ledger l ∧ Early y'.machine ∧
      Pinned directEntries (pageAddress 1052) 2304 y'.machine := by
  obtain ⟨-, htables', hstock', hkthread⟩ := World.kmalloc_kthread htables hstock (by decide)
    (by decide) (by decide) (by omega)
  have hearly : Early (y.createProcess (some [])).machine :=
    ⟨hacc.log, hacc.used.trans (by decide)⟩
  obtain ⟨hroot, hpinned⟩ := DirectTables.pinned htables' hlast hstock' (by omega)
  obtain ⟨hcr3, hloaded⟩ := Pinned.loadProcess_nil hroot hpinned directEntries_index
    ⟨hearly.served, hearly.few⟩
  obtain ⟨p, hp, hrun⟩ := World.exists_switch hcr3 Space.loadable_nil hacc.log
  obtain ⟨l, hbooks⟩ := (hrun.ok hok).1.books
  exact ⟨_, p, l, hrun, hp, hbooks, ⟨hearly.served, hearly.few⟩, hloaded.switch⟩

end Walk

/-- A process calls `closedir` with the address of page 1500 in the direct
map. The page is free and was never handed out; it is pushed, and the free
list becomes a cycle. -/
theorem closeDir_pushes_free : ∃ m' y p l,
    Booted 0x400000 0 0x900000 (filledMachine 0) m' ∧ World.Run (World.boot m') y ∧
      y.Current p ∧ y.machine.phys.FreeList l ∧ 1500 ∈ l ∧
      y.machine.walkPageTable (kernelVirtualBase + pageAddress 1500) = pageAddress 1500 ∧
      ¬ y.machine.PushesHandedOut (kernelVirtualBase + pageAddress 1500) ∧
      ∀ l', ¬ (y.closeDir (kernelVirtualBase + pageAddress 1500)).machine.phys.FreeList l' := by
  obtain ⟨m', last, pdpt, hbooted, hstarted, hok, hcreated⟩ := exists_created_small
  obtain ⟨htables, hmem, hstock, -, hlen⟩ := hstarted.boot (by decide) (by decide) (by decide)
  have hlast := hstarted.lt_last (by decide)
  obtain ⟨y, p, l, hrun, hp, hbooks, hearly, hpinned⟩ :=
    hok.exists_closeDir htables (by omega) hstock hlen hcreated
  exact ⟨m', y, p, l, hbooted, hrun, hp, hbooks.counted.list, hpinned.closeDir hearly hbooks⟩

end SnowOs
