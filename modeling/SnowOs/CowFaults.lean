import SnowOs.FreeInput

/-!
# Progress at copy-on-write pages

A store to a page marked copy-on-write enters `page_fault_handler`, which
looks at the count of the frame and has a branch for one and a branch for
two. For any other count it returns without a change, and the store would
fault for ever. From zeroed memory on no frame in use ever has another
count (`Booted.cow_progress`): `get_free_page` counts one, `cow_page_tables`
makes two of it, the handler one again. One fault is then enough to make
the page writable with the bytes it had.

The counts are those of frames that were handed out. A table drawn from
memory that was not zero can hold a leaf marked copy-on-write that names
any frame, such as one of the kernel's own (`cow_fault_stuck`).
-/

namespace SnowOs

open Radix Machine

namespace Machine

/-- The fault at `addr` is resolved: the page can be written by a user, it
is not marked, it has the bytes it had, and no other page of the process
has changed. If the frame was counted twice, the process has one now that
no other process maps. -/
structure Resolved (roots : List Word) (m : Machine) (addr : Word) (m' : Machine) : Prop where
  writable : ∀ e ∈ m'.walkEntries m.cr3 (path addr), e &&& userRwFlags = userRwFlags
  unmarked : isCow (m'.leaf m.cr3 addr &&& flagMask) = false
  bytes : ∀ v, UserAddr v → path v = path addr → m'.readByte m.cr3 v = m.readByte m.cr3 v
  others : ∀ v, UserAddr v → path v ≠ path addr → m'.leaf m.cr3 v = m.leaf m.cr3 v
  own : m.ref (m.leaf m.cr3 addr &&& mask) = 2 → ∀ r ∈ roots, r ≠ m.cr3 → ∀ v, UserAddr v →
    ∀ f, m'.translate m.cr3 addr = some f → m'.translate r v ≠ some f

section Resolved

variable {roots : List Word} {m m' : Machine} {lab lab' : Word → Option Node} {l l' : List Nat}
  {addr v f flags : Word}

theorem walkEntries_setPageRefCount (m : Machine) (a : Word) (c : Nat) (t : Word)
    (q : List (Fin 512)) : (m.setPageRefCount a c).walkEntries t q = m.walkEntries t q := by
  induction q generalizing t with
  | nil => rfl
  | cons i q ih => exact congrArg (m.mem t i :: ·) (ih _)

theorem Forest.walkEntries (h : Forest roots m lab l) (hflags : FlagWord flags)
    (hlog : (0 : Word) ∉ (m.updatePageTables v f flags).log) :
    ∀ e ∈ (m.updatePageTables v f flags).walkEntries m.cr3 (path v), e &&& flags = flags := by
  obtain ⟨l', hd⟩ := h.pool.draws (mapPage_draws m m.cr3 v f flags) hlog
  exact mapPage_walkEntries h.tables (h.root _ h.current) rfl hflags hd.nodup hd.blank

theorem Forest.present_of_isCow (h : Forest roots m lab l) {r : Word} (hr : r ∈ roots)
    (hcow : isCow (m.leaf r v &&& flagMask) = true) : present (m.leaf r v) = true := by
  rcases h.leafAt hr v with hzero | ⟨hp, -⟩
  · rw [hzero] at hcow
    exact absurd hcow (by decide)
  · exact hp

theorem isCow_userRw (hf : Aligned f) : isCow ((f ||| userRwFlags) &&& flagMask) = false := by
  rw [flags_or hf userRwFlags_flagWord.small]
  decide

/-- The bytes of a page that now maps `f`. -/
theorem readByte_of_leaf (hf : Aligned f) (hp : present (m.leaf m.cr3 addr) = true)
    (hself : m'.leaf m.cr3 addr = f ||| userRwFlags)
    (hbyte : ∀ j < 4096, m'.byteAt f j = m.byteAt (m.leaf m.cr3 addr &&& mask) j)
    (hv : path v = path addr) : m'.readByte m.cr3 v = m.readByte m.cr3 v := by
  rw [readByte_eq, readByte_eq, translate, translate, leaf_congr_path hv m,
    leaf_congr_path hv m', hself, if_pos hp, if_pos (present_or hf userRwFlags_flagWord),
    frame_or hf userRwFlags_flagWord.small, Option.map_some, Option.map_some,
    hbyte _ (pageOffset_lt v)]

theorem Remapped.resolved (hR : Remapped roots m lab l addr f m' lab' l')
    (hF : Forest roots m lab l) (hp : present (m.leaf m.cr3 addr) = true)
    (hwalk : ∀ e ∈ m'.walkEntries m.cr3 (path addr), e &&& userRwFlags = userRwFlags) :
    Resolved roots m addr m' := by
  refine ⟨hwalk, ?_, fun v _ hpath => readByte_of_leaf hR.aligned hp hR.self hR.byte hpath,
    fun v hv hpath => hR.other _ hF.current v hv fun hc => hpath hc.2,
    fun _ r hr hne v hv g hself hother => ?_⟩
  · rw [hR.self]
    exact isCow_userRw hR.aligned
  · have hg : f = g := by
      rw [translate, hR.self, if_pos (present_or hR.aligned userRwFlags_flagWord),
        frame_or hR.aligned userRwFlags_flagWord.small] at hself
      exact Option.some.inj hself
    have hc : ¬ (r = m.cr3 ∧ path v = path addr) := fun hc => hne hc.1
    rw [translate, hR.other r hr v hv hc, Option.ite_none_right_eq_some] at hother
    exact hR.apart r hr v hv hother.1 hc ((Option.some.inj hother.2).trans hg.symm)

/-- Any address on the page will do. -/
theorem Resolved.congr (h : Resolved roots m addr m') (hpath : path addr = path v) :
    Resolved roots m v m' := by
  have hleaf := fun m => leaf_congr_path hpath m
  have htranslate : m'.translate m.cr3 addr = m'.translate m.cr3 v := by
    rw [translate, translate, hleaf]
  refine ⟨hpath ▸ h.writable, ?_, hpath ▸ h.bytes, hpath ▸ h.others, ?_⟩
  · rw [← hleaf]
    exact h.unmarked
  · rw [← hleaf, ← htranslate]
    exact h.own

/-- The count is one: the page is made writable where it is, whoever else
maps it. -/
theorem Forest.resolved_inPlace (h : Forest roots m lab l) (hv : UserAddr addr)
    (hp : present (m.leaf m.cr3 addr) = true) (hone : m.ref (m.leaf m.cr3 addr &&& mask) = 1)
    (hlog : (0 : Word) ∉ (m.cowFault addr).log) : Resolved roots m addr (m.cowFault addr) := by
  rw [cowFault_inPlace hone] at hlog ⊢
  have hheld := h.held_leaf h.current hv hp
  have hwalk := h.walkEntries userRwFlags_flagWord hlog
  obtain ⟨lab', l', hM⟩ := h.updatePageTables (hheld.mappable addr) userRwFlags_flagWord hlog
  have hK := hM.grows.keeps hM.drawn hM.ref
  have hself := (leaf_eq_entryAt _ m.cr3 addr).trans hM.self
  refine ⟨hwalk, ?_, fun v _ hpath => ?_, fun v hu hpath => ?_, fun htwo => ?_⟩
  · rw [hself]
    exact isCow_userRw hheld.aligned
  · refine readByte_of_leaf hheld.aligned hp hself (fun j _ => ?_) hpath
    rw [byteAt, byteAt, hK.mem hheld]
  · exact leaf_eq_of_entryAt (hM.other _ h.current _ (length_path v) (Or.inl hu.userPath)
      fun hc => hpath hc.2)
  · rw [hone] at htwo
    cases htwo

theorem Forest.resolved_copy (h : Forest roots m lab l) (ha : Aligned addr) (hv : UserAddr addr)
    (hp : present (m.leaf m.cr3 addr) = true) (htwo : m.ref (m.leaf m.cr3 addr &&& mask) = 2)
    (hlog : (0 : Word) ∉ (m.cowFault addr).log) : Resolved roots m addr (m.cowFault addr) := by
  obtain ⟨lab₁, l₁, hcopy, hlog₁, heq⟩ := h.cowFault_copied ha hv hp htwo hlog
  rw [heq]
  generalize m.copyPage addr = m₁ at hcopy hlog₁ ⊢
  obtain ⟨lab₂, l₂, hR⟩ := hcopy.remap h hv hp hlog₁
  have hwalk := hcopy.quiet.forest.walkEntries userRwFlags_flagWord hlog₁
  rw [hcopy.quiet.cr3] at hwalk
  refine hR.resolved h hp ?_
  rw [walkEntries_setPageRefCount]
  exact hwalk

end Resolved

end Machine

namespace World

/-- One fault is enough at every copy-on-write page: its frame is counted
once or twice, and unless memory runs out the handler resolves the
fault. -/
structure CowProgress (y : World) : Prop where
  counted : ∀ p ∈ y.procs, ∀ v, UserAddr v →
    isCow (y.machine.leaf p.task.cr3 v &&& flagMask) = true →
      y.machine.ref (y.machine.leaf p.task.cr3 v &&& mask) = 1 ∨
        y.machine.ref (y.machine.leaf p.task.cr3 v &&& mask) = 2
  resolves : ∀ p, y.Current p → ∀ v, UserAddr v →
    isCow (y.machine.leaf p.task.cr3 v &&& flagMask) = true →
      ∃ s, y.space.pageFaultHandler p.task v = some s ∧
        ((0 : Word) ∉ s.machine.log → Resolved y.roots y.machine v s.machine)

section CowProgress

variable {y : World} {pdpt : Word}

/-- A marked frame was handed out. -/
theorem Ok.ref_of_isCow (h : y.Ok pdpt) (hle : ∀ g, y.machine.ref g ≤ 2) {r v : Word}
    (hr : r ∈ y.roots) (hv : UserAddr v)
    (hcow : isCow (y.machine.leaf r v &&& flagMask) = true) :
    y.machine.ref (y.machine.leaf r v &&& mask) = 1 ∨
      y.machine.ref (y.machine.leaf r v &&& mask) = 2 := by
  obtain ⟨l, hbooks⟩ := h.books
  have hpos : 0 < y.machine.ref (y.machine.leaf r v &&& mask) := by
    rcases h.owned.leaf r hr _ (length_path v) with hzero | hlog | ⟨n, hn, hq, -⟩
    · rw [← leaf_eq_entryAt] at hzero
      rw [hzero] at hcow
      exact absurd hcow (by decide)
    · rw [← leaf_eq_entryAt] at hlog
      exact hbooks.refs _ hlog
    · exact absurd (hq ▸ hv.userPath) (not_userPath_direct hn)
  have := hle (y.machine.leaf r v &&& mask)
  omega

theorem Ok.cowProgress (h : y.Ok pdpt) (hle : ∀ g, y.machine.ref g ≤ 2) : y.CowProgress := by
  refine ⟨fun p hp v hv => h.ref_of_isCow hle (mem_roots hp) hv, fun p hp v hv hcow => ?_⟩
  obtain ⟨lab, l, hF⟩ := h.owned.sound
  rw [← hp.2] at hcow
  have hbase := leaf_congr_path (path_pageBase v) y.machine y.machine.cr3
  have hflags : isCow (y.machine.getFlags (pageBase v)) = true := by
    rw [getFlags_eq, hbase]
    exact hcow
  have hpres := hF.present_of_isCow hF.current hcow
  have hcount := h.ref_of_isCow hle hF.current hv hcow
  rw [← hbase] at hpres hcount
  refine ⟨y.space.setMachine (y.machine.cowFault (pageBase v)), if_pos hflags, fun hlog => ?_⟩
  have hres : Resolved y.roots y.machine (pageBase v) (y.machine.cowFault (pageBase v)) := by
    rcases hcount with hone | htwo
    · exact hF.resolved_inPlace hv.pageBase hpres hone hlog
    · exact hF.resolved_copy (aligned_pageBase v) hv.pageBase hpres htwo hlog
  exact hres.congr (path_pageBase v)

end CowProgress

end World

/-- **Progress at copy-on-write pages.** In every run from zeroed memory
the frame under a marked leaf is counted once or twice, and one fault makes
the page writable. -/
theorem Booted.cow_progress {physfree base length : Word} {m m' : Machine} {y : World}
    (h : Booted physfree base length m m') (hzero : m.RestZero physfree base length)
    (hrun : World.Run (World.boot m') y) : y.CowProgress := by
  obtain ⟨pdpt, hok⟩ := h.ok hzero
  obtain ⟨hy, ts, hposts⟩ := hrun.ok hok
  obtain ⟨us, hboot⟩ := h.posts
  refine hy.cowProgress ((hboot.trans hposts).ref_le fun g => ?_)
  rw [Machine.ref_initPhysicalMemory]
  exact Nat.zero_le 2

/-- A process that has just forked, on a small machine. -/
theorem cow_progress_fork : ∃ m' y p, World.Run (World.boot m') y ∧ y.Current p ∧
    (y.fork 3 p).CowProgress := by
  obtain ⟨m', last, pdpt, hbooted, -, hok, hcreated⟩ := exists_created_small
  obtain ⟨y, p, hrun, hp, hfork⟩ := hok.exists_run_fork Space.loadable_nil hcreated (by decide)
  exact ⟨m', y, p, hrun, hp,
    hbooted.cow_progress (filledMachine_restZero _ _ _) (hrun.step (.fork 3 hp) hfork.log)⟩

/-! ## A marked leaf from power-on -/

section Marked

variable {S : List (Word × Fin 512 × Word)} {m : Machine} {root v p flags t : Word}
  {bound : Nat} {i : Fin 512}

theorem mapPage_mem_of_index (hi : i ∉ path v) :
    (m.mapPage root v p flags).mem t i = m.mem t i := by
  have hne : ∀ {j}, j ∈ path v → i ≠ j := fun hj heq => hi (heq ▸ hj)
  have hlevel : ∀ (m : Machine) (u : Word) {j : Fin 512}, i ≠ j →
      (m.descend u j flags).2.mem t i = m.mem t i := by
    intro m u j hj
    rw [descend, setEntry_mem, write_of_index_ne _ _ hj]
    split
    · rfl
    · rw [getFreePage_mem]
  rw [mapPage, setEntry_mem, write_of_index_ne _ _ (hne (by simp [path])),
    hlevel _ _ (hne (by simp [path])), hlevel _ _ (hne (by simp [path])),
    hlevel _ _ (hne (by simp [path]))]

theorem mapFresh_mem_of_index (hi : i ∉ path v) : (m.mapFresh v flags).mem t i = m.mem t i := by
  rw [Machine.mapFresh, updatePageTables, mapPage_mem_of_index hi, getFreePage_mem]

theorem Pinned.kmalloc_mem (h : Pinned S root 1184 m) {n : BitVec 32} (hn : noOfPages n = 1)
    (hlog : (0 : Word) ∉ (m.kmalloc n).2.log) : (m.kmalloc n).2.mem t 300 = m.mem t 300 := by
  rw [kmalloc_onePage m hn] at hlog ⊢
  obtain ⟨k, hlow, hk, hstock⟩ := h.stock
  obtain ⟨hframe, hroom, -⟩ := mapFresh_stock hk hstock hlog
  have hmax : maxPages = 100000 := rfl
  refine mapFresh_mem_of_index fun hmem => ?_
  rw [hframe, path, offsetPml4_direct (by omega), offsetPdpe_direct (by omega),
    offsetPde_direct (by omega), offsetPte_direct (by omega)] at hmem
  simp only [List.mem_cons, List.not_mem_nil, or_false, Fin.ext_iff, Fin.val_ofNat] at hmem
  omega

theorem Pinned.loadFile_nil_mem {s : Space} (task : Task) (h : Pinned S root 1184 s.machine)
    (hS : ∀ x ∈ S, 0 < x.2.1.val ∧ (x.2.1.val < 20 ∨ 184 < x.2.1.val))
    (hend : Early (s.loadFile task (some [])).2.machine) :
    (s.loadFile task (some [])).2.machine.mem t 300 = s.machine.mem t 300 := by
  rw [Space.loadFile_machine] at hend ⊢
  have hstackVma := hend.of_suffix (mapPages_log_suffix ..)
  have hheap := hstackVma.of_suffix (kmalloc_log_suffix ..)
  have hheapVma := hheap.of_suffix (mapPages_log_suffix ..)
  have hone : noOfPages sizeofVmaStruct = 1 := rfl
  have hleaf : ∀ x ∈ S, offsetPte heapStart ≠ x.2.1 :=
    offsetPte_ne_of_pos (fun x hx => (hS x hx).1) rfl
  have hvma := h.kmalloc hone (fun x hx => (hS x hx).2) hheapVma
  have hmapped := hvma.mapFresh userRwFlags_flagWord hleaf hheap
  exact (mapFresh_mem_of_index (by decide)).trans ((hmapped.kmalloc_mem hone hstackVma.served).trans
    ((mapFresh_mem_of_index (by decide)).trans (h.kmalloc_mem hone hheapVma.served)))

theorem Pinned.loadProcess_nil_mem {s : Space}
    (h : Pinned S root 1184 ((s.kmalloc sizeofKthread).2.machine.setupUserPageTables.2.setNewCr3
      (s.kmalloc sizeofKthread).2.machine.setupUserPageTables.1))
    (hS : ∀ x ∈ S, 0 < x.2.1.val ∧ (x.2.1.val < 20 ∨ 184 < x.2.1.val))
    (hend : Early (s.loadProcess (some [])).2.machine) :
    (s.loadProcess (some [])).2.machine.mem t 300
      = (s.kmalloc sizeofKthread).2.machine.setupUserPageTables.2.mem t 300 := by
  rw [Space.loadProcess] at hend ⊢
  generalize (s.kmalloc sizeofKthread).2 = s₁ at h hend ⊢
  obtain ⟨hbefore, hmm⟩ :=
    Pinned.mmStruct h (fun x hx => (hS x hx).2) Space.loadable_nil hend
  exact (Pinned.loadFile_nil_mem _ hmm hS hend).trans (h.kmalloc_mem rfl hbefore.served)

/-- Zeroed memory, but for page 1050: entry 1 names the page itself, and
entry 300 the kernel's page 512, marked copy-on-write. -/
def markedMachine : Machine :=
  ((filledMachine 0).setEntry (pageAddress 1050) 1 (pageAddress 1050 ||| userRwFlags)).setEntry
    (pageAddress 1050) 300 (pageAddress 512 ||| cowFlags)

theorem markedMachine_entries : ∀ x ∈ [(pageAddress 1050, (1 : Fin 512), pageAddress 1050)],
    x.1 = pageAddress 1050 ∧ x.2.1 ≠ 511 ∧
      markedMachine.nextTable (pageAddress 1050) x.2.1 = some x.2.2 := by
  simp only [List.forall_mem_cons, List.not_mem_nil, false_imp_iff, implies_true, and_true,
    true_and]
  exact ⟨by decide, rfl⟩

/-- The address that goes through entry 1 three times and ends in entry
300. -/
def markedAddr : Word := 0x804032C000

theorem path_markedAddr : path markedAddr = [1, 1, 1, 300] := by decide

theorem leaf_of_nextTable {r : Word} (hpath : path v = [1, 1, 1, i])
    (h : m.nextTable r 1 = some r) : m.leaf r v = m.mem r i := by
  obtain ⟨h₁, h₂, h₃, h₄⟩ : offsetPml4 v = 1 ∧ offsetPdpe v = 1 ∧ offsetPde v = 1 ∧
      offsetPte v = i := by
    simpa [path] using hpath
  rw [leaf, pageTable, h₁, h₂, h₃, h₄, h, Option.bind_eq_bind, Option.bind_some, h,
    Option.bind_some, h]

/-- `create_process` on an empty program: the new root has the marked
leaf. -/
theorem Started.createProcess_marked {last : Nat} {m : Machine} {y : World}
    (h : Started 1024 1184 last (markedMachine.initPhysicalMemory 0x400000 0 0x4A0000).mem m)
    (htables : DirectTables 1024 last y.machine) (hmem : y.machine.mem = m.mem)
    (hstock : y.machine.phys.Stock 1041 1184) (hlen : 17 ≤ y.machine.log.length)
    (hend : Early (y.createProcess (some [])).machine) :
    (y.space.loadProcess (some [])).1.cr3 = pageAddress 1050 ∧
      (y.createProcess (some [])).machine.leaf (pageAddress 1050) markedAddr
        = pageAddress 512 ||| cowFlags := by
  have hlast := h.lt_last (by decide)
  obtain ⟨hmem', htables', hstock', hkthread⟩ := World.kmalloc_kthread htables hstock (by decide)
    (by decide) (by decide) (by omega)
  obtain ⟨hroot, hpinned⟩ := h.pinnedRoot htables' (hmem'.trans hmem) hstock' (by omega)
    markedMachine_entries
  obtain ⟨-, -, hkept⟩ := h.newRoot (hmem'.trans hmem) hstock'
  have hend' : Early (y.space.loadProcess (some [])).2.machine := ⟨hend.served, hend.few⟩
  obtain ⟨hcr3, hloaded⟩ := Pinned.loadProcess_nil hroot hpinned (by simp) hend'
  have hself := hloaded.entries (pageAddress 1050, 1, pageAddress 1050)
    (List.mem_cons_of_mem _ (List.mem_cons_self ..))
  have hleaf : (y.space.loadProcess (some [])).2.machine.leaf (pageAddress 1050) markedAddr
      = pageAddress 512 ||| cowFlags := by
    rw [leaf_of_nextTable path_markedAddr hself, hpinned.loadProcess_nil_mem (by simp) hend',
      hkept 300 (by decide), markedMachine, setEntry_mem, write_self]
  exact ⟨hcr3, hleaf⟩

/-- No frame outside the region is ever counted. -/
theorem Started.ref_eq_zero {first bound last n : Nat} {physfree base length : Word}
    {mem : Word → Fin 512 → Word} {m m₁ m₂ : Machine} {ts us : List Word} (hlog : m.log = [])
    (h : Started first bound last mem m₁) (hbound : bound ≤ maxPages)
    (hroom : first + pagingFrames bound + 10 ≤ bound)
    (hboot : (m.initPhysicalMemory physfree base length).Posts ts m₂) (hd : m₁.Draws us m₂)
    (hserved : (0 : Word) ∉ m₂.log) (hn : n < first) : m₂.ref (pageAddress n) = 0 := by
  refine Nat.eq_zero_of_not_pos fun hpos => ?_
  have hempty : (m.initPhysicalMemory physfree base length).log = [] :=
    (memsetPhysical_log ..).trans hlog
  rcases hboot.charges.origin _ hpos with hold | ⟨f, hf, heq⟩
  · rw [ref_initPhysicalMemory] at hold
    exact absurd hold (Nat.lt_irrefl 0)
  · have hmem : f ∈ m₂.log := by
      rw [hboot.charges.draws.log]
      exact List.mem_append_left _ hf
    obtain ⟨k, hle, hk, rfl⟩ := h.log_page hroom hd hserved hmem
    rw [pageNumber_pageAddress (by omega), pageNumber_pageAddress (by omega)] at heq
    omega

/-- The handler returns without a change when the count is neither one nor
two. -/
theorem pageFaultHandler_uncounted {s : Space} {task : Task}
    (hcow : isCow (s.machine.leaf s.machine.cr3 v &&& flagMask) = true)
    (href : s.machine.ref (s.machine.leaf s.machine.cr3 v &&& mask) = 0) :
    s.pageFaultHandler task v = some s := by
  have hbase := leaf_congr_path (path_pageBase v) s.machine s.machine.cr3
  have hflags : isCow (s.machine.getFlags (pageBase v)) = true := by
    rw [getFlags_eq, hbase]
    exact hcow
  have hsame : s.machine.cowFault (pageBase v) = s.machine := by
    rw [← hbase] at href
    apply cowFault_none <;> rw [href] <;> decide
  rw [Space.pageFaultHandler, if_pos hflags, hsame]
  rfl

end Marked

/-- The page that a new process gets as its root holds a leaf marked
copy-on-write for a page of the kernel. That page is never counted, and a
store there faults for ever: the handler changes nothing. -/
theorem cow_fault_stuck : ∃ m' y p,
    Booted 0x400000 0 0x4A0000 markedMachine m' ∧ World.Run (World.boot m') y ∧ y.Current p ∧
      UserAddr markedAddr ∧
      isCow (y.machine.leaf p.task.cr3 markedAddr &&& flagMask) = true ∧
      y.machine.ref (y.machine.leaf p.task.cr3 markedAddr &&& mask) = 0 ∧
      y.space.pageFaultHandler p.task markedAddr = some y.space ∧ ¬ y.CowProgress := by
  obtain ⟨m', last, hbooted, hstarted⟩ : ∃ m' last,
      Booted 0x400000 0 0x4A0000 markedMachine m' ∧ Started 1024 1184 last
        (markedMachine.initPhysicalMemory 0x400000 0 0x4A0000).mem m' :=
    exists_booted bootRegion_stale rfl (tablesCleared_of_le bootRegion_stale _ (by decide))
      (by decide) (by decide)
  obtain ⟨htables, hmem, hstock, hacc, hlen⟩ := hstarted.boot (by decide) (by decide) (by decide)
  have hcreated : ((World.boot m').createProcess (some [])).machine.Account 160 107 :=
    World.createProcess_account hacc (by decide)
  obtain ⟨hcr3, hleaf⟩ := hstarted.createProcess_marked htables hmem hstock hlen
    ⟨hcreated.log, hcreated.used.trans (by decide)⟩
  obtain ⟨ts, hboot⟩ := hbooted.posts
  obtain ⟨us, hcreate⟩ := (World.boot m').createProcess_posts Space.loadable_nil
  obtain ⟨vs, hkthread⟩ := (World.work_boot [] m').posts
  have href := hstarted.ref_eq_zero (n := 512) (m := markedMachine) rfl (by decide) (by decide)
    (hboot.trans hcreate) (hkthread.trans hcreate).charges.draws hcreated.log (by decide)
  obtain ⟨p, hp, hrun⟩ := World.exists_switch hcr3 Space.loadable_nil hcreated.log
  generalize (World.boot m').createProcess (some []) = y at *
  have hswitch := y.machine_setMachine (y.machine.setNewCr3 (pageAddress 1050))
  generalize y.setMachine (y.machine.setNewCr3 (pageAddress 1050)) = y' at hp hrun hswitch
  have hroot : p.task.cr3 = pageAddress 1050 := by
    rw [← hp.2, hswitch, setNewCr3_cr3]
  have hmarked : y'.machine.leaf p.task.cr3 markedAddr = pageAddress 512 ||| cowFlags := by
    rw [hroot, hswitch, leaf_setNewCr3, hleaf]
  have hcow : isCow (y'.machine.leaf p.task.cr3 markedAddr &&& flagMask) = true := by
    rw [hmarked]
    decide
  have hzero : y'.machine.ref (y'.machine.leaf p.task.cr3 markedAddr &&& mask) = 0 := by
    rw [hmarked, show (pageAddress 512 ||| cowFlags) &&& mask = pageAddress 512 by decide, hswitch,
      ref_setNewCr3, href]
  refine ⟨m', y', p, hbooted, hrun, hp, by decide, hcow, hzero, ?_, fun hprogress => ?_⟩
  · rw [← hp.2] at hcow hzero
    exact pageFaultHandler_uncounted hcow hzero
  · rcases hprogress.counted p hp.1 markedAddr (by decide) hcow with hone | htwo
    · rw [hzero] at hone
      cases hone
    · rw [hzero] at htwo
      cases htwo

end SnowOs
