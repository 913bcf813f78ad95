import SnowOs.ElfLoad

/-!
# Stack growth

What `page_fault_handler` does for an address that is not copy-on-write. If
the address is not above the end of the stack VMA and the stack is within
LIMIT_STACK, the handler maps every page from the old end down to the page
of the address; otherwise it ends the process. The limit is tested on the
stack as it was, and nothing is said about what lies below it. So with frames
enough the handler stays in its window exactly if the grown stack is still
within the limit and the pages on the way are free
(`pageFaultHandler_window_iff`). A process that
`load_file` has just set up leaves the window with one access far below its
stack.
-/

namespace SnowOs

open Machine

namespace Machine

/-- The `n` pages below `v`, downwards. -/
def pagesBelow (v : Word) : Nat → List Word
  | 0 => []
  | n + 1 => (v - pageSize) :: pagesBelow (v - pageSize) n

theorem sub_pages_succ (v : Word) (k : Nat) :
    v - pageSize - BitVec.ofNat 64 (k * 4096) = v - BitVec.ofNat 64 ((k + 1) * 4096) := by
  rw [Nat.succ_mul, BitVec.ofNat_add]
  generalize BitVec.ofNat 64 (k * 4096) = w
  show v - 4096#64 - w = v - (w + 4096#64)
  bv_omega

theorem mem_pagesBelow {v w : Word} {n : Nat} :
    w ∈ pagesBelow v n ↔ ∃ k, 0 < k ∧ k ≤ n ∧ w = v - BitVec.ofNat 64 (k * 4096) := by
  induction n generalizing v with
  | zero =>
      refine iff_of_false List.not_mem_nil ?_
      rintro ⟨k, hpos, hle, -⟩
      exact absurd hpos (Nat.not_lt.mpr hle)
  | succ n ih =>
      rw [pagesBelow, List.mem_cons, ih]
      constructor
      · rintro (rfl | ⟨k, hpos, hle, rfl⟩)
        · exact ⟨1, Nat.one_pos, Nat.succ_le_succ (Nat.zero_le n), rfl⟩
        · exact ⟨k + 1, Nat.succ_pos k, Nat.succ_le_succ hle, sub_pages_succ v k⟩
      · rintro ⟨k, hpos, hle, rfl⟩
        obtain ⟨j, rfl⟩ := Nat.exists_eq_add_of_lt hpos
        rw [Nat.zero_add] at hle ⊢
        cases j with
        | zero => exact Or.inl rfl
        | succ j =>
            exact Or.inr ⟨j + 1, Nat.succ_pos j, Nat.le_of_succ_le_succ hle,
              (sub_pages_succ v (j + 1)).symm⟩

theorem length_pagesBelow (v : Word) (n : Nat) : (pagesBelow v n).length = n := by
  induction n generalizing v with
  | zero => rfl
  | succ n ih => rw [pagesBelow, List.length_cons, ih]

theorem Account.mapAll {vs : List Word} {m : Machine} {total used : Nat}
    (h : m.Account total used) (hfit : used + 4 * vs.length + 9 ≤ total) :
    (m.mapAll vs).Account total (used + 4 * vs.length) := by
  induction vs generalizing m used with
  | nil => exact h
  | cons v vs ih =>
      rw [List.length_cons] at hfit ⊢
      exact (ih (h.mapFresh v userRwFlags (by omega)) (by omega)).mono (by omega)

/-! ## The record of the requests -/

/-- Two machines that differ at most in the record of their requests. -/
structure SameButLog (m m' : Machine) : Prop where
  phys : m.phys = m'.phys
  mem : m.mem = m'.mem
  cr3 : m.cr3 = m'.cr3

section Record

variable {m m' : Machine} {roots : List Word} {lab : Word → Option Node} {l : List Nat}

theorem SameButLog.getFreePage (h : SameButLog m m') :
    m.getFreePage.1 = m'.getFreePage.1 ∧ SameButLog m.getFreePage.2 m'.getFreePage.2 := by
  refine ⟨?_, ?_, h.mem, h.cr3⟩ <;> simp only [getFreePage_fst, getFreePage_phys, h.phys]

theorem SameButLog.setEntry (h : SameButLog m m') (t : Word) (i : Fin 512) (w : Word) :
    SameButLog (m.setEntry t i w) (m'.setEntry t i w) :=
  ⟨h.phys, by simp only [Machine.setEntry, h.mem], h.cr3⟩

theorem SameButLog.descend (h : SameButLog m m') (t : Word) (i : Fin 512) (flags : Word) :
    (m.descend t i flags).1 = (m'.descend t i flags).1 ∧
      SameButLog (m.descend t i flags).2 (m'.descend t i flags).2 := by
  unfold Machine.descend
  rw [h.mem]
  split
  · exact ⟨rfl, h.setEntry ..⟩
  · obtain ⟨hframe, hrest⟩ := h.getFreePage
    simp only [hframe]
    exact ⟨trivial, hrest.setEntry ..⟩

theorem SameButLog.mapPage (h : SameButLog m m') (root v p flags : Word) :
    SameButLog (m.mapPage root v p flags) (m'.mapPage root v p flags) := by
  obtain ⟨hpdpe, h₁⟩ := h.descend root (offsetPml4 v) flags
  obtain ⟨hpde, h₂⟩ := h₁.descend (m.descend root (offsetPml4 v) flags).1 (offsetPdpe v) flags
  unfold Machine.mapPage
  simp only [← hpdpe, ← hpde]
  obtain ⟨hpte, h₃⟩ := h₂.descend _ (offsetPde v) flags
  rw [← hpte]
  exact h₃.setEntry ..

theorem SameButLog.mapAll (h : SameButLog m m') (vs : List Word) :
    SameButLog (m.mapAll vs) (m'.mapAll vs) := by
  induction vs generalizing m m' with
  | nil => exact h
  | cons v vs ih =>
      obtain ⟨hframe, hrest⟩ := h.getFreePage
      have hpage : SameButLog (m.mapFresh v userRwFlags) (m'.mapFresh v userRwFlags) := by
        unfold Machine.mapFresh updatePageTables
        rw [hframe, hrest.cr3]
        exact hrest.mapPage ..
      exact ih hpage

theorem SameButLog.translate (h : SameButLog m m') (root v : Word) :
    m.translate root v = m'.translate root v := by
  rw [translate_eq, translate_eq, entryAt, entryAt, h.mem]

/-- Refusals of the past do not count: with frames enough, the pages are mapped
as by a machine that has never refused one. -/
theorem Forest.served (h : Forest roots m lab l) {vs : List Word}
    (hfree : 4 * vs.length + 9 ≤ l.length) :
    ∃ m₁, SameButLog m₁ m ∧ Forest roots m₁ lab l ∧ (0 : Word) ∉ (m₁.mapAll vs).log := by
  let m₁ : Machine := { m with log := m.log.filter (· ≠ 0) }
  have hlog : (0 : Word) ∉ m₁.log := by simp [m₁]
  have hdrawn : ∀ {u n}, lab u = some n → u ∈ m₁.log := by
    intro u n hu
    have hne : u ≠ 0 := by
      rintro rfl
      exact absurd hu (by rw [h.zero]; simp)
    exact List.mem_filter.mpr ⟨h.drawn hu, decide_eq_true hne⟩
  have hpool : Pool m₁ lab l :=
    ⟨h.pool.counted, fun n hn => { h.pool.blank n hn with }, h.pool.positive⟩
  have hacc : m₁.Account (l.length + m₁.log.length) m₁.log.length :=
    ⟨⟨l, h.pool.counted, h.pool.positive, rfl⟩, hlog, Nat.le_refl _⟩
  exact ⟨m₁, ⟨rfl, rfl, rfl⟩, ⟨hpool, h.tables, h.root, h.current, h.zero, hdrawn, h.leaf⟩,
    (hacc.mapAll (by omega)).log⟩

end Record

end Machine

namespace Space

variable {s s' : Space} {st cr2 : Word} {task : Task} {roots : List Word}

/-! ## The loop -/

theorem growStack_machine (n : Nat) (s : Space) (st : Word) :
    (s.growStack n st).machine = s.machine.mapAll (pagesBelow (s.vma st).stop n) := by
  induction n generalizing s with
  | zero => rfl
  | succ n ih =>
      rw [growStack, ih, pagesBelow, mapAll_cons]
      simp only [setVma, setMachine, Function.update_self]
      rfl

theorem growStack_vma (n : Nat) (s : Space) (st : Word) :
    (s.growStack n st).vma st
      = { s.vma st with stop := (s.vma st).stop - BitVec.ofNat 64 (n * 4096) } := by
  induction n generalizing s with
  | zero =>
      rw [growStack, Nat.zero_mul, BitVec.sub_zero]
  | succ n ih =>
      rw [growStack, ih, ← sub_pages_succ]
      simp only [setVma, setMachine, Function.update_self]

/-! ## The window -/

def growthPages (s : Space) (st cr2 : Word) : Nat :=
  (((s.vma st).stop - pageBase cr2) / pageSize).toNat

/-- The branch that grows the stack. -/
def Grows (s : Space) (st cr2 : Word) : Prop :=
  pageBase cr2 ≤ (s.vma st).stop ∧ (s.vma st).start - (s.vma st).stop ≤ limitStack

/-- The stack VMA at `st` has grown inside its window, in the current address
space: only pages between the new and the old end are translated anew, the
stack is within the limit and a page, and no page that was mapped has
another frame. -/
structure StaysInWindow (s : Space) (st : Word) (s' : Space) : Prop where
  inside : ∀ v, s'.machine.translate s.machine.cr3 v ≠ s.machine.translate s.machine.cr3 v →
    ∃ k, 0 < k ∧ k * 4096 ≤ ((s.vma st).stop - (s'.vma st).stop).toNat ∧
      path v = path ((s.vma st).stop - BitVec.ofNat 64 (k * 4096))
  bounded : (s'.vma st).start - (s'.vma st).stop ≤ limitStack + pageSize
  kept : ∀ v f, s.machine.translate s.machine.cr3 v = some f →
    s'.machine.translate s.machine.cr3 v = some f

theorem pageFaultHandler_growth
    (hcow : isCow (s.machine.getFlags (pageBase cr2)) = false)
    (hst : (s.mm task.processMm).vmaStack = st) :
    s.pageFaultHandler task cr2 = some s' ↔
      s.Grows st cr2 ∧ s' = s.growStack (s.growthPages st cr2) st := by
  subst hst
  rw [pageFaultHandler, if_neg (by rw [hcow]; exact Bool.false_ne_true)]
  by_cases hgrow : s.Grows (s.mm task.processMm).vmaStack cr2
  · rw [if_pos (show _ ∧ _ from hgrow), Option.some.injEq, eq_comm]
    exact (and_iff_right hgrow).symm
  · rw [if_neg (show ¬ (_ ∧ _) from hgrow)]
    exact iff_of_false (Option.some_ne_none s').symm fun h => hgrow h.1

theorem Grows.pages_le (h : s.Grows st cr2) :
    s.growthPages st cr2 * 4096 ≤ (s.vma st).stop.toNat := by
  rw [growthPages, BitVec.toNat_udiv, BitVec.toNat_sub_of_le h.1, pageSize_toNat]
  omega

theorem sub_pages_toNat {v : Word} {k : Nat} (h : k * 4096 ≤ v.toNat) :
    (v - BitVec.ofNat 64 (k * 4096)).toNat = v.toNat - k * 4096 := by
  have hk : (BitVec.ofNat 64 (k * 4096)).toNat = k * 4096 := by
    rw [BitVec.toNat_ofNat, Nat.mod_eq_of_lt (by omega)]
  rw [BitVec.toNat_sub_of_le (by rw [BitVec.le_def, hk]; exact h), hk]

/-- The distance between the ends is that of the pages mapped. -/
theorem Grows.distance (h : s.Grows st cr2) :
    ((s.vma st).stop - ((s.growStack (s.growthPages st cr2) st).vma st).stop).toNat
      = s.growthPages st cr2 * 4096 := by
  have hle := h.pages_le
  have hnew := sub_pages_toNat hle
  rw [growStack_vma, BitVec.toNat_sub_of_le (by rw [BitVec.le_def, hnew]; omega), hnew]
  omega

theorem Grows.userPath (h : s.Grows st cr2) (hstop : (s.vma st).stop.toNat ≤ 2 ^ 47) :
    ∀ v ∈ pagesBelow (s.vma st).stop (s.growthPages st cr2), UserPath (path v) := by
  intro v hv
  obtain ⟨k, hpos, hle, rfl⟩ := mem_pagesBelow.mp hv
  have hpages := h.pages_le
  have hk : k * 4096 ≤ (s.vma st).stop.toNat :=
    Nat.le_trans (Nat.mul_le_mul_right 4096 hle) hpages
  refine userPath_of_lt ?_
  rw [sub_pages_toNat hk]
  omega

/-- The growth branch stays in the window exactly if the grown stack is within
the limit and its new pages were free. -/
theorem Grows.window_iff (h : s.Grows st cr2) (hs : Sound roots s.machine)
    (hstop : (s.vma st).stop.toNat ≤ 2 ^ 47)
    (hfree : 4 * s.growthPages st cr2 + 9 ≤ s.machine.phys.getFreePagesCount.toNat) :
    s.StaysInWindow st (s.growStack (s.growthPages st cr2) st) ↔
      (s.vma st).start - ((s.vma st).stop - BitVec.ofNat 64 (s.growthPages st cr2 * 4096))
          ≤ limitStack + pageSize ∧
        ∀ k, 0 < k → k ≤ s.growthPages st cr2 →
          s.machine.translate s.machine.cr3 ((s.vma st).stop - BitVec.ofNat 64 (k * 4096))
            = none := by
  obtain ⟨lab, l, hF⟩ := hs
  have huser := h.userPath hstop
  have hdist := h.distance
  rw [hF.pool.counted.count_toNat] at hfree
  obtain ⟨m₁, hsame, hF₁, hserved⟩ := hF.served
    (show 4 * (pagesBelow (s.vma st).stop (s.growthPages st cr2)).length + 9 ≤ l.length by
      rwa [length_pagesBelow])
  have hbefore := hsame.translate
  have hafter := (hsame.mapAll (pagesBelow (s.vma st).stop (s.growthPages st cr2))).translate
  rw [← growStack_machine (s.growthPages st cr2) s st] at hafter
  have hkeeps := hF₁.mapAll_keeps_iff huser hserved
  obtain ⟨lab', l', hM⟩ := hF₁.mapAll huser hserved
  simp only [hsame.cr3, hbefore, hafter] at hkeeps
  constructor
  · rintro ⟨-, hbound, hkept⟩
    rw [growStack_vma] at hbound
    exact ⟨hbound, fun k hpos hle => hkeeps.mp hkept _ (mem_pagesBelow.mpr ⟨k, hpos, hle, rfl⟩)⟩
  · rintro ⟨hbound, hfree⟩
    refine ⟨fun v hv => ?_, by rw [growStack_vma]; exact hbound, ?_⟩
    · by_contra hout
      rw [← hafter, ← hbefore, ← hsame.cr3] at hv
      refine hv (hM.translate hF₁ fun w hw heq => hout ?_)
      obtain ⟨k, hpos, hle, rfl⟩ := mem_pagesBelow.mp hw
      exact ⟨k, hpos, by rw [hdist]; exact Nat.mul_le_mul_right 4096 hle, heq⟩
    · refine hkeeps.mpr fun w hw => ?_
      obtain ⟨k, hpos, hle, rfl⟩ := mem_pagesBelow.mp hw
      exact hfree k hpos hle

/-- With four frames for each page of growth beside the reserve, **stack growth
stays inside its window exactly if** the pages from the old end down to the
fault keep the stack within LIMIT_STACK and a page, and none of them was
mapped. -/
theorem pageFaultHandler_window_iff (hs : Sound roots s.machine)
    (hst : (s.mm task.processMm).vmaStack = st) (hstop : (s.vma st).stop.toNat ≤ 2 ^ 47)
    (hcow : isCow (s.machine.getFlags (pageBase cr2)) = false)
    (hfree : s.Grows st cr2 →
      4 * s.growthPages st cr2 + 9 ≤ s.machine.phys.getFreePagesCount.toNat) :
    (∀ s', s.pageFaultHandler task cr2 = some s' → s.StaysInWindow st s') ↔
      (s.Grows st cr2 →
        (s.vma st).start - ((s.vma st).stop - BitVec.ofNat 64 (s.growthPages st cr2 * 4096))
            ≤ limitStack + pageSize ∧
          ∀ k, 0 < k → k ≤ s.growthPages st cr2 →
            s.machine.translate s.machine.cr3 ((s.vma st).stop - BitVec.ofNat 64 (k * 4096))
              = none) := by
  have hcases := fun s' => @pageFaultHandler_growth s s' st cr2 task hcow hst
  constructor
  · intro hall hgrow
    have hres := (hcases _).mpr ⟨hgrow, rfl⟩
    exact (hgrow.window_iff hs hstop (hfree hgrow)).mp (hall _ hres)
  · intro hfit s' hres
    obtain ⟨hgrow, rfl⟩ := (hcases s').mp hres
    exact (hgrow.window_iff hs hstop (hfree hgrow)).mpr (hfit hgrow)

end Space

/-! ## A process that has just been loaded

Text at 0x400000, data at 0x401000, the heap and one page of stack, on a
machine with 8190 frames. -/

def loadedTask : Task := { cr3 := 0x1000, processMm := 0 }

def loadedSpace : Space :=
  ((bootSpace 0x2000 0x2000000).loadImage loadedTask { rip := 0, rspUser := 0 }
    (some Image.twoSegments)).2.2

def loadedMem : UserMem :=
  (UserMem.loadSegments (fun _ => none)
    (Image.twoSegments.loads.map Image.twoSegments.phdrAt)).withHeapStack

theorem loadedSpace_region : PhysMem.BootRegion 0x2000 0 0x2000000 :=
  ⟨by decide, by decide, by decide, by decide⟩

theorem loadedSpace_account : loadedSpace.machine.Account 8191 41 := by
  have hstart : (bootSpace 0x2000 0x2000000).machine.Account 8191 1 :=
    bootMachine_account loadedSpace_region (by decide)
  exact Image.twoSegments_account loadedTask hstart (by decide)

/-- The process in one piece: its memory, its areas and its stack. -/
theorem loadedSpace_shows : ∃ nodes st, (loadedSpace.mm 0).vmaStack = st ∧
    Shows [0x1000] ((bootSpace 0x2000 0x2000000).machine.entryAt 0x1000) loadedSpace.machine
      loadedMem (st :: nodes) ∧
    VmaList loadedSpace.vma (loadedSpace.mm 0).vmaMap (loadedSpace.mm 0).vmaMapIter nodes ∧
    areas loadedSpace.vma nodes
      = Image.twoSegments.loads.map (fun p => (Image.twoSegments.phdrAt p).area) ++ [heapArea] ∧
    st ∉ nodes ∧ loadedSpace.vma st = stackArea.toStruct := by
  have hboot : InUse [0x1000] (bootSpace 0x2000 0x2000000).machine [] :=
    (bootMachine_forest loadedSpace_region (by decide)).inUse
  have hlow := Image.twoSegments_loadable.low
  rw [← Image.filter_phdrs] at hlow
  obtain ⟨nodes, mm, hmm, hshows, hlist, hareas, -, hnew, hstack⟩ :=
    Loading.loadFile hboot loadedTask hlow loadedSpace_account.log
  rw [Image.filter_phdrs] at hshows hareas
  rw [List.append_nil] at hshows
  rw [List.map_map] at hareas
  subst hmm
  exact ⟨nodes, _, rfl, hshows, hlist, hareas, hnew, hstack⟩

theorem loadedSpace_sound : Sound [0x1000] loadedSpace.machine := by
  obtain ⟨nodes, st, -, hshows, -⟩ := loadedSpace_shows
  exact hshows.forest

theorem loadedSpace_stack :
    loadedSpace.vma (loadedSpace.mm 0).vmaStack = stackArea.toStruct := by
  obtain ⟨nodes, st, rfl, -, -, -, -, hstack⟩ := loadedSpace_shows
  exact hstack

theorem loadedTask_stack :
    (loadedSpace.mm loadedTask.processMm).vmaStack = (loadedSpace.mm 0).vmaStack := rfl

theorem loadedSpace_apart : ∃ nodes,
    VmaList loadedSpace.vma (loadedSpace.mm 0).vmaMap (loadedSpace.mm 0).vmaMapIter nodes ∧
      (areas loadedSpace.vma (nodes ++ [(loadedSpace.mm 0).vmaStack])).Pairwise
        VmaArea.Apart := by
  obtain ⟨nodes, st, rfl, -, hlist, hareas, -, hstack⟩ := loadedSpace_shows
  refine ⟨nodes, hlist, ?_⟩
  rw [areas, List.map_append, ← areas, hareas, List.map_singleton, hstack]
  decide +kernel

/-- A page that `load_file` did not map is not mapped. -/
theorem loadedSpace_leaf {v : Word} (hv : UserPath (path v))
    (hμ : loadedMem (virtual v) = none) :
    loadedSpace.machine.leaf loadedSpace.machine.cr3 v = 0 := by
  obtain ⟨nodes, st, -, hshows, -⟩ := loadedSpace_shows
  rw [hshows.leaf_rest hv hμ]
  exact bootMachine_entryAt 0x2000 0x2000000 (path v)

theorem not_isCow_of_leaf {m : Machine} {v : Word} (h : m.leaf m.cr3 v = 0) :
    isCow (m.getFlags v) = false := by
  rw [getFlags_eq, h]
  rfl

theorem loadedSpace_growthPages {cr2 : Word} {n : Nat}
    (h : ((stackStart - pageBase cr2) / pageSize).toNat = n) :
    loadedSpace.growthPages (loadedSpace.mm 0).vmaStack cr2 = n := by
  rw [Space.growthPages, loadedSpace_stack]
  exact h

theorem loadedSpace_grows {cr2 : Word} (h : pageBase cr2 ≤ stackStart) :
    loadedSpace.Grows (loadedSpace.mm 0).vmaStack cr2 := by
  rw [Space.Grows, loadedSpace_stack]
  exact ⟨h, by decide⟩

theorem loadedSpace_served {n : Nat} (hn : n ≤ 2000) :
    (0 : Word) ∉ (loadedSpace.growStack n (loadedSpace.mm 0).vmaStack).machine.log := by
  have hacc := loadedSpace_account.mapAll
    (show 41 + 4 * (pagesBelow (loadedSpace.vma (loadedSpace.mm 0).vmaStack).stop n).length + 9
        ≤ 8191 by
      rw [length_pagesBelow]; omega)
  rw [Space.growStack_machine]
  exact hacc.log

theorem loadedSpace_free : 8150 ≤ loadedSpace.machine.phys.getFreePagesCount.toNat := by
  obtain ⟨⟨l, hc, -, hlen⟩, -, hused⟩ := loadedSpace_account
  rw [hc.count_toNat]
  omega

/-- The page below the stack is free, and the stack grows by it. -/
theorem pageFaultHandler_window_oneBelow :
    ∃ s', loadedSpace.pageFaultHandler loadedTask 0xEFFFF008 = some s' ∧
      loadedSpace.StaysInWindow (loadedSpace.mm 0).vmaStack s' := by
  have hbase : pageBase 0xEFFFF008 = 0xEFFFF000 := by decide
  have hleaf : loadedSpace.machine.leaf loadedSpace.machine.cr3 0xEFFFF000 = 0 :=
    loadedSpace_leaf (by decide) (by decide +kernel)
  have hcow : isCow (loadedSpace.machine.getFlags (pageBase 0xEFFFF008)) = false := by
    rw [hbase]
    exact not_isCow_of_leaf hleaf
  have hpages := loadedSpace_growthPages (show
    ((stackStart - pageBase 0xEFFFF008) / pageSize).toNat = 1 by decide)
  have hgrow := loadedSpace_grows (show pageBase 0xEFFFF008 ≤ stackStart by decide)
  have hcases := fun s' => @Space.pageFaultHandler_growth loadedSpace s'
    (loadedSpace.mm 0).vmaStack 0xEFFFF008 loadedTask hcow loadedTask_stack
  have hres := (hcases _).mpr ⟨hgrow, rfl⟩
  refine ⟨_, hres, (Space.pageFaultHandler_window_iff loadedSpace_sound loadedTask_stack
    ?_ hcow fun _ => ?_).mpr (fun _ => ⟨?_, fun k hpos hle => ?_⟩) _ hres⟩
  · rw [loadedSpace_stack]
    decide
  · rw [hpages]
    exact Nat.le_trans (by decide) loadedSpace_free
  · rw [hpages, loadedSpace_stack]
    decide
  · rw [hpages] at hle
    obtain rfl : k = 1 := Nat.le_antisymm hle hpos
    rw [loadedSpace_stack, Machine.translate,
      show stackArea.toStruct.stop - BitVec.ofNat 64 (1 * 4096) = 0xEFFFF000 by decide, hleaf]
    rfl

/-- An access 1002 pages below the stack of a process that has just been
loaded: the stack grows over the limit by more than a page. -/
theorem stack_leaves_window :
    Sound [0x1000] loadedSpace.machine ∧
      (∃ nodes, VmaList loadedSpace.vma (loadedSpace.mm 0).vmaMap
          (loadedSpace.mm 0).vmaMapIter nodes ∧
        (areas loadedSpace.vma (nodes ++ [(loadedSpace.mm 0).vmaStack])).Pairwise
          VmaArea.Apart) ∧
      UserAddr 0xEFC16000 ∧
      loadedSpace.machine.translate loadedSpace.machine.cr3 0xEFC16000 = none ∧
      isCow (loadedSpace.machine.getFlags (pageBase 0xEFC16000)) = false ∧
      ∃ s', loadedSpace.pageFaultHandler loadedTask 0xEFC16000 = some s' ∧
        (0 : Word) ∉ s'.machine.log ∧
        ¬ loadedSpace.StaysInWindow (loadedSpace.mm 0).vmaStack s' := by
  have hbase : pageBase 0xEFC16000 = 0xEFC16000 := by decide
  have hleaf : loadedSpace.machine.leaf loadedSpace.machine.cr3 0xEFC16000 = 0 :=
    loadedSpace_leaf (by decide) (by decide +kernel)
  have hcow : isCow (loadedSpace.machine.getFlags (pageBase 0xEFC16000)) = false := by
    rw [hbase]
    exact not_isCow_of_leaf hleaf
  have hpages := loadedSpace_growthPages (show
    ((stackStart - pageBase 0xEFC16000) / pageSize).toNat = 1002 by decide)
  have hgrow := loadedSpace_grows (show pageBase 0xEFC16000 ≤ stackStart by decide)
  have hres := (Space.pageFaultHandler_growth hcow loadedTask_stack).mpr ⟨hgrow, rfl⟩
  rw [hpages] at hres
  refine ⟨loadedSpace_sound, loadedSpace_apart, by decide, ?_, hcow, _, hres,
    loadedSpace_served (Nat.le_of_ble_eq_true rfl), fun hwindow => ?_⟩
  · rw [Machine.translate, hleaf]
    rfl
  · have hbound := hwindow.bounded
    rw [Space.growStack_vma, loadedSpace_stack] at hbound
    exact absurd hbound (by decide)

end SnowOs
