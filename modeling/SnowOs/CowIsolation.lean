import SnowOs.AddressSpace
import SnowOs.Bytes
import SnowOs.Cow

/-!
# Copy-on-write isolation

Processes fork and store bytes; a store to a page that is not writable
first runs `page_fault_handler`. The reference is one private byte map per
process, copied whole by `fork` (`RefSpaces`). `Isolated` is what keeps
the two in step: a writable page is mapped by one address of one process
only, all other pages are marked copy-on-write, and every mapped frame is
counted once or twice.

The counts do not say how many processes share a frame: `cow_page_tables`
stops at two. The handler writes in place when the count is one, and that
is where isolation is lost; the run theorem holds as long as the frame is
not shared at that moment (`WritesAlone`).
-/

namespace SnowOs

open Radix

/-! ## Addresses and flags -/

def UserAddr (v : Word) : Prop :=
  offsetPml4 v ≠ 511 ∧ (v.toNat < 2 ^ 47 ∨ 2 ^ 64 - 2 ^ 47 ≤ v.toNat)

instance (v : Word) : Decidable (UserAddr v) := inferInstanceAs (Decidable (_ ∧ _))

theorem UserAddr.userPath {v : Word} (h : UserAddr v) : UserPath (path v) :=
  fun hc => h.1 (Option.some.inj hc)

/-- A canonical address is its page and its offset. -/
theorem UserAddr.ext {u v : Word} (hu : UserAddr u) (hv : UserAddr v) (hpath : path u = path v)
    (hoff : Machine.pageOffset u = Machine.pageOffset v) : u = v := by
  rw [path_eq_iff, pageIndex, pageIndex] at hpath
  rw [Machine.pageOffset, Machine.pageOffset] at hoff
  have hu' := hu.2
  have hv' := hv.2
  apply BitVec.eq_of_toNat_eq
  omega

def cowFlags : Word := 0x205

/-- The R/W bit, as the processor tests it for a store. -/
def writable (e : Word) : Bool := e &&& 2 = 2

theorem and_flagMask_and {e k : Word} (h : flagMask &&& k = k) :
    (e &&& flagMask) &&& k = e &&& k := by
  rw [BitVec.and_assoc, h]

theorem writable_of_flags {e : Word} (h : e &&& flagMask = userRwFlags) : writable e = true := by
  rw [writable, ← and_flagMask_and (by decide : flagMask &&& 2 = 2), h]
  decide

theorem not_writable_of_flags {e : Word} (h : e &&& flagMask = cowFlags) :
    ¬ writable e = true := by
  rw [writable, ← and_flagMask_and (by decide : flagMask &&& 2 = 2), h]
  decide

theorem cowEntry_flags {e : Word} (hp : present e = true)
    (h : e &&& flagMask = userRwFlags ∨ e &&& flagMask = cowFlags) :
    cowEntry e &&& flagMask = cowFlags := by
  have hsplit : cowEntry e &&& flagMask = (e &&& flagMask) &&& turnOffRw ||| cowFlag := by
    rw [cowEntry_of_present hp, or_and_distrib, BitVec.and_assoc, BitVec.and_assoc,
      BitVec.and_comm turnOffRw]
    rfl
  rcases h with h | h <;> rw [hsplit, h] <;> decide

theorem pageBase_toNat (v : Word) : (Machine.pageBase v).toNat = v.toNat / 4096 * 4096 := by
  have := v.isLt
  rw [Machine.pageBase, BitVec.toNat_mul, BitVec.toNat_udiv, pageSize_toNat]
  omega

theorem aligned_pageBase (v : Word) : Aligned (Machine.pageBase v) := by
  rw [Aligned, pageBase_toNat]
  omega

theorem UserAddr.pageBase {v : Word} (h : UserAddr v) : UserAddr (Machine.pageBase v) := by
  have hpath : path (Machine.pageBase v) = path v := by
    rw [path_eq_iff, pageIndex, pageIndex, pageBase_toNat]
    omega
  refine ⟨fun hc => h.1 ?_, ?_⟩
  · rw [← hc]
    exact (List.cons.inj hpath).1.symm
  · have := h.2
    rw [pageBase_toNat]
    omega

theorem path_pageBase (v : Word) : path (Machine.pageBase v) = path v := by
  rw [path_eq_iff, pageIndex, pageIndex, pageBase_toNat]
  omega

namespace Machine

/-! ## The invariant -/

/-- The sharing of frames among the user halves of `roots`. -/
structure Isolated (roots : List Word) (m : Machine) (lab : Word → Option Node)
    (l : List Nat) : Prop where
  forest : Forest roots m lab l
  kind : ∀ r ∈ roots, ∀ v, UserAddr v → present (m.leaf r v) = true →
    m.leaf r v &&& flagMask = userRwFlags ∨ m.leaf r v &&& flagMask = cowFlags
  counted : ∀ r ∈ roots, ∀ v, UserAddr v → present (m.leaf r v) = true →
    m.ref (m.leaf r v &&& mask) = 1 ∨ m.ref (m.leaf r v &&& mask) = 2
  alone : ∀ r ∈ roots, ∀ v, UserAddr v → m.leaf r v &&& flagMask = userRwFlags →
    ∀ r' ∈ roots, ∀ v', UserAddr v' → present (m.leaf r' v') = true →
      m.leaf r' v' &&& mask = m.leaf r v &&& mask → r' = r ∧ path v' = path v

section Invariant

variable {roots : List Word} {m m' : Machine} {lab lab' : Word → Option Node}
  {l l' : List Nat} {r v g : Word}

theorem present_of_flags {e : Word} (h : e &&& flagMask = userRwFlags) : present e = true := by
  rw [present, ← and_flagMask_and (by decide : flagMask &&& 1 = 1), h]
  decide

theorem present_of_cowFlags {e : Word} (h : e &&& flagMask = cowFlags) : present e = true := by
  rw [present, ← and_flagMask_and (by decide : flagMask &&& 1 = 1), h]
  decide

theorem Forest.held_leaf (h : Forest roots m lab l) (hr : r ∈ roots) (hv : UserAddr v)
    (hp : present (m.leaf r v) = true) : Held lab l (m.leaf r v &&& mask) := by
  rcases h.leafAt hr v with hzero | ⟨-, -, hheld⟩
  · rw [hzero] at hp
    cases hp
  · exact hheld hv.userPath

theorem leaf_eq_of_entryAt (h : m'.entryAt r (path v) = m.entryAt r (path v)) :
    m'.leaf r v = m.leaf r v := by
  rw [leaf_eq_entryAt, leaf_eq_entryAt]
  exact h

/-- Reads depend on the user leaves and the frames they map. -/
theorem readByte_congr {r' : Word} (hleaf : m'.leaf r' v &&& mask = m.leaf r v &&& mask)
    (hpres : present (m'.leaf r' v) = present (m.leaf r v))
    (hmem : present (m.leaf r v) = true →
      m'.mem (m.leaf r v &&& mask) = m.mem (m.leaf r v &&& mask)) :
    m'.readByte r' v = m.readByte r v := by
  unfold readByte translate
  rw [hpres, hleaf]
  split
  · rename_i hp
    rw [Option.map_some, Option.map_some, hmem hp]
  · rfl

def SameBytes (roots : List Word) (m m' : Machine) : Prop :=
  ∀ r ∈ roots, ∀ v, UserAddr v → m'.readByte r v = m.readByte r v

theorem Isolated.quiet (h : Isolated roots m lab l) (hq : Quiet roots m lab l m' lab' l') :
    Isolated roots m' lab' l' ∧ SameBytes roots m m' := by
  have hleaf : ∀ r ∈ roots, ∀ v, UserAddr v → m'.leaf r v = m.leaf r v := by
    intro r hr v hv
    exact leaf_eq_of_entryAt (hq.user r hr _ (length_path v) hv.userPath)
  refine ⟨⟨hq.forest, fun r hr v hv hp => ?_, fun r hr v hv hp => ?_,
    fun r hr v hv hw r' hr' v' hv' hp hf => ?_⟩, fun r hr v hv => ?_⟩
  · rw [hleaf r hr v hv] at hp ⊢
    exact h.kind r hr v hv hp
  · rw [hleaf r hr v hv] at hp ⊢
    rw [hq.keeps.ref (h.forest.held_leaf hr hv hp)]
    exact h.counted r hr v hv hp
  · rw [hleaf r hr v hv] at hw hf
    rw [hleaf r' hr' v' hv'] at hp hf
    exact h.alone r hr v hv hw r' hr' v' hv' hp hf
  · have heq := hleaf r hr v hv
    refine readByte_congr (by rw [heq]) (by rw [heq]) fun hp => ?_
    exact hq.keeps.mem (h.forest.held_leaf hr hv hp)

/-- Only which roots there are matters. -/
theorem Isolated.perm {roots' : List Word} (h : Isolated roots m lab l)
    (hmem : ∀ r, r ∈ roots' ↔ r ∈ roots) : Isolated roots' m lab l :=
  ⟨⟨h.forest.pool, h.forest.tables, fun r hr => h.forest.root r ((hmem r).mp hr),
      (hmem _).mpr h.forest.current, h.forest.zero, h.forest.drawn,
      fun r hr => h.forest.leaf r ((hmem r).mp hr)⟩,
    fun r hr => h.kind r ((hmem r).mp hr), fun r hr => h.counted r ((hmem r).mp hr),
    fun r hr v hv hw r' hr' => h.alone r ((hmem r).mp hr) v hv hw r' ((hmem r').mp hr')⟩

theorem readByte_setNewCr3 (m : Machine) (c r v : Word) :
    (m.setNewCr3 c).readByte r v = m.readByte r v := rfl

theorem Isolated.setNewCr3 (h : Isolated roots m lab l) (hr : r ∈ roots) :
    Isolated roots (m.setNewCr3 r) lab l :=
  ⟨h.forest.setNewCr3 hr, h.kind, h.counted, h.alone⟩

/-! ## Fork -/

theorem Cowed.leaf_parent {c : Word} (hC : Cowed roots m lab l c m' lab' l')
    (hv : UserAddr v) : m'.leaf m.cr3 v = cowEntry (m.leaf m.cr3 v) := by
  rw [leaf_eq_entryAt, leaf_eq_entryAt]
  exact hC.parent _ (length_path v) hv.userPath

theorem Cowed.leaf_child {c : Word} (hC : Cowed roots m lab l c m' lab' l')
    (hv : UserAddr v) : m'.leaf c v = cowEntry (m.leaf m.cr3 v) := by
  rw [leaf_eq_entryAt, leaf_eq_entryAt]
  exact hC.child _ (length_path v) hv.userPath

theorem Cowed.leaf_other {c : Word} (hC : Cowed roots m lab l c m' lab' l') (hr : r ∈ roots)
    (hne : r ≠ m.cr3) (hv : UserAddr v) : m'.leaf r v = m.leaf r v :=
  leaf_eq_of_entryAt (hC.other r hr hne _ (length_path v) hv.userPath)

/-- After the pass every leaf is either one that was there, in another
process, or the marked copy of one of the forking process. -/
theorem Cowed.leaf_cases {c : Word} (hC : Cowed roots m lab l c m' lab' l')
    (hr : r ∈ c :: roots) (hv : UserAddr v) :
    r ∈ roots ∧ r ≠ m.cr3 ∧ m'.leaf r v = m.leaf r v ∨
      m'.leaf r v = cowEntry (m.leaf m.cr3 v) := by
  rcases List.mem_cons.mp hr with rfl | hr
  · exact Or.inr (hC.leaf_child hv)
  · by_cases hne : r = m.cr3
    · rw [hne]
      exact Or.inr (hC.leaf_parent hv)
    · exact Or.inl ⟨hr, hne, hC.leaf_other hr hne hv⟩

theorem Isolated.cowed {c : Word} (h : Isolated roots m lab l)
    (hC : Cowed roots m lab l c m' lab' l') :
    Isolated (c :: roots) m' lab' l' ∧ SameBytes roots m m' ∧
      ∀ v, UserAddr v → m'.readByte c v = m.readByte m.cr3 v := by
  have hcur := h.forest.current
  have hcounted : ∀ {r v}, r ∈ roots → UserAddr v → present (m.leaf r v) = true →
      m'.ref (m.leaf r v &&& mask) = 1 ∨ m'.ref (m.leaf r v &&& mask) = 2 := by
    intro r v hr hv hp
    rcases hC.ref (h.forest.held_leaf hr hv hp) with heq | ⟨-, htwo⟩
    · rw [heq]
      exact h.counted r hr v hv hp
    · exact Or.inr htwo
  have hread : ∀ {r' r v}, r ∈ roots → UserAddr v →
      (m'.leaf r' v = m.leaf r v ∨ m'.leaf r' v = cowEntry (m.leaf r v)) →
      m'.readByte r' v = m.readByte r v := by
    intro r' r v hr hv hleaf
    refine readByte_congr ?_ ?_ fun hp => hC.mem (h.forest.held_leaf hr hv hp)
    · rcases hleaf with heq | heq <;> rw [heq]
      exact cowEntry_frame _
    · rcases hleaf with heq | heq <;> rw [heq]
      exact present_cowEntry _
  refine ⟨⟨hC.forest, fun r hr v hv hp => ?_, fun r hr v hv hp => ?_,
    fun r hr v hv hw r' hr' v' hv' hp hf => ?_⟩, fun r hr v hv => ?_, fun v hv => ?_⟩
  · rcases hC.leaf_cases hr hv with ⟨hold, -, heq⟩ | heq
    · rw [heq] at hp ⊢
      exact h.kind r hold v hv hp
    · rw [heq] at hp ⊢
      rw [present_cowEntry] at hp
      exact Or.inr (cowEntry_flags hp (h.kind _ hcur v hv hp))
  · rcases hC.leaf_cases hr hv with ⟨hold, -, heq⟩ | heq
    · rw [heq] at hp ⊢
      exact hcounted hold hv hp
    · rw [heq, present_cowEntry] at hp
      rw [heq, cowEntry_frame]
      exact hcounted hcur hv hp
  · rcases hC.leaf_cases hr hv with ⟨hold, hne, heq⟩ | heq
    · rw [heq] at hw hf
      rcases hC.leaf_cases hr' hv' with ⟨hold', -, heq'⟩ | heq'
      · rw [heq'] at hp hf
        exact h.alone r hold v hv hw r' hold' v' hv' hp hf
      · rw [heq', present_cowEntry] at hp
        rw [heq', cowEntry_frame] at hf
        exact absurd (h.alone r hold v hv hw m.cr3 hcur v' hv' hp hf).1.symm hne
    · have hpw := present_of_flags hw
      rw [heq, present_cowEntry] at hpw
      rw [heq, cowEntry_flags hpw (h.kind _ hcur v hv hpw)] at hw
      exact absurd hw (by decide)
  · by_cases hne : r = m.cr3
    · rw [hne]
      exact hread hcur hv (Or.inr (hC.leaf_parent hv))
    · exact hread hr hv (Or.inl (hC.leaf_other hr hne hv))
  · exact hread hcur hv (Or.inr (hC.leaf_child hv))

end Invariant

/-! ### The kernel heap in `copy_process` -/

/-- From `m` to `m'` by requests to `kmalloc` of ordinary size, for so many
pages in all. -/
inductive HeapRun (m : Machine) : Nat → Machine → Prop
  | refl : HeapRun m 0 m
  | kmalloc {m' : Machine} {pages : Nat} {n : BitVec 32} : HeapRun m pages m' →
      noOfPages n ≤ maxPages → HeapRun m (pages + noOfPages n) (m'.kmalloc n).2

theorem HeapRun.trans {m₁ m₂ m₃ : Machine} {j k : Nat} (h₁ : HeapRun m₁ j m₂)
    (h₂ : HeapRun m₂ k m₃) : HeapRun m₁ (j + k) m₃ := by
  induction h₂ with
  | refl => exact h₁
  | kmalloc _ hn ih =>
      rw [← Nat.add_assoc]
      exact ih.kmalloc hn

theorem HeapRun.log_suffix {m m' : Machine} {k : Nat} (h : HeapRun m k m') :
    m.log <:+ m'.log := by
  induction h with
  | refl => exact List.suffix_refl _
  | kmalloc _ _ ih => exact ih.trans (kmalloc_log_suffix ..)

theorem HeapRun.quiet {roots : List Word} {m m' : Machine} {lab : Word → Option Node}
    {l : List Nat} {k : Nat} (h : HeapRun m k m') (hF : Forest roots m lab l)
    (hlog : (0 : Word) ∉ m'.log) : ∃ lab' l', Quiet roots m lab l m' lab' l' := by
  induction h with
  | refl => exact ⟨lab, l, .refl hF⟩
  | kmalloc _ hn ih =>
      obtain ⟨lab₁, l₁, h₁⟩ := ih fun hmem => hlog ((kmalloc_log_suffix ..).subset hmem)
      obtain ⟨lab', l', -, hq⟩ := h₁.forest.kmalloc hlog
      exact ⟨lab', l', h₁.trans (hq hn)⟩

end Machine

namespace Space

open Machine

theorem heapRun_page (m : Machine) {n : BitVec 32} (hn : noOfPages n = 1) :
    HeapRun m 1 (m.kmalloc n).2 := by
  have hle : noOfPages n ≤ maxPages := by
    rw [hn]
    decide
  have hrun : HeapRun m (0 + noOfPages n) (m.kmalloc n).2 := HeapRun.refl.kmalloc hle
  rwa [hn] at hrun

theorem copyVmaMap_heapRun (fuel : Nat) (pVma vmaHeap cMap cIter : Word) (s : Space) :
    ∃ k ≤ fuel, HeapRun s.machine k (s.copyVmaMap fuel pVma vmaHeap cMap cIter).2.machine := by
  induction fuel generalizing pVma cMap cIter s with
  | zero => exact ⟨0, Nat.le_refl 0, .refl⟩
  | succ fuel ih =>
      rw [copyVmaMap]
      split
      · obtain ⟨k, hk, hrun⟩ := ih ..
        refine ⟨1 + k, by omega, .trans ?_ hrun⟩
        split <;> exact heapRun_page _ rfl
      · exact ⟨0, Nat.zero_le _, .refl⟩

theorem copyVmaHeap_heapRun (fuel : Nat) (pVma cHeap cIter : Word) (s : Space) :
    ∃ k ≤ fuel, HeapRun s.machine k (s.copyVmaHeap fuel pVma cHeap cIter).2.machine := by
  induction fuel generalizing pVma cHeap cIter s with
  | zero => exact ⟨0, Nat.le_refl 0, .refl⟩
  | succ fuel ih =>
      rw [copyVmaHeap]
      split
      · obtain ⟨k, hk, hrun⟩ := ih ..
        refine ⟨1 + k, by omega, .trans ?_ hrun⟩
        split <;> exact heapRun_page _ rfl
      · exact ⟨0, Nat.zero_le _, .refl⟩

theorem copyMm_heapRun (fuel : Nat) (s : Space) (parentTask : Task) :
    ∃ k ≤ 2 * fuel + 2, HeapRun s.machine k (s.copyMm fuel parentTask).2.machine := by
  have hmm : HeapRun s.machine 1 (s.kmalloc sizeofMmStruct).2.machine :=
    heapRun_page _ rfl
  let r := s.kmalloc sizeofMmStruct
  let s₁ := r.2.setMm r.1 (r.2.mm parentTask.processMm)
  let a := s₁.copyVmaMap fuel (s₁.mm parentTask.processMm).vmaMap
    (s₁.mm parentTask.processMm).vmaHeap 0 0
  let s₂ := a.2.setMm r.1 { a.2.mm r.1 with vmaMap := a.1.1, vmaMapIter := a.1.2 }
  obtain ⟨j, hj, hmap⟩ := copyVmaMap_heapRun fuel (s₁.mm parentTask.processMm).vmaMap
    (s₁.mm parentTask.processMm).vmaHeap 0 0 s₁
  obtain ⟨k, hk, hheap⟩ := copyVmaHeap_heapRun fuel (s₂.mm parentTask.processMm).vmaHeap 0 0 s₂
  refine ⟨1 + j + k + 1, by omega, ?_⟩
  exact ((hmm.trans hmap).trans hheap).trans (heapRun_page _ rfl)

/-- `fork` on the machine: kernel requests, the pass over the tables, and
kernel requests in the child's address space. -/
theorem fork_machine (fuel : Nat) (s : Space) (parentTask : Task) :
    ∃ m₁ c m₂ m₃ k, m₁ = (s.machine.kmalloc sizeofKthread).2 ∧ m₁.cowPageTables = (c, m₂) ∧
      k ≤ 2 * fuel + 2 ∧ HeapRun (m₂.setNewCr3 c) k m₃ ∧
      (s.fork fuel parentTask).2.machine = m₃.setNewCr3 parentTask.cr3 ∧
      (s.fork fuel parentTask).1.cr3 = c := by
  obtain ⟨k, hk, hrun⟩ := copyMm_heapRun fuel ((s.kmalloc sizeofKthread).2.setMachine
    ((s.machine.kmalloc sizeofKthread).2.cowPageTables.2.setNewCr3
      (s.machine.kmalloc sizeofKthread).2.cowPageTables.1)) parentTask
  exact ⟨_, _, _, _, k, rfl, rfl, hk, hrun, rfl, rfl⟩

end Space

namespace Machine

section Invariant

variable {roots : List Word} {s : Space} {lab : Word → Option Node} {l : List Nat}

/-- What a fork of the process at `parent` does: `c` is a new address space
that maps the same frames, and both sides are marked. -/
structure Forked (roots : List Word) (m : Machine) (parent c : Word) (m' : Machine)
    (lab' : Word → Option Node) (l' : List Nat) : Prop where
  isolated : Isolated (c :: roots) m' lab' l'
  new : c ∉ roots
  same : SameBytes roots m m'
  child : ∀ v, UserAddr v → m'.readByte c v = m.readByte parent v
  leafParent : ∀ v, UserAddr v → m'.leaf parent v = cowEntry (m.leaf parent v)
  leafChild : ∀ v, UserAddr v → m'.leaf c v = cowEntry (m.leaf parent v)
  leafOther : ∀ r ∈ roots, r ≠ parent → ∀ v, UserAddr v → m'.leaf r v = m.leaf r v
  shared : ∀ v, UserAddr v → present (m.leaf parent v) = true →
    m'.ref (m.leaf parent v &&& mask) = 2

theorem leaf_setNewCr3 (m : Machine) (c r v : Word) : (m.setNewCr3 c).leaf r v = m.leaf r v := rfl

theorem ref_setNewCr3 (m : Machine) (c g : Word) : (m.setNewCr3 c).ref g = m.ref g := rfl

theorem Isolated.fork (h : Isolated roots s.machine lab l) {parentTask : Task}
    (hcr3 : parentTask.cr3 = s.machine.cr3) (fuel : Nat)
    (hlog : (0 : Word) ∉ (s.fork fuel parentTask).2.machine.log) :
    ∃ lab' l', Forked roots s.machine parentTask.cr3 (s.fork fuel parentTask).1.cr3
      (s.fork fuel parentTask).2.machine lab' l' := by
  obtain ⟨m₁, c, m₂, m₃, k, hm₁, hcow, -, hrun, hm, hc⟩ := s.fork_machine fuel parentTask
  rw [hm] at hlog ⊢
  rw [hc]
  have hlog₂ : (0 : Word) ∉ m₂.log := fun hmem => hlog (hrun.log_suffix.subset hmem)
  have hpass := m₁.cowPageTables_log_suffix
  rw [hcow] at hpass
  have hlog₁ : (0 : Word) ∉ m₁.log := fun hmem => hlog₂ (hpass.subset hmem)
  rw [hm₁] at hlog₁
  obtain ⟨lab₁, l₁, -, hq₁⟩ := h.forest.kmalloc hlog₁
  have hquiet₁ := hq₁ (by decide)
  rw [← hm₁] at hquiet₁
  obtain ⟨h₁, hsame₁⟩ := h.quiet hquiet₁
  obtain ⟨lab₂, l₂, hC⟩ := h₁.forest.cowPageTables (by rw [hcow]; exact hlog₂)
  rw [hcow] at hC
  obtain ⟨h₂, hsame₂, hchild⟩ := h₁.cowed hC
  have h₂' := h₂.setNewCr3 (List.mem_cons_self ..)
  obtain ⟨lab₃, l₃, hq₃⟩ := hrun.quiet h₂'.forest hlog
  obtain ⟨h₃, hsame₃⟩ := h₂'.quiet hq₃
  have hcur : parentTask.cr3 ∈ roots := hcr3 ▸ h.forest.current
  have hpar : m₁.cr3 = parentTask.cr3 := hquiet₁.cr3.trans hcr3.symm
  have hbefore : ∀ r ∈ roots, ∀ v, UserAddr v → m₁.leaf r v = s.machine.leaf r v :=
    fun r hr v hv => leaf_eq_of_entryAt (hquiet₁.user r hr _ (length_path v) hv.userPath)
  have hafter : ∀ r ∈ c :: roots, ∀ v, UserAddr v → m₃.leaf r v = m₂.leaf r v :=
    fun r hr v hv => leaf_eq_of_entryAt (hq₃.user r hr _ (length_path v) hv.userPath)
  refine ⟨lab₃, l₃, ⟨h₃.setNewCr3 (List.mem_cons_of_mem _ hcur), hC.new, ?_, fun v hv => ?_,
    fun v hv => ?_, fun v hv => ?_, fun r hr hne v hv => ?_, fun v hv hp => ?_⟩⟩
  · intro r hr v hv
    rw [readByte_setNewCr3, hsame₃ r (List.mem_cons_of_mem _ hr) v hv, readByte_setNewCr3,
      hsame₂ r hr v hv, hsame₁ r hr v hv]
  · rw [readByte_setNewCr3, hsame₃ _ (List.mem_cons_self ..) v hv, readByte_setNewCr3,
      hchild v hv, hpar, hsame₁ _ hcur v hv]
  · rw [leaf_setNewCr3, hafter _ (List.mem_cons_of_mem _ hcur) v hv, ← hpar, hC.leaf_parent hv,
      hpar, hbefore _ hcur v hv]
  · rw [leaf_setNewCr3, hafter _ (List.mem_cons_self ..) v hv, hC.leaf_child hv, hpar,
      hbefore _ hcur v hv]
  · rw [leaf_setNewCr3, hafter _ (List.mem_cons_of_mem _ hr) v hv,
      hC.leaf_other hr (hpar ▸ hne) hv, hbefore r hr v hv]
  · rw [← hbefore _ hcur v hv, ← hpar] at hp ⊢
    have hheld := h₁.forest.held_leaf h₁.forest.current hv hp
    have hkeep : m₃.ref (m₁.leaf m₁.cr3 v &&& mask) = m₂.ref (m₁.leaf m₁.cr3 v &&& mask) :=
      hq₃.keeps.ref (hC.held hheld)
    have hcount := h₂.counted m₁.cr3 (List.mem_cons_of_mem _ h₁.forest.current) v hv
      (by rw [hC.leaf_parent hv, present_cowEntry]; exact hp)
    rw [hC.leaf_parent hv, cowEntry_frame] at hcount
    have hne : m₂.ref (m₁.leaf m₁.cr3 v &&& mask) ≠ 1 := by
      rw [leaf_eq_entryAt] at hp ⊢
      exact hC.shared _ (length_path v) hv.userPath hp
    rw [ref_setNewCr3, hkeep]
    exact hcount.resolve_left hne

end Invariant

/-! ## Faults -/

section Fault

variable {roots : List Word} {m m' : Machine} {lab lab' : Word → Option Node}
  {l l' : List Nat} {addr f g : Word}

/-- The page of `addr` in the current process now maps `f`, writable, with
the bytes it had; nothing else that a user half can see has changed. -/
structure Remapped (roots : List Word) (m : Machine) (lab : Word → Option Node) (l : List Nat)
    (addr f : Word) (m' : Machine) (lab' : Word → Option Node) (l' : List Nat) : Prop where
  forest : Forest roots m' lab' l'
  cr3 : m'.cr3 = m.cr3
  aligned : Aligned f
  self : m'.leaf m.cr3 addr = f ||| userRwFlags
  other : ∀ r ∈ roots, ∀ v, UserAddr v → ¬ (r = m.cr3 ∧ path v = path addr) →
    m'.leaf r v = m.leaf r v
  apart : ∀ r ∈ roots, ∀ v, UserAddr v → present (m.leaf r v) = true →
    ¬ (r = m.cr3 ∧ path v = path addr) → m.leaf r v &&& mask ≠ f
  byte : ∀ j < 4096, m'.byteAt f j = m.byteAt (m.leaf m.cr3 addr &&& mask) j
  mem : ∀ {x}, Held lab l x → m'.mem x = m.mem x
  refSelf : m'.ref f = 1
  refOld : m'.ref (m.leaf m.cr3 addr &&& mask) = 1
  ref : ∀ {x}, Held lab l x → m'.ref x = m.ref x ∨ m'.ref x = 1

theorem leaf_congr_path {v v' : Word} (h : path v = path v') (m : Machine) (r : Word) :
    m.leaf r v = m.leaf r v' := by
  rw [leaf_eq_entryAt, leaf_eq_entryAt, h]

theorem Remapped.isolated (h : Isolated roots m lab l)
    (hR : Remapped roots m lab l addr f m' lab' l') : Isolated roots m' lab' l' := by
  have hframe := frame_or hR.aligned userRwFlags_flagWord.small
  have hhit : ∀ {v}, path v = path addr → m'.leaf m.cr3 v = f ||| userRwFlags :=
    fun hv => (leaf_congr_path hv m' _).trans hR.self
  refine ⟨hR.forest, fun r hr v hv hp => ?_, fun r hr v hv hp => ?_,
    fun r hr v hv hw r' hr' v' hv' hp hf => ?_⟩
  · by_cases hc : r = m.cr3 ∧ path v = path addr
    · rw [hc.1, hhit hc.2]
      exact Or.inl (flags_or hR.aligned userRwFlags_flagWord.small)
    · rw [hR.other r hr v hv hc] at hp ⊢
      exact h.kind r hr v hv hp
  · by_cases hc : r = m.cr3 ∧ path v = path addr
    · rw [hc.1, hhit hc.2, hframe]
      exact Or.inl hR.refSelf
    · rw [hR.other r hr v hv hc] at hp ⊢
      rcases hR.ref (h.forest.held_leaf hr hv hp) with heq | heq
      · rw [heq]
        exact h.counted r hr v hv hp
      · exact Or.inl heq
  · by_cases hc : r = m.cr3 ∧ path v = path addr
    · rw [hc.1, hhit hc.2, hframe] at hf
      by_cases hc' : r' = m.cr3 ∧ path v' = path addr
      · exact ⟨hc'.1.trans hc.1.symm, hc'.2.trans hc.2.symm⟩
      · rw [hR.other r' hr' v' hv' hc'] at hp hf
        exact absurd hf (hR.apart r' hr' v' hv' hp hc')
    · rw [hR.other r hr v hv hc] at hw hf
      by_cases hc' : r' = m.cr3 ∧ path v' = path addr
      · rw [hc'.1, hhit hc'.2, hframe] at hf
        exact absurd hf.symm (hR.apart r hr v hv (present_of_flags hw) hc)
      · rw [hR.other r' hr' v' hv' hc'] at hp hf
        exact h.alone r hr v hv hw r' hr' v' hv' hp hf

theorem Remapped.sameBytes (h : Isolated roots m lab l)
    (hR : Remapped roots m lab l addr f m' lab' l')
    (hp : present (m.leaf m.cr3 addr) = true) : SameBytes roots m m' := by
  intro r hr v hv
  by_cases hc : r = m.cr3 ∧ path v = path addr
  · have hold := leaf_congr_path hc.2 m m.cr3
    have hnew := (leaf_congr_path hc.2 m' m.cr3).trans hR.self
    rw [readByte_eq, readByte_eq, translate, translate, hc.1, hold, hnew, if_pos hp,
      if_pos (present_or hR.aligned userRwFlags_flagWord),
      frame_or hR.aligned userRwFlags_flagWord.small, Option.map_some, Option.map_some,
      hR.byte _ (pageOffset_lt v)]
  · have heq := hR.other r hr v hv hc
    exact readByte_congr (by rw [heq]) (by rw [heq])
      fun hpres => hR.mem (h.forest.held_leaf hr hv hpres)

/-- The count is one: the page is made writable where it is. -/
theorem Forest.remap_inPlace (h : Forest roots m lab l) (hv : UserAddr addr)
    (hp : present (m.leaf m.cr3 addr) = true) (hone : m.ref (m.leaf m.cr3 addr &&& mask) = 1)
    (halone : ∀ r ∈ roots, ∀ v, UserAddr v → present (m.leaf r v) = true →
      m.leaf r v &&& mask = m.leaf m.cr3 addr &&& mask → r = m.cr3 ∧ path v = path addr)
    (hlog : (0 : Word) ∉ (m.updatePageTables addr (m.leaf m.cr3 addr &&& mask)
      userRwFlags).log) :
    ∃ lab' l', Remapped roots m lab l addr (m.leaf m.cr3 addr &&& mask)
      (m.updatePageTables addr (m.leaf m.cr3 addr &&& mask) userRwFlags) lab' l' := by
  have hheld := h.held_leaf h.current hv hp
  obtain ⟨lab', l', hM⟩ := h.updatePageTables (hheld.mappable addr) userRwFlags_flagWord hlog
  have hK := hM.grows.keeps hM.drawn hM.ref
  have href := (hK.ref hheld).trans hone
  refine ⟨lab', l', ⟨hM.forest, hM.cr3, hheld.aligned, ?_, fun r hr v hu hc => ?_,
    fun r hr v hu hpres hc heq => hc (halone r hr v hu hpres heq), fun j _ => ?_, hK.mem, href,
    href, fun hx => Or.inl (hK.ref hx)⟩⟩
  · rw [leaf_eq_entryAt]
    exact hM.self
  · exact leaf_eq_of_entryAt
      (hM.other r hr _ (length_path v) (Or.inl hu.userPath) hc)
  · rw [byteAt, byteAt, hK.mem hheld]

section Fresh

variable {v : Word} (h : MapsFresh roots m lab l v kernelRwFlags m' lab' l')
include h

theorem MapsFresh.walk_self : m'.walkPageTable v = m.getFreePage.1 := by
  rw [walkPageTable_eq, h.cr3, leaf_eq_entryAt, h.self,
    frame_or h.fresh.aligned kernelRwFlags_flagWord.small]

theorem MapsFresh.translate_self : m'.translate m'.cr3 v = some m.getFreePage.1 := by
  rw [translate_eq, h.cr3, h.self, frame_or h.fresh.aligned kernelRwFlags_flagWord.small,
    if_pos (present_or h.fresh.aligned kernelRwFlags_flagWord)]

end Fresh

theorem aligned_kernel (hf : Aligned f) : Aligned (kernelVirtualBase + f) := by
  have hbase : kernelVirtualBase.toNat = 0xffffffff80000000 := rfl
  rw [Aligned] at hf ⊢
  rw [BitVec.toNat_add, hbase]
  omega

theorem Forest.setPageRefCount (h : Forest roots m lab l) (a : Word) (c : Nat) :
    Forest roots (m.setPageRefCount a c) lab l :=
  ⟨⟨h.pool.counted.setPageRefCount a c, fun n hn => ⟨(h.pool.blank n hn).aligned,
    (h.pool.blank n hn).unlabelled, (h.pool.blank n hn).zero⟩, h.pool.positive⟩,
    h.tables, h.root, h.current, h.zero, h.drawn, h.leaf⟩

/-- The page copied to a fresh frame, which is then mapped at `addr`. -/
def copyPage (m : Machine) (addr : Word) : Machine :=
  ((m.mapFresh (kernelVirtualBase + m.getFreePage.1) kernelRwFlags).memcpy
    (kernelVirtualBase + m.getFreePage.1) addr 4096)

/-- The frame that `page_fault_handler` copies to, before it is mapped. -/
structure PageCopied (roots : List Word) (m : Machine) (lab : Word → Option Node) (l : List Nat)
    (g f : Word) (m' : Machine) (lab' : Word → Option Node) (l' : List Nat) : Prop where
  quiet : Quiet roots m lab l m' lab' l'
  fresh : Held lab' l' f
  distinct : ∀ {x}, Held lab l x → x ≠ f
  ref : m'.ref f = 1
  byte : ∀ j < 4096, m'.byteAt f j = m.byteAt g j

theorem Forest.copyPage (h : Forest roots m lab l) (ha : Aligned addr) (hv : UserAddr addr)
    (hp : present (m.leaf m.cr3 addr) = true)
    (hlog : (0 : Word) ∉ (m.mapFresh (kernelVirtualBase + m.getFreePage.1) kernelRwFlags).log) :
    ∃ lab' l', PageCopied roots m lab l (m.leaf m.cr3 addr &&& mask) m.getFreePage.1
      (m.copyPage addr) lab' l' := by
  obtain ⟨lab₁, l₁, h₁⟩ := h.mapFresh kernelRwFlags_flagWord hlog
  rw [Machine.copyPage]
  generalize m.mapFresh (kernelVirtualBase + m.getFreePage.1) kernelRwFlags = m₁ at h₁ ⊢
  have hheld := h.held_leaf h.current hv hp
  have hkernel : ¬ UserPath (path (kernelVirtualBase + m.getFreePage.1)) := by
    have := not_userPath_kernel h₁.low (show 0 < maxPages by decide)
    rwa [Nat.zero_mul, BitVec.add_zero] at this
  have hq₁ := h₁.quiet hkernel
  have hleaf : m₁.leaf m.cr3 addr = m.leaf m.cr3 addr :=
    leaf_eq_of_entryAt (hq₁.user _ h.current _ (length_path addr) hv.userPath)
  have hsrc : m₁.translate m₁.cr3 addr = some (m.leaf m.cr3 addr &&& mask) := by
    rw [translate, h₁.cr3, hleaf, if_pos hp]
  have hcopy := memcpy_page h₁.forest (aligned_kernel h₁.fresh.aligned) ha h₁.translate_self hsrc
    h₁.fresh.unlabelled (h₁.distinct hheld) 4096 (Nat.le_refl _)
  generalize m₁.memcpy (kernelVirtualBase + m.getFreePage.1) addr 4096 = m₂ at hcopy ⊢
  have hF₂ := h₁.forest.setHeld h₁.fresh hcopy.mem hcopy.phys hcopy.cr3 hcopy.log
  have href : ∀ x, m₂.ref x = m₁.ref x := fun x => by rw [ref, ref, hcopy.phys]
  refine ⟨lab₁, l₁, ⟨⟨hF₂, ⟨h₁.keeps.held, ?_, ?_⟩, hcopy.cr3.trans h₁.cr3, ?_⟩, h₁.fresh,
    h₁.distinct, ?_, ?_⟩⟩
  · intro x hx
    exact (hcopy.mem x (h₁.distinct hx)).trans (h₁.keeps.mem hx)
  · intro x hx
    exact (href x).trans (h₁.keeps.ref hx)
  · intro r hr q hlen hu
    refine Eq.trans ?_ (hq₁.user r hr q hlen hu)
    refine h₁.forest.entryAt_congr (fun {u k} hlab => hcopy.mem u fun heq => ?_) hr hlen
    rw [heq, h₁.fresh.unlabelled] at hlab
    cases hlab
  · exact (href _).trans h₁.ref
  · intro j hj
    rw [hcopy.byte j hj, if_pos hj, byteAt, h₁.keeps.mem hheld]
    rfl

/-- The count is two: the page is copied, and the old frame counted once
again. -/
theorem PageCopied.remap {m₂ : Machine} {lab₂ : Word → Option Node} {l₂ : List Nat}
    (h : Forest roots m lab l) (hv : UserAddr addr) (hp : present (m.leaf m.cr3 addr) = true)
    (h₂ : PageCopied roots m lab l (m.leaf m.cr3 addr &&& mask) f m₂ lab₂ l₂)
    (hlog : (0 : Word) ∉ (m₂.updatePageTables addr f userRwFlags).log) :
    ∃ lab' l', Remapped roots m lab l addr f ((m₂.updatePageTables addr f
      userRwFlags).setPageRefCount (m.leaf m.cr3 addr &&& mask) 1) lab' l' := by
  have hcr3 := h₂.quiet.cr3
  obtain ⟨lab', l', hM⟩ := h₂.quiet.forest.updatePageTables (h₂.fresh.mappable addr)
    userRwFlags_flagWord hlog
  generalize m₂.updatePageTables addr f userRwFlags = m₃ at hM ⊢
  have hK := hM.grows.keeps hM.drawn hM.ref
  have hheld := h.held_leaf h.current hv hp
  have href : ∀ x, Aligned x → (m₃.setPageRefCount (m.leaf m.cr3 addr &&& mask) 1).ref x
        = if x = m.leaf m.cr3 addr &&& mask then 1 else m₃.ref x := by
    intro x hx
    show ((m₃.phys.setPageRefCount _ 1).pageDescriptor (pageNumber x)).refCount = _
    rw [PhysMem.setPageRefCount_refCount]
    by_cases hxg : x = m.leaf m.cr3 addr &&& mask
    · rw [if_pos hxg, if_pos (by rw [hxg])]
    · rw [if_neg hxg, if_neg fun heq => hxg (pageNumber_inj hx hheld.aligned heq)]
      rfl
  refine ⟨lab', l', ⟨hM.forest.setPageRefCount _ _, hM.cr3.trans hcr3, h₂.fresh.aligned, ?_,
    fun r hr v hu hc => ?_, fun r hr v hu hpres _ => h₂.distinct (h.held_leaf hr hu hpres),
    fun j hj => ?_, fun hx => ?_, ?_, ?_, fun {x} hx => ?_⟩⟩
  · refine (leaf_eq_entryAt m₃ m.cr3 addr).trans ?_
    rw [← hcr3]
    exact hM.self
  · have hmap : m₃.leaf r v = m₂.leaf r v := leaf_eq_of_entryAt
      (hM.other r hr _ (length_path v) (Or.inl hu.userPath) (hcr3.symm ▸ hc))
    refine hmap.trans (leaf_eq_of_entryAt ?_)
    exact h₂.quiet.user r hr _ (length_path v) hu.userPath
  · refine Eq.trans ?_ (h₂.byte j hj)
    show m₃.byteAt _ j = _
    rw [byteAt, byteAt, hK.mem h₂.fresh]
  · exact (hK.mem (h₂.quiet.keeps.held hx)).trans (h₂.quiet.keeps.mem hx)
  · rw [href _ h₂.fresh.aligned, if_neg (h₂.distinct hheld).symm, hK.ref h₂.fresh]
    exact h₂.ref
  · rw [href _ hheld.aligned, if_pos rfl]
  · rw [href x hx.aligned]
    split
    · exact Or.inr rfl
    · exact Or.inl ((hK.ref (h₂.quiet.keeps.held hx)).trans (h₂.quiet.keeps.ref hx))

/-! ### The handler -/

/-- No other user address of any process maps the frame of `addr` when its
count is one: what the handler takes for granted before it makes the page
writable where it is. -/
def WritesAlone (roots : List Word) (m : Machine) (addr : Word) : Prop :=
  m.ref (m.leaf m.cr3 addr &&& mask) = 1 → ∀ r ∈ roots, ∀ v, UserAddr v →
    present (m.leaf r v) = true → m.leaf r v &&& mask = m.leaf m.cr3 addr &&& mask →
    r = m.cr3 ∧ path v = path addr

theorem cowFault_copy (h : m.ref (m.leaf m.cr3 addr &&& mask) = 2)
    (hwalk : (m.mapFresh (kernelVirtualBase + m.getFreePage.1) kernelRwFlags).walkPageTable
      (kernelVirtualBase + m.getFreePage.1) = m.getFreePage.1) :
    m.cowFault addr =
      (((m.copyPage addr).updatePageTables addr m.getFreePage.1 userRwFlags).setPageRefCount
        (m.leaf m.cr3 addr &&& mask) 1) := by
  have htwo : m.phys.getPageRefCount (m.leaf m.cr3 addr &&& mask) = 2 := h
  rw [cowFault, walkPageTable_eq, if_pos htwo, kmalloc_page]
  simp only [hwalk]
  rfl

theorem cowFault_inPlace (h : m.ref (m.leaf m.cr3 addr &&& mask) = 1) :
    m.cowFault addr = m.updatePageTables addr (m.leaf m.cr3 addr &&& mask) userRwFlags := by
  have htwo : ¬ m.phys.getPageRefCount (m.leaf m.cr3 addr &&& mask) = 2 := by
    rw [show m.phys.getPageRefCount (m.leaf m.cr3 addr &&& mask) = 1 from h]
    decide
  rw [cowFault, walkPageTable_eq, if_neg htwo]
  exact if_pos h

theorem cowFault_none (htwo : ¬ m.ref (m.leaf m.cr3 addr &&& mask) = 2)
    (hone : ¬ m.ref (m.leaf m.cr3 addr &&& mask) = 1) : m.cowFault addr = m := by
  rw [cowFault, walkPageTable_eq]
  exact (if_neg htwo).trans (if_neg hone)

@[simp] theorem memcpy_log (m : Machine) (dest src : Word) (k : Nat) :
    (m.memcpy dest src k).log = m.log := by
  induction k with
  | zero => rfl
  | succ k ih =>
      rw [memcpy_succ]
      split
      · rw [writeByte_log, ih]
      · exact ih

theorem cowFault_copy_log_suffix (h : m.ref (m.leaf m.cr3 addr &&& mask) = 2) :
    (m.mapFresh (kernelVirtualBase + m.getFreePage.1) kernelRwFlags).log
      <:+ (m.cowFault addr).log := by
  have htwo : m.phys.getPageRefCount (m.leaf m.cr3 addr &&& mask) = 2 := h
  have heq : m.cowFault addr = ((m.copyPage addr).updatePageTables addr
      ((m.mapFresh (kernelVirtualBase + m.getFreePage.1) kernelRwFlags).walkPageTable
        (kernelVirtualBase + m.getFreePage.1)) userRwFlags).setPageRefCount
          (m.leaf m.cr3 addr &&& mask) 1 := by
    rw [cowFault, walkPageTable_eq, if_pos htwo, kmalloc_page]
    rfl
  have hcopy : (m.copyPage addr).log
      = (m.mapFresh (kernelVirtualBase + m.getFreePage.1) kernelRwFlags).log := by
    rw [copyPage, memcpy_log]
  rw [heq, setPageRefCount_log, ← hcopy]
  exact ⟨_, (mapPage_draws ..).log.symm⟩

/-- The count is two: what the handler does is copy the page, map the copy
and count the old frame once again. -/
theorem Forest.cowFault_copied (h : Forest roots m lab l) (ha : Aligned addr) (hv : UserAddr addr)
    (hp : present (m.leaf m.cr3 addr) = true) (htwo : m.ref (m.leaf m.cr3 addr &&& mask) = 2)
    (hlog : (0 : Word) ∉ (m.cowFault addr).log) :
    ∃ lab₁ l₁, PageCopied roots m lab l (m.leaf m.cr3 addr &&& mask) m.getFreePage.1
        (m.copyPage addr) lab₁ l₁ ∧
      (0 : Word) ∉ ((m.copyPage addr).updatePageTables addr m.getFreePage.1 userRwFlags).log ∧
      m.cowFault addr = (((m.copyPage addr).updatePageTables addr m.getFreePage.1
        userRwFlags).setPageRefCount (m.leaf m.cr3 addr &&& mask) 1) := by
  have hlog₁ : (0 : Word) ∉
      (m.mapFresh (kernelVirtualBase + m.getFreePage.1) kernelRwFlags).log :=
    fun hmem => hlog ((cowFault_copy_log_suffix htwo).subset hmem)
  obtain ⟨lab₁, l₁, h₁⟩ := h.mapFresh kernelRwFlags_flagWord hlog₁
  have heq := cowFault_copy htwo h₁.walk_self
  rw [heq, setPageRefCount_log] at hlog
  obtain ⟨lab₂, l₂, h₂⟩ := h.copyPage ha hv hp hlog₁
  exact ⟨lab₂, l₂, h₂, hlog, heq⟩

theorem Isolated.cowFault (h : Isolated roots m lab l) (ha : Aligned addr)
    (hv : UserAddr addr) (hp : present (m.leaf m.cr3 addr) = true)
    (halone : WritesAlone roots m addr) (hlog : (0 : Word) ∉ (m.cowFault addr).log) :
    ∃ f lab' l', Remapped roots m lab l addr f (m.cowFault addr) lab' l' := by
  rcases h.counted _ h.forest.current addr hv hp with hone | htwo
  · rw [cowFault_inPlace hone] at hlog ⊢
    exact ⟨_, h.forest.remap_inPlace hv hp hone (halone hone) hlog⟩
  · obtain ⟨lab₁, l₁, hcopy, hlog₁, heq⟩ := h.forest.cowFault_copied ha hv hp htwo hlog
    rw [heq]
    exact ⟨_, hcopy.remap h.forest hv hp hlog₁⟩

end Fault

/-! ## Stores -/

/-- A store by the processor, which does not happen on a page that is not
writable. -/
def tryStore (m : Machine) (r v : Word) (b : Byte) : Machine :=
  if writable (m.leaf r v) then m.writeByte r v b else m

theorem tryStore_log (m : Machine) (r v : Word) (b : Byte) : (m.tryStore r v b).log = m.log := by
  unfold tryStore
  split
  · exact writeByte_log ..
  · rfl

section Store

variable {roots : List Word} {m : Machine} {lab : Word → Option Node} {l : List Nat}
  {v : Word}

theorem tryStore_eq (hw : m.leaf m.cr3 v &&& flagMask = userRwFlags) (b : Byte) :
    m.tryStore m.cr3 v b = m.setByte (m.leaf m.cr3 v &&& mask) (pageOffset v) b := by
  rw [tryStore, if_pos (writable_of_flags hw), writeByte_eq, translate,
    if_pos (present_of_flags hw)]

theorem Forest.setByte_leaf (h : Forest roots m lab l) {f : Word} (hf : Held lab l f) (k : Nat)
    (b : Byte) {r : Word} (hr : r ∈ roots) (u : Word) :
    (m.setByte f k b).leaf r u = m.leaf r u := by
  refine leaf_eq_of_entryAt (h.entryAt_congr (fun {x n} hx => ?_) hr (length_path u))
  refine write_of_frame_ne _ (fun hxf => ?_) _ _
  rw [hxf, hf.unlabelled] at hx
  cases hx

theorem Isolated.tryStore (h : Isolated roots m lab l) (hv : UserAddr v)
    (hw : m.leaf m.cr3 v &&& flagMask = userRwFlags) (b : Byte) :
    Isolated roots (m.tryStore m.cr3 v b) lab l ∧ ∀ r ∈ roots, ∀ u, UserAddr u →
      (m.tryStore m.cr3 v b).readByte r u
        = if r = m.cr3 ∧ u = v then some b else m.readByte r u := by
  have hp := present_of_flags hw
  have hheld := h.forest.held_leaf h.forest.current hv hp
  rw [tryStore_eq hw]
  have hF : Forest roots (m.setByte (m.leaf m.cr3 v &&& mask) (pageOffset v) b) lab l :=
    h.forest.setHeld hheld (fun u hu => write_of_frame_ne _ hu _ _) rfl rfl rfl
  have hleaf : ∀ r ∈ roots, ∀ u, (m.setByte (m.leaf m.cr3 v &&& mask) (pageOffset v) b).leaf r u
      = m.leaf r u := fun r hr u => h.forest.setByte_leaf hheld _ b hr u
  refine ⟨⟨hF, fun r hr u hu hpres => ?_, fun r hr u hu hpres => ?_,
    fun r hr u hu hwr r' hr' u' hu' hpres hf => ?_⟩, fun r hr u hu => ?_⟩
  · rw [hleaf r hr u] at hpres ⊢
    exact h.kind r hr u hu hpres
  · rw [hleaf r hr u] at hpres ⊢
    exact h.counted r hr u hu hpres
  · rw [hleaf r hr u] at hwr hf
    rw [hleaf r' hr' u'] at hpres hf
    exact h.alone r hr u hu hwr r' hr' u' hu' hpres hf
  · rw [readByte_eq, readByte_eq, translate, translate, hleaf r hr u]
    by_cases hpres : present (m.leaf r u) = true
    swap
    · rw [if_neg hpres, if_neg]
      · rfl
      · rintro ⟨rfl, rfl⟩
        exact hpres hp
    rw [if_pos hpres, Option.map_some, Option.map_some,
      byteAt_setByte _ _ _ (pageOffset_lt v) (pageOffset_lt u)]
    by_cases hhit : r = m.cr3 ∧ u = v
    · obtain ⟨rfl, rfl⟩ := hhit
      rw [if_pos ⟨rfl, rfl⟩, if_pos ⟨rfl, rfl⟩]
    · rw [if_neg hhit, if_neg]
      -- the frame is mapped by this page only, so the address would be `v`
      rintro ⟨hframe, hoff⟩
      obtain ⟨hr', hpath⟩ := h.alone _ h.forest.current v hv hw r hr u hu hpres hframe
      exact hhit ⟨hr', hu.ext hv hpath hoff⟩

end Store

end Machine

namespace Space

open Machine

/-! ### A store by a process -/

/-- A process stores a byte: the store itself where the page is writable,
otherwise the fault, and the store again. -/
def userStore (s : Space) (task : Task) (v : Word) (b : Byte) : Space :=
  let s := s.setMachine (s.machine.setNewCr3 task.cr3)
  if writable (s.machine.leaf task.cr3 v) then
    s.setMachine (s.machine.tryStore task.cr3 v b)
  else
    match s.pageFaultHandler task v with
    | some s => s.setMachine (s.machine.tryStore task.cr3 v b)
    | none => s

section Store

variable {roots : List Word} {s : Space} {lab : Word → Option Node} {l : List Nat}
  {task : Task} {v : Word} {b : Byte}

theorem userStore_writable (h : writable (s.machine.leaf task.cr3 v) = true) :
    (s.userStore task v b).machine = (s.machine.setNewCr3 task.cr3).tryStore task.cr3 v b := by
  have hleaf : writable ((s.setMachine (s.machine.setNewCr3 task.cr3)).machine.leaf
      task.cr3 v) = true := h
  rw [userStore, if_pos hleaf]
  rfl

theorem userStore_cow (h : s.machine.leaf task.cr3 v &&& flagMask = cowFlags) :
    (s.userStore task v b).machine
      = ((s.machine.setNewCr3 task.cr3).cowFault (pageBase v)).tryStore task.cr3 v b := by
  have hcow : isCow ((s.machine.setNewCr3 task.cr3).getFlags (pageBase v)) = true := by
    have hflags : (s.machine.setNewCr3 task.cr3).leaf task.cr3 (pageBase v) &&& flagMask
        = cowFlags := by
      rw [leaf_congr_path (path_pageBase v)]
      exact h
    rw [getFlags_eq, setNewCr3_cr3, hflags]
    decide
  have hleaf : ¬ writable ((s.setMachine (s.machine.setNewCr3 task.cr3)).machine.leaf
      task.cr3 v) = true := not_writable_of_flags h
  have hfault : (s.setMachine (s.machine.setNewCr3 task.cr3)).pageFaultHandler task v
      = some ((s.setMachine (s.machine.setNewCr3 task.cr3)).setMachine
          ((s.machine.setNewCr3 task.cr3).cowFault (pageBase v))) := if_pos hcow
  rw [userStore, if_neg hleaf, hfault]
  rfl

theorem userStore_isolated (h : Isolated roots s.machine lab l) (ht : task.cr3 ∈ roots)
    (hv : UserAddr v) (hp : present (s.machine.leaf task.cr3 v) = true)
    (halone : ¬ writable (s.machine.leaf task.cr3 v) = true →
      WritesAlone roots (s.machine.setNewCr3 task.cr3) (pageBase v))
    (hlog : (0 : Word) ∉ (s.userStore task v b).machine.log) :
    ∃ lab' l', Isolated roots (s.userStore task v b).machine lab' l' ∧
      ∀ r ∈ roots, ∀ u, UserAddr u → (s.userStore task v b).machine.readByte r u
        = if r = task.cr3 ∧ u = v then some b else s.machine.readByte r u := by
  have h₀ := h.setNewCr3 ht
  rcases h.kind _ ht v hv hp with hflags | hflags
  · rw [userStore_writable (writable_of_flags hflags)]
    exact ⟨lab, l, h₀.tryStore hv hflags b⟩
  · rw [userStore_cow hflags, tryStore_log] at hlog
    rw [userStore_cow hflags]
    have hpbase : present ((s.machine.setNewCr3 task.cr3).leaf task.cr3 (pageBase v)) = true := by
      rw [leaf_congr_path (path_pageBase v)]
      exact hp
    obtain ⟨f, lab₁, l₁, hR⟩ := h₀.cowFault (aligned_pageBase v) hv.pageBase hpbase
      (halone (not_writable_of_flags hflags)) hlog
    have h₁ := hR.isolated h₀
    have hsame := hR.sameBytes h₀ hpbase
    generalize (s.machine.setNewCr3 task.cr3).cowFault (pageBase v) = m at hR h₁ hsame ⊢
    have hcr3 : m.cr3 = task.cr3 := hR.cr3
    have hself : m.leaf task.cr3 (pageBase v) = f ||| userRwFlags := hR.self
    have hw : m.leaf m.cr3 v &&& flagMask = userRwFlags := by
      rw [hcr3, ← leaf_congr_path (path_pageBase v) m task.cr3, hself]
      exact flags_or hR.aligned userRwFlags_flagWord.small
    obtain ⟨h₂, hread⟩ := h₁.tryStore hv hw b
    rw [hcr3] at h₂ hread
    refine ⟨lab₁, l₁, h₂, fun r hr u hu => ?_⟩
    rw [hread r hr u hu, hsame r hr u hu]
    rfl

end Store

end Space

end SnowOs
