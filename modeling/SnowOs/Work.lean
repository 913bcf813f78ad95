import SnowOs.ForkRuns

/-!
# What the kernel does to memory

Whatever a system call, a fault or the loader does to the memory system,
it does by seven moves: load another address space, map a fresh frame,
make a new root, share the current address space, store a byte in the user
half or in a block of the kernel heap, resolve a copy-on-write fault.
`Work` is a stretch of such moves, together with the roots there are
before and after it, and this file says once of each operation of
`sys/process.c` and `sys/elf64.c` that it is one. An invariant of the
memory system is then seven lemmas, one for each move.
-/

namespace SnowOs

open Machine

/-- An address of the kernel half whose frame is in use and no table: data
of the kernel heap. -/
structure InHeap (roots : List Word) (m : Machine) (v : Word) : Prop where
  kernel : ¬ UserPath (path v)
  held : ∃ lab l, Forest roots m lab l ∧ Held lab l (m.leaf m.cr3 v &&& mask)

/-- One move on the memory system with the address spaces at the roots
given. -/
inductive Move : List Word → Machine → List Word → Machine → Prop
  | switch {roots : List Word} {m : Machine} {r : Word} : r ∈ roots →
      Move roots m roots (m.setNewCr3 r)
  | mapFresh {roots : List Word} {m : Machine} (v : Word) {flags : Word} : FlagWord flags →
      Move roots m roots (m.mapFresh v flags)
  | newRoot {roots : List Word} {m : Machine} :
      Move roots m (m.setupUserPageTables.1 :: roots) m.setupUserPageTables.2
  | share {roots : List Word} {m : Machine} :
      Move roots m (m.cowPageTables.1 :: roots) m.cowPageTables.2
  | store {roots : List Word} {m : Machine} {v : Word} (b : Byte) : UserPath (path v) →
      Move roots m roots (m.writeByte m.cr3 v b)
  | heapStore {roots : List Word} {m : Machine} {v : Word} (b : Byte) : InHeap roots m v →
      Move roots m roots (m.writeByte m.cr3 v b)
  | unshare {roots : List Word} {m : Machine} {addr : Word} : m.leaf m.cr3 addr ≠ 0 →
      Move roots m roots (m.cowFault addr)

/-- A stretch of moves. -/
inductive Work (roots : List Word) (m : Machine) : List Word → Machine → Prop
  | refl : Work roots m roots m
  | step {roots' roots'' : List Word} {m' m'' : Machine} : Work roots m roots' m' →
      Move roots' m' roots'' m'' → Work roots m roots'' m''

section Work

variable {roots roots' roots'' : List Word} {m m' m'' : Machine}

theorem Work.trans (h₁ : Work roots m roots' m') (h₂ : Work roots' m' roots'' m'') :
    Work roots m roots'' m'' := by
  induction h₂ with
  | refl => exact h₁
  | step _ hmove ih => exact ih.step hmove

theorem Move.work (h : Move roots m roots' m') : Work roots m roots' m' := Work.refl.step h

theorem work_kmallocPages (is : List Nat) (r : Word × Machine) :
    Work roots r.2 roots (is.foldl kmallocPage r).2 := by
  induction is generalizing r with
  | nil => exact .refl
  | cons i is ih =>
      have hround : Work roots r.2 roots (kmallocPage r i).2 := by
        rw [kmallocPage_snd]
        exact (Move.mapFresh _ kernelRwFlags_flagWord).work
      exact hround.trans (ih _)

theorem work_kmalloc (n : BitVec 32) : Work roots m roots (m.kmalloc n).2 :=
  work_kmallocPages _ (0, m)

theorem work_mapPages (n : Nat) (v : Word) : Work roots m roots (m.mapPages n v) := by
  induction n generalizing v m with
  | zero => exact .refl
  | succ n ih => exact (Move.mapFresh v userRwFlags_flagWord).work.trans (ih _)

theorem work_mapWhile (fuel : Nat) (a b : Word) :
    Work roots m roots (m.mapWhile fuel a b) := by
  induction fuel generalizing a m with
  | zero => exact .refl
  | succ fuel ih =>
      rw [mapWhile]
      split
      · exact (Move.mapFresh a userRwFlags_flagWord).work.trans (ih _)
      · exact .refl

/-- The bytes of a file stored in the user half. -/
theorem work_storeBytes {v : Word} {bs : List Byte}
    (hv : ∀ i < bs.length, UserPath (path (v + BitVec.ofNat 64 i))) :
    Work roots m roots (m.storeBytes v bs) := by
  induction bs generalizing m v with
  | nil => exact .refl
  | cons b bs ih =>
      have hfirst : UserPath (path v) := by
        have := hv 0 (Nat.zero_lt_succ _)
        rwa [show BitVec.ofNat 64 0 = 0#64 from rfl, BitVec.add_zero] at this
      have hrest : ∀ i < bs.length, UserPath (path (v + 1 + BitVec.ofNat 64 i)) := by
        intro i hi
        have := hv (i + 1) (Nat.succ_lt_succ hi)
        rwa [Nat.add_comm, BitVec.ofNat_add, ← BitVec.add_assoc] at this
      exact (Move.store b hfirst).work.trans (ih hrest)

theorem work_tryStore {v : Word} (hv : UserAddr v) (b : Byte) :
    Work roots m roots (m.tryStore m.cr3 v b) := by
  rw [tryStore]
  split
  · exact (Move.store b hv.userPath).work
  · exact .refl

theorem Machine.HeapRun.work {k : Nat} (hrun : HeapRun m k m') : Work roots m roots m' := by
  induction hrun with
  | refl => exact .refl
  | kmalloc _ _ ih => exact ih.trans (work_kmalloc _)

end Work

/-! ## The operations -/

namespace Space

variable {roots : List Word} {s : Space}

/-- The bytes of the file go to the user half. -/
def Elf64Phdr.InUserHalf (phdr : Elf64Phdr) : Prop :=
  ∀ i < phdr.contents.length, UserPath (path (phdr.pVaddr + BitVec.ofNat 64 i))

theorem work_userMalloc (task : Task) (bytes : Word) :
    Work roots s.machine roots (s.userMalloc task bytes).2.machine :=
  (work_kmalloc sizeofVmaStruct).trans (work_mapWhile ..)

theorem work_loadSegment {phdr : Elf64Phdr} (h : phdr.InUserHalf) (a b : Word) :
    Work roots s.machine roots (s.loadSegment phdr a b).2.machine := by
  rw [loadSegment_machine]
  exact ((work_kmalloc sizeofVmaStruct).trans (work_mapPages ..)).trans (work_storeBytes h)

theorem work_loadSegments {phdrs : List Elf64Phdr}
    (h : ∀ p ∈ phdrs, p.pType = 1 → p.InUserHalf) (a b : Word) :
    Work roots s.machine roots (s.loadSegments phdrs a b).2.machine := by
  induction phdrs generalizing s a b with
  | nil => exact .refl
  | cons phdr phdrs ih =>
      have hrest := fun p hp => h p (List.mem_cons_of_mem _ hp)
      rw [loadSegments]
      split
      · rename_i htype
        exact (work_loadSegment (h phdr (List.mem_cons_self ..) htype) a b).trans (ih hrest ..)
      · exact ih hrest a b

theorem work_loadFile (task : Task) {file : Option (List Elf64Phdr)}
    (h : ∀ phdrs, file = some phdrs → ∀ p ∈ phdrs, p.InUserHalf) :
    Work roots s.machine roots (s.loadFile task file).2.machine := by
  cases file with
  | none => exact .refl
  | some phdrs =>
      have hsegs : Work roots s.machine roots (s.loadSegments phdrs 0 0).2.machine :=
        work_loadSegments (fun p hp _ => h phdrs rfl p hp) 0 0
      have hheap := (hsegs.trans (work_kmalloc sizeofVmaStruct)).trans (work_mapPages 1 heapStart)
      rw [loadFile_machine]
      exact (hheap.trans (work_kmalloc sizeofVmaStruct)).trans (work_mapPages 1 stackStart)

theorem work_loadProcess {file : Option (List Elf64Phdr)}
    (h : ∀ phdrs, file = some phdrs → ∀ p ∈ phdrs, p.InUserHalf) :
    Work roots s.machine ((s.loadProcess file).1.cr3 :: roots) (s.loadProcess file).2.machine := by
  let s₁ := (s.kmalloc sizeofKthread).2
  let r := s₁.machine.setupUserPageTables
  let k := (s₁.setMachine (r.2.setNewCr3 r.1)).kmalloc sizeofMmStruct
  have hroot : Work roots s.machine (r.1 :: roots) r.2 :=
    (work_kmalloc sizeofKthread).trans Move.newRoot.work
  have hmm : Work roots s.machine (r.1 :: roots) k.2.machine :=
    (hroot.trans (Move.switch (List.mem_cons_self ..)).work).trans (work_kmalloc sizeofMmStruct)
  exact hmm.trans (work_loadFile { cr3 := r.1, processMm := k.1 } h)

theorem work_fork {task : Task} (ht : task.cr3 ∈ roots) (fuel : Nat) :
    Work roots s.machine ((s.fork fuel task).1.cr3 :: roots) (s.fork fuel task).2.machine := by
  obtain ⟨m₁, c, m₂, m₃, k, hm₁, hcow, -, hrun, hm, hc⟩ := s.fork_machine fuel task
  have hkthread : Work roots s.machine roots m₁ := by
    rw [hm₁]
    exact work_kmalloc _
  have hpass : Work roots m₁ (c :: roots) m₂ := by
    have hcopy : Work roots m₁ (m₁.cowPageTables.1 :: roots) m₁.cowPageTables.2 :=
      Move.share.work
    rwa [hcow] at hcopy
  rw [hm, hc]
  exact ((hkthread.trans hpass).trans (Move.switch (List.mem_cons_self ..)).work).trans
    (hrun.work.trans (Move.switch (List.mem_cons_of_mem _ ht)).work)

theorem work_growStack (pages : Nat) (st : Word) :
    Work roots s.machine roots (s.growStack pages st).machine := by
  induction pages generalizing s with
  | zero => exact .refl
  | succ pages ih =>
      refine Work.trans ?_ ih
      exact (Move.mapFresh _ userRwFlags_flagWord).work

theorem work_pageFaultHandler {s' : Space} {task : Task} {cr2 : Word}
    (h : s.pageFaultHandler task cr2 = some s') : Work roots s.machine roots s'.machine := by
  rcases pageFaultHandler_cases h with ⟨hcow, rfl⟩ | ⟨pages, st, rfl⟩
  · refine (Move.unshare fun hzero => ?_).work
    rw [getFlags_eq, hzero] at hcow
    exact absurd hcow (by decide)
  · exact work_growStack pages st

end Space

end SnowOs
