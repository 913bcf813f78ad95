import SnowOs.Paging

/-!
# Address spaces of processes

The memory side of `sys/process.c`, `sys/elf64.c` and `sys/interrupt.c`:
`copy_process`, `user_malloc`, `load_file` and `page_fault_handler`. The
structures the kernel keeps in `kmalloc`ed blocks - `vma_struct` and
`mm_struct` - are records stored under the address of their block; NULL
is 0. A `Task` is the part of a `kthread_t` these functions read.

The loops over VMA lists follow pointers and are bounded by `fuel`.
-/

namespace SnowOs

/-! ## Kernel structures -/

/-- `struct vma_struct`; the field `end` is called `stop`. -/
structure VmaStruct where
  start : Word := 0
  stop : Word := 0
  type : Word := 0
  flags : Word := 0
  next : Word := 0
deriving Repr, DecidableEq

/-- `struct mm_struct`. -/
structure MmStruct where
  vmaMap : Word := 0
  vmaMapIter : Word := 0
  vmaStack : Word := 0
  vmaHeap : Word := 0
deriving Repr, DecidableEq

/-- What the memory system reads of a `kthread_t`. -/
structure Task where
  cr3 : Word
  processMm : Word
deriving Repr, DecidableEq

def sizeofKthread : BitVec 32 := 33096
def sizeofMmStruct : BitVec 32 := 32
def sizeofVmaStruct : BitVec 32 := 40

/-- `VMA` types. -/
def vmaText : Word := 1
def vmaData : Word := 2
def vmaHeapType : Word := 3
def vmaStackType : Word := 4
def vmaUndefined : Word := 5

def heapStart : Word := 0x08000000
def stackStart : Word := 0xF0000000

def limitStack : Word := 4096000

/-- The machine and the structures in the kernel heap. -/
structure Space where
  machine : Machine
  vma : Word → VmaStruct := fun _ => {}
  mm : Word → MmStruct := fun _ => {}

namespace Machine

/-! ## Copy-on-write faults -/

/-- The bit `page_fault_handler` tests: `((flags >> 9) & 1UL) == 1UL`. -/
def isCow (flags : Word) : Bool := (flags >>> 9) &&& 1 = 1

/-- `(addr / PAGE_SIZE) * PAGE_SIZE`. -/
def pageBase (addr : Word) : Word := addr / pageSize * pageSize

/-- The copy-on-write branch of `page_fault_handler`. -/
def cowFault (m : Machine) (addr : Word) : Machine :=
  let physicalAddr := m.walkPageTable addr
  if m.phys.getPageRefCount physicalAddr = 2 then
    let v := m.kmalloc 4096
    let pPage := v.2.walkPageTable v.1
    let m := v.2.memcpy v.1 addr 4096
    let m := m.updatePageTables addr pPage userRwFlags
    m.setPageRefCount physicalAddr 1
  else if m.phys.getPageRefCount physicalAddr = 1 then
    m.updatePageTables addr physicalAddr userRwFlags
  else m

/-- The loop `update_page_tables(v, get_free_page(), PAGING_USER_R_W_FLAGS)`
over consecutive pages upwards from `v`. -/
def mapPages : Nat → Word → Machine → Machine
  | 0, _, m => m
  | n + 1, v, m =>
      let p := m.getFreePage
      mapPages n (v + pageSize) (p.2.updatePageTables v p.1 userRwFlags)

/-- The loop of `user_malloc`: pages mapped while `startAlloc < endAlloc`. -/
def mapWhile : Nat → Word → Word → Machine → Machine
  | 0, _, _, m => m
  | fuel + 1, startAlloc, endAlloc, m =>
      if startAlloc < endAlloc then
        let p := m.getFreePage
        mapWhile fuel (startAlloc + pageSize) endAlloc
          (p.2.updatePageTables startAlloc p.1 userRwFlags)
      else m

/-- The file's bytes stored at `vAddr` and up: `load_file`'s `memcpy`. -/
def storeBytes (m : Machine) (vAddr : Word) : List Byte → Machine
  | [] => m
  | b :: bs => (m.writeByte m.cr3 vAddr b).storeBytes (vAddr + 1) bs

end Machine

namespace Space

def setMachine (s : Space) (m : Machine) : Space := { s with machine := m }

def setVma (s : Space) (p : Word) (v : VmaStruct) : Space :=
  { s with vma := Function.update s.vma p v }

def setMm (s : Space) (p : Word) (v : MmStruct) : Space :=
  { s with mm := Function.update s.mm p v }

def kmalloc (s : Space) (bytesRequired : BitVec 32) : Word × Space :=
  let r := s.machine.kmalloc bytesRequired
  (r.1, s.setMachine r.2)

/-! ## `copy_process` -/

/-- The first VMA loop of `copy_process`, up to `vma_heap`; carries
`c_vma_map` and `c_vma_iter`. -/
def copyVmaMap : Nat → Word → Word → Word → Word → Space → (Word × Word) × Space
  | 0, _, _, cMap, cIter, s => ((cMap, cIter), s)
  | fuel + 1, pVma, vmaHeap, cMap, cIter, s =>
      if pVma ≠ 0 ∧ pVma ≠ vmaHeap then
        let r := s.kmalloc sizeofVmaStruct
        let s := r.2.setVma r.1 { r.2.vma pVma with next := 0 }
        let s := if cIter ≠ 0 then s.setVma cIter { s.vma cIter with next := r.1 } else s
        copyVmaMap fuel (s.vma pVma).next vmaHeap (if cIter ≠ 0 then cMap else r.1) r.1 s
      else ((cMap, cIter), s)

/-- The second VMA loop of `copy_process`. The copy of a node is taken
after its `next` is cleared, so it keeps the parent's `next`. -/
def copyVmaHeap : Nat → Word → Word → Word → Space → Word × Space
  | 0, _, cHeap, _, s => (cHeap, s)
  | fuel + 1, pVma, cHeap, cIter, s =>
      if pVma ≠ 0 then
        let r := s.kmalloc sizeofVmaStruct
        let s := r.2.setVma r.1 (r.2.vma pVma)
        let s := if cIter ≠ 0 then s.setVma cIter { s.vma cIter with next := r.1 } else s
        copyVmaHeap fuel (s.vma pVma).next (if cIter ≠ 0 then cHeap else r.1) r.1 s
      else (cHeap, s)

/-- `copy_process` once the child's address space is current: its
`process_mm` and the copies of the parent's VMA lists. -/
def copyMm (fuel : Nat) (s : Space) (parentTask : Task) : Word × Space :=
  let k := s.kmalloc sizeofMmStruct
  let s := k.2.setMm k.1 (k.2.mm parentTask.processMm)
  let a := s.copyVmaMap fuel (s.mm parentTask.processMm).vmaMap
    (s.mm parentTask.processMm).vmaHeap 0 0
  let s := a.2.setMm k.1 { a.2.mm k.1 with vmaMap := a.1.1, vmaMapIter := a.1.2 }
  let b := s.copyVmaHeap fuel (s.mm parentTask.processMm).vmaHeap 0 0
  let s := b.2.setMm k.1 { b.2.mm k.1 with vmaHeap := b.1 }
  let st := s.kmalloc sizeofVmaStruct
  let s := st.2.setVma st.1 (st.2.vma (st.2.mm parentTask.processMm).vmaStack)
  (k.1, s.setMm k.1 { s.mm k.1 with vmaStack := st.1 })

def copyProcess (fuel : Nat) (s : Space) (parentTask : Task) : Task × Space :=
  let s := (s.kmalloc sizeofKthread).2
  let r := s.machine.cowPageTables
  let k := (s.setMachine (r.2.setNewCr3 r.1)).copyMm fuel parentTask
  ({ cr3 := r.1, processMm := k.1 }, k.2)

/-- The memory side of `fork`: the child's task, and the parent's address
space current again. -/
def fork (fuel : Nat) (s : Space) (parentTask : Task) : Task × Space :=
  let r := s.copyProcess fuel parentTask
  (r.1, r.2.setMachine (r.2.machine.setNewCr3 parentTask.cr3))

/-! ## `user_malloc` -/

/-- `user_malloc`, in the current address space. -/
def userMalloc (s : Space) (task : Task) (bytes : Word) : Word × Space :=
  let iter := (s.mm task.processMm).vmaMapIter
  let startAlloc := (s.vma iter).stop
  let endAlloc := if bytes % pageSize = 0 then startAlloc + bytes
    else startAlloc + (bytes / pageSize + 1) * pageSize
  let r := s.kmalloc sizeofVmaStruct
  let s := r.2.setVma r.1 { r.2.vma r.1 with start := startAlloc, stop := endAlloc, next := 0 }
  let s := s.setVma iter { s.vma iter with next := r.1 }
  let s := s.setMm task.processMm { s.mm task.processMm with vmaMapIter := r.1 }
  -- one round per page of the request
  let s := s.setMachine
    (s.machine.mapWhile (bytes.toNat / 4096 + 1) startAlloc endAlloc)
  ((s.vma r.1).start, s)

/-! ## `load_file` -/

/-- A program header, with the `p_filesz` bytes at `p_offset`. -/
structure Elf64Phdr where
  pType : BitVec 32
  pFlags : BitVec 32
  pVaddr : Word
  pMemsz : Word
  contents : List Byte

/-- The body of `load_file`'s loop for a header of type 1; carries
`vma_map` and `vma_map_iter`. -/
def loadSegment (s : Space) (phdr : Elf64Phdr) (vmaMap vmaMapIter : Word) :
    (Word × Word) × Space :=
  let r := s.kmalloc sizeofVmaStruct
  let start := phdr.pVaddr
  let stop := phdr.pVaddr + phdr.pMemsz
  let pages := ((stop / pageSize + 1) * pageSize - start / pageSize * pageSize) / pageSize
  let vAddr := phdr.pVaddr / pageSize * pageSize
  let s := r.2.setMachine (r.2.machine.mapPages (pages + 1).toNat vAddr)
  let s := s.setMachine (s.machine.storeBytes start phdr.contents)
  let type := if phdr.pFlags = 5 then vmaText else if phdr.pFlags = 6 then vmaData
    else vmaUndefined
  let s := s.setVma r.1 { start, stop, type, flags := phdr.pFlags.setWidth 64, next := 0 }
  if vmaMapIter ≠ 0 then
    ((vmaMap, r.1), s.setVma vmaMapIter { s.vma vmaMapIter with next := r.1 })
  else ((r.1, r.1), s)

/-- `load_file`'s loop over the program headers. -/
def loadSegments : List Elf64Phdr → Word → Word → Space → (Word × Word) × Space
  | [], vmaMap, vmaMapIter, s => ((vmaMap, vmaMapIter), s)
  | phdr :: phdrs, vmaMap, vmaMapIter, s =>
      if phdr.pType = 1 then
        let r := s.loadSegment phdr vmaMap vmaMapIter
        loadSegments phdrs r.1.1 r.1.2 r.2
      else loadSegments phdrs vmaMap vmaMapIter s

/-- `load_file` on the program headers of the file found, or on a missing
file. -/
def loadFile (s : Space) (task : Task) : Option (List Elf64Phdr) → Int × Space
  | none => (-1, s)
  | some phdrs =>
      let segs := s.loadSegments phdrs 0 0
      let h := segs.2.kmalloc sizeofVmaStruct
      let s := h.2.setVma h.1
        { start := heapStart, stop := heapStart + pageSize, type := vmaHeapType, flags := 6 }
      let s := if segs.1.2 ≠ 0 then s.setVma segs.1.2 { s.vma segs.1.2 with next := h.1 } else s
      let vmaMap := if segs.1.2 ≠ 0 then segs.1.1 else h.1
      let s := s.setMachine (s.machine.mapPages 1 heapStart)
      let st := s.kmalloc sizeofVmaStruct
      let s := st.2.setMachine (st.2.machine.mapPages 1 stackStart)
      let s := s.setVma st.1
        { start := stackStart + pageSize - 16, stop := stackStart, type := vmaStackType, flags := 6 }
      (0, s.setMm task.processMm { vmaMap, vmaMapIter := h.1, vmaStack := st.1, vmaHeap := h.1 })

/-- The memory side of `create_process` and `exec_vpe`: a task with a new
address space, current on return, and the file loaded into it. -/
def loadProcess (s : Space) (file : Option (List Elf64Phdr)) : Task × Space :=
  let s := (s.kmalloc sizeofKthread).2
  let r := s.machine.setupUserPageTables
  let s := s.setMachine (r.2.setNewCr3 r.1)
  let k := s.kmalloc sizeofMmStruct
  let task : Task := { cr3 := r.1, processMm := k.1 }
  (task, (k.2.loadFile task file).2)

/-! ## `page_fault_handler` -/

/-- The stack-growth loop, on the VMA node `st`. -/
def growStack : Nat → Word → Space → Space
  | 0, _, s => s
  | pages + 1, st, s =>
      let s := s.setVma st { s.vma st with stop := (s.vma st).stop - pageSize }
      let p := s.machine.getFreePage
      growStack pages st
        (s.setMachine (p.2.updatePageTables (s.vma st).stop p.1 userRwFlags))

/-- `page_fault_handler` at the address in CR2; `none` is the branch that
ends the process. -/
def pageFaultHandler (s : Space) (task : Task) (cr2 : Word) : Option Space :=
  let addr := Machine.pageBase cr2
  if Machine.isCow (s.machine.getFlags addr) then
    some (s.setMachine (s.machine.cowFault addr))
  else
    let st := (s.mm task.processMm).vmaStack
    if addr ≤ (s.vma st).stop ∧ (s.vma st).start - (s.vma st).stop ≤ limitStack then
      some (s.growStack (((s.vma st).stop - addr) / pageSize).toNat st)
    else none

/-! ## What loading a file does to the machine -/

def Elf64Phdr.pages (phdr : Elf64Phdr) : Nat :=
  ((((phdr.pVaddr + phdr.pMemsz) / pageSize + 1) * pageSize
    - phdr.pVaddr / pageSize * pageSize) / pageSize + 1).toNat

theorem loadSegment_machine (s : Space) (phdr : Elf64Phdr) (vmaMap vmaMapIter : Word) :
    (s.loadSegment phdr vmaMap vmaMapIter).2.machine
      = (((s.machine.kmalloc sizeofVmaStruct).2.mapPages phdr.pages
          (phdr.pVaddr / pageSize * pageSize)).storeBytes phdr.pVaddr phdr.contents) := by
  rw [loadSegment]
  split
  · rfl
  · rfl

theorem loadFile_machine (s : Space) (task : Task) (phdrs : List Elf64Phdr) :
    (s.loadFile task (some phdrs)).2.machine
      = ((((s.loadSegments phdrs 0 0).2.machine.kmalloc sizeofVmaStruct).2.mapPages 1
          heapStart).kmalloc sizeofVmaStruct).2.mapPages 1 stackStart := by
  rw [loadFile]
  by_cases hiter : (s.loadSegments phdrs 0 0).1.2 ≠ 0
  · simp only [if_pos hiter]
    rfl
  · simp only [if_neg hiter]
    rfl

end Space

end SnowOs
