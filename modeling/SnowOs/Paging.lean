import SnowOs.Entry

/-!
# The paging code (`sys/paging.c`)

`Machine` is what the paging code reads and writes: the allocator's
globals, physical memory as 512 words per frame, and CR3. The source
reaches a table through the direct map, at `kernel_virtual_base + frame`;
here a table is addressed by its frame. There is no TLB in the model, so
`flush_tlb` has nothing to do.

The three read-only descents of the source (`walk_page_table`,
`get_flags`, `remove_page_table_mapping`) are the same text up to their
last statement and share `pageTable`; the descent of `update_page_tables`
allocates on the way and is `descend`, once per level.

`log` is a ghost: the results of `get_free_page` so far, newest first. A
refused request shows in it as `0`, so a run in which memory never ran
out is one whose log has no `0`.
-/

namespace SnowOs

open Radix

abbrev Byte := BitVec 8

/-- The machine state of the paging code. -/
structure Machine where
  phys : PhysMem
  mem : Word → Fin 512 → Word
  cr3 : Word
  log : List Word := []

/-- `kernel_virtual_base`, that is `kernmem - physbase` of the linker
script. -/
def kernelVirtualBase : Word := 0xffffffff80000000

namespace Machine

def setEntry (m : Machine) (t : Word) (i : Fin 512) (w : Word) : Machine :=
  { m with mem := write m.mem t i w }

def getFreePage (m : Machine) : Word × Machine :=
  let r := m.phys.getFreePage
  (r.1, { m with phys := r.2, log := r.1 :: m.log })

def setPageRefCount (m : Machine) (pageAddr : Word) (newRefCount : Nat) : Machine :=
  { m with phys := m.phys.setPageRefCount pageAddr newRefCount }

def setNewCr3 (m : Machine) (cr3 : Word) : Machine := { m with cr3 := cr3 }

/-! ## The read-only descent -/

/-- One level of the descent: the table a present entry names. -/
def nextTable (m : Machine) (t : Word) (i : Fin 512) : Option Word :=
  if present (m.mem t i) then some (m.mem t i &&& mask) else none

/-- The page table covering `virtAddr` in the tree at `root`, if the three
levels above it are present. -/
def pageTable (m : Machine) (root virtAddr : Word) : Option Word := do
  let pdpe ← m.nextTable root (offsetPml4 virtAddr)
  let pde ← m.nextTable pdpe (offsetPdpe virtAddr)
  m.nextTable pde (offsetPde virtAddr)

/-- The leaf entry for `virtAddr` in the tree at `root`; zero when a level
is missing. -/
def leaf (m : Machine) (root virtAddr : Word) : Word :=
  match m.pageTable root virtAddr with
  | some pte => m.mem pte (offsetPte virtAddr)
  | none => 0

def walkPageTable (m : Machine) (virtAddr : Word) : Word :=
  match m.pageTable m.cr3 virtAddr with
  | some pte => m.mem pte (offsetPte virtAddr) &&& mask
  | none => 0

def getFlags (m : Machine) (virtAddr : Word) : Word :=
  match m.pageTable m.cr3 virtAddr with
  | some pte => m.mem pte (offsetPte virtAddr) &&& flagMask
  | none => 0

def removePageTableMapping (m : Machine) (virtAddr : Word) : Machine :=
  match m.pageTable m.cr3 virtAddr with
  | some pte => m.setEntry pte (offsetPte virtAddr) 0
  | none => m

/-! ## Mapping a page -/

/-- One level of `update_page_tables`: the table an entry names, allocated
if the entry is absent, and the entry rewritten with `flags`. -/
def descend (m : Machine) (t : Word) (i : Fin 512) (flags : Word) : Word × Machine :=
  let r := if present (m.mem t i) then (m.mem t i &&& mask, m) else m.getFreePage
  (r.1, r.2.setEntry t i (r.1 ||| flags))

/-- The common body of `setup_page_tables` and `update_page_tables`, which
differ in where the root comes from. -/
def mapPage (m : Machine) (root virtAddr physicalAddr flags : Word) : Machine :=
  let pdpe := m.descend root (offsetPml4 virtAddr) flags
  let pde := pdpe.2.descend pdpe.1 (offsetPdpe virtAddr) flags
  let pte := pde.2.descend pde.1 (offsetPde virtAddr) flags
  pte.2.setEntry pte.1 (offsetPte virtAddr) (physicalAddr ||| flags)

def updatePageTables (m : Machine) (virtAddr physicalAddr flags : Word) : Machine :=
  m.mapPage m.cr3 virtAddr physicalAddr flags

def setupUserPageTables (m : Machine) : Word × Machine :=
  let r := m.getFreePage
  (r.1, r.2.setEntry r.1 511 (r.2.mem r.2.cr3 511))

/-! ## Bytes through the current address space -/

def loadByte (w : Word) (k : Nat) : Byte := (w >>> (8 * k)).setWidth 8

/-- A word with byte `k` replaced. -/
def storeByte (w : Word) (k : Nat) (b : Byte) : Word :=
  (w &&& ~~~((0xFF : Word) <<< (8 * k))) ||| (b.setWidth 64 <<< (8 * k))

def wordIndex (v : Word) : Fin 512 := offset 3 v

def byteIndex (v : Word) : Nat := v.toNat % 8

/-- The frame the tree at `root` maps `v` to: the hardware's walk, which
also needs the leaf to be present. -/
def translate (m : Machine) (root v : Word) : Option Word :=
  if present (m.leaf root v) then some (m.leaf root v &&& mask) else none

def readByte (m : Machine) (root v : Word) : Option Byte :=
  (m.translate root v).map fun f => loadByte (m.mem f (wordIndex v)) (byteIndex v)

/-- The byte at `v` in the address space at `root` assigned. An address
that is not mapped faults on the hardware; the store is dropped. -/
def writeByte (m : Machine) (root v : Word) (b : Byte) : Machine :=
  match m.translate root v with
  | some f =>
      m.setEntry f (wordIndex v) (storeByte (m.mem f (wordIndex v)) (byteIndex v) b)
  | none => m

/-- `memset`, in the current address space. -/
def memset (m : Machine) (a : Word) (v : Byte) (b : Nat) : Machine :=
  (List.range b).foldl (fun m i => m.writeByte m.cr3 (a + BitVec.ofNat 64 i) v) m

/-- `memcpy`, in the current address space. -/
def memcpy (m : Machine) (dest src : Word) (bytes : Nat) : Machine :=
  (List.range bytes).foldl (fun m i =>
    match m.readByte m.cr3 (src + BitVec.ofNat 64 i) with
    | some b => m.writeByte m.cr3 (dest + BitVec.ofNat 64 i) b
    | none => m) m

/-! ## The kernel heap -/

/-- The number of pages `kmalloc` takes for a request. -/
def noOfPages (bytesRequired : BitVec 32) : Nat :=
  if bytesRequired.toNat % 4096 ≠ 0 then bytesRequired.toNat / 4096 + 1
  else bytesRequired.toNat / 4096

/-- One round of `kmalloc`'s loop, on `allocated_addr` and the machine. -/
def kmallocPage (r : Word × Machine) (i : Nat) : Word × Machine :=
  let p := r.2.getFreePage
  let allocatedAddr := if i = 0 then p.1 else r.1
  (allocatedAddr, p.2.updatePageTables
    (kernelVirtualBase + allocatedAddr + BitVec.ofNat 64 (i * 4096)) p.1 kernelRwFlags)

def kmalloc (m : Machine) (bytesRequired : BitVec 32) : Word × Machine :=
  let r := (List.range (noOfPages bytesRequired)).foldl kmallocPage (0, m)
  (kernelVirtualBase + r.1, r.2)

/-- `kfree` returns at once: no mapping, or the frame is referenced. -/
def keepsFrame (m : Machine) (ptr : Word) : Bool :=
  m.walkPageTable ptr = 0 || 0 < m.phys.getPageRefCount (m.walkPageTable ptr)

/-- The end of `kfree`, once the page is zeroed. -/
def releasePage (m : Machine) (ptr phyAddr : Word) : Machine :=
  let m := { m with phys := m.phys.addBackFreePages phyAddr 1 }
  let m := { m with phys := m.phys.updateMaxPages 1 }
  m.removePageTableMapping ptr

def kfree (m : Machine) (ptr : Word) : Machine :=
  let phyAddr := m.walkPageTable ptr
  if m.keepsFrame ptr then m
  else (m.memset ptr 0 4096).releasePage ptr phyAddr

/-! ## Copy-on-write -/

/-- The body of the innermost loop of `cow_page_tables`: one leaf entry made
read-only and shared. -/
def cowLeaf (parent child : Word) (m : Machine) (i : Fin 512) : Machine :=
  if present (m.mem parent i) then
    let m := m.setEntry parent i (m.mem parent i &&& turnOffRw)
    let m := m.setEntry parent i (m.mem parent i ||| cowFlag)
    let m := m.setEntry child i (m.mem parent i)
    let physicalAddr := m.mem parent i &&& mask
    if m.phys.getPageRefCount physicalAddr = 1 then
      { m with phys := m.phys.setPageRefCount physicalAddr 2 }
    else m
  else m

/-- The nested loops of `cow_page_tables`, from the pair of tables `parent`
and `child` with `d` levels below them, over the indices given. -/
def cowTable : Nat → Word → Word → List (Fin 512) → Machine → Machine
  | 0, parent, child, is, m => is.foldl (cowLeaf parent child) m
  | d + 1, parent, child, is, m =>
      is.foldl (fun m i =>
        if present (m.mem parent i) then
          let r := m.getFreePage
          let m := r.2.setEntry child i (r.1 ||| (r.2.mem parent i &&& flagMask))
          cowTable d (m.mem parent i &&& mask) r.1 (List.finRange 512) m
        else m) m

/-- The indices of the outer loop: all but the kernel's, 511. -/
def userIndices : List (Fin 512) := (List.finRange 511).map Fin.castSucc

/-- `cow_page_tables`. -/
@[irreducible] def cowPageTables (m : Machine) : Word × Machine :=
  let r := m.getFreePage
  let m := r.2.setEntry r.1 511 (r.2.mem r.2.cr3 511)
  (r.1, cowTable 3 m.cr3 r.1 userIndices m)

/-! ## Small facts about the pieces -/

@[simp] theorem setEntry_phys (m : Machine) (t : Word) (i : Fin 512) (w : Word) :
    (m.setEntry t i w).phys = m.phys := rfl

@[simp] theorem setEntry_cr3 (m : Machine) (t : Word) (i : Fin 512) (w : Word) :
    (m.setEntry t i w).cr3 = m.cr3 := rfl

@[simp] theorem setEntry_log (m : Machine) (t : Word) (i : Fin 512) (w : Word) :
    (m.setEntry t i w).log = m.log := rfl

@[simp] theorem setEntry_mem (m : Machine) (t : Word) (i : Fin 512) (w : Word) :
    (m.setEntry t i w).mem = write m.mem t i w := rfl

@[simp] theorem setEntry_setEntry (m : Machine) (t : Word) (i : Fin 512) (w w' : Word) :
    (m.setEntry t i w).setEntry t i w' = m.setEntry t i w' := by
  rw [setEntry, setEntry_mem, write_write]
  rfl

@[simp] theorem getFreePage_mem (m : Machine) : m.getFreePage.2.mem = m.mem := rfl

@[simp] theorem getFreePage_cr3 (m : Machine) : m.getFreePage.2.cr3 = m.cr3 := rfl

@[simp] theorem getFreePage_log (m : Machine) :
    m.getFreePage.2.log = m.getFreePage.1 :: m.log := rfl

@[simp] theorem getFreePage_phys (m : Machine) :
    m.getFreePage.2.phys = m.phys.getFreePage.2 := rfl

@[simp] theorem writeByte_phys (m : Machine) (root v : Word) (b : Byte) :
    (m.writeByte root v b).phys = m.phys := by
  unfold writeByte
  split <;> rfl

@[simp] theorem writeByte_log (m : Machine) (root v : Word) (b : Byte) :
    (m.writeByte root v b).log = m.log := by
  unfold writeByte
  split <;> rfl

theorem getFreePage_fst (m : Machine) : m.getFreePage.1 = m.phys.getFreePage.1 := rfl

@[simp] theorem setNewCr3_mem (m : Machine) (c : Word) : (m.setNewCr3 c).mem = m.mem := rfl

@[simp] theorem setNewCr3_cr3 (m : Machine) (c : Word) : (m.setNewCr3 c).cr3 = c := rfl

@[simp] theorem setNewCr3_phys (m : Machine) (c : Word) : (m.setNewCr3 c).phys = m.phys := rfl

@[simp] theorem setNewCr3_log (m : Machine) (c : Word) : (m.setNewCr3 c).log = m.log := rfl

@[simp] theorem setPageRefCount_log (m : Machine) (a : Word) (c : Nat) :
    (m.setPageRefCount a c).log = m.log := rfl

theorem follow_cons_eq (m : Machine) (t : Word) (i : Fin 512) (p : List (Fin 512)) :
    follow entryFormat m.mem t (i :: p)
      = (m.nextTable t i).bind fun u => follow entryFormat m.mem u p := by
  have hp : entryFormat.present (m.mem t i) = present (m.mem t i) := rfl
  rw [follow, nextTable, hp]
  cases present (m.mem t i) <;> rfl

theorem pageTable_eq_follow (m : Machine) (root v : Word) :
    m.pageTable root v
      = follow entryFormat m.mem root [offsetPml4 v, offsetPdpe v, offsetPde v] := by
  rw [follow_cons_eq, pageTable]
  congr 1
  funext pdpe
  rw [follow_cons_eq]
  congr 1

/-- The leaf entry is what the radix tree at `root` holds at `path v`. -/
theorem leaf_eq_lookup (m : Machine) (root v : Word) :
    m.leaf root v = lookup entryFormat m.mem root (path v) := by
  show _ = lookup entryFormat m.mem root
    ([offsetPml4 v, offsetPdpe v, offsetPde v] ++ [offsetPte v])
  rw [lookup_eq_follow, leaf, pageTable_eq_follow]
  cases follow entryFormat m.mem root [offsetPml4 v, offsetPdpe v, offsetPde v] <;> rfl

theorem walkPageTable_eq (m : Machine) (v : Word) :
    m.walkPageTable v = m.leaf m.cr3 v &&& mask := by
  rw [walkPageTable, leaf]
  split <;> rfl

theorem getFlags_eq (m : Machine) (v : Word) :
    m.getFlags v = m.leaf m.cr3 v &&& flagMask := by
  rw [getFlags, leaf]
  split <;> rfl

end Machine

end SnowOs
