import SnowOs.ByteMemory
import SnowOs.Exhaustion
import SnowOs.KernelBlocks
import SnowOs.UserPages
import SnowOs.VmaList

/-!
# Loading an ELF image

`load_file` of `sys/elf64.c` on the bytes of the image. For each header of
type 1 it maps pages from the one of `p_vaddr` up to one behind the page of
the segment's end, and copies the file's bytes; the page behind the end may
be the first page of the next segment, which is then mapped once more.

On user memory a segment is a stretch of zero pages with bytes put into it
(`UserMem.loadSegment`). A later segment begins on a later page, so it takes
nothing from an earlier one (`UserMem.loadSegment_below`), and the bytes of
each segment are there when the loop ends (`UserMem.loadSegments_bytes`).
`Loading` ties the machine and the list of areas to that, header by header.
-/

namespace SnowOs

open Machine

/-! ## The image -/

/-- The bytes at `ehdr` and up, by their distance from it. -/
abbrev Image := ByteMemory.Memory 64

namespace Image

open ByteMemory

def eEntry (image : Image) : Word := BitVec.ofNat 64 (load image 24 8)

def ePhoff (image : Image) : Word := BitVec.ofNat 64 (load image 32 8)

def ePhnum (image : Image) : Nat := load image 56 2

def pType (image : Image) (phdr : Word) : BitVec 32 := BitVec.ofNat 32 (load image phdr 4)

def pFlags (image : Image) (phdr : Word) : BitVec 32 := BitVec.ofNat 32 (load image (phdr + 4) 4)

def pOffset (image : Image) (phdr : Word) : Word := BitVec.ofNat 64 (load image (phdr + 8) 8)

def pVaddr (image : Image) (phdr : Word) : Word := BitVec.ofNat 64 (load image (phdr + 16) 8)

def pFilesz (image : Image) (phdr : Word) : Word := BitVec.ofNat 64 (load image (phdr + 32) 8)

def pMemsz (image : Image) (phdr : Word) : Word := BitVec.ofNat 64 (load image (phdr + 40) 8)

def sizeofPhdr : Word := 56

/-- The rounds of `memcpy` for a count of type `uint64_t`: the parameter is
an `int`. -/
def copyCount (bytes : Word) : Nat := (bytes.setWidth 32).toInt.toNat

/-- The header at `phdr`, with the bytes `load_file` copies for it. -/
def phdrAt (image : Image) (phdr : Word) : Space.Elf64Phdr where
  pType := image.pType phdr
  pFlags := image.pFlags phdr
  pVaddr := image.pVaddr phdr
  pMemsz := image.pMemsz phdr
  contents := bytes image (image.pOffset phdr) (copyCount (image.pFilesz phdr))

/-- The values of `phdr` in `n` rounds of the loop. -/
def headersFrom : Nat → Word → List Word
  | 0, _ => []
  | n + 1, phdr => phdr :: headersFrom n (phdr + sizeofPhdr)

def headers (image : Image) : List Word := headersFrom image.ePhnum image.ePhoff

def loads (image : Image) : List Word := image.headers.filter fun phdr => image.pType phdr = 1

end Image

/-- What `load_file` sets in the `kthread_t`. -/
structure UserRegs where
  rip : Word
  rspUser : Word
deriving Repr, DecidableEq

/-- `load_file` on the image at `location`, or on NULL. -/
def Space.loadImage (s : Space) (task : Task) (regs : UserRegs) :
    Option Image → Int × UserRegs × Space
  | none => (-1, regs, s)
  | some image =>
      let r := s.loadFile task (some (image.headers.map image.phdrAt))
      (r.1, { rip := image.eEntry, rspUser := stackStart + 4096 - 16 }, r.2)

/-! ## Segments in user memory -/

namespace Space.Elf64Phdr

def area (phdr : Elf64Phdr) : VmaArea where
  start := phdr.pVaddr
  stop := phdr.pVaddr + phdr.pMemsz
  type := if phdr.pFlags = 5 then vmaText else if phdr.pFlags = 6 then vmaData else vmaUndefined
  flags := phdr.pFlags.setWidth 64

/-- A segment below the heap, with no more bytes in the file than in memory. -/
structure Low (phdr : Elf64Phdr) : Prop where
  contents : phdr.contents.length ≤ phdr.pMemsz.toNat
  range : phdr.pVaddr.toNat + phdr.pMemsz.toNat ≤ heapStart.toNat

/-- The last page of the first segment is below the first page of the other. -/
def Before (p q : Elf64Phdr) : Prop :=
  ∀ i < p.pMemsz.toNat, (p.pVaddr.toNat + i) / 4096 < q.pVaddr.toNat / 4096

theorem heapStart_toNat : heapStart.toNat = 2 ^ 27 := rfl

theorem Low.pages_eq {phdr : Elf64Phdr} (h : phdr.Low) :
    phdr.pVaddr.toNat / 4096 + phdr.pages
      = (phdr.pVaddr.toNat + phdr.pMemsz.toNat) / 4096 + 2 := by
  have hrange := h.range
  rw [heapStart_toNat] at hrange
  have hstop : ((phdr.pVaddr + phdr.pMemsz) / pageSize).toNat
      = (phdr.pVaddr.toNat + phdr.pMemsz.toNat) / 4096 := by
    rw [BitVec.toNat_udiv, BitVec.toNat_add, pageSize_toNat, Nat.mod_eq_of_lt (by omega)]
  have hstart : (phdr.pVaddr / pageSize).toNat = phdr.pVaddr.toNat / 4096 := by
    rw [BitVec.toNat_udiv, pageSize_toNat]
  have hone : (1 : Word).toNat = 1 := rfl
  rw [pages, BitVec.toNat_add, BitVec.toNat_udiv, BitVec.toNat_sub, BitVec.toNat_mul,
    BitVec.toNat_mul, BitVec.toNat_add, hstop, hstart, hone, pageSize_toNat]
  omega

theorem Low.start_eq {phdr : Elf64Phdr} (h : phdr.Low) :
    (phdr.pVaddr / pageSize * pageSize).toNat = phdr.pVaddr.toNat / 4096 * 4096 ∧
      pageIndex (phdr.pVaddr / pageSize * pageSize) = phdr.pVaddr.toNat / 4096 := by
  have hrange := h.range
  rw [heapStart_toNat] at hrange
  have hstart : (phdr.pVaddr / pageSize * pageSize).toNat = phdr.pVaddr.toNat / 4096 * 4096 := by
    rw [BitVec.toNat_mul, BitVec.toNat_udiv, pageSize_toNat]
    omega
  refine ⟨hstart, ?_⟩
  rw [pageIndex, hstart]
  omega

end Space.Elf64Phdr

open Space (Elf64Phdr)

namespace UserMem

def loadSegment (μ : UserMem) (phdr : Elf64Phdr) : UserMem :=
  (μ.zeroPages (phdr.pVaddr.toNat / 4096) phdr.pages).putBytes phdr.pVaddr.toNat phdr.contents

def loadSegments (μ : UserMem) (phdrs : List Elf64Phdr) : UserMem := phdrs.foldl loadSegment μ

variable {phdr : Elf64Phdr}

theorem zeroPages_segment (h : phdr.Low) (μ : UserMem) {i : Nat} (hi : i < phdr.pMemsz.toNat) :
    μ.zeroPages (phdr.pVaddr.toNat / 4096) phdr.pages (phdr.pVaddr.toNat + i) = some 0 := by
  have hpages := h.pages_eq
  rw [zeroPages_apply, if_pos (by omega)]

theorem zeroPages_segment_isSome (h : phdr.Low) (μ : UserMem) :
    ∀ i < phdr.contents.length,
      (μ.zeroPages (phdr.pVaddr.toNat / 4096) phdr.pages (phdr.pVaddr.toNat + i)).isSome := by
  intro i hi
  rw [zeroPages_segment h μ (Nat.lt_of_lt_of_le hi h.contents)]
  rfl

theorem loadSegment_bytes (h : phdr.Low) (μ : UserMem) {i : Nat} (hi : i < phdr.pMemsz.toNat) :
    μ.loadSegment phdr (phdr.pVaddr.toNat + i) = some (phdr.contents[i]?.getD 0) := by
  rw [loadSegment, putBytes_apply _ _ _ (zeroPages_segment_isSome h μ), Nat.add_sub_cancel_left,
    zeroPages_segment h μ hi]
  by_cases hfile : i < phdr.contents.length
  · rw [if_pos (by omega), List.getElem?_eq_getElem hfile, Option.getD_some]
  · rw [if_neg (by omega), List.getElem?_eq_none (Nat.le_of_not_lt hfile), Option.getD_none]

/-- What is on an earlier page stays. -/
theorem loadSegment_below (h : phdr.Low) (μ : UserMem) {a : Nat}
    (ha : a / 4096 < phdr.pVaddr.toNat / 4096) : μ.loadSegment phdr a = μ a := by
  rw [loadSegment, putBytes_apply _ _ _ (zeroPages_segment_isSome h μ), if_neg (by omega),
    zeroPages_apply, if_neg (by omega)]

theorem loadSegments_below {phdrs : List Elf64Phdr} (h : ∀ q ∈ phdrs, q.Low) (μ : UserMem)
    {a : Nat} (ha : ∀ q ∈ phdrs, a / 4096 < q.pVaddr.toNat / 4096) :
    μ.loadSegments phdrs a = μ a := by
  induction phdrs generalizing μ with
  | nil => rfl
  | cons q phdrs ih =>
      rw [loadSegments, List.foldl_cons, ← loadSegments,
        ih (fun q' hq' => h q' (List.mem_cons_of_mem _ hq'))
          _ (fun q' hq' => ha q' (List.mem_cons_of_mem _ hq'))]
      exact loadSegment_below (h q (List.mem_cons_self ..)) μ (ha q (List.mem_cons_self ..))

/-- What lies behind the pages of all segments stays. -/
theorem loadSegments_above {phdrs : List Elf64Phdr} (h : ∀ q ∈ phdrs, q.Low) (μ : UserMem)
    {a : Nat} (ha : ∀ q ∈ phdrs, (q.pVaddr.toNat + q.pMemsz.toNat) / 4096 + 2 ≤ a / 4096) :
    μ.loadSegments phdrs a = μ a := by
  induction phdrs generalizing μ with
  | nil => rfl
  | cons q phdrs ih =>
      have hq := h q (List.mem_cons_self ..)
      have hpages := hq.pages_eq
      have hcontents := hq.contents
      have habove := ha q (List.mem_cons_self ..)
      rw [loadSegments, List.foldl_cons, ← loadSegments,
        ih (fun q' hq' => h q' (List.mem_cons_of_mem _ hq'))
          _ (fun q' hq' => ha q' (List.mem_cons_of_mem _ hq')),
        loadSegment, putBytes_apply _ _ _ (zeroPages_segment_isSome hq μ), if_neg (by omega),
        zeroPages_apply, if_neg (by omega)]

/-- Each segment has its bytes when all are loaded. -/
theorem loadSegments_bytes {phdrs : List Elf64Phdr} (h : ∀ q ∈ phdrs, q.Low)
    (hbefore : phdrs.Pairwise Elf64Phdr.Before) (μ : UserMem) (hp : phdr ∈ phdrs) {i : Nat}
    (hi : i < phdr.pMemsz.toNat) :
    μ.loadSegments phdrs (phdr.pVaddr.toNat + i) = some (phdr.contents[i]?.getD 0) := by
  induction phdrs generalizing μ with
  | nil => exact absurd hp List.not_mem_nil
  | cons q phdrs ih =>
      obtain ⟨hq, hrest⟩ := List.pairwise_cons.mp hbefore
      have hlow := fun q' hq' => h q' (List.mem_cons_of_mem _ hq')
      rw [loadSegments, List.foldl_cons, ← loadSegments]
      rcases List.mem_cons.mp hp with rfl | hp
      · rw [loadSegments_below hlow _ fun q' hq' => hq q' hq' i hi]
        exact loadSegment_bytes (h phdr (List.mem_cons_self ..)) μ hi
      · exact ih hlow hrest _ hp

end UserMem

/-! ## The loop over the headers -/

/-- What the loop of `load_file` has built: the memory, and the list of
areas in blocks of their own, none of them in `K`. -/
structure Loading (roots K : List Word) (base : List (Fin 512) → Word) (s : Space)
    (μ : UserMem) (vmaMap vmaMapIter : Word) (nodes : List Word) (as : List VmaArea) : Prop where
  shows : Shows roots base s.machine μ (nodes ++ K)
  list : VmaList s.vma vmaMap vmaMapIter nodes
  areas : areas s.vma nodes = as

section Loading

variable {roots K : List Word} {base : List (Fin 512) → Word} {s s' : Space} {μ μ' : UserMem}
  {vmaMap vmaMapIter : Word} {nodes : List Word} {as : List VmaArea}

theorem noOfPages_vmaStruct : noOfPages sizeofVmaStruct = 1 := rfl

/-- A block allocated for a VMA, and the VMA hung behind the others. -/
theorem Loading.link (h : Loading roots K base s μ vmaMap vmaMapIter nodes as) {a : Word}
    {v : VmaStruct} (ha : a ≠ 0) (hnew : a ∉ nodes ++ K) (hnext : v.next = 0)
    (hshows : Shows roots base s'.machine μ' (a :: (nodes ++ K)))
    (hvma : s'.vma = linkVma s.vma vmaMapIter a v) :
    Loading roots K base s' μ' (if vmaMapIter ≠ 0 then vmaMap else a) a (nodes ++ [a])
      (as ++ [v.area]) := by
  obtain ⟨hlist, hareas⟩ := h.list.link ha (fun hmem => hnew (List.mem_append_left _ hmem)) hnext
  rw [← hvma] at hlist hareas
  refine ⟨hshows.sub fun b hb => ?_, hlist, by rw [hareas, h.areas]⟩
  rwa [List.append_assoc, List.singleton_append, List.perm_middle.mem_iff] at hb

theorem Machine.Shows.loadSegment {m : Machine} {phdr : Elf64Phdr}
    (h : Shows roots base m μ K) (hlow : phdr.Low)
    (hlog : (0 : Word) ∉ (m.mapPages phdr.pages (phdr.pVaddr / pageSize * pageSize)).log) :
    Shows roots base ((m.mapPages phdr.pages (phdr.pVaddr / pageSize * pageSize)).storeBytes
      phdr.pVaddr phdr.contents) (μ.loadSegment phdr) K := by
  have hrange := hlow.range
  have hcontents := hlow.contents
  have hpages := hlow.pages_eq
  obtain ⟨hstart, hindex⟩ := hlow.start_eq
  rw [Elf64Phdr.heapStart_toNat] at hrange
  have hmap := h.mapPages (by rw [hstart]; omega) hlog
  rw [hindex] at hmap
  exact hmap.storeBytes (by omega) (UserMem.zeroPages_segment_isSome hlow μ)

theorem loadSegment_log (s : Space) (phdr : Elf64Phdr) (a b : Word) :
    (s.loadSegment phdr a b).2.machine.log
      = ((s.machine.kmalloc sizeofVmaStruct).2.mapPages phdr.pages
          (phdr.pVaddr / pageSize * pageSize)).log := by
  rw [Space.loadSegment_machine, storeBytes_log]

theorem loadSegment_vma (s : Space) (phdr : Elf64Phdr) (a b : Word) :
    (s.loadSegment phdr a b).2.vma = linkVma s.vma b (s.machine.kmalloc sizeofVmaStruct).1
      { phdr.area with next := 0 } ∧
    (s.loadSegment phdr a b).1 = (if b ≠ 0 then a else (s.machine.kmalloc sizeofVmaStruct).1,
      (s.machine.kmalloc sizeofVmaStruct).1) := by
  rw [Space.loadSegment, linkVma]
  split
  · exact ⟨rfl, rfl⟩
  · exact ⟨rfl, rfl⟩

theorem Loading.loadSegment (h : Loading roots K base s μ vmaMap vmaMapIter nodes as)
    {phdr : Elf64Phdr} (hlow : phdr.Low)
    (hlog : (0 : Word) ∉ (s.loadSegment phdr vmaMap vmaMapIter).2.machine.log) :
    ∃ a, Loading roots K base (s.loadSegment phdr vmaMap vmaMapIter).2 (μ.loadSegment phdr)
      (s.loadSegment phdr vmaMap vmaMapIter).1.1 (s.loadSegment phdr vmaMap vmaMapIter).1.2
      (nodes ++ [a]) (as ++ [phdr.area]) := by
  obtain ⟨hvma, hmap⟩ := loadSegment_vma s phdr vmaMap vmaMapIter
  rw [loadSegment_log] at hlog
  have hlog₁ : (0 : Word) ∉ (s.machine.kmalloc sizeofVmaStruct).2.log :=
    fun hmem => hlog ((mapPages_log_suffix _ _ _).subset hmem)
  obtain ⟨hnew, hne, hshows⟩ := h.shows.kmalloc_new noOfPages_vmaStruct hlog₁
  have hseg := hshows.loadSegment hlow hlog
  rw [← Space.loadSegment_machine s phdr vmaMap vmaMapIter] at hseg
  rw [hmap]
  exact ⟨_, h.link hne hnew rfl hseg hvma⟩

theorem loadSegments_log_suffix (phdrs : List Elf64Phdr) (s : Space) (a b : Word) :
    s.machine.log <:+ (s.loadSegments phdrs a b).2.machine.log := by
  induction phdrs generalizing s a b with
  | nil => exact List.suffix_refl _
  | cons phdr phdrs ih =>
      rw [Space.loadSegments]
      split
      · refine List.IsSuffix.trans ?_ (ih ..)
        rw [loadSegment_log]
        exact (kmalloc_log_suffix _ _).trans (mapPages_log_suffix _ _ _)
      · exact ih ..

theorem Loading.loadSegments {phdrs : List Elf64Phdr}
    (h : Loading roots K base s μ vmaMap vmaMapIter nodes as)
    (hlow : ∀ p ∈ phdrs.filter (·.pType = 1), p.Low)
    (hlog : (0 : Word) ∉ (s.loadSegments phdrs vmaMap vmaMapIter).2.machine.log) :
    ∃ nodes', Loading roots K base (s.loadSegments phdrs vmaMap vmaMapIter).2
      (μ.loadSegments (phdrs.filter (·.pType = 1)))
      (s.loadSegments phdrs vmaMap vmaMapIter).1.1 (s.loadSegments phdrs vmaMap vmaMapIter).1.2
      nodes' (as ++ (phdrs.filter (·.pType = 1)).map Elf64Phdr.area) := by
  induction phdrs generalizing s μ vmaMap vmaMapIter nodes as with
  | nil => exact ⟨nodes, by rw [List.filter_nil, List.map_nil, List.append_nil]; exact h⟩
  | cons phdr phdrs ih =>
      rw [Space.loadSegments] at hlog ⊢
      by_cases htype : phdr.pType = 1
      · rw [List.filter_cons_of_pos (by rw [htype]; rfl)] at hlow ⊢
        rw [if_pos htype] at hlog ⊢
        obtain ⟨a, hseg⟩ := h.loadSegment (hlow phdr (List.mem_cons_self ..))
          fun hmem => hlog ((loadSegments_log_suffix ..).subset hmem)
        obtain ⟨nodes', hrest⟩ := ih hseg (fun p hp => hlow p (List.mem_cons_of_mem _ hp)) hlog
        refine ⟨nodes', ?_⟩
        rw [List.append_assoc, List.singleton_append] at hrest
        exact hrest
      · rw [List.filter_cons_of_neg (by simpa using htype)] at hlow ⊢
        rw [if_neg htype] at hlog ⊢
        exact ih h hlow hlog

/-! ## The heap and the stack -/

def heapArea : VmaArea where
  start := heapStart
  stop := heapStart + pageSize
  type := vmaHeapType
  flags := 6

def stackArea : VmaArea where
  start := stackStart + pageSize - 16
  stop := stackStart
  type := vmaStackType
  flags := 6

def VmaArea.toStruct (v : VmaArea) : VmaStruct :=
  { start := v.start, stop := v.stop, type := v.type, flags := v.flags, next := 0 }

theorem loadFile_structs (s : Space) (task : Task) (phdrs : List Elf64Phdr) :
    ∃ segs h st, s.loadSegments phdrs 0 0 = segs ∧
      segs.2.machine.kmalloc sizeofVmaStruct = h ∧
      (h.2.mapPages 1 heapStart).kmalloc sizeofVmaStruct = st ∧
      (s.loadFile task (some phdrs)).2.machine = st.2.mapPages 1 stackStart ∧
      (s.loadFile task (some phdrs)).2.vma
        = Function.update (linkVma segs.2.vma segs.1.2 h.1 heapArea.toStruct) st.1
            stackArea.toStruct ∧
      (s.loadFile task (some phdrs)).2.mm task.processMm
        = { vmaMap := if segs.1.2 ≠ 0 then segs.1.1 else h.1, vmaMapIter := h.1,
            vmaStack := st.1, vmaHeap := h.1 } := by
  refine ⟨_, _, _, rfl, rfl, rfl, Space.loadFile_machine s task phdrs, ?_, ?_⟩
  · rw [Space.loadFile, linkVma]
    by_cases hiter : (s.loadSegments phdrs 0 0).1.2 ≠ 0
    · simp only [if_pos hiter]
      rfl
    · simp only [if_neg hiter]
      rfl
  · rw [Space.loadFile]
    by_cases hiter : (s.loadSegments phdrs 0 0).1.2 ≠ 0
    · simp only [if_pos hiter]
      exact Function.update_self ..
    · simp only [if_neg hiter]
      exact Function.update_self ..

/-- User memory once heap and stack have their first page. -/
def UserMem.withHeapStack (μ : UserMem) : UserMem :=
  (μ.zeroPages (pageIndex heapStart) 1).zeroPages (pageIndex stackStart) 1

theorem UserMem.withHeapStack_below (μ : UserMem) {a : Nat} (ha : a < heapStart.toNat) :
    μ.withHeapStack a = μ a := by
  have hheap : pageIndex heapStart = 2 ^ 15 := rfl
  have hstack : pageIndex stackStart = 0xF0000 := rfl
  rw [Elf64Phdr.heapStart_toNat] at ha
  rw [withHeapStack, zeroPages_apply, if_neg (by omega), zeroPages_apply, if_neg (by omega)]

/-- What `load_file` leaves: the memory, the list of areas that ends in the
heap, and the stack in a node of its own. -/
theorem Loading.loadFile (hs : InUse roots s.machine K) (task : Task) {phdrs : List Elf64Phdr}
    (hlow : ∀ p ∈ phdrs.filter (·.pType = 1), p.Low)
    (hlog : (0 : Word) ∉ (s.loadFile task (some phdrs)).2.machine.log) :
    ∃ nodes mm, (s.loadFile task (some phdrs)).2.mm task.processMm = mm ∧
      Shows roots (s.machine.entryAt s.machine.cr3) (s.loadFile task (some phdrs)).2.machine
        (UserMem.loadSegments (fun _ => none) (phdrs.filter (·.pType = 1))).withHeapStack
        (mm.vmaStack :: (nodes ++ K)) ∧
      VmaList (s.loadFile task (some phdrs)).2.vma mm.vmaMap mm.vmaMapIter nodes ∧
      SnowOs.areas (s.loadFile task (some phdrs)).2.vma nodes
        = (phdrs.filter (·.pType = 1)).map Elf64Phdr.area ++ [heapArea] ∧
      mm.vmaHeap = mm.vmaMapIter ∧ mm.vmaStack ∉ nodes ∧
      (s.loadFile task (some phdrs)).2.vma mm.vmaStack = stackArea.toStruct := by
  obtain ⟨segs, h, st, hsegs, hh, hst, hmachine, hvma, hmm⟩ := loadFile_structs s task phdrs
  have hstart : Loading roots K _ s (fun _ => none) 0 0 [] [] := ⟨hs.shows, ⟨rfl, rfl⟩, rfl⟩
  rw [hmachine] at hlog ⊢
  have hlog₃ : (0 : Word) ∉ st.2.log := fun hmem => hlog ((mapPages_log_suffix ..).subset hmem)
  have hlog₂ : (0 : Word) ∉ (h.2.mapPages 1 heapStart).log := by
    rw [← hst] at hlog₃
    exact fun hmem => hlog₃ ((kmalloc_log_suffix ..).subset hmem)
  have hlog₁ : (0 : Word) ∉ h.2.log := fun hmem => hlog₂ ((mapPages_log_suffix ..).subset hmem)
  have hlog₀ : (0 : Word) ∉ segs.2.machine.log := by
    rw [← hh] at hlog₁
    exact fun hmem => hlog₁ ((kmalloc_log_suffix ..).subset hmem)
  rw [← hsegs] at hlog₀
  obtain ⟨nodes, hload⟩ := hstart.loadSegments hlow hlog₀
  rw [hsegs, List.nil_append] at hload
  rw [← hh] at hlog₁
  obtain ⟨hnew, hne, hshows⟩ := hload.shows.kmalloc_new noOfPages_vmaStruct hlog₁
  rw [hh] at hnew hne hshows
  have hheap := hshows.mapPages (by decide) hlog₂
  have hlink : Loading roots K _
      { segs.2 with
        machine := h.2.mapPages 1 heapStart
        vma := linkVma segs.2.vma segs.1.2 h.1 heapArea.toStruct } _ _ _ _ _ :=
    hload.link hne hnew rfl hheap rfl
  rw [← hst] at hlog₃
  obtain ⟨hnew', hne', hshows'⟩ := hlink.shows.kmalloc_new noOfPages_vmaStruct hlog₃
  rw [hst] at hnew' hne' hshows'
  have hstack := hshows'.mapPages (by decide) hlog
  have hnodes : st.1 ∉ nodes ++ [h.1] := fun hmem => hnew' (List.mem_append_left _ hmem)
  have hframe : ∀ b ∈ nodes ++ [h.1],
      Function.update (linkVma segs.2.vma segs.1.2 h.1 heapArea.toStruct) st.1
        stackArea.toStruct b = linkVma segs.2.vma segs.1.2 h.1 heapArea.toStruct b :=
    fun b hb => Function.update_of_ne (ne_of_mem_of_not_mem hb hnodes) _ _
  obtain ⟨hlist, hareas⟩ := hlink.list.frame hframe
  refine ⟨nodes ++ [h.1], _, hmm, hstack, ?_, ?_, rfl, hnodes, ?_⟩
  · rw [hvma]
    exact hlist
  · rw [hvma, hareas, hlink.areas]
    rfl
  · rw [hvma, Function.update_self]

end Loading

/-! ## The image in memory -/

namespace Image

/-- An image whose segments have no more bytes in the file than in memory,
end below the heap and share no page, in ascending order. -/
structure Loadable (image : Image) : Prop where
  filesz : ∀ p ∈ image.loads, (image.pFilesz p).toNat ≤ (image.pMemsz p).toNat
  below : ∀ p ∈ image.loads,
    (image.pVaddr p).toNat + (image.pMemsz p).toNat ≤ heapStart.toNat
  apart : image.loads.Pairwise fun p q => ∀ i < (image.pMemsz p).toNat,
    ((image.pVaddr p).toNat + i) / 4096 < (image.pVaddr q).toNat / 4096

/-- What is to be there once the image is loaded for the task. -/
structure Loaded (image : Image) (task : Task) (regs : UserRegs) (s : Space) : Prop where
  bytes : ∀ p ∈ image.loads, ∀ i < (image.pMemsz p).toNat,
    s.machine.readByte s.machine.cr3 (image.pVaddr p + BitVec.ofNat 64 i)
      = some (if i < (image.pFilesz p).toNat then image (image.pOffset p + BitVec.ofNat 64 i)
          else 0)
  rip : regs.rip = image.eEntry
  map : ∃ nodes, VmaList s.vma (s.mm task.processMm).vmaMap (s.mm task.processMm).vmaMapIter nodes ∧
    areas s.vma nodes = image.loads.map (fun p => (image.phdrAt p).area) ++ [heapArea]
  heap : (s.mm task.processMm).vmaHeap = (s.mm task.processMm).vmaMapIter

theorem copyCount_of_lt {bytes : Word} (h : bytes.toNat < 2 ^ 31) :
    copyCount bytes = bytes.toNat := by
  have hset : (bytes.setWidth 32).toNat = bytes.toNat := by
    rw [BitVec.toNat_setWidth, Nat.mod_eq_of_lt (by omega)]
  rw [copyCount, BitVec.toInt_eq_toNat_of_lt (by omega), Int.toNat_natCast, hset]

theorem filter_phdrs (image : Image) :
    (image.headers.map image.phdrAt).filter (·.pType = 1) = image.loads.map image.phdrAt := by
  rw [List.filter_map]
  rfl

variable {image : Image}

/-- The copy is not cut short by the `int` parameter of `memcpy`. -/
theorem copyCount_of_below {p : Word}
    (hfilesz : (image.pFilesz p).toNat ≤ (image.pMemsz p).toNat)
    (hbelow : (image.pVaddr p).toNat + (image.pMemsz p).toNat ≤ heapStart.toNat) :
    Image.copyCount (image.pFilesz p) = (image.pFilesz p).toNat := by
  rw [Elf64Phdr.heapStart_toNat] at hbelow
  exact copyCount_of_lt (by omega)

theorem low_of_below {p : Word} (hfilesz : (image.pFilesz p).toNat ≤ (image.pMemsz p).toNat)
    (hbelow : (image.pVaddr p).toNat + (image.pMemsz p).toNat ≤ heapStart.toNat) :
    (image.phdrAt p).Low := by
  refine ⟨?_, hbelow⟩
  rw [phdrAt, ByteMemory.bytes, List.length_map, List.length_range,
    copyCount_of_below hfilesz hbelow]
  exact hfilesz

theorem Loadable.low (h : image.Loadable) : ∀ q ∈ image.loads.map image.phdrAt, q.Low := by
  intro q hq
  obtain ⟨p, hp, rfl⟩ := List.mem_map.mp hq
  exact low_of_below (h.filesz p hp) (h.below p hp)

theorem Loadable.before (h : image.Loadable) :
    (image.loads.map image.phdrAt).Pairwise Elf64Phdr.Before :=
  List.pairwise_map.mpr h.apart

theorem Loadable.contents (h : image.Loadable) {p : Word} (hp : p ∈ image.loads) (i : Nat) :
    (image.phdrAt p).contents[i]?.getD 0
      = if i < (image.pFilesz p).toNat then image (image.pOffset p + BitVec.ofNat 64 i) else 0 := by
  rw [phdrAt, ByteMemory.bytes, List.getElem?_map,
    copyCount_of_below (h.filesz p hp) (h.below p hp)]
  split
  · rename_i hi
    rw [List.getElem?_range hi]
    rfl
  · rename_i hi
    rw [List.getElem?_eq_none (by rw [List.length_range]; omega)]
    rfl

/-- **Every segment is in memory when `load_file` returns**, although each one
maps pages behind its end, and the list of areas is that of the headers. -/
theorem Loadable.loaded (himage : image.Loadable) {roots : List Word} {s : Space}
    (hs : Sound roots s.machine) (task : Task) (regs : UserRegs)
    (hserved : (0 : Word) ∉ (s.loadImage task regs (some image)).2.2.machine.log) :
    (s.loadImage task regs (some image)).1 = 0 ∧
      image.Loaded task (s.loadImage task regs (some image)).2.1
        (s.loadImage task regs (some image)).2.2 := by
  have hlow := himage.low
  have hbefore := himage.before
  rw [← filter_phdrs] at hlow hbefore
  obtain ⟨lab, l, hF⟩ := hs
  obtain ⟨nodes, mm, hmm, hshows, hlist, hareas, hheap, -, -⟩ :=
    Loading.loadFile hF.inUse task hlow hserved
  refine ⟨rfl, fun p hp i hi => ?_, rfl, ⟨nodes, ?_, ?_⟩, ?_⟩
  · have hbelow := himage.below p hp
    have hend : (image.pVaddr p + BitVec.ofNat 64 i).toNat = (image.pVaddr p).toNat + i := by
      rw [Elf64Phdr.heapStart_toNat] at hbelow
      rw [BitVec.toNat_add, BitVec.toNat_ofNat]
      omega
    have hmem : image.phdrAt p ∈ (image.headers.map image.phdrAt).filter (·.pType = 1) := by
      rw [filter_phdrs]
      exact List.mem_map_of_mem hp
    refine hshows.readByte ?_
    rw [virtual_of_lt (by rw [Elf64Phdr.heapStart_toNat] at hbelow; omega), hend,
      UserMem.withHeapStack_below _ (by omega), ← himage.contents hp]
    exact UserMem.loadSegments_bytes hlow hbefore _ hmem hi
  · rw [Space.loadImage, hmm]
    exact hlist
  · rw [Space.loadImage, hareas, filter_phdrs, List.map_map]
    rfl
  · rw [Space.loadImage, hmm]
    exact hheap

/-- Two segments on adjacent pages: text at 0x400000, data at 0x401000. The
page behind the text is mapped for both. -/
def twoSegments : Image := fun a =>
  let header : List (Nat × Byte) := [(26, 0x40), (32, 64), (56, 2),
    (64, 1), (68, 5), (73, 2), (82, 0x40), (96, 8), (104, 16),
    (120, 1), (124, 6), (128, 8), (129, 2), (137, 0x10), (138, 0x40), (152, 4), (160, 8)]
  (header.lookup a.toNat).getD (if a.toNat < 512 then 0 else BitVec.ofNat 8 (a.toNat + 1))

theorem twoSegments_loads : twoSegments.loads = [64, 120] := by decide +kernel

theorem twoSegments_fields :
    (twoSegments.pVaddr 64, twoSegments.pFilesz 64, twoSegments.pMemsz 64) = (0x400000, 8, 16) ∧
      (twoSegments.pVaddr 120, twoSegments.pFilesz 120, twoSegments.pMemsz 120)
        = (0x401000, 4, 8) := by
  decide +kernel

theorem twoSegments_loadable : twoSegments.Loadable := by
  obtain ⟨htext, hdata⟩ := twoSegments_fields
  simp only [Prod.mk.injEq] at htext hdata
  obtain ⟨hv, hf, hm⟩ := htext
  obtain ⟨hv', hf', hm'⟩ := hdata
  refine ⟨?_, ?_, ?_⟩
  · rw [twoSegments_loads, List.forall_mem_cons, List.forall_mem_singleton, hf, hm, hf', hm']
    decide
  · rw [twoSegments_loads, List.forall_mem_cons, List.forall_mem_singleton, hv, hm, hv', hm']
    decide
  · rw [twoSegments_loads, List.pairwise_pair, hv, hm, hv']
    decide

theorem twoSegments_frames :
    Space.segmentFrames (twoSegments.headers.map twoSegments.phdrAt) = 24 := by
  decide +kernel

theorem twoSegments_account {s : Space} {total used : Nat} (task : Task)
    (hacc : s.machine.Account total used) (hfit : used + 49 ≤ total) :
    (s.loadFile task (some (twoSegments.headers.map twoSegments.phdrAt))).2.machine.Account total
      (used + 40) := by
  have hsegs := Space.loadSegments_account 0 0 hacc
    (show used + Space.segmentFrames (twoSegments.headers.map twoSegments.phdrAt) + 9 ≤ total by
      rw [twoSegments_frames]
      omega)
  rw [twoSegments_frames] at hsegs
  exact Space.loadFile_account task hsegs hfit

theorem loaded_twoSegments :
    ((bootSpace 0x2000 0x200000).loadImage { cr3 := 0x1000, processMm := 0 }
        { rip := 0, rspUser := 0 } (some twoSegments)).1 = 0 ∧
      twoSegments.Loaded { cr3 := 0x1000, processMm := 0 }
        ((bootSpace 0x2000 0x200000).loadImage { cr3 := 0x1000, processMm := 0 }
          { rip := 0, rspUser := 0 } (some twoSegments)).2.1
        ((bootSpace 0x2000 0x200000).loadImage { cr3 := 0x1000, processMm := 0 }
          { rip := 0, rspUser := 0 } (some twoSegments)).2.2 := by
  have hboot : Sound [0x1000] (bootSpace 0x2000 0x200000).machine :=
    ⟨_, _, bootMachine_forest oneProcess_region (by decide)⟩
  have hstart : (bootSpace 0x2000 0x200000).machine.Account 511 1 :=
    bootMachine_account oneProcess_region (by decide)
  have hacc := twoSegments_account { cr3 := 0x1000, processMm := 0 } hstart (by decide)
  exact twoSegments_loadable.loaded hboot _ _ hacc.log

end Image

end SnowOs
