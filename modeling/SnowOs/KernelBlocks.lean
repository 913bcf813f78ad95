import SnowOs.Ownership

/-!
# What the kernel's structures point to

The code that takes a process down frees the pages between `start` and
`end` of each VMA, each VMA, and the `mm_struct`. Whether that is safe
depends on what these structures hold. `Space.Ok`: every pointer in them
is a block of the kernel heap, and every range ends in the user half.

The second half is not obvious. `user_malloc` starts a range where the
last one ends and takes any 64-bit size, so ranges can be made to climb;
but a range that grows upwards has been mapped page by page, and every page
took a frame. The bound therefore moves with the number of frames handed
out (`limit`), of which there are few. A size that wraps around only moves
the end down.
-/

namespace SnowOs

open Machine

/-! ## Blocks -/

section Block

variable {m m' : Machine} {p : Word}

theorem Block.mono (h : Block m p) (hlog : m.log <:+ m'.log) : Block m' p :=
  h.imp id fun ⟨f, hf, heq⟩ => ⟨f, hlog.subset hf, heq⟩

theorem block_zero (m : Machine) : Block m 0 := Or.inl rfl

theorem mapPages_log_suffix (m : Machine) (n : Nat) (v : Word) : m.log <:+ (m.mapPages n v).log :=
  (show Work [] m [] _ from work_mapPages n v).log_suffix

theorem mapWhile_log_suffix (m : Machine) (fuel : Nat) (a b : Word) :
    m.log <:+ (m.mapWhile fuel a b).log :=
  (show Work [] m [] _ from work_mapWhile fuel a b).log_suffix

theorem kmallocPages_mem_log : ∀ (is : List Nat) (r : Word × Machine), r.1 ∈ r.2.log →
    (∀ i ∈ is, i ≠ 0) → (is.foldl kmallocPage r).1 ∈ (is.foldl kmallocPage r).2.log
  | [], _, h, _ => h
  | i :: is, r, h, his => by
      have hfirst : (kmallocPage r i).1 = r.1 := if_neg (his i (List.mem_cons_self ..))
      have hlog : r.2.log <:+ (kmallocPage r i).2.log := by
        rw [kmallocPage_snd]
        exact mapFresh_log_suffix ..
      refine kmallocPages_mem_log is _ ?_ fun j hj => his j (List.mem_cons_of_mem _ hj)
      rw [hfirst]
      exact hlog.subset h

theorem kmalloc_block (m : Machine) {n : BitVec 32} (hn : 0 < noOfPages n) :
    Block (m.kmalloc n).2 (m.kmalloc n).1 := by
  obtain ⟨k, hk⟩ : ∃ k, noOfPages n = k + 1 := ⟨noOfPages n - 1, by omega⟩
  have hfirst : (kmallocPage (0, m) 0).1 ∈ (kmallocPage (0, m) 0).2.log := by
    rw [kmallocPage_snd]
    exact (mapFresh_drawn_suffix ..).subset (List.mem_cons_self ..)
  refine Or.inr ⟨_, ?_, rfl⟩
  rw [kmalloc, hk, List.range_succ_eq_map, List.foldl_cons]
  refine kmallocPages_mem_log _ _ hfirst fun i hi => ?_
  obtain ⟨j, -, rfl⟩ := List.mem_map.mp hi
  exact Nat.succ_ne_zero j

end Block

/-! ## The structures -/

/-- Where VMAs end: the highest address a file is loaded to, and a page
for every frame handed out. -/
def limit (m : Machine) : Nat := 2 ^ 46 + 4096 * m.log.length

structure VmaOk (m : Machine) (v : VmaStruct) : Prop where
  next : Block m v.next
  start : v.start.toNat ≤ limit m
  stop : v.stop.toNat ≤ limit m

structure MmOk (m : Machine) (v : MmStruct) : Prop where
  vmaMap : Block m v.vmaMap
  vmaStack : Block m v.vmaStack

theorem limit_mono {m m' : Machine} (hlog : m.log <:+ m'.log) : limit m ≤ limit m' := by
  have := hlog.length_le
  rw [limit, limit]
  omega

theorem VmaOk.mono {m m' : Machine} {v : VmaStruct} (h : VmaOk m v) (hlog : m.log <:+ m'.log) :
    VmaOk m' v :=
  ⟨h.next.mono hlog, h.start.trans (limit_mono hlog), h.stop.trans (limit_mono hlog)⟩

theorem VmaOk.setNext {m : Machine} {v : VmaStruct} (h : VmaOk m v) {p : Word} (hp : Block m p) :
    VmaOk m { v with next := p } := ⟨hp, h.start, h.stop⟩

/-- A range below the highest address a file is loaded to. -/
theorem vmaOk_low {m : Machine} {v : VmaStruct} (hnext : Block m v.next)
    (hstart : v.start.toNat ≤ 2 ^ 46) (hstop : v.stop.toNat ≤ 2 ^ 46) : VmaOk m v :=
  ⟨hnext, hstart.trans (Nat.le_add_right ..), hstop.trans (Nat.le_add_right ..)⟩

namespace Space

/-- All structures of the kernel heap are in order. -/
structure Ok (s : Space) : Prop where
  vma : ∀ p, VmaOk s.machine (s.vma p)
  mm : ∀ p, MmOk s.machine (s.mm p)

/-- A header `load_file` can load: its range ends low in the user half, and
so do the bytes of the file. -/
structure Elf64Phdr.Loadable (phdr : Elf64Phdr) : Prop where
  contents : phdr.InUserHalf
  range : phdr.pVaddr.toNat + phdr.pMemsz.toNat ≤ 2 ^ 46

/-- A file that is missing or has loadable headers only. -/
def Loadable (file : Option (List Elf64Phdr)) : Prop :=
  ∀ phdrs, file = some phdrs → ∀ p ∈ phdrs, p.Loadable

theorem Loadable.inUserHalf {file : Option (List Elf64Phdr)} (h : Loadable file) :
    ∀ phdrs, file = some phdrs → ∀ p ∈ phdrs, p.InUserHalf :=
  fun phdrs hfile p hp => (h phdrs hfile p hp).contents

theorem loadable_nil : Loadable (some []) := by
  intro phdrs heq p hp
  rw [← Option.some.inj heq] at hp
  cases hp

section Ok

variable {s : Space} {m : Machine} {p : Word}

theorem Ok.setMachine (h : s.Ok) (hlog : s.machine.log <:+ m.log) : (s.setMachine m).Ok :=
  ⟨fun p => (h.vma p).mono hlog,
    fun p => ⟨(h.mm p).vmaMap.mono hlog, (h.mm p).vmaStack.mono hlog⟩⟩

theorem Ok.setVma (h : s.Ok) {v : VmaStruct} (hv : VmaOk s.machine v) : (s.setVma p v).Ok := by
  refine ⟨fun p' => ?_, h.mm⟩
  show VmaOk s.machine (Function.update s.vma p v p')
  rw [Function.update_apply]
  split
  · exact hv
  · exact h.vma p'

theorem Ok.setMm (h : s.Ok) {v : MmStruct} (hv : MmOk s.machine v) : (s.setMm p v).Ok := by
  refine ⟨h.vma, fun p' => ?_⟩
  show MmOk s.machine (Function.update s.mm p v p')
  rw [Function.update_apply]
  split
  · exact hv
  · exact h.mm p'

theorem kmalloc_log_suffix (s : Space) (n : BitVec 32) :
    s.machine.log <:+ (s.kmalloc n).2.machine.log := Machine.kmalloc_log_suffix s.machine n

theorem Ok.kmalloc (h : s.Ok) (n : BitVec 32) : (s.kmalloc n).2.Ok :=
  h.setMachine (s.kmalloc_log_suffix n)

theorem kmalloc_block (s : Space) {n : BitVec 32} (hn : 0 < noOfPages n) :
    Block (s.kmalloc n).2.machine (s.kmalloc n).1 := SnowOs.kmalloc_block s.machine hn

/-! ## `copy_process` -/

/-- What `kmalloc` and the loops that copy VMAs leave: the structures in order,
and the result a block. -/
structure Copies (s : Space) (head : Word) (s' : Space) : Prop where
  ok : s'.Ok
  head : Block s'.machine head
  log : s.machine.log <:+ s'.machine.log

theorem Ok.copyNode (h : s.Ok) {v : VmaStruct} (hv : VmaOk s.machine v) (cIter : Word) {r : Word}
    (hr : Block s.machine r) :
    (if cIter ≠ 0 then (s.setVma r v).setVma cIter { (s.setVma r v).vma cIter with next := r }
      else s.setVma r v).Ok := by
  have hset := h.setVma (p := r) hv
  split
  · exact hset.setVma ((hset.vma cIter).setNext hr)
  · exact hset

theorem Ok.kmalloc_copies (h : s.Ok) {n : BitVec 32} (hn : 0 < noOfPages n) :
    s.Copies (s.kmalloc n).1 (s.kmalloc n).2 :=
  ⟨h.kmalloc n, s.kmalloc_block hn, s.kmalloc_log_suffix n⟩

theorem Copies.after {s s₁ s' : Space} {head : Word} (h : s₁.Copies head s')
    (hlog : s.machine.log <:+ s₁.machine.log) : s.Copies head s' :=
  ⟨h.ok, h.head, hlog.trans h.log⟩

theorem copyVmaMap_copies (vmaHeap : Word) : ∀ (fuel : Nat) {pVma cMap cIter : Word} {s : Space},
    s.Ok → Block s.machine cMap →
    s.Copies (s.copyVmaMap fuel pVma vmaHeap cMap cIter).1.1
      (s.copyVmaMap fuel pVma vmaHeap cMap cIter).2
  | 0, _, _, _, _, h, hmap => ⟨h, hmap, List.suffix_refl _⟩
  | fuel + 1, pVma, cMap, cIter, s, h, hmap => by
      rw [copyVmaMap]
      split
      swap
      · exact ⟨h, hmap, List.suffix_refl _⟩
      obtain ⟨hk, hblock, hlog⟩ := h.kmalloc_copies (n := sizeofVmaStruct) (by decide)
      generalize s.kmalloc sizeofVmaStruct = r at hblock hlog hk ⊢
      have hnode := hk.copyNode ((hk.vma pVma).setNext (block_zero _)) cIter hblock
      by_cases hiter : cIter ≠ 0
      · simp only [if_pos hiter] at hnode ⊢
        exact (copyVmaMap_copies vmaHeap fuel hnode (hmap.mono hlog)).after hlog
      · simp only [if_neg hiter] at hnode ⊢
        exact (copyVmaMap_copies vmaHeap fuel hnode hblock).after hlog

theorem copyVmaHeap_copies : ∀ (fuel : Nat) {pVma cHeap cIter : Word} {s : Space},
    s.Ok → Block s.machine cHeap →
    s.Copies (s.copyVmaHeap fuel pVma cHeap cIter).1 (s.copyVmaHeap fuel pVma cHeap cIter).2
  | 0, _, _, _, _, h, hheap => ⟨h, hheap, List.suffix_refl _⟩
  | fuel + 1, pVma, cHeap, cIter, s, h, hheap => by
      rw [copyVmaHeap]
      split
      swap
      · exact ⟨h, hheap, List.suffix_refl _⟩
      obtain ⟨hk, hblock, hlog⟩ := h.kmalloc_copies (n := sizeofVmaStruct) (by decide)
      generalize s.kmalloc sizeofVmaStruct = r at hblock hlog hk ⊢
      have hnode := hk.copyNode (hk.vma pVma) cIter hblock
      by_cases hiter : cIter ≠ 0
      · simp only [if_pos hiter] at hnode ⊢
        exact (copyVmaHeap_copies fuel hnode (hheap.mono hlog)).after hlog
      · simp only [if_neg hiter] at hnode ⊢
        exact (copyVmaHeap_copies fuel hnode hblock).after hlog

theorem Ok.copyMm (h : s.Ok) (fuel : Nat) (parentTask : Task) :
    s.Copies (s.copyMm fuel parentTask).1 (s.copyMm fuel parentTask).2 := by
  rw [Space.copyMm]
  obtain ⟨hk, hblock, hlog⟩ := h.kmalloc_copies (n := sizeofMmStruct) (by decide)
  generalize s.kmalloc sizeofMmStruct = k at hblock hlog hk ⊢
  have hs₁ := hk.setMm (p := k.1) (hk.mm parentTask.processMm)
  have hlog₁ : s.machine.log
      <:+ (k.2.setMm k.1 (k.2.mm parentTask.processMm)).machine.log := hlog
  have hblock₁ : Block (k.2.setMm k.1 (k.2.mm parentTask.processMm)).machine k.1 := hblock
  generalize k.2.setMm k.1 (k.2.mm parentTask.processMm) = s₁ at hs₁ hlog₁ hblock₁ ⊢
  obtain ⟨ha, hmap, hlog₂⟩ := @copyVmaMap_copies (s₁.mm parentTask.processMm).vmaHeap fuel
    (s₁.mm parentTask.processMm).vmaMap 0 0 s₁ hs₁ (block_zero _)
  generalize s₁.copyVmaMap fuel (s₁.mm parentTask.processMm).vmaMap
    (s₁.mm parentTask.processMm).vmaHeap 0 0 = a at ha hmap hlog₂ ⊢
  have hs₂ := ha.setMm (p := k.1)
    (v := { a.2.mm k.1 with vmaMap := a.1.1, vmaMapIter := a.1.2 }) ⟨hmap, (ha.mm k.1).vmaStack⟩
  have hlog₂' : s₁.machine.log <:+ (a.2.setMm k.1
    { a.2.mm k.1 with vmaMap := a.1.1, vmaMapIter := a.1.2 }).machine.log := hlog₂
  generalize a.2.setMm k.1 { a.2.mm k.1 with vmaMap := a.1.1, vmaMapIter := a.1.2 } = s₂
    at hs₂ hlog₂' ⊢
  obtain ⟨hb, -, hlog₃⟩ := @copyVmaHeap_copies fuel (s₂.mm parentTask.processMm).vmaHeap 0 0 s₂
    hs₂ (block_zero _)
  generalize s₂.copyVmaHeap fuel (s₂.mm parentTask.processMm).vmaHeap 0 0 = b at hb hlog₃ ⊢
  have hs₃ := hb.setMm (p := k.1) (v := { b.2.mm k.1 with vmaHeap := b.1 })
    ⟨(hb.mm k.1).vmaMap, (hb.mm k.1).vmaStack⟩
  have hlog₃' : s₂.machine.log
    <:+ (b.2.setMm k.1 { b.2.mm k.1 with vmaHeap := b.1 }).machine.log := hlog₃
  generalize b.2.setMm k.1 { b.2.mm k.1 with vmaHeap := b.1 } = s₃ at hs₃ hlog₃' ⊢
  obtain ⟨hs₄, hst, hlog₄⟩ := hs₃.kmalloc_copies (n := sizeofVmaStruct) (by decide)
  generalize s₃.kmalloc sizeofVmaStruct = st at hst hlog₄ hs₄ ⊢
  have hs₅ := hs₄.setVma (p := st.1) (hs₄.vma (st.2.mm parentTask.processMm).vmaStack)
  have hgrow : s₁.machine.log <:+ st.2.machine.log := (hlog₂'.trans hlog₃').trans hlog₄
  exact ⟨hs₅.setMm ⟨(hs₅.mm k.1).vmaMap, hst⟩, hblock₁.mono hgrow, hlog₁.trans hgrow⟩

theorem fork_parts (fuel : Nat) (s : Space) (parentTask : Task) :
    ∃ s₁ c k, (s.kmalloc sizeofKthread).2 = s₁ ∧ s₁.machine.cowPageTables = c ∧
      (s₁.setMachine (c.2.setNewCr3 c.1)).copyMm fuel parentTask = k ∧
      s.fork fuel parentTask = ({ cr3 := c.1, processMm := k.1 },
        k.2.setMachine (k.2.machine.setNewCr3 parentTask.cr3)) :=
  ⟨_, _, _, rfl, rfl, rfl, rfl⟩

theorem Ok.fork (h : s.Ok) (fuel : Nat) (parentTask : Task) :
    (s.fork fuel parentTask).2.Ok ∧
      Block (s.fork fuel parentTask).2.machine (s.kmalloc sizeofKthread).1 ∧
      Block (s.fork fuel parentTask).2.machine (s.fork fuel parentTask).1.processMm := by
  have hkthread := s.kmalloc_block (n := sizeofKthread) (by decide)
  have h₁ := h.kmalloc sizeofKthread
  obtain ⟨s₁, c, k, hs₁, hc, hk, heq⟩ := fork_parts fuel s parentTask
  rw [hs₁] at hkthread h₁
  have hpass : s₁.machine.log <:+ (c.2.setNewCr3 c.1).log := by
    have hsuf := s₁.machine.cowPageTables_log_suffix
    rw [hc] at hsuf
    exact hsuf
  obtain ⟨hok, hhead, hlog⟩ := (h₁.setMachine hpass).copyMm fuel parentTask
  rw [hk] at hok hhead hlog
  rw [heq]
  exact ⟨hok.setMachine (List.suffix_refl _), hkthread.mono (hpass.trans hlog), hhead⟩

/-! ## `user_malloc` -/

/-- The rounds of the loop are paid for: a page further is a frame more. -/
theorem mapWhile_paid : ∀ (fuel : Nat) (a b : Word) (m : Machine),
    b.toNat ≤ a.toNat + 4096 * fuel →
    b.toNat + 4096 * m.log.length ≤ a.toNat + 4096 * (m.mapWhile fuel a b).log.length
  | 0, a, b, m, h => by
      rw [mapWhile]
      omega
  | fuel + 1, a, b, m, h => by
      rw [mapWhile]
      split
      swap
      · rename_i hlt
        rw [BitVec.lt_def] at hlt
        omega
      show b.toNat + 4096 * m.log.length ≤ a.toNat + 4096 *
        ((m.mapFresh a userRwFlags).mapWhile fuel (a + pageSize) b).log.length
      have hfresh : m.log.length + 1 ≤ (m.mapFresh a userRwFlags).log.length :=
        (mapFresh_drawn_suffix ..).length_le
      generalize m.mapFresh a userRwFlags = m₁ at hfresh ⊢
      have hgrow := (mapWhile_log_suffix m₁ fuel (a + pageSize) b).length_le
      have hb := b.isLt
      by_cases hwrap : a.toNat + 4096 < 2 ^ 64
      · have hnext : (a + pageSize).toNat = a.toNat + 4096 := by
          rw [BitVec.toNat_add, pageSize_toNat]
          omega
        have ih := mapWhile_paid fuel (a + pageSize) b m₁ (by omega)
        omega
      · omega

/-- The end of a new range, at most the pages of the request above its
start. -/
theorem endAlloc_le (a bytes : Word) :
    (if bytes % pageSize = 0 then a + bytes
      else a + (bytes / pageSize + 1) * pageSize).toNat
      ≤ a.toNat + 4096 * (bytes.toNat / 4096 + 1) := by
  split
  · rw [BitVec.toNat_add]
    omega
  · rw [BitVec.toNat_add, BitVec.toNat_mul, BitVec.toNat_add, BitVec.toNat_udiv, pageSize_toNat]
    have hone : BitVec.toNat (1 : Word) = 1 := rfl
    rw [hone]
    omega

theorem Ok.userMalloc (h : s.Ok) (task : Task) (bytes : Word) :
    (s.userMalloc task bytes).2.Ok := by
  have hblock := s.kmalloc_block (n := sizeofVmaStruct) (by decide)
  have hlog := s.kmalloc_log_suffix sizeofVmaStruct
  let iter := (s.mm task.processMm).vmaMapIter
  let start := (s.vma iter).stop
  let stop := if bytes % pageSize = 0 then start + bytes
    else start + (bytes / pageSize + 1) * pageSize
  let r := s.kmalloc sizeofVmaStruct
  let m' := r.2.machine.mapWhile (bytes.toNat / 4096 + 1) start stop
  have hwhile : r.2.machine.log <:+ m'.log := mapWhile_log_suffix ..
  have hpaid := mapWhile_paid (bytes.toNat / 4096 + 1) start stop r.2.machine
    (endAlloc_le start bytes)
  have hlen : s.machine.log.length ≤ r.2.machine.log.length := hlog.length_le
  have hstart := (h.vma iter).stop
  -- the structures are assigned before the loop runs, to the same effect
  have hok : (s.setMachine m').Ok := h.setMachine (hlog.trans hwhile)
  have hrange : VmaOk m'
      { s.vma r.1 with start := start, stop := stop, next := 0 } := by
    refine ⟨block_zero _, hstart.trans (limit_mono (hlog.trans hwhile)), ?_⟩
    show stop.toNat ≤ limit m'
    have hend : stop.toNat + 4096 * r.2.machine.log.length
      ≤ start.toNat + 4096 * m'.log.length := hpaid
    have hbase : start.toNat ≤ 2 ^ 46 + 4096 * s.machine.log.length := hstart
    rw [limit]
    omega
  have hnew := hok.setVma (p := r.1) hrange
  have hlink := hnew.setVma (p := iter) ((hnew.vma iter).setNext (hblock.mono hwhile))
  exact hlink.setMm (p := task.processMm)
    ⟨(hlink.mm task.processMm).vmaMap, (hlink.mm task.processMm).vmaStack⟩

/-! ## `load_file` -/

theorem Elf64Phdr.Loadable.vmaOk {phdr : Elf64Phdr} (h : phdr.Loadable) {v : VmaStruct}
    (hnext : Block m v.next) (hstart : v.start = phdr.pVaddr)
    (hstop : v.stop = phdr.pVaddr + phdr.pMemsz) : VmaOk m v := by
  have hrange := h.range
  refine vmaOk_low hnext ?_ ?_
  · rw [hstart]
    omega
  · rw [hstop, BitVec.toNat_add]
    omega

theorem Ok.loadSegment (h : s.Ok) {phdr : Elf64Phdr} (hphdr : phdr.Loadable) {vmaMap : Word}
    (hmap : Block s.machine vmaMap) (vmaMapIter : Word) :
    s.Copies (s.loadSegment phdr vmaMap vmaMapIter).1.1
      (s.loadSegment phdr vmaMap vmaMapIter).2 := by
  obtain ⟨hk, hblock, hlog⟩ := h.kmalloc_copies (n := sizeofVmaStruct) (by decide)
  rw [Space.loadSegment]
  generalize s.kmalloc sizeofVmaStruct = r at hblock hlog hk ⊢
  generalize (((phdr.pVaddr + phdr.pMemsz) / pageSize + 1) * pageSize
    - phdr.pVaddr / pageSize * pageSize) / pageSize = pages
  generalize hm : (r.2.machine.mapPages (pages + 1).toNat
    (phdr.pVaddr / pageSize * pageSize)).storeBytes phdr.pVaddr phdr.contents = m'
  have hload : r.2.machine.log <:+ m'.log := by
    rw [← hm]
    have hstore : Work [] (r.2.machine.mapPages (pages + 1).toNat
        (phdr.pVaddr / pageSize * pageSize)) [] _ := work_storeBytes hphdr.contents
    exact (mapPages_log_suffix ..).trans hstore.log_suffix
  have hset := (hk.setMachine hload).setVma (p := r.1)
    (v := { start := phdr.pVaddr, stop := phdr.pVaddr + phdr.pMemsz,
            type := if phdr.pFlags = 5 then vmaText else if phdr.pFlags = 6 then vmaData
              else vmaUndefined,
            flags := phdr.pFlags.setWidth 64, next := 0 }) (hphdr.vmaOk (block_zero _) rfl rfl)
  rw [← hm] at hload hset
  split
  · exact ⟨hset.setVma ((hset.vma vmaMapIter).setNext (hblock.mono hload)),
      hmap.mono (hlog.trans hload), hlog.trans hload⟩
  · exact ⟨hset, hblock.mono hload, hlog.trans hload⟩

theorem Ok.loadSegments : ∀ {phdrs : List Elf64Phdr} {s : Space} {vmaMap : Word}, s.Ok →
    (∀ p ∈ phdrs, p.Loadable) → Block s.machine vmaMap → ∀ vmaMapIter,
    s.Copies (s.loadSegments phdrs vmaMap vmaMapIter).1.1
      (s.loadSegments phdrs vmaMap vmaMapIter).2
  | [], _, _, h, _, hmap, _ => ⟨h, hmap, List.suffix_refl _⟩
  | phdr :: phdrs, s, vmaMap, h, hphdrs, hmap, vmaMapIter => by
      have hrest := fun p hp => hphdrs p (List.mem_cons_of_mem _ hp)
      rw [Space.loadSegments]
      split
      · obtain ⟨hok, hhead, hlog⟩ :=
          h.loadSegment (hphdrs phdr (List.mem_cons_self ..)) hmap vmaMapIter
        exact (hok.loadSegments hrest hhead _).after hlog
      · exact h.loadSegments hrest hmap vmaMapIter

theorem Ok.loadFile (h : s.Ok) (task : Task) {file : Option (List Elf64Phdr)}
    (hfile : Loadable file) : (s.loadFile task file).2.Ok := by
  cases file with
  | none => exact h
  | some phdrs =>
      obtain ⟨hsegs, hmap, -⟩ := h.loadSegments (hfile phdrs rfl) (block_zero _) 0
      rw [Space.loadFile]
      generalize s.loadSegments phdrs 0 0 = segs at hsegs hmap ⊢
      obtain ⟨hk, hheap, hlog₁⟩ := hsegs.kmalloc_copies (n := sizeofVmaStruct) (by decide)
      generalize segs.2.kmalloc sizeofVmaStruct = r at hheap hlog₁ hk ⊢
      have hnode := hk.copyNode
        (v := { start := heapStart, stop := heapStart + pageSize, type := vmaHeapType, flags := 6 })
        (vmaOk_low (block_zero _) (by decide) (by decide)) segs.1.2 hheap
      have hvmaMap : Block r.2.machine (if segs.1.2 ≠ 0 then segs.1.1 else r.1) := by
        split
        · exact hmap.mono hlog₁
        · exact hheap
      generalize hnode₁ : (if segs.1.2 ≠ 0 then
          (r.2.setVma r.1 { start := heapStart, stop := heapStart + pageSize, type := vmaHeapType,
                            flags := 6 }).setVma segs.1.2
            { (r.2.setVma r.1 { start := heapStart, stop := heapStart + pageSize,
                                type := vmaHeapType, flags := 6 }).vma segs.1.2 with next := r.1 }
          else r.2.setVma r.1 { start := heapStart, stop := heapStart + pageSize,
                                type := vmaHeapType, flags := 6 }) = s₁ at hnode ⊢
      have hmachine : s₁.machine = r.2.machine := by
        rw [← hnode₁]
        split <;> rfl
      generalize (if segs.1.2 ≠ 0 then segs.1.1 else r.1) = vmaMap at hvmaMap ⊢
      have hlog₂ : s₁.machine.log <:+ (s₁.machine.mapPages 1 heapStart).log :=
        mapPages_log_suffix ..
      have hs₂ := hnode.setMachine hlog₂
      obtain ⟨hs₃, hst, hlog₃⟩ := hs₂.kmalloc_copies (n := sizeofVmaStruct) (by decide)
      generalize (s₁.setMachine (s₁.machine.mapPages 1 heapStart)).kmalloc sizeofVmaStruct = st
        at hst hlog₃ hs₃ ⊢
      have hlog₄ : st.2.machine.log <:+ (st.2.machine.mapPages 1 stackStart).log :=
        mapPages_log_suffix ..
      have hs₄ := (hs₃.setMachine hlog₄).setVma (p := st.1)
        (v := { start := stackStart + pageSize - 16, stop := stackStart, type := vmaStackType,
                flags := 6 })
        (vmaOk_low (block_zero _) (by decide) (by decide))
      rw [← hmachine] at hvmaMap
      exact hs₄.setMm (p := task.processMm)
        ⟨hvmaMap.mono (hlog₂.trans (hlog₃.trans hlog₄)), hst.mono hlog₄⟩

theorem loadProcess_parts (s : Space) (file : Option (List Elf64Phdr)) :
    ∃ s₁ r k, (s.kmalloc sizeofKthread).2 = s₁ ∧ s₁.machine.setupUserPageTables = r ∧
      (s₁.setMachine (r.2.setNewCr3 r.1)).kmalloc sizeofMmStruct = k ∧
      s.loadProcess file = ({ cr3 := r.1, processMm := k.1 },
        (k.2.loadFile { cr3 := r.1, processMm := k.1 } file).2) :=
  ⟨_, _, _, rfl, rfl, rfl, rfl⟩

theorem Ok.loadProcess (h : s.Ok) {file : Option (List Elf64Phdr)} (hfile : Loadable file) :
    (s.loadProcess file).2.Ok ∧
      Block (s.loadProcess file).2.machine (s.kmalloc sizeofKthread).1 ∧
      Block (s.loadProcess file).2.machine (s.loadProcess file).1.processMm := by
  have hkthread := s.kmalloc_block (n := sizeofKthread) (by decide)
  have h₁ := h.kmalloc sizeofKthread
  obtain ⟨s₁, r, k, hs₁, hr, hk, heq⟩ := loadProcess_parts s file
  rw [hs₁] at hkthread h₁
  have hroot : s₁.machine.log <:+ (r.2.setNewCr3 r.1).log := by
    rw [← hr]
    exact List.suffix_cons ..
  have hmm := (h₁.setMachine hroot).kmalloc sizeofMmStruct
  have hblock := (s₁.setMachine (r.2.setNewCr3 r.1)).kmalloc_block (n := sizeofMmStruct)
    (by decide)
  have hlog := hroot.trans
    ((s₁.setMachine (r.2.setNewCr3 r.1)).kmalloc_log_suffix sizeofMmStruct)
  rw [hk] at hmm hblock hlog
  have hload : Work [] k.2.machine []
      (k.2.loadFile { cr3 := r.1, processMm := k.1 } file).2.machine :=
    work_loadFile _ hfile.inUserHalf
  rw [heq]
  exact ⟨hmm.loadFile _ hfile, hkthread.mono (hlog.trans hload.log_suffix),
    hblock.mono hload.log_suffix⟩

/-! ## `page_fault_handler` -/

/-- The stack grows towards address 0 and does not reach it. -/
theorem Ok.growStack : ∀ {pages : Nat} {s : Space}, s.Ok → ∀ st,
    4096 * pages ≤ (s.vma st).stop.toNat → (s.growStack pages st).Ok
  | 0, _, h, _, _ => h
  | pages + 1, s, h, st, hroom => by
      have hstop : ((s.vma st).stop - pageSize).toNat = (s.vma st).stop.toNat - 4096 := by
        rw [BitVec.toNat_sub_of_le (by rw [BitVec.le_def, pageSize_toNat]; omega), pageSize_toNat]
      have hold := h.vma st
      have hset := h.setVma (p := st) (v := { s.vma st with stop := (s.vma st).stop - pageSize })
        ⟨hold.next, hold.start, by
          show ((s.vma st).stop - pageSize).toNat ≤ _
          rw [hstop]
          exact (Nat.sub_le ..).trans hold.stop⟩
      have hnew : ((s.setVma st { s.vma st with stop := (s.vma st).stop - pageSize }).vma st).stop
          = (s.vma st).stop - pageSize := by
        show (Function.update s.vma st _ st).stop = _
        rw [Function.update_self]
      rw [Space.growStack]
      generalize s.setVma st { s.vma st with stop := (s.vma st).stop - pageSize } = s₁
        at hset hnew ⊢
      refine (hset.setMachine (mapFresh_log_suffix s₁.machine (s₁.vma st).stop userRwFlags)).growStack
        st ?_
      show 4096 * pages ≤ (s₁.vma st).stop.toNat
      rw [hnew, hstop]
      omega

theorem Ok.pageFaultHandler {s' : Space} (h : s.Ok) {task : Task} {cr2 : Word}
    (hfault : s.pageFaultHandler task cr2 = some s') : s'.Ok := by
  rw [Space.pageFaultHandler] at hfault
  split at hfault
  · rw [← Option.some.inj hfault]
    exact h.setMachine (cowFault_log_suffix ..)
  · dsimp only at hfault
    split at hfault
    · rename_i hgrow
      rw [← Option.some.inj hfault]
      refine h.growStack _ ?_
      have hle := hgrow.1
      rw [BitVec.le_def] at hle
      rw [BitVec.toNat_udiv, BitVec.toNat_sub_of_le hgrow.1, pageSize_toNat]
      omega
    · cases hfault

end Ok

end Space

end SnowOs
