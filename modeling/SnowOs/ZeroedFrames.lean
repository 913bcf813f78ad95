import SnowOs.Bytes
import SnowOs.FrameInv
import SnowOs.Kfree

/-!
# What the free frames hold

`update_page_tables`, `setup_user_page_tables` and `cow_page_tables` use a
frame as a table the moment `get_free_page` returns it, without clearing
it. They rest on an invariant nobody states: a frame on the free list holds
zeros. Two functions are to keep it. `kfree` clears the page it gives back,
through the address it was passed. `init_physical_memory` clears the
memory behind `physfree` once, with a byte count divided by eight - the
count of words, given to a `memset` that counts bytes - so it reaches the
first eighth of the free frames and trusts the rest to be zero already.

`initPhysicalMemory_freeFramesZero_iff` says exactly that, and
`FrameRun.freeZero` carries the invariant from there through every run
whose `kfree`s clear the page they push. The list is read by `Listed`,
which follows `next` and does not need the list to end: a frame freed
twice closes it into a cycle.
-/

namespace SnowOs

open Radix

namespace PhysMem

def Listed (s : PhysMem) (n : Nat) : Prop := Linked.Reached s.next s.freeList n

/-- The frame `get_free_page` returns for the descriptor `n`. -/
def frameOf (s : PhysMem) (n : Nat) : Word := (s.pageDescriptor n).pageNumber * pageSize

theorem Named.frameOf_eq {s : PhysMem} {bound n : Nat} (h : s.Named bound) (hn : n < bound) :
    s.frameOf n = pageAddress n := by
  rw [frameOf, h n hn, pageAddress]

/-- `get_free_page` only shortens the list, -/
theorem Listed.of_getFreePage {s : PhysMem} {n : Nat} (h : s.getFreePage.2.Listed n) :
    s.Listed n := by
  unfold getFreePage at h
  split at h
  · exact h
  · split at h
    · exact h
    · rename_i d hd
      rw [Listed, hd]
      change Linked.Reached (s.setPageRefCount _ 1).next ((s.setPageRefCount _ 1).next d) n at h
      rw [setPageRefCount_next] at h
      exact h.of_tail

/-- and no descriptor forgets its page. -/
theorem getFreePage_pageNumber (s : PhysMem) (n : Nat) :
    (s.getFreePage.2.pageDescriptor n).pageNumber = (s.pageDescriptor n).pageNumber := by
  unfold getFreePage
  split
  · rfl
  · split
    · rfl
    · exact setPageRefCount_pageNumber ..

/-- A page given back is the only one that joins the list. -/
theorem Listed.of_giveBack {s : PhysMem} {a : Word} {n : Nat}
    (h : ((s.addBackFreePages a 1).updateMaxPages 1).Listed n) :
    n = SnowOs.pageNumber a ∨ s.Listed n := by
  have hg := gave_addBackFreePages a s
  have h : Linked.Reached (s.addBackFreePages a 1).next (s.addBackFreePages a 1).freeList n := h
  rw [hg.freeList] at h
  exact h.of_push hg.head hg.next

theorem initPhysicalMemory_maxFreePagesAvailable (physfree base length : Word) :
    (initPhysicalMemory physfree base length).maxFreePagesAvailable
      = (base + length - physfree) / pageSize := by
  have hfold : ∀ (ns : List Nat) (s : PhysMem),
      (ns.foldl (initDescriptor physfree) s).maxFreePagesAvailable
        = s.maxFreePagesAvailable := by
    intro ns
    induction ns with
    | nil => exact fun _ => rfl
    | cons n ns ih => exact fun s => ih (initDescriptor physfree s n)
  exact hfold _ _

end PhysMem

namespace Machine

/-! ## Boot -/

/-- `memset` on physical addresses, as `init_physical_memory` runs it under
the boot loader's identity mapping. -/
def memsetPhysical (m : Machine) (a : Word) (v : Byte) (b : Nat) : Machine :=
  (List.range b).foldl (fun m i =>
    m.setByte ((a + BitVec.ofNat 64 i) &&& mask) (pageOffset (a + BitVec.ofNat 64 i)) v) m

/-- `init_physical_memory`, with the memory it clears. -/
def initPhysicalMemory (m : Machine) (physfree base length : Word) : Machine :=
  let phys := PhysMem.initPhysicalMemory physfree base length
  { m.memsetPhysical physfree 0 (phys.maxFreePagesAvailable * pageSize / 8).toNat with
    phys := phys }

def FreeFramesZero (m : Machine) : Prop :=
  ∀ n, m.phys.Listed n → ∀ k < 4096, m.byteAt (m.phys.frameOf n) k = 0

theorem byteAt_memsetPhysical (m : Machine) {a : Word} (v : Byte) {f : Word} (hf : Aligned f)
    {k : Nat} (hk : k < 4096) : ∀ b, a.toNat + b < 2 ^ 64 →
      (m.memsetPhysical a v b).byteAt f k
        = if a.toNat ≤ f.toNat + k ∧ f.toNat + k < a.toNat + b then v else m.byteAt f k := by
  intro b
  induction b with
  | zero =>
      intro _
      rw [if_neg (by omega)]
      rfl
  | succ b ih =>
      intro hb
      have hstep : m.memsetPhysical a v (b + 1) = (m.memsetPhysical a v b).setByte
          ((a + BitVec.ofNat 64 b) &&& mask) (pageOffset (a + BitVec.ofNat 64 b)) v := by
        rw [memsetPhysical, List.range_succ, List.foldl_append]
        rfl
      have haddr : (a + BitVec.ofNat 64 b).toNat = a.toNat + b := by
        rw [BitVec.toNat_add, BitVec.toNat_ofNat]
        omega
      have hhit : f = (a + BitVec.ofNat 64 b) &&& mask ∧ k = pageOffset (a + BitVec.ofNat 64 b)
          ↔ f.toNat + k = a.toNat + b := by
        rw [← BitVec.toNat_inj, and_mask_toNat, pageOffset, haddr]
        rw [Aligned] at hf
        omega
      rw [hstep, byteAt_setByte _ _ _ (pageOffset_lt _) hk, ih (by omega)]
      by_cases heq : f.toNat + k = a.toNat + b
      · rw [if_pos (hhit.mpr heq), if_pos (by omega)]
      · rw [if_neg fun h => heq (hhit.mp h)]
        by_cases hin : a.toNat ≤ f.toNat + k ∧ f.toNat + k < a.toNat + b
        · rw [if_pos hin, if_pos (by omega)]
        · rw [if_neg hin, if_neg (by omega)]

/-- The memory behind the first eighth of the free pages is zero before
boot. -/
def RestZero (m : Machine) (physfree base length : Word) : Prop :=
  ∀ n, PhysMem.firstPage physfree ≤ n → n < PhysMem.endPage base length → ∀ k < 4096,
    (PhysMem.endPage base length - PhysMem.firstPage physfree) * 512
        ≤ (n - PhysMem.firstPage physfree) * 4096 + k →
      m.byteAt (pageAddress n) k = 0

section Boot

variable {physfree base length : Word} (hb : PhysMem.BootRegion physfree base length)
include hb

theorem byteAt_initPhysicalMemory (m : Machine) {n k : Nat}
    (hfirst : PhysMem.firstPage physfree ≤ n) (hn : n < PhysMem.endPage base length)
    (hk : k < 4096) :
    (m.initPhysicalMemory physfree base length).byteAt (pageAddress n) k
      = if (n - PhysMem.firstPage physfree) * 4096 + k
          < (PhysMem.endPage base length - PhysMem.firstPage physfree) * 512
        then 0 else m.byteAt (pageAddress n) k := by
  have hend : PhysMem.endPage base length ≤ maxPages := hb.pages_le
  have hmax : n < maxPages := Nat.lt_of_lt_of_le hn hend
  have haddr := pageAddress_toNat hmax
  have hphys : physfree.toNat = PhysMem.firstPage physfree * 4096 := by
    have := hb.aligned
    rw [PhysMem.firstPage]
    omega
  rw [maxPages] at hend
  have hcount : ((PhysMem.initPhysicalMemory physfree base length).maxFreePagesAvailable
      * pageSize / 8).toNat
        = (PhysMem.endPage base length - PhysMem.firstPage physfree) * 512 := by
    have height : (8 : Word).toNat = 8 := rfl
    rw [BitVec.toNat_udiv, BitVec.toNat_mul, PhysMem.initPhysicalMemory_maxFreePagesAvailable,
      hb.maxFree_toNat, pageSize_toNat, height]
    omega
  show (memsetPhysical m _ _ _).byteAt _ _ = _
  rw [byteAt_memsetPhysical m 0 (aligned_pageAddress hmax) hk _ (by omega), hcount, haddr]
  by_cases hin : (n - PhysMem.firstPage physfree) * 4096 + k
      < (PhysMem.endPage base length - PhysMem.firstPage physfree) * 512
  · rw [if_pos hin, if_pos (by omega)]
  · rw [if_neg hin, if_neg (by omega)]

theorem listed_initPhysicalMemory (m : Machine) {n : Nat} :
    (m.initPhysicalMemory physfree base length).phys.Listed n
      ↔ PhysMem.firstPage physfree ≤ n ∧ n < PhysMem.endPage base length := by
  have hle := hb.firstPage_le
  have hlist := (PhysMem.initPhysicalMemory_spec hb).1.list.reached_iff (a := n)
  rw [List.mem_range'_1] at hlist
  refine hlist.trans ?_
  omega

theorem named_initPhysicalMemory (m : Machine) :
    (m.initPhysicalMemory physfree base length).phys.Named (PhysMem.endPage base length) := by
  intro n hn
  show ((PhysMem.initPhysicalMemory physfree base length).pageDescriptor n).pageNumber = _
  rw [(PhysMem.initPhysicalMemory_spec hb).2.1 n hn, PhysMem.bootDescriptor]

/-- `init_physical_memory` leaves zeroed frames exactly when the frames its
`memset` does not reach were zero before. -/
theorem initPhysicalMemory_freeFramesZero_iff (m : Machine) :
    (m.initPhysicalMemory physfree base length).FreeFramesZero
      ↔ m.RestZero physfree base length := by
  have hframe : ∀ n, n < PhysMem.endPage base length →
      (m.initPhysicalMemory physfree base length).phys.frameOf n = pageAddress n :=
    fun n hn => (named_initPhysicalMemory hb m).frameOf_eq hn
  constructor
  · intro hzero n hfirst hn k hk hrest
    have := hzero n ((listed_initPhysicalMemory hb m).mpr ⟨hfirst, hn⟩) k hk
    rwa [hframe n hn, byteAt_initPhysicalMemory hb m hfirst hn hk, if_neg (by omega)] at this
  · intro hrest n hlisted k hk
    obtain ⟨hfirst, hn⟩ := (listed_initPhysicalMemory hb m).mp hlisted
    rw [hframe n hn, byteAt_initPhysicalMemory hb m hfirst hn hk]
    split
    · rfl
    · exact hrest n hfirst hn k hk (by omega)

end Boot

/-! ## What `kfree` clears -/

/-- `f` is one of the tables the walk of `v` goes through. -/
def OnWalk (m : Machine) (v f : Word) : Prop :=
  ∃ q i r, path v = q ++ i :: r ∧ follow entryFormat m.mem m.cr3 q = some f

/-- What makes `kfree(ptr)` clear the frame it pushes: `ptr` is the start
of a mapped page, the page is not a table of its own mapping, and its frame
is one of the `bound` frames with a descriptor. -/
structure WholePage (bound : Nat) (m : Machine) (ptr : Word) : Prop where
  aligned : Aligned ptr
  mapped : present (m.leaf m.cr3 ptr) = true
  notTable : ¬ m.OnWalk ptr (m.walkPageTable ptr)
  described : pageNumber (m.walkPageTable ptr) < bound

/-- The frame `f` set to `v` up to byte `k`, and nothing else touched. -/
structure Filled (m : Machine) (f : Word) (v : Byte) (k : Nat) (m' : Machine) : Prop where
  mem : ∀ u, u ≠ f → m'.mem u = m.mem u
  phys : m'.phys = m.phys
  cr3 : m'.cr3 = m.cr3
  byte : ∀ j < 4096, m'.byteAt f j = if j < k then v else m.byteAt f j

theorem memset_succ (m : Machine) (a : Word) (v : Byte) (k : Nat) :
    m.memset a v (k + 1) = (m.memset a v k).writeByte (m.memset a v k).cr3
      (a + BitVec.ofNat 64 k) v := by
  rw [memset, List.range_succ, List.foldl_append]
  rfl

theorem memset_page {m : Machine} {ptr f : Word} (hptr : Aligned ptr)
    (hf : m.translate m.cr3 ptr = some f) (htable : ¬ m.OnWalk ptr f) (v : Byte) :
    ∀ k ≤ 4096, Filled m f v k (m.memset ptr v k) := by
  intro k
  induction k with
  | zero => exact fun _ => ⟨fun _ _ => rfl, rfl, rfl, fun _ _ => rfl⟩
  | succ k ih =>
      intro hk
      have hc := ih (by omega)
      have hsame : (m.memset ptr v k).translate m.cr3 ptr = some f := by
        rw [← hf, translate, translate, leaf_eq_lookup, leaf_eq_lookup,
          lookup_congr_off hc.mem fun q i r hq hway => htable ⟨q, i, r, hq, hway⟩]
      have hstep : m.memset ptr v (k + 1) = (m.memset ptr v k).setByte f k v := by
        rw [memset_succ, writeByte_eq, hc.cr3, translate_add hptr (by omega), hsame,
          pageOffset_add hptr (by omega)]
      rw [hstep]
      refine ⟨fun u hu => ?_, hc.phys, hc.cr3, fun j hj => ?_⟩
      · rw [← hc.mem u hu]
        exact write_of_frame_ne _ hu _ _
      · rw [byteAt_setByte _ _ _ (by omega) hj, hc.byte j hj]
        by_cases hjk : j = k
        · rw [if_pos ⟨rfl, hjk⟩, if_pos (by omega)]
        · rw [if_neg fun hcon => hjk hcon.2]
          by_cases hlt : j < k
          · rw [if_pos hlt, if_pos (by omega)]
          · rw [if_neg hlt, if_neg (by omega)]

@[simp] theorem loadByte_zero (k : Nat) : loadByte 0 k = 0 := by
  simp [loadByte]

theorem byteAt_setEntry_zero (m : Machine) (t : Word) (i : Fin 512) {f : Word} {k : Nat}
    (h : m.byteAt f k = 0) : (m.setEntry t i 0).byteAt f k = 0 := by
  rw [byteAt, setEntry_mem, write_apply]
  split
  · exact loadByte_zero _
  · exact h

theorem byteAt_removePageTableMapping {m : Machine} (ptr : Word) {f : Word} {k : Nat}
    (h : m.byteAt f k = 0) : (m.removePageTableMapping ptr).byteAt f k = 0 := by
  unfold removePageTableMapping
  split
  · exact byteAt_setEntry_zero _ _ _ h
  · exact h

theorem byteAt_releasePage {m : Machine} (ptr phyAddr : Word) {f : Word} {k : Nat}
    (h : m.byteAt f k = 0) : (m.releasePage ptr phyAddr).byteAt f k = 0 :=
  byteAt_removePageTableMapping ptr h

/-- `kfree` of a whole page: the frame it pushes is zero, and a byte that
was zero stays zero. -/
theorem WholePage.kfree {bound : Nat} {m : Machine} {ptr : Word} (h : WholePage bound m ptr)
    (hgive : ¬ m.keepsFrame ptr = true) {f : Word} {k : Nat} (hk : k < 4096)
    (hzero : f = m.walkPageTable ptr ∨ m.byteAt f k = 0) : (m.kfree ptr).byteAt f k = 0 := by
  have htrans : m.translate m.cr3 ptr = some (m.walkPageTable ptr) := by
    rw [translate, if_pos h.mapped, walkPageTable_eq]
  have hfill := memset_page h.aligned htrans h.notTable 0 4096 (Nat.le_refl _)
  have hbyte : (m.memset ptr 0 4096).byteAt f k = 0 := by
    by_cases hf : f = m.walkPageTable ptr
    · rw [hf, hfill.byte k hk, if_pos hk]
    · rw [byteAt, hfill.mem f hf]
      exact hzero.resolve_left hf
  rw [Machine.kfree, if_neg hgive]
  exact byteAt_releasePage ptr _ hbyte

/-! ## Runs -/

/-- `kfree(ptr)` gives nothing back, or gives back a page it clears. -/
def FreesWhole (bound : Nat) (m : Machine) (ptr : Word) : Prop :=
  m.keepsFrame ptr = true ∨ WholePage bound m ptr

/-- Runs of `get_free_page` and of `kfree`s that satisfy `ok`. In between,
the owners of frames that are not on the list write to them, change
reference counts and load CR3. -/
inductive FrameRun (ok : Machine → Word → Prop) (m₀ : Machine) : Machine → Prop
  | start : FrameRun ok m₀ m₀
  | get {m : Machine} : FrameRun ok m₀ m → FrameRun ok m₀ m.getFreePage.2
  | free {m : Machine} (ptr : Word) : FrameRun ok m₀ m → ok m ptr →
      FrameRun ok m₀ (m.kfree ptr)
  | store {m : Machine} (t : Word) (i : Fin 512) (w : Word) : FrameRun ok m₀ m →
      (∀ n, m.phys.Listed n → m.phys.frameOf n ≠ t) → FrameRun ok m₀ (m.setEntry t i w)
  | refCount {m : Machine} (a : Word) (c : Nat) : FrameRun ok m₀ m →
      FrameRun ok m₀ (m.setPageRefCount a c)
  | load {m : Machine} (cr3 : Word) : FrameRun ok m₀ m → FrameRun ok m₀ (m.setNewCr3 cr3)

/-- The invariant: the listed frames are zero, and they are among the
`bound` frames whose descriptors name them. -/
structure FreeZero (bound : Nat) (m : Machine) : Prop where
  named : m.phys.Named bound
  below : ∀ n, m.phys.Listed n → n < bound
  zero : ∀ n, m.phys.Listed n → ∀ k < 4096, m.byteAt (pageAddress n) k = 0

theorem FreeZero.freeFramesZero {bound : Nat} {m : Machine} (h : FreeZero bound m) :
    m.FreeFramesZero := by
  intro n hn k hk
  rw [h.named.frameOf_eq (h.below n hn)]
  exact h.zero n hn k hk

theorem FreeZero.getFreePage {bound : Nat} {m : Machine} (h : FreeZero bound m) :
    FreeZero bound m.getFreePage.2 where
  named := fun n hn => (PhysMem.getFreePage_pageNumber _ n).trans (h.named n hn)
  below := fun n hn => h.below n hn.of_getFreePage
  zero := fun n hn => h.zero n hn.of_getFreePage

theorem pageAddress_pageNumber {f : Word} (hf : Aligned f) (hlt : pageNumber f < maxPages) :
    pageAddress (pageNumber f) = f :=
  pageNumber_inj (aligned_pageAddress hlt) hf (pageNumber_pageAddress hlt)

theorem FreeZero.kfree {bound : Nat} {m : Machine} (h : FreeZero bound m)
    (hbound : bound ≤ maxPages) {ptr : Word} (hok : FreesWhole bound m ptr) :
    FreeZero bound (m.kfree ptr) := by
  by_cases hkeep : m.keepsFrame ptr = true
  · rw [kfree_of_keepsFrame hkeep]
    exact h
  · have hwhole := hok.resolve_left hkeep
    have halign : Aligned (m.walkPageTable ptr) := by
      rw [walkPageTable_eq]
      exact aligned_and_mask _
    have hframe := pageAddress_pageNumber halign
      (Nat.lt_of_lt_of_le hwhole.described hbound)
    have hlisted : ∀ n, (m.kfree ptr).phys.Listed n →
        n = pageNumber (m.walkPageTable ptr) ∨ m.phys.Listed n := by
      intro n hn
      rw [kfree_phys hkeep] at hn
      exact hn.of_giveBack
    refine ⟨fun n hn => ?_, fun n hn => ?_, fun n hn k hk => ?_⟩
    · rw [kfree_phys hkeep]
      exact ((PhysMem.gave_addBackFreePages _ _).pageNumber n).trans (h.named n hn)
    · rcases hlisted n hn with rfl | hold
      · exact hwhole.described
      · exact h.below n hold
    · refine hwhole.kfree hkeep hk ?_
      rcases hlisted n hn with rfl | hold
      · exact Or.inl hframe
      · exact Or.inr (h.zero n hold k hk)

theorem FreeZero.setEntry {bound : Nat} {m : Machine} (h : FreeZero bound m) {t : Word}
    (i : Fin 512) (w : Word) (ht : ∀ n, m.phys.Listed n → m.phys.frameOf n ≠ t) :
    FreeZero bound (m.setEntry t i w) where
  named := h.named
  below := h.below
  zero := fun n hn k hk => by
    have hne := ht n hn
    rw [h.named.frameOf_eq (h.below n hn)] at hne
    rw [byteAt, setEntry_mem, write_of_frame_ne _ hne]
    exact h.zero n hn k hk

theorem FreeZero.setPageRefCount {bound : Nat} {m : Machine} (h : FreeZero bound m)
    (a : Word) (c : Nat) : FreeZero bound (m.setPageRefCount a c) := by
  have hlisted : ∀ n, (m.setPageRefCount a c).phys.Listed n → m.phys.Listed n := by
    intro n hn
    have hn : Linked.Reached (m.phys.setPageRefCount a c).next m.phys.freeList n := hn
    rwa [PhysMem.setPageRefCount_next] at hn
  exact
    { named := fun n hn => (PhysMem.setPageRefCount_pageNumber _ a c n).trans (h.named n hn)
      below := fun n hn => h.below n (hlisted n hn)
      zero := fun n hn => h.zero n (hlisted n hn) }

theorem FrameRun.freeZero {bound : Nat} {m₀ m : Machine} (hr : FrameRun (FreesWhole bound) m₀ m)
    (hbound : bound ≤ maxPages) (h₀ : FreeZero bound m₀) : FreeZero bound m := by
  induction hr with
  | start => exact h₀
  | get _ ih => exact ih.getFreePage
  | free ptr _ hok ih => exact ih.kfree hbound hok
  | store t i w _ ht ih => exact ih.setEntry i w ht
  | refCount a c _ ih => exact ih.setPageRefCount a c
  | load cr3 _ ih => exact ⟨ih.named, ih.below, ih.zero⟩

/-! ## A zeroed frame is an empty table -/

/-- A word is its eight bytes. -/
theorem eq_of_loadByte {w w' : Word} (h : ∀ k < 8, loadByte w k = loadByte w' k) : w = w' := by
  apply BitVec.eq_of_getLsbD_eq
  intro j hj
  have hbit := getLsbD_loadByte w (j / 8) (j % 8)
  have hbit' := getLsbD_loadByte w' (j / 8) (j % 8)
  have hmod : j % 8 < 8 := Nat.mod_lt _ (by omega)
  rw [h (j / 8) (by omega), Nat.div_add_mod] at hbit
  rw [Nat.div_add_mod] at hbit'
  simpa [hmod] using hbit.symm.trans hbit'

theorem mem_eq_of_byteAt {m m' : Machine} {f : Word}
    (h : ∀ k < 4096, m.byteAt f k = m'.byteAt f k) (i : Fin 512) : m.mem f i = m'.mem f i := by
  refine eq_of_loadByte fun k hk => ?_
  have hi := i.isLt
  have hbyte := h (8 * i.val + k) (by omega)
  have hword : (8 * i.val + k) / 8 = i.val := by omega
  have hpos : (8 * i.val + k) % 8 = k := by omega
  rwa [byteAt, byteAt, hword, hpos, Fin.ofNat_val_eq_self] at hbyte

theorem mem_eq_zero_of_byteAt {m : Machine} {f : Word} (h : ∀ k < 4096, m.byteAt f k = 0)
    (i : Fin 512) : m.mem f i = 0 := by
  have hzero : ∀ k < 4096, m.byteAt f k
      = ({ m with mem := fun _ _ => 0 } : Machine).byteAt f k := by
    intro k hk
    rw [h k hk]
    exact (loadByte_zero _).symm
  exact mem_eq_of_byteAt hzero i

theorem FreeFramesZero.getFreePage {m : Machine} (h : m.FreeFramesZero)
    (hmin : ¬ m.phys.getFreePagesCount < minPages) {d : Nat} (hd : m.phys.freeList = some d)
    (i : Fin 512) : m.getFreePage.2.mem m.getFreePage.1 i = 0 := by
  have hframe : m.getFreePage.1 = m.phys.frameOf d := by
    rw [getFreePage_fst, PhysMem.getFreePage, if_neg hmin, hd]
    rfl
  rw [hframe]
  exact mem_eq_zero_of_byteAt (h d (.head hd)) i

/-- The free frames are zero after boot exactly when the memory the boot
`memset` leaves out was zero before it. From there they stay zero through
every run whose `kfree`s push whole, cleared pages, so that every frame
`get_free_page` takes from the list is an empty table. -/
theorem freeFramesZero_after_boot {physfree base length : Word}
    (hb : PhysMem.BootRegion physfree base length) (m : Machine) :
    ((m.initPhysicalMemory physfree base length).FreeFramesZero
        ↔ m.RestZero physfree base length) ∧
      (m.RestZero physfree base length → ∀ m',
        FrameRun (FreesWhole (PhysMem.endPage base length))
          (m.initPhysicalMemory physfree base length) m' →
        m'.FreeFramesZero ∧ (¬ m'.phys.getFreePagesCount < minPages →
          ∀ d, m'.phys.freeList = some d → ∀ i, m'.getFreePage.2.mem m'.getFreePage.1 i = 0)) := by
  have hboot := initPhysicalMemory_freeFramesZero_iff hb m
  refine ⟨hboot, fun hrest m' hrun => ?_⟩
  have hnamed := named_initPhysicalMemory hb m
  have hbelow : ∀ n, (m.initPhysicalMemory physfree base length).phys.Listed n →
      n < PhysMem.endPage base length := fun n hn => ((listed_initPhysicalMemory hb m).mp hn).2
  have hinv : FreeZero (PhysMem.endPage base length) m' := by
    refine hrun.freeZero hb.pages_le ⟨hnamed, hbelow, fun n hn k hk => ?_⟩
    rw [← hnamed.frameOf_eq (hbelow n hn)]
    exact hboot.mpr hrest n hn k hk
  exact ⟨hinv.freeFramesZero, fun hmin d hd => hinv.freeFramesZero.getFreePage hmin hd⟩

/-- Memory filled with one word before boot. -/
def filledMachine (w : Word) : Machine where
  phys := {}
  mem := fun _ _ => w
  cr3 := 0x1000
  log := []

theorem bootRegion_twenty : PhysMem.BootRegion 0x2000 0 0x15000 :=
  ⟨by decide, by decide, by decide, by decide⟩

theorem filledMachine_restZero (physfree base length : Word) :
    (filledMachine 0).RestZero physfree base length := by
  intro n _ _ k _ _
  exact loadByte_zero _

/-- The root at `0x1000` is its own table at each level, and the frame at
`0x2000`, once taken and without a reference, is mapped at `0x1000`. -/
def selfMapped (m : Machine) : Machine :=
  (((m.setNewCr3 0x1000).setEntry 0x1000 0 0x1007).setEntry 0x1000 1
    0x2007).getFreePage.2.setPageRefCount 0x2000 0

theorem follow_selfMapped (m : Machine) (k : Nat) :
    follow entryFormat (selfMapped m).mem (selfMapped m).cr3 (List.replicate k 0)
      = some 0x1000 := by
  change follow _ _ 0x1000 _ = _
  induction k with
  | zero => rfl
  | succ k ih =>
      have hentry : (selfMapped m).mem 0x1000 0 = 0x1007 := rfl
      rw [List.replicate_succ, follow, hentry]
      exact ih

theorem selfMapped_frees (m : Machine) {bound : Nat} (hbound : 2 < bound) :
    (selfMapped m).keepsFrame 0x1000 = false ∧ WholePage bound (selfMapped m) 0x1000 := by
  have hleaf : (selfMapped m).leaf (selfMapped m).cr3 0x1000 = 0x2007 := by
    have htable := (pageTable_eq_follow (selfMapped m) _ 0x1000).trans (follow_selfMapped m 3)
    rw [leaf, htable]
    rfl
  have hwalk : (selfMapped m).walkPageTable 0x1000 = 0x2000 := by
    rw [walkPageTable_eq, hleaf]
    rfl
  refine ⟨by rw [keepsFrame, hwalk]; rfl, by decide, by rw [hleaf]; decide, ?_, by rwa [hwalk]⟩
  rintro ⟨q, i, r, hq, hf⟩
  have hlen : q.length ≤ 3 := by
    have := congrArg List.length hq
    simp only [length_path, List.length_append, List.length_cons] at this
    omega
  have hzeros : q = List.replicate q.length 0 := by
    have htake : (path 0x1000).take q.length = q := by rw [hq, List.take_left]
    obtain h | h | h | h : q.length = 0 ∨ q.length = 1 ∨ q.length = 2 ∨ q.length = 3 := by omega
    all_goals
      rw [h] at htake ⊢
      exact htake.symm
  have hself := follow_selfMapped m q.length
  rw [← hzeros, hf, hwalk] at hself
  exact absurd (Option.some.inj hself) (by decide)

/-- Zeroed memory, and a `kfree` that gives a frame back. -/
theorem freeFramesZero_after_boot_free :
    (selfMapped ((filledMachine 0).initPhysicalMemory 0x2000 0 0x15000)).keepsFrame 0x1000 = false ∧
      ((selfMapped ((filledMachine 0).initPhysicalMemory 0x2000 0 0x15000)).kfree
        0x1000).FreeFramesZero := by
  obtain ⟨hkeeps, hwhole⟩ := selfMapped_frees
    ((filledMachine 0).initPhysicalMemory 0x2000 0 0x15000)
    (show 2 < PhysMem.endPage 0 0x15000 by decide)
  have hfree : ∀ n, ((filledMachine 0).initPhysicalMemory 0x2000 0 0x15000).phys.Listed n →
      ((filledMachine 0).initPhysicalMemory 0x2000 0 0x15000).phys.frameOf n ≠ 0x1000 := by
    intro n hn heq
    obtain ⟨hlow, hhigh⟩ := (listed_initPhysicalMemory bootRegion_twenty _).mp hn
    rw [(named_initPhysicalMemory bootRegion_twenty _).frameOf_eq hhigh] at heq
    have hone : n = 1 := pageAddress_inj (hhigh.trans_le (by decide)) (by decide) heq
    rw [hone] at hlow
    exact absurd hlow (by decide)
  exact ⟨hkeeps, ((freeFramesZero_after_boot bootRegion_twenty (filledMachine 0)).2
    (filledMachine_restZero 0x2000 0 0x15000) _ (.free 0x1000 (.refCount 0x2000 0 (.get
      (.store 0x1000 1 0x2007 (.store 0x1000 0 0x1007 (.load 0x1000 .start) hfree) hfree)))
      (Or.inr hwhole))).1⟩

/-- On memory that holds `0xff`, the last frame of the region is on the
list and still full of ones. -/
theorem freeFrames_not_zero :
    PhysMem.BootRegion 0x2000 0 0x15000 ∧
      ¬ ((filledMachine (BitVec.allOnes 64)).initPhysicalMemory 0x2000 0 0x15000).FreeFramesZero := by
  refine ⟨bootRegion_twenty, fun hzero => ?_⟩
  have hrest := (initPhysicalMemory_freeFramesZero_iff bootRegion_twenty _).mp hzero
  exact absurd (hrest 20 (by decide) (by decide) 0 (by decide) (by decide)) (by decide)

end Machine

end SnowOs
