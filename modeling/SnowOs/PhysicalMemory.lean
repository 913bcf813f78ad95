import Mathlib.Data.List.Nodup
import Mathlib.Data.List.Perm.Subperm
import SnowOs.Linked

/-!
# The frame allocator (`sys/physical_memory.c`)

The allocator's globals are one record, `PhysMem`. A pointer into
`page_descriptor[]` is the index of the descriptor, `none` is `NULL`, and
`uint64_t` is `Word`: the two counters wrap exactly as the machine's do.
The free list has no cells of its own - it is threaded through the
descriptors by the `next` fields written at boot and by every free.

`FreeList s l` reads that list as a chain, and `Counted` adds the
bookkeeping every caller relies on: the descriptors name themselves, and
the difference of the two counters is the length of the list. One spec
lemma per operation says what it does to the chain; nothing below this
file unfolds the operations again.
-/

namespace SnowOs

open Linked

/-- `uint64_t`. -/
abbrev Word := BitVec 64

def pageSize : Word := 4096

/-- `MIN_PAGES`, the reserve `get_free_page` never hands out. -/
def minPages : Word := 10

/-- `MAX_PAGES`, the size of `page_descriptor[]`. -/
def maxPages : Nat := 100000

/-! ## Page numbers and page addresses -/

/-- `page_addr / PAGE_SIZE`, as an index into `page_descriptor[]`. -/
def pageNumber (pageAddr : Word) : Nat := (pageAddr / pageSize).toNat

/-- The address of page `n`. -/
def pageAddress (n : Nat) : Word := BitVec.ofNat 64 n * pageSize

@[simp] theorem pageSize_toNat : pageSize.toNat = 4096 := rfl

@[simp] theorem minPages_toNat : minPages.toNat = 10 := rfl

theorem pageAddress_toNat {n : Nat} (hn : n < maxPages) :
    (pageAddress n).toNat = n * 4096 := by
  rw [pageAddress, BitVec.toNat_mul, BitVec.toNat_ofNat, pageSize_toNat]
  rw [maxPages] at hn
  omega

theorem pageNumber_pageAddress {n : Nat} (hn : n < maxPages) :
    pageNumber (pageAddress n) = n := by
  rw [pageNumber, BitVec.toNat_udiv, pageAddress_toNat hn, pageSize_toNat]
  omega

theorem pageAddress_inj {m n : Nat} (hm : m < maxPages) (hn : n < maxPages)
    (h : pageAddress m = pageAddress n) : m = n := by
  rw [← pageNumber_pageAddress hm, h, pageNumber_pageAddress hn]

theorem pageAddress_ne_zero {n : Nat} (hn : n < maxPages) (hpos : 0 < n) :
    pageAddress n ≠ 0 := by
  intro h
  have := congrArg BitVec.toNat h
  rw [pageAddress_toNat hn] at this
  simp at this
  omega

/-! ## State -/

/-- `struct physical_page`. -/
structure PhysicalPage where
  pageNumber : Word := 0
  next : Option Nat := none
  refCount : Nat := 0
deriving Repr, DecidableEq

/-- The globals of `physical_memory.c`. The default values are the
zero-initialised image the boot loader leaves. -/
structure PhysMem where
  freeList : Option Nat := none
  pageDescriptor : Nat → PhysicalPage := fun _ => {}
  maxPagesAvailable : Word := 0
  maxFreePagesAvailable : Word := 0
  pagesUsed : Word := 0

namespace PhysMem

/-- `&page_descriptor[n]` assigned. -/
def setDescriptor (s : PhysMem) (n : Nat) (d : PhysicalPage) : PhysMem :=
  { s with pageDescriptor := Function.update s.pageDescriptor n d }

/-- The successor function of the free list. -/
def next (s : PhysMem) (n : Nat) : Option Nat := (s.pageDescriptor n).next

/-! ## Operations -/

def updateMaxPages (addPages : Word) (s : PhysMem) : PhysMem :=
  { s with
    maxFreePagesAvailable := s.maxFreePagesAvailable + addPages
    maxPagesAvailable := s.maxPagesAvailable + addPages }

def getPageRefCount (pageAddr : Word) (s : PhysMem) : Nat :=
  (s.pageDescriptor (SnowOs.pageNumber pageAddr)).refCount

def setPageRefCount (pageAddr : Word) (newRefCount : Nat) (s : PhysMem) : PhysMem :=
  let n := SnowOs.pageNumber pageAddr
  s.setDescriptor n { s.pageDescriptor n with refCount := newRefCount }

/-- One round of the loop of `init_physical_memory`. -/
def initDescriptor (physfree : Word) (s : PhysMem) (pg : Nat) : PhysMem :=
  let pgWord := BitVec.ofNat 64 pg
  { s.setDescriptor pg
      { pageNumber := pgWord
        refCount := 0
        next := if pgWord < s.maxPagesAvailable - 1 then some (pg + 1) else s.next pg } with
    freeList := if pgWord * pageSize = physfree then some pg else s.freeList }

/-- `init_physical_memory`, on the zero-initialised globals. -/
def initPhysicalMemory (physfree base length : Word) : PhysMem :=
  let physicalMemSize := base + length
  let s : PhysMem :=
    { maxFreePagesAvailable := (physicalMemSize - physfree) / pageSize
      maxPagesAvailable := physicalMemSize / pageSize }
  (List.range s.maxPagesAvailable.toNat).foldl (initDescriptor physfree) s

def getFreePagesCount (s : PhysMem) : Word := s.maxFreePagesAvailable - s.pagesUsed

/-- `get_free_page`. A null `free_list` behind the reserve test would be a
null dereference; it is given the refusal's value here and shown
unreachable wherever the count is right. -/
def getFreePage (s : PhysMem) : Word × PhysMem :=
  if s.getFreePagesCount < minPages then (0, s)
  else
    match s.freeList with
    | none => (0, s)
    | some d =>
        let freePage := (s.pageDescriptor d).pageNumber * pageSize
        let s := s.setPageRefCount freePage 1
        (freePage, { s with
          freeList := (s.pageDescriptor d).next
          pagesUsed := s.pagesUsed + 1 })

def addBackFreePages (pageAddr : Word) (numOfPages : Nat) (s : PhysMem) : PhysMem :=
  let n := SnowOs.pageNumber pageAddr
  let prevFreeList := s.freeList
  let s := { s with freeList := some n }
  let s := (List.range numOfPages).foldl (fun s i =>
    s.setDescriptor (n + i) { s.pageDescriptor (n + i) with refCount := 0 }) s
  let last := n + numOfPages - 1
  let s := s.setDescriptor last { s.pageDescriptor last with next := prevFreeList }
  { s with pagesUsed := s.pagesUsed - BitVec.ofNat 64 numOfPages }

/-! ## The free list as a chain -/

/-- The pages reachable from `free_list`. -/
def FreeList (s : PhysMem) (l : List Nat) : Prop := Chain s.next s.freeList l

instance (s : PhysMem) (l : List Nat) : Decidable (s.FreeList l) :=
  inferInstanceAs (Decidable (Chain _ _ _))

/-- Every page below `bound` has a descriptor that names it. -/
def Named (s : PhysMem) (bound : Nat) : Prop :=
  ∀ n < bound, (s.pageDescriptor n).pageNumber = BitVec.ofNat 64 n

/-- The chain and the two counters agree. -/
structure Counted (s : PhysMem) (l : List Nat) : Prop where
  list : s.FreeList l
  count : s.getFreePagesCount = BitVec.ofNat 64 l.length
  named : ∀ n ∈ l, (s.pageDescriptor n).pageNumber = BitVec.ofNat 64 n
  bounded : ∀ n ∈ l, n < maxPages

theorem Counted.length_lt {s : PhysMem} {l : List Nat} (h : s.Counted l) :
    l.length ≤ maxPages := by
  have hsub : l ⊆ List.range maxPages := fun n hn => List.mem_range.mpr (h.bounded n hn)
  simpa using (List.subperm_of_subset h.list.nodup hsub).length_le

theorem Counted.count_toNat {s : PhysMem} {l : List Nat} (h : s.Counted l) :
    s.getFreePagesCount.toNat = l.length := by
  have := h.length_lt
  rw [h.count, BitVec.toNat_ofNat]
  simp only [maxPages] at this
  omega

theorem Counted.refused_iff {s : PhysMem} {l : List Nat} (h : s.Counted l) :
    s.getFreePagesCount < minPages ↔ l.length < 10 := by
  rw [BitVec.lt_def, h.count_toNat, minPages_toNat]

/-! ## What each operation does to the chain -/

@[simp] theorem setDescriptor_freeList (s : PhysMem) (n : Nat) (d : PhysicalPage) :
    (s.setDescriptor n d).freeList = s.freeList := rfl

@[simp] theorem setDescriptor_self (s : PhysMem) (n : Nat) (d : PhysicalPage) :
    (s.setDescriptor n d).pageDescriptor n = d := by
  simp [setDescriptor]

theorem setDescriptor_of_ne (s : PhysMem) {m n : Nat} (h : m ≠ n) (d : PhysicalPage) :
    (s.setDescriptor n d).pageDescriptor m = s.pageDescriptor m := by
  simp [setDescriptor, h]

@[simp] theorem setPageRefCount_next (s : PhysMem) (a : Word) (c : Nat) :
    (s.setPageRefCount a c).next = s.next := by
  funext m
  by_cases h : m = SnowOs.pageNumber a
  · subst h
    simp [next, setPageRefCount]
  · simp [next, setPageRefCount, setDescriptor_of_ne _ h]

@[simp] theorem setPageRefCount_pageNumber (s : PhysMem) (a : Word) (c m : Nat) :
    ((s.setPageRefCount a c).pageDescriptor m).pageNumber
      = (s.pageDescriptor m).pageNumber := by
  by_cases h : m = SnowOs.pageNumber a
  · subst h
    simp [setPageRefCount]
  · simp [setPageRefCount, setDescriptor_of_ne _ h]

theorem setPageRefCount_refCount (s : PhysMem) (a : Word) (c m : Nat) :
    ((s.setPageRefCount a c).pageDescriptor m).refCount
      = if m = SnowOs.pageNumber a then c else (s.pageDescriptor m).refCount := by
  by_cases h : m = SnowOs.pageNumber a
  · subst h
    simp [setPageRefCount]
  · simp [setPageRefCount, setDescriptor_of_ne _ h, h]

@[simp] theorem setPageRefCount_getFreePagesCount (s : PhysMem) (a : Word) (c : Nat) :
    (s.setPageRefCount a c).getFreePagesCount = s.getFreePagesCount := rfl

/-- Reference counts are no part of the list or of its bookkeeping. -/
theorem Counted.setPageRefCount {s : PhysMem} {l : List Nat} (h : s.Counted l)
    (a : Word) (c : Nat) : (s.setPageRefCount a c).Counted l where
  list := by
    rw [FreeList, setPageRefCount_next]
    exact h.list
  count := h.count
  named := fun n hn => by rw [setPageRefCount_pageNumber]; exact h.named n hn
  bounded := h.bounded

theorem getFreePage_refused {s : PhysMem} (h : s.getFreePagesCount < minPages) :
    s.getFreePage = (0, s) := by
  rw [getFreePage, if_pos h]

/-- Only the frame handed out has its count set, -/
theorem getFreePage_getPageRefCount {s : PhysMem} {g : Word}
    (hne : SnowOs.pageNumber g ≠ SnowOs.pageNumber s.getFreePage.1) :
    s.getFreePage.2.getPageRefCount g = s.getPageRefCount g := by
  unfold getFreePage at hne ⊢
  split
  · rfl
  · rename_i hmin
    rw [if_neg hmin] at hne
    split
    · rfl
    · rename_i d hd
      rw [hd] at hne
      show ((s.setPageRefCount _ 1).pageDescriptor (SnowOs.pageNumber g)).refCount = _
      rw [setPageRefCount_refCount, if_neg hne]
      rfl

/-- to one. -/
theorem getFreePage_getPageRefCount_self {s : PhysMem} (h : s.getFreePage.1 ≠ 0) :
    s.getFreePage.2.getPageRefCount s.getFreePage.1 = 1 := by
  unfold getFreePage at h ⊢
  split
  · rename_i hmin
    rw [if_pos hmin] at h
    exact absurd rfl h
  · rename_i hmin
    rw [if_neg hmin] at h
    split
    · rename_i hd
      rw [hd] at h
      exact absurd rfl h
    · rename_i d hd
      show ((s.setPageRefCount _ 1).pageDescriptor (SnowOs.pageNumber _)).refCount = 1
      rw [setPageRefCount_refCount, if_pos rfl]

/-- What a successful `get_free_page` leaves behind: the head `n` is
unlinked and referenced once, every other descriptor is untouched. -/
structure Took (s s' : PhysMem) (n : Nat) : Prop where
  next : s'.next = s.next
  pageNumber : ∀ m, (s'.pageDescriptor m).pageNumber = (s.pageDescriptor m).pageNumber
  refCount : ∀ m, (s'.pageDescriptor m).refCount
    = if m = n then 1 else (s.pageDescriptor m).refCount
  maxPagesAvailable : s'.maxPagesAvailable = s.maxPagesAvailable
  count : s'.getFreePagesCount = s.getFreePagesCount - 1

/-- Behind the reserve test there is always a page to take: the count is
the length of the list, so the list is not empty. -/
theorem Counted.getFreePage {s : PhysMem} {l : List Nat} (h : s.Counted l)
    (hmin : ¬ s.getFreePagesCount < minPages) :
    ∃ n t, l = n :: t ∧ s.getFreePage.1 = pageAddress n ∧
      s.getFreePage.2.Counted t ∧ Took s s.getFreePage.2 n := by
  have hlen : ¬ l.length < 10 := fun hlt => hmin (h.refused_iff.mpr hlt)
  obtain ⟨n, t, rfl, hhead⟩ := h.list.head_ne_none (by omega)
  have hn : n < maxPages := h.bounded n (List.mem_cons_self ..)
  have hname := h.named n (List.mem_cons_self ..)
  have hpn : SnowOs.pageNumber (BitVec.ofNat 64 n * pageSize) = n :=
    pageNumber_pageAddress hn
  have heq : s.getFreePage = (pageAddress n,
      { s.setPageRefCount (pageAddress n) 1 with
        freeList := s.next n
        pagesUsed := s.pagesUsed + 1 }) := by
    rw [PhysMem.getFreePage, if_neg hmin, hhead]
    simp only [hname]
    rw [← setPageRefCount_next s (pageAddress n) 1]
    rfl
  have hcount : s.maxFreePagesAvailable - (s.pagesUsed + 1) = s.getFreePagesCount - 1 := by
    rw [getFreePagesCount]
    bv_omega
  rw [heq]
  have htook : Took s { s.setPageRefCount (pageAddress n) 1 with
      freeList := s.next n
      pagesUsed := s.pagesUsed + 1 } n :=
    { next := setPageRefCount_next s (pageAddress n) 1
      pageNumber := setPageRefCount_pageNumber s (pageAddress n) 1
      refCount := fun m => by
        have := setPageRefCount_refCount s (pageAddress n) 1 m
        rwa [pageNumber_pageAddress hn] at this
      maxPagesAvailable := rfl
      count := hcount }
  refine ⟨n, t, rfl, rfl, ?_, htook⟩
  exact
    { list := by
        rw [FreeList, htook.next]
        exact h.list.2
      count := by
        rw [htook.count, h.count, List.length_cons]
        bv_omega
      named := fun m hm => by
        rw [htook.pageNumber]
        exact h.named m (List.mem_cons_of_mem _ hm)
      bounded := fun m hm => h.bounded m (List.mem_cons_of_mem _ hm) }

/-- `add_back_free_pages(p, 1)`, with its one-round loop unrolled. -/
theorem addBackFreePages_one (a : Word) (s : PhysMem) :
    s.addBackFreePages a 1 =
      { s.setDescriptor (SnowOs.pageNumber a)
          { s.pageDescriptor (SnowOs.pageNumber a) with
            refCount := 0
            next := s.freeList } with
        freeList := some (SnowOs.pageNumber a)
        pagesUsed := s.pagesUsed - 1 } := by
  simp [addBackFreePages, setDescriptor]

/-- What `add_back_free_pages(p, 1)` leaves behind: page `n` is the new
head, with count zero, and every other descriptor is untouched. -/
structure Gave (s s' : PhysMem) (n : Nat) : Prop where
  freeList : s'.freeList = some n
  head : s'.next n = s.freeList
  next : ∀ m, m ≠ n → s'.next m = s.next m
  pageNumber : ∀ m, (s'.pageDescriptor m).pageNumber = (s.pageDescriptor m).pageNumber
  refCount : ∀ m, (s'.pageDescriptor m).refCount
    = if m = n then 0 else (s.pageDescriptor m).refCount
  maxPagesAvailable : s'.maxPagesAvailable = s.maxPagesAvailable
  count : s'.getFreePagesCount = s.getFreePagesCount + 1

theorem gave_addBackFreePages (a : Word) (s : PhysMem) :
    Gave s (s.addBackFreePages a 1) (SnowOs.pageNumber a) := by
  rw [addBackFreePages_one]
  refine ⟨rfl, ?_, fun m hm => ?_, fun m => ?_, fun m => ?_, rfl, ?_⟩
  · simp [next]
  · simp [next, setDescriptor_of_ne _ hm]
  · by_cases h : m = SnowOs.pageNumber a
    · subst h
      simp
    · simp [setDescriptor_of_ne _ h]
  · by_cases h : m = SnowOs.pageNumber a
    · subst h
      simp
    · simp [setDescriptor_of_ne _ h, h]
  · simp only [getFreePagesCount]
    show s.maxFreePagesAvailable - (s.pagesUsed - 1) = _
    bv_omega

/-- Handing back a page that is not on the list keeps list and counters in
step. -/
theorem Counted.addBackFreePages {s : PhysMem} {l : List Nat} (h : s.Counted l)
    {n : Nat} (hn : n < maxPages) (hnew : n ∉ l)
    (hname : (s.pageDescriptor n).pageNumber = BitVec.ofNat 64 n) :
    (s.addBackFreePages (pageAddress n) 1).Counted (n :: l) := by
  have hg := gave_addBackFreePages (pageAddress n) s
  rw [pageNumber_pageAddress hn] at hg
  refine ⟨?_, ?_, fun m hm => ?_, fun m hm => ?_⟩
  · rw [FreeList, hg.freeList]
    exact h.list.push hg.head fun b hb => hg.next b fun heq => hnew (heq ▸ hb)
  · rw [hg.count, h.count, List.length_cons]
    bv_omega
  · rw [hg.pageNumber]
    rcases List.mem_cons.mp hm with rfl | hm
    · exact hname
    · exact h.named m hm
  · rcases List.mem_cons.mp hm with rfl | hm
    · exact hn
    · exact h.bounded m hm

/-- Pushing a page that is already listed closes the list into a cycle, so
after `add_back_free_pages(p, 1)` there is a list only if `p` was not on
the old one. -/
theorem freeList_addBackFreePages_iff {s : PhysMem} {l l' : List Nat} (h : s.FreeList l)
    (a : Word) : (s.addBackFreePages a 1).FreeList l'
      ↔ SnowOs.pageNumber a ∉ l ∧ l' = SnowOs.pageNumber a :: l := by
  have hg := gave_addBackFreePages a s
  have hpush : SnowOs.pageNumber a ∉ l →
      (s.addBackFreePages a 1).FreeList (SnowOs.pageNumber a :: l) := by
    intro hnew
    rw [FreeList, hg.freeList]
    exact h.push hg.head fun b hb => hg.next b fun heq => hnew (heq ▸ hb)
  constructor
  · intro h'
    have hnew : SnowOs.pageNumber a ∉ l := fun hmem => by
      rw [FreeList, hg.freeList] at h'
      exact h.not_chain_push hg.head hg.next hmem h'
    exact ⟨hnew, h'.unique (hpush hnew)⟩
  · rintro ⟨hnew, rfl⟩
    exact hpush hnew

/-! ## A stretch of allocations -/

/-- From `s` to `s'` by calls of `get_free_page` only - `ts` are their
results, newest first - with reference counts adjusted in between. -/
inductive Draw : PhysMem → List Word → PhysMem → Prop
  | refl (s : PhysMem) : Draw s [] s
  | take {s s' : PhysMem} {ts : List Word} : Draw s ts s' →
      Draw s (s'.getFreePage.1 :: ts) s'.getFreePage.2
  | adjust {s s' : PhysMem} {ts : List Word} (a : Word) (c : Nat) : Draw s ts s' →
      Draw s ts (s'.setPageRefCount a c)

theorem Draw.trans {s₁ s₂ s₃ : PhysMem} {ts us : List Word} (h₁ : Draw s₁ ts s₂)
    (h₂ : Draw s₂ us s₃) : Draw s₁ (us ++ ts) s₃ := by
  induction h₂ with
  | refl => exact h₁
  | take _ ih => exact ih.take
  | adjust a c _ ih => exact ih.adjust a c

/-- A stretch of allocations unlinks the front of the list; as long as no
request is refused, the results are exactly the pages unlinked, in
order. -/
theorem Counted.draw {s s' : PhysMem} {ts : List Word} (hd : Draw s ts s') :
    ∀ {l : List Nat}, s.Counted l → ∃ ns l', l = ns ++ l' ∧ s'.Counted l' ∧
      ((0 : Word) ∉ ts → ts = (ns.map pageAddress).reverse) := by
  induction hd with
  | refl => exact fun {l} h => ⟨[], l, rfl, h, fun _ => rfl⟩
  | @take s'' ts _ ih =>
      intro l h
      obtain ⟨ns, l', rfl, h', hts⟩ := ih h
      by_cases hmin : s''.getFreePagesCount < minPages
      · rw [getFreePage_refused hmin]
        exact ⟨ns, l', rfl, h', fun hne => absurd (List.mem_cons_self ..) hne⟩
      · obtain ⟨n, t, rfl, haddr, hc, -⟩ := h'.getFreePage hmin
        refine ⟨ns ++ [n], t, by simp, hc, fun hne => ?_⟩
        rw [List.mem_cons, not_or] at hne
        simp [hts hne.2, haddr]
  | adjust a c _ ih =>
      intro l h
      obtain ⟨ns, l', rfl, h', hts⟩ := ih h
      exact ⟨ns, l', rfl, h'.setPageRefCount a c, hts⟩

end PhysMem

end SnowOs
