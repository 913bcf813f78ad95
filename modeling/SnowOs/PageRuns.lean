import SnowOs.PhysicalMemory

/-!
# Runs of frames

`get_free_pages` takes `n` frames at once: it returns the first frame of
the list and moves `free_list` on by `n` descriptors of the array, not by
`n` links. `add_back_free_pages` puts the first descriptor of the run in
front of the list and links its last one to the old head. Both are right
for a list in ascending order, as boot leaves it.

On other lists the array and the links go apart. The run is taken and
given back rightly exactly if the list begins with it, from its first
frame to its last, and goes on with the frame behind it (`RunInFront`); in
between the order does not matter. The guard is computed modulo 2^64, so a
request for more frames than there are passes it.
-/

namespace SnowOs

open Linked

namespace PhysMem

/-- `get_free_pages`; `none` is a null `free_list` followed. -/
def getFreePages (numOfPages : Word) (s : PhysMem) : Option (Word × PhysMem) :=
  if s.getFreePagesCount - numOfPages < minPages then some (0, s)
  else
    match s.freeList with
    | none => none
    | some d =>
        let number := (s.pageDescriptor d).pageNumber
        some (number * pageSize, { s with
          freeList := some (number + numOfPages).toNat
          pagesUsed := s.pagesUsed + numOfPages })

/-- The list `l` without the run of `n` frames from `first` on. -/
def withoutRun (first n : Nat) (l : List Nat) : List Nat :=
  l.filter fun m => ¬ (first ≤ m ∧ m < first + n)

/-- What taking the run of `n` frames from `first` on should do to the
list `l`: they were free, the others stay, the reserve as well, and giving
the run back restores the set. -/
structure GivesRun (l : List Nat) (first n : Nat) (s' : PhysMem) : Prop where
  free : ∀ i < n, first + i ∈ l
  counted : s'.Counted (withoutRun first n l)
  reserve : 10 ≤ (withoutRun first n l).length
  back : ∃ l', (s'.addBackFreePages (pageAddress first) n).FreeList l' ∧ ∀ m, m ∈ l' ↔ m ∈ l

/-- What `get_free_pages` should do. -/
def TakesRun (s : PhysMem) (l : List Nat) (numOfPages : Word) : Prop :=
  s.getFreePages numOfPages = some (0, s) ∨
    ∃ first s', s.getFreePages numOfPages = some (pageAddress first, s') ∧
      GivesRun l first numOfPages.toNat s'

/-- The list begins with a run of `n` frames, from its first to its last,
and goes on with the frame behind it. -/
def RunInFront (l : List Nat) (n : Nat) : Prop :=
  ∃ first front rest, l = front ++ (first + n) :: rest ∧ front.Perm (List.range' first n) ∧
    front.head? = some first ∧ front.getLast? = some (first + n - 1)

/-! ## The two operations -/

section Operations

variable {s : PhysMem} {l : List Nat} {numOfPages : Word} {d : Nat}

/-- The state behind a run that starts at `d`. -/
def tookRun (s : PhysMem) (d : Nat) (numOfPages : Word) : PhysMem :=
  { s with
    freeList := some (BitVec.ofNat 64 d + numOfPages).toNat
    pagesUsed := s.pagesUsed + numOfPages }

theorem getFreePages_refused (h : s.getFreePagesCount - numOfPages < minPages) :
    s.getFreePages numOfPages = some (0, s) := by
  rw [getFreePages, if_pos h]

theorem Counted.getFreePages_cons {t : List Nat} (h : s.Counted (d :: t))
    (hmin : ¬ s.getFreePagesCount - numOfPages < minPages) :
    s.getFreePages numOfPages = some (pageAddress d, s.tookRun d numOfPages) := by
  have hname := h.named d (List.mem_cons_self ..)
  rw [getFreePages, if_neg hmin, h.list.1]
  simp only [hname]
  rfl

theorem Counted.getFreePages_nil (h : s.Counted [])
    (hmin : ¬ s.getFreePagesCount - numOfPages < minPages) : s.getFreePages numOfPages = none := by
  have hnull : s.freeList = none := h.list
  rw [getFreePages, if_neg hmin, hnull]

@[simp] theorem tookRun_next (s : PhysMem) (d : Nat) (numOfPages : Word) :
    (s.tookRun d numOfPages).next = s.next := rfl

theorem tookRun_count (s : PhysMem) (d : Nat) (numOfPages : Word) :
    (s.tookRun d numOfPages).getFreePagesCount = s.getFreePagesCount - numOfPages := by
  show s.maxFreePagesAvailable - (s.pagesUsed + numOfPages) = _
  rw [getFreePagesCount]
  bv_omega

theorem tookRun_ne (hn : numOfPages ≠ 0) : s.tookRun d numOfPages ≠ s := by
  intro heq
  have hused : s.pagesUsed + numOfPages = s.pagesUsed := congrArg pagesUsed heq
  exact hn (by simpa using hused)

/-- As long as the numbers fit, `free_list` moves on by `n`. -/
theorem tookRun_freeList {bound : Nat} (hd : d < maxPages) (hn : numOfPages.toNat ≤ bound)
    (hbound : bound ≤ maxPages) :
    (s.tookRun d numOfPages).freeList = some (d + numOfPages.toNat) := by
  show some (BitVec.ofNat 64 d + numOfPages).toNat = _
  rw [maxPages] at hd hbound
  rw [BitVec.toNat_add, BitVec.toNat_ofNat]
  congr 1
  omega

theorem clearCounts_next (first : Nat) (is : List Nat) (s : PhysMem) :
    (is.foldl (fun s i => s.setDescriptor (first + i)
      { s.pageDescriptor (first + i) with refCount := 0 }) s).next = s.next := by
  induction is generalizing s with
  | nil => rfl
  | cons i is ih =>
      rw [List.foldl_cons, ih]
      funext m
      by_cases hm : m = first + i
      · rw [hm, next, setDescriptor_self]
        rfl
      · rw [next, setDescriptor_of_ne _ hm]
        rfl

theorem clearCounts_freeList (first : Nat) (is : List Nat) (s : PhysMem) :
    (is.foldl (fun s i => s.setDescriptor (first + i)
      { s.pageDescriptor (first + i) with refCount := 0 }) s).freeList = s.freeList := by
  induction is generalizing s with
  | nil => rfl
  | cons i is ih =>
      rw [List.foldl_cons, ih]
      rfl

/-- `add_back_free_pages` makes the first frame the head, -/
theorem addBackFreePages_freeList {first : Nat} (hfirst : first < maxPages) (n : Nat)
    (s : PhysMem) : (s.addBackFreePages (pageAddress first) n).freeList = some first := by
  rw [addBackFreePages, pageNumber_pageAddress hfirst]
  exact clearCounts_freeList first (List.range n) { s with freeList := some first }

/-- and links the last one to the old head. -/
theorem addBackFreePages_next {first : Nat} (hfirst : first < maxPages) (n : Nat) (s : PhysMem)
    (m : Nat) : (s.addBackFreePages (pageAddress first) n).next m
      = if m = first + n - 1 then s.freeList else s.next m := by
  have hloop := clearCounts_next first (List.range n) { s with freeList := some first }
  rw [addBackFreePages, pageNumber_pageAddress hfirst]
  generalize (List.range n).foldl _ _ = s₁ at hloop
  show ((s₁.setDescriptor (first + n - 1) _).pageDescriptor m).next = _
  split
  · next hm => rw [hm, setDescriptor_self]
  · next hm =>
      rw [setDescriptor_of_ne _ hm]
      exact congrFun hloop m

end Operations

/-! ## Lists with a run in front -/

section Lists

variable {l front rest : List Nat} {first n : Nat}

theorem mem_withoutRun {m : Nat} :
    m ∈ withoutRun first n l ↔ m ∈ l ∧ ¬ (first ≤ m ∧ m < first + n) := by
  rw [withoutRun, List.mem_filter, decide_eq_true_iff]

/-- Taking out a run that is on the list makes it shorter by the run. -/
theorem length_withoutRun (hnodup : l.Nodup) (hfree : ∀ i < n, first + i ∈ l) :
    (withoutRun first n l).length + n = l.length := by
  have hrun : (l.filter fun m => decide (first ≤ m ∧ m < first + n)).Perm
      (List.range' first n) := by
    refine (List.perm_ext_iff_of_nodup (hnodup.filter _) (List.nodup_range' ..)).mpr fun m => ?_
    rw [List.mem_filter, List.mem_range'_1, decide_eq_true_iff, and_iff_right_iff_imp]
    rintro ⟨hle, hlt⟩
    have := hfree (m - first) (by omega)
    rwa [Nat.add_sub_cancel' hle] at this
  have hlen := hrun.length_eq
  have hsplit := l.length_eq_length_filter_add fun m => decide (first ≤ m ∧ m < first + n)
  rw [List.length_range'] at hlen
  rw [hlen] at hsplit
  simp only [← decide_not] at hsplit
  rw [withoutRun]
  omega

/-- Behind the run the list is as it was. -/
theorem withoutRun_of_front (hl : l = front ++ (first + n) :: rest) (hnodup : l.Nodup)
    (hperm : front.Perm (List.range' first n)) :
    withoutRun first n l = (first + n) :: rest := by
  have hin : ∀ m, m ∈ front ↔ first ≤ m ∧ m < first + n := fun m => by
    rw [hperm.mem_iff, List.mem_range'_1]
  have hfront : withoutRun first n front = [] := by
    refine List.filter_eq_nil_iff.mpr fun m hm => ?_
    rw [decide_eq_true_iff, not_not]
    exact (hin m).mp hm
  have hrest : withoutRun first n ((first + n) :: rest) = (first + n) :: rest := by
    refine List.filter_eq_self.mpr fun m hm => ?_
    rw [decide_eq_true_iff, ← hin m]
    rw [hl] at hnodup
    exact fun hmem => List.disjoint_of_nodup_append hnodup hmem hm
  rw [hl]
  show List.filter _ (_ ++ _) = _
  rw [List.filter_append]
  exact (congrArg (· ++ _) hfront).trans hrest

/-- If what is left is the part of the list from `first + n` on, the run is
what was in front of it. -/
theorem perm_of_withoutRun (hl : l = front ++ (first + n) :: rest) (hnodup : l.Nodup)
    (hfree : ∀ i < n, first + i ∈ l) (hleft : withoutRun first n l = (first + n) :: rest) :
    front.Perm (List.range' first n) := by
  rw [hl] at hnodup
  refine (List.perm_ext_iff_of_nodup (List.nodup_append.mp hnodup).1
    (List.nodup_range' ..)).mpr fun m => ?_
  rw [List.mem_range'_1]
  have hdisjoint := List.disjoint_of_nodup_append hnodup
  constructor
  · intro hm
    by_contra hout
    have hmem : m ∈ withoutRun first n l :=
      mem_withoutRun.mpr ⟨hl ▸ List.mem_append_left _ hm, hout⟩
    exact hdisjoint hm (hleft ▸ hmem)
  · rintro ⟨hle, hlt⟩
    have hmem := hfree (m - first) (by omega)
    rw [Nat.add_sub_cancel' hle, hl] at hmem
    refine (List.mem_append.mp hmem).resolve_right fun hback => ?_
    exact (mem_withoutRun.mp (hleft ▸ hback)).2 ⟨hle, hlt⟩

end Lists

/-! ## Taking and giving back -/

section Runs

variable {s : PhysMem} {l : List Nat} {numOfPages : Word}

/-- A run in front of the list is taken and given back rightly. -/
theorem RunInFront.takesRun (h : s.Counted l)
    (hmin : ¬ s.getFreePagesCount - numOfPages < minPages)
    (hrun : RunInFront l numOfPages.toNat) : TakesRun s l numOfPages := by
  obtain ⟨first, front, rest, hl, hperm, hhead, hlast⟩ := hrun
  have hnodup := h.list.nodup
  obtain ⟨t, hfront⟩ : ∃ t, l = first :: t := by
    obtain ⟨t, ht⟩ := List.head?_eq_some_iff.mp hhead
    exact ⟨t ++ (first + numOfPages.toNat) :: rest, by rw [hl, ht, List.cons_append]⟩
  have hfirst : first < maxPages := h.bounded first (hfront ▸ List.mem_cons_self ..)
  have hleft := withoutRun_of_front hl hnodup hperm
  have hfree : ∀ i < numOfPages.toNat, first + i ∈ l := by
    intro i hi
    rw [hl, List.mem_append, hperm.mem_iff, List.mem_range'_1]
    exact .inl ⟨Nat.le_add_right .., Nat.add_lt_add_left hi _⟩
  have hlen := length_withoutRun hnodup hfree
  have hcount := h.count_toNat
  have hlength := h.length_lt
  have hsub : (s.getFreePagesCount - numOfPages).toNat
      = (withoutRun first numOfPages.toNat l).length := by
    rw [BitVec.toNat_sub_of_le (BitVec.le_def.mpr (by omega))]
    omega
  have hnew : (s.tookRun first numOfPages).freeList = some (first + numOfPages.toNat) :=
    tookRun_freeList hfirst (by omega) hlength
  have hsuffix : Chain s.next (some (first + numOfPages.toNat))
      ((first + numOfPages.toNat) :: rest) := (hl ▸ h.list).of_append_cons
  have hcounted : (s.tookRun first numOfPages).Counted
      (withoutRun first numOfPages.toNat l) := by
    refine ⟨?_, ?_, fun m hm => h.named m (mem_withoutRun.mp hm).1,
      fun m hm => h.bounded m (mem_withoutRun.mp hm).1⟩
    · rw [FreeList, hnew, hleft]
      exact hsuffix
    · rw [tookRun_count, ← hsub, BitVec.ofNat_toNat, BitVec.setWidth_eq]
  rw [hfront] at h
  refine .inr ⟨first, _, h.getFreePages_cons hmin, hfree, hcounted, ?_, l, ?_, fun m => Iff.rfl⟩
  · rw [BitVec.lt_def, hsub, minPages_toNat] at hmin
    exact Nat.le_of_not_lt hmin
  · obtain ⟨before, hbefore⟩ := List.getLast?_eq_some_iff.mp hlast
    have hlink : s.next (first + numOfPages.toNat - 1) = some (first + numOfPages.toNat) := by
      rw [← hfront, hl, hbefore, List.append_assoc] at h
      exact h.list.of_append_cons.2.1
    have hnext : ((s.tookRun first numOfPages).addBackFreePages (pageAddress first)
        numOfPages.toNat).next = s.next := by
      funext m
      rw [addBackFreePages_next hfirst, hnew, tookRun_next]
      split
      · next hm => rw [hm, hlink]
      · rfl
    rw [FreeList, hnext, addBackFreePages_freeList hfirst, hfront]
    exact ⟨rfl, h.list.2⟩

/-- The last frame of the run is the last one in front of the rest, or
giving the run back loses a frame. -/
theorem getLast?_of_back {front rest l' : List Nat} {first n : Nat} {s' : PhysMem}
    (hchain : Chain s.next (some first) (front ++ (first + n) :: rest))
    (hnext : s'.next = s.next) (hnew : s'.freeList = some (first + n)) (hfirst : first < maxPages)
    (hlast : first + n - 1 ∈ front)
    (hback : (s'.addBackFreePages (pageAddress first) n).FreeList l')
    (hmem : ∀ m, m ∈ l' ↔ m ∈ front ++ (first + n) :: rest) :
    front.getLast? = some (first + n - 1) := by
  obtain ⟨before, behind, rfl⟩ := List.append_of_mem hlast
  cases behind with
  | nil => exact List.getLast?_concat
  | cons y behind =>
      exfalso
      have hnodup := hchain.nodup
      have hsuffix : Chain s.next (some (first + n)) ((first + n) :: rest) :=
        hchain.of_append_cons
      rw [List.append_assoc, List.cons_append] at hchain hnodup hmem
      obtain ⟨-, hnodup', hdisjoint⟩ := List.nodup_append.mp hnodup
      obtain ⟨hlastNew, hnodup''⟩ := List.nodup_cons.mp hnodup'
      -- the list after giving back jumps from the last frame of the run to the rest
      have hlink : ∀ m, m ≠ first + n - 1 →
          (s'.addBackFreePages (pageAddress first) n).next m = s.next m := by
        intro m hm
        rw [addBackFreePages_next hfirst, if_neg hm, hnext]
      have hrest : Chain (s'.addBackFreePages (pageAddress first) n).next (some (first + n))
          ((first + n) :: rest) := by
        refine hsuffix.frame fun m hm => hlink m ?_
        rintro rfl
        exact hlastNew (List.mem_append_right _ hm)
      have hjump : Chain (s'.addBackFreePages (pageAddress first) n).next (some first)
          (before ++ (first + n - 1) :: (first + n) :: rest) := by
        refine hchain.redirect ?_ fun m hm => hlink m ?_
        · rw [addBackFreePages_next hfirst, if_pos rfl, hnew]
          exact hrest
        · rintro rfl
          exact hdisjoint _ hm _ (List.mem_cons_self ..) rfl
      rw [FreeList, addBackFreePages_freeList hfirst] at hback
      have hy : y ∈ l' := (hmem y).mpr (List.mem_append_right _
        (List.mem_cons_of_mem _ (List.mem_cons_self ..)))
      rw [hback.unique hjump] at hy
      rcases List.mem_append.mp hy with hy | hy
      · exact hdisjoint _ hy _ (List.mem_cons_of_mem _ (List.mem_cons_self ..)) rfl
      · rcases List.mem_cons.mp hy with rfl | hy
        · exact hlastNew (List.mem_cons_self ..)
        · exact (List.nodup_cons.mp hnodup'').1 (List.mem_append_right _ hy)

/-- A run that is taken and given back rightly is in front of the list. -/
theorem GivesRun.runInFront {d : Nat} {t : List Nat} (h : s.Counted (d :: t))
    (hn : numOfPages ≠ 0)
    (hrun : GivesRun (d :: t) d numOfPages.toNat (s.tookRun d numOfPages)) :
    RunInFront (d :: t) numOfPages.toNat := by
  have hnodup := h.list.nodup
  have hd := h.bounded d (List.mem_cons_self ..)
  have hlen := length_withoutRun hnodup hrun.free
  have hreserve := hrun.reserve
  have hnew : (s.tookRun d numOfPages).freeList = some (d + numOfPages.toNat) :=
    tookRun_freeList hd (by omega) h.length_lt
  have hpos : 0 < numOfPages.toNat :=
    Nat.pos_of_ne_zero fun hzero => hn (BitVec.eq_of_toNat_eq hzero)
  have hleft := hrun.counted.list
  rw [FreeList, hnew, tookRun_next] at hleft
  obtain ⟨rest', hrest'⟩ : ∃ rest',
      withoutRun d numOfPages.toNat (d :: t) = (d + numOfPages.toNat) :: rest' := by
    cases hcases : withoutRun d numOfPages.toNat (d :: t) with
    | nil =>
        rw [hcases, List.length_nil] at hreserve
        omega
    | cons m rest' =>
        rw [hcases] at hleft
        exact ⟨rest', by rw [Option.some.inj hleft.1]⟩
  have hbehind : d + numOfPages.toNat ∈ d :: t :=
    (mem_withoutRun.mp (hrest' ▸ List.mem_cons_self ..)).1
  obtain ⟨front, rest, hl⟩ := List.append_of_mem hbehind
  have hsuffix : Chain s.next (some (d + numOfPages.toNat)) ((d + numOfPages.toNat) :: rest) :=
    (hl ▸ h.list).of_append_cons
  have hperm := perm_of_withoutRun hl hnodup hrun.free (hleft.unique hsuffix)
  have hhead : front.head? = some d := by
    cases front with
    | nil => exact absurd hperm.length_eq (by rw [List.length_range', List.length_nil]; omega)
    | cons x front => exact congrArg some (List.cons.inj hl).1.symm
  obtain ⟨l', hback, hmem⟩ := hrun.back
  have hchain : Chain s.next (some d) (d :: t) := ⟨rfl, h.list.2⟩
  rw [hl] at hchain hmem
  refine ⟨d, front, rest, hl, hperm, hhead,
    getLast?_of_back hchain (tookRun_next ..) hnew hd ?_ hback hmem⟩
  rw [hperm.mem_iff, List.mem_range'_1]
  omega

end Runs

/-- **Contiguous allocation.** In every state whose list and count agree,
a request for at least one frame does what it should exactly if it is
refused, or the list begins with a run in front of the frame behind it. -/
theorem takesRun_iff {s : PhysMem} {l : List Nat} (h : s.Counted l) {numOfPages : Word}
    (hn : numOfPages ≠ 0) :
    TakesRun s l numOfPages ↔
      s.getFreePagesCount - numOfPages < minPages ∨ RunInFront l numOfPages.toNat := by
  constructor
  · intro htakes
    refine or_iff_not_imp_left.mpr fun hmin => ?_
    cases l with
    | nil =>
        have hnone := h.getFreePages_nil hmin
        rcases htakes with hzero | ⟨first, s', hsome, -⟩
        · exact absurd (hnone.symm.trans hzero) (Option.some_ne_none _).symm
        · exact absurd (hnone.symm.trans hsome) (Option.some_ne_none _).symm
    | cons d t =>
        have htook := h.getFreePages_cons hmin
        rcases htakes with hzero | ⟨first, s', hsome, hrun⟩
        · have hsame := congrArg Prod.snd (Option.some.inj (htook.symm.trans hzero))
          exact absurd hsame (tookRun_ne hn)
        · obtain ⟨haddr, rfl⟩ := Prod.mk.inj (Option.some.inj (htook.symm.trans hsome))
          have hpos : 0 < numOfPages.toNat :=
            Nat.pos_of_ne_zero fun hzero => hn (BitVec.eq_of_toNat_eq hzero)
          have hfirst : first < maxPages := h.bounded first (hrun.free 0 hpos)
          obtain rfl := pageAddress_inj (h.bounded d (List.mem_cons_self ..)) hfirst haddr
          exact hrun.runInFront h hn
  · rintro (hmin | hrun)
    · exact .inl (getFreePages_refused hmin)
    · by_cases hmin : s.getFreePagesCount - numOfPages < minPages
      · exact .inl (getFreePages_refused hmin)
      · exact hrun.takesRun h hmin

def smallMemory : PhysMem := initPhysicalMemory 0x10000 0 0x20000

theorem smallMemory_counted : smallMemory.Counted (List.range' 16 16) :=
  ⟨by decide +kernel, by decide +kernel, by decide +kernel, by decide +kernel⟩

/-- Right after boot every list is a run. -/
theorem takesRun_boot : TakesRun smallMemory (List.range' 16 16) 2 :=
  (takesRun_iff smallMemory_counted (by decide)).mpr
    (.inr ⟨16, [16, 17], List.range' 19 13, rfl, .refl _, rfl, rfl⟩)

/-- Frames 16 and 17 are taken and 16 is given back. -/
def holedMemory : PhysMem :=
  smallMemory.getFreePage.2.getFreePage.2.addBackFreePages (pageAddress 16) 1

/-- Frame 17 is in use, and a request for two frames gets 16 and 17. -/
theorem getFreePages_gives_used :
    holedMemory.Counted (16 :: List.range' 18 14) ∧ 17 ∉ 16 :: List.range' 18 14 ∧
      ¬ TakesRun holedMemory (16 :: List.range' 18 14) 2 := by
  have hcounted : holedMemory.Counted (16 :: List.range' 18 14) :=
    ⟨by decide +kernel, by decide +kernel, by decide +kernel, by decide +kernel⟩
  have htook := @Counted.getFreePages_cons _ 2 _ _ hcounted (by decide +kernel)
  refine ⟨hcounted, by decide, ?_⟩
  rintro (hzero | ⟨first, s', hsome, hrun⟩)
  · have haddr := congrArg Prod.fst (Option.some.inj (htook.symm.trans hzero))
    exact absurd haddr (by decide)
  · have haddr := congrArg Prod.fst (Option.some.inj (htook.symm.trans hsome))
    have hfirst := hcounted.bounded first (hrun.free 0 (by decide))
    obtain rfl := pageAddress_inj (by decide) hfirst haddr
    exact absurd (hrun.free 1 (by decide)) (by decide)

end PhysMem

end SnowOs
