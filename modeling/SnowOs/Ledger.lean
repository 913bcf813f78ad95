import SnowOs.Work

/-!
# The books of the frame allocator

Every frame `get_free_page` hands out is counted once, and an operation
that shares, maps or copies frames only ever sets a count that is not zero
to one or two. `Posts` says so of one stretch of kernel work, whatever the
page tables hold, and everything else about counts follows from it: no
count drops to zero (`Charges`), and none exceeds two (`Posts.ref_le`).

`Ledger` is what this means for the log of frames handed out: no frame was
handed out twice, none of them is on the free list, and all of them are
referenced. `kfree`, which only gives back a frame whose count is zero,
therefore never gives back a frame that was handed out.
-/

namespace SnowOs

open Radix

namespace PhysMem

theorem getFreePage_getPageRefCount_pos {s : PhysMem} {g : Word}
    (h : 0 < s.getPageRefCount g) : 0 < s.getFreePage.2.getPageRefCount g := by
  unfold getFreePage
  split
  · exact h
  · split
    · exact h
    · show 0 < ((s.setPageRefCount _ 1).pageDescriptor (SnowOs.pageNumber g)).refCount
      rw [setPageRefCount_refCount]
      split
      · exact Nat.zero_lt_one
      · exact h

/-- `get_free_page` counts the page it returns and no other. -/
theorem getFreePage_getPageRefCount_origin {s : PhysMem} {g : Word}
    (h : 0 < s.getFreePage.2.getPageRefCount g) :
    0 < s.getPageRefCount g ∨ SnowOs.pageNumber s.getFreePage.1 = SnowOs.pageNumber g := by
  by_cases heq : SnowOs.pageNumber g = SnowOs.pageNumber s.getFreePage.1
  · exact Or.inr heq.symm
  · rw [getFreePage_getPageRefCount heq] at h
    exact Or.inl h

theorem setPageRefCount_getPageRefCount_pos {s : PhysMem} {a g : Word} {c : Nat} (hc : 0 < c)
    (h : 0 < s.getPageRefCount g) : 0 < (s.setPageRefCount a c).getPageRefCount g := by
  rw [getPageRefCount, setPageRefCount_refCount]
  split
  · exact hc
  · exact h

theorem setPageRefCount_getPageRefCount_origin {s : PhysMem} {a g : Word} {c : Nat}
    (ha : 0 < s.getPageRefCount a) (h : 0 < (s.setPageRefCount a c).getPageRefCount g) :
    0 < s.getPageRefCount g := by
  rw [getPageRefCount, setPageRefCount_refCount] at h
  split at h
  · rename_i heq
    rw [getPageRefCount, heq]
    exact ha
  · exact h

theorem getFreePage_getPageRefCount_le {s : PhysMem} {g : Word}
    (h : s.getPageRefCount g ≤ 2) : s.getFreePage.2.getPageRefCount g ≤ 2 := by
  unfold getFreePage
  split
  · exact h
  · split
    · exact h
    · show ((s.setPageRefCount _ 1).pageDescriptor (SnowOs.pageNumber g)).refCount ≤ 2
      rw [setPageRefCount_refCount]
      split
      · exact Nat.le_succ 1
      · exact h

theorem setPageRefCount_getPageRefCount_le {s : PhysMem} {a g : Word} {c : Nat} (hc : c ≤ 2)
    (h : s.getPageRefCount g ≤ 2) : (s.setPageRefCount a c).getPageRefCount g ≤ 2 := by
  rw [getPageRefCount, setPageRefCount_refCount]
  split
  · exact hc
  · exact h

theorem initPhysicalMemory_refCount (physfree base length : Word) (n : Nat) :
    ((initPhysicalMemory physfree base length).pageDescriptor n).refCount = 0 := by
  have hfold : ∀ (ns : List Nat) (s : PhysMem), (∀ n, (s.pageDescriptor n).refCount = 0) →
      ∀ n, ((ns.foldl (initDescriptor physfree) s).pageDescriptor n).refCount = 0 := by
    intro ns
    induction ns with
    | nil => exact fun _ h => h
    | cons k ns ih =>
        intro s h
        refine ih _ fun n => ?_
        show (Function.update s.pageDescriptor k _ n).refCount = 0
        rw [Function.update_apply]
        split
        · rfl
        · exact h n
  exact hfold _ _ (fun _ => rfl) n

end PhysMem

namespace Machine

/-! ## Work that keeps the counts -/

/-- What kernel work does to the books: it draws the frames `ts`, and sets
counts that are not zero to one or two. -/
inductive Posts (m : Machine) : List Word → Machine → Prop
  | refl : Posts m [] m
  | draw {ts : List Word} {m' : Machine} : Posts m ts m' →
      Posts m (m'.getFreePage.1 :: ts) m'.getFreePage.2
  | recount {ts : List Word} {m' : Machine} {a : Word} {c : Nat} : Posts m ts m' →
      0 < m'.ref a → c = 1 ∨ c = 2 → Posts m ts (m'.setPageRefCount a c)
  | other {ts : List Word} {m' m'' : Machine} : Posts m ts m' → m''.phys = m'.phys →
      m''.log = m'.log → Posts m ts m''

/-- The frames `ts` are drawn and counted, no count drops to zero, and none
but theirs rises from it. -/
structure Charges (m : Machine) (ts : List Word) (m' : Machine) : Prop where
  draws : m.Draws ts m'
  keeps : ∀ g, 0 < m.ref g → 0 < m'.ref g
  counts : ∀ f ∈ ts, f ≠ 0 → 0 < m'.ref f
  origin : ∀ g, 0 < m'.ref g → 0 < m.ref g ∨ ∃ f ∈ ts, pageNumber f = pageNumber g

section Posts

variable {m m' m'' : Machine} {ts us : List Word}

theorem Posts.trans (h₁ : m.Posts ts m') (h₂ : m'.Posts us m'') : m.Posts (us ++ ts) m'' := by
  induction h₂ with
  | refl => exact h₁
  | draw _ ih => exact ih.draw
  | recount _ ha hc ih => exact ih.recount ha hc
  | other _ hphys hlog ih => exact ih.other hphys hlog

theorem Charges.refl (m : Machine) : m.Charges [] m :=
  ⟨.refl m, fun _ h => h, fun _ hf => absurd hf List.not_mem_nil, fun _ h => Or.inl h⟩

theorem Charges.trans (h₁ : m.Charges ts m') (h₂ : m'.Charges us m'') :
    m.Charges (us ++ ts) m'' where
  draws := h₁.draws.trans h₂.draws
  keeps := fun g hg => h₂.keeps g (h₁.keeps g hg)
  counts := fun f hf hne => by
    rcases List.mem_append.mp hf with hf | hf
    · exact h₂.counts f hf hne
    · exact h₂.keeps f (h₁.counts f hf hne)
  origin := fun g hg => by
    rcases h₂.origin g hg with hold | ⟨f, hf, heq⟩
    · exact (h₁.origin g hold).imp id fun ⟨f, hf, heq⟩ => ⟨f, List.mem_append_right _ hf, heq⟩
    · exact Or.inr ⟨f, List.mem_append_left _ hf, heq⟩

theorem Charges.congr (h : m.Charges ts m') (hphys : m''.phys = m'.phys)
    (hlog : m''.log = m'.log) : m.Charges ts m'' := by
  have href : ∀ g, m''.ref g = m'.ref g := fun g => by rw [ref, ref, hphys]
  refine ⟨⟨?_, ?_⟩, fun g hg => ?_, fun f hf hne => ?_, fun g hg => ?_⟩
  · rw [hphys]
    exact h.draws.phys
  · rw [hlog]
    exact h.draws.log
  · rw [href]
    exact h.keeps g hg
  · rw [href]
    exact h.counts f hf hne
  · rw [href] at hg
    exact h.origin g hg

theorem Charges.setPageRefCount (h : m.Charges ts m') {a : Word} (ha : 0 < m'.ref a) {c : Nat}
    (hc : 0 < c) : m.Charges ts (m'.setPageRefCount a c) where
  draws := ⟨h.draws.phys.adjust a c, h.draws.log⟩
  keeps := fun g hg => PhysMem.setPageRefCount_getPageRefCount_pos hc (h.keeps g hg)
  counts := fun f hf hne => PhysMem.setPageRefCount_getPageRefCount_pos hc (h.counts f hf hne)
  origin := fun g hg => h.origin g (PhysMem.setPageRefCount_getPageRefCount_origin ha hg)

theorem getFreePage_charges (m : Machine) : m.Charges [m.getFreePage.1] m.getFreePage.2 where
  draws := getFreePage_draws m
  keeps := fun _ hg => PhysMem.getFreePage_getPageRefCount_pos hg
  counts := fun f hf hne => by
    rw [List.mem_singleton.mp hf] at hne ⊢
    have hone : m.getFreePage.2.ref m.getFreePage.1 = 1 :=
      PhysMem.getFreePage_getPageRefCount_self hne
    rw [hone]
    exact Nat.zero_lt_one
  origin := fun g hg => (PhysMem.getFreePage_getPageRefCount_origin hg).imp id
    fun heq => ⟨_, List.mem_singleton_self _, heq⟩

theorem Posts.charges (h : m.Posts ts m') : m.Charges ts m' := by
  induction h with
  | refl => exact .refl m
  | @draw ts m' _ ih => exact ih.trans (getFreePage_charges m')
  | recount _ ha hc ih => exact ih.setPageRefCount ha (by omega)
  | other _ hphys hlog ih => exact ih.congr hphys hlog

/-- No count exceeds two. -/
theorem Posts.ref_le (h : m.Posts ts m') (hm : ∀ g, m.ref g ≤ 2) (g : Word) : m'.ref g ≤ 2 := by
  induction h with
  | refl => exact hm g
  | draw _ ih => exact PhysMem.getFreePage_getPageRefCount_le ih
  | recount _ _ hc ih => exact PhysMem.setPageRefCount_getPageRefCount_le (by omega) ih
  | other _ hphys _ ih =>
      rw [ref, hphys]
      exact ih

/-! ## Mappings -/

theorem descend_posts (m : Machine) (t : Word) (i : Fin 512) (flags : Word) :
    m.Posts (m.taken t i) (m.descend t i flags).2 := by
  unfold taken descend
  split
  · exact Posts.refl.other rfl rfl
  · exact Posts.refl.draw.other rfl rfl

theorem mapPage_posts (m : Machine) (root v p flags : Word) :
    m.Posts (m.mapTaken root v flags) (m.mapPage root v p flags) := by
  have h₁ := m.descend_posts root (offsetPml4 v) flags
  have h₂ := (m.descend root (offsetPml4 v) flags).2.descend_posts
    (m.descend root (offsetPml4 v) flags).1 (offsetPdpe v) flags
  exact ((h₁.trans h₂).trans (descend_posts _ _ _ flags)).other rfl rfl

theorem updatePageTables_posts (m : Machine) (v p flags : Word) :
    m.Posts (m.mapTaken m.cr3 v flags) (m.updatePageTables v p flags) := mapPage_posts ..

theorem mapFresh_posts (m : Machine) (v flags : Word) :
    ∃ ts, m.Posts (ts ++ [m.getFreePage.1]) (m.mapFresh v flags) :=
  ⟨_, Posts.refl.draw.trans (mapPage_posts ..)⟩

/-! ## Copy-on-write -/

theorem cowLeaf_posts (m : Machine) (parent child : Word) (i : Fin 512) :
    m.Posts [] (cowLeaf parent child m i) := by
  by_cases hp : present (m.mem parent i) = true
  · rw [cowLeaf_present hp]
    by_cases hone : m.phys.getPageRefCount (m.mem parent i &&& mask) = 1
    · have hshare : shareFrame m.phys (m.mem parent i &&& mask)
          = m.phys.setPageRefCount (m.mem parent i &&& mask) 2 := if_pos hone
      have hpos : 0 < m.ref (m.mem parent i &&& mask) := by
        rw [ref, hone]
        exact Nat.zero_lt_one
      rw [hshare]
      exact (Posts.refl.recount hpos (Or.inr rfl)).other rfl rfl
    · have hshare : shareFrame m.phys (m.mem parent i &&& mask) = m.phys := if_neg hone
      rw [hshare]
      exact Posts.refl.other rfl rfl
  · rw [show cowLeaf parent child m i = m from if_neg hp]
    exact .refl

theorem foldl_posts {α : Type} {f : Machine → α → Machine}
    (h : ∀ (m : Machine) (a : α), ∃ ts, m.Posts ts (f m a)) :
    ∀ (as : List α) (m : Machine), ∃ ts, m.Posts ts (as.foldl f m)
  | [], m => ⟨[], .refl⟩
  | a :: as, m => by
      obtain ⟨ts, h₁⟩ := h m a
      obtain ⟨us, h₂⟩ := foldl_posts h as (f m a)
      exact ⟨us ++ ts, h₁.trans h₂⟩

theorem cowTable_posts : ∀ (d : Nat) (parent child : Word) (is : List (Fin 512))
    (m : Machine), ∃ ts, m.Posts ts (cowTable d parent child is m)
  | 0, parent, child, is, m => foldl_posts (fun m i => ⟨[], m.cowLeaf_posts parent child i⟩) is m
  | d + 1, parent, child, is, m => by
      refine foldl_posts (fun m i => ?_) is m
      split
      · obtain ⟨ts, h⟩ := cowTable_posts d ((m.cowLink parent child i).mem parent i &&& mask)
          m.getFreePage.1 (List.finRange 512) (m.cowLink parent child i)
        have hlink : m.Posts [m.getFreePage.1] (m.cowLink parent child i) :=
          Posts.refl.draw.other rfl rfl
        exact ⟨_, hlink.trans h⟩
      · exact ⟨[], .refl⟩

theorem cowPageTables_posts (m : Machine) :
    ∃ ts, m.Posts (ts ++ [m.getFreePage.1]) m.cowPageTables.2 := by
  have hroot : m.Posts [m.getFreePage.1] m.cowRoot := Posts.refl.draw.other rfl rfl
  obtain ⟨ts, h⟩ := cowTable_posts 3 m.cr3 m.getFreePage.1 userIndices m.cowRoot
  rw [cowPageTables_eq]
  generalize cowTable 3 m.cr3 m.getFreePage.1 userIndices m.cowRoot = m' at h ⊢
  exact ⟨ts, hroot.trans h⟩

theorem cowFault_posts (m : Machine) (addr : Word) : ∃ ts, m.Posts ts (m.cowFault addr) := by
  by_cases htwo : m.phys.getPageRefCount (m.walkPageTable addr) = 2
  · rw [cowFault, if_pos htwo, kmalloc_page]
    obtain ⟨ts, h₁⟩ := m.mapFresh_posts (kernelVirtualBase + m.getFreePage.1) kernelRwFlags
    generalize m.mapFresh (kernelVirtualBase + m.getFreePage.1) kernelRwFlags = m₁ at h₁ ⊢
    have h₂ := h₁.other (memcpy_phys m₁ (kernelVirtualBase + m.getFreePage.1) addr 4096)
      (memcpy_log ..)
    have hpos : 0 < m.ref (m.walkPageTable addr) := by
      rw [ref, htwo]
      exact Nat.two_pos
    have h₃ := h₂.trans (updatePageTables_posts _ addr
      (m₁.walkPageTable (kernelVirtualBase + m.getFreePage.1)) userRwFlags)
    exact ⟨_, h₃.recount (h₃.charges.keeps _ hpos) (Or.inl rfl)⟩
  · rw [cowFault, if_neg htwo]
    split
    · exact ⟨_, mapPage_posts ..⟩
    · exact ⟨[], .refl⟩

end Posts

end Machine

open Machine

section Work

variable {roots roots' : List Word} {m m' : Machine}

theorem Move.posts (h : Move roots m roots' m') : ∃ ts, m.Posts ts m' := by
  cases h with
  | switch => exact ⟨[], Posts.refl.other rfl rfl⟩
  | mapFresh v => exact ⟨_, (m.mapFresh_posts v _).choose_spec⟩
  | newRoot => exact ⟨_, Posts.refl.draw.other rfl rfl⟩
  | share => exact ⟨_, m.cowPageTables_posts.choose_spec⟩
  | store => exact ⟨[], Posts.refl.other (writeByte_phys ..) (writeByte_log ..)⟩
  | heapStore => exact ⟨[], Posts.refl.other (writeByte_phys ..) (writeByte_log ..)⟩
  | unshare => exact m.cowFault_posts _

theorem Work.posts (h : Work roots m roots' m') : ∃ ts, m.Posts ts m' := by
  induction h with
  | refl => exact ⟨[], .refl⟩
  | step _ hmove ih =>
      obtain ⟨ts, h₁⟩ := ih
      obtain ⟨us, h₂⟩ := hmove.posts
      exact ⟨_, h₁.trans h₂⟩

theorem Work.charges (h : Work roots m roots' m') : ∃ ts, m.Charges ts m' := by
  obtain ⟨ts, hposts⟩ := h.posts
  exact ⟨ts, hposts.charges⟩

theorem Work.log_suffix (h : Work roots m roots' m') : m.log <:+ m'.log := by
  obtain ⟨ts, hc⟩ := h.charges
  exact ⟨ts, hc.draws.log.symm⟩

end Work

namespace Machine

/-! ## The books -/

/-- The frames handed out are distinct, none of them is free, and they are
exactly those that are referenced. -/
structure Ledger (m : Machine) (l : List Nat) : Prop where
  counted : m.phys.Counted l
  handed : ∀ f ∈ m.log, ∃ n < maxPages, f = pageAddress n ∧ n ∉ l
  nodup : m.log.Nodup
  refs : ∀ f ∈ m.log, 0 < m.ref f
  known : ∀ n < maxPages, 0 < m.ref (pageAddress n) → pageAddress n ∈ m.log

section Ledger

variable {m m' : Machine} {l : List Nat} {ts : List Word}

/-- The books stay in order while no request is refused, and the free
frames and those handed out always add up to the same number. -/
theorem Ledger.charges (h : m.Ledger l) (hc : m.Charges ts m') (hlog : (0 : Word) ∉ m'.log) :
    ∃ l', m'.Ledger l' ∧ l'.length + m'.log.length = l.length + m.log.length := by
  obtain ⟨ns, l', rfl, hcount, hts⟩ := h.counted.draw hc.draws.phys
  have hlog' := hc.draws.log
  have hzero : (0 : Word) ∉ ts := by
    rw [hlog', List.mem_append, not_or] at hlog
    exact hlog.1
  obtain rfl := hts hzero
  have hbound := h.counted.bounded
  obtain ⟨hns, -, hdisj⟩ := List.nodup_append.mp h.counted.list.nodup
  have hnew : ∀ f ∈ (ns.map pageAddress).reverse, ∃ n ∈ ns, f = pageAddress n := by
    intro f hf
    rw [List.mem_reverse, List.mem_map] at hf
    obtain ⟨n, hn, rfl⟩ := hf
    exact ⟨n, hn, rfl⟩
  refine ⟨l', ⟨hcount, fun f hf => ?_, ?_, fun f hf => ?_, fun n hn hpos => ?_⟩, ?_⟩
  · rw [hlog', List.mem_append] at hf
    rcases hf with hf | hf
    · obtain ⟨n, hn, rfl⟩ := hnew f hf
      exact ⟨n, hbound n (List.mem_append_left _ hn), rfl, fun hmem => hdisj n hn n hmem rfl⟩
    · obtain ⟨n, hn, rfl, hfree⟩ := h.handed f hf
      exact ⟨n, hn, rfl, fun hmem => hfree (List.mem_append_right _ hmem)⟩
  · rw [hlog', List.nodup_append]
    refine ⟨?_, h.nodup, fun f hf g hg heq => ?_⟩
    · rw [List.nodup_reverse]
      exact hns.map_on fun a ha b hb => pageAddress_inj (hbound a (List.mem_append_left _ ha))
        (hbound b (List.mem_append_left _ hb))
    · -- a frame handed out before was no longer on the list
      obtain ⟨n, hn, rfl⟩ := hnew f hf
      obtain ⟨k, hk, rfl, hfree⟩ := h.handed g hg
      have hnk := pageAddress_inj (hbound n (List.mem_append_left _ hn)) hk heq
      exact hfree (hnk ▸ List.mem_append_left _ hn)
  · by_cases hf' : f ∈ (ns.map pageAddress).reverse
    · refine hc.counts f hf' fun heq => hlog ?_
      rw [← heq]
      exact hf
    · rw [hlog', List.mem_append] at hf
      exact hc.keeps f (h.refs f (hf.resolve_left hf'))
  · rw [hlog', List.mem_append]
    rcases hc.origin _ hpos with hold | ⟨f, hf, heq⟩
    · exact Or.inr (h.known n hn hold)
    · obtain ⟨k, hk, rfl⟩ := hnew f hf
      rw [pageNumber_pageAddress (hbound k (List.mem_append_left _ hk)),
        pageNumber_pageAddress hn] at heq
      exact Or.inl (heq ▸ hf)
  · rw [hlog']
    simp only [List.length_append, List.length_reverse, List.length_map]
    omega

theorem Ledger.keepsFrame (h : m.Ledger l) {ptr : Word} (hf : m.walkPageTable ptr ∈ m.log) :
    m.keepsFrame ptr = true := by
  have href : 0 < m.phys.getPageRefCount (m.walkPageTable ptr) := h.refs _ hf
  rw [Machine.keepsFrame]
  simp [href]

end Ledger

end Machine

end SnowOs
