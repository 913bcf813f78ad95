import SnowOs.Ownership

/-!
# The data of the kernel heap

A block of the kernel heap is mapped to frames that hold data. No move
makes a table of a frame in use, and a page of the kernel half is only ever
mapped anew to a fresh frame, so an address of the kernel heap stays one in
every run (`Work.inHeap`), and what the kernel stores there reaches no
table and no free frame.

Being in use is a property of the frame and not of the labelling that shows
it: labels can be restricted to the tables that can be reached
(`Forest.restrict`), and all addresses of the heap are then held at once.
-/

namespace SnowOs

open Radix Machine

section Restrict

variable {roots : List Word} {m : Machine} {lab lab' : Word → Option Node} {l l' : List Nat}
  {f u v : Word}

/-- A walk from one of the roots reaches the table. -/
def Machine.Reached (roots : List Word) (m : Machine) (u : Word) : Prop :=
  ∃ r ∈ roots, ∃ p, p.length < 4 ∧ follow entryFormat m.mem r p = some u

open Classical in
/-- The labels of the tables that can be reached. -/
noncomputable def Machine.restrict (roots : List Word) (m : Machine) (lab : Word → Option Node)
    (u : Word) : Option Node :=
  if m.Reached roots u then lab u else none

theorem Machine.restrict_some {n : Node} (h : m.restrict roots lab u = some n) :
    m.Reached roots u ∧ lab u = some n := by
  rw [Machine.restrict] at h
  split at h
  · exact ⟨‹_›, h⟩
  · cases h

theorem Machine.restrict_none (h : lab u = none) : m.restrict roots lab u = none := by
  rw [Machine.restrict, h, ite_self]

theorem Machine.Forest.lab_of_reached (h : Forest roots m lab l) (hu : m.Reached roots u) :
    ∃ n, lab u = some n := by
  obtain ⟨r, hr, p, hp, hfollow⟩ := hu
  exact ⟨_, h.tables.follow_label (h.root r hr) hp hfollow⟩

theorem Machine.Held.not_reached (h : Forest roots m lab l) (hf : Held lab l f) :
    ¬ m.Reached roots f := by
  intro hreached
  obtain ⟨n, hn⟩ := h.lab_of_reached hreached
  rw [hf.unlabelled] at hn
  cases hn

theorem Machine.Held.restrict (h : Held lab l f) : Held (m.restrict roots lab) l f :=
  ⟨h.aligned, h.nonzero, restrict_none h.unlabelled, h.notFree⟩

/-- The tables that can be reached are a forest of their own. -/
theorem Machine.Forest.restrict (h : Forest roots m lab l) :
    Forest roots m (m.restrict roots lab) l where
  pool :=
    { counted := h.pool.counted
      blank := fun n hn => ⟨(h.pool.blank n hn).aligned,
        restrict_none (h.pool.blank n hn).unlabelled, (h.pool.blank n hn).zero⟩
      positive := h.pool.positive }
  tables := ⟨fun {t n i} ht hlev hp => by
    obtain ⟨⟨r, hr, p, hp4, hfollow⟩, hlab⟩ := restrict_some ht
    have hnode := h.tables.follow_label (h.root r hr) hp4 hfollow
    have hlevel : Node.shape.level n = 4 - p.length := by
      rw [← Option.some.inj (hnode.symm.trans hlab)]
      have := Node.shape.level_walk (n := .user r []) (p := p) hp4
      rw [Node.shape_level_user, List.length_nil] at this
      omega
    have hchild : m.Reached roots (entryFormat.target (m.mem t i)) := by
      refine ⟨r, hr, p ++ [i], ?_, ?_⟩
      · rw [List.length_append, List.length_singleton]
        omega
      · rw [follow_append, hfollow, Option.bind_some, follow_singleton, if_pos hp]
    rw [Machine.restrict, if_pos hchild]
    exact h.tables.edge hlab hlev hp⟩
  root := fun r hr => by
    rw [Machine.restrict, if_pos ⟨r, hr, [], Nat.zero_lt_succ _, rfl⟩]
    exact h.root r hr
  current := h.current
  zero := restrict_none h.zero
  drawn := fun hu => h.drawn (restrict_some hu).2
  leaf := fun r hr q hq => (h.leaf r hr q hq).imp id fun ⟨hp, hne, hheld⟩ =>
    ⟨hp, hne, fun hu => (hheld hu).restrict⟩

/-- A frame that one labelling shows to be in use is in use under the
restricted labels of any other. -/
theorem Machine.Held.transfer (hf : Held lab' l' f) (h' : Forest roots m lab' l')
    (h : Forest roots m lab l) : Held (m.restrict roots lab) l f := by
  refine ⟨hf.aligned, hf.nonzero, ?_, ?_⟩
  · rw [Machine.restrict, if_neg (hf.not_reached h')]
  · rw [h.pool.counted.list.unique h'.pool.counted.list]
    exact hf.notFree

end Restrict

section InHeap

variable {roots roots' : List Word} {m m' : Machine} {lab : Word → Option Node} {l : List Nat}
  {pdpt f r u v flags : Word}

theorem InHeap.congr (h : InHeap roots m v) (hpath : path u = path v) : InHeap roots m u where
  kernel := by rw [hpath]; exact h.kernel
  held := by rw [leaf_congr_path hpath]; exact h.held

/-- Any forest shows a heap address to be held, its labels restricted. -/
theorem InHeap.restrict (h : InHeap roots m v) (hF : Forest roots m lab l) :
    Held (m.restrict roots lab) l (m.entryAt m.cr3 (path v) &&& mask) := by
  obtain ⟨lab', l', hF', hheld⟩ := h.held
  rw [leaf_eq_entryAt] at hheld
  exact hheld.transfer hF' hF

theorem inHeap_of_held (hv : ¬ UserPath (path v)) (hF : Forest roots m lab l)
    (hheld : Held lab l (m.entryAt m.cr3 (path v) &&& mask)) : InHeap roots m v :=
  ⟨hv, lab, l, hF, by rw [leaf_eq_entryAt]; exact hheld⟩

theorem InHeap.mono (h : InHeap roots m v) (hsub : roots' ⊆ roots) (hcur : m.cr3 ∈ roots') :
    InHeap roots' m v := by
  obtain ⟨lab, l, hF, hheld⟩ := h.held
  exact ⟨h.kernel, lab, l, hF.mono hsub hcur, hheld⟩

/-- The kernel halves of two address spaces are the same. -/
theorem Owned.entryAt_kernel (h : Owned roots m (some pdpt)) {r s : Word} (hr : r ∈ roots)
    (hs : s ∈ roots) (hv : ¬ UserPath (path v)) :
    m.entryAt r (path v) = m.entryAt s (path v) := by
  have hfirst : offsetPml4 v = 511 := Option.some.inj (not_not.mp hv)
  have hnext : ∀ r ∈ roots, m.entryAt r (path v)
      = lookup entryFormat m.mem pdpt [offsetPdpe v, offsetPde v, offsetPte v] := by
    intro r hr
    have hshared := h.shared pdpt rfl r hr
    rw [follow_singleton, Option.ite_none_right_eq_some] at hshared
    rw [path, hfirst, entryAt, lookup_cons_cons, if_pos hshared.1, Option.some.inj hshared.2]
  rw [hnext r hr, hnext s hs]

theorem InHeap.setNewCr3 (h : InHeap roots m v) (howned : Owned roots m (some pdpt))
    (hr : r ∈ roots) : InHeap roots (m.setNewCr3 r) v := by
  obtain ⟨lab, l, hF, hheld⟩ := h.held
  refine inHeap_of_held h.kernel (hF.setNewCr3 hr) ?_
  rw [leaf_eq_entryAt, howned.entryAt_kernel howned.current hr h.kernel] at hheld
  exact hheld

/-- A heap address through a change of one mapping: the page is as it was,
or it is the one that was mapped. -/
theorem Machine.Forest.held_updatePageTables (hF : Forest roots m lab l)
    (hf : Mappable lab l u f) (hflags : FlagWord flags)
    (hlog : (0 : Word) ∉ (m.updatePageTables u f flags).log)
    (hold : Held lab l (m.entryAt m.cr3 (path v) &&& mask))
    (hnew : path v = path u → Held lab l f) :
    ∃ lab' l', Forest roots (m.updatePageTables u f flags) lab' l' ∧
      (∀ {g}, Held lab l g → Held lab' l' g) ∧
      Held lab' l' ((m.updatePageTables u f flags).entryAt m.cr3 (path v) &&& mask) := by
  obtain ⟨lab', l', hM⟩ := hF.updatePageTables hf hflags hlog
  have hkeep : ∀ {g}, Held lab l g → Held lab' l' g := fun hg => hg.grows hM.grows hM.drawn
  refine ⟨lab', l', hM.forest, hkeep, ?_⟩
  rcases (hF.updatePageTables_paths hflags hlog hF.current).1 (path v) (length_path v) with
    heq | ⟨hpath, heq⟩
  · rw [heq]
    exact hkeep hold
  · rw [heq, frame_or hf.aligned hflags.small]
    exact hkeep (hnew hpath)

theorem InHeap.mapFresh (h : InHeap roots m v) (hflags : FlagWord flags)
    (hlog : (0 : Word) ∉ (m.mapFresh u flags).log) : InHeap roots (m.mapFresh u flags) v := by
  obtain ⟨lab, l, hF, hheld⟩ := h.held
  rw [leaf_eq_entryAt] at hheld
  have hlog₁ : (0 : Word) ∉ m.getFreePage.2.log :=
    fun hmem => hlog ((mapFresh_drawn_suffix ..).subset hmem)
  obtain ⟨l₁, hF₁, hd, hfresh⟩ := hF.getFreePage hlog₁
  have hheld₁ : Held lab l₁ (m.entryAt m.cr3 (path v) &&& mask) :=
    hheld.grows (grows_getFreePage hF.tables) hd
  obtain ⟨lab', l', hF', -, hleaf⟩ := hF₁.held_updatePageTables (hfresh.mappable u) hflags hlog
    hheld₁ fun _ => hfresh
  refine inHeap_of_held h.kernel hF' ?_
  rw [Machine.mapFresh, updatePageTables_cr3]
  exact hleaf

theorem Owned.inHeap_mapFresh (h : Owned roots m (some pdpt)) (hv : ¬ UserPath (path v))
    (hflags : FlagWord flags) (hlog : (0 : Word) ∉ (m.mapFresh v flags).log) :
    InHeap roots (m.mapFresh v flags) v := by
  obtain ⟨lab, l, hF⟩ := h.sound
  obtain ⟨lab', l', hM⟩ := hF.mapFresh hflags hlog
  refine inHeap_of_held hv hM.forest ?_
  rw [hM.cr3, hM.self, frame_or hM.fresh.aligned hflags.small]
  exact hM.fresh

/-- The pages of a block. -/
theorem Owned.inHeap_kmallocPages (h : Owned roots m (some pdpt)) {n : Nat} (hn : n ≤ maxPages)
    (hlog : (0 : Word) ∉ ((List.range n).foldl kmallocPage (0, m)).2.log) :
    (0 < n → ((List.range n).foldl kmallocPage (0, m)).1.toNat < maxPages * 4096 ∧
        Aligned ((List.range n).foldl kmallocPage (0, m)).1) ∧
      ∀ i < n, InHeap roots ((List.range n).foldl kmallocPage (0, m)).2
        (kernelVirtualBase + ((List.range n).foldl kmallocPage (0, m)).1
          + BitVec.ofNat 64 (i * 4096)) := by
  induction n with
  | zero =>
      exact ⟨fun hpos => absurd hpos (Nat.lt_irrefl 0), fun i hi => absurd hi (Nat.not_lt_zero i)⟩
  | succ n ih =>
      rw [List.range_succ, List.foldl_append, List.foldl_cons, List.foldl_nil] at hlog ⊢
      have hbefore : (0 : Word) ∉ ((List.range n).foldl kmallocPage (0, m)).2.log := by
        rw [kmallocPage_snd] at hlog
        exact fun hmem => hlog ((mapFresh_log_suffix ..).subset hmem)
      obtain ⟨hfirst, hpages⟩ := ih (by omega) hbefore
      have hwork : Work roots m roots _ := work_kmallocPages (List.range n) (0, m)
      have howned := hwork.owned hbefore h
      generalize (List.range n).foldl kmallocPage (0, m) = r at hlog hfirst hpages howned ⊢
      have hbase : (kmallocPage r n).1.toNat < maxPages * 4096 ∧ Aligned (kmallocPage r n).1 := by
        show (if n = 0 then r.2.getFreePage.1 else r.1).toNat < maxPages * 4096 ∧
          Aligned (if n = 0 then r.2.getFreePage.1 else r.1)
        split
        · obtain ⟨lab, l, hF⟩ := howned.sound
          rw [kmallocPage_snd] at hlog
          obtain ⟨lab', l', hM⟩ := hF.mapFresh kernelRwFlags_flagWord hlog
          exact ⟨hM.low, hM.fresh.aligned⟩
        · exact hfirst (by omega)
      refine ⟨fun _ => hbase, fun i hi => ?_⟩
      have hkernel := not_userPath_kernel hbase.1 (show i < maxPages by omega)
      rw [kmallocPage_snd] at hlog ⊢
      by_cases hlast : i = n
      · rw [hlast] at hkernel ⊢
        exact howned.inHeap_mapFresh hkernel kernelRwFlags_flagWord hlog
      · have hsame : (kmallocPage r n).1 = r.1 := if_neg (by omega)
        rw [hsame] at hlog ⊢
        exact (hpages i (by omega)).mapFresh kernelRwFlags_flagWord hlog

theorem Owned.inHeap_kmalloc (h : Owned roots m (some pdpt)) {n : BitVec 32}
    (hn : noOfPages n ≤ maxPages) (hlog : (0 : Word) ∉ (m.kmalloc n).2.log) {k : Nat}
    (hk : k < noOfPages n * 4096) :
    InHeap roots (m.kmalloc n).2 ((m.kmalloc n).1 + BitVec.ofNat 64 k) := by
  obtain ⟨hfirst, hpages⟩ := h.inHeap_kmallocPages hn hlog
  obtain ⟨hlow, hal⟩ := hfirst (by omega)
  have hpage := hpages (k / 4096) (by omega)
  rw [kmalloc]
  generalize (List.range (noOfPages n)).foldl kmallocPage (0, m) = r at hlow hal hpage ⊢
  have hsplit : BitVec.ofNat 64 k
      = BitVec.ofNat 64 (k / 4096 * 4096) + BitVec.ofNat 64 (k % 4096) := by
    rw [← BitVec.ofNat_add, Nat.mul_comm, Nat.div_add_mod]
  have haligned : Aligned (kernelVirtualBase + r.1 + BitVec.ofNat 64 (k / 4096 * 4096)) := by
    have hbase := aligned_kernel hal
    rw [Aligned] at hbase ⊢
    rw [BitVec.toNat_add, BitVec.toNat_ofNat]
    omega
  refine hpage.congr ?_
  rw [hsplit, ← BitVec.add_assoc]
  exact path_add haligned (Nat.mod_lt _ (by decide))

theorem InHeap.setupUserPageTables (h : InHeap roots m v)
    (hlog : (0 : Word) ∉ m.setupUserPageTables.2.log) :
    InHeap (m.setupUserPageTables.1 :: roots) m.setupUserPageTables.2 v := by
  obtain ⟨lab, l, hF, hheld⟩ := h.held
  rw [leaf_eq_entryAt] at hheld
  obtain ⟨l₁, hd⟩ := hF.pool.draws ((getFreePage_draws m).setEntry ..) hlog
  have hblank := hd.blank _ (List.mem_singleton_self _)
  obtain ⟨lab', l', hF', hkeep⟩ := hF.cowRoot hlog
  refine inHeap_of_held h.kernel hF' ?_
  show Held lab' l' (m.cowRoot.entryAt m.cr3 (path v) &&& mask)
  rw [entryAt_cowRoot hF hblank.unlabelled hF.current (length_path v)]
  exact hkeep _ hheld

theorem InHeap.cowPageTables (h : InHeap roots m v)
    (hlog : (0 : Word) ∉ m.cowPageTables.2.log) :
    InHeap (m.cowPageTables.1 :: roots) m.cowPageTables.2 v := by
  obtain ⟨lab, l, hF, hheld⟩ := h.held
  rw [leaf_eq_entryAt] at hheld
  obtain ⟨lab', l', hcowed⟩ := hF.cowPageTables hlog
  obtain ⟨lab₁, ts, lab₂, hf, hg, -, hC⟩ := hF.cowPass hlog
  obtain ⟨-, hother⟩ := hF.cowed_entries hf.unlabelled hg hC
  refine inHeap_of_held h.kernel hcowed.forest ?_
  rw [hcowed.cr3, hother _ hF.current _ (length_path v) (Or.inr h.kernel)]
  exact hcowed.held hheld

theorem InHeap.setPageRefCount (h : InHeap roots m v) (a : Word) (c : Nat) :
    InHeap roots (m.setPageRefCount a c) v := by
  obtain ⟨lab, l, hF, hheld⟩ := h.held
  exact ⟨h.kernel, lab, l, hF.setPageRefCount a c, hheld⟩

/-- A change to a frame in use moves no page of the heap. -/
theorem InHeap.setHeld (h : InHeap roots m v) (hF : Forest roots m lab l) (hf : Held lab l f)
    (hmem : ∀ u, u ≠ f → m'.mem u = m.mem u) (hphys : m'.phys = m.phys)
    (hcr3 : m'.cr3 = m.cr3) (hlog : m'.log = m.log) : InHeap roots m' v := by
  have hv := h.restrict hF
  have hf' : Held (m.restrict roots lab) l f := hf.restrict
  refine inHeap_of_held h.kernel (hF.restrict.setHeld hf' hmem hphys hcr3 hlog) ?_
  have hsame : m'.entryAt m.cr3 (path v) = m.entryAt m.cr3 (path v) := by
    refine hF.restrict.entryAt_congr (fun {t k} ht => hmem t fun heq => ?_) hF.current
      (length_path v)
    rw [heq, hf'.unlabelled] at ht
    cases ht
  rw [hcr3, hsame]
  exact hv

theorem InHeap.writeByte (h : InHeap roots m v) (hF : Forest roots m lab l)
    (hheld : ∀ f, m.translate m.cr3 u = some f → Held lab l f) (b : Byte) :
    InHeap roots (m.writeByte m.cr3 u b) v := by
  rw [writeByte_eq]
  split
  · rename_i f hf
    exact h.setHeld hF (hheld f hf) (fun u hu => write_of_frame_ne _ hu _ _) rfl rfl rfl
  · exact h

theorem InHeap.cowFault {addr : Word} (h : InHeap roots m v) (hne : m.leaf m.cr3 addr ≠ 0)
    (hlog : (0 : Word) ∉ (m.cowFault addr).log) : InHeap roots (m.cowFault addr) v := by
  obtain ⟨lab, l, hF, hheld⟩ := h.held
  rcases hF.cowFault_cases hlog with heq | heq | ⟨m₁, m₂, lab₁, l₁, rfl, hlog₁, hM, hfill, heq⟩
  · rw [heq]
    exact h
  · rw [heq] at hlog ⊢
    rw [leaf_eq_entryAt] at hheld
    obtain ⟨lab', l', hF', -, hleaf⟩ := hF.held_updatePageTables (hF.mappable_leaf hne)
      userRwFlags_flagWord hlog hheld fun hpath => by
        rw [leaf_eq_entryAt, ← hpath]
        exact hheld
    refine inHeap_of_held h.kernel hF' ?_
    rw [updatePageTables_cr3]
    exact hleaf
  · rw [heq] at hlog ⊢
    have h₁ := h.mapFresh (u := kernelVirtualBase + m.getFreePage.1) kernelRwFlags_flagWord hlog₁
    have hF₂ := hM.forest.setHeld hM.fresh hfill.mem hfill.phys hfill.cr3 hfill.log
    have h₂ := (h₁.setHeld hM.forest hM.fresh hfill.mem hfill.phys hfill.cr3
      hfill.log).restrict hF₂
    have hfresh : Held (m₂.restrict roots lab₁) l₁ m.getFreePage.1 := hM.fresh.restrict
    obtain ⟨lab₃, l₃, hF₃, -, hleaf⟩ := hF₂.restrict.held_updatePageTables
      (hfresh.mappable addr) userRwFlags_flagWord hlog h₂ fun _ => hfresh
    refine (inHeap_of_held h.kernel hF₃ ?_).setPageRefCount _ _
    rw [updatePageTables_cr3]
    exact hleaf

theorem Move.inHeap (hmove : Move roots m roots' m') (hlog : (0 : Word) ∉ m'.log)
    (howned : Owned roots m (some pdpt)) (h : InHeap roots m v) : InHeap roots' m' v := by
  cases hmove with
  | switch hr => exact h.setNewCr3 howned hr
  | mapFresh u hflags => exact h.mapFresh hflags hlog
  | newRoot => exact h.setupUserPageTables hlog
  | share => exact h.cowPageTables hlog
  | store b hu =>
      obtain ⟨lab, l, hF⟩ := howned.sound
      exact h.writeByte hF (fun f hf => hF.held_translate hu hf) b
  | heapStore b hu =>
      obtain ⟨lab, l, hF, hheld⟩ := hu.held
      exact h.writeByte hF (fun f hf => frame_of_translate hf ▸ hheld) b
  | unshare hne => exact h.cowFault hne hlog

/-- An address of the kernel heap stays one. -/
theorem Work.inHeap (hwork : Work roots m roots' m') (hlog : (0 : Word) ∉ m'.log)
    (howned : Owned roots m (some pdpt)) (h : InHeap roots m v) : InHeap roots' m' v := by
  induction hwork with
  | refl => exact h
  | step hbefore hmove ih =>
      have hlog' := fun hmem => hlog (hmove.work.log_suffix.subset hmem)
      exact hmove.inHeap hlog (hbefore.owned hlog' howned) (ih hlog')

/-- Bytes stored in a block of the kernel heap. -/
theorem work_storeHeap {bs : List Byte} (howned : Owned roots m (some pdpt))
    (hlog : (0 : Word) ∉ m.log)
    (hv : ∀ i < bs.length, InHeap roots m (v + BitVec.ofNat 64 i)) :
    Work roots m roots (m.storeBytes v bs) := by
  induction bs generalizing m v with
  | nil => exact .refl
  | cons b bs ih =>
      have hfirst := hv 0 (Nat.zero_lt_succ _)
      rw [show BitVec.ofNat 64 0 = 0#64 from rfl, BitVec.add_zero] at hfirst
      have hstore := (Move.heapStore b hfirst).work
      have hlog' : (0 : Word) ∉ (m.writeByte m.cr3 v b).log := by rwa [writeByte_log]
      refine hstore.trans (ih (hstore.owned hlog' howned) hlog' fun i hi => ?_)
      have hnext := hv (i + 1) (Nat.succ_lt_succ hi)
      rw [Nat.add_comm, BitVec.ofNat_add, ← BitVec.add_assoc] at hnext
      exact hstore.inHeap hlog' howned hnext

end InHeap

end SnowOs
