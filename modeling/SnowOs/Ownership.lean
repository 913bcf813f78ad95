import SnowOs.DirectMap
import SnowOs.Exhaustion
import SnowOs.Ledger

/-!
# Who owns what the tables map

`kfree` trusts the page tables: it frees whatever frame the current
address space maps at the address it is given. What it can hit is
therefore a question about leaves. `Owned` answers it for all address
spaces at once: a leaf that is not empty names a frame that was handed
out, or it is an entry of the direct map, at `kernel_virtual_base` plus
the frame itself. The second half of `Owned` is the kernel half: entry 511
of every root names the same table.

Both are kept by each of the seven moves (`Move.owned`), and with the books
of the allocator they make `kfree` return at once for every user address
and every block of the kernel heap (`Owned.kfree_user`,
`Owned.kfree_block`).
-/

namespace SnowOs

open Radix Machine

/-- The frame a leaf names was handed out, or the leaf is one of the
direct map. -/
def LeafOwned (log : List Word) (q : List (Fin 512)) (e : Word) : Prop :=
  e = 0 ∨ e &&& mask ∈ log ∨
    ∃ n < maxPages, q = path (kernelVirtualBase + pageAddress n) ∧ e &&& mask = pageAddress n

/-- Every leaf is owned, and all kernel halves hang off the table `pdpt`,
if there is one. -/
structure Owned (roots : List Word) (m : Machine) (pdpt : Option Word) : Prop where
  sound : Sound roots m
  leaf : ∀ r ∈ roots, ∀ q, q.length = 4 → LeafOwned m.log q (m.entryAt r q)
  shared : ∀ t ∈ pdpt, ∀ r ∈ roots, follow entryFormat m.mem r [511] = some t

section Owned

variable {roots roots' : List Word} {m m' : Machine} {lab : Word → Option Node} {l : List Nat}
  {pdpt : Option Word} {log : List Word} {q : List (Fin 512)} {e f r v flags : Word}

theorem LeafOwned.mono (h : LeafOwned log q e) {log' : List Word} (hsub : log ⊆ log') :
    LeafOwned log' q e :=
  h.imp id (Or.imp (fun hf => hsub hf) id)

theorem LeafOwned.cowEntry (h : LeafOwned log q e) : LeafOwned log q (cowEntry e) := by
  rcases h with rfl | h
  · exact Or.inl cowEntry_zero
  · refine Or.inr ?_
    rw [cowEntry_frame]
    exact h

theorem leafOwned_drawn (hf : Aligned f) (hflags : FlagWord flags) (hmem : f ∈ log) :
    LeafOwned log q (f ||| flags) := by
  refine Or.inr (Or.inl ?_)
  rw [frame_or hf hflags.small]
  exact hmem

theorem LeafOwned.reflag (h : LeafOwned log q e) (hne : e ≠ 0) (hflags : FlagWord flags) :
    LeafOwned log q (e &&& mask ||| flags) := by
  refine Or.inr ?_
  rw [frame_or (aligned_and_mask e) hflags.small]
  exact h.resolve_left hne

theorem follow_root {mem mem' : Word → Fin 512 → Word} {r' : Word} {i : Fin 512}
    (h : mem' r' i = mem r i) :
    follow entryFormat mem' r' [i] = follow entryFormat mem r [i] := by
  rw [follow_singleton, follow_singleton, h]

/-! ## The pieces of a move -/

theorem Owned.current (h : Owned roots m pdpt) : m.cr3 ∈ roots := by
  obtain ⟨lab, l, hF⟩ := h.sound
  exact hF.current

theorem Owned.mono (h : Owned roots m pdpt) (hsub : roots' ⊆ roots) (hcur : m.cr3 ∈ roots') :
    Owned roots' m pdpt := by
  obtain ⟨lab, l, hF⟩ := h.sound
  exact ⟨⟨lab, l, hF.mono hsub hcur⟩, fun r hr => h.leaf r (hsub hr),
    fun t ht r hr => h.shared t ht r (hsub hr)⟩

theorem Owned.setNewCr3 (h : Owned roots m pdpt) (hr : r ∈ roots) :
    Owned roots (m.setNewCr3 r) pdpt := by
  obtain ⟨lab, l, hF⟩ := h.sound
  exact ⟨⟨lab, l, hF.setNewCr3 hr⟩, h.leaf, h.shared⟩

theorem Owned.setPageRefCount (h : Owned roots m pdpt) (a : Word) (c : Nat) :
    Owned roots (m.setPageRefCount a c) pdpt := by
  obtain ⟨lab, l, hF⟩ := h.sound
  exact ⟨⟨lab, l, hF.setPageRefCount a c⟩, h.leaf, h.shared⟩

theorem Owned.setHeld (h : Owned roots m pdpt) (hF : Forest roots m lab l) (hf : Held lab l f)
    (hmem : ∀ u, u ≠ f → m'.mem u = m.mem u) (hphys : m'.phys = m.phys)
    (hcr3 : m'.cr3 = m.cr3) (hlog : m'.log = m.log) : Owned roots m' pdpt := by
  have htable : ∀ {u n}, lab u = some n → m'.mem u = m.mem u := by
    intro u n hu
    refine hmem u fun heq => ?_
    rw [heq, hf.unlabelled] at hu
    cases hu
  refine ⟨⟨lab, l, hF.setHeld hf hmem hphys hcr3 hlog⟩, fun r hr q hq => ?_, fun t ht r hr => ?_⟩
  · rw [hF.entryAt_congr htable hr hq, hlog]
    exact h.leaf r hr q hq
  · rw [follow_root (congrFun (htable (hF.root r hr)) 511)]
    exact h.shared t ht r hr

theorem Owned.updatePageTables (h : Owned roots m pdpt) (hF : Forest roots m lab l)
    (hf : Mappable lab l v f) (hflags : FlagWord flags)
    (hown : LeafOwned m.log (path v) (f ||| flags))
    (hlog : (0 : Word) ∉ (m.updatePageTables v f flags).log) :
    Owned roots (m.updatePageTables v f flags) pdpt := by
  obtain ⟨lab', l', hM⟩ := hF.updatePageTables hf hflags hlog
  have hsub : m.log ⊆ (m.updatePageTables v f flags).log := by
    rw [hM.grows.draws.log]
    exact List.subset_append_right ..
  refine ⟨⟨lab', l', hM.forest⟩, fun r hr q hq => ?_, fun t ht r hr => ?_⟩
  · rcases (hF.updatePageTables_paths hflags hlog hr).1 q hq with heq | ⟨rfl, heq⟩
    · rw [heq]
      exact (h.leaf r hr q hq).mono hsub
    · rw [heq]
      exact hown.mono hsub
  · exact (hF.updatePageTables_paths hflags hlog hr).2 (by simp) (h.shared t ht r hr)

theorem Owned.mapFresh (h : Owned roots m pdpt) (hflags : FlagWord flags)
    (hlog : (0 : Word) ∉ (m.mapFresh v flags).log) : Owned roots (m.mapFresh v flags) pdpt := by
  obtain ⟨lab, l, hF⟩ := h.sound
  have hlog₁ : (0 : Word) ∉ m.getFreePage.2.log :=
    fun hmem => hlog ((mapFresh_drawn_suffix ..).subset hmem)
  obtain ⟨l₁, hF₁, -, hheld⟩ := hF.getFreePage hlog₁
  have h₁ : Owned roots m.getFreePage.2 pdpt :=
    ⟨⟨lab, l₁, hF₁⟩, fun r hr q hq => (h.leaf r hr q hq).mono (List.subset_cons_self ..), h.shared⟩
  exact h₁.updatePageTables hF₁ (hheld.mappable v) hflags
    (leafOwned_drawn hheld.aligned hflags (List.mem_cons_self ..)) hlog

/-- A byte stored in a frame that is no table. -/
theorem Owned.writeByte (h : Owned roots m pdpt) (hF : Forest roots m lab l)
    (hheld : ∀ f, m.translate m.cr3 v = some f → Held lab l f) (b : Byte) :
    Owned roots (m.writeByte m.cr3 v b) pdpt := by
  rw [writeByte_eq]
  split
  · rename_i f hf
    exact h.setHeld hF (hheld f hf) (fun u hu => write_of_frame_ne _ hu _ _) rfl rfl rfl
  · exact h

theorem Owned.setupUserPageTables (h : Owned roots m pdpt)
    (hlog : (0 : Word) ∉ m.setupUserPageTables.2.log) :
    Owned (m.setupUserPageTables.1 :: roots) m.setupUserPageTables.2 pdpt := by
  obtain ⟨lab, l, hF⟩ := h.sound
  obtain ⟨l₁, hd⟩ := hF.pool.draws ((getFreePage_draws m).setEntry ..) hlog
  have hf := hd.blank _ (List.mem_singleton_self _)
  have hne : ∀ r ∈ roots, r ≠ m.getFreePage.1 := by
    intro r hr heq
    have hlab := hF.root r hr
    rw [heq, hf.unlabelled] at hlab
    cases hlab
  have hsub : m.log ⊆ m.setupUserPageTables.2.log := List.subset_cons_self ..
  obtain ⟨lab', l', hnew, -⟩ := hF.cowRoot hlog
  refine ⟨⟨lab', l', hnew⟩, fun r hr q hq => ?_, fun t ht r hr => ?_⟩
  · rcases List.mem_cons.mp hr with rfl | hr
    · show LeafOwned _ q (m.cowRoot.entryAt m.getFreePage.1 q)
      rw [hF.entryAt_cowRoot_new hf hq]
      split
      · exact Or.inl rfl
      · exact (h.leaf _ hF.current q hq).mono hsub
    · show LeafOwned _ q (m.cowRoot.entryAt r q)
      rw [entryAt_cowRoot hF hf.unlabelled hr hq]
      exact (h.leaf r hr q hq).mono hsub
  · rcases List.mem_cons.mp hr with rfl | hr
    · rw [← h.shared t ht _ hF.current]
      exact follow_root (write_self ..)
    · rw [← h.shared t ht r hr]
      exact follow_root (congrFun (write_of_frame_ne _ (hne r hr) _ _) _)

theorem Owned.cowPageTables (h : Owned roots m pdpt)
    (hlog : (0 : Word) ∉ m.cowPageTables.2.log) :
    Owned (m.cowPageTables.1 :: roots) m.cowPageTables.2 pdpt := by
  obtain ⟨lab, l, hF⟩ := h.sound
  obtain ⟨lab', l', hcowed⟩ := hF.cowPageTables hlog
  obtain ⟨lab₁, ts, lab₂, hf, hg, hready, hC⟩ := hF.cowPass hlog
  have hsub : m.log ⊆ m.cowPageTables.2.log := m.cowPageTables_log_suffix.subset
  have hforest := hcowed.forest
  have hnew := hcowed.new
  rw [cowPageTables_fst] at hforest hnew ⊢
  generalize m.cowPageTables.2 = m' at hforest hC hsub ⊢
  obtain ⟨huser, hother⟩ := hF.cowed_entries hf.unlabelled hg hC
  have hold : ∀ r ∈ roots, ∀ q, q.length = 4 → LeafOwned m'.log q (m'.entryAt r q) := by
    intro r hr q hq
    by_cases hcase : r ≠ m.cr3 ∨ ¬ UserPath q
    · rw [hother r hr q hq hcase]
      exact (h.leaf r hr q hq).mono hsub
    · rw [not_or, not_not, not_not] at hcase
      rw [hcase.1, (huser q hq hcase.2).1]
      exact ((h.leaf _ hF.current q hq).mono hsub).cowEntry
  refine ⟨⟨lab', l', hforest⟩, fun r hr q hq => ?_, fun t ht r hr => ?_⟩
  · rcases List.mem_cons.mp hr with rfl | hr
    · by_cases hu : UserPath q
      · rw [(huser q hq hu).2]
        exact ((h.leaf _ hF.current q hq).mono hsub).cowEntry
      · rw [hF.cowed_kernel hf.unlabelled hg hC hq hu]
        exact hold _ hF.current q hq
    · exact hold r hr q hq
  · rcases List.mem_cons.mp hr with rfl | hr
    · rw [← h.shared t ht _ hF.current]
      refine follow_root ((hC.rest 511 fun hc => (mem_userIndices 511).mp hc rfl).trans ?_)
      exact write_self ..
    · have hne : r ≠ m.getFreePage.1 := fun heq => hnew (heq ▸ hr)
      have hlev : 1 < Node.shape.level (.user r []) := show 1 < 4 by omega
      rw [← h.shared t ht r hr]
      refine follow_root (congrFun ?_ 511)
      exact (hC.inner (hg.keep (hF.root r hr)) hlev hne).trans (write_of_frame_ne _ hne _ _)

theorem Owned.cowFault (h : Owned roots m pdpt) {addr : Word} (hne : m.leaf m.cr3 addr ≠ 0)
    (hlog : (0 : Word) ∉ (m.cowFault addr).log) : Owned roots (m.cowFault addr) pdpt := by
  obtain ⟨lab, l, hF⟩ := h.sound
  rcases hF.cowFault_cases hlog with heq | heq | ⟨m₁, m₂, lab₁, l₁, rfl, hlog₁, hM, hfill, heq⟩
  · rw [heq]
    exact h
  · rw [heq] at hlog ⊢
    have hleaf := h.leaf _ hF.current (path addr) (length_path addr)
    rw [← leaf_eq_entryAt] at hleaf
    exact h.updatePageTables hF (hF.mappable_leaf hne) userRwFlags_flagWord
      (hleaf.reflag hne userRwFlags_flagWord) hlog
  · rw [heq] at hlog ⊢
    have hdrawn : m.getFreePage.1
        ∈ (m.mapFresh (kernelVirtualBase + m.getFreePage.1) kernelRwFlags).log :=
      (mapFresh_drawn_suffix ..).subset (List.mem_cons_self ..)
    have h₁ := h.mapFresh (v := kernelVirtualBase + m.getFreePage.1) kernelRwFlags_flagWord hlog₁
    have hF₂ := hM.forest.setHeld hM.fresh hfill.mem hfill.phys hfill.cr3 hfill.log
    have h₂ := h₁.setHeld hM.forest hM.fresh hfill.mem hfill.phys hfill.cr3 hfill.log
    rw [← hfill.log] at hdrawn
    exact (h₂.updatePageTables hF₂ (hM.fresh.mappable addr) userRwFlags_flagWord
      (leafOwned_drawn hM.fresh.aligned userRwFlags_flagWord hdrawn) hlog).setPageRefCount _ _

theorem Move.owned (hmove : Move roots m roots' m') (hlog : (0 : Word) ∉ m'.log)
    (h : Owned roots m pdpt) : Owned roots' m' pdpt := by
  cases hmove with
  | switch hr => exact h.setNewCr3 hr
  | mapFresh v hflags => exact h.mapFresh hflags hlog
  | newRoot => exact h.setupUserPageTables hlog
  | share => exact h.cowPageTables hlog
  | store b hv =>
      obtain ⟨lab, l, hF⟩ := h.sound
      exact h.writeByte hF (fun f hf => hF.held_translate hv hf) b
  | heapStore b hv =>
      obtain ⟨lab, l, hF, hheld⟩ := hv.held
      exact h.writeByte hF (fun f hf => frame_of_translate hf ▸ hheld) b
  | unshare hne => exact h.cowFault hne hlog

/-- A stretch of kernel work in which no request is refused keeps every
leaf owned and all kernel halves together. -/
theorem Work.owned (hwork : Work roots m roots' m') (hlog : (0 : Word) ∉ m'.log)
    (h : Owned roots m pdpt) : Owned roots' m' pdpt := by
  induction hwork with
  | refl => exact h
  | step _ hmove ih =>
      refine hmove.owned hlog (ih fun hmem => hlog ?_)
      exact hmove.work.log_suffix.subset hmem

/-! ## What `kfree` can hit -/

theorem path_kernel_inj {n k : Nat} (hn : n < maxPages) (hk : k < maxPages)
    (h : path (kernelVirtualBase + pageAddress n) = path (kernelVirtualBase + pageAddress k)) :
    n = k := by
  rw [maxPages] at hn hk
  rw [path_eq_iff, pageIndex, pageIndex, kernel_pageAddress_toNat (by omega),
    kernel_pageAddress_toNat (by omega)] at h
  omega

theorem not_userPath_direct {n : Nat} (hn : n < maxPages) :
    ¬ UserPath (path (kernelVirtualBase + pageAddress n)) := by
  rw [maxPages] at hn
  intro hu
  exact hu (by rw [path, offsetPml4_direct (by omega)]; rfl)

/-- A block of the kernel heap, or no block. -/
def Block (m : Machine) (p : Word) : Prop := p = 0 ∨ ∃ f ∈ m.log, p = kernelVirtualBase + f

theorem Owned.walkPageTable (h : Owned roots m pdpt) (v : Word) :
    m.walkPageTable v = 0 ∨ m.walkPageTable v ∈ m.log ∨
      ∃ n < maxPages, path v = path (kernelVirtualBase + pageAddress n) ∧
        m.walkPageTable v = pageAddress n := by
  rw [walkPageTable_eq, leaf_eq_entryAt]
  rcases h.leaf _ h.current (path v) (length_path v) with hzero | hown
  · rw [hzero]
    exact Or.inl rfl
  · exact Or.inr hown

/-- `kfree(ptr)` has nothing to give back but a frame that was handed
out. -/
def Releasable (m : Machine) (ptr : Word) : Prop :=
  m.walkPageTable ptr = 0 ∨ m.walkPageTable ptr ∈ m.log

/-- The test of `kfree` stops it exactly there: the frames that are
referenced are those handed out. -/
theorem Owned.keepsFrame_iff (h : Owned roots m pdpt) (hbooks : m.Ledger l) (ptr : Word) :
    m.keepsFrame ptr = true ↔ Releasable m ptr := by
  constructor
  · intro hkeep
    rcases h.walkPageTable ptr with hzero | hlog | ⟨n, hn, -, hwalk⟩
    · exact Or.inl hzero
    · exact Or.inr hlog
    · rw [keepsFrame, Bool.or_eq_true, decide_eq_true_eq, decide_eq_true_eq] at hkeep
      refine hkeep.imp id fun hpos => ?_
      rw [hwalk] at hpos ⊢
      exact hbooks.known n hn hpos
  · rintro (hzero | hlog)
    · rw [keepsFrame, hzero]
      rfl
    · exact hbooks.keepsFrame hlog

/-- A user address maps nothing, or a frame that is referenced. -/
theorem Owned.kfree_user (h : Owned roots m pdpt) (hbooks : m.Ledger l)
    (hv : UserPath (path v)) : m.kfree v = m := by
  refine kfree_of_keepsFrame ((h.keepsFrame_iff hbooks v).mpr ?_)
  rcases h.walkPageTable v with hzero | hlog | ⟨n, hn, hpath, -⟩
  · exact Or.inl hzero
  · exact Or.inr hlog
  · rw [hpath] at hv
    exact absurd hv (not_userPath_direct hn)

/-- The frames of the kernel heap are referenced, whether they are mapped
by the direct map or by `kmalloc`. -/
theorem Owned.kfree_block (h : Owned roots m pdpt) (hbooks : m.Ledger l) (hv : Block m v) :
    m.kfree v = m := by
  rcases hv with rfl | ⟨f, hf, rfl⟩
  · exact h.kfree_user hbooks (by decide)
  refine kfree_of_keepsFrame ((h.keepsFrame_iff hbooks _).mpr ?_)
  rcases h.walkPageTable (kernelVirtualBase + f) with hzero | hlog | ⟨n, hn, hpath, hwalk⟩
  · exact Or.inl hzero
  · exact Or.inr hlog
  · obtain ⟨k, hk, rfl, -⟩ := hbooks.handed f hf
    refine Or.inr ?_
    rw [hwalk, ← path_kernel_inj hk hn hpath]
    exact hf

end Owned

end SnowOs
