import SnowOs.Work

/-!
# Running out of frames

`get_free_page` reports failure by returning 0, and none of its callers
looks: `update_page_tables` writes the 0 into a table entry, marks it
present and goes on (`kmalloc_maps_zero`). As long as no request is
refused this does no harm. `Sustains` says that for one stretch of kernel
work; it composes and holds of each of the seven moves, so it holds of
every operation, and `no_zero_frame` is the run.
-/

namespace SnowOs

open Radix Machine

/-! ## Entries that point to frame 0 -/

/-- No present entry, at any level of the tables of `roots`, names frame
0. -/
def NoZeroFrame (roots : List Word) (m : Machine) : Prop :=
  ∀ r ∈ roots, ∀ (p : List (Fin 512)) (t : Word), p.length ≤ 3 →
    follow entryFormat m.mem r p = some t →
    ∀ i, present (m.mem t i) = true → m.mem t i &&& mask ≠ 0

theorem Machine.Forest.noZeroFrame {roots : List Word} {m : Machine}
    {lab : Word → Option Node} {l : List Nat} (h : Forest roots m lab l) :
    NoZeroFrame roots m := by
  intro r hr p t hlen hfollow i hp hzero
  have hroot := h.root r hr
  have hlevel : Node.shape.level (.user r []) = 4 := rfl
  by_cases hthree : p.length = 3
  · have hfull : (p ++ [i]).length = 4 := by rw [List.length_append, hthree]; rfl
    have hentry : m.entryAt r (p ++ [i]) = m.mem t i := by
      rw [entryAt, lookup_eq_follow, hfollow]
    rcases h.leaf r hr _ hfull with heq | ⟨-, hne, -⟩
    · rw [hentry] at heq
      rw [heq] at hp
      cases hp
    · rw [hentry] at hne
      exact hne hzero
  · have hlab := h.tables.follow_label hroot (by rw [hlevel]; omega) hfollow
    have hwalk := Node.shape.level_walk (n := .user r []) (p := p) (by rw [hlevel]; omega)
    have hedge := h.tables.edge hlab (by rw [hlevel] at hwalk; omega) hp
    rw [entryFormat_target, hzero, h.zero] at hedge
    cases hedge

/-! ## Stretches of kernel work -/

def Sound (roots : List Word) (m : Machine) : Prop := ∃ lab l, Forest roots m lab l

/-- From `m` to `m'`: order is kept as long as no request is refused. -/
structure Sustains (roots : List Word) (m : Machine) (roots' : List Word) (m' : Machine) :
    Prop where
  log : m.log <:+ m'.log
  sound : (0 : Word) ∉ m'.log → Sound roots m → Sound roots' m'

section Stretches

variable {roots roots' roots'' : List Word} {m m' m'' : Machine}

theorem Sustains.refl (roots : List Word) (m : Machine) : Sustains roots m roots m :=
  ⟨List.suffix_refl _, fun _ h => h⟩

theorem Sustains.trans (h₁ : Sustains roots m roots' m') (h₂ : Sustains roots' m' roots'' m'') :
    Sustains roots m roots'' m'' where
  log := h₁.log.trans h₂.log
  sound := fun hlog h =>
    h₂.sound hlog (h₁.sound (fun hmem => hlog (h₂.log.subset hmem)) h)

theorem sustains_setNewCr3 {r : Word} (hr : r ∈ roots) :
    Sustains roots m roots (m.setNewCr3 r) :=
  ⟨List.suffix_refl _, fun _ ⟨lab, l, h⟩ => ⟨lab, l, h.setNewCr3 hr⟩⟩

theorem sustains_mapFresh (v : Word) {flags : Word} (hflags : FlagWord flags) :
    Sustains roots m roots (m.mapFresh v flags) where
  log := mapFresh_log_suffix ..
  sound := fun hlog ⟨_, _, h⟩ => by
    obtain ⟨lab', l', h'⟩ := h.mapFresh (v := v) hflags hlog
    exact ⟨lab', l', h'.forest⟩

/-! ### Bytes -/

/-- A byte stored through the current address space, to a held frame. -/
theorem Machine.Forest.writeByte {lab : Word → Option Node} {l : List Nat}
    (h : Forest roots m lab l) {v : Word}
    (hheld : ∀ f, m.translate m.cr3 v = some f → Held lab l f) (b : Byte) :
    Forest roots (m.writeByte m.cr3 v b) lab l ∧
      ∀ r ∈ roots, ∀ u, (m.writeByte m.cr3 v b).leaf r u = m.leaf r u := by
  rw [writeByte_eq]
  split
  · rename_i f hf
    have hf' := hheld f hf
    exact ⟨h.setHeld hf' (fun u hu => write_of_frame_ne _ hu _ _) rfl rfl rfl,
      fun r hr u => h.setByte_leaf hf' _ b hr u⟩
  · exact ⟨h, fun _ _ _ => rfl⟩

theorem Machine.Forest.held_translate {lab : Word → Option Node} {l : List Nat}
    (h : Forest roots m lab l) {v f : Word} (hv : UserPath (path v))
    (hf : m.translate m.cr3 v = some f) : Held lab l f := by
  rw [translate] at hf
  split at hf
  · rename_i hp
    rw [← Option.some.inj hf]
    rcases h.leafAt h.current v with hzero | ⟨-, -, hheld⟩
    · rw [hzero] at hp
      cases hp
    · exact hheld hv
  · cases hf

@[simp] theorem writeByte_cr3 (m : Machine) (r v : Word) (b : Byte) :
    (m.writeByte r v b).cr3 = m.cr3 := by
  unfold writeByte
  split <;> rfl

theorem sustains_store {v : Word} (hv : UserPath (path v)) (b : Byte) :
    Sustains roots m roots (m.writeByte m.cr3 v b) where
  log := by rw [writeByte_log]
  sound := fun _ ⟨lab, l, h⟩ =>
    ⟨lab, l, (h.writeByte (fun f hf => h.held_translate hv hf) b).1⟩

theorem frame_of_translate {r v f : Word} (h : m.translate r v = some f) :
    f = m.leaf r v &&& mask := by
  rw [Machine.translate] at h
  split at h
  · exact (Option.some.inj h).symm
  · cases h

theorem sustains_heapStore {v : Word} (hv : InHeap roots m v) (b : Byte) :
    Sustains roots m roots (m.writeByte m.cr3 v b) where
  log := by rw [writeByte_log]
  sound := fun _ _ => by
    obtain ⟨lab, l, hF, hheld⟩ := hv.held
    exact ⟨lab, l, (hF.writeByte (fun f hf => frame_of_translate hf ▸ hheld) b).1⟩

theorem Machine.Forest.memcpy {lab : Word → Option Node} {l : List Nat}
    (h : Forest roots m lab l) {dest f : Word} (src : Word) (hdest : Aligned dest)
    (hf : m.translate m.cr3 dest = some f) (hheld : Held lab l f) :
    ∀ k ≤ 4096, (∀ u, u ≠ f → (m.memcpy dest src k).mem u = m.mem u) ∧
      (m.memcpy dest src k).cr3 = m.cr3 := by
  intro k
  induction k with
  | zero => exact fun _ => ⟨fun _ _ => rfl, rfl⟩
  | succ k ih =>
      intro hk
      obtain ⟨hmem, hcr3⟩ := ih (by omega)
      rw [memcpy_succ]
      split
      swap
      · exact ⟨hmem, hcr3⟩
      -- the tables are as before, so the byte goes to the same frame
      have hsame : (m.memcpy dest src k).translate m.cr3 (dest + BitVec.ofNat 64 k) = some f := by
        rw [translate_add hdest (by omega), ← hf, translate_eq, translate_eq,
          h.entryAt_congr (fun {u n} hu => hmem u fun heq => ?_) h.current (length_path dest)]
        rw [heq, hheld.unlabelled] at hu
        cases hu
      refine ⟨fun u hu => ?_, by rw [writeByte_cr3, hcr3]⟩
      rw [writeByte_eq, hcr3, hsame, ← hmem u hu]
      exact write_of_frame_ne _ hu _ _

/-! ### Address spaces -/

/-- A new root that shares the kernel half and maps nothing else; frames
in use stay in use. -/
theorem Machine.Forest.cowRoot {lab : Word → Option Node} {l : List Nat}
    (h : Forest roots m lab l) (hlog : (0 : Word) ∉ m.cowRoot.log) :
    ∃ lab' l', Forest (m.getFreePage.1 :: roots) m.cowRoot lab' l' ∧
      ∀ g, Held lab l g → Held lab' l' g := by
  obtain ⟨l', hd⟩ := h.pool.draws ((getFreePage_draws m).setEntry ..) hlog
  have hf := hd.blank _ (List.mem_singleton_self _)
  obtain ⟨lab', hg, hready⟩ := h.cowRoot_ready hf
  have hold : ∀ r ∈ roots, ∀ q, q.length = 4 → LeafOk lab' l' q (m.cowRoot.entryAt r q) := by
    intro r hr q hq
    rw [entryAt_cowRoot h hf.unlabelled hr hq]
    exact (h.leaf r hr q hq).grows hg hd
  have hF := h.grow hg hd rfl hold
  refine ⟨lab', l', ⟨hF.pool, hF.tables, fun r hr => ?_, List.mem_cons_of_mem _ hF.current,
    hF.zero, hF.drawn, fun r hr q hq => ?_⟩, fun g hheld => hheld.grows hg hd⟩
  · rcases List.mem_cons.mp hr with rfl | hr
    · exact hready.childLabel
    · exact hF.root r hr
  · rcases List.mem_cons.mp hr with rfl | hr
    swap
    · exact hold r hr q hq
    rw [h.entryAt_cowRoot_new hf hq]
    split
    · exact Or.inl rfl
    · exact (h.leaf _ h.current q hq).grows hg hd

theorem sustains_setupUserPageTables :
    Sustains roots m (m.setupUserPageTables.1 :: roots) m.setupUserPageTables.2 where
  log := List.suffix_cons ..
  sound := fun hlog ⟨_, _, h⟩ => by
    obtain ⟨lab', l', hnew, -⟩ := h.cowRoot hlog
    exact ⟨lab', l', hnew⟩

theorem sustains_cowPageTables :
    Sustains roots m (m.cowPageTables.1 :: roots) m.cowPageTables.2 where
  log := m.cowPageTables_log_suffix
  sound := fun hlog ⟨_, _, h⟩ => by
    obtain ⟨lab', l', hC⟩ := h.cowPageTables hlog
    exact ⟨lab', l', hC.forest⟩

/-! ### Copy-on-write faults -/

/-- The frame of a leaf that is not empty can be mapped where it is. -/
theorem Machine.Forest.mappable_leaf {lab : Word → Option Node} {l : List Nat}
    (h : Forest roots m lab l) {v : Word} (hne : m.leaf m.cr3 v ≠ 0) :
    Mappable lab l v (m.leaf m.cr3 v &&& mask) := by
  rcases h.leafAt h.current v with hzero | ⟨-, hframe, hheld⟩
  · exact absurd hzero hne
  · exact ⟨aligned_and_mask _, hframe, hheld⟩

/-- Nothing but the frame `f` has changed. -/
structure Refilled (f : Word) (m m' : Machine) : Prop where
  mem : ∀ u, u ≠ f → m'.mem u = m.mem u
  phys : m'.phys = m.phys
  cr3 : m'.cr3 = m.cr3
  log : m'.log = m.log

/-- What a fault can do: nothing, make the page writable, or map a copy of
it; the copy is made in a frame that the kernel has mapped before. -/
theorem Machine.Forest.cowFault_cases {lab : Word → Option Node} {l : List Nat}
    (h : Forest roots m lab l) {addr : Word} (hlog : (0 : Word) ∉ (m.cowFault addr).log) :
    m.cowFault addr = m ∨
      m.cowFault addr = m.updatePageTables addr (m.leaf m.cr3 addr &&& mask) userRwFlags ∨
      ∃ m₁ m₂ lab₁ l₁, m.mapFresh (kernelVirtualBase + m.getFreePage.1) kernelRwFlags = m₁ ∧
        (0 : Word) ∉ m₁.log ∧ MapsFresh roots m lab l (kernelVirtualBase + m.getFreePage.1)
          kernelRwFlags m₁ lab₁ l₁ ∧ Refilled m.getFreePage.1 m₁ m₂ ∧
        m.cowFault addr = (m₂.updatePageTables addr m.getFreePage.1 userRwFlags).setPageRefCount
          (m.leaf m.cr3 addr &&& mask) 1 := by
  by_cases htwo : m.ref (m.leaf m.cr3 addr &&& mask) = 2
  · have hlog₁ : (0 : Word) ∉
        (m.mapFresh (kernelVirtualBase + m.getFreePage.1) kernelRwFlags).log :=
      fun hmem => hlog ((cowFault_copy_log_suffix htwo).subset hmem)
    obtain ⟨lab₁, l₁, h₁⟩ := h.mapFresh kernelRwFlags_flagWord hlog₁
    obtain ⟨hmem, hcr3⟩ := h₁.forest.memcpy addr (aligned_kernel h₁.fresh.aligned)
      h₁.translate_self h₁.fresh 4096 (Nat.le_refl _)
    exact .inr (.inr ⟨_, _, lab₁, l₁, rfl, hlog₁, h₁,
      ⟨hmem, memcpy_phys .., hcr3, memcpy_log ..⟩, cowFault_copy htwo h₁.walk_self⟩)
  · by_cases hone : m.ref (m.leaf m.cr3 addr &&& mask) = 1
    · exact .inr (.inl (cowFault_inPlace hone))
    · exact .inl (cowFault_none htwo hone)

theorem sustains_cowFault {addr : Word} (hne : m.leaf m.cr3 addr ≠ 0) :
    Sustains roots m roots (m.cowFault addr) where
  log := cowFault_log_suffix ..
  sound := fun hlog ⟨lab, l, h⟩ => by
    rcases h.cowFault_cases hlog with heq | heq | ⟨m₁, m₂, lab₁, l₁, -, -, h₁, hfill, heq⟩
    · rw [heq]
      exact ⟨lab, l, h⟩
    · rw [heq] at hlog ⊢
      obtain ⟨lab', l', h'⟩ := h.updatePageTables (h.mappable_leaf hne) userRwFlags_flagWord hlog
      exact ⟨lab', l', h'.forest⟩
    · rw [heq] at hlog ⊢
      have h₂ := h₁.forest.setHeld h₁.fresh hfill.mem hfill.phys hfill.cr3 hfill.log
      obtain ⟨lab₃, l₃, h₃⟩ := h₂.updatePageTables (h₁.fresh.mappable addr)
        userRwFlags_flagWord hlog
      exact ⟨lab₃, l₃, h₃.forest.setPageRefCount _ _⟩

theorem Move.sustains (h : Move roots m roots' m') : Sustains roots m roots' m' := by
  cases h with
  | switch hr => exact sustains_setNewCr3 hr
  | mapFresh v hflags => exact sustains_mapFresh v hflags
  | newRoot => exact sustains_setupUserPageTables
  | share => exact sustains_cowPageTables
  | store b hv => exact sustains_store hv b
  | heapStore b hv => exact sustains_heapStore hv b
  | unshare hne => exact sustains_cowFault hne

theorem Work.sustains (h : Work roots m roots' m') : Sustains roots m roots' m' := by
  induction h with
  | refl => exact .refl ..
  | step _ hmove ih => exact ih.trans hmove.sustains

end Stretches

/-! ## Runs -/

/-- Runs of the memory system, with the address spaces there are: any
address space becomes current, the current process allocates, loads, forks,
stores to its pages and faults. -/
inductive MemRun (s₀ : Space) (roots₀ : List Word) : Space → List Word → Prop
  | start : MemRun s₀ roots₀ s₀ roots₀
  | switch {s : Space} {roots : List Word} (r : Word) : MemRun s₀ roots₀ s roots → r ∈ roots →
      MemRun s₀ roots₀ (s.setMachine (s.machine.setNewCr3 r)) roots
  | kmalloc {s : Space} {roots : List Word} (n : BitVec 32) : MemRun s₀ roots₀ s roots →
      MemRun s₀ roots₀ (s.kmalloc n).2 roots
  | userMalloc {s : Space} {roots : List Word} (task : Task) (bytes : Word) :
      MemRun s₀ roots₀ s roots → MemRun s₀ roots₀ (s.userMalloc task bytes).2 roots
  | loadFile {s : Space} {roots : List Word} (task : Task)
      (file : Option (List Space.Elf64Phdr)) : MemRun s₀ roots₀ s roots →
      (∀ phdrs, file = some phdrs → ∀ p ∈ phdrs, p.InUserHalf) →
      MemRun s₀ roots₀ (s.loadFile task file).2 roots
  | loadProcess {s : Space} {roots : List Word} (file : Option (List Space.Elf64Phdr)) :
      MemRun s₀ roots₀ s roots → (∀ phdrs, file = some phdrs → ∀ p ∈ phdrs, p.InUserHalf) →
      MemRun s₀ roots₀ (s.loadProcess file).2 ((s.loadProcess file).1.cr3 :: roots)
  | cowPageTables {s : Space} {roots : List Word} : MemRun s₀ roots₀ s roots →
      MemRun s₀ roots₀ (s.setMachine s.machine.cowPageTables.2)
        (s.machine.cowPageTables.1 :: roots)
  | fork {s : Space} {roots : List Word} (task : Task) (fuel : Nat) :
      MemRun s₀ roots₀ s roots → task.cr3 ∈ roots →
      MemRun s₀ roots₀ (s.fork fuel task).2 ((s.fork fuel task).1.cr3 :: roots)
  | store {s : Space} {roots : List Word} (v : Word) (b : Byte) : MemRun s₀ roots₀ s roots →
      UserAddr v →
      MemRun s₀ roots₀ (s.setMachine (s.machine.tryStore s.machine.cr3 v b)) roots
  | fault {s s' : Space} {roots : List Word} (task : Task) (cr2 : Word) :
      MemRun s₀ roots₀ s roots → s.pageFaultHandler task cr2 = some s' →
      MemRun s₀ roots₀ s' roots

theorem MemRun.work {s₀ s : Space} {roots₀ roots : List Word} (h : MemRun s₀ roots₀ s roots) :
    Work roots₀ s₀.machine roots s.machine := by
  induction h with
  | start => exact .refl
  | switch r _ hr ih => exact ih.step (.switch hr)
  | kmalloc n _ ih => exact ih.trans (work_kmalloc n)
  | userMalloc task bytes _ ih => exact ih.trans (Space.work_userMalloc task bytes)
  | loadFile task file _ hfile ih => exact ih.trans (Space.work_loadFile task hfile)
  | loadProcess file _ hfile ih => exact ih.trans (Space.work_loadProcess hfile)
  | cowPageTables _ ih => exact ih.step .share
  | fork task fuel _ ht ih => exact ih.trans (Space.work_fork ht fuel)
  | store v b _ hv ih => exact ih.trans (work_tryStore hv b)
  | fault task cr2 _ hfault ih => exact ih.trans (Space.work_pageFaultHandler hfault)

/-- **No entry points to frame 0**, in any run in which `get_free_page` is
never called with fewer than MIN_PAGES frames free. -/
theorem MemRun.no_zero_frame {s₀ s : Space} {roots₀ roots : List Word}
    (hrun : MemRun s₀ roots₀ s roots) (h₀ : Sound roots₀ s₀.machine)
    (hserved : (0 : Word) ∉ s.machine.log) : NoZeroFrame roots s.machine := by
  obtain ⟨lab, l, h⟩ := hrun.work.sustains.sound hserved h₀
  exact h.noZeroFrame

theorem Space.kmalloc_machine (s : Space) (n : BitVec 32) :
    (s.kmalloc n).2.machine = (s.machine.kmalloc n).2 := rfl

def bootSpace (physfree last : Word) : Space := { machine := bootMachine physfree last }

theorem MemRun.no_zero_frame_fork :
    NoZeroFrame
      ((((bootSpace 0x2000 0x200000).kmalloc 100).2.fork 1 { cr3 := 0x1000, processMm := 0 }).1.cr3
        :: [0x1000])
      (((bootSpace 0x2000 0x200000).kmalloc 100).2.fork 1
        { cr3 := 0x1000, processMm := 0 }).2.machine := by
  have hboot : Sound [0x1000] (bootSpace 0x2000 0x200000).machine :=
    ⟨_, _, bootMachine_forest oneProcess_region (by decide)⟩
  have hpages : noOfPages 100 = 1 := by decide
  have hstart : (bootSpace 0x2000 0x200000).machine.Account 511 1 :=
    bootMachine_account oneProcess_region (by decide)
  have hacc := hstart.kmalloc 100 (by rw [hpages]; decide)
  rw [hpages, ← Space.kmalloc_machine] at hacc
  have hlog := hacc.log
  rw [Space.kmalloc_machine] at hlog
  obtain ⟨lab, l, hF⟩ := (work_kmalloc 100).sustains.sound hlog hboot
  rw [← Space.kmalloc_machine] at hF
  have hfork := Space.fork_account hF hacc 1 { cr3 := 0x1000, processMm := 0 } (by decide)
  have hrun : MemRun (bootSpace 0x2000 0x200000) [0x1000] _ _ :=
    .fork { cr3 := 0x1000, processMm := 0 } 1 (.kmalloc 100 .start) (List.mem_singleton_self _)
  exact MemRun.no_zero_frame hrun hboot hfork.log

/-- With nine frames left a request of one byte is refused a frame; it
returns an address all the same, and the kernel half of the current root
hangs off frame 0. -/
theorem kmalloc_maps_zero :
    Sound [0x1000] (bootSpace 0x2000 0xB000).machine ∧
      NoZeroFrame [0x1000] (bootSpace 0x2000 0xB000).machine ∧
      ((bootSpace 0x2000 0xB000).kmalloc 1).1 = kernelVirtualBase ∧
      ¬ NoZeroFrame [0x1000] ((bootSpace 0x2000 0xB000).kmalloc 1).2.machine := by
  have hregion : PhysMem.BootRegion 0x2000 0 0xB000 :=
    ⟨by decide, by decide, by decide, by decide⟩
  have hF := bootMachine_forest hregion (by decide)
  refine ⟨⟨_, _, hF⟩, hF.noZeroFrame, by decide +kernel, fun h => ?_⟩
  have hzero := h 0x1000 (List.mem_singleton_self _) [] 0x1000 (Nat.zero_le 3) rfl 511
    (by decide +kernel)
  exact hzero (by decide +kernel)

end SnowOs
