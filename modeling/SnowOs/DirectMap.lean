import SnowOs.ZeroedFrames

/-!
# The direct map (`init_paging`)

`init_paging` maps physical memory behind `physbase` at
`kernel_virtual_base`, page by page, and every later access to a table
goes through that map. The loop runs while `p_i` is below `physfree` plus
the bytes still free. Each table it needs is one page less at the far end,
so the map stops short of the last frame by the number of tables taken;
only the `MIN_PAGES` reserve, which `get_free_page` never hands out, hides
the gap. Seven page tables are one too many.

`Mapping` is the loop's invariant: the tables are the first frames of the
free list, in order, and hold exactly the pages below `p`. The end of the
loop is then arithmetic, and `initPaging_covers_iff` is the sizes of
memory for which the reserve is wide enough.
-/

namespace SnowOs

open Radix

/-! ## `init_paging` -/

def physbase : Word := 0x200000

def kernmem : Word := kernelVirtualBase + physbase

def physVideoMem : Word := 0xB8000

namespace Machine

/-- The loop of `init_paging`; `none` when the fuel runs out first. -/
def initPagingLoop (pml4T physfree : Word) : Nat → Word → Word → Machine → Option Machine
  | 0, _, _, _ => none
  | fuel + 1, vI, pI, m =>
      if pI < physfree + m.phys.getFreePagesCount * pageSize then
        initPagingLoop pml4T physfree fuel (vI + pageSize) (pI + pageSize)
          (m.mapPage pml4T vI pI kernelRwFlags)
      else some m

def initPaging (fuel : Nat) (m : Machine) (kernmem physbase physfree : Word) :
    Option Machine := do
  let cr3Addr := m.getFreePage
  let m ← initPagingLoop cr3Addr.1 physfree fuel kernmem physbase cr3Addr.2
  let m := m.mapPage cr3Addr.1 (kernmem - physbase + physVideoMem) physVideoMem kernelRwFlags
  return m.setNewCr3 cr3Addr.1

end Machine

/-! ## What later calls return -/

namespace PhysMem

/-- The allocator after `k` further calls of `get_free_page`. -/
def later (s : PhysMem) (k : Nat) : PhysMem := (fun s => s.getFreePage.2)^[k] s

/-- Some later sequence of calls of `get_free_page` returns the frame
`p`. -/
def CanReturn (s : PhysMem) (p : Word) : Prop :=
  ∃ k, ¬ (s.later k).getFreePagesCount < minPages ∧ (s.later k).getFreePage.1 = p

theorem later_succ (s : PhysMem) (k : Nat) : s.later (k + 1) = (s.later k).getFreePage.2 :=
  Function.iterate_succ_apply' ..

/-- The free pages are those from `next` to `bound`, in order. -/
abbrev Stock (next bound : Nat) (s : PhysMem) : Prop :=
  s.Counted (List.range' next (bound - next))

section Stock

variable {s : PhysMem} {next bound : Nat}

theorem Stock.refused_iff (h : s.Stock next bound) :
    s.getFreePagesCount < minPages ↔ bound < next + 10 := by
  rw [Counted.refused_iff h, List.length_range']
  omega

theorem Stock.getFreePage (h : s.Stock next bound) (hroom : next + 10 ≤ bound) :
    s.getFreePage.1 = pageAddress next ∧ s.getFreePage.2.Stock (next + 1) bound := by
  have hmin : ¬ s.getFreePagesCount < minPages := fun hlt => by
    have := h.refused_iff.mp hlt
    omega
  obtain ⟨n, t, hl, haddr, hc, -⟩ := Counted.getFreePage h hmin
  obtain ⟨d, hd⟩ : ∃ d, bound - next = d + 1 := ⟨bound - next - 1, by omega⟩
  rw [hd, List.range'_succ, List.cons.injEq] at hl
  obtain ⟨rfl, rfl⟩ := hl
  have hrest : bound - (next + 1) = d := by omega
  refine ⟨haddr, ?_⟩
  rw [Stock, hrest]
  exact hc

/-- After `k` calls: `k` pages further on, or stopped by the reserve. -/
theorem Stock.later (h : s.Stock next bound) : ∀ k, ∃ j, next ≤ j ∧ j ≤ next + k ∧
    (s.later k).Stock j bound ∧ (j = next + k ∨ bound < j + 10)
  | 0 => ⟨next, Nat.le_refl _, Nat.le_refl _, h, Or.inl rfl⟩
  | k + 1 => by
      obtain ⟨j, hle, hk, hj, hend⟩ := h.later k
      rw [later_succ]
      by_cases hroom : j + 10 ≤ bound
      · exact ⟨j + 1, by omega, by omega, (hj.getFreePage hroom).2, Or.inl (by omega)⟩
      · rw [getFreePage_refused (hj.refused_iff.mpr (by omega))]
        exact ⟨j, hle, by omega, hj, Or.inr (by omega)⟩

theorem Stock.count_le {s' : PhysMem} {ts : List Word} (h : s.Stock next bound)
    (hd : Draw s ts s') : s'.getFreePagesCount.toNat ≤ bound - next := by
  obtain ⟨ns, l', hl, hc, -⟩ := Counted.draw hd h
  have hlen := congrArg List.length hl
  rw [List.length_range', List.length_append] at hlen
  rw [hc.count_toNat]
  omega

theorem Stock.canReturn_iff (h : s.Stock next bound) {p : Word} :
    s.CanReturn p ↔ ∃ j, next ≤ j ∧ j + 10 ≤ bound ∧ p = pageAddress j := by
  constructor
  · rintro ⟨k, hmin, rfl⟩
    obtain ⟨j, hle, -, hj, -⟩ := h.later k
    rw [hj.refused_iff] at hmin
    exact ⟨j, hle, by omega, (hj.getFreePage (by omega)).1⟩
  · rintro ⟨j, hle, hroom, rfl⟩
    obtain ⟨j', hle', hk, hj, hend⟩ := h.later (j - next)
    obtain rfl : j' = j := by omega
    refine ⟨j' - next, fun hlt => ?_, (hj.getFreePage hroom).1⟩
    have := hj.refused_iff.mp hlt
    omega

end Stock

/-- A refused request leaves the count as it is, so all later ones are
refused. -/
theorem Draw.count_of_refused {s s' : PhysMem} {ts : List Word} (h : Draw s ts s')
    (hlow : s.getFreePagesCount < minPages) : s'.getFreePagesCount = s.getFreePagesCount := by
  induction h with
  | refl => rfl
  | take _ ih => rw [getFreePage_refused (ih ▸ hlow), ih]
  | adjust a c _ ih => exact ih

theorem not_canReturn_of_refused {s : PhysMem} (hlow : s.getFreePagesCount < minPages)
    (p : Word) : ¬ s.CanReturn p := by
  rintro ⟨k, hmin, -⟩
  have hlater : s.later k = s := Function.iterate_fixed (by rw [getFreePage_refused hlow]) k
  rw [hlater] at hmin
  exact hmin hlow

end PhysMem

/-! ## Addresses of the direct map -/

theorem pageAddress_toNat_of_lt {n : Nat} (hn : n < 2 ^ 52) :
    (pageAddress n).toNat = n * 4096 := by
  rw [pageAddress, BitVec.toNat_mul, BitVec.toNat_ofNat, pageSize_toNat]
  omega

theorem pageAddress_succ (n : Nat) : pageAddress (n + 1) = pageAddress n + pageSize := by
  rw [pageAddress, pageAddress, BitVec.ofNat_add, BitVec.add_mul]
  rfl

section Address

variable {n : Nat} (hn : n < 2 ^ 18)
include hn

theorem kernel_pageAddress_toNat :
    (kernelVirtualBase + pageAddress n).toNat = 0xffffffff80000000 + n * 4096 := by
  have hbase : kernelVirtualBase.toNat = 0xffffffff80000000 := rfl
  rw [BitVec.toNat_add, pageAddress_toNat_of_lt (by omega), hbase]
  omega

theorem offsetPml4_direct : offsetPml4 (kernelVirtualBase + pageAddress n) = 511 := by
  apply Fin.ext
  rw [offsetPml4, offset_val, kernel_pageAddress_toNat hn]
  show _ = 511
  omega

theorem offsetPdpe_direct : offsetPdpe (kernelVirtualBase + pageAddress n) = 510 := by
  apply Fin.ext
  rw [offsetPdpe, offset_val, kernel_pageAddress_toNat hn]
  show _ = 510
  omega

theorem offsetPde_direct :
    offsetPde (kernelVirtualBase + pageAddress n) = Fin.ofNat 512 (n / 512) := by
  apply Fin.ext
  rw [offsetPde, offset_val, kernel_pageAddress_toNat hn, Fin.val_ofNat]
  omega

theorem offsetPte_direct : offsetPte (kernelVirtualBase + pageAddress n) = Fin.ofNat 512 n := by
  apply Fin.ext
  rw [offsetPte, offset_val, kernel_pageAddress_toNat hn, Fin.val_ofNat]
  omega

end Address

def kernelEntry (n : Nat) : Word := pageAddress n ||| kernelRwFlags

theorem present_kernelEntry {n : Nat} (hn : n < maxPages) : present (kernelEntry n) = true :=
  present_or (aligned_pageAddress hn) kernelRwFlags_flagWord

theorem kernelEntry_frame {n : Nat} (hn : n < maxPages) :
    kernelEntry n &&& mask = pageAddress n :=
  frame_or (aligned_pageAddress hn) kernelRwFlags_flagWord.small

namespace Machine

/-! ## One page of the map -/

/-- A write to the table at page `a`, read at the table at page `b`. -/
theorem write_page {mem : Word → Fin 512 → Word} {a b : Nat} (ha : a < maxPages)
    (hb : b < maxPages) (i j : Fin 512) (w : Word) :
    write mem (pageAddress a) i w (pageAddress b) j
      = if b = a ∧ j = i then w else mem (pageAddress b) j := by
  have hiff : pageAddress b = pageAddress a ↔ b = a :=
    ⟨pageAddress_inj hb ha, fun h => h ▸ rfl⟩
  rw [write_apply]
  simp only [hiff]

/-- One level of `setup_page_tables` where the table is page `n`: already
there, or the next page of the stock. -/
theorem descend_stock {m : Machine} {t : Word} {i : Fin 512} {n next bound : Nat} {there : Prop}
    [Decidable there] (hstock : m.phys.Stock next bound)
    (hentry : m.mem t i = if there then kernelEntry n else 0) (hn : n < maxPages)
    (hnext : ¬ there → next = n) :
    (¬ there ∧ bound < next + 10 ∧ (m.descend t i kernelRwFlags).2.phys = m.phys) ∨
      ((m.descend t i kernelRwFlags).1 = pageAddress n ∧
        (m.descend t i kernelRwFlags).2.mem = write m.mem t i (kernelEntry n) ∧
        (m.descend t i kernelRwFlags).2.phys.Stock (if there then next else n + 1) bound) := by
  by_cases hthere : there
  · refine Or.inr ?_
    rw [if_pos hthere] at hentry ⊢
    rw [descend, hentry, if_pos (present_kernelEntry hn), kernelEntry_frame hn]
    exact ⟨rfl, rfl, hstock⟩
  · obtain rfl := hnext hthere
    have hfresh : m.descend t i kernelRwFlags = (m.getFreePage.1,
        m.getFreePage.2.setEntry t i (m.getFreePage.1 ||| kernelRwFlags)) := by
      rw [descend, hentry, if_neg hthere, present_zero]
      rfl
    rw [if_neg hthere, hfresh]
    by_cases hroom : next + 10 ≤ bound
    · obtain ⟨hfirst, hrest⟩ := hstock.getFreePage hroom
      rw [← getFreePage_fst] at hfirst
      rw [hfirst]
      exact Or.inr ⟨rfl, rfl, hrest⟩
    · refine Or.inl ⟨hthere, by omega, ?_⟩
      show m.phys.getFreePage.2 = m.phys
      rw [PhysMem.getFreePage_refused (hstock.refused_iff.mpr (by omega))]

/-- The store after `setup_page_tables` for page `n`, with its page table
at page `q`. -/
def directStore (mem : Word → Fin 512 → Word) (first n q : Nat) : Word → Fin 512 → Word :=
  write (write (write (write mem (pageAddress first) 511 (kernelEntry (first + 1)))
    (pageAddress (first + 1)) 510 (kernelEntry (first + 2)))
    (pageAddress (first + 2)) (Fin.ofNat 512 (n / 512)) (kernelEntry q))
    (pageAddress q) (Fin.ofNat 512 n) (kernelEntry n)

/-- `setup_page_tables(kernel_virtual_base + p, p)` for page `n`. The upper
tables are at `first`, `first + 1` and `first + 2` once there are any, and
the page table is there already or is the next page of the stock. -/
theorem mapPage_direct {m : Machine} {first n q next bound : Nat} {low here : Prop}
    [Decidable low] [Decidable here] (hstock : m.phys.Stock next bound)
    (hpml4 : m.mem (pageAddress first) 511 = if low then kernelEntry (first + 1) else 0)
    (hpdpt : m.mem (pageAddress (first + 1)) 510 = if low then kernelEntry (first + 2) else 0)
    (hpd : m.mem (pageAddress (first + 2)) (Fin.ofNat 512 (n / 512))
      = if here then kernelEntry q else 0)
    (hlow : ¬ low → next = first + 1 ∧ ¬ here)
    (hhere : ¬ here → q = if low then next else first + 3)
    (hn : n < 2 ^ 18) (hq : q < maxPages) (hfirst : first + 2 < maxPages) :
    ((m.mapPage (pageAddress first) (kernelVirtualBase + pageAddress n) (pageAddress n)
        kernelRwFlags).phys.getFreePagesCount < minPages ∧ ¬ here ∧ bound < q + 10) ∨
      ((m.mapPage (pageAddress first) (kernelVirtualBase + pageAddress n) (pageAddress n)
          kernelRwFlags).mem = directStore m.mem first n q ∧
        (m.mapPage (pageAddress first) (kernelVirtualBase + pageAddress n) (pageAddress n)
          kernelRwFlags).phys.Stock (if here then next else q + 1) bound) := by
  have hlate : ∀ {m' m'' : Machine} {ts : List Word} {k : Nat}, m'.phys.Stock k bound →
      m'.Draws ts m'' → bound < k + 10 → m''.phys.getFreePagesCount < minPages := by
    intro m' m'' ts k hk hd hend
    have hlt := hk.refused_iff.mpr hend
    rw [hd.phys.count_of_refused hlt]
    exact hlt
  rw [mapPage, offsetPml4_direct hn, offsetPdpe_direct hn, offsetPde_direct hn,
    offsetPte_direct hn]
  have hd₁ := m.descend_draws (pageAddress first) 511 kernelRwFlags
  have hL₁ := descend_stock hstock hpml4 (by omega) fun h => (hlow h).1
  generalize m.descend (pageAddress first) 511 kernelRwFlags = r₁ at hd₁ hL₁ ⊢
  have hd₂ := r₁.2.descend_draws r₁.1 510 kernelRwFlags
  rcases hL₁ with ⟨hnl, hend, hphys⟩ | ⟨ht₁, hm₁, hs₁⟩
  · have hq' := hhere (hlow hnl).2
    rw [if_neg hnl] at hq'
    have hnext := (hlow hnl).1
    rw [← hphys] at hstock
    exact Or.inl ⟨hlate hstock ((hd₂.trans (descend_draws ..)).setEntry ..) hend,
      (hlow hnl).2, by omega⟩
  have hpdpt₁ : r₁.2.mem (pageAddress (first + 1)) 510
      = if low then kernelEntry (first + 2) else 0 := by
    rw [hm₁, write_page (by omega) (by omega), if_neg (by omega)]
    exact hpdpt
  rw [ht₁] at hd₂ ⊢
  have hL₂ := descend_stock hs₁ hpdpt₁ (by omega) fun h => if_neg h
  generalize r₁.2.descend (pageAddress (first + 1)) 510 kernelRwFlags = r₂ at hd₂ hL₂ ⊢
  have hd₃ := r₂.2.descend_draws r₂.1 (Fin.ofNat 512 (n / 512)) kernelRwFlags
  rcases hL₂ with ⟨hnl, hend, hphys⟩ | ⟨ht₂, hm₂, hs₂⟩
  · have hq' := hhere (hlow hnl).2
    rw [if_neg hnl] at hq' hend
    rw [← hphys, if_neg hnl] at hs₁
    exact Or.inl ⟨hlate hs₁ (hd₃.setEntry ..) hend, (hlow hnl).2, by omega⟩
  have hpd₂ : r₂.2.mem (pageAddress (first + 2)) (Fin.ofNat 512 (n / 512))
      = if here then kernelEntry q else 0 := by
    rw [hm₂, write_page (by omega) (by omega), if_neg (by omega), hm₁,
      write_page (by omega) (by omega), if_neg (by omega)]
    exact hpd
  rw [ht₂] at hd₃ ⊢
  have hs₂' : r₂.2.phys.Stock (if low then next else first + 3) bound := by
    by_cases hl : low
    · rw [if_pos hl, if_pos hl] at hs₂
      rwa [if_pos hl]
    · rwa [if_neg hl] at hs₂ ⊢
  have hL₃ := descend_stock hs₂' hpd₂ hq fun h => (hhere h).symm
  generalize r₂.2.descend (pageAddress (first + 2)) (Fin.ofNat 512 (n / 512)) kernelRwFlags = r₃
    at hd₃ hL₃ ⊢
  rcases hL₃ with ⟨hnh, hend, hphys⟩ | ⟨ht₃, hm₃, hs₃⟩
  · rw [← hphys] at hs₂'
    refine Or.inl ⟨hlate hs₂' ((Draws.refl _).setEntry ..) hend, hnh, ?_⟩
    rwa [hhere hnh]
  · refine Or.inr ⟨?_, ?_⟩
    · rw [setEntry_mem, ht₃, hm₃, hm₂, hm₁]
      rfl
    · rw [setEntry_phys]
      by_cases hh : here
      · have hl : low := Classical.byContradiction fun h => (hlow h).2 hh
        rw [if_pos hh, if_pos hl] at hs₃
        rwa [if_pos hh]
      · rwa [if_neg hh] at hs₃ ⊢

/-! ## The loop -/

/-- The frames in use when the loop is at page `p`: the root, and from
page 512 on two tables above the page tables. -/
def usedAt (p : Nat) : Nat := if p ≤ 512 then 1 else 3 + (p - 1) / 512

/-- The frames `init_paging` takes from a memory of `bound` pages. -/
def pagingFrames (bound : Nat) : Nat := if bound ≤ 513 then 4 else (bound - 516) / 513 + 5

/-- The loop is at page `p`. The frames from `first` on are the root, the
two upper tables and the page tables, in this order, and hold exactly the
pages below `p`; those not yet taken are empty. -/
structure Mapping (first bound p : Nat) (m : Machine) : Prop where
  stock : m.phys.Stock (first + usedAt p) bound
  room : first + usedAt p ≤ bound
  start : 512 ≤ p
  reached : 512 < p → p - 1 + usedAt (p - 1) < bound
  pml4 : m.mem (pageAddress first) 511 = if 512 < p then kernelEntry (first + 1) else 0
  pdpt : m.mem (pageAddress (first + 1)) 510 = if 512 < p then kernelEntry (first + 2) else 0
  pd : ∀ j : Fin 512, m.mem (pageAddress (first + 2)) j
    = if 0 < j.val ∧ 512 * j.val < p then kernelEntry (first + 2 + j.val) else 0
  pt : ∀ j, 0 < j → 2 + j < pagingFrames bound → first + 2 + j < bound → ∀ i : Fin 512,
    m.mem (pageAddress (first + 2 + j)) i
      = if 512 * j + i.val < p then kernelEntry (512 * j + i.val) else 0

section Loop

variable {first bound p : Nat} {m : Machine}

/-- `Mapping` reads three kinds of tables; this is how one more page of the
map shows in each of them. -/
theorem directStore_apply {first n q b : Nat} {mem : Word → Fin 512 → Word} (hq : q < maxPages)
    (hfirst : first + 2 < maxPages) (hb : b < maxPages) (i : Fin 512) :
    directStore mem first n q (pageAddress b) i
      = if b = q ∧ i = Fin.ofNat 512 n then kernelEntry n
        else if b = first + 2 ∧ i = Fin.ofNat 512 (n / 512) then kernelEntry q
        else if b = first + 1 ∧ i = 510 then kernelEntry (first + 2)
        else if b = first ∧ i = 511 then kernelEntry (first + 1)
        else mem (pageAddress b) i := by
  rw [directStore, write_page hq hb, write_page hfirst hb, write_page (by omega) hb,
    write_page (by omega) hb]

/-- A page table is taken with its first page; the first of them brings
the two upper tables along. -/
theorem usedAt_cases (hp : 512 ≤ p) : (p = 512 ∧ usedAt p = 1) ∨
    (512 < p ∧ p % 512 = 0 ∧ usedAt p = 2 + p / 512) ∨
    (p % 512 ≠ 0 ∧ usedAt p = 3 + p / 512) := by
  rw [usedAt]
  split <;> omega

theorem usedAt_succ (hp : 512 ≤ p) : usedAt (p + 1) = 3 + p / 512 := by
  rw [usedAt, if_neg (by omega), Nat.add_sub_cancel]

/-- Where the loop goes on, the frames it will have taken are among those
`init_paging` takes. -/
theorem usedAt_lt_pagingFrames (hp : 512 ≤ p) (hcond : p + usedAt p < bound) :
    usedAt (p + 1) < pagingFrames bound := by
  have hcases := usedAt_cases hp
  rw [usedAt_succ hp, pagingFrames]
  split <;> omega

/-- What `init_paging` has taken once the loop has ended at page `p` and
the video page is mapped. -/
theorem pagingFrames_eq (hp : 512 ≤ p) (hreached : 512 < p → p - 1 + usedAt (p - 1) < bound)
    (hended : bound ≤ p + usedAt p) : pagingFrames bound = 3 + (p + 511) / 512 := by
  have hcases := usedAt_cases hp
  rw [pagingFrames]
  by_cases hfirst : p = 512
  · rw [if_pos (by omega)]
    omega
  · have hcases' := usedAt_cases (p := p - 1) (by omega)
    rw [if_neg (by omega)]
    omega

theorem Mapping.step_store (h : Mapping first bound p m) (hbound : bound ≤ maxPages)
    (hcond : p + usedAt p < bound) :
    ((m.mapPage (pageAddress first) (kernelVirtualBase + pageAddress p) (pageAddress p)
        kernelRwFlags).phys.getFreePagesCount < minPages ∧
        bound < first + pagingFrames bound + 10) ∨
      ((m.mapPage (pageAddress first) (kernelVirtualBase + pageAddress p) (pageAddress p)
          kernelRwFlags).mem = directStore m.mem first p (first + 2 + p / 512) ∧
        (m.mapPage (pageAddress first) (kernelVirtualBase + pageAddress p) (pageAddress p)
          kernelRwFlags).phys.Stock (first + usedAt (p + 1)) bound ∧
        first + usedAt (p + 1) ≤ bound) := by
  have hstart := h.start
  have hframes := usedAt_lt_pagingFrames hstart hcond
  have hcases := usedAt_cases hstart
  have hsucc := usedAt_succ hstart
  by_cases hrefused : bound < first + usedAt p + 10
  · have hlt := h.stock.refused_iff.mpr hrefused
    refine Or.inl ⟨?_, by omega⟩
    rw [(mapPage_draws ..).phys.count_of_refused hlt]
    exact hlt
  have hmax : maxPages = 100000 := rfl
  have hindex : (Fin.ofNat 512 (p / 512)).val = p / 512 := by
    rw [Fin.val_ofNat]
    omega
  have hpd : m.mem (pageAddress (first + 2)) (Fin.ofNat 512 (p / 512))
      = if p % 512 ≠ 0 then kernelEntry (first + 2 + p / 512) else 0 := by
    have hiff : 0 < p / 512 ∧ 512 * (p / 512) < p ↔ p % 512 ≠ 0 := by omega
    rw [h.pd, hindex]
    simp only [hiff]
  have hlow : ¬ 512 < p → first + usedAt p = first + 1 ∧ ¬ p % 512 ≠ 0 := by omega
  have hhere : ¬ p % 512 ≠ 0 → first + 2 + p / 512
      = if 512 < p then first + usedAt p else first + 3 := by
    intro hz
    split <;> omega
  rcases mapPage_direct h.stock h.pml4 h.pdpt hpd hlow hhere (by omega) (by omega) (by omega) with
    ⟨hlt, -, hend⟩ | ⟨hmem, hstock⟩
  · exact Or.inl ⟨hlt, by omega⟩
  have hnext : (if p % 512 ≠ 0 then first + usedAt p else first + 2 + p / 512 + 1)
      = first + usedAt (p + 1) := by
    split <;> omega
  rw [hnext] at hstock
  exact Or.inr ⟨hmem, hstock, by omega⟩

theorem Mapping.step (h : Mapping first bound p m) (hbound : bound ≤ maxPages)
    (hcond : p + usedAt p < bound) :
    ((m.mapPage (pageAddress first) (kernelVirtualBase + pageAddress p) (pageAddress p)
        kernelRwFlags).phys.getFreePagesCount < minPages ∧
        bound < first + pagingFrames bound + 10) ∨
      Mapping first bound (p + 1) (m.mapPage (pageAddress first)
        (kernelVirtualBase + pageAddress p) (pageAddress p) kernelRwFlags) := by
  rcases h.step_store hbound hcond with hlow | ⟨hmem, hstock, hroom⟩
  · exact Or.inl hlow
  have hstart := h.start
  have hframes := usedAt_lt_pagingFrames hstart hcond
  have hsucc := usedAt_succ hstart
  have hmax : maxPages = 100000 := rfl
  have hq : first + 2 + p / 512 < maxPages := by omega
  have hfirst : first + 2 < maxPages := by omega
  have hindex : (Fin.ofNat 512 (p / 512)).val = p / 512 := by
    rw [Fin.val_ofNat]
    omega
  have hbelow : 512 < p + 1 := by omega
  refine Or.inr ⟨hstock, hroom, by omega, fun _ => hcond, ?_, ?_, fun j => ?_,
    fun j hj hjf hjb i => ?_⟩
  · rw [hmem, directStore_apply hq hfirst (by omega), if_neg (by omega), if_neg (by omega),
      if_neg (by omega), if_pos ⟨rfl, rfl⟩, if_pos hbelow]
  · rw [hmem, directStore_apply hq hfirst (by omega), if_neg (by omega), if_neg (by omega),
      if_pos ⟨rfl, rfl⟩, if_pos hbelow]
  · have hj : j = Fin.ofNat 512 (p / 512) ↔ j.val = p / 512 := by rw [← Fin.val_inj, hindex]
    rw [hmem, directStore_apply hq hfirst hfirst, if_neg (by omega)]
    by_cases hjp : j.val = p / 512
    · rw [if_pos ⟨rfl, hj.mpr hjp⟩, if_pos (by omega), hjp]
    · rw [if_neg fun hc => hjp (hj.mp hc.2), if_neg (by omega), if_neg (by omega), h.pd]
      have hiff : 0 < j.val ∧ 512 * j.val < p + 1 ↔ 0 < j.val ∧ 512 * j.val < p := by omega
      simp only [hiff]
  · have hi : i = Fin.ofNat 512 p ↔ i.val = p % 512 := by rw [← Fin.val_inj, Fin.val_ofNat]
    have hilt := i.isLt
    rw [hmem, directStore_apply hq hfirst (by omega)]
    by_cases hhit : j = p / 512 ∧ i.val = p % 512
    · rw [if_pos ⟨by omega, hi.mpr hhit.2⟩, if_pos (by omega)]
      congr 1
      omega
    · rw [if_neg fun hc => hhit ⟨by omega, hi.mp hc.2⟩, if_neg (by omega), if_neg (by omega),
        if_neg (by omega), h.pt j hj hjf hjb]
      have hiff : 512 * j + i.val < p + 1 ↔ 512 * j + i.val < p := by omega
      simp only [hiff]

/-- The loop's bound is the number of pages still free behind `physfree`. -/
theorem lt_loopBound_iff {physfree : Word} (hal : physfree.toNat = first * 4096) {count : Word}
    (hcount : first + count.toNat ≤ maxPages) (hp : p ≤ maxPages) :
    pageAddress p < physfree + count * pageSize ↔ p < first + count.toNat := by
  have hmax : maxPages = 100000 := rfl
  rw [BitVec.lt_def, pageAddress_toNat_of_lt (by omega), BitVec.toNat_add, BitVec.toNat_mul, hal,
    pageSize_toNat]
  omega

/-- With no frame left to give, the loop maps the pages below its bound,
which no longer moves, and ends. -/
theorem initPagingLoop_refused {physfree : Word} (hal : physfree.toNat = first * 4096)
    (hbound : bound ≤ maxPages) (pml4T : Word) : ∀ (fuel : Nat) {p : Nat} {m : Machine},
      m.phys.getFreePagesCount < minPages → first + m.phys.getFreePagesCount.toNat ≤ bound →
      p ≤ maxPages → bound - p < fuel →
      ∃ m', initPagingLoop pml4T physfree fuel (kernelVirtualBase + pageAddress p)
        (pageAddress p) m = some m' ∧ m'.phys.getFreePagesCount < minPages := by
  intro fuel
  induction fuel with
  | zero =>
      intro p m hlow hfit hp hfuel
      omega
  | succ fuel ih =>
      intro p m hlow hfit hp hfuel
      have hcount : first + m.phys.getFreePagesCount.toNat ≤ maxPages := hfit.trans hbound
      have hiff := lt_loopBound_iff (p := p) hal hcount hp
      rw [initPagingLoop]
      split
      · rename_i hlt
        rw [hiff] at hlt
        have hsame := (m.mapPage_draws pml4T (kernelVirtualBase + pageAddress p)
          (pageAddress p) kernelRwFlags).phys.count_of_refused hlow
        rw [BitVec.add_assoc, ← pageAddress_succ]
        refine ih ?_ ?_ (by omega) (by omega)
        · rwa [hsame]
        · rwa [hsame]
      · exact ⟨m, rfl, hlow⟩

/-- The loop from a state of the map: it runs out of frames on the way, or
ends at the first page its bound excludes. -/
theorem initPagingLoop_mapping {physfree : Word} (hal : physfree.toNat = first * 4096)
    (hbound : bound ≤ maxPages) : ∀ (fuel : Nat) {p : Nat} {m : Machine},
      Mapping first bound p m → p ≤ maxPages → bound - p < fuel →
      ∃ m', initPagingLoop (pageAddress first) physfree fuel (kernelVirtualBase + pageAddress p)
          (pageAddress p) m = some m' ∧
        ((m'.phys.getFreePagesCount < minPages ∧ bound < first + pagingFrames bound + 10) ∨
          ∃ p', Mapping first bound p' m' ∧ bound ≤ p' + usedAt p') := by
  intro fuel
  induction fuel with
  | zero =>
      intro p m _ _ hfuel
      omega
  | succ fuel ih =>
      intro p m h hp hfuel
      have hroom := h.room
      have hcount : m.phys.getFreePagesCount.toNat = bound - (first + usedAt p) := by
        rw [PhysMem.Counted.count_toNat h.stock, List.length_range']
      have hiff := lt_loopBound_iff (p := p) hal
        (show first + m.phys.getFreePagesCount.toNat ≤ maxPages by omega) hp
      rw [initPagingLoop]
      split
      · rename_i hlt
        rw [hiff, hcount] at hlt
        have hdraw := (m.mapPage_draws (pageAddress first) (kernelVirtualBase + pageAddress p)
          (pageAddress p) kernelRwFlags).phys
        have hless := h.stock.count_le hdraw
        rw [BitVec.add_assoc, ← pageAddress_succ]
        rcases h.step hbound (by omega) with ⟨hlow, hend⟩ | hnext
        · obtain ⟨m', hrun, hlow'⟩ := initPagingLoop_refused (p := p + 1) hal hbound
            (pageAddress first) fuel hlow (by omega) (by omega) (by omega)
          exact ⟨m', hrun, Or.inl ⟨hlow', hend⟩⟩
        · exact ih hnext (by omega) (by omega)
      · rename_i hge
        rw [hiff, hcount] at hge
        exact ⟨m, rfl, Or.inr ⟨p, h, by omega⟩⟩

end Loop

/-! ## The map at the end -/

/-- A walk of the direct map: the page table of page `n` at page `q`, if
there is one, and its entry. -/
theorem translate_direct {m : Machine} {first n q : Nat} {table entry : Prop} [Decidable table]
    [Decidable entry] (hn : n < maxPages) (hq : table → q < maxPages)
    (hfirst : first + 2 < maxPages)
    (hpml4 : m.mem (pageAddress first) 511 = kernelEntry (first + 1))
    (hpdpt : m.mem (pageAddress (first + 1)) 510 = kernelEntry (first + 2))
    (hpd : m.mem (pageAddress (first + 2)) (Fin.ofNat 512 (n / 512))
      = if table then kernelEntry q else 0)
    (hpt : table → m.mem (pageAddress q) (Fin.ofNat 512 n)
      = if entry then kernelEntry n else 0) :
    m.translate (pageAddress first) (kernelVirtualBase + pageAddress n)
      = if table ∧ entry then some (pageAddress n) else none := by
  have hn' : n < 2 ^ 18 := by
    rw [maxPages] at hn
    omega
  have hwalk : m.pageTable (pageAddress first) (kernelVirtualBase + pageAddress n)
      = if table then some (pageAddress q) else none := by
    have h₁ : m.nextTable (pageAddress first) 511 = some (pageAddress (first + 1)) := by
      rw [nextTable, hpml4, if_pos (present_kernelEntry (by omega)), kernelEntry_frame (by omega)]
    have h₂ : m.nextTable (pageAddress (first + 1)) 510 = some (pageAddress (first + 2)) := by
      rw [nextTable, hpdpt, if_pos (present_kernelEntry hfirst), kernelEntry_frame hfirst]
    rw [pageTable, offsetPml4_direct hn', offsetPdpe_direct hn', offsetPde_direct hn', h₁,
      Option.bind_eq_bind, Option.bind_some, h₂, Option.bind_some, nextTable, hpd]
    by_cases ht : table
    · rw [if_pos ht, if_pos ht, if_pos (present_kernelEntry (hq ht)), kernelEntry_frame (hq ht)]
    · rw [if_neg ht, if_neg ht, present_zero]
      rfl
  have hleaf : m.leaf (pageAddress first) (kernelVirtualBase + pageAddress n)
      = if table ∧ entry then kernelEntry n else 0 := by
    rw [leaf, hwalk]
    by_cases ht : table
    · rw [if_pos ht]
      show m.mem (pageAddress q) _ = _
      rw [offsetPte_direct hn', hpt ht]
      simp only [ht, true_and]
    · rw [if_neg ht, if_neg fun h => ht h.1]
  rw [translate, hleaf]
  split
  · rw [if_pos (present_kernelEntry hn), kernelEntry_frame hn]
  · rw [present_zero]
    rfl

/-- The direct map `init_paging` leaves: the pages from 512 to `last`, and
the page of the video memory. -/
structure Direct (first bound last : Nat) (m : Machine) : Prop where
  stock : m.phys.Stock (first + pagingFrames bound) bound
  start : 512 ≤ last
  reached : 512 < last → last - 1 + usedAt (last - 1) < bound
  ended : bound ≤ last + usedAt last
  translate : ∀ n < maxPages,
    m.translate (pageAddress first) (kernelVirtualBase + pageAddress n)
      = if (512 ≤ n ∧ n < last) ∨ n = 184 then some (pageAddress n) else none

/-- What the last call of `setup_page_tables`, for the video memory,
writes. -/
theorem Mapping.video_store {first bound p : Nat} {m : Machine} (h : Mapping first bound p m)
    (hbound : bound ≤ maxPages) (hend : bound ≤ p + usedAt p) :
    ((m.mapPage (pageAddress first) (kernelVirtualBase + pageAddress 184) (pageAddress 184)
        kernelRwFlags).phys.getFreePagesCount < minPages ∧
        bound < first + pagingFrames bound + 10) ∨
      ((m.mapPage (pageAddress first) (kernelVirtualBase + pageAddress 184) (pageAddress 184)
          kernelRwFlags).mem = directStore m.mem first 184 (first + 2 + (p + 511) / 512) ∧
        (m.mapPage (pageAddress first) (kernelVirtualBase + pageAddress 184) (pageAddress 184)
          kernelRwFlags).phys.Stock (first + pagingFrames bound) bound ∧
        first + pagingFrames bound ≤ bound) := by
  have hstart := h.start
  have hcases := usedAt_cases hstart
  have hframes := pagingFrames_eq hstart h.reached hend
  by_cases hrefused : bound < first + usedAt p + 10
  · have hlt := h.stock.refused_iff.mpr hrefused
    refine Or.inl ⟨?_, by omega⟩
    rw [(mapPage_draws ..).phys.count_of_refused hlt]
    exact hlt
  have hmax : maxPages = 100000 := rfl
  have hpd : m.mem (pageAddress (first + 2)) (Fin.ofNat 512 (184 / 512))
      = if False then kernelEntry (first + 2 + (p + 511) / 512) else 0 := by
    rw [h.pd, if_neg (by simp), if_neg id]
  have hlow : ¬ 512 < p → first + usedAt p = first + 1 ∧ ¬ False := fun _ => ⟨by omega, id⟩
  have hhere : ¬ False → first + 2 + (p + 511) / 512
      = if 512 < p then first + usedAt p else first + 3 := by
    intro _
    split <;> omega
  rcases mapPage_direct h.stock h.pml4 h.pdpt hpd hlow hhere (by omega) (by omega) (by omega) with
    ⟨hlt, -, hlast⟩ | ⟨hmem, hstock⟩
  · exact Or.inl ⟨hlt, by omega⟩
  have hnext : first + 2 + (p + 511) / 512 + 1 = first + pagingFrames bound := by omega
  rw [if_neg id, hnext] at hstock
  exact Or.inr ⟨hmem, hstock, by omega⟩

theorem Mapping.video {first bound p : Nat} {m : Machine} (h : Mapping first bound p m)
    (hbound : bound ≤ maxPages) (hend : bound ≤ p + usedAt p) :
    ((m.mapPage (pageAddress first) (kernelVirtualBase + physVideoMem) physVideoMem
        kernelRwFlags).phys.getFreePagesCount < minPages ∧
        bound < first + pagingFrames bound + 10) ∨
      Direct first bound p (m.mapPage (pageAddress first) (kernelVirtualBase + physVideoMem)
        physVideoMem kernelRwFlags) := by
  have hvideo : physVideoMem = pageAddress 184 := rfl
  rw [hvideo]
  rcases h.video_store hbound hend with hlow | ⟨hmem, hstock, hroom⟩
  · exact Or.inl hlow
  have hstart := h.start
  have hcases := usedAt_cases hstart
  have hframes := pagingFrames_eq hstart h.reached hend
  have hmax : maxPages = 100000 := rfl
  have hq : first + 2 + (p + 511) / 512 < maxPages := by omega
  have hfirst : first + 2 < maxPages := by omega
  refine Or.inr ⟨hstock, hstart, h.reached, hend, fun n hn => ?_⟩
  have hentry := fun b (hb : b < maxPages) i =>
    (congrFun (congrFun hmem (pageAddress b)) i).trans (directStore_apply hq hfirst hb i)
  have hpml4 := hentry first (by omega) 511
  rw [if_neg (by omega), if_neg (by omega), if_neg (by omega), if_pos ⟨rfl, rfl⟩] at hpml4
  have hpdpt := hentry (first + 1) (by omega) 510
  rw [if_neg (by omega), if_neg (by omega), if_pos ⟨rfl, rfl⟩] at hpdpt
  by_cases hsmall : n < 512
  · have hindex : Fin.ofNat 512 n = Fin.ofNat 512 184 ↔ n = 184 := by
      rw [← Fin.val_inj, Fin.val_ofNat, Fin.val_ofNat]
      omega
    have hempty := h.pt ((p + 511) / 512) (by omega) (by omega) (by omega) (Fin.ofNat 512 n)
    rw [if_neg (by omega)] at hempty
    have hpt : True → (m.mapPage (pageAddress first) (kernelVirtualBase + pageAddress 184)
        (pageAddress 184) kernelRwFlags).mem (pageAddress (first + 2 + (p + 511) / 512))
          (Fin.ofNat 512 n) = if n = 184 then kernelEntry n else 0 := by
      intro _
      rw [hentry _ hq]
      by_cases h184 : n = 184
      · rw [if_pos ⟨rfl, hindex.mpr h184⟩, if_pos h184, h184]
      · rw [if_neg h184, if_neg fun hc => h184 (hindex.mp hc.2), if_neg (by omega),
          if_neg (by omega), if_neg (by omega), hempty]
    rw [translate_direct hn (fun _ => hq) hfirst hpml4 hpdpt ?_ hpt]
    · have hiff : True ∧ n = 184 ↔ (512 ≤ n ∧ n < p) ∨ n = 184 :=
        ⟨fun hc => Or.inr hc.2, fun hc => ⟨trivial, by omega⟩⟩
      simp only [hiff]
    · rw [hentry _ hfirst, if_neg (by omega), if_pos ⟨rfl, by rw [Nat.div_eq_of_lt hsmall]⟩,
        if_pos trivial]
  · have hindex : (Fin.ofNat 512 (n / 512)).val = n / 512 := by
      rw [Fin.val_ofNat]
      omega
    have hother : Fin.ofNat 512 (n / 512) ≠ Fin.ofNat 512 (184 / 512) := by
      rw [ne_eq, ← Fin.val_inj, hindex, Fin.val_ofNat]
      omega
    have hpt : 512 * (n / 512) < p → (m.mapPage (pageAddress first)
        (kernelVirtualBase + pageAddress 184) (pageAddress 184) kernelRwFlags).mem
          (pageAddress (first + 2 + n / 512)) (Fin.ofNat 512 n)
            = if n < p then kernelEntry n else 0 := by
      intro htable
      have hsum : 512 * (n / 512) + (Fin.ofNat 512 n).val = n := by
        rw [Fin.val_ofNat]
        omega
      rw [hentry _ (by omega), if_neg (by omega), if_neg (by omega), if_neg (by omega),
        if_neg (by omega), h.pt _ (by omega) (by omega) (by omega), hsum]
    rw [translate_direct hn (fun htable => by omega) hfirst hpml4 hpdpt ?_ hpt]
    · have hiff : 512 * (n / 512) < p ∧ n < p ↔ (512 ≤ n ∧ n < p) ∨ n = 184 := by omega
      simp only [hiff]
    · have hiff : 0 < n / 512 ∧ 512 * (n / 512) < p ↔ 512 * (n / 512) < p := by omega
      rw [hentry _ hfirst, if_neg (by omega), if_neg fun hc => hother hc.2, if_neg (by omega),
        if_neg (by omega), h.pd, hindex]
      simp only [hiff]

/-! ## Coverage -/

/-- Every frame a later sequence of `get_free_page` calls can return is
mapped at `kernel_virtual_base` plus its address. -/
def DirectMapCovers (m : Machine) : Prop :=
  ∀ p, m.phys.CanReturn p → m.translate m.cr3 (kernelVirtualBase + p) = some p

/-- The sizes for which the map reaches the last frame that can be
returned. With `bound` pages of memory, the free ones from `first` on:
either none is left to return, or they all lie between page 512 and the
end of the map, which seven page tables move too far down; or the only one
left is the video page. -/
def CoveredSize (first bound : Nat) : Prop :=
  bound < first + pagingFrames bound + 10 ∨
    512 ≤ first + pagingFrames bound ∧ bound ≤ 3594 ∨ first = 180 ∧ bound = 194

instance (first bound : Nat) : Decidable (CoveredSize first bound) :=
  inferInstanceAs (Decidable (_ ∨ _ ∨ _))

/-- The frames `init_paging` will take are zero when it starts. -/
def TablesCleared (m : Machine) (first bound : Nat) : Prop :=
  ∀ n, first ≤ n → n < first + pagingFrames bound → n < bound → ∀ k < 4096,
    m.byteAt (pageAddress n) k = 0

theorem Direct.covers_iff {first bound last : Nat} {m : Machine} (h : Direct first bound last m)
    (hbound : bound ≤ maxPages) (hcr3 : m.cr3 = pageAddress first) :
    m.DirectMapCovers ↔ CoveredSize first bound := by
  have hstart := h.start
  have hreached := h.reached
  have hended := h.ended
  have hmapped : m.DirectMapCovers ↔ ∀ j, first + pagingFrames bound ≤ j → j + 10 ≤ bound →
      (512 ≤ j ∧ j < last) ∨ j = 184 := by
    constructor
    · intro hcover j hle hroom
      have hj := hcover _ (h.stock.canReturn_iff.mpr ⟨j, hle, hroom, rfl⟩)
      rw [hcr3, h.translate j (by omega)] at hj
      by_contra hnot
      rw [if_neg hnot] at hj
      cases hj
    · rintro hall p hp
      obtain ⟨j, hle, hroom, rfl⟩ := h.stock.canReturn_iff.mp hp
      rw [hcr3, h.translate j (by omega), if_pos (hall j hle hroom)]
  have hframes := pagingFrames_eq hstart hreached hended
  have hcases := usedAt_cases hstart
  have hlast : 522 ≤ bound → (bound < last + 10 ↔ bound ≤ 3594) := by
    intro hbig
    have hcases' := usedAt_cases (p := last - 1) (by omega)
    omega
  rw [hmapped, CoveredSize]
  constructor
  · intro hall
    by_contra hnot
    have hfst := hall (first + pagingFrames bound) (by omega) (by omega)
    have hlst := hall (bound - 10) (by omega) (by omega)
    have hmid := fun hle hroom => hall 185 hle hroom
    omega
  · intro hsize j hle hroom
    omega

theorem directMapCovers_of_refused {m : Machine} (h : m.phys.getFreePagesCount < minPages) :
    m.DirectMapCovers :=
  fun p hp => absurd hp (PhysMem.not_canReturn_of_refused h p)

theorem initPaging_of_loop {fuel : Nat} {m m₁ : Machine} {physfree : Word}
    (h : initPagingLoop m.getFreePage.1 physfree fuel (kernelVirtualBase + pageAddress 512)
      (pageAddress 512) m.getFreePage.2 = some m₁) :
    m.initPaging fuel kernmem physbase physfree
      = some ((m₁.mapPage m.getFreePage.1 (kernelVirtualBase + physVideoMem) physVideoMem
          kernelRwFlags).setNewCr3 m.getFreePage.1) := by
  have hbase : physbase = pageAddress 512 := rfl
  have hvirt : kernmem - physbase = kernelVirtualBase := by decide
  rw [initPaging, hvirt, kernmem, hbase, h]
  rfl

/-- The start of the loop: the root is taken and nothing is mapped. -/
theorem mapping_start {first bound : Nat} {m : Machine} (hstock : m.phys.Stock first bound)
    (hroom : first + 10 ≤ bound) (hzero : m.TablesCleared first bound) :
    Mapping first bound 512 m.getFreePage.2 := by
  have hfour : 4 ≤ pagingFrames bound := by
    rw [pagingFrames]
    split <;> omega
  have hmem : ∀ n, first ≤ n → n < first + pagingFrames bound → n < bound → ∀ i,
      m.getFreePage.2.mem (pageAddress n) i = 0 :=
    fun n hle hlt hn => mem_eq_zero_of_byteAt (hzero n hle hlt hn)
  have hone : usedAt 512 = 1 := rfl
  refine ⟨?_, by omega, Nat.le_refl _, fun hlt => absurd hlt (Nat.lt_irrefl _), ?_, ?_,
    fun j => ?_, fun j hj hjf hjb i => ?_⟩
  · rw [hone]
    exact (hstock.getFreePage hroom).2
  · rw [hmem first (by omega) (by omega) (by omega), if_neg (Nat.lt_irrefl _)]
  · rw [hmem (first + 1) (by omega) (by omega) (by omega), if_neg (Nat.lt_irrefl _)]
  · rw [hmem (first + 2) (by omega) (by omega) (by omega), if_neg (by omega)]
  · rw [hmem (first + 2 + j) (by omega) (by omega) hjb, if_neg (by omega)]

/-- What `init_paging` leaves: the direct map, or no frame to return. -/
theorem initPaging_direct {physfree base length : Word}
    (hb : PhysMem.BootRegion physfree base length) {m : Machine}
    (hzero : (m.initPhysicalMemory physfree base length).TablesCleared
      (PhysMem.firstPage physfree) (PhysMem.endPage base length))
    {fuel : Nat} (hfuel : PhysMem.endPage base length < fuel) :
    ∃ m', (m.initPhysicalMemory physfree base length).initPaging fuel kernmem physbase physfree
        = some m' ∧
      ((m'.phys.getFreePagesCount < minPages ∧ PhysMem.endPage base length
          < PhysMem.firstPage physfree + pagingFrames (PhysMem.endPage base length) + 10) ∨
        ∃ last, m'.cr3 = pageAddress (PhysMem.firstPage physfree) ∧
          Direct (PhysMem.firstPage physfree) (PhysMem.endPage base length) last m') := by
  have hstock : (m.initPhysicalMemory physfree base length).phys.Stock
      (PhysMem.firstPage physfree) (PhysMem.endPage base length) :=
    (PhysMem.initPhysicalMemory_spec hb).1
  have hal : physfree.toNat = PhysMem.firstPage physfree * 4096 := by
    have := hb.aligned
    rw [PhysMem.firstPage]
    omega
  have hle := hb.firstPage_le
  have hbound : PhysMem.endPage base length ≤ maxPages := hb.pages_le
  have hmax : maxPages = 100000 := rfl
  generalize m.initPhysicalMemory physfree base length = boot at hzero hstock ⊢
  generalize PhysMem.firstPage physfree = first at hzero hstock hal hle ⊢
  generalize PhysMem.endPage base length = bound at hzero hstock hfuel hle hbound ⊢
  have hrefused : ∀ {m₁ : Machine}, m₁.phys.getFreePagesCount < minPages →
      ((m₁.mapPage boot.getFreePage.1 (kernelVirtualBase + physVideoMem) physVideoMem
        kernelRwFlags).setNewCr3 boot.getFreePage.1).phys.getFreePagesCount < minPages := by
    intro m₁ hlow
    rw [setNewCr3_phys, (mapPage_draws ..).phys.count_of_refused hlow]
    exact hlow
  by_cases hroom : first + 10 ≤ bound
  · have hroot : boot.getFreePage.1 = pageAddress first := (hstock.getFreePage hroom).1
    obtain ⟨m₁, hrun, hend⟩ := initPagingLoop_mapping hal hbound fuel
      (mapping_start hstock hroom hzero) (by omega) (by omega)
    rw [← hroot] at hrun
    refine ⟨_, initPaging_of_loop hrun, ?_⟩
    rcases hend with ⟨hlow, hend⟩ | ⟨p, hmap, hend⟩
    · exact Or.inl ⟨hrefused hlow, hend⟩
    · rw [hroot]
      rcases hmap.video hbound hend with hlow | hdirect
      · exact Or.inl hlow
      · exact Or.inr ⟨p, rfl, hdirect.stock, hdirect.start, hdirect.reached, hdirect.ended,
          hdirect.translate⟩
  · have hlow := hstock.refused_iff.mpr (by omega)
    have hphys : boot.getFreePage.2.phys = boot.phys := by
      rw [getFreePage_phys, PhysMem.getFreePage_refused hlow]
    have hcount : boot.phys.getFreePagesCount.toNat = bound - first := by
      rw [PhysMem.Counted.count_toNat hstock, List.length_range']
    obtain ⟨m₁, hrun, hlow₁⟩ := initPagingLoop_refused (p := 512) (m := boot.getFreePage.2) hal
      hbound boot.getFreePage.1 fuel (by rwa [hphys]) (by rw [hphys]; omega) (by omega) (by omega)
    exact ⟨_, initPaging_of_loop hrun, Or.inl ⟨hrefused hlow₁, by omega⟩⟩

/-- Behind eight times as many free pages the boot `memset` has cleared
the frames itself, whatever memory held. -/
theorem tablesCleared_of_le {physfree base length : Word}
    (hb : PhysMem.BootRegion physfree base length) (m : Machine)
    (hsize : PhysMem.firstPage physfree + 8 * pagingFrames (PhysMem.endPage base length)
      ≤ PhysMem.endPage base length) :
    (m.initPhysicalMemory physfree base length).TablesCleared (PhysMem.firstPage physfree)
      (PhysMem.endPage base length) := by
  intro n hle hlt hn k hk
  rw [byteAt_initPhysicalMemory hb m hle hn hk, if_pos (by omega)]

/-- **The direct map.** With the frames it takes zeroed, `init_paging`
returns, and its map covers every frame that can later be returned exactly
for the covered sizes. -/
theorem initPaging_covers_iff {physfree base length : Word}
    (hb : PhysMem.BootRegion physfree base length) {m : Machine}
    (hzero : (m.initPhysicalMemory physfree base length).TablesCleared
      (PhysMem.firstPage physfree) (PhysMem.endPage base length))
    {fuel : Nat} (hfuel : PhysMem.endPage base length < fuel) :
    ∃ m', (m.initPhysicalMemory physfree base length).initPaging fuel kernmem physbase physfree
        = some m' ∧
      (m'.DirectMapCovers
        ↔ CoveredSize (PhysMem.firstPage physfree) (PhysMem.endPage base length)) := by
  obtain ⟨m', hrun, ⟨hlow, hend⟩ | ⟨last, hcr3, hdirect⟩⟩ := initPaging_direct hb hzero hfuel
  · exact ⟨m', hrun, iff_of_true (directMapCovers_of_refused hlow) (Or.inl hend)⟩
  · exact ⟨m', hrun, hdirect.covers_iff hb.pages_le hcr3⟩

/-- Memory of 2304 pages, free from page 1024 on. -/
theorem initPaging_covers_iff_small :
    ∃ m', ((filledMachine 0).initPhysicalMemory 0x400000 0 0x900000).initPaging 2305 kernmem
        physbase 0x400000 = some m' ∧ m'.DirectMapCovers := by
  have hb : PhysMem.BootRegion 0x400000 0 0x900000 :=
    ⟨by decide, by decide, by decide, by decide⟩
  have hfuel : PhysMem.endPage 0 0x900000 < 2305 := by decide
  obtain ⟨m', hrun, hcover⟩ := initPaging_covers_iff (m := filledMachine 0) hb
    (tablesCleared_of_le hb _ (by decide)) hfuel
  exact ⟨m', hrun, hcover.mpr (by decide)⟩

/-- On 32 MB of memory, free from page 1024 on, whatever memory held: the
map ends before the last frames that `get_free_page` returns. -/
theorem initPaging_not_covers :
    PhysMem.BootRegion 0x400000 0x100000 0x1f00000 ∧ ∀ m : Machine,
      ∃ m', (m.initPhysicalMemory 0x400000 0x100000 0x1f00000).initPaging 8193 kernmem physbase
        0x400000 = some m' ∧ ¬ m'.DirectMapCovers := by
  have hb : PhysMem.BootRegion 0x400000 0x100000 0x1f00000 :=
    ⟨by decide, by decide, by decide, by decide⟩
  have hfuel : PhysMem.endPage 0x100000 0x1f00000 < 8193 := by decide
  refine ⟨hb, fun m => ?_⟩
  obtain ⟨m', hrun, ⟨-, hend⟩ | ⟨last, hcr3, hdirect⟩⟩ :=
    initPaging_direct (m := m) hb (tablesCleared_of_le hb m (by decide)) hfuel
  · exact absurd hend (by decide)
  · refine ⟨m', hrun, fun hcover => ?_⟩
    exact absurd ((hdirect.covers_iff hb.pages_le hcr3).mp hcover) (by decide)

end Machine

end SnowOs
