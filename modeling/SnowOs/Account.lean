import Mathlib.Data.Finset.Card
import SnowOs.CowIsolation
import SnowOs.FrameInv
import SnowOs.PageMap

/-!
# How many frames an operation takes

`get_free_page` refuses once fewer than MIN_PAGES frames are free.
`Account` is the account that tells when this can happen: the frames on the
list and the frames handed out add up to a total that no operation here
changes, since none of them gives a frame back.

A mapping takes at most three tables and a page of kernel heap four
frames. `cow_page_tables` takes a root and one frame for every table of
the parent (`cowTable_account`); as every table was itself drawn, a fork at
most doubles what has been handed out, up to a constant (`fork_account`).
-/

namespace SnowOs

namespace PhysMem

theorem Draw.served {s s' : PhysMem} {ts : List Word} (hd : Draw s ts s') :
    ∀ {l : List Nat}, s.Counted l → (∀ n ∈ l, 0 < n) → ts.length + 9 ≤ l.length →
      (0 : Word) ∉ ts ∧ ∃ l', s'.Counted l' ∧ (∀ n ∈ l', 0 < n) ∧
        l'.length + ts.length = l.length := by
  induction hd with
  | refl => exact fun {l} h hpos _ => ⟨List.not_mem_nil, l, h, hpos, rfl⟩
  | @take s'' ts _ ih =>
      intro l h hpos hfit
      rw [List.length_cons] at hfit
      obtain ⟨hts, l', h', hpos', hlen⟩ := ih h hpos (by omega)
      have hmin : ¬ s''.getFreePagesCount < minPages := by
        rw [h'.refused_iff]
        omega
      obtain ⟨n, t, rfl, haddr, hc, -⟩ := h'.getFreePage hmin
      have hn := List.mem_cons_self (a := n) (l := t)
      have hne := pageAddress_ne_zero (h'.bounded n hn) (hpos' n hn)
      refine ⟨?_, t, hc, fun k hk => hpos' k (List.mem_cons_of_mem _ hk), ?_⟩
      · rw [List.mem_cons, not_or, haddr]
        exact ⟨hne.symm, hts⟩
      · rw [List.length_cons] at hlen ⊢
        omega
  | adjust a c _ ih =>
      intro l h hpos hfit
      obtain ⟨hts, l', h', hpos', hlen⟩ := ih h hpos hfit
      exact ⟨hts, l', h'.setPageRefCount a c, hpos', hlen⟩

end PhysMem

namespace Machine

/-- The free frames and those handed out make up `total`; at most `used`
have been handed out, and no request has been refused. -/
structure Account (m : Machine) (total used : Nat) : Prop where
  free : ∃ l, m.phys.Counted l ∧ (∀ n ∈ l, 0 < n) ∧ l.length + m.log.length = total
  log : (0 : Word) ∉ m.log
  used : m.log.length ≤ used

section Draws

variable {m m' : Machine} {total used used' : Nat} {ts : List Word}

theorem Account.mono (h : m.Account total used) (hle : used ≤ used') : m.Account total used' :=
  ⟨h.free, h.log, h.used.trans hle⟩

theorem Account.draws (h : m.Account total used) (hd : m.Draws ts m')
    (hfit : used + ts.length + 9 ≤ total) : m'.Account total (used + ts.length) := by
  obtain ⟨l, hc, hpos, hlen⟩ := h.free
  have hused := h.used
  obtain ⟨hts, l', hc', hpos', hlen'⟩ := hd.phys.served hc hpos (by omega)
  have hlog : m'.log.length = ts.length + m.log.length := by rw [hd.log, List.length_append]
  refine ⟨⟨l', hc', hpos', by omega⟩, ?_, by omega⟩
  rw [hd.log, List.mem_append, not_or]
  exact ⟨hts, h.log⟩

theorem Account.congr (h : m.Account total used) (hphys : m'.phys = m.phys)
    (hlog : m'.log = m.log) : m'.Account total used := by
  refine ⟨?_, ?_, ?_⟩
  · rw [hphys, hlog]
    exact h.free
  · rw [hlog]
    exact h.log
  · rw [hlog]
    exact h.used

theorem Account.setPageRefCount (h : m.Account total used) (a : Word) (c : Nat) :
    (m.setPageRefCount a c).Account total used := by
  obtain ⟨l, hc, hrest⟩ := h.free
  exact ⟨⟨l, hc.setPageRefCount a c, hrest⟩, h.log, h.used⟩

/-! ## Mappings and the kernel heap -/

theorem length_taken (m : Machine) (t : Word) (i : Fin 512) : (m.taken t i).length ≤ 1 := by
  unfold taken
  split
  · exact Nat.zero_le 1
  · exact Nat.le_refl 1

theorem length_mapTaken (m : Machine) (root v flags : Word) :
    (m.mapTaken root v flags).length ≤ 3 := by
  have h₁ := m.length_taken root (offsetPml4 v)
  have h₂ := (m.descend root (offsetPml4 v) flags).2.length_taken
    (m.descend root (offsetPml4 v) flags).1 (offsetPdpe v)
  have h₃ := ((m.descend root (offsetPml4 v) flags).2.descend
    (m.descend root (offsetPml4 v) flags).1 (offsetPdpe v) flags).2.length_taken
      ((m.descend root (offsetPml4 v) flags).2.descend
        (m.descend root (offsetPml4 v) flags).1 (offsetPdpe v) flags).1 (offsetPde v)
  simp only [mapTaken, List.length_append]
  omega

theorem Account.updatePageTables (h : m.Account total used) (v p flags : Word)
    (hfit : used + 12 ≤ total) : (m.updatePageTables v p flags).Account total (used + 3) := by
  have hlen := m.length_mapTaken m.cr3 v flags
  exact (h.draws (mapPage_draws m m.cr3 v p flags) (by omega)).mono (by omega)

theorem Account.mapFresh (h : m.Account total used) (v flags : Word)
    (hfit : used + 13 ≤ total) : (m.mapFresh v flags).Account total (used + 4) :=
  (h.draws (getFreePage_draws m) (by rw [List.length_singleton]; omega)).updatePageTables v _ flags
    (by rw [List.length_singleton]; omega)

theorem Account.kmallocPages : ∀ {is : List Nat} {r : Word × Machine} {used : Nat},
    r.2.Account total used → used + 4 * is.length + 9 ≤ total →
    (is.foldl kmallocPage r).2.Account total (used + 4 * is.length)
  | [], _, _, h, _ => h
  | i :: is, r, used, h, hfit => by
      rw [List.length_cons] at hfit ⊢
      have hpage : (kmallocPage r i).2.Account total (used + 4) := by
        rw [kmallocPage_snd]
        exact h.mapFresh _ _ (by omega)
      rw [List.foldl_cons]
      exact (hpage.kmallocPages (by omega)).mono (by omega)

theorem Account.kmalloc (h : m.Account total used) (n : BitVec 32)
    (hfit : used + 4 * noOfPages n + 9 ≤ total) :
    (m.kmalloc n).2.Account total (used + 4 * noOfPages n) := by
  have hlen : (List.range (noOfPages n)).length = noOfPages n := List.length_range
  have hstart : ((0, m) : Word × Machine).2.Account total used := h
  rw [← hlen] at hfit ⊢
  exact hstart.kmallocPages hfit

theorem Account.mapPages : ∀ {n : Nat} {m : Machine} {used : Nat} (v : Word),
    m.Account total used → used + 4 * n + 9 ≤ total →
    (m.mapPages n v).Account total (used + 4 * n)
  | 0, _, _, _, h, _ => h
  | n + 1, m, used, v, h, hfit => by
      have hpage := h.mapFresh v userRwFlags (by omega)
      have hrest : ((m.mapFresh v userRwFlags).mapPages n (v + pageSize)).Account total
          (used + 4 + 4 * n) := hpage.mapPages (v + pageSize) (by omega)
      exact hrest.mono (by omega)

theorem storeBytes_phys : ∀ (m : Machine) (v : Word) (bs : List Byte),
    (m.storeBytes v bs).phys = m.phys
  | _, _, [] => rfl
  | m, v, b :: bs => (storeBytes_phys (m.writeByte m.cr3 v b) (v + 1) bs).trans
      (writeByte_phys ..)

theorem storeBytes_log : ∀ (m : Machine) (v : Word) (bs : List Byte),
    (m.storeBytes v bs).log = m.log
  | _, _, [] => rfl
  | m, v, b :: bs => (storeBytes_log (m.writeByte m.cr3 v b) (v + 1) bs).trans
      (writeByte_log ..)

theorem Account.setupUserPageTables (h : m.Account total used) (hfit : used + 10 ≤ total) :
    m.setupUserPageTables.2.Account total (used + 1) :=
  h.draws ((getFreePage_draws m).setEntry m.getFreePage.1 511
    (m.getFreePage.2.mem m.getFreePage.2.cr3 511)) (by rw [List.length_singleton]; omega)

theorem HeapRun.account {k : Nat} (hrun : HeapRun m k m') :
    ∀ {used : Nat}, m.Account total used → used + 4 * k + 9 ≤ total →
      m'.Account total (used + 4 * k) := by
  induction hrun with
  | refl => exact fun h _ => h
  | @kmalloc m₁ pages n _ _ ih =>
      intro used h hfit
      have hstep := (ih h (by omega)).kmalloc n (by omega)
      exact hstep.mono (by omega)

@[simp] theorem memcpy_phys (m : Machine) (dest src : Word) (k : Nat) :
    (m.memcpy dest src k).phys = m.phys := by
  induction k with
  | zero => rfl
  | succ k ih =>
      rw [memcpy_succ]
      split
      · rw [writeByte_phys, ih]
      · exact ih

theorem Account.tryStore (h : m.Account total used) (r v : Word) (b : Byte) :
    (m.tryStore r v b).Account total used := by
  refine h.congr ?_ (tryStore_log ..)
  unfold Machine.tryStore
  split
  · exact writeByte_phys ..
  · rfl

theorem Account.cowFault (h : m.Account total used) (addr : Word) (hfit : used + 16 ≤ total) :
    (m.cowFault addr).Account total (used + 7) := by
  by_cases htwo : m.phys.getPageRefCount (m.walkPageTable addr) = 2
  · rw [Machine.cowFault, if_pos htwo]
    have hpage := h.kmalloc 4096 (show used + 4 * 1 + 9 ≤ total by omega)
    generalize m.kmalloc 4096 = v at hpage ⊢
    have hcopy : (v.2.memcpy v.1 addr 4096).Account total (used + 4) :=
      hpage.congr (memcpy_phys ..) (memcpy_log ..)
    exact (hcopy.updatePageTables _ _ _ (by omega)).setPageRefCount _ _
  · rw [Machine.cowFault, if_neg htwo]
    split
    · exact (h.updatePageTables _ _ _ (by omega)).mono (by omega)
    · exact h.mono (by omega)

end Draws

/-! ## The pass over the tables -/

open Classical in
/-- The tables among `S` that lie in the tree of `o` below path `p`, through
one of the entries `is`. -/
noncomputable def tablesBelow (S : Finset Word) (lab : Word → Option Node) (o : Word)
    (p is : List (Fin 512)) : Finset Word :=
  {u ∈ S | ∃ i ∈ is, ∃ q, lab u = some (.user o (p ++ i :: q))}

section Pass

variable {S : Finset Word} {lab lab' : Word → Option Node} {o c u parent child : Word}
  {p is : List (Fin 512)} {i : Fin 512} {d total used : Nat} {m : Machine} {l : List Nat}

theorem mem_tablesBelow : u ∈ tablesBelow S lab o p is ↔
    u ∈ S ∧ ∃ i ∈ is, ∃ q, lab u = some (.user o (p ++ i :: q)) := by
  classical
  exact Finset.mem_filter

theorem tablesBelow_congr
    (h : ∀ u q, lab' u = some (.user o q) ↔ lab u = some (.user o q)) :
    tablesBelow S lab' o p is = tablesBelow S lab o p is := by
  ext u
  simp only [mem_tablesBelow, h]

theorem card_tablesBelow_cons (hi : i ∉ is) :
    (tablesBelow S lab o p [i]).card + (tablesBelow S lab o p is).card
      ≤ (tablesBelow S lab o p (i :: is)).card := by
  classical
  have hdisj : Disjoint (tablesBelow S lab o p [i]) (tablesBelow S lab o p is) := by
    rw [Finset.disjoint_left]
    intro u hu hu'
    obtain ⟨-, j, hj, q, hq⟩ := mem_tablesBelow.mp hu
    obtain ⟨-, k, hk, q', hq'⟩ := mem_tablesBelow.mp hu'
    rw [hq] at hq'
    have hpq := List.append_cancel_left (Node.user.inj (Option.some.inj hq')).2
    rw [List.mem_singleton.mp hj] at hpq
    exact hi (by rw [(List.cons.inj hpq).1]; exact hk)
  rw [← Finset.card_union_of_disjoint hdisj]
  refine Finset.card_le_card fun u hu => ?_
  rcases Finset.mem_union.mp hu with hu | hu
  · obtain ⟨hS, j, hj, hq⟩ := mem_tablesBelow.mp hu
    exact mem_tablesBelow.mpr ⟨hS, i, List.mem_cons_self .., List.mem_singleton.mp hj ▸ hq⟩
  · obtain ⟨hS, j, hj, hq⟩ := mem_tablesBelow.mp hu
    exact mem_tablesBelow.mpr ⟨hS, j, List.mem_cons_of_mem _ hj, hq⟩

/-- The table an entry names is one more than those below it. -/
theorem card_tablesBelow_branch (hS : u ∈ S) (hu : lab u = some (.user o (p ++ [i]))) :
    (tablesBelow S lab o (p ++ [i]) is).card + 1 ≤ (tablesBelow S lab o p [i]).card := by
  refine Finset.card_lt_card ((Finset.ssubset_iff_of_subset fun t ht => ?_).mpr ⟨u, ?_, ?_⟩)
  · obtain ⟨htS, j, -, q, hq⟩ := mem_tablesBelow.mp ht
    rw [List.append_assoc, List.singleton_append] at hq
    exact mem_tablesBelow.mpr ⟨htS, i, List.mem_singleton_self i, j :: q, hq⟩
  · exact mem_tablesBelow.mpr ⟨hS, i, List.mem_singleton_self i, [], hu⟩
  · intro hmem
    obtain ⟨-, j, -, q, hq⟩ := mem_tablesBelow.mp hmem
    rw [hu] at hq
    have hlen := congrArg List.length (Node.user.inj (Option.some.inj hq)).2
    simp only [List.length_append, List.length_cons] at hlen
    omega

theorem cowTable_rounds_account
    (hround : ∀ {i : Fin 512} {m : Machine} {lab : Word → Option Node} {l : List Nat} {used : Nat},
      CowReady d o c p parent child [i] m lab → Pool m lab l →
      (∀ {u q}, lab u = some (.user o q) → u ∈ S) → m.Account total used →
      used + (tablesBelow S lab o p [i]).card + 9 ≤ total →
      (cowTable d parent child [i] m).Account total
        (used + (tablesBelow S lab o p [i]).card)) :
    ∀ {is : List (Fin 512)} {m : Machine} {lab : Word → Option Node} {l : List Nat} {used : Nat},
      CowReady d o c p parent child is m lab → Pool m lab l →
      (∀ {u q}, lab u = some (.user o q) → u ∈ S) → m.Account total used →
      used + (tablesBelow S lab o p is).card + 9 ≤ total →
      (cowTable d parent child is m).Account total (used + (tablesBelow S lab o p is).card)
  | [], m, lab, l, used, _, _, _, h, _ => by
      rw [show cowTable d parent child [] m = m by cases d <;> rfl]
      exact h.mono (Nat.le_add_right ..)
  | i :: is, m, lab, l, used, hr, hpool, hS, h, hfit => by
      rw [cowTable_cons]
      have hcard : (tablesBelow S lab o p [i]).card + (tablesBelow S lab o p is).card
          ≤ (tablesBelow S lab o p (i :: is)).card :=
        card_tablesBelow_cons (List.nodup_cons.mp hr.nodup).1
      have h₁ := hround hr.head hpool hS h (by omega)
      obtain ⟨ts, lab₁, hC⟩ := cowTable_done hr.head hpool h₁.log
      obtain ⟨l₁, hd₁⟩ := hpool.draws hC.grows.draws h₁.log
      have howner : ∀ u q, lab₁ u = some (.user o q) ↔ lab u = some (.user o q) :=
        fun u q => hC.owner hr.apart
      have heq : tablesBelow S lab₁ o p is = tablesBelow S lab o p is := tablesBelow_congr howner
      rw [← heq] at hcard
      have h₂ := cowTable_rounds_account hround (hr.tail hC) (hpool.grows hC.grows hd₁)
        (fun hu => hS ((howner _ _).mp hu)) h₁ (by omega)
      exact h₂.mono (by omega)

/-- The loops take one frame for every table of the parent. -/
theorem cowTable_account : ∀ {d : Nat} {o c parent child : Word} {p is : List (Fin 512)}
    {m : Machine} {lab : Word → Option Node} {l : List Nat} {used : Nat},
    CowReady d o c p parent child is m lab → Pool m lab l →
    (∀ {u q}, lab u = some (.user o q) → u ∈ S) → m.Account total used →
    used + (tablesBelow S lab o p is).card + 9 ≤ total →
    (cowTable d parent child is m).Account total (used + (tablesBelow S lab o p is).card)
  | 0, o, c, parent, child, p, is, m, lab, l, used, hr, hpool, hS, h, hfit => by
      refine cowTable_rounds_account (fun {i m lab _ used} hr _ _ h hfit => ?_) hr hpool hS h hfit
      by_cases hp : present (m.mem parent i) = true
      · show (cowLeaf parent child m i).Account total _
        have hdraws : m.Draws [] (cowLeaf parent child m i) := by
          rw [cowLeaf_present hp]
          exact ⟨shareFrame_draw _ _, rfl⟩
        exact (h.draws hdraws (by rw [List.length_nil]; omega)).mono (Nat.le_add_right ..)
      · rw [cowTable_absent 0 hp]
        exact h.mono (Nat.le_add_right ..)
  | d + 1, o, c, parent, child, p, is, m, lab, l, used, hr, hpool, hS, h, hfit => by
      refine cowTable_rounds_account (fun {i m lab l used} hr hpool hS h hfit => ?_) hr hpool hS h
        hfit
      by_cases hp : present (m.mem parent i) = true
      swap
      · rw [cowTable_absent (d + 1) hp]
        exact h.mono (Nat.le_add_right ..)
      rw [cowTable_branch d hr.parent_ne_child hp]
      have hlev : 1 < Node.shape.level (.user o p) := by
        rw [hr.level]
        omega
      have hedge := hr.tables.edge hr.parentLabel hlev hp
      rw [show Node.shape.child (.user o p) i = .user o (p ++ [i]) from hr.walk o []] at hedge
      have hcard : (tablesBelow S lab o (p ++ [i]) (List.finRange 512)).card + 1
          ≤ (tablesBelow S lab o p [i]).card := card_tablesBelow_branch (hS hedge) hedge
      have hlink : (m.cowLink parent child i).Account total (used + 1) :=
        h.draws ((getFreePage_draws m).setEntry ..) (by rw [List.length_singleton]; omega)
      obtain ⟨l₁, hd₁⟩ := hpool.draws ((getFreePage_draws m).setEntry ..) hlink.log
      have hf := hd₁.blank _ (List.mem_singleton_self _)
      obtain ⟨lab₁, hE, howner, hready⟩ := hr.link hp hf
      have hgrows : Grows m lab [m.getFreePage.1] (m.cowLink parent child i) lab₁ :=
        ⟨(getFreePage_draws m).setEntry .., hE.tables, hE.keep, hE.new, hE.others⟩
      have hown : ∀ u q, lab₁ u = some (.user o q) ↔ lab u = some (.user o q) :=
        fun u q => howner hr.apart
      rw [← tablesBelow_congr hown] at hcard
      have hdown := cowTable_account hready (hpool.grows hgrows hd₁)
        (fun hu => hS ((hown _ _).mp hu)) hlink (by omega)
      exact hdown.mono (by omega)

/-- `cow_page_tables` at most doubles what is in use. -/
theorem Forest.cowPageTables_account {roots : List Word} (h : Forest roots m lab l)
    (hacc : m.Account total used) (hfit : 2 * used + 10 ≤ total) :
    m.cowPageTables.2.Account total (2 * used + 1) := by
  rw [cowPageTables_eq]
  have hroot : m.cowRoot.Account total (used + 1) :=
    hacc.draws ((getFreePage_draws m).setEntry ..) (by rw [List.length_singleton]; omega)
  obtain ⟨l₁, hd₁⟩ := h.pool.draws ((getFreePage_draws m).setEntry ..) hroot.log
  have hf := hd₁.blank _ (List.mem_singleton_self _)
  obtain ⟨lab₁, hg₁, hready⟩ := h.cowRoot_ready hf
  have hS : ∀ {u q}, lab₁ u = some (.user m.cr3 q) → u ∈ m.log.toFinset := by
    intro u q hu
    rcases hg₁.new hu with hold | hnew
    · exact List.mem_toFinset.mpr (h.drawn hold)
    · rw [List.mem_singleton.mp hnew, hready.childLabel] at hu
      exact absurd (Node.user.inj (Option.some.inj hu)).1.symm hready.apart
  have hcard : (tablesBelow m.log.toFinset lab₁ m.cr3 [] userIndices).card ≤ used := by
    classical
    exact (Finset.card_filter_le ..).trans ((List.toFinset_card_le _).trans hacc.used)
  have hpass := cowTable_account hready (h.pool.grows hg₁ hd₁) hS hroot (by omega)
  generalize cowTable 3 m.cr3 m.getFreePage.1 userIndices m.cowRoot = m' at hpass ⊢
  exact hpass.mono (by omega)

end Pass

end Machine

namespace Space

open Machine

/-- A fork: nine pages for the `kthread_t`, the tables, and a page each for
the `mm_struct`, the stack's VMA and every VMA copied. -/
theorem fork_account {roots : List Word} {s : Space} {lab : Word → Option Node} {l : List Nat}
    {total used : Nat} (h : Forest roots s.machine lab l) (hacc : s.machine.Account total used)
    (fuel : Nat) (parentTask : Task) (hfit : 2 * used + 8 * fuel + 90 ≤ total) :
    (s.fork fuel parentTask).2.machine.Account total (2 * used + 8 * fuel + 81) := by
  obtain ⟨m₁, c, m₂, m₃, k, hm₁, hcow, hk, hrun, hm, -⟩ := s.fork_machine fuel parentTask
  have hpages : noOfPages sizeofKthread = 9 := rfl
  have h₁ := hacc.kmalloc sizeofKthread (by rw [hpages]; omega)
  rw [hpages] at h₁
  obtain ⟨lab₁, l₁, hF₁, -⟩ := h.kmalloc h₁.log
  rw [← hm₁] at h₁ hF₁
  have h₂ := hF₁.cowPageTables_account h₁ (by omega)
  rw [hcow] at h₂
  have hchild : (m₂.setNewCr3 c).Account total (2 * (used + 4 * 9) + 1) := h₂.congr rfl rfl
  have h₃ := hrun.account hchild (by omega)
  rw [hm]
  exact (h₃.mono (by omega)).congr rfl rfl

/-- The frames `load_file` may take for the program headers. -/
def segmentFrames (phdrs : List Elf64Phdr) : Nat :=
  (phdrs.map fun phdr => 4 + 4 * phdr.pages).sum

theorem loadSegments_account : ∀ {phdrs : List Elf64Phdr} {s : Space} {total used : Nat}
    (vmaMap vmaMapIter : Word), s.machine.Account total used →
    used + segmentFrames phdrs + 9 ≤ total →
    (s.loadSegments phdrs vmaMap vmaMapIter).2.machine.Account total (used + segmentFrames phdrs)
  | [], _, _, _, _, _, hacc, _ => hacc
  | phdr :: phdrs, s, total, used, vmaMap, vmaMapIter, hacc, hfit => by
      rw [segmentFrames, List.map_cons, List.sum_cons, ← segmentFrames] at hfit ⊢
      rw [loadSegments]
      split
      · have hvma := hacc.kmalloc sizeofVmaStruct
          (show used + 4 * 1 + 9 ≤ total by omega)
        have hload : (s.loadSegment phdr vmaMap vmaMapIter).2.machine.Account total
            (used + 4 * 1 + 4 * phdr.pages) := by
          rw [loadSegment_machine]
          exact (hvma.mapPages _ (show used + 4 * 1 + 4 * phdr.pages + 9 ≤ total by omega)).congr
            (storeBytes_phys ..) (storeBytes_log ..)
        exact (loadSegments_account _ _ hload (by omega)).mono (by omega)
      · exact (loadSegments_account _ _ hacc (by omega)).mono (by omega)

/-- The heap and the stack of a new process, behind its segments. -/
theorem loadFile_account {s : Space} {phdrs : List Elf64Phdr} {total used : Nat} (task : Task)
    (hacc : (s.loadSegments phdrs 0 0).2.machine.Account total used)
    (hfit : used + 25 ≤ total) :
    (s.loadFile task (some phdrs)).2.machine.Account total (used + 16) := by
  have hpages : noOfPages sizeofVmaStruct = 1 := rfl
  have hvma := hacc.kmalloc sizeofVmaStruct (by rw [hpages]; omega)
  rw [hpages] at hvma
  have hheap : (((s.loadSegments phdrs 0 0).2.machine.kmalloc sizeofVmaStruct).2.mapPages 1
      heapStart).Account total (used + 4 * 1 + 4 * 1) := hvma.mapPages heapStart (by omega)
  have hvma' := hheap.kmalloc sizeofVmaStruct (by rw [hpages]; omega)
  rw [hpages] at hvma'
  rw [loadFile_machine]
  exact hvma'.mapPages stackStart (show used + 4 * 1 + 4 * 1 + 4 * 1 + 4 * 1 + 9 ≤ total by omega)

/-- A new process: nine pages for its `kthread_t`, a root, a page for the
`mm_struct`, and what `load_file` takes. -/
theorem loadProcess_account {s : Space} {phdrs : List Elf64Phdr} {total used : Nat}
    (hacc : s.machine.Account total used) (hfit : used + segmentFrames phdrs + 66 ≤ total) :
    (s.loadProcess (some phdrs)).2.machine.Account total (used + segmentFrames phdrs + 57) := by
  have hpages : noOfPages sizeofKthread = 9 := rfl
  have hkthread := hacc.kmalloc sizeofKthread (by rw [hpages]; omega)
  rw [hpages] at hkthread
  have hkept : (s.kmalloc sizeofKthread).2.machine.Account total (used + 36) := hkthread
  rw [loadProcess]
  generalize (s.kmalloc sizeofKthread).2 = s₁ at hkept ⊢
  have hroot : (s₁.machine.setupUserPageTables.2.setNewCr3
      s₁.machine.setupUserPageTables.1).Account total (used + 37) :=
    (hkept.setupUserPageTables (by omega)).congr rfl rfl
  have hmm := hroot.kmalloc sizeofMmStruct (show used + 37 + 4 * 1 + 9 ≤ total by omega)
  have hsegs := @loadSegments_account phdrs ((s₁.setMachine
    (s₁.machine.setupUserPageTables.2.setNewCr3 s₁.machine.setupUserPageTables.1)).kmalloc
      sizeofMmStruct).2 _ _ 0 0 hmm (show used + 37 + 4 * 1 + segmentFrames phdrs + 9 ≤ total
        by omega)
  exact (loadFile_account _ hsegs (show used + 37 + 4 * 1 + segmentFrames phdrs + 25 ≤ total
    by omega)).mono (show used + 37 + 4 * 1 + segmentFrames phdrs + 16 ≤ _ by omega)

theorem userStore_account {s : Space} {task : Task} {v : Word} {total used : Nat}
    (hflags : s.machine.leaf task.cr3 v &&& flagMask = cowFlags)
    (hacc : s.machine.Account total used) (b : Byte) (hfit : used + 16 ≤ total) :
    (s.userStore task v b).machine.Account total (used + 7) := by
  rw [userStore_cow hflags]
  have hcur : (s.machine.setNewCr3 task.cr3).Account total used := hacc.congr rfl rfl
  exact (hcur.cowFault _ hfit).tryStore ..

end Space

namespace Machine

/-! ## The machine after boot -/

/-- Empty tables rooted at `0x1000`, which was the first frame drawn. -/
def bootMachine (physfree last : Word) : Machine :=
  { blankMachine physfree last with log := [0x1000] }

def bootLabel : Word → Option Node :=
  Function.update (fun _ => none) 0x1000 (some (.user 0x1000 []))

theorem bootMachine_entryAt (a b : Word) (q : List (Fin 512)) :
    (bootMachine a b).entryAt 0x1000 q = 0 :=
  Radix.lookup_of_empty (fun _ => rfl) q

def bootPages (physfree last : Word) : List Nat :=
  List.range' (PhysMem.firstPage physfree) (PhysMem.endPage 0 last - PhysMem.firstPage physfree)

section Boot

variable {a b : Word} (hb : PhysMem.BootRegion a 0 b) (ha : 2 ≤ PhysMem.firstPage a)
include hb

theorem bootMachine_counted : (bootMachine a b).phys.Counted (bootPages a b) :=
  (PhysMem.initPhysicalMemory_spec hb).1

include ha

omit hb in
theorem two_le_of_mem_bootPages {n : Nat} (hn : n ∈ bootPages a b) : 2 ≤ n := by
  rw [bootPages, List.mem_range'_1] at hn
  omega

theorem bootMachine_forest :
    Forest [0x1000] (bootMachine a b) bootLabel (bootPages a b) := by
  have hcounted := bootMachine_counted hb
  have htwo : ∀ n ∈ bootPages a b, 2 ≤ n := fun n hn => two_le_of_mem_bootPages ha hn
  have hroot : ∀ n ∈ bootPages a b, pageAddress n ≠ 0x1000 := by
    intro n hn heq
    have hnat := congrArg BitVec.toNat heq
    have hsecond := htwo n hn
    rw [pageAddress_toNat (hcounted.bounded n hn)] at hnat
    simp at hnat
    omega
  exact forest_root hcounted (fun n hn => Nat.lt_of_lt_of_le Nat.zero_lt_two (htwo n hn))
    (fun n hn => ⟨hroot n hn, fun _ => rfl⟩) (fun _ => rfl)
    (show (0x1000 : Word) ≠ 0 by decide) (List.mem_singleton_self _)

theorem bootMachine_account :
    (bootMachine a b).Account (PhysMem.endPage 0 b - PhysMem.firstPage a + 1) 1 where
  free := by
    refine ⟨bootPages a b, bootMachine_counted hb, fun n hn => ?_, ?_⟩
    · have := two_le_of_mem_bootPages ha hn
      omega
    · rw [bootPages, List.length_range']
      rfl
  log := by
    rw [show (bootMachine a b).log = [0x1000] from rfl]
    decide
  used := Nat.le_refl 1

end Boot

end Machine

end SnowOs
