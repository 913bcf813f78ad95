import SnowOs.Exhaustion
import SnowOs.KernelHalf

/-!
# Blocks of the kernel heap

`kmalloc` draws a frame for each page of a block, but takes the addresses
from the first frame alone: page `i` is mapped at `kernel_virtual_base` plus
the first frame plus `i` pages. This is sound as long as every page lies at
the address of a frame that the call itself has drawn (`OwnFrames`): frames
are handed out once, so two calls have different pages. With an ordered free
list it always holds (`allOwn_of_stock`). After frames have come back in another
order it need not: a page then lies at the address of a frame that is still
free, and the block that gets this frame later takes the page away.

The two facts about one call are `Forest.kmalloc_paths`, that it writes the
leaves of its own pages only, and `Forest.kmalloc_drawn`, where its frames
come from. `Forest.kmallocs` is the induction over the calls.
-/

namespace SnowOs

namespace Machine

/-! ## Calls and their blocks -/

/-- Calls one after the other, with the blocks they return: the address and
the number of pages. -/
def kmallocs : List (BitVec 32) → Machine → List (Word × Nat) × Machine
  | [], m => ([], m)
  | n :: sizes, m =>
      let r := m.kmalloc n
      let rest := kmallocs sizes r.2
      ((r.1, noOfPages n) :: rest.1, rest.2)

def blockPage (b : Word × Nat) (i : Nat) : Word := b.1 + BitVec.ofNat 64 (i * 4096)

def PagesApart (b c : Word × Nat) : Prop :=
  ∀ i < b.2, ∀ j < c.2, path (blockPage b i) ≠ path (blockPage c j)

/-- The blocks of a sequence of calls have pages of their own, and in every
state on the way the pages of a block are mapped as they were when it was
returned. -/
structure BlocksKept (sizes : List (BitVec 32)) (m : Machine) : Prop where
  apart : (kmallocs sizes m).1.Pairwise PagesApart
  kept : ∀ before n after, before ++ n :: after <+: sizes →
    let r := (kmallocs before m).2.kmalloc n
    ∀ i < noOfPages n, (kmallocs after r.2).2.translate m.cr3 (blockPage (r.1, noOfPages n) i)
      = r.2.translate m.cr3 (blockPage (r.1, noOfPages n) i)

/-- How many frames a call asks for: one for each page and one for each
table that is not there. -/
def requests (m : Machine) (n : BitVec 32) : Nat := (m.kmalloc n).2.log.length - m.log.length

/-- The pages that follow the first free one are free as well, and so far in
front on the list that the call gets to them, for the block or for a table. -/
def OwnFrames (m : Machine) (n : BitVec 32) : Prop :=
  ∀ a l, m.phys.FreeList (a :: l) → ∀ i < noOfPages n, a + i ∈ (a :: l).take (m.requests n)

def AllOwn : List (BitVec 32) → Machine → Prop
  | [], _ => True
  | n :: sizes, m => m.OwnFrames n ∧ AllOwn sizes (m.kmalloc n).2

theorem kmallocs_append (before after : List (BitVec 32)) (m : Machine) :
    kmallocs (before ++ after) m
      = ((kmallocs before m).1 ++ (kmallocs after (kmallocs before m).2).1,
        (kmallocs after (kmallocs before m).2).2) := by
  induction before generalizing m with
  | nil => rfl
  | cons n before ih =>
      show ((_, _) :: (kmallocs (before ++ after) _).1, (kmallocs (before ++ after) _).2) = _
      rw [ih]
      rfl

theorem allOwn_append {before after : List (BitVec 32)} {m : Machine} :
    AllOwn (before ++ after) m ↔ AllOwn before m ∧ AllOwn after (kmallocs before m).2 := by
  induction before generalizing m with
  | nil => exact (iff_of_eq (true_and _)).symm
  | cons n before ih =>
      show _ ∧ AllOwn (before ++ after) _ ↔ (_ ∧ _) ∧ _
      rw [ih, and_assoc]
      rfl

theorem kmallocs_log_suffix (sizes : List (BitVec 32)) (m : Machine) :
    m.log <:+ (kmallocs sizes m).2.log := by
  induction sizes generalizing m with
  | nil => exact List.suffix_refl _
  | cons n sizes ih => exact (kmalloc_log_suffix m n).trans (ih (m.kmalloc n).2)

theorem served_of_kmallocs {sizes : List (BitVec 32)} {m : Machine}
    (h : (0 : Word) ∉ (kmallocs sizes m).2.log) : (0 : Word) ∉ m.log :=
  fun hmem => h ((kmallocs_log_suffix sizes m).subset hmem)

/-! ## One call -/

/-- The frames of a call are those in front. -/
theorem kmalloc_takes {m : Machine} {n : BitVec 32} {l : List Nat} (h : m.phys.Counted l)
    (hlog : (0 : Word) ∉ (m.kmalloc n).2.log) :
    ∃ l', l = l.take (m.requests n) ++ l' ∧ m.requests n ≤ l.length ∧
      (m.kmalloc n).2.phys.Counted l' := by
  obtain ⟨ts, hts⟩ := kmalloc_draws m n
  obtain ⟨ns, l', rfl, hc, hframes⟩ := h.draw hts.phys
  have hserved : (0 : Word) ∉ ts := fun hmem => hlog (hts.log ▸ List.mem_append_left _ hmem)
  have hlen : m.requests n = ns.length := by
    rw [requests, hts.log, List.length_append, Nat.add_sub_cancel_right, hframes hserved,
      List.length_reverse, List.length_map]
  refine ⟨l', by rw [hlen, List.take_left], ?_, hc⟩
  rw [hlen, List.length_append]
  exact Nat.le_add_right ..

theorem first_served {m : Machine} {n : BitVec 32} (hn : 0 < noOfPages n)
    (hlog : (0 : Word) ∉ (m.kmalloc n).2.log) : (0 : Word) ∉ m.getFreePage.2.log := by
  obtain ⟨k, hk⟩ := Nat.exists_eq_add_of_lt hn
  rw [kmalloc, hk, Nat.zero_add, List.range_succ_eq_map, List.foldl_cons] at hlog
  exact fun hmem => hlog
    ((kmallocPages_log_suffix ..).subset ((mapFresh_drawn_suffix ..).subset hmem))

theorem blockPage_kmalloc (m : Machine) {n : BitVec 32} (hn : 0 < noOfPages n) (i : Nat) :
    blockPage ((m.kmalloc n).1, noOfPages n) i
      = kernelVirtualBase + m.getFreePage.1 + BitVec.ofNat 64 (i * 4096) := by
  show kernelVirtualBase + _ + BitVec.ofNat 64 (i * 4096) = _
  rw [kmallocPages_fst m hn]

theorem blockPage_first {m : Machine} {n : BitVec 32} {l : List Nat} (h : m.phys.Counted l)
    {i : Nat} (hi : i < noOfPages n) (hlog : (0 : Word) ∉ (m.kmalloc n).2.log) :
    ∃ a t, l = a :: t ∧
      blockPage ((m.kmalloc n).1, noOfPages n) i = kernelVirtualBase + pageAddress (a + i) := by
  have hpos := Nat.zero_lt_of_lt hi
  have hmin : ¬ m.phys.getFreePagesCount < minPages := fun hlow =>
    first_served hpos hlog (List.mem_cons.mpr (Or.inl (by rw [PhysMem.getFreePage_refused hlow])))
  obtain ⟨a, t, rfl, hfirst, -⟩ := h.getFreePage hmin
  refine ⟨a, t, rfl, ?_⟩
  rw [blockPage_kmalloc m hpos, show m.getFreePage.1 = pageAddress a from hfirst, BitVec.add_assoc,
    pageAddress_add]

section Calls

variable {roots : List Word} {m : Machine} {lab : Word → Option Node} {l : List Nat}

/-- Mapping a fresh frame at `v` writes the leaf of `v` only. -/
theorem Forest.mapFresh_paths {v flags r : Word} {q : List (Fin 512)} (h : Forest roots m lab l)
    (hflags : FlagWord flags) (hlog : (0 : Word) ∉ (m.mapFresh v flags).log) (hr : r ∈ roots)
    (hq : q.length = 4) :
    (m.mapFresh v flags).entryAt r q = m.entryAt r q ∨ q = path v := by
  have hlog₁ : (0 : Word) ∉ m.getFreePage.2.log :=
    fun hmem => hlog ((mapFresh_drawn_suffix ..).subset hmem)
  obtain ⟨l₁, h₁, -, -⟩ := h.getFreePage hlog₁
  exact ((h₁.updatePageTables_paths hflags hlog hr).1 q hq).imp id And.left

theorem Forest.translate_kmalloc_page (h : Forest roots m lab l)
    (hlog : (0 : Word) ∉ (m.kmalloc 4096).2.log) :
    (m.kmalloc 4096).2.translate m.cr3 (kernelVirtualBase + m.getFreePage.1)
      = some m.getFreePage.1 := by
  rw [kmalloc_page] at hlog ⊢
  obtain ⟨lab', l', hM⟩ := h.mapFresh kernelRwFlags_flagWord hlog
  have haligned := hM.fresh.aligned
  rw [translate_eq, hM.self, if_pos (present_or haligned kernelRwFlags_flagWord),
    frame_or haligned kernelRwFlags_flagWord.small]

theorem Forest.kmallocPages_paths (h : Forest roots m lab l) {r : Word} {q : List (Fin 512)}
    (hr : r ∈ roots) (hq : q.length = 4) (k : Nat)
    (hlog : (0 : Word) ∉ ((List.range k).foldl kmallocPage (0, m)).2.log) :
    ((List.range k).foldl kmallocPage (0, m)).2.entryAt r q = m.entryAt r q ∨
      ∃ i < k, q = path (kernelVirtualBase + m.getFreePage.1 + BitVec.ofNat 64 (i * 4096)) := by
  induction k with
  | zero => exact Or.inl rfl
  | succ k ih =>
      have hfst := kmallocPages_fst m (Nat.succ_pos k)
      rw [List.range_succ, List.foldl_append, List.foldl_cons, List.foldl_nil] at hlog hfst ⊢
      rw [kmallocPage_snd, hfst] at hlog ⊢
      obtain ⟨ts, hts⟩ := mapFresh_draws ((List.range k).foldl kmallocPage (0, m)).2
        (kernelVirtualBase + m.getFreePage.1 + BitVec.ofNat 64 (k * 4096)) kernelRwFlags
      have hlog₁ : (0 : Word) ∉ ((List.range k).foldl kmallocPage (0, m)).2.log :=
        fun hmem => hlog (hts.log ▸ List.mem_append_right _ hmem)
      obtain ⟨lab₁, l₁, h₁, -⟩ := Forest.kmallocPages (r := (0, m)) h hlog₁
      rcases h₁.mapFresh_paths kernelRwFlags_flagWord hlog hr hq with hsame | hpage
      · rcases ih hlog₁ with hold | ⟨i, hi, hpage⟩
        · exact Or.inl (hsame.trans hold)
        · exact Or.inr ⟨i, Nat.lt_succ_of_lt hi, hpage⟩
      · exact Or.inr ⟨k, Nat.lt_succ_self k, hpage⟩

theorem Forest.kmalloc_paths (h : Forest roots m lab l) {n : BitVec 32} {r : Word}
    {q : List (Fin 512)} (hr : r ∈ roots) (hq : q.length = 4)
    (hlog : (0 : Word) ∉ (m.kmalloc n).2.log) :
    (m.kmalloc n).2.entryAt r q = m.entryAt r q ∨
      ∃ i < noOfPages n, q = path (blockPage ((m.kmalloc n).1, noOfPages n) i) := by
  refine (h.kmallocPages_paths hr hq (noOfPages n) hlog).imp id fun ⟨i, hi, hpage⟩ => ⟨i, hi, ?_⟩
  rw [blockPage_kmalloc m (Nat.zero_lt_of_lt hi)]
  exact hpage

/-- The frames a call draws were free and are not free any more. -/
theorem Forest.kmalloc_drawn (h : Forest roots m lab l) {n : BitVec 32}
    (hlog : (0 : Word) ∉ (m.kmalloc n).2.log) :
    ∃ lab' l', Forest roots (m.kmalloc n).2 lab' l' ∧ (∀ k ∈ l', k ∈ l) ∧
      ∀ k ∈ l.take (m.requests n), k ∉ l' := by
  obtain ⟨l₁, hl, -, hc⟩ := kmalloc_takes h.pool.counted hlog
  obtain ⟨lab', l', h', -⟩ := h.kmalloc hlog
  obtain rfl : l' = l₁ := h'.pool.counted.list.unique hc.list
  have hnodup := h.pool.counted.list.nodup
  rw [hl] at hnodup
  refine ⟨lab', l', h', fun k hk => hl ▸ List.mem_append_right _ hk, fun k hk hk' => ?_⟩
  exact (List.nodup_append.mp hnodup).2.2 k hk k hk' rfl

/-! ## Sequences of calls -/

/-- What calls with frames of their own do from a sound machine: their blocks
lie at the addresses of free frames, without a common page, and no leaf
outside of them is written. -/
theorem Forest.kmallocs {sizes : List (BitVec 32)} (h : Forest roots m lab l)
    (hown : AllOwn sizes m) (hlog : (0 : Word) ∉ (kmallocs sizes m).2.log) :
    (∀ b ∈ (kmallocs sizes m).1, ∀ i < b.2, ∃ k ∈ l,
        blockPage b i = kernelVirtualBase + pageAddress k) ∧
      (kmallocs sizes m).1.Pairwise PagesApart ∧
      ∀ r ∈ roots, ∀ q : List (Fin 512), q.length = 4 →
        (kmallocs sizes m).2.entryAt r q = m.entryAt r q ∨
          ∃ b ∈ (kmallocs sizes m).1, ∃ i < b.2, q = path (blockPage b i) := by
  induction sizes generalizing m lab l with
  | nil => exact ⟨fun b hb => absurd hb List.not_mem_nil, .nil, fun r _ q _ => Or.inl rfl⟩
  | cons n sizes ih =>
      have hlog₁ : (0 : Word) ∉ (m.kmalloc n).2.log :=
        served_of_kmallocs (show (0 : Word) ∉ (Machine.kmallocs sizes _).2.log from hlog)
      obtain ⟨lab', l', h', hsub, hnew⟩ := h.kmalloc_drawn hlog₁
      obtain ⟨hfrom, hapart, hleaf⟩ := ih h' hown.2 hlog
      have hhead : ∀ i < noOfPages n, ∃ k ∈ l, k ∉ l' ∧
          blockPage ((m.kmalloc n).1, noOfPages n) i = kernelVirtualBase + pageAddress k := by
        intro i hi
        obtain ⟨a, t, rfl, heq⟩ := blockPage_first h.pool.counted hi hlog₁
        have hmem := hown.1 a t h.pool.counted.list i hi
        exact ⟨a + i, List.mem_of_mem_take hmem, hnew _ hmem, heq⟩
      refine ⟨fun b hb i hi => ?_, List.pairwise_cons.mpr ⟨fun c hc i hi j hj heq => ?_, hapart⟩,
        fun r hr q hq => ?_⟩
      · rcases List.mem_cons.mp hb with rfl | hb
        · obtain ⟨k, hk, -, heq⟩ := hhead i hi
          exact ⟨k, hk, heq⟩
        · obtain ⟨k, hk, heq⟩ := hfrom b hb i hi
          exact ⟨k, hsub k hk, heq⟩
      · obtain ⟨k, hk, hk', hbi⟩ := hhead i hi
        obtain ⟨j', hj', hcj⟩ := hfrom c hc j hj
        rw [hbi, hcj] at heq
        have hbound := h.pool.counted.bounded
        rw [path_kernel_inj (hbound k hk) (hbound j' (hsub j' hj')) heq] at hk'
        exact hk' hj'
      · rcases hleaf r hr q hq with hsame | ⟨b, hb, hpage⟩
        · rcases h.kmalloc_paths hr hq hlog₁ with hold | hpage
          · exact Or.inl (hsame.trans hold)
          · exact Or.inr ⟨_, List.mem_cons_self .., hpage⟩
        · exact Or.inr ⟨b, List.mem_cons_of_mem _ hb, hpage⟩

/-- The pages of a block stay mapped as they are through later calls. -/
theorem Forest.kmalloc_kept {n : BitVec 32} {after : List (BitVec 32)} (h : Forest roots m lab l)
    (hown : AllOwn (n :: after) m)
    (hlog : (0 : Word) ∉ (Machine.kmallocs after (m.kmalloc n).2).2.log) {r : Word}
    (hr : r ∈ roots) {i : Nat} (hi : i < noOfPages n) :
    (Machine.kmallocs after (m.kmalloc n).2).2.translate r
        (blockPage ((m.kmalloc n).1, noOfPages n) i)
      = (m.kmalloc n).2.translate r (blockPage ((m.kmalloc n).1, noOfPages n) i) := by
  have hhead := (List.pairwise_cons.mp (h.kmallocs hown hlog).2.1).1
  obtain ⟨lab₁, l₁, h₁, -⟩ := h.kmalloc (served_of_kmallocs hlog)
  rw [translate_eq, translate_eq]
  rcases (h₁.kmallocs hown.2 hlog).2.2 r hr _ (length_path _) with hsame | ⟨c, hc, j, hj, hpage⟩
  · rw [hsame]
  · exact absurd hpage (hhead c hc i hi j hj)

theorem Sound.kmallocs {sizes : List (BitVec 32)} (h : Sound roots m)
    (hlog : (0 : Word) ∉ (Machine.kmallocs sizes m).2.log) :
    Sound roots (Machine.kmallocs sizes m).2 := by
  induction sizes generalizing m with
  | nil => exact h
  | cons n sizes ih =>
      obtain ⟨lab, l, hF⟩ := h
      obtain ⟨lab', l', hF', -⟩ := hF.kmalloc (served_of_kmallocs hlog)
      exact ih ⟨lab', l', hF'⟩ hlog

end Calls

/-! ## An ordered free list -/

section Stock

variable {m : Machine} {next bound : Nat}

/-- With the free pages in order a call finds the frame of each page among
those it draws: the tables it takes in between only move the frames on. -/
theorem ownFrames_of_stock (h : m.phys.Stock next bound) {n : BitVec 32}
    (hlog : (0 : Word) ∉ (m.kmalloc n).2.log) :
    m.OwnFrames n ∧ ∃ next', (m.kmalloc n).2.phys.Stock next' bound := by
  obtain ⟨ts, hts⟩ := kmalloc_draws m n
  have hserved : (0 : Word) ∉ ts := fun hmem => hlog (hts.log ▸ List.mem_append_left _ hmem)
  refine ⟨fun a l hfree i hi => ?_, _, (h.draw hts.phys hserved).1⟩
  have hpages : noOfPages n ≤ m.requests n :=
    Nat.le_sub_of_add_le' (kmalloc_length_log m n)
  obtain ⟨-, -, hroom, -⟩ := kmalloc_takes h hlog
  have hrange : a :: l = List.range' next (bound - next) := hfree.unique h.list
  rw [← hrange] at hroom
  have hget : ∀ j (hj : j < (a :: l).length), (a :: l)[j] = next + j := fun j hj => by
    simp [hrange]
  refine List.mem_take_iff_getElem.mpr ⟨i, by omega, ?_⟩
  rw [hget i, show a = next from hget 0 (Nat.succ_pos _)]

theorem allOwn_of_stock {sizes : List (BitVec 32)} (h : m.phys.Stock next bound)
    (hlog : (0 : Word) ∉ (kmallocs sizes m).2.log) : AllOwn sizes m := by
  induction sizes generalizing m next with
  | nil => trivial
  | cons n sizes ih =>
      obtain ⟨hown, next', h'⟩ := ownFrames_of_stock h
        (served_of_kmallocs (show (0 : Word) ∉ (kmallocs sizes _).2.log from hlog))
      exact ⟨hown, ih h' hlog⟩

end Stock

/-! ## Main result -/

/-- The blocks of the calls keep their pages as long as no frame is refused
and each page of a block lies at the address of a frame its own call has
drawn. -/
theorem kmallocs_blocksKept (roots : List Word) (m : Machine) (sizes : List (BitVec 32))
    (hsound : Sound roots m) (hlog : (0 : Word) ∉ (kmallocs sizes m).2.log)
    (hown : AllOwn sizes m) : BlocksKept sizes m := by
  obtain ⟨lab, l, h⟩ := hsound
  refine ⟨(h.kmallocs hown hlog).2.1, ?_⟩
  rintro before n after ⟨rest, rfl⟩ r i hi
  rw [List.append_assoc] at hown hlog
  rw [kmallocs_append] at hlog
  obtain ⟨lab₁, l₁, h₁⟩ := Sound.kmallocs ⟨lab, l, h⟩ (served_of_kmallocs hlog)
  have hown₁ := (allOwn_append.mp hown).2
  rw [kmallocs_append] at hlog
  refine h₁.kmalloc_kept (allOwn_append.mp hown₁).1 (served_of_kmallocs hlog) ?_ hi
  exact h.current

/-- Three requests after boot. -/
theorem kmallocs_blocksKept_boot :
    BlocksKept [4096, 8192, 100] (bootMachine 0x2000 0x20000) := by
  have hregion : PhysMem.BootRegion 0x2000 0 0x20000 := ⟨by decide, by decide, by decide, by decide⟩
  have hlog : (0 : Word) ∉ (kmallocs [4096, 8192, 100] (bootMachine 0x2000 0x20000)).2.log := by
    decide +kernel
  exact kmallocs_blocksKept [0x1000] _ _ ⟨_, _, bootMachine_forest hregion (by decide)⟩ hlog
    (allOwn_of_stock (bootMachine_counted hregion) hlog)

/-! ## A free list out of order -/

theorem Forest.reorder {roots : List Word} {m : Machine} {lab : Word → Option Node}
    {l l' : List Nat} {p : PhysMem} (h : Forest roots m lab l) (hc : p.Counted l')
    (hsub : ∀ n ∈ l', n ∈ l) : Forest roots { m with phys := p } lab l' where
  pool :=
    { counted := hc
      blank := fun n hn =>
        have hblank := h.pool.blank n (hsub n hn)
        ⟨hblank.aligned, hblank.unlabelled, hblank.zero⟩
      positive := fun n hn => h.pool.positive n (hsub n hn) }
  tables := h.tables
  root := h.root
  current := h.current
  zero := h.zero
  drawn := h.drawn
  leaf := fun r hr q hq => (h.leaf r hr q hq).imp id fun ⟨hp, hm, hu⟩ => ⟨hp, hm, fun hq' =>
    have hheld := hu hq'
    ⟨hheld.aligned, hheld.nonzero, hheld.unlabelled, fun n hn => hheld.notFree n (hsub n hn)⟩⟩

/-- The allocator after boot once pages 2 to 8 have been drawn and have come
back, page 7 before page 8. -/
def shuffledPhys : PhysMem :=
  [7, 8, 6, 5, 4, 3, 2].foldl (fun s n => s.addBackFreePages (pageAddress n) 1)
    ((bootMachine 0x2000 0x20000).phys.later 7)

def shuffledPages : List Nat := [2, 3, 4, 5, 6, 8, 7] ++ List.range' 9 23

theorem shuffledPhys_counted : shuffledPhys.Counted shuffledPages where
  list := by decide +kernel
  count := by decide +kernel
  named := by decide +kernel
  bounded := by decide +kernel

def shuffledMachine : Machine := { bootMachine 0x2000 0x20000 with phys := shuffledPhys }

theorem shuffledMachine_sound : Sound [0x1000] shuffledMachine := by
  have hregion : PhysMem.BootRegion 0x2000 0 0x20000 := ⟨by decide, by decide, by decide, by decide⟩
  refine ⟨_, _, (bootMachine_forest hregion (by decide)).reorder shuffledPhys_counted ?_⟩
  decide +kernel

theorem shuffledMachine_blocks : (kmallocs [4096, 8192, 4096] shuffledMachine).1
    = [(kernelVirtualBase + 0x2000, 1), (kernelVirtualBase + 0x6000, 2),
      (kernelVirtualBase + 0x7000, 1)] := by
  decide +kernel

theorem not_apart_of_common {b c : Word × Nat} {i j : Nat} (hi : i < b.2) (hj : j < c.2)
    (h : blockPage b i = blockPage c j) : ¬ PagesApart b c :=
  fun hapart => hapart i hi j hj (congrArg path h)

theorem shuffledMachine_not_blocksKept :
    ¬ BlocksKept [4096, 8192, 4096] shuffledMachine := by
  intro hkept
  have hapart := hkept.apart
  rw [shuffledMachine_blocks, List.pairwise_cons, List.pairwise_cons] at hapart
  have hpage : blockPage (kernelVirtualBase + 0x6000, 2) 1
      = blockPage (kernelVirtualBase + 0x7000, 1) 0 := by decide +kernel
  exact not_apart_of_common (Nat.lt_succ_self 1) Nat.one_pos hpage
    (hapart.2.1 _ (List.mem_singleton_self _))

/-- The block of two pages gets frames 6 and 8 and lies at 6 and 7. The next
block gets frame 7, and with it the second page of the other. -/
theorem kmalloc_takes_page : Sound [0x1000] shuffledMachine ∧
    (0 : Word) ∉ (kmallocs [4096, 8192, 4096] shuffledMachine).2.log ∧
    (kmallocs [4096, 8192] shuffledMachine).2.translate 0x1000 (kernelVirtualBase + 0x7000)
      = some 0x8000 ∧
    (kmallocs [4096, 8192, 4096] shuffledMachine).2.translate 0x1000 (kernelVirtualBase + 0x7000)
      = some 0x7000 ∧
    ¬ BlocksKept [4096, 8192, 4096] shuffledMachine := by
  have hlog : (0 : Word) ∉ (kmallocs [4096, 8192, 4096] shuffledMachine).2.log := by decide +kernel
  have hsplit := kmallocs_append [4096, 8192] [4096] shuffledMachine
  have hcr3 : (kmallocs [4096, 8192] shuffledMachine).2.cr3 = 0x1000 := by decide +kernel
  have hframe : (kmallocs [4096, 8192] shuffledMachine).2.getFreePage.1 = 0x7000 := by
    decide +kernel
  have hbefore : (kmallocs [4096, 8192] shuffledMachine).2.translate 0x1000
      (kernelVirtualBase + 0x7000) = some 0x8000 := by decide +kernel
  rw [List.cons_append, List.cons_append, List.nil_append] at hsplit
  rw [hsplit] at hlog ⊢
  obtain ⟨lab, l, h⟩ := Sound.kmallocs shuffledMachine_sound (served_of_kmallocs hlog)
  generalize (kmallocs [4096, 8192] shuffledMachine).2 = m at *
  refine ⟨shuffledMachine_sound, hlog, hbefore, ?_, shuffledMachine_not_blocksKept⟩
  rw [← hcr3, ← hframe]
  exact h.translate_kmalloc_page hlog

end Machine

end SnowOs
