import SnowOs.UserMalloc

/-!
# The memory map of a forked process

`copy_process` copies the parent's areas in two loops. The first one runs from
`vma_map` and stops in front of `vma_heap`; its last copy becomes the child's
`vma_map_iter`. The second one copies the list from `vma_heap` on, and hangs
its copies off the child's `vma_heap` only. Nothing links the two parts, so
the child's list from `vma_map` has no heap: it never is a copy of the
parent's, whatever the parent's areas are (`copyProcess_map`).

Both loops write to blocks that `kmalloc` has just returned. `Copying` is the
invariant of the first; the second matters only in that it leaves the blocks
in use alone (`copyVmaHeap_frame`).
-/

namespace SnowOs

open Machine

/-! ## Blocks in use -/

section InUse

variable {roots K : List Word} {m : Machine}

theorem Machine.InUse.kmalloc (h : InUse roots m K) {n : BitVec 32} (hn : noOfPages n = 1)
    (hserved : (0 : Word) ∉ (m.kmalloc n).2.log) :
    (m.kmalloc n).1 ∉ K ∧ (m.kmalloc n).1 ≠ 0 ∧
      InUse roots (m.kmalloc n).2 ((m.kmalloc n).1 :: K) := by
  obtain ⟨hnew, hne, hshows⟩ := h.shows.kmalloc_new hn hserved
  exact ⟨hnew, hne, hshows.inUse⟩

theorem Machine.InUse.sub {K' : List Word} (h : InUse roots m K) (hK : ∀ a ∈ K', a ∈ K) :
    InUse roots m K' := by
  obtain ⟨lab, l, hF, hblock⟩ := h
  exact ⟨lab, l, hF, fun a ha => hblock a (hK a ha)⟩

/-- Requests to the kernel heap give nothing back. -/
theorem Machine.InUse.heapRun (h : InUse roots m K) {m' : Machine} {k : Nat} (hrun : HeapRun m k m')
    (hserved : (0 : Word) ∉ m'.log) : InUse roots m' K := by
  obtain ⟨lab, l, hF, hblock⟩ := h
  obtain ⟨lab', l', hq⟩ := hrun.quiet hF hserved
  refine ⟨lab', l', hq.forest, fun a ha => ?_⟩
  obtain ⟨f, hf, heq⟩ := hblock a ha
  exact ⟨f, hq.keeps.held hf, heq⟩

/-- Nor does the pass over the tables; the child's address space is current
afterwards. -/
theorem Machine.InUse.cowPageTables (h : InUse roots m K)
    (hserved : (0 : Word) ∉ m.cowPageTables.2.log) :
    InUse (m.cowPageTables.1 :: roots) (m.cowPageTables.2.setNewCr3 m.cowPageTables.1) K := by
  obtain ⟨lab, l, hF, hblock⟩ := h
  obtain ⟨lab', l', hC⟩ := hF.cowPageTables hserved
  refine ⟨lab', l', hC.forest.setNewCr3 (List.mem_cons_self ..), fun a ha => ?_⟩
  obtain ⟨f, hf, heq⟩ := hblock a ha
  exact ⟨f, hC.held hf, heq⟩

theorem Machine.HeapRun.served {m' : Machine} {k : Nat} (hrun : HeapRun m k m')
    (hserved : (0 : Word) ∉ m'.log) : (0 : Word) ∉ m.log :=
  fun hmem => hserved (hrun.log_suffix.subset hmem)

end InUse

/-! ## The first loop -/

/-- The loop has made the `copies`, in new blocks; the blocks `K` are as they
were. -/
structure Copying (roots K : List Word) (s₀ s : Space) (cMap cIter : Word)
    (copies : List Word) : Prop where
  inUse : InUse roots s.machine (copies ++ K)
  list : VmaList s.vma cMap cIter copies
  apart : ∀ b ∈ copies, b ∉ K
  kept : ∀ b ∈ K, s.vma b = s₀.vma b

section Loops

variable {roots K : List Word} {s₀ s : Space} {cMap cIter : Word} {copies : List Word}

/-- A linked node changes no record but its own and the last one's. -/
theorem linkVma_other {vma : Word → VmaStruct} {last a b : Word} {v : VmaStruct}
    (ha : b ≠ a) (hlast : last ≠ 0 → b ≠ last) : linkVma vma last a v b = vma b := by
  rw [linkVma]
  split
  · rename_i hne
    rw [Function.update_of_ne (hlast hne), Function.update_of_ne ha]
  · exact Function.update_of_ne ha _ _

/-- One round: the record `v` in a new block behind the copies. -/
theorem Copying.copy (h : Copying roots K s₀ s cMap cIter copies) {v : VmaStruct} {s' : Space}
    (hnext : v.next = 0) (hmachine : s'.machine = (s.machine.kmalloc sizeofVmaStruct).2)
    (hvma : s'.vma = linkVma s.vma cIter (s.machine.kmalloc sizeofVmaStruct).1 v)
    (hserved : (0 : Word) ∉ s'.machine.log) :
    Copying roots K s₀ s' (if cIter ≠ 0 then cMap else (s.machine.kmalloc sizeofVmaStruct).1)
        (s.machine.kmalloc sizeofVmaStruct).1
        (copies ++ [(s.machine.kmalloc sizeofVmaStruct).1]) ∧
      areas s'.vma (copies ++ [(s.machine.kmalloc sizeofVmaStruct).1])
        = areas s.vma copies ++ [v.area] := by
  rw [hmachine] at hserved
  obtain ⟨hnew, hne, hinUse⟩ := h.inUse.kmalloc noOfPages_vmaStruct hserved
  rw [List.mem_append, not_or] at hnew
  obtain ⟨hlist, hareas⟩ := h.list.link hne hnew.1 hnext
  rw [← hvma] at hlist hareas
  refine ⟨⟨?_, hlist, fun b hb => ?_, fun b hb => ?_⟩, hareas⟩
  · rw [hmachine]
    refine hinUse.sub fun b hb => ?_
    simp only [List.mem_append, List.mem_cons, List.not_mem_nil, or_false] at hb ⊢
    tauto
  · rcases List.mem_append.mp hb with hb | hb
    · exact h.apart b hb
    · exact List.mem_singleton.mp hb ▸ hnew.2
  · rw [hvma, linkVma_other (ne_of_mem_of_not_mem hb hnew.2)
      fun hiter heq => h.apart _ (h.list.last_mem hiter) (heq ▸ hb), h.kept b hb]

/-- The space after a round for the node `pVma`. -/
def copyRound (s : Space) (pVma cIter : Word) : Space :=
  { s with
    machine := (s.machine.kmalloc sizeofVmaStruct).2
    vma := linkVma s.vma cIter (s.machine.kmalloc sizeofVmaStruct).1
      { s.vma pVma with next := 0 } }

theorem copyVmaMap_succ {fuel : Nat} {pVma vmaHeap : Word} (hp : pVma ≠ 0 ∧ pVma ≠ vmaHeap) :
    s.copyVmaMap (fuel + 1) pVma vmaHeap cMap cIter
      = (copyRound s pVma cIter).copyVmaMap fuel ((copyRound s pVma cIter).vma pVma).next vmaHeap
          (if cIter ≠ 0 then cMap else (s.machine.kmalloc sizeofVmaStruct).1)
          (s.machine.kmalloc sizeofVmaStruct).1 := by
  rw [Space.copyVmaMap, if_pos hp, copyRound, linkVma]
  by_cases hiter : cIter ≠ 0
  · simp only [if_pos hiter]
    rfl
  · simp only [if_neg hiter]
    rfl

theorem copyVmaMap_served {fuel : Nat} {pVma vmaHeap : Word}
    (hserved : (0 : Word) ∉ (s.copyVmaMap fuel pVma vmaHeap cMap cIter).2.machine.log) :
    (0 : Word) ∉ s.machine.log := by
  obtain ⟨k, -, hrun⟩ := Space.copyVmaMap_heapRun fuel pVma vmaHeap cMap cIter s
  exact hrun.served hserved

/-- The loop copies the areas in front of the heap, in order. -/
theorem Copying.copyVmaMap {fuel : Nat} {pVma vmaHeap : Word} {segs rest : List Word}
    (h : Copying roots K s₀ s cMap cIter copies)
    (hchain : VmaChain s₀.vma pVma (segs ++ vmaHeap :: rest))
    (hK : ∀ b ∈ segs, b ∈ K) (hfuel : segs.length < fuel)
    (hserved : (0 : Word) ∉ (s.copyVmaMap fuel pVma vmaHeap cMap cIter).2.machine.log) :
    ∃ copies', Copying roots K s₀ (s.copyVmaMap fuel pVma vmaHeap cMap cIter).2
        (s.copyVmaMap fuel pVma vmaHeap cMap cIter).1.1
        (s.copyVmaMap fuel pVma vmaHeap cMap cIter).1.2 copies' ∧
      areas (s.copyVmaMap fuel pVma vmaHeap cMap cIter).2.vma copies'
        = areas s.vma copies ++ areas s₀.vma segs := by
  induction segs generalizing fuel pVma s cMap cIter copies with
  | nil =>
      obtain ⟨fuel, rfl⟩ : ∃ n, fuel = n + 1 := Nat.exists_eq_succ_of_ne_zero hfuel.ne'
      obtain ⟨hheap, -, -⟩ := vmaChain_cons.mp hchain
      rw [Space.copyVmaMap, if_neg fun hc => hc.2 hheap]
      exact ⟨copies, h, (List.append_nil _).symm⟩
  | cons a segs ih =>
      obtain ⟨fuel, rfl⟩ : ∃ n, fuel = n + 1 :=
        Nat.exists_eq_succ_of_ne_zero (Nat.ne_of_gt (Nat.lt_of_le_of_lt (Nat.zero_le _) hfuel))
      obtain ⟨rfl, hne, hrest⟩ := vmaChain_cons.mp hchain
      have ha := hK pVma (List.mem_cons_self ..)
      -- a node of the list is met once, so the heap comes later
      have hheap : pVma ≠ vmaHeap := by
        rintro rfl
        exact (List.nodup_cons.mp hchain.nodup).1
          (List.mem_append_right _ (List.mem_cons_self ..))
      rw [copyVmaMap_succ ⟨hne, hheap⟩] at hserved ⊢
      have hserved₁ : (0 : Word) ∉ (copyRound s pVma cIter).machine.log :=
        copyVmaMap_served hserved
      obtain ⟨hcopy, hareas⟩ := h.copy (v := { s.vma pVma with next := 0 }) rfl rfl rfl hserved₁
      have hnext : ((copyRound s pVma cIter).vma pVma).next = (s₀.vma pVma).next := by
        rw [hcopy.kept pVma ha]
      rw [hnext] at hserved ⊢
      obtain ⟨copies', hdone, hall⟩ := ih hcopy hrest
        (fun b hb => hK b (List.mem_cons_of_mem _ hb)) (Nat.lt_of_succ_lt_succ hfuel) hserved
      refine ⟨copies', hdone, ?_⟩
      have harea : ({ s.vma pVma with next := 0 } : VmaStruct).area = (s₀.vma pVma).area := by
        rw [h.kept pVma ha]
        rfl
      rw [hall, hareas, harea, List.append_assoc]
      rfl

/-! ## The second loop -/

theorem copyVmaHeap_served {fuel : Nat} {pVma cHeap : Word}
    (hserved : (0 : Word) ∉ (s.copyVmaHeap fuel pVma cHeap cIter).2.machine.log) :
    (0 : Word) ∉ s.machine.log := by
  obtain ⟨k, -, hrun⟩ := Space.copyVmaHeap_heapRun fuel pVma cHeap cIter s
  exact hrun.served hserved

/-- The loop leaves the blocks in use alone: it writes to its own copies. -/
theorem copyVmaHeap_frame {fuel : Nat} {pVma cHeap : Word} (h : InUse roots s.machine K)
    (hiter : cIter ≠ 0 → cIter ∉ K)
    (hserved : (0 : Word) ∉ (s.copyVmaHeap fuel pVma cHeap cIter).2.machine.log) :
    ∀ b ∈ K, (s.copyVmaHeap fuel pVma cHeap cIter).2.vma b = s.vma b := by
  induction fuel generalizing pVma cHeap cIter s with
  | zero => exact fun _ _ => rfl
  | succ fuel ih =>
      rw [Space.copyVmaHeap] at hserved ⊢
      split at hserved
      · rename_i hp
        rw [if_pos hp]
        have hserved₁ : (0 : Word) ∉ (s.machine.kmalloc sizeofVmaStruct).2.log := by
          have hafter := copyVmaHeap_served hserved
          split at hafter
          · exact hafter
          · exact hafter
        obtain ⟨hnew, -, hinUse⟩ := h.kmalloc noOfPages_vmaStruct hserved₁
        have hinUse' := hinUse.sub fun b hb => List.mem_cons_of_mem _ hb
        intro b hb
        have hbnew : b ≠ (s.machine.kmalloc sizeofVmaStruct).1 := ne_of_mem_of_not_mem hb hnew
        by_cases hlast : cIter ≠ 0
        · simp only [if_pos hlast] at hserved ⊢
          have hbiter : b ≠ cIter := ne_of_mem_of_not_mem hb (hiter hlast)
          refine (ih hinUse' (fun _ => hnew) hserved b hb).trans ?_
          exact (Function.update_of_ne hbiter _ _).trans (Function.update_of_ne hbnew _ _)
        · simp only [if_neg hlast] at hserved ⊢
          refine (ih hinUse' (fun _ => hnew) hserved b hb).trans ?_
          exact Function.update_of_ne hbnew _ _
      · rename_i hp
        rw [if_neg hp]
        exact fun _ _ => rfl

theorem copyVmaHeap_mm (fuel : Nat) (pVma cHeap cIter : Word) (s : Space) :
    (s.copyVmaHeap fuel pVma cHeap cIter).2.mm = s.mm := by
  induction fuel generalizing pVma cHeap cIter s with
  | zero => rfl
  | succ fuel ih =>
      rw [Space.copyVmaHeap]
      split
      · rw [ih]
        split <;> rfl
      · rfl

end Loops

/-! ## The child's map -/

theorem copyMm_parts (fuel : Nat) (s : Space) (task : Task) :
    ∃ k s₁ a s₂ b st, s.machine.kmalloc sizeofMmStruct = k ∧
      s₁ = (s.setMachine k.2).setMm k.1 (s.mm task.processMm) ∧
      s₁.copyVmaMap fuel (s₁.mm task.processMm).vmaMap (s₁.mm task.processMm).vmaHeap 0 0 = a ∧
      s₂ = a.2.setMm k.1 { a.2.mm k.1 with vmaMap := a.1.1, vmaMapIter := a.1.2 } ∧
      s₂.copyVmaHeap fuel (s₂.mm task.processMm).vmaHeap 0 0 = b ∧
      b.2.machine.kmalloc sizeofVmaStruct = st ∧
      (s.copyMm fuel task).1 = k.1 ∧ (s.copyMm fuel task).2.machine = st.2 ∧
      (∀ x, x ≠ st.1 → (s.copyMm fuel task).2.vma x = b.2.vma x) ∧
      ((s.copyMm fuel task).2.mm k.1).vmaMap = (b.2.mm k.1).vmaMap ∧
      ((s.copyMm fuel task).2.mm k.1).vmaMapIter = (b.2.mm k.1).vmaMapIter := by
  refine ⟨_, _, _, _, _, _, rfl, rfl, rfl, rfl, rfl, rfl, rfl, rfl, fun x hx => ?_, ?_, ?_⟩
  · exact Function.update_of_ne hx _ _
  · simp only [Space.copyMm, Space.setMm, Space.setVma, Space.setMachine, Space.kmalloc,
      Function.update_self]
  · simp only [Space.copyMm, Space.setMm, Space.setVma, Space.setMachine, Space.kmalloc,
      Function.update_self]

variable {roots K : List Word} {s : Space} {task : Task}

/-- The child's list holds copies of the areas in front of the heap, and no
more. -/
theorem copyMm_map {fuel : Nat} {segs rest : List Word} (h : InUse roots s.machine K)
    (hchain : VmaChain s.vma (s.mm task.processMm).vmaMap
      (segs ++ (s.mm task.processMm).vmaHeap :: rest))
    (hK : ∀ b ∈ segs, b ∈ K) (hmm : task.processMm ∈ K) (hfuel : segs.length < fuel)
    (hserved : (0 : Word) ∉ (s.copyMm fuel task).2.machine.log) :
    ∃ copies, VmaList (s.copyMm fuel task).2.vma
        ((s.copyMm fuel task).2.mm (s.copyMm fuel task).1).vmaMap
        ((s.copyMm fuel task).2.mm (s.copyMm fuel task).1).vmaMapIter copies ∧
      areas (s.copyMm fuel task).2.vma copies = areas s.vma segs := by
  obtain ⟨k, s₁, a, s₂, b, st, hk, hs₁, ha, hs₂, hb, hst, hret, hmachine, hvma, hmap, hiter⟩ :=
    copyMm_parts fuel s task
  rw [hmachine] at hserved
  rw [hret, hmap, hiter]
  have hserved₃ : (0 : Word) ∉ b.2.machine.log := by
    rw [← hst] at hserved
    exact fun hmem => hserved ((kmalloc_log_suffix ..).subset hmem)
  have hserved₂ : (0 : Word) ∉ s₂.machine.log := by
    rw [← hb] at hserved₃
    exact copyVmaHeap_served hserved₃
  have hserved₁ : (0 : Word) ∉ a.2.machine.log := by
    rw [hs₂] at hserved₂
    exact hserved₂
  have hserved₀ : (0 : Word) ∉ k.2.log := by
    rw [← ha] at hserved₁
    have := copyVmaMap_served hserved₁
    rwa [hs₁] at this
  rw [← hk] at hserved₀
  obtain ⟨hnew, -, hinUse⟩ := h.kmalloc (show noOfPages sizeofMmStruct = 1 from rfl) hserved₀
  rw [hk] at hnew hinUse
  have hparent : s₁.mm task.processMm = s.mm task.processMm := by
    rw [hs₁]
    exact Function.update_of_ne (ne_of_mem_of_not_mem hmm hnew) _ _
  have hstart : Copying roots K s s₁ 0 0 [] := by
    rw [hs₁]
    exact ⟨hinUse.sub fun x hx => List.mem_cons_of_mem _ hx, ⟨rfl, rfl⟩,
      fun x hx => absurd hx List.not_mem_nil, fun _ _ => rfl⟩
  rw [hparent] at ha
  rw [← ha] at hserved₁
  obtain ⟨copies, hcopying, hareas⟩ := hstart.copyVmaMap hchain hK hfuel hserved₁
  rw [ha] at hcopying hareas
  have hinUse₂ : InUse roots s₂.machine (copies ++ K) := by
    rw [hs₂]
    exact hcopying.inUse
  rw [← hb] at hserved₃
  have hheap := copyVmaHeap_frame hinUse₂ (fun hne => absurd rfl hne) hserved₃
  obtain ⟨j, -, hrun⟩ := Space.copyVmaHeap_heapRun fuel (s₂.mm task.processMm).vmaHeap 0 0 s₂
  have hinUse₃ := hinUse₂.heapRun hrun hserved₃
  rw [hb] at hheap hinUse₃
  rw [← hst] at hserved
  obtain ⟨hstack, -, -⟩ := hinUse₃.kmalloc noOfPages_vmaStruct hserved
  rw [hst] at hstack
  have hsame : ∀ x ∈ copies, (s.copyMm fuel task).2.vma x = a.2.vma x := by
    intro x hx
    have hmem := List.mem_append_left K hx
    rw [hvma x (ne_of_mem_of_not_mem hmem hstack), hheap x hmem, hs₂]
    rfl
  obtain ⟨hlist, hcopied⟩ := hcopying.list.frame hsame
  have hchild : b.2.mm k.1 = { a.2.mm k.1 with vmaMap := a.1.1, vmaMapIter := a.1.2 } := by
    rw [← hb, copyVmaHeap_mm, hs₂]
    exact Function.update_self ..
  refine ⟨copies, ?_, ?_⟩
  · rw [hchild]
    exact hlist
  · rw [hcopied, hareas]
    rfl

/-- The child's map is a copy of the parent's, whose areas are `nodes`: the
same areas in the same order in nodes of its own, with the heap at the same
position, and an equal stack in a node of its own. -/
structure MapCopied (s : Space) (parent : MmStruct) (nodes : List Word) (s' : Space)
    (child : MmStruct) : Prop where
  chain : ∃ nodes', VmaList s'.vma child.vmaMap child.vmaMapIter nodes' ∧
    areas s'.vma nodes' = areas s.vma nodes ∧ (∀ b ∈ nodes', b ∉ nodes) ∧
    nodes'.idxOf child.vmaHeap = nodes.idxOf parent.vmaHeap
  stack : (s'.vma child.vmaStack).area = (s.vma parent.vmaStack).area ∧
    child.vmaStack ≠ parent.vmaStack

/-- A shorter list is no copy. -/
theorem not_mapCopied {s' : Space} {parent child : MmStruct} {nodes copies segs rest : List Word}
    (hlist : VmaList s'.vma child.vmaMap child.vmaMapIter copies)
    (hareas : areas s'.vma copies = areas s.vma segs)
    (hnodes : nodes = segs ++ parent.vmaHeap :: rest) : ¬ MapCopied s parent nodes s' child := by
  rintro ⟨⟨nodes', hlist', hareas', -, -⟩, -⟩
  have hsame : nodes' = copies := hlist'.chain.unique hlist.chain
  have hlen := congrArg List.length (hareas'.symm.trans ((congrArg _ hsame).trans hareas))
  rw [areas, areas, List.length_map, List.length_map, hnodes, List.length_append,
    List.length_cons] at hlen
  omega

/-- The areas of the child of `copy_process`, for a parent whose heap is one of
its areas. -/
theorem copyProcess_segments {nodes : List Word} {fuel : Nat}
    (h : InUse roots s.machine (task.processMm :: nodes))
    (hlist : VmaList s.vma (s.mm task.processMm).vmaMap (s.mm task.processMm).vmaMapIter nodes)
    (hheap : (s.mm task.processMm).vmaHeap ∈ nodes) (hfuel : nodes.length ≤ fuel)
    (hserved : (0 : Word) ∉ (s.copyProcess fuel task).2.machine.log) :
    ∃ segs rest copies, nodes = segs ++ (s.mm task.processMm).vmaHeap :: rest ∧
      VmaList (s.copyProcess fuel task).2.vma
        ((s.copyProcess fuel task).2.mm (s.copyProcess fuel task).1.processMm).vmaMap
        ((s.copyProcess fuel task).2.mm (s.copyProcess fuel task).1.processMm).vmaMapIter
        copies ∧
      areas (s.copyProcess fuel task).2.vma copies = areas s.vma segs := by
  obtain ⟨segs, rest, hsplit⟩ := List.append_of_mem hheap
  obtain ⟨s₁, c, k, hs₁, hc, hk, hres⟩ : ∃ s₁ c k, (s.kmalloc sizeofKthread).2 = s₁ ∧
      s₁.machine.cowPageTables = c ∧
      (s₁.setMachine (c.2.setNewCr3 c.1)).copyMm fuel task = k ∧
      s.copyProcess fuel task = ({ cr3 := c.1, processMm := k.1 }, k.2) :=
    ⟨_, _, _, rfl, rfl, rfl, rfl⟩
  rw [hres] at hserved ⊢
  rw [← hk] at hserved
  obtain ⟨j, -, hrun⟩ := Space.copyMm_heapRun fuel (s₁.setMachine (c.2.setNewCr3 c.1)) task
  have hserved₂ : (0 : Word) ∉ c.2.log := hrun.served hserved
  have hserved₁ : (0 : Word) ∉ s₁.machine.log := by
    rw [← hc] at hserved₂
    exact fun hmem => hserved₂ ((cowPageTables_log_suffix _).subset hmem)
  have hkthread : HeapRun s.machine (0 + noOfPages sizeofKthread) s₁.machine := by
    rw [← hs₁]
    exact HeapRun.refl.kmalloc (by decide)
  have hinUse := h.heapRun hkthread hserved₁
  rw [← hc] at hserved₂
  have hchild := hinUse.cowPageTables hserved₂
  rw [hc] at hchild
  have hvma : s₁.vma = s.vma := by rw [← hs₁]; rfl
  have hmm : s₁.mm = s.mm := by rw [← hs₁]; rfl
  have hchain : VmaChain (s₁.setMachine (c.2.setNewCr3 c.1)).vma
      ((s₁.setMachine (c.2.setNewCr3 c.1)).mm task.processMm).vmaMap
      (segs ++ ((s₁.setMachine (c.2.setNewCr3 c.1)).mm task.processMm).vmaHeap :: rest) := by
    show VmaChain s₁.vma (s₁.mm task.processMm).vmaMap
      (segs ++ (s₁.mm task.processMm).vmaHeap :: rest)
    rw [hvma, hmm, ← hsplit]
    exact hlist.chain
  have hlen : segs.length < fuel := by
    have := congrArg List.length hsplit
    rw [List.length_append, List.length_cons] at this
    omega
  have hsegs : ∀ b ∈ segs, b ∈ task.processMm :: nodes := fun b hb =>
    List.mem_cons_of_mem _ (hsplit ▸ List.mem_append_left _ hb)
  obtain ⟨copies, hcopies, hareas⟩ := copyMm_map hchild hchain hsegs (List.mem_cons_self ..) hlen
    hserved
  rw [hk] at hcopies hareas
  refine ⟨segs, rest, copies, hsplit, hcopies, hareas.trans ?_⟩
  show areas s₁.vma segs = _
  rw [hvma]

/-- **No fork copies the memory map**: the child's list ends in front of the
heap, for every parent. -/
theorem copyProcess_map {nodes : List Word} {fuel : Nat}
    (h : InUse roots s.machine (task.processMm :: nodes))
    (hlist : VmaList s.vma (s.mm task.processMm).vmaMap (s.mm task.processMm).vmaMapIter nodes)
    (hheap : (s.mm task.processMm).vmaHeap ∈ nodes) (hfuel : nodes.length ≤ fuel)
    (hserved : (0 : Word) ∉ (s.copyProcess fuel task).2.machine.log) :
    ¬ MapCopied s (s.mm task.processMm) nodes (s.copyProcess fuel task).2
      ((s.copyProcess fuel task).2.mm (s.copyProcess fuel task).1.processMm) := by
  obtain ⟨segs, rest, copies, hsplit, hcopies, hareas⟩ :=
    copyProcess_segments h hlist hheap hfuel hserved
  exact not_mapCopied hcopies hareas hsplit

theorem loadImage_map {image : Image} (himage : image.Loadable)
    (h : InUse roots s.machine [task.processMm]) (regs : UserRegs)
    (hserved : (0 : Word) ∉ (s.loadImage task regs (some image)).2.2.machine.log) :
    ∃ nodes, InUse roots (s.loadImage task regs (some image)).2.2.machine
        (task.processMm :: nodes) ∧
      VmaList (s.loadImage task regs (some image)).2.2.vma
        ((s.loadImage task regs (some image)).2.2.mm task.processMm).vmaMap
        ((s.loadImage task regs (some image)).2.2.mm task.processMm).vmaMapIter nodes ∧
      ((s.loadImage task regs (some image)).2.2.mm task.processMm).vmaHeap ∈ nodes ∧
      nodes.length = image.loads.length + 1 := by
  have hlow := himage.low
  rw [← Image.filter_phdrs] at hlow
  obtain ⟨nodes, mm, hmm, hshows, hlist, hareas, hheap, -, -⟩ :=
    Loading.loadFile h task hlow hserved
  obtain ⟨hiter, -⟩ := hlist.last_area hareas
  rw [Space.loadImage, hmm]
  refine ⟨nodes, hshows.inUse.sub fun b hb => ?_, hlist, hheap ▸ hlist.last_mem hiter, ?_⟩
  · rcases List.mem_cons.mp hb with rfl | hb
    · exact List.mem_cons_of_mem _ (List.mem_append_right _ (List.mem_cons_self ..))
    · exact List.mem_cons_of_mem _ (List.mem_append_left _ hb)
  · have hlen := congrArg List.length hareas
    rwa [areas, List.length_map, Image.filter_phdrs, List.length_append, List.length_map,
      List.length_map] at hlen

theorem fork_log (s : Space) (fuel : Nat) (task : Task) :
    (s.fork fuel task).2.machine.log = (s.copyProcess fuel task).2.machine.log := rfl

/-! ## A process that forks -/

def parentBlock : Word × Space := (bootSpace 0x2000 0x2000000).kmalloc sizeofMmStruct

def parentTask : Task := { cr3 := 0x1000, processMm := parentBlock.1 }

def parentSpace : Space :=
  (parentBlock.2.loadImage parentTask { rip := 0, rspUser := 0 } (some Image.twoSegments)).2.2

theorem parentBlock_account : parentBlock.2.machine.Account 8191 5 := by
  have hstart : (bootSpace 0x2000 0x2000000).machine.Account 8191 1 :=
    bootMachine_account loadedSpace_region (by decide)
  exact hstart.kmalloc sizeofMmStruct (by decide)

theorem parentSpace_account : parentSpace.machine.Account 8191 45 :=
  Image.twoSegments_account parentTask parentBlock_account (by decide)

theorem parentBlock_inUse :
    InUse [0x1000] parentBlock.2.machine [parentTask.processMm] := by
  have hboot : InUse [0x1000] (bootSpace 0x2000 0x2000000).machine [] :=
    (bootMachine_forest loadedSpace_region (by decide)).inUse
  exact (hboot.kmalloc (n := sizeofMmStruct) rfl parentBlock_account.log).2.2

theorem parentSpace_map : ∃ nodes,
    InUse [0x1000] parentSpace.machine (parentTask.processMm :: nodes) ∧
      VmaList parentSpace.vma (parentSpace.mm parentTask.processMm).vmaMap
        (parentSpace.mm parentTask.processMm).vmaMapIter nodes ∧
      (parentSpace.mm parentTask.processMm).vmaHeap ∈ nodes ∧ nodes.length = 3 := by
  have hmap := loadImage_map Image.twoSegments_loadable parentBlock_inUse
    { rip := 0, rspUser := 0 } parentSpace_account.log
  rw [Image.twoSegments_loads] at hmap
  exact hmap

theorem parentSpace_served :
    (0 : Word) ∉ (parentSpace.copyProcess 3 parentTask).2.machine.log := by
  obtain ⟨nodes, ⟨lab, l, hF, -⟩, -⟩ := parentSpace_map
  rw [← fork_log]
  exact (Space.fork_account hF parentSpace_account 3 parentTask (by decide)).log

/-- The child of this process lacks the heap. -/
theorem copyProcess_map_twoSegments : ∃ nodes,
    VmaList parentSpace.vma (parentSpace.mm parentTask.processMm).vmaMap
        (parentSpace.mm parentTask.processMm).vmaMapIter nodes ∧
      ¬ MapCopied parentSpace (parentSpace.mm parentTask.processMm) nodes
        (parentSpace.copyProcess 3 parentTask).2
        ((parentSpace.copyProcess 3 parentTask).2.mm
          (parentSpace.copyProcess 3 parentTask).1.processMm) := by
  obtain ⟨nodes, hinUse, hlist, hheap, hlen⟩ := parentSpace_map
  exact ⟨nodes, hlist, copyProcess_map hinUse hlist hheap (Nat.le_of_eq hlen) parentSpace_served⟩

/-- Its list has two areas where the parent's has three. -/
theorem fork_drops_heap : ∃ nodes copies,
    VmaList parentSpace.vma (parentSpace.mm parentTask.processMm).vmaMap
        (parentSpace.mm parentTask.processMm).vmaMapIter nodes ∧ nodes.length = 3 ∧
      VmaList (parentSpace.copyProcess 3 parentTask).2.vma
        ((parentSpace.copyProcess 3 parentTask).2.mm
          (parentSpace.copyProcess 3 parentTask).1.processMm).vmaMap
        ((parentSpace.copyProcess 3 parentTask).2.mm
          (parentSpace.copyProcess 3 parentTask).1.processMm).vmaMapIter copies ∧
      copies.length < nodes.length ∧
      ¬ MapCopied parentSpace (parentSpace.mm parentTask.processMm) nodes
        (parentSpace.copyProcess 3 parentTask).2
        ((parentSpace.copyProcess 3 parentTask).2.mm
          (parentSpace.copyProcess 3 parentTask).1.processMm) := by
  obtain ⟨nodes, hinUse, hlist, hheap, hlen⟩ := parentSpace_map
  obtain ⟨segs, rest, copies, hsplit, hcopies, hareas⟩ :=
    copyProcess_segments hinUse hlist hheap (Nat.le_of_eq hlen) parentSpace_served
  refine ⟨nodes, copies, hlist, hlen, hcopies, ?_, not_mapCopied hcopies hareas hsplit⟩
  have hsame := congrArg List.length hareas
  rw [areas, areas, List.length_map, List.length_map] at hsame
  rw [hsame, hsplit, List.length_append, List.length_cons]
  omega

end SnowOs
