import SnowOs.StackGrowth

/-!
# The user heap

`user_malloc` puts each request behind the last area: it starts at the end
of the last VMA, takes the size rounded up to pages, hangs a new VMA behind
the list and maps its pages. There is no test of the size, so nothing is ever
refused, and both the rounding and the sum may wrap around.

`HeapTop` is the invariant of a process that only calls `user_malloc` after
`load_file`: no area but the stack reaches above `top`, and no page between
`top` and the stack is mapped. A request that ends below the stack keeps it
(`Requested.heapTop`) and is placed as it should be (`Places`); by induction
this holds for every request of a sequence that ends below the stack
(`mallocs_places`). The largest request wraps and gets an empty area.
-/

namespace SnowOs

open Machine

def roundUp (bytes : Word) : Nat := (bytes.toNat + 4095) / 4096 * 4096

namespace Space

def mallocs (s : Space) (task : Task) (sizes : List Word) : Space :=
  sizes.foldl (fun s bytes => (s.userMalloc task bytes).2) s

/-- A request placed as it should be: at a page boundary, without wrapping
around, in an area of its own behind the `nodes`, apart from them and from the
stack, and on pages that were not mapped. -/
structure Places (s : Space) (task : Task) (nodes : List Word) (bytes : Word)
    (r : Word × Space) : Prop where
  aligned : r.1.toNat % 4096 = 0
  noWrap : r.1.toNat + bytes.toNat < 2 ^ 64
  area : ∃ a, VmaList r.2.vma (r.2.mm task.processMm).vmaMap
      (r.2.mm task.processMm).vmaMapIter (nodes ++ [a]) ∧
    areas r.2.vma nodes = areas s.vma nodes ∧
    (r.2.vma a).start = r.1 ∧ r.1.toNat + bytes.toNat ≤ (r.2.vma a).stop.toNat ∧
    ∀ b ∈ (s.mm task.processMm).vmaStack :: nodes, (s.vma b).area.Apart (r.2.vma a).area
  kept : ∀ v f, UserPath (path v) → s.machine.translate s.machine.cr3 v = some f →
    r.2.machine.translate s.machine.cr3 v = some f

end Space

/-! ## One request -/

/-- A process that has called nothing but `user_malloc` since `load_file`. -/
structure HeapTop (roots : List Word) (s : Space) (task : Task) (nodes : List Word)
    (top : Nat) : Prop where
  shows : ∃ μ, Shows roots (fun _ => 0) s.machine μ ((s.mm task.processMm).vmaStack :: nodes) ∧
    ∀ a, top ≤ a → a < stackStart.toNat → μ a = none
  list : VmaList s.vma (s.mm task.processMm).vmaMap (s.mm task.processMm).vmaMapIter nodes
  iter : (s.mm task.processMm).vmaMapIter ≠ 0
  top_eq : (s.vma (s.mm task.processMm).vmaMapIter).stop.toNat = top
  aligned : top % 4096 = 0
  below : ∀ b ∈ nodes, (s.vma b).area.high ≤ top
  stack : s.vma (s.mm task.processMm).vmaStack = stackArea.toStruct
  apart : (s.mm task.processMm).vmaStack ∉ nodes

section Request

variable {roots : List Word} {s : Space} {task : Task} {nodes : List Word} {top : Nat}

theorem stackStart_toNat : stackStart.toNat = 0xF0000000 := rfl

theorem roundUp_ge (bytes : Word) : bytes.toNat ≤ roundUp bytes := by
  rw [roundUp]
  omega

/-- What the code adds to the end of the last VMA, while nothing wraps. -/
theorem endAlloc_toNat {start bytes : Word} (h : start.toNat + roundUp bytes < 2 ^ 64) :
    (if bytes % pageSize = 0 then start + bytes
      else start + (bytes / pageSize + 1) * pageSize).toNat = start.toNat + roundUp bytes := by
  rw [roundUp] at h ⊢
  have hmod : (bytes % pageSize).toNat = bytes.toNat % 4096 := by
    rw [BitVec.toNat_umod, pageSize_toNat]
  have hone : (1 : Word).toNat = 1 := rfl
  split
  · rename_i hzero
    rw [hzero] at hmod
    have hdvd : bytes.toNat % 4096 = 0 := hmod.symm
    rw [BitVec.toNat_add]
    omega
  · rename_i hne
    have hdvd : bytes.toNat % 4096 ≠ 0 := fun hc =>
      hne (BitVec.eq_of_toNat_eq (hmod.trans hc))
    rw [BitVec.toNat_add, BitVec.toNat_mul, BitVec.toNat_add, BitVec.toNat_udiv, hone,
      pageSize_toNat]
    omega

/-- The loop maps whole pages up to the end. -/
theorem mapWhile_eq_mapPages {n fuel : Nat} {a b : Word} (m : Machine)
    (hend : a.toNat + n * 4096 = b.toNat) (hfuel : n ≤ fuel) :
    m.mapWhile fuel a b = m.mapPages n a := by
  induction n generalizing fuel a m with
  | zero =>
      have hnot : ¬ a < b := by
        rw [BitVec.lt_def]
        omega
      cases fuel with
      | zero => rfl
      | succ fuel => rw [mapWhile, if_neg hnot]; rfl
  | succ n ih =>
      obtain ⟨k, rfl⟩ := Nat.exists_eq_add_of_le' hfuel
      have hlt : a < b := by
        rw [BitVec.lt_def]
        omega
      have hnext : (a + pageSize).toNat = a.toNat + 4096 := by
        have := b.isLt
        rw [BitVec.toNat_add, pageSize_toNat]
        omega
      rw [show k + (n + 1) = k + n + 1 from rfl, mapWhile, if_pos hlt]
      exact ih _ (by rw [hnext]; omega) (Nat.le_add_left n k)

theorem Machine.Shows.window_free {m : Machine} {μ : UserMem} {K : List Word} {v : Word} {n : Nat}
    (h : Shows roots (fun _ => 0) m μ K) (hv : v.toNat + n * 4096 ≤ 2 ^ 47)
    (hμ : ∀ a, v.toNat ≤ a → a < v.toNat + n * 4096 → μ a = none) :
    ∀ w ∈ pagesFrom v n, UserPath (path w) ∧ m.translate m.cr3 w = none := by
  induction n generalizing v with
  | zero => exact fun w hw => absurd hw List.not_mem_nil
  | succ n ih =>
      have hnext : (v + pageSize).toNat = v.toNat + 4096 := by
        rw [BitVec.toNat_add, pageSize_toNat]
        omega
      intro w hw
      rcases List.mem_cons.mp hw with rfl | hw
      · have huser : UserPath (path w) := userPath_of_lt (by omega)
        have hnone : μ (virtual w) = none := by
          rw [virtual_of_lt (by omega)]
          exact hμ _ (Nat.le_refl _) (by omega)
        refine ⟨huser, ?_⟩
        rw [Machine.translate, h.leaf_rest huser hnone]
        rfl
      · refine ih (by omega) (fun a hlo hhi => hμ a ?_ ?_) w hw
        · omega
        · omega

/-- The parts of a request: a block for the VMA, the list and the pages. -/
theorem userMalloc_structs (s : Space) (task : Task) (bytes : Word)
    (hiter : (s.mm task.processMm).vmaMapIter ≠ 0) :
    ∃ k v, s.machine.kmalloc sizeofVmaStruct = k ∧
      v.start = (s.vma (s.mm task.processMm).vmaMapIter).stop ∧
      v.stop = (if bytes % pageSize = 0 then v.start + bytes
        else v.start + (bytes / pageSize + 1) * pageSize) ∧ v.next = 0 ∧
      (s.userMalloc task bytes).2.machine
        = k.2.mapWhile (bytes.toNat / 4096 + 1) v.start v.stop ∧
      (s.userMalloc task bytes).2.vma
        = linkVma s.vma (s.mm task.processMm).vmaMapIter k.1 v ∧
      (s.userMalloc task bytes).2.mm task.processMm
        = { s.mm task.processMm with vmaMapIter := k.1 } ∧
      (s.userMalloc task bytes).1 = ((s.userMalloc task bytes).2.vma k.1).start := by
  refine ⟨_, { s.vma (s.machine.kmalloc sizeofVmaStruct).1 with
    start := (s.vma (s.mm task.processMm).vmaMapIter).stop
    stop := if bytes % pageSize = 0 then (s.vma (s.mm task.processMm).vmaMapIter).stop + bytes
      else (s.vma (s.mm task.processMm).vmaMapIter).stop + (bytes / pageSize + 1) * pageSize
    next := 0 }, rfl, rfl, rfl, rfl, rfl, ?_, Function.update_self .., rfl⟩
  rw [linkVma, if_pos hiter]
  rfl

/-- The machine's part of a request: a new block, and fresh pages in a window
that showed nothing. -/
theorem Machine.Shows.malloc {m : Machine} {μ : UserMem} {K : List Word} {v : Word} {n : Nat}
    (h : Shows roots (fun _ => 0) m μ K) (hv : v.toNat + n * 4096 ≤ 2 ^ 47)
    (hμ : ∀ a, v.toNat ≤ a → a < v.toNat + n * 4096 → μ a = none)
    (hserved : (0 : Word) ∉ ((m.kmalloc sizeofVmaStruct).2.mapPages n v).log) :
    (m.kmalloc sizeofVmaStruct).1 ∉ K ∧ (m.kmalloc sizeofVmaStruct).1 ≠ 0 ∧
      Shows roots (fun _ => 0) ((m.kmalloc sizeofVmaStruct).2.mapPages n v)
        (μ.zeroPages (pageIndex v) n) ((m.kmalloc sizeofVmaStruct).1 :: K) ∧
      ∀ u f, UserPath (path u) → m.translate m.cr3 u = some f →
        ((m.kmalloc sizeofVmaStruct).2.mapPages n v).translate m.cr3 u = some f := by
  have hlog : (0 : Word) ∉ (m.kmalloc sizeofVmaStruct).2.log :=
    fun hmem => hserved ((mapPages_log_suffix ..).subset hmem)
  obtain ⟨hnew, hne, hshows⟩ := h.kmalloc_new noOfPages_vmaStruct hlog
  obtain ⟨lab, l, hF⟩ := h.forest
  obtain ⟨lab', l', hF', hquiet⟩ := hF.kmalloc hlog
  have hquiet := hquiet (show noOfPages sizeofVmaStruct ≤ maxPages by decide)
  refine ⟨hnew, hne, hshows.mapPages hv hserved, fun u f hu hf => ?_⟩
  have hfree := hshows.window_free hv hμ
  rw [mapPages_eq_mapAll] at hserved ⊢
  have hkeeps := (hF'.mapAll_keeps_iff (fun w hw => (hfree w hw).1) hserved).mpr
    fun w hw => (hfree w hw).2
  rw [hquiet.cr3] at hkeeps
  refine hkeeps u f ?_
  rw [translate_eq, hquiet.user _ hF.current _ (length_path u) hu, ← translate_eq]
  exact hf

/-- What a request leaves: the area `v` in the node `a` behind the others. -/
structure Requested (roots : List Word) (s : Space) (task : Task) (nodes : List Word) (top : Nat)
    (bytes : Word) (r : Word × Space) (a : Word) (v : VmaStruct) : Prop where
  start : v.start.toNat = top
  stop : v.stop.toNat = top + roundUp bytes
  ret : r.1 = v.start
  self : r.2.vma a = v
  ne_zero : a ≠ 0
  new : a ∉ (s.mm task.processMm).vmaStack :: nodes
  mm : r.2.mm task.processMm = { s.mm task.processMm with vmaMapIter := a }
  list : VmaList r.2.vma (s.mm task.processMm).vmaMap a (nodes ++ [a])
  old : ∀ b ∈ (s.mm task.processMm).vmaStack :: nodes, (r.2.vma b).area = (s.vma b).area
  stack : r.2.vma (s.mm task.processMm).vmaStack = s.vma (s.mm task.processMm).vmaStack
  shows : ∃ μ, Shows roots (fun _ => 0) r.2.machine μ
      (a :: (s.mm task.processMm).vmaStack :: nodes) ∧
    ∀ x, top + roundUp bytes ≤ x → x < stackStart.toNat → μ x = none
  kept : ∀ u f, UserPath (path u) → s.machine.translate s.machine.cr3 u = some f →
    r.2.machine.translate s.machine.cr3 u = some f

theorem HeapTop.requested (h : HeapTop roots s task nodes top) {bytes : Word}
    (hfit : top + roundUp bytes ≤ stackStart.toNat)
    (hserved : (0 : Word) ∉ (s.userMalloc task bytes).2.machine.log) :
    ∃ a v, Requested roots s task nodes top bytes (s.userMalloc task bytes) a v := by
  obtain ⟨k, v, hk, hstart, hstop, hnext, hmachine, hvma, hmm, hret⟩ :=
    userMalloc_structs s task bytes h.iter
  generalize s.userMalloc task bytes = r at hserved hmachine hvma hmm hret ⊢
  obtain ⟨μ, hshows, hnone⟩ := h.shows
  have hstack := stackStart_toNat
  have hpages : roundUp bytes = (bytes.toNat + 4095) / 4096 * 4096 := rfl
  have hlow : v.start.toNat = top := by rw [hstart, h.top_eq]
  have hhigh : v.stop.toNat = top + roundUp bytes := by
    rw [hstop, endAlloc_toNat (by rw [hlow]; omega), hlow]
  rw [mapWhile_eq_mapPages _ (show _ = _ by rw [hlow, hhigh, hpages])
    (show (bytes.toNat + 4095) / 4096 ≤ _ by omega), ← hk] at hmachine
  rw [hmachine] at hserved
  obtain ⟨hnew, hne, hshows', hkept⟩ := hshows.malloc (by omega)
    (fun a hlo hhi => hnone a (by omega) (by omega)) hserved
  rw [← hmachine] at hshows'
  rw [hk] at hnew hne hshows'
  have hnodes : k.1 ∉ nodes := fun hmem => hnew (List.mem_cons_of_mem _ hmem)
  obtain ⟨hlist, -⟩ := h.list.link hne hnodes hnext
  rw [if_pos h.iter] at hlist
  have hiter := h.list.last_mem h.iter
  have hself : r.2.vma k.1 = v := by
    rw [hvma, linkVma, if_pos h.iter,
      Function.update_of_ne (ne_of_mem_of_not_mem hiter hnodes).symm, Function.update_self]
  have hother : ∀ b ∈ (s.mm task.processMm).vmaStack :: nodes,
      b ≠ (s.mm task.processMm).vmaMapIter → r.2.vma b = s.vma b := by
    intro b hb hbi
    rw [hvma, linkVma, if_pos h.iter, Function.update_of_ne hbi,
      Function.update_of_ne (ne_of_mem_of_not_mem hb hnew)]
  refine ⟨k.1, v, hlow, hhigh, by rw [hret, hself], hself, hne, hnew, hmm, hvma ▸ hlist,
    fun b hb => ?_, ?_, ⟨_, hshows', fun x hlo hhi => ?_⟩,
    fun u f hu hf => hmachine ▸ hkept u f hu hf⟩
  · by_cases hbi : b = (s.mm task.processMm).vmaMapIter
    · rw [hbi, hvma, linkVma, if_pos h.iter, Function.update_self,
        Function.update_of_ne (ne_of_mem_of_not_mem hiter hnodes)]
      rfl
    · rw [hother b hb hbi]
  · exact hother _ (List.mem_cons_self ..) (ne_of_mem_of_not_mem hiter h.apart).symm
  · have hindex : pageIndex v.start = top / 4096 := by
      rw [pageIndex, hlow]
      omega
    have haligned := h.aligned
    rw [UserMem.zeroPages_apply, hindex, if_neg (by omega)]
    exact hnone x (by omega) hhi

variable {bytes a : Word} {r : Word × Space} {v : VmaStruct}

theorem Requested.area_high (h : Requested roots s task nodes top bytes r a v) :
    v.area.low = top ∧ v.area.high = top + roundUp bytes := by
  have hstart : v.area.start.toNat = top := h.start
  have hstop : v.area.stop.toNat = top + roundUp bytes := h.stop
  rw [VmaArea.low, VmaArea.high, hstart, hstop]
  exact ⟨Nat.min_eq_left (Nat.le_add_right ..), Nat.max_eq_right (Nat.le_add_right ..)⟩

theorem Requested.places (h : Requested roots s task nodes top bytes r a v)
    (htop : HeapTop roots s task nodes top) (hfit : top + roundUp bytes ≤ stackStart.toNat) :
    s.Places task nodes bytes r := by
  obtain ⟨hlow, hhigh⟩ := h.area_high
  have hround := roundUp_ge bytes
  have hstack := stackStart_toNat
  refine ⟨?_, ?_, ⟨a, ?_, ?_, ?_, ?_, fun b hb => ?_⟩, h.kept⟩
  · rw [h.ret, h.start]
    exact htop.aligned
  · rw [h.ret, h.start]
    omega
  · rw [h.mm]
    exact h.list
  · exact areas_congr fun b hb => h.old b (List.mem_cons_of_mem _ hb)
  · rw [h.self, h.ret]
  · rw [h.self, h.ret, h.start, h.stop]
    omega
  · rw [h.self]
    rcases List.mem_cons.mp hb with rfl | hb
    · refine Or.inr ?_
      rw [htop.stack, hhigh]
      exact hfit
    · refine Or.inl ?_
      rw [hlow]
      exact htop.below b hb

theorem Requested.heapTop (h : Requested roots s task nodes top bytes r a v)
    (htop : HeapTop roots s task nodes top) :
    HeapTop roots r.2 task (nodes ++ [a]) (top + roundUp bytes) := by
  obtain ⟨μ, hshows, hnone⟩ := h.shows
  have hnew := h.new
  rw [List.mem_cons, not_or] at hnew
  have haligned : (top + roundUp bytes) % 4096 = 0 := by
    rw [roundUp, Nat.add_mul_mod_self_right]
    exact htop.aligned
  refine ⟨⟨μ, ?_, hnone⟩, ?_, ?_, ?_, haligned, fun b hb => ?_, ?_, ?_⟩
  · rw [h.mm]
    refine hshows.sub fun b hb => ?_
    rcases List.mem_cons.mp hb with rfl | hb
    · exact List.mem_cons_of_mem _ (List.mem_cons_self ..)
    · rcases List.mem_append.mp hb with hb | hb
      · exact List.mem_cons_of_mem _ (List.mem_cons_of_mem _ hb)
      · exact List.mem_singleton.mp hb ▸ List.mem_cons_self ..
  · rw [h.mm]
    exact h.list
  · rw [h.mm]
    exact h.ne_zero
  · rw [h.mm, h.self, h.stop]
  · rcases List.mem_append.mp hb with hb | hb
    · rw [h.old b (List.mem_cons_of_mem _ hb)]
      exact Nat.le_trans (htop.below b hb) (Nat.le_add_right ..)
    · rw [List.mem_singleton.mp hb, h.self, h.area_high.2]
  · rw [h.mm, h.stack]
    exact htop.stack
  · rw [h.mm, List.mem_append, List.mem_singleton, not_or]
    exact ⟨htop.apart, Ne.symm hnew.1⟩

end Request

/-! ## From `load_file` on -/

section Run

variable {roots : List Word} {s : Space} {phdrs : List Space.Elf64Phdr}

/-- A program for the heap: its segments end below HEAP_START, with no more
bytes in the file than in memory. -/
def BelowHeap (phdrs : List Space.Elf64Phdr) : Prop :=
  ∀ p ∈ phdrs.filter (·.pType = 1), p.contents.length ≤ p.pMemsz.toNat ∧
    p.pVaddr.toNat + p.pMemsz.toNat < heapStart.toNat

/-- The user half of the current address space is empty, as
`setup_user_page_tables` leaves it. -/
def EmptyUserHalf (m : Machine) : Prop := ∀ v, UserPath (path v) → m.leaf m.cr3 v = 0

theorem BelowHeap.low (h : BelowHeap phdrs) : ∀ p ∈ phdrs.filter (·.pType = 1), p.Low :=
  fun p hp => ⟨(h p hp).1, Nat.le_of_lt (h p hp).2⟩

/-- The end of the heap's first page. -/
def heapTop : Nat := heapStart.toNat + 4096

theorem BelowHeap.area_high (h : BelowHeap phdrs) {p : Space.Elf64Phdr}
    (hp : p ∈ phdrs.filter (·.pType = 1)) : p.area.high ≤ heapTop := by
  have hend := (h p hp).2
  have hstop : p.area.stop.toNat ≤ p.pVaddr.toNat + p.pMemsz.toNat := by
    rw [Space.Elf64Phdr.area, BitVec.toNat_add]
    exact Nat.mod_le ..
  have hstart : p.area.start.toNat ≤ p.pVaddr.toNat + p.pMemsz.toNat := by
    rw [Space.Elf64Phdr.area]
    exact Nat.le_add_right ..
  have hle : p.pVaddr.toNat + p.pMemsz.toNat ≤ heapTop :=
    Nat.le_trans (Nat.le_of_lt hend) (Nat.le_add_right ..)
  exact Nat.max_le.mpr ⟨hstart.trans hle, hstop.trans hle⟩

/-- A segment maps one page behind that of its end: at most the heap's. -/
theorem BelowHeap.window_none (h : BelowHeap phdrs) {a : Nat} (hlo : heapTop ≤ a)
    (hhi : a < stackStart.toNat) :
    (UserMem.loadSegments (fun _ => none) (phdrs.filter (·.pType = 1))).withHeapStack a
      = none := by
  have hheap : pageIndex heapStart = 2 ^ 15 := rfl
  have hstack : pageIndex stackStart = 0xF0000 := rfl
  have hheapNat : heapStart.toNat = 0x8000000 := rfl
  have hlo' : 0x8001000 ≤ a := hlo
  rw [stackStart_toNat] at hhi
  rw [UserMem.withHeapStack, UserMem.zeroPages_apply, if_neg (by omega), UserMem.zeroPages_apply,
    if_neg (by omega)]
  refine UserMem.loadSegments_above h.low _ fun q hq => ?_
  have hend := (h q hq).2
  rw [hheapNat] at hend
  omega

theorem heapTop_loadFile (hs : Sound roots s.machine) (hempty : EmptyUserHalf s.machine)
    (hphdrs : BelowHeap phdrs) (task : Task)
    (hserved : (0 : Word) ∉ (s.loadFile task (some phdrs)).2.machine.log) :
    ∃ nodes, HeapTop roots (s.loadFile task (some phdrs)).2 task nodes heapTop := by
  obtain ⟨lab, l, hF⟩ := hs
  obtain ⟨nodes, mm, hmm, hshows, hlist, hareas, -, hnew, hstack⟩ :=
    Loading.loadFile hF.inUse task hphdrs.low hserved
  rw [List.append_nil] at hshows
  have hbase : Shows roots (fun _ => 0) _ _ _ := hshows.rebase
    fun v hv => (leaf_eq_entryAt ..).symm.trans (hempty v hv)
  have hheap : ∀ b ∈ nodes, (((s.loadFile task (some phdrs)).2.vma b).area).high ≤ heapTop := by
    intro b hb
    have hmem : ((s.loadFile task (some phdrs)).2.vma b).area
        ∈ (phdrs.filter (·.pType = 1)).map Space.Elf64Phdr.area ++ [heapArea] := by
      rw [← hareas]
      exact List.mem_map_of_mem hb
    rcases List.mem_append.mp hmem with hseg | hheap
    · obtain ⟨p, hp, heq⟩ := List.mem_map.mp hseg
      rw [← heq]
      exact hphdrs.area_high hp
    · rw [List.mem_singleton.mp hheap]
      exact Nat.le_refl _
  rw [← hmm] at hbase hlist hnew hstack
  obtain ⟨hiter, htop⟩ := hlist.last_area hareas
  refine ⟨nodes, ⟨_, hbase, fun a hlo hhi => hphdrs.window_none hlo hhi⟩, hlist, hiter, ?_, rfl,
    hheap, hstack, hnew⟩
  exact congrArg (fun v : VmaArea => v.stop.toNat) htop


theorem userMalloc_log_suffix (s : Space) (task : Task) (bytes : Word) :
    s.machine.log <:+ (s.userMalloc task bytes).2.machine.log :=
  (show Work [] s.machine [] _ from Space.work_userMalloc task bytes).log_suffix

theorem mallocs_log_suffix (sizes : List Word) (s : Space) (task : Task) :
    s.machine.log <:+ (s.mallocs task sizes).machine.log := by
  induction sizes generalizing s with
  | nil => exact List.suffix_refl _
  | cons bytes sizes ih => exact (userMalloc_log_suffix s task bytes).trans (ih _)

theorem HeapTop.mallocs {task : Task} {nodes : List Word} {top : Nat} {sizes : List Word}
    (h : HeapTop roots s task nodes top)
    (hfit : top + (sizes.map roundUp).sum ≤ stackStart.toNat)
    (hserved : (0 : Word) ∉ (s.mallocs task sizes).machine.log) :
    ∃ nodes', HeapTop roots (s.mallocs task sizes) task nodes'
      (top + (sizes.map roundUp).sum) := by
  induction sizes generalizing s nodes top with
  | nil => exact ⟨nodes, h⟩
  | cons bytes sizes ih =>
      rw [List.map_cons, List.sum_cons, ← Nat.add_assoc] at hfit ⊢
      have hfirst := Nat.le_trans (Nat.le_add_right ..) hfit
      obtain ⟨a, v, hreq⟩ := h.requested hfirst
        fun hmem => hserved ((mallocs_log_suffix sizes _ task).subset hmem)
      exact ih (hreq.heapTop h) hfit hserved

/-- **Every request of a process is placed** behind all areas and below the
stack, on pages of its own, while the requests so far end below the stack. -/
theorem mallocs_places (hs : Sound roots s.machine) (hempty : EmptyUserHalf s.machine)
    (hphdrs : BelowHeap phdrs) (task : Task) (sizes : List Word) (bytes : Word)
    (hfit : heapTop + ((sizes ++ [bytes]).map roundUp).sum ≤ stackStart.toNat)
    (hserved : (0 : Word) ∉
      ((s.loadFile task (some phdrs)).2.mallocs task (sizes ++ [bytes])).machine.log) :
    ∃ nodes, VmaList ((s.loadFile task (some phdrs)).2.mallocs task sizes).vma
        (((s.loadFile task (some phdrs)).2.mallocs task sizes).mm task.processMm).vmaMap
        (((s.loadFile task (some phdrs)).2.mallocs task sizes).mm task.processMm).vmaMapIter
        nodes ∧
      ((s.loadFile task (some phdrs)).2.mallocs task sizes).Places task nodes bytes
        (((s.loadFile task (some phdrs)).2.mallocs task sizes).userMalloc task bytes) := by
  have hlast : (s.loadFile task (some phdrs)).2.mallocs task (sizes ++ [bytes])
      = (((s.loadFile task (some phdrs)).2.mallocs task sizes).userMalloc task bytes).2 :=
    List.foldl_append
  rw [hlast] at hserved
  have hserved₁ : (0 : Word) ∉ ((s.loadFile task (some phdrs)).2.mallocs task sizes).machine.log :=
    fun hmem => hserved ((userMalloc_log_suffix ..).subset hmem)
  obtain ⟨nodes, hstart⟩ := heapTop_loadFile hs hempty hphdrs task
    fun hmem => hserved₁ ((mallocs_log_suffix ..).subset hmem)
  rw [List.map_append, List.sum_append, ← Nat.add_assoc, List.map_singleton,
    List.sum_singleton] at hfit
  obtain ⟨nodes', htop⟩ := hstart.mallocs (Nat.le_trans (Nat.le_add_right ..) hfit) hserved₁
  obtain ⟨a, v, hreq⟩ := htop.requested hfit hserved
  exact ⟨nodes', htop.list, hreq.places htop hfit⟩

end Run

/-! ## Requests of a process that has just been loaded -/

theorem Machine.Account.mapWhile {fuel : Nat} {m : Machine} {total used : Nat} (a b : Word)
    (h : m.Account total used) (hfit : used + 4 * fuel + 9 ≤ total) :
    (m.mapWhile fuel a b).Account total (used + 4 * fuel) := by
  induction fuel generalizing m used a with
  | zero => exact h
  | succ fuel ih =>
      rw [Machine.mapWhile]
      split
      · exact (ih _ (h.mapFresh a userRwFlags (by omega)) (by omega)).mono (by omega)
      · exact h.mono (by omega)

theorem userMalloc_account {s : Space} {total used : Nat} (task : Task) (bytes : Word)
    (h : s.machine.Account total used)
    (hfit : used + 4 * (bytes.toNat / 4096 + 1) + 13 ≤ total) :
    (s.userMalloc task bytes).2.machine.Account total
      (used + 4 + 4 * (bytes.toNat / 4096 + 1)) := by
  have hvma := h.kmalloc sizeofVmaStruct (by rw [noOfPages_vmaStruct]; omega)
  rw [noOfPages_vmaStruct] at hvma
  exact hvma.mapWhile _ _ (by omega)

theorem emptyUserHalf_boot : EmptyUserHalf (bootSpace 0x2000 0x2000000).machine := by
  intro v _
  rw [leaf_eq_entryAt]
  exact bootMachine_entryAt 0x2000 0x2000000 (path v)

theorem belowHeap_twoSegments :
    BelowHeap (Image.twoSegments.headers.map Image.twoSegments.phdrAt) := by
  have hlow := Image.twoSegments_loadable.low
  intro p hp
  rw [Image.filter_phdrs] at hp
  refine ⟨(hlow p hp).contents, ?_⟩
  obtain ⟨q, hq, rfl⟩ := List.mem_map.mp hp
  obtain ⟨htext, hdata⟩ := Image.twoSegments_fields
  simp only [Prod.mk.injEq] at htext hdata
  rw [Image.twoSegments_loads] at hq
  rw [Image.phdrAt]
  rcases List.mem_cons.mp hq with rfl | hq
  · rw [htext.1, htext.2.2]
    decide
  · rw [List.mem_singleton.mp hq, hdata.1, hdata.2.2]
    decide

theorem heapTop_loadedSpace : ∃ nodes, HeapTop [0x1000] loadedSpace loadedTask nodes heapTop := by
  have hboot : Sound [0x1000] (bootSpace 0x2000 0x2000000).machine :=
    ⟨_, _, bootMachine_forest loadedSpace_region (by decide)⟩
  exact heapTop_loadFile hboot emptyUserHalf_boot belowHeap_twoSegments loadedTask
    loadedSpace_account.log

/-- 100 bytes, then 5000. -/
theorem mallocs_places_twice :
    ∃ nodes, VmaList (loadedSpace.mallocs loadedTask [100]).vma
        ((loadedSpace.mallocs loadedTask [100]).mm 0).vmaMap
        ((loadedSpace.mallocs loadedTask [100]).mm 0).vmaMapIter nodes ∧
      (loadedSpace.mallocs loadedTask [100]).Places loadedTask nodes 5000
        ((loadedSpace.mallocs loadedTask [100]).userMalloc loadedTask 5000) := by
  have hboot : Sound [0x1000] (bootSpace 0x2000 0x2000000).machine :=
    ⟨_, _, bootMachine_forest loadedSpace_region (by decide)⟩
  have hfirst := userMalloc_account loadedTask 100 loadedSpace_account (by decide)
  have hsecond := userMalloc_account loadedTask 5000 hfirst (by decide)
  exact mallocs_places hboot emptyUserHalf_boot belowHeap_twoSegments loadedTask [100] 5000
    (by decide) hsecond.log

/-- The largest request: the rounded size is 0, so an empty area is hung behind
the list and its start returned. -/
theorem malloc_wraps : ∃ nodes,
    VmaList loadedSpace.vma (loadedSpace.mm 0).vmaMap (loadedSpace.mm 0).vmaMapIter nodes ∧
      (0 : Word) ∉ (loadedSpace.userMalloc loadedTask (BitVec.allOnes 64)).2.machine.log ∧
      (loadedSpace.userMalloc loadedTask (BitVec.allOnes 64)).1 = heapStart + pageSize ∧
      ((loadedSpace.userMalloc loadedTask (BitVec.allOnes 64)).2.mm 0).vmaMapIter ∉ nodes ∧
      ¬ loadedSpace.Places loadedTask nodes (BitVec.allOnes 64)
        (loadedSpace.userMalloc loadedTask (BitVec.allOnes 64)) := by
  obtain ⟨nodes, htop⟩ := heapTop_loadedSpace
  obtain ⟨μ, hshows, -⟩ := htop.shows
  obtain ⟨k, v, hk, hstart, hstop, -, hmachine, hvma, hmm, hret⟩ :=
    userMalloc_structs loadedSpace loadedTask (BitVec.allOnes 64) htop.iter
  -- the window is empty, and the loop ends at once
  have hwrap : v.stop = v.start := by
    rw [hstop, if_neg (by decide),
      show (BitVec.allOnes 64 / pageSize + 1) * pageSize = 0 by decide]
    exact BitVec.add_zero _
  have hnone : k.2.mapWhile ((BitVec.allOnes 64).toNat / 4096 + 1) v.start v.start = k.2 := by
    rw [mapWhile, if_neg (BitVec.lt_irrefl _)]
  rw [hwrap, hnone] at hmachine
  have hvma' := loadedSpace_account.kmalloc sizeofVmaStruct (by decide)
  rw [hk] at hvma'
  have hserved := hvma'.log
  rw [← hk] at hserved
  obtain ⟨hnew, -, -⟩ := hshows.kmalloc_new noOfPages_vmaStruct hserved
  rw [hk] at hnew
  have hnodes : k.1 ∉ nodes := fun hmem => hnew (List.mem_cons_of_mem _ hmem)
  have hiter := htop.list.last_mem htop.iter
  have hself : (loadedSpace.userMalloc loadedTask (BitVec.allOnes 64)).1
      = heapStart + pageSize := by
    rw [hret, hvma, linkVma, if_pos htop.iter,
      Function.update_of_ne (ne_of_mem_of_not_mem hiter hnodes).symm,
      Function.update_self, hstart]
    exact BitVec.eq_of_toNat_eq htop.top_eq
  refine ⟨nodes, htop.list, ?_, hself, ?_, fun hplaces => ?_⟩
  · rw [hmachine]
    exact hvma'.log
  · exact hmm ▸ hnodes
  · have hwraps := hplaces.noWrap
    rw [hself] at hwraps
    exact absurd hwraps (by decide)

end SnowOs
