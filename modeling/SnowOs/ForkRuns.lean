import SnowOs.PageMap
import SnowOs.Account

/-!
# Runs of forks and stores

The system is the machine with its processes; a run is any interleaving
of `fork` and of user-mode stores by any of them. Beside it runs the
reference, in which every process has its own bytes and `fork` copies them
all at once. `reads_agree` is the refinement.

Three processes are enough to break it when the frame is shared at the
moment the handler writes in place (`third_sharer_sees_write`).
-/

namespace SnowOs

open Machine Radix

/-! ## The log only grows -/

theorem Machine.cowFault_log_suffix (m : Machine) (addr : Word) :
    m.log <:+ (m.cowFault addr).log := by
  by_cases htwo : m.ref (m.leaf m.cr3 addr &&& mask) = 2
  · exact (mapFresh_log_suffix ..).trans (cowFault_copy_log_suffix htwo)
  · by_cases hone : m.ref (m.leaf m.cr3 addr &&& mask) = 1
    · rw [cowFault_inPlace hone, updatePageTables, (mapPage_draws ..).log]
      exact List.suffix_append ..
    · rw [cowFault_none htwo hone]

theorem Space.growStack_log_suffix (pages : Nat) (st : Word) (s : Space) :
    s.machine.log <:+ (s.growStack pages st).machine.log := by
  induction pages generalizing s with
  | zero => exact List.suffix_refl _
  | succ pages ih =>
      refine .trans ?_ (ih _)
      exact mapFresh_log_suffix s.machine _ userRwFlags

/-- The handler copies or unshares a page, grows the stack, or gives up. -/
theorem Space.pageFaultHandler_cases {s s' : Space} {task : Task} {cr2 : Word}
    (h : s.pageFaultHandler task cr2 = some s') :
    isCow (s.machine.getFlags (pageBase cr2)) = true ∧
        s' = s.setMachine (s.machine.cowFault (pageBase cr2)) ∨
      ∃ pages st, s' = s.growStack pages st := by
  rw [pageFaultHandler] at h
  by_cases hcow : isCow (s.machine.getFlags (pageBase cr2)) = true
  · rw [if_pos hcow] at h
    exact Or.inl ⟨hcow, (Option.some.inj h).symm⟩
  · rw [if_neg hcow] at h
    by_cases hgrow : pageBase cr2 ≤ (s.vma (s.mm task.processMm).vmaStack).stop ∧
        (s.vma (s.mm task.processMm).vmaStack).start
          - (s.vma (s.mm task.processMm).vmaStack).stop ≤ limitStack
    · rw [if_pos hgrow] at h
      exact Or.inr ⟨_, _, (Option.some.inj h).symm⟩
    · rw [if_neg hgrow] at h
      cases h

theorem Space.pageFaultHandler_log_suffix {s s' : Space} {task : Task} {cr2 : Word}
    (h : s.pageFaultHandler task cr2 = some s') : s.machine.log <:+ s'.machine.log := by
  rcases pageFaultHandler_cases h with ⟨-, rfl⟩ | ⟨pages, st, rfl⟩
  · exact cowFault_log_suffix s.machine (pageBase cr2)
  · exact growStack_log_suffix pages st s

theorem Space.userStore_log_suffix (s : Space) (task : Task) (v : Word) (b : Byte) :
    s.machine.log <:+ (s.userStore task v b).machine.log := by
  have htry : ∀ s : Space, (s.setMachine (s.machine.tryStore task.cr3 v b)).machine.log
      = s.machine.log := fun s => tryStore_log ..
  rw [userStore]
  by_cases hw : writable ((s.setMachine (s.machine.setNewCr3 task.cr3)).machine.leaf
      task.cr3 v) = true
  · rw [if_pos hw, htry]
    exact List.suffix_refl _
  · rw [if_neg hw]
    cases hfault : (s.setMachine (s.machine.setNewCr3 task.cr3)).pageFaultHandler task v with
    | none => exact List.suffix_refl _
    | some s' =>
        have hsuf := pageFaultHandler_log_suffix hfault
        rw [htry]
        exact hsuf

/-- The `kthread_t` of the child is the first thing `fork` draws. -/
theorem Space.fork_kthread_log_suffix (fuel : Nat) (s : Space) (parentTask : Task) :
    (s.machine.kmalloc sizeofKthread).2.log <:+ (s.fork fuel parentTask).2.machine.log := by
  obtain ⟨m₁, c, m₂, m₃, k, hm₁, hcow, -, hrun, hm, -⟩ := s.fork_machine fuel parentTask
  have hpass := m₁.cowPageTables_log_suffix
  rw [hcow, hm₁] at hpass
  rw [hm, setNewCr3_log]
  exact hpass.trans hrun.log_suffix

theorem Space.fork_log_suffix (fuel : Nat) (s : Space) (parentTask : Task) :
    s.machine.log <:+ (s.fork fuel parentTask).2.machine.log :=
  (s.machine.kmalloc_log_suffix sizeofKthread).trans (s.fork_kthread_log_suffix fuel parentTask)

/-! ## The system and its reference -/

/-- The machine and the processes on it. -/
structure System where
  space : Space
  tasks : List Task

namespace System

def roots (s : System) : List Word := s.tasks.map Task.cr3

def fork (s : System) (i fuel : Nat) : System :=
  match s.tasks[i]? with
  | some task =>
      let r := (s.space.setMachine (s.space.machine.setNewCr3 task.cr3)).fork fuel task
      { space := r.2, tasks := s.tasks ++ [r.1] }
  | none => s

def store (s : System) (i : Nat) (v : Word) (b : Byte) : System :=
  match s.tasks[i]? with
  | some task => { s with space := s.space.userStore task v b }
  | none => s

/-- Process `i` has the page of `v` mapped. -/
def Mapped (s : System) (i : Nat) (v : Word) : Prop :=
  ∀ task, s.tasks[i]? = some task →
    UserAddr v ∧ present (s.space.machine.leaf task.cr3 v) = true

/-- If process `i` cannot write the page of `v` and its frame is counted
once, no other user address of any process maps that frame. -/
def StoresAlone (s : System) (i : Nat) (v : Word) : Prop :=
  ∀ task, s.tasks[i]? = some task → ¬ writable (s.space.machine.leaf task.cr3 v) = true →
    WritesAlone s.roots (s.space.machine.setNewCr3 task.cr3) (pageBase v)

end System

abbrev RefSpaces := List (Word → Option Byte)

namespace RefSpaces

def fork (refs : RefSpaces) (i : Nat) : RefSpaces :=
  match refs[i]? with
  | some space => refs ++ [space]
  | none => refs

def store (refs : RefSpaces) (i : Nat) (v : Word) (b : Byte) : RefSpaces :=
  refs.modify i fun space => Function.update space v (some b)

end RefSpaces

/-- Runs of the system beside the reference in which every store that is
made in place is made to a frame that is not shared. -/
inductive CowRun (s₀ : System) (refs₀ : RefSpaces) : System → RefSpaces → Prop
  | start : CowRun s₀ refs₀ s₀ refs₀
  | fork {s : System} {refs : RefSpaces} (i fuel : Nat) : CowRun s₀ refs₀ s refs →
      CowRun s₀ refs₀ (s.fork i fuel) (refs.fork i)
  | store {s : System} {refs : RefSpaces} (i : Nat) (v : Word) (b : Byte) :
      CowRun s₀ refs₀ s refs → s.Mapped i v → s.StoresAlone i v →
      CowRun s₀ refs₀ (s.store i v b) (refs.store i v b)

/-- Every process reads at every user address the byte of its reference. -/
structure Agrees (s : System) (refs : RefSpaces) : Prop where
  length : refs.length = s.tasks.length
  read : ∀ (i : Nat) (task : Task) (space : Word → Option Byte), s.tasks[i]? = some task →
    refs[i]? = some space →
    ∀ v, UserAddr v → s.space.machine.readByte task.cr3 v = space v

/-- The state before the first fork: one process whose pages are writable,
counted once and mapped once, over a memory system in order. -/
structure Loaded (s : System) (task : Task) : Prop where
  one : s.tasks = [task]
  forest : ∃ lab l, Forest [task.cr3] s.space.machine lab l
  flags : ∀ v, UserAddr v → present (s.space.machine.leaf task.cr3 v) = true →
    s.space.machine.leaf task.cr3 v &&& flagMask = userRwFlags ∧
      s.space.machine.ref (s.space.machine.leaf task.cr3 v &&& mask) = 1
  once : ∀ v v', UserAddr v → UserAddr v' → present (s.space.machine.leaf task.cr3 v) = true →
    present (s.space.machine.leaf task.cr3 v') = true →
    s.space.machine.leaf task.cr3 v' &&& mask = s.space.machine.leaf task.cr3 v &&& mask →
    path v' = path v

/-- What a run preserves. -/
structure Refines (s : System) (refs : RefSpaces) : Prop where
  isolated : ∃ lab l, Isolated s.roots s.space.machine lab l
  nodup : s.roots.Nodup
  agrees : Agrees s refs

theorem Loaded.refines {s : System} {task : Task} {refs : RefSpaces} (h : Loaded s task)
    (ha : Agrees s refs) : Refines s refs := by
  have hroots : s.roots = [task.cr3] := by rw [System.roots, h.one]; rfl
  obtain ⟨lab, l, hF⟩ := h.forest
  refine ⟨⟨lab, l, ?_⟩, by rw [hroots]; exact List.nodup_singleton _, ha⟩
  rw [hroots]
  refine ⟨hF, fun r hr v hv hp => ?_, fun r hr v hv hp => ?_,
    fun r hr v hv hw r' hr' v' hv' hp hf => ?_⟩
  · rw [List.mem_singleton.mp hr] at hp ⊢
    exact Or.inl (h.flags v hv hp).1
  · rw [List.mem_singleton.mp hr] at hp ⊢
    exact Or.inl (h.flags v hv hp).2
  · rw [List.mem_singleton.mp hr] at hw hf ⊢
    rw [List.mem_singleton.mp hr'] at hp hf ⊢
    exact ⟨rfl, h.once v v' hv hv' (present_of_flags hw) hp hf⟩

/-! ## Every step keeps the reference in step -/

theorem System.mem_roots {s : System} {i : Nat} {task : Task} (h : s.tasks[i]? = some task) :
    task.cr3 ∈ s.roots :=
  List.mem_map.mpr ⟨task, List.mem_of_getElem? h, rfl⟩

/-- Processes are told apart by their address spaces. -/
theorem System.index_eq {s : System} (hnodup : s.roots.Nodup) {i j : Nat} {t t' : Task}
    (hi : s.tasks[i]? = some t) (hj : s.tasks[j]? = some t') (h : t.cr3 = t'.cr3) : i = j := by
  have hlen : i < s.roots.length := by
    rw [roots, List.length_map]
    exact (List.getElem?_eq_some_iff.mp hi).1
  refine (List.getElem?_inj hlen hnodup).mp ?_
  rw [roots, List.getElem?_map, List.getElem?_map, hi, hj, Option.map_some, Option.map_some, h]

theorem System.fork_eq {s : System} {i : Nat} {task : Task} (hi : s.tasks[i]? = some task)
    (fuel : Nat) : s.fork i fuel =
      { space := ((s.space.setMachine (s.space.machine.setNewCr3 task.cr3)).fork fuel task).2
        tasks := s.tasks ++
          [((s.space.setMachine (s.space.machine.setNewCr3 task.cr3)).fork fuel task).1] } := by
  rw [fork, hi]

/-- The fork of process `i` adds one process, which shares its frames. -/
theorem System.fork_forked {s : System} {i fuel : Nat} {task : Task} {lab : Word → Option Node}
    {l : List Nat} (h : Isolated s.roots s.space.machine lab l) (hi : s.tasks[i]? = some task)
    (hlog : (0 : Word) ∉ (s.fork i fuel).space.machine.log) :
    ∃ c lab' l', (s.fork i fuel).tasks = s.tasks ++ [c] ∧
      Forked s.roots s.space.machine task.cr3 c.cr3 (s.fork i fuel).space.machine lab' l' := by
  rw [fork_eq hi] at hlog ⊢
  have h₀ := h.setNewCr3 (mem_roots hi)
  obtain ⟨lab', l', hF⟩ := Isolated.fork
    (s := s.space.setMachine (s.space.machine.setNewCr3 task.cr3)) h₀ rfl fuel hlog
  generalize (s.space.setMachine (s.space.machine.setNewCr3 task.cr3)).fork fuel task = r
    at hF ⊢
  exact ⟨r.1, lab', l', rfl, hF.isolated, hF.new, hF.same, hF.child, hF.leafParent,
    hF.leafChild, hF.leafOther, hF.shared⟩

theorem System.roots_concat {s s' : System} {c : Task} (h : s'.tasks = s.tasks ++ [c]) :
    s'.roots = s.roots ++ [c.cr3] := by
  rw [roots, roots, h, List.map_append]
  rfl

theorem Machine.Forked.isolated_concat {roots : List Word} {m m' : Machine} {parent c : Word}
    {lab : Word → Option Node} {l : List Nat} (h : Forked roots m parent c m' lab l) :
    Isolated (roots ++ [c]) m' lab l :=
  h.isolated.perm (by simp [or_comm])

theorem Refines.fork {s : System} {refs : RefSpaces} (h : Refines s refs) (i fuel : Nat)
    (hlog : (0 : Word) ∉ (s.fork i fuel).space.machine.log) :
    Refines (s.fork i fuel) (refs.fork i) := by
  cases hi : s.tasks[i]? with
  | none =>
      have hrefs : refs[i]? = none := by
        rw [List.getElem?_eq_none_iff] at hi ⊢
        rw [h.agrees.length]
        exact hi
      have hs : s.fork i fuel = s := by rw [System.fork, hi]
      have hr : refs.fork i = refs := by rw [RefSpaces.fork, hrefs]
      rw [hs, hr]
      exact h
  | some task =>
      obtain ⟨space, hrefs⟩ : ∃ space, refs[i]? = some space := by
        have hlt := (List.getElem?_eq_some_iff.mp hi).1
        rw [← h.agrees.length] at hlt
        exact ⟨_, List.getElem?_eq_getElem hlt⟩
      have hr : refs.fork i = refs ++ [space] := by rw [RefSpaces.fork, hrefs]
      obtain ⟨lab, l, hI⟩ := h.isolated
      obtain ⟨c, lab', l', htasks, hF⟩ := System.fork_forked hI hi hlog
      have hroots := System.roots_concat htasks
      rw [hr]
      refine ⟨⟨lab', l', ?_⟩, ?_, ?_, ?_⟩
      · rw [hroots]
        exact hF.isolated_concat
      · rw [hroots]
        refine List.nodup_append.mpr ⟨h.nodup, List.nodup_singleton _, fun a ha b hb hab => ?_⟩
        rw [hab, List.mem_singleton.mp hb] at ha
        exact hF.new ha
      · rw [htasks, List.length_append, List.length_append, h.agrees.length]
        rfl
      · intro j t sp hj hsp v hv
        rw [htasks, List.getElem?_append] at hj
        rw [List.getElem?_append, h.agrees.length] at hsp
        by_cases hlt : j < s.tasks.length
        · rw [if_pos hlt] at hj hsp
          rw [hF.same _ (System.mem_roots hj) v hv]
          exact h.agrees.read j t sp hj hsp v hv
        · rw [if_neg hlt] at hj hsp
          have ht := List.mem_of_getElem? hj
          have hsp' := List.mem_of_getElem? hsp
          rw [List.mem_singleton.mp ht, List.mem_singleton.mp hsp', hF.child v hv]
          exact h.agrees.read i task space hi hrefs v hv

theorem Refines.store {s : System} {refs : RefSpaces} (h : Refines s refs) {i : Nat} {v : Word}
    (b : Byte) (hmapped : s.Mapped i v) (halone : s.StoresAlone i v)
    (hlog : (0 : Word) ∉ (s.store i v b).space.machine.log) :
    Refines (s.store i v b) (refs.store i v b) := by
  cases hi : s.tasks[i]? with
  | none =>
      have hs : s.store i v b = s := by rw [System.store, hi]
      have hr : refs.store i v b = refs := by
        refine List.modify_eq_self ?_
        rw [h.agrees.length]
        exact List.getElem?_eq_none_iff.mp hi
      rw [hs, hr]
      exact h
  | some task =>
      obtain ⟨hv, hp⟩ := hmapped task hi
      have hs : s.store i v b = { s with space := s.space.userStore task v b } := by
        rw [System.store, hi]
      rw [hs] at hlog ⊢
      obtain ⟨lab, l, hI⟩ := h.isolated
      obtain ⟨lab', l', hI', hread⟩ := Space.userStore_isolated hI (System.mem_roots hi) hv hp
        (halone task hi) hlog
      refine ⟨⟨lab', l', hI'⟩, h.nodup, ?_, ?_⟩
      · rw [RefSpaces.store, List.length_modify]
        exact h.agrees.length
      · intro j t sp hj hsp u hu
        have hu' := hread t.cr3 (System.mem_roots hj) u hu
        refine hu'.trans ?_
        rw [RefSpaces.store, List.getElem?_modify] at hsp
        obtain ⟨sp₀, hsp₀, rfl⟩ := Option.map_eq_some_iff.mp hsp
        have hold := h.agrees.read j t sp₀ hj hsp₀ u hu
        by_cases hij : i = j
        · subst hij
          obtain rfl : t = task := Option.some.inj (hj.symm.trans hi)
          rw [if_pos rfl]
          by_cases huv : u = v
          · rw [if_pos ⟨rfl, huv⟩, huv, Function.update_self]
          · rw [if_neg fun hc => huv hc.2, Function.update_of_ne huv]
            exact hold
        · rw [if_neg hij, if_neg]
          · exact hold
          · exact fun hc => hij (System.index_eq h.nodup hj hi hc.1).symm

/-! ## Runs -/

theorem System.fork_log_suffix (s : System) (i fuel : Nat) :
    s.space.machine.log <:+ (s.fork i fuel).space.machine.log := by
  cases hi : s.tasks[i]? with
  | none =>
      have hs : s.fork i fuel = s := by rw [fork, hi]
      rw [hs]
  | some task =>
      have hs : (s.fork i fuel).space
          = ((s.space.setMachine (s.space.machine.setNewCr3 task.cr3)).fork fuel task).2 := by
        rw [fork, hi]
      have hsuf := (s.space.setMachine (s.space.machine.setNewCr3 task.cr3)).fork_log_suffix
        fuel task
      rw [hs]
      exact hsuf

theorem System.store_log_suffix (s : System) (i : Nat) (v : Word) (b : Byte) :
    s.space.machine.log <:+ (s.store i v b).space.machine.log := by
  cases hi : s.tasks[i]? with
  | none =>
      have hs : s.store i v b = s := by rw [store, hi]
      rw [hs]
  | some task =>
      have hs : (s.store i v b).space = s.space.userStore task v b := by rw [store, hi]
      rw [hs]
      exact s.space.userStore_log_suffix task v b

theorem CowRun.refines {s₀ s : System} {refs₀ refs : RefSpaces} (hrun : CowRun s₀ refs₀ s refs)
    (h₀ : Refines s₀ refs₀) (hlog : (0 : Word) ∉ s.space.machine.log) : Refines s refs := by
  induction hrun with
  | start => exact h₀
  | @fork s refs i fuel _ ih =>
      have hbefore := fun hmem => hlog ((s.fork_log_suffix i fuel).subset hmem)
      exact (ih hbefore).fork i fuel hlog
  | @store s refs i v b _ hmapped halone ih =>
      have hbefore := fun hmem => hlog ((s.store_log_suffix i v b).subset hmem)
      exact (ih hbefore).store b hmapped halone hlog

/-- **Copy-on-write isolation.** From one process, in any run of forks and
stores in which no frame that is still shared is written in place, every
process reads at every user address the byte it would have if each fork
had copied the address space. -/
theorem CowRun.reads_agree {s₀ s : System} {refs₀ refs : RefSpaces} {task : Task}
    (hrun : CowRun s₀ refs₀ s refs) (hload : Loaded s₀ task) (hstart : Agrees s₀ refs₀)
    (hlog : (0 : Word) ∉ s.space.machine.log) : Agrees s refs :=
  (hrun.refines (hload.refines hstart) hlog).agrees

/-! ## Where isolation is lost -/

section Sharers

variable {roots : List Word} {m : Machine} {lab : Word → Option Node} {l : List Nat}
  {r v : Word}

/-- The frame is counted twice: the writer gets a copy, and whoever else
maps the frame finds it counted once. -/
theorem Machine.Isolated.copied (h : Isolated roots m lab l) (hv : UserAddr v)
    (hflags : m.leaf m.cr3 v &&& flagMask = cowFlags)
    (htwo : m.ref (m.leaf m.cr3 v &&& mask) = 2) (b : Byte)
    (hlog : (0 : Word) ∉ (m.cowFault (pageBase v)).log) :
    ∃ lab' l', Forest roots ((m.cowFault (pageBase v)).tryStore m.cr3 v b) lab' l' ∧
      (∀ r ∈ roots, r ≠ m.cr3 → ∀ u, UserAddr u →
        ((m.cowFault (pageBase v)).tryStore m.cr3 v b).leaf r u = m.leaf r u) ∧
      ((m.cowFault (pageBase v)).tryStore m.cr3 v b).ref (m.leaf m.cr3 v &&& mask) = 1 := by
  have hbase := leaf_congr_path (path_pageBase v) m m.cr3
  have halone : WritesAlone roots m (pageBase v) := by
    intro hone
    rw [hbase, htwo] at hone
    cases hone
  obtain ⟨f, lab', l', hR⟩ := h.cowFault (aligned_pageBase v) hv.pageBase
    (by rw [hbase]; exact present_of_cowFlags hflags) halone hlog
  generalize m.cowFault (pageBase v) = m₁ at hR ⊢
  have hself : m₁.leaf m₁.cr3 v = f ||| userRwFlags := by
    rw [hR.cr3, ← leaf_congr_path (path_pageBase v) m₁ m.cr3]
    exact hR.self
  have hw : m₁.leaf m₁.cr3 v &&& flagMask = userRwFlags := by
    rw [hself]
    exact flags_or hR.aligned userRwFlags_flagWord.small
  have hheld := hR.forest.held_leaf hR.forest.current hv (present_of_flags hw)
  rw [← hbase, ← hR.cr3, tryStore_eq hw]
  refine ⟨lab', l', ?_, fun r hr hne u hu => ?_, ?_⟩
  · exact hR.forest.setHeld hheld (fun u hu => write_of_frame_ne _ hu _ _) rfl rfl rfl
  · rw [hR.forest.setByte_leaf hheld _ b hr u]
    exact hR.other r hr u hu fun hc => hne (hR.cr3 ▸ hc.1)
  · rw [hR.cr3]
    exact hR.refOld

/-- The frame is counted once: the store goes to everyone who maps it. -/
theorem Machine.Forest.inPlace_seen (h : Forest roots m lab l) (hv : UserAddr v)
    (hflags : m.leaf m.cr3 v &&& flagMask = cowFlags)
    (hone : m.ref (m.leaf m.cr3 v &&& mask) = 1) (hr : r ∈ roots) (hne : r ≠ m.cr3)
    (hp : present (m.leaf r v) = true)
    (hshare : m.leaf r v &&& mask = m.leaf m.cr3 v &&& mask) (b : Byte)
    (hlog : (0 : Word) ∉ (m.cowFault (pageBase v)).log) :
    ((m.cowFault (pageBase v)).tryStore m.cr3 v b).readByte r v = some b := by
  have hbase := leaf_congr_path (path_pageBase v) m m.cr3
  have hheld := h.held_leaf h.current hv (present_of_cowFlags hflags)
  rw [cowFault_inPlace (by rw [hbase]; exact hone), hbase] at hlog ⊢
  obtain ⟨lab', l', hM⟩ := h.updatePageTables (hheld.mappable (pageBase v))
    userRwFlags_flagWord hlog
  generalize m.updatePageTables (pageBase v) (m.leaf m.cr3 v &&& mask) userRwFlags = m₁ at hM ⊢
  have hself : m₁.leaf m₁.cr3 v = (m.leaf m.cr3 v &&& mask) ||| userRwFlags := by
    rw [hM.cr3, leaf_eq_entryAt, ← path_pageBase v]
    exact hM.self
  have hw : m₁.leaf m₁.cr3 v &&& flagMask = userRwFlags := by
    rw [hself]
    exact flags_or hheld.aligned userRwFlags_flagWord.small
  have hframe : m₁.leaf m₁.cr3 v &&& mask = m.leaf m.cr3 v &&& mask := by
    rw [hself]
    exact frame_or hheld.aligned userRwFlags_flagWord.small
  have hother : m₁.leaf r v = m.leaf r v := leaf_eq_of_entryAt
    (hM.other r hr _ (length_path v) (Or.inl hv.userPath) fun hc => hne hc.1)
  have hheld₁ := hM.forest.held_leaf hM.forest.current hv (present_of_flags hw)
  rw [← hM.cr3, tryStore_eq hw, readByte_eq, translate,
    hM.forest.setByte_leaf hheld₁ _ b hr v, hother, if_pos hp, Option.map_some, hshare, hframe,
    byteAt_setByte _ _ _ (pageOffset_lt v) (pageOffset_lt v), if_pos ⟨rfl, rfl⟩]

end Sharers

/-- Three processes that map the page of `v` to one frame, which is marked
in all of them and counted twice. -/
structure Sharers (s : System) (a b c : Task) (v : Word) : Prop where
  tasks : s.tasks = [a, b, c]
  isolated : ∃ lab l, Isolated s.roots s.space.machine lab l
  nodup : s.roots.Nodup
  flags : ∀ t ∈ s.tasks, s.space.machine.leaf t.cr3 v &&& flagMask = cowFlags
  frame : ∀ t ∈ s.tasks,
    s.space.machine.leaf t.cr3 v &&& mask = s.space.machine.leaf a.cr3 v &&& mask
  ref : s.space.machine.ref (s.space.machine.leaf a.cr3 v &&& mask) = 2

theorem System.store_space {s : System} {i : Nat} {task : Task} (hi : s.tasks[i]? = some task)
    (v : Word) (b : Byte) : (s.store i v b).space = s.space.userStore task v b := by
  rw [store, hi]

theorem System.store_tasks (s : System) (i : Nat) (v : Word) (b : Byte) :
    (s.store i v b).tasks = s.tasks := by
  rw [store]
  split <;> rfl

theorem Refines.sharers {s : System} {refs : RefSpaces} (h : Refines s refs) {a : Task}
    (hone : s.tasks = [a]) {v : Word} (hv : UserAddr v)
    (hflags : s.space.machine.leaf a.cr3 v &&& flagMask = userRwFlags) (fuel : Nat)
    (hlog : (0 : Word) ∉ ((s.fork 0 fuel).fork 0 fuel).space.machine.log) :
    ∃ b c, Sharers ((s.fork 0 fuel).fork 0 fuel) a b c v := by
  have hlog₁ := fun hmem => hlog (((s.fork 0 fuel).fork_log_suffix 0 fuel).subset hmem)
  have hi : s.tasks[0]? = some a := by rw [hone]; rfl
  have h₁ := h.fork 0 fuel hlog₁
  have h₂ := h₁.fork 0 fuel hlog
  obtain ⟨lab, l, hI⟩ := h.isolated
  obtain ⟨b, lab₁, l₁, htasks₁, hF₁⟩ := System.fork_forked hI hi hlog₁
  rw [hone] at htasks₁
  have hi₁ : (s.fork 0 fuel).tasks[0]? = some a := by rw [htasks₁]; rfl
  have hb₁ : (s.fork 0 fuel).tasks[1]? = some b := by rw [htasks₁]; rfl
  obtain ⟨lab', l', hI₁⟩ := h₁.isolated
  obtain ⟨c, lab₂, l₂, htasks₂, hF₂⟩ := System.fork_forked hI₁ hi₁ hlog
  rw [htasks₁] at htasks₂
  have hba : b.cr3 ≠ a.cr3 := by
    intro heq
    cases System.index_eq h₁.nodup hb₁ hi₁ heq
  generalize (s.fork 0 fuel).fork 0 fuel = s₂ at h₂ htasks₂ hF₂ ⊢
  generalize s.fork 0 fuel = s₁ at htasks₁ hF₁ hF₂ hb₁ hba
  have hp := present_of_flags hflags
  have hleafA : s₁.space.machine.leaf a.cr3 v = cowEntry (s.space.machine.leaf a.cr3 v) :=
    hF₁.leafParent v hv
  have hleafB : s₁.space.machine.leaf b.cr3 v = cowEntry (s.space.machine.leaf a.cr3 v) :=
    hF₁.leafChild v hv
  have hleafB₂ := hF₂.leafOther b.cr3 (System.mem_roots hb₁) hba v hv
  have hmark := cowEntry_flags hp (Or.inl hflags)
  have hpA : present (s₁.space.machine.leaf a.cr3 v) = true := by
    rw [hleafA, present_cowEntry]
    exact hp
  have hmark₂ := cowEntry_flags hpA (Or.inr (hleafA ▸ hmark))
  have htasks : s₂.tasks = [a, b, c] := htasks₂
  have hall : ∀ {P : Task → Prop}, P a → P b → P c → ∀ t ∈ s₂.tasks, P t := by
    intro P pa pb pc
    rw [htasks]
    exact List.forall_mem_cons.mpr
      ⟨pa, List.forall_mem_cons.mpr ⟨pb, List.forall_mem_singleton.mpr pc⟩⟩
  refine ⟨b, c, ⟨htasks, h₂.isolated, h₂.nodup, hall ?_ ?_ ?_, hall rfl ?_ ?_, ?_⟩⟩
  · rw [hF₂.leafParent v hv]
    exact hmark₂
  · rw [hleafB₂, hleafB]
    exact hmark
  · rw [hF₂.leafChild v hv]
    exact hmark₂
  · rw [hleafB₂, hleafB, hF₂.leafParent v hv, hleafA, cowEntry_frame, cowEntry_frame,
      cowEntry_frame]
  · rw [hF₂.leafChild v hv, hF₂.leafParent v hv]
  · rw [hF₂.leafParent v hv, cowEntry_frame]
    exact hF₂.shared v hv hpA

theorem Sharers.mapped {s : System} {a b c : Task} {v : Word} (h : Sharers s a b c v)
    (hv : UserAddr v) (i : Nat) : s.Mapped i v :=
  fun t ht => ⟨hv, present_of_cowFlags (h.flags t (List.mem_of_getElem? ht))⟩

/-- The first sharer's store is private: it copies, and leaves the frame
counted once. -/
theorem Sharers.first_store {s : System} {a b c : Task} {v : Word} (h : Sharers s a b c v)
    (hv : UserAddr v) (x : Byte) (hlog : (0 : Word) ∉ (s.store 0 v x).space.machine.log) :
    ∃ lab l, Forest s.roots (s.store 0 v x).space.machine lab l ∧
      (∀ r ∈ s.roots, r ≠ a.cr3 → ∀ u, UserAddr u →
        (s.store 0 v x).space.machine.leaf r u = s.space.machine.leaf r u) ∧
      (s.store 0 v x).space.machine.ref (s.space.machine.leaf a.cr3 v &&& mask) = 1 := by
  have ha : s.tasks[0]? = some a := by rw [h.tasks]; rfl
  have hfa := h.flags a (List.mem_of_getElem? ha)
  rw [System.store_space ha, Space.userStore_cow hfa] at hlog ⊢
  rw [tryStore_log] at hlog
  obtain ⟨lab, l, hI⟩ := h.isolated
  exact (hI.setNewCr3 (System.mem_roots ha)).copied hv hfa h.ref x hlog

theorem Sharers.ne {s : System} {a b c : Task} {v : Word} (h : Sharers s a b c v) :
    b.cr3 ≠ a.cr3 ∧ c.cr3 ≠ a.cr3 ∧ c.cr3 ≠ b.cr3 := by
  have ha : s.tasks[0]? = some a := by rw [h.tasks]; rfl
  have hb : s.tasks[1]? = some b := by rw [h.tasks]; rfl
  have hc : s.tasks[2]? = some c := by rw [h.tasks]; rfl
  refine ⟨fun heq => ?_, fun heq => ?_, fun heq => ?_⟩
  · cases System.index_eq h.nodup hb ha heq
  · cases System.index_eq h.nodup hc ha heq
  · cases System.index_eq h.nodup hc hb heq

theorem Sharers.second_flags {s : System} {a b c : Task} {v : Word} (h : Sharers s a b c v)
    (hv : UserAddr v) (x : Byte) (hlog : (0 : Word) ∉ (s.store 0 v x).space.machine.log) :
    (s.store 0 v x).space.machine.leaf b.cr3 v &&& flagMask = cowFlags := by
  have hb : s.tasks[1]? = some b := by rw [h.tasks]; rfl
  obtain ⟨lab, l, -, hleaf, -⟩ := h.first_store hv x hlog
  rw [hleaf _ (System.mem_roots hb) h.ne.1 v hv]
  exact h.flags b (List.mem_of_getElem? hb)

/-- The second sharer's store is seen by the third. -/
theorem Sharers.write_seen {s : System} {a b c : Task} {v : Word} (h : Sharers s a b c v)
    (hv : UserAddr v) (x y : Byte)
    (hlog : (0 : Word) ∉ ((s.store 0 v x).store 1 v y).space.machine.log) :
    ((s.store 0 v x).store 1 v y).space.machine.readByte c.cr3 v = some y := by
  have hlog₁ := fun hmem => hlog (((s.store 0 v x).store_log_suffix 1 v y).subset hmem)
  have hb : s.tasks[1]? = some b := by rw [h.tasks]; rfl
  have hc : s.tasks[2]? = some c := by rw [h.tasks]; rfl
  obtain ⟨hba, hca, hcb⟩ := h.ne
  have hfb := h.second_flags hv x hlog₁
  obtain ⟨lab, l, hF, hleaf, hone⟩ := h.first_store hv x hlog₁
  have hb' : (s.store 0 v x).tasks[1]? = some b := by rw [System.store_tasks]; exact hb
  rw [System.store_space hb'] at hlog ⊢
  generalize (s.store 0 v x).space = sp at hF hleaf hone hlog hfb ⊢
  have hleafB : sp.machine.leaf b.cr3 v = s.space.machine.leaf b.cr3 v :=
    hleaf _ (System.mem_roots hb) hba v hv
  have hleafC : sp.machine.leaf c.cr3 v = s.space.machine.leaf c.cr3 v :=
    hleaf _ (System.mem_roots hc) hca v hv
  rw [Space.userStore_cow hfb, tryStore_log] at hlog
  rw [Space.userStore_cow hfb]
  refine (hF.setNewCr3 (System.mem_roots hb)).inPlace_seen hv hfb ?_ (System.mem_roots hc) hcb
    ?_ ?_ y hlog
  · rw [leaf_setNewCr3, ref_setNewCr3, setNewCr3_cr3, hleafB, h.frame b (List.mem_of_getElem? hb)]
    exact hone
  · rw [leaf_setNewCr3, hleafC]
    exact present_of_cowFlags (h.flags c (List.mem_of_getElem? hc))
  · rw [leaf_setNewCr3, leaf_setNewCr3, setNewCr3_cr3, hleafB, hleafC,
      h.frame b (List.mem_of_getElem? hb), h.frame c (List.mem_of_getElem? hc)]

/-! ### Enough memory for it -/

section Memory

variable {s : System} {i : Nat} {task : Task} {total used : Nat}

theorem System.fork_account {refs : RefSpaces} (h : Refines s refs) (hi : s.tasks[i]? = some task)
    (hacc : s.space.machine.Account total used) (fuel : Nat)
    (hfit : 2 * used + 8 * fuel + 90 ≤ total) :
    (s.fork i fuel).space.machine.Account total (2 * used + 8 * fuel + 81) := by
  obtain ⟨lab, l, hI⟩ := h.isolated
  have hF := hI.forest.setNewCr3 (mem_roots hi)
  have hcur : (s.space.machine.setNewCr3 task.cr3).Account total used := hacc.congr rfl rfl
  rw [fork_eq hi]
  exact Space.fork_account
    (s := s.space.setMachine (s.space.machine.setNewCr3 task.cr3)) hF hcur fuel task hfit

theorem System.store_account (hi : s.tasks[i]? = some task) {v : Word}
    (hflags : s.space.machine.leaf task.cr3 v &&& flagMask = cowFlags)
    (hacc : s.space.machine.Account total used) (b : Byte) (hfit : used + 16 ≤ total) :
    (s.store i v b).space.machine.Account total (used + 7) := by
  rw [store_space hi]
  exact Space.userStore_account hflags hacc b hfit

end Memory

/-! ### One process with one page -/

/-- The first process, with one writable page at `0x400000`. -/
def oneProcess : System where
  space := { machine := (bootMachine 0x2000 0x200000).mapFresh 0x400000 userRwFlags }
  tasks := [{ cr3 := 0x1000, processMm := 0 }]

def System.bytes (s : System) : RefSpaces :=
  s.tasks.map fun task => s.space.machine.readByte task.cr3

theorem System.agrees_bytes (s : System) : Agrees s s.bytes where
  length := List.length_map ..
  read := fun i task space hi hspace v _ => by
    rw [bytes, List.getElem?_map, hi] at hspace
    rw [← Option.some.inj hspace]

theorem oneProcess_region : PhysMem.BootRegion 0x2000 0 0x200000 :=
  ⟨by decide, by decide, by decide, by decide⟩

theorem oneProcess_account : oneProcess.space.machine.Account 511 5 :=
  (bootMachine_account oneProcess_region (by decide)).mapFresh _ _ (by decide)

theorem oneProcess_leaf : ∃ lab l,
    MapsFresh [0x1000] (bootMachine 0x2000 0x200000) bootLabel (bootPages 0x2000 0x200000)
      0x400000 userRwFlags oneProcess.space.machine lab l :=
  (bootMachine_forest oneProcess_region (by decide)).mapFresh userRwFlags_flagWord
    oneProcess_account.log

theorem oneProcess_loaded : Loaded oneProcess { cr3 := 0x1000, processMm := 0 } := by
  obtain ⟨lab, l, hM⟩ := oneProcess_leaf
  generalize hmachine : oneProcess.space.machine = m at hM
  have hself : ∀ {v : Word}, path v = path 0x400000 →
      m.leaf 0x1000 v = (bootMachine 0x2000 0x200000).getFreePage.1 ||| userRwFlags := by
    intro v hv
    rw [leaf_eq_entryAt, hv]
    exact hM.self
  have honly : ∀ {v : Word}, UserAddr v → present (m.leaf 0x1000 v) = true →
      path v = path 0x400000 := by
    intro v hv hp
    by_contra hne
    have hother := hM.other 0x1000 (List.mem_singleton_self _) (path v) (length_path v)
      (Or.inl hv.userPath) fun hc => hne hc.2
    rw [leaf_eq_entryAt, hother, bootMachine_entryAt] at hp
    cases hp
  refine ⟨rfl, ⟨lab, l, ?_⟩, fun v hv hp => ?_, fun v v' hv hv' hp hp' _ => ?_⟩
  · rw [hmachine]
    exact hM.forest
  · rw [hmachine] at hp ⊢
    rw [hself (honly hv hp), flags_or hM.fresh.aligned userRwFlags_flagWord.small,
      frame_or hM.fresh.aligned userRwFlags_flagWord.small]
    exact ⟨rfl, hM.ref⟩
  · rw [hmachine] at hp hp'
    rw [honly hv hp, honly hv' hp']

theorem oneProcess_refines : Refines oneProcess oneProcess.bytes :=
  oneProcess_loaded.refines oneProcess.agrees_bytes

theorem oneProcess_flags :
    oneProcess.space.machine.leaf 0x1000 0x400000 &&& flagMask = userRwFlags := by
  obtain ⟨lab, l, hM⟩ := oneProcess_leaf
  have hself : oneProcess.space.machine.leaf 0x1000 0x400000
      = (bootMachine 0x2000 0x200000).getFreePage.1 ||| userRwFlags := by
    rw [leaf_eq_entryAt]
    exact hM.self
  rw [hself]
  exact flags_or hM.fresh.aligned userRwFlags_flagWord.small

theorem oneProcess_fork_account : (oneProcess.fork 0 1).space.machine.Account 511 99 :=
  System.fork_account oneProcess_refines rfl oneProcess_account 1 (by decide)

theorem userAddr_page : UserAddr 0x400000 := by decide

theorem oneProcess_forked : ∃ c lab l,
    (oneProcess.fork 0 1).tasks[0]? = some { cr3 := 0x1000, processMm := 0 } ∧
      Forked oneProcess.roots oneProcess.space.machine 0x1000 c
        (oneProcess.fork 0 1).space.machine lab l := by
  obtain ⟨lab, l, hI⟩ := oneProcess_refines.isolated
  obtain ⟨c, lab', l', htasks, hF⟩ :=
    System.fork_forked hI (rfl : oneProcess.tasks[0]? = some _) oneProcess_fork_account.log
  exact ⟨c.cr3, lab', l', by rw [htasks]; rfl, hF⟩

theorem CowRun.reads_agree_copy :
    Agrees ((oneProcess.fork 0 1).store 0 0x400000 1)
      ((oneProcess.bytes.fork 0).store 0 0x400000 1) := by
  obtain ⟨c, lab, l, hi, hF⟩ := oneProcess_forked
  have hp := present_of_flags oneProcess_flags
  have hflags : (oneProcess.fork 0 1).space.machine.leaf 0x1000 0x400000 &&& flagMask
      = cowFlags := by
    rw [hF.leafParent _ userAddr_page]
    exact cowEntry_flags hp (Or.inl oneProcess_flags)
  have hmapped : (oneProcess.fork 0 1).Mapped 0 0x400000 := by
    intro t ht
    obtain rfl := Option.some.inj (hi.symm.trans ht)
    exact ⟨userAddr_page, present_of_cowFlags hflags⟩
  have halone : (oneProcess.fork 0 1).StoresAlone 0 0x400000 := by
    intro t ht _ hone
    obtain rfl := Option.some.inj (hi.symm.trans ht)
    have htwo := hF.shared _ userAddr_page hp
    have hframe : (oneProcess.fork 0 1).space.machine.leaf 0x1000 0x400000 &&& mask
        = oneProcess.space.machine.leaf 0x1000 0x400000 &&& mask := by
      rw [hF.leafParent _ userAddr_page, cowEntry_frame]
    rw [ref_setNewCr3, leaf_setNewCr3, leaf_congr_path (path_pageBase 0x400000), setNewCr3_cr3,
      hframe, htwo] at hone
    cases hone
  have hacc := System.store_account hi hflags oneProcess_fork_account 1 (by decide)
  exact CowRun.reads_agree (.store 0 0x400000 1 (.fork 0 1 .start) hmapped halone)
    oneProcess_loaded oneProcess.agrees_bytes hacc.log

/-- A process forks twice, then it and its first child each store a byte to
the page they all share; the second child, which stored nothing, reads the
byte of the first. -/
theorem third_sharer_sees_write :
    Loaded oneProcess { cr3 := 0x1000, processMm := 0 } ∧ Agrees oneProcess oneProcess.bytes ∧
      ((oneProcess.fork 0 1).fork 0 1).Mapped 0 0x400000 ∧
      (((oneProcess.fork 0 1).fork 0 1).store 0 0x400000 1).Mapped 1 0x400000 ∧
      (0 : Word) ∉ ((((oneProcess.fork 0 1).fork 0 1).store 0 0x400000 1).store 1 0x400000
        2).space.machine.log ∧
      ¬ Agrees ((((oneProcess.fork 0 1).fork 0 1).store 0 0x400000 1).store 1 0x400000 2)
        ((((oneProcess.bytes.fork 0).fork 0).store 0 0x400000 1).store 1 0x400000 2) := by
  have h₁ := oneProcess_refines.fork 0 1 oneProcess_fork_account.log
  obtain ⟨c, lab, l, hi, -⟩ := oneProcess_forked
  have hacc₂ := System.fork_account h₁ hi oneProcess_fork_account 1 (by decide)
  obtain ⟨b, c, hS⟩ := oneProcess_refines.sharers rfl userAddr_page oneProcess_flags 1 hacc₂.log
  have ha : ((oneProcess.fork 0 1).fork 0 1).tasks[0]?
      = some { cr3 := 0x1000, processMm := 0 } := by rw [hS.tasks]; rfl
  have hacc₃ := System.store_account ha (hS.flags _ (List.mem_of_getElem? ha)) hacc₂ 1 (by decide)
  have hfb := hS.second_flags userAddr_page 1 hacc₃.log
  have hb : (((oneProcess.fork 0 1).fork 0 1).store 0 0x400000 1).tasks[1]? = some b := by
    rw [System.store_tasks, hS.tasks]
    rfl
  have hacc₄ := System.store_account hb hfb hacc₃ 2 (by decide)
  have hc : ((((oneProcess.fork 0 1).fork 0 1).store 0 0x400000 1).store 1 0x400000 2).tasks[2]?
      = some c := by
    rw [System.store_tasks, System.store_tasks, hS.tasks]
    rfl
  refine ⟨oneProcess_loaded, oneProcess.agrees_bytes, hS.mapped userAddr_page 0, fun t ht => ?_,
    hacc₄.log, fun hagrees => ?_⟩
  · obtain rfl := Option.some.inj (hb.symm.trans ht)
    exact ⟨userAddr_page, present_of_cowFlags hfb⟩
  · have hread := hagrees.read 2 c (oneProcess.space.machine.readByte 0x1000) hc rfl 0x400000
      userAddr_page
    rw [hS.write_seen userAddr_page 1 2 hacc₄.log] at hread
    have hzero : oneProcess.space.machine.readByte 0x1000 0x400000 = some 0 := by decide +kernel
    rw [hzero] at hread
    cases hread

end SnowOs
