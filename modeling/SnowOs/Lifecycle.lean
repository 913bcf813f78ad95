import SnowOs.ProcessRing

/-!
# Pids, parents and the end of a process

Three properties of whole runs, each an invariant of the queue that every
move keeps (`RunQueue.Stable`) and that is read back in the ring.

- **Pids** (`Kernel.Reach.pids`): as long as `fork` is only called while a
  slot of `processes` is free, the pids in the ring are distinct, are the
  slots in use, and nothing outside the array is written. `getPID` answers
  -1 when the table is full, and nobody looks: the next `fork` puts a
  process with pid -1 into the ring (`Kernel.fork_full_table`).
- **Parents** (`Kernel.Reach.parents`): as long as no zombie forks, a forked
  process names pid 1 or the process that forked it, still in the ring. A
  process that killed itself through `kill_kern` goes on running, and what
  it forks then names a parent that is soon gone (`Kernel.orphan_named`).
- **Ends** (`Kernel.Reach.exit_final`): a process that went through
  `exit_current_process` never runs again and stays in the ring, a zombie,
  until it is reaped; one that `kill_kern` ended does run again
  (`Kernel.killed_runs_on`).
-/

namespace SnowOs

open Linked Function

/-! ## Free slots -/

def HasSlot (processes : Int → Int) : Prop :=
  ∃ i : Nat, 1 ≤ i ∧ i < maxP ∧ processes i = 0

theorem Kernel.freeSlot_eq_some {p : Int → Int} {i : Nat} :
    freeSlot p = some i ↔ 1 ≤ i ∧ i < maxP ∧ p i = 0 ∧ ∀ j : Nat, 1 ≤ j → j < i → p j ≠ 0 := by
  simp only [freeSlot, List.find?_range'_eq_some, List.mem_range'_1, maxP]
  constructor
  · rintro ⟨hz, hi, hmin⟩
    exact ⟨hi.1, by omega, by simpa using hz, fun j h1 hj => by simpa using hmin j h1 hj⟩
  · rintro ⟨h1, hi, hz, hmin⟩
    exact ⟨by simpa using hz, ⟨h1, by omega⟩, fun j h1 hj => by simpa using hmin j h1 hj⟩

theorem Kernel.freeSlot_eq_none {p : Int → Int} : freeSlot p = none ↔ ¬ HasSlot p := by
  simp only [freeSlot, List.find?_eq_none, List.mem_range'_1, HasSlot, maxP]
  constructor
  · rintro h ⟨i, h1, hi, hz⟩
    exact h i ⟨h1, by omega⟩ (by simpa using hz)
  · intro h i hi hz
    exact h ⟨i, hi.1, by omega, by simpa using hz⟩

namespace RunQueue

open Kernel (Syscall Caller freeSlot)

/-! ## Pids -/

def pids (s : RunQueue) : List Int := s.procs.map Proc.pid

/-- The table of pids is that of the queue. -/
structure PidTable (s : RunQueue) : Prop where
  distinct : s.pids.Nodup
  range : ∀ i ∈ s.pids, 1 ≤ i ∧ i < maxP
  slots : ∀ i : Int, 0 ≤ i → i < maxP → (s.slots i ≠ 0 ↔ i ∈ s.pids)
  written : ∀ i ∈ s.written, 0 ≤ i ∧ i < maxP

namespace PidTable

variable {s s' : RunQueue} {block : Word}

theorem of_perm (h : s.PidTable) (hp : s'.pids.Perm s.pids) (hslots : s'.slots = s.slots)
    (hw : s'.written = s.written) : s'.PidTable := by
  refine ⟨hp.nodup_iff.mpr h.distinct, fun i hi => h.range i (hp.mem_iff.mp hi), fun i h0 hi => ?_,
    hw ▸ h.written⟩
  rw [hslots, hp.mem_iff]
  exact h.slots i h0 hi

theorem fork (h : s.PidTable) (hslot : HasSlot s.slots) : (s.fork block).2.PidTable := by
  obtain ⟨i, hi⟩ : ∃ i, freeSlot s.slots = some i :=
    Option.ne_none_iff_exists'.mp fun hnone => Kernel.freeSlot_eq_none.mp hnone hslot
  obtain ⟨h1, hlt, hz, -⟩ := Kernel.freeSlot_eq_some.mp hi
  have hnot : (i : Int) ∉ s.pids := fun hmem =>
    (h.slots i (by omega) (by omega)).mpr hmem hz
  have htake : s.takePid = (↑i, s.setSlot i 1) := by simp [takePid, hi]
  have hpids : (s.fork block).2.pids.Perm (↑i :: s.pids) := by
    simp only [pids, procs, fork_head, fork_rest, htake, List.map_cons]
    exact List.Perm.swap ..
  have hslots : (s.fork block).2.slots = update s.slots i 1 := by
    simp [RunQueue.fork, htake, setSlot]
  have hwritten : (s.fork block).2.written = ↑i :: s.written := by
    simp [RunQueue.fork, htake, setSlot]
  refine ⟨hpids.nodup_iff.mpr (List.nodup_cons.mpr ⟨hnot, h.distinct⟩), fun j hj => ?_,
    fun j h0 hj => ?_, fun j hj => ?_⟩
  · rcases List.mem_cons.mp (hpids.mem_iff.mp hj) with rfl | hj
    · omega
    · exact h.range j hj
  · rw [hslots, hpids.mem_iff, List.mem_cons]
    by_cases hji : j = i
    · simp [hji]
    · simp [hji, h.slots j h0 hj]
  · rw [hwritten] at hj
    rcases List.mem_cons.mp hj with rfl | hj
    · omega
    · exact h.written j hj

theorem reap (h : s.PidTable) {x : Proc} (hx : x ∈ s.rest) : (s.reap x).PidTable := by
  have hpids : s.pids.Perm (x.pid :: (s.reap x).pids) := by
    have : s.procs.Perm (x :: (s.reap x).procs) :=
      ((List.perm_cons_erase hx).cons s.head).trans (List.Perm.swap ..)
    exact this.map Proc.pid
  have hxr := h.range x.pid (hpids.mem_iff.mpr (List.mem_cons_self ..))
  have hnd := List.nodup_cons.mp (hpids.nodup_iff.mp h.distinct)
  refine ⟨hnd.2, fun i hi => h.range i (hpids.mem_iff.mpr (List.mem_cons_of_mem _ hi)),
    fun i h0 hi => ?_, fun i hi => ?_⟩
  · change update s.slots x.pid 0 i ≠ 0 ↔ _
    by_cases hix : i = x.pid
    · simp [hix, hnd.1]
    · rw [update_of_ne hix, h.slots i h0 hi, hpids.mem_iff, List.mem_cons]
      simp [hix]
  · rcases List.mem_cons.mp hi with rfl | hi
    · omega
    · exact h.written i hi

end PidTable

theorem stable_pidTable (idle : Word) :
    Stable idle (fun c call => call = .fork → HasSlot c.processes) PidTable where
  say _ hs := hs.of_perm (.refl _) rfl rfl
  setWaits _ hs := hs.of_perm (.refl _) rfl rfl
  fork _ _ hmay hs := hs.fork (hmay rfl)
  execVpe _ _ hs := hs.of_perm (.refl _) rfl rfl
  kill := by
    intro s _ hrest hs
    have hpids : s.killProcess.pids = s.pids := by
      simp [killProcess, hrest, pids, procs, Function.comp_def]
    refine hs.of_perm (.of_eq hpids) ?_ ?_ <;> simp [killProcess, hrest]
  reap hx _ hs := hs.reap hx
  switch := by
    intro s _ hs
    unfold RunQueue.switch
    split
    · exact hs
    next c l hrest =>
      refine hs.of_perm ?_ rfl rfl
      simp only [pids, procs, hrest, List.map_cons, List.map_append, Proc.suspend_pid]
      exact (List.perm_append_singleton s.head.pid (c.pid :: l.map Proc.pid))

theorem Booted.pidTable {idle init : Word} {s : RunQueue} (h : s.Booted idle init) :
    s.PidTable := by
  obtain ⟨ppid, hrest⟩ := h.rest
  have hpids : s.pids = [1, 2] := by simp [pids, procs, h.head, hrest]
  refine ⟨by simp [hpids], ?_, fun i h0 hi => ?_, h.written⟩
  · simp [hpids, maxP]
  · simp [hpids, h.slots i h0 hi]

end RunQueue

namespace Kernel

variable {idle : Word} {k : Kernel}

/-- The pids of a system that forks only while a slot is free. -/
theorem Reach.pids (h : Reach idle (fun c call => call = .fork → HasSlot c.processes) k) :
    (∀ a b, k.InRing a → k.InRing b → k.pid a = k.pid b → a = b) ∧
    (∀ a, k.InRing a → 1 ≤ k.pid a ∧ k.pid a < maxP) ∧
    (∀ i : Int, 0 ≤ i → i < maxP → (k.processes i ≠ 0 ↔ ∃ a, k.InRing a ∧ k.pid a = i)) ∧
    ∀ i ∈ k.written, 0 ≤ i ∧ i < maxP := by
  obtain ⟨s, hreach, hs⟩ := h.refines
  have hpids : s.PidTable := (RunQueue.stable_pidTable idle).reach RunQueue.Booted.pidTable hreach
  have hmem : ∀ i : Int, i ∈ s.pids ↔ ∃ a, k.InRing a ∧ k.pid a = i := by
    intro i
    constructor
    · intro hi
      obtain ⟨x, hx, rfl⟩ := List.mem_map.mp hi
      exact ⟨x.addr, hs.inRing_iff.mpr ⟨x, hx, rfl⟩, (hs.holds hx).pid⟩
    · rintro ⟨a, ha, rfl⟩
      obtain ⟨x, hx, rfl⟩ := hs.inRing_iff.mp ha
      rw [(hs.holds hx).pid]
      exact List.mem_map_of_mem hx
  refine ⟨fun a b ha hb hab => ?_, fun a ha => hpids.range _ ((hmem _).mpr ⟨a, ha, rfl⟩),
    fun i h0 hi => ?_, ?_⟩
  · obtain ⟨x, hx, rfl⟩ := hs.inRing_iff.mp ha
    obtain ⟨y, hy, rfl⟩ := hs.inRing_iff.mp hb
    rw [(hs.holds hx).pid, (hs.holds hy).pid] at hab
    exact congrArg Proc.addr (List.inj_on_of_nodup_map hpids.distinct hx hy hab)
  · rw [hs.slots, hpids.slots i h0 hi, hmem]
  · rw [hs.written]
    exact hpids.written

theorem Reach.pids_fork :
    ∃ k, Reach 1 (fun c call => call = .fork → HasSlot c.processes) k ∧ k.InRing 2 ∧
      k.InRing 3 ∧ k.pid 2 ≠ k.pid 3 ∧ (1 ≤ k.pid 3 ∧ k.pid 3 < maxP) ∧
      k.processes (k.pid 3) ≠ 0 := by
  obtain ⟨k, hk, hcur, hin, -⟩ := Reach.exists_forked
    (fun c call => call = .fork → HasSlot c.processes)
    fun _ _ hfree _ => ⟨3, by decide, by decide, hfree⟩
  have hinit : k.InRing 2 := ⟨0, hcur⟩
  obtain ⟨hdistinct, hrange, hslots, -⟩ := Reach.pids hk
  have hpid := hrange 3 hin
  refine ⟨k, hk, hinit, hin, fun heq => ?_, hpid, ?_⟩
  · exact absurd (hdistinct 2 3 hinit hin heq) (by decide)
  · exact (hslots _ (by omega) hpid.2).mpr ⟨3, hin, rfl⟩

end Kernel

theorem RunQueue.fork_run {s : RunQueue} (hhead : s.head.addr = 2) (huser : s.head.waits = none)
    (haddr : ∀ x ∈ s.procs, x.addr.toNat < 3)
    (hslots : ∀ i : Int, 0 ≤ i → i < maxP → (s.slots i ≠ 0 ↔ i = 1 ∨ i = 2)) :
    ∀ n : Nat, n ≤ 997 → ∃ s' : RunQueue,
      Relation.ReflTransGen (RunQueue.Turn 1 fun _ _ => True) s s' ∧ s'.head = s.head ∧
      (∀ x ∈ s'.procs, x.addr.toNat < n + 3) ∧
      ∀ i : Int, 0 ≤ i → i < maxP → (s'.slots i ≠ 0 ↔ 1 ≤ i ∧ i < n + 3)
  | 0, _ => by
      refine ⟨s, .refl, rfl, haddr, fun i h0 hi => ?_⟩
      rw [hslots i h0 hi]
      omega
  | n + 1, hn => by
      obtain ⟨s', hrun, hhead', haddr', hslots'⟩ :=
        fork_run hhead huser haddr hslots n (by omega)
      have hblock : (BitVec.ofNat 64 (n + 3)).toNat = n + 3 := by
        rw [BitVec.toNat_ofNat]
        omega
      have hfree : Kernel.freeSlot s'.slots = some (n + 3) := by
        refine Kernel.freeSlot_eq_some.mpr ⟨by omega, by simp only [maxP]; omega, ?_, ?_⟩
        · have := hslots' (n + 3 : Nat) (by omega) (by simp only [maxP]; omega)
          by_contra hne
          have := (this.mp hne).2
          omega
        · intro j h1 hj
          exact (hslots' j (by omega) (by simp only [maxP]; omega)).mpr (by omega)
      have htake : s'.takePid = (↑(n + 3), s'.setSlot ↑(n + 3) 1) := by simp [takePid, hfree]
      refine ⟨(s'.syscall (BitVec.ofNat 64 (n + 3)) .fork).2, hrun.tail ?_, ?_, ?_, ?_⟩
      · refine .call ?_ (hhead' ▸ huser) ?_ trivial
        · rw [hhead', hhead]
          decide
        · intro x hx hxb
          have := haddr' x hx
          rw [hxb, hblock] at this
          omega
      · exact (s'.fork_head _).trans hhead'
      · intro x hx
        change x ∈ (s'.fork _).2.head :: (s'.fork _).2.rest at hx
        simp only [fork_head, fork_rest, List.mem_cons] at hx
        rcases hx with rfl | rfl | hx
        · have := haddr' _ (List.mem_cons_self ..)
          omega
        · simp only [hblock]
          omega
        · have := haddr' x (List.mem_cons_of_mem _ hx)
          omega
      · intro i h0 hi
        have : (s'.syscall (BitVec.ofNat 64 (n + 3)) .fork).2.slots =
            update s'.slots ((n + 3 : Nat) : Int) 1 := by
          simp [syscall, fork, htake, setSlot]
        rw [this]
        by_cases hin : i = ((n + 3 : Nat) : Int)
        · subst hin
          simp
          omega
        · rw [update_of_ne hin, hslots' i h0 hi]
          omega

/-- After 997 forks every slot is taken, and the next one puts a process
with pid -1 into the ring. -/
theorem Kernel.fork_full_table :
    ∃ k k' block, Reach 1 (fun _ _ => True) k ∧ ¬ HasSlot k.processes ∧
      Step 1 (fun _ _ => True) k k' ∧ k.fork block = (-1, k') ∧
      ¬ k.InRing block ∧ k'.InRing block ∧ k'.pid block = -1 := by
  obtain ⟨p, slots, w, hslots, hlift⟩ := Reach.of_init_runs (fun _ _ => True)
  obtain ⟨s', hrun, hhead, haddr, hfull⟩ := RunQueue.fork_run
    (s := ⟨⟨2, 2, p, .running, none, ⟨1, none⟩⟩, [⟨1, 1, 0, .queued, none, ⟨0, none⟩⟩], slots, w,
      [], 2⟩) rfl rfl (by simp [RunQueue.procs]) hslots 997 (by omega)
  obtain ⟨k, hk, hs⟩ := hlift hrun
  have hno : ¬ HasSlot s'.slots := by
    rintro ⟨i, h1, hi, hz⟩
    exact (hfull i (by omega) (by omega)).mpr (by simp only [maxP] at hi; omega) hz
  have hcur : k.current = 2 := by rw [hs.current, hhead]
  have hcont := hs.head.cont
  rw [← hs.current, hhead] at hcont
  have hb : ¬ k.InRing 2000 := by
    rw [hs.inRing_iff]
    rintro ⟨x, hx, hxb⟩
    have := haddr x hx
    rw [hxb] at this
    exact absurd this (by decide)
  have htake : s'.takePid = (-1, s') := by
    simp [RunQueue.takePid, Kernel.freeSlot_eq_none.mpr hno]
  obtain ⟨hpid, hs'⟩ := hs.fork hb
  have hret : (k.fork 2000).1 = -1 := by
    rw [hpid]
    simp [RunQueue.fork, htake]
  have hmem : ⟨2000, -1, s'.head.pid, .queued, none, ⟨s'.births, some s'.head.birth.number⟩⟩ ∈
      (s'.fork 2000).2.procs := by
    simp [RunQueue.procs, htake]
  refine ⟨k, (k.fork 2000).2, 2000, hk, hs.slots ▸ hno, ?_, Prod.ext hret rfl, hb,
    hs'.inRing_iff.mpr ⟨_, hmem, rfl⟩, (hs'.holds hmem).pid⟩
  exact @Step.call _ _ k _ 0 2000 .fork _ (by rw [hcur]; decide) hcont hb trivial rfl

/-! ## Parents -/

namespace RunQueue

open Kernel (Syscall Caller freeSlot)

/-- `x` names pid 1, or a process that is not a zombie and forked it. -/
def NamesParent (s : RunQueue) (x : Proc) : Prop :=
  ∀ n, x.birth.maker = some n → x.ppid = 1 ∨
    ∃ y ∈ s.procs, y.birth.number = n ∧ y.pid = x.ppid ∧ y.state ≠ .zombie

/-- Processes are numbered in the order of creation. -/
structure Numbered (s : RunQueue) : Prop where
  lt : ∀ x ∈ s.procs, x.birth.number < s.births
  older : ∀ x ∈ s.procs, ∀ n, x.birth.maker = some n → n < x.birth.number
  distinct : (s.procs.map (·.birth.number)).Nodup

structure Lineage (idle : Word) (s : RunQueue) : Prop where
  numbered : s.Numbered
  parent : ∀ x ∈ s.procs, s.NamesParent x
  /-- pid 1 stays with idle -/
  one : s.slots 1 ≠ 0
  first : ∀ x ∈ s.procs, x.pid = 1 →
    x.addr = idle ∧ x.state ≠ .zombie ∧ x.birth.maker = none

namespace Numbered

variable {block : Word} {s s' : RunQueue}

theorem of_perm (h : s.Numbered)
    (hp : (s'.procs.map Proc.birth).Perm (s.procs.map Proc.birth))
    (hbirths : s'.births = s.births) : s'.Numbered := by
  have hback : ∀ x' ∈ s'.procs, ∃ x ∈ s.procs, x.birth = x'.birth := fun x' hx' =>
    List.mem_map.mp (hp.mem_iff.mp (List.mem_map_of_mem hx'))
  refine ⟨fun x' hx' => ?_, fun x' hx' => ?_, ?_⟩
  · obtain ⟨x, hx, hbirth⟩ := hback x' hx'
    rw [← hbirth, hbirths]
    exact h.lt x hx
  · obtain ⟨x, hx, hbirth⟩ := hback x' hx'
    rw [← hbirth]
    exact h.older x hx
  · have := hp.map Birth.number
    rw [List.map_map, List.map_map] at this
    exact this.nodup_iff.mpr h.distinct

theorem fork (h : s.Numbered) : (s.fork block).2.Numbered := by
  obtain ⟨q, slots, written, hfork⟩ := s.exists_fork block
  rw [hfork]
  have hhead := h.lt _ (List.mem_cons_self ..)
  have hsplit : ∀ {P : Proc → Prop}, (∀ x ∈ s.procs, P x) → P ⟨block, q, s.head.pid, .queued,
      none, ⟨s.births, some s.head.birth.number⟩⟩ → ∀ x ∈ s.head :: ⟨block, q, s.head.pid,
        .queued, none, ⟨s.births, some s.head.birth.number⟩⟩ :: s.rest, P x := by
    intro P hold hnew
    simp only [procs, List.forall_mem_cons] at hold ⊢
    exact ⟨hold.1, hnew, hold.2⟩
  refine ⟨hsplit (fun x hx => Nat.lt_succ_of_lt (h.lt x hx)) (Nat.lt_succ_self _),
    hsplit h.older fun n hn => ?_, ?_⟩
  · cases hn
    exact hhead
  · have hnew : s.births ∉ s.procs.map (·.birth.number) := by
      intro hmem
      obtain ⟨x, hx, hxn⟩ := List.mem_map.mp hmem
      exact absurd hxn (h.lt x hx).ne
    exact (List.Perm.swap ..).nodup_iff.mp (List.nodup_cons.mpr ⟨hnew, h.distinct⟩)

theorem reap (h : s.Numbered) (x : Proc) : (s.reap x).Numbered := by
  have hsub : ∀ y ∈ (s.reap x).procs, y ∈ s.procs := fun y hy =>
    (List.erase_sublist.cons_cons s.head).subset hy
  exact ⟨fun y hy => h.lt y (hsub y hy), fun y hy => h.older y (hsub y hy),
    h.distinct.sublist ((List.erase_sublist.cons_cons s.head).map _)⟩

end Numbered

theorem killProcess_births {s : RunQueue} (hrest : s.rest ≠ []) :
    s.killProcess.procs.map Proc.birth = s.procs.map Proc.birth ∧
      s.killProcess.births = s.births := by
  simp [killProcess, hrest, procs, Function.comp_def]

theorem switch_births (s : RunQueue) :
    (s.switch.procs.map Proc.birth).Perm (s.procs.map Proc.birth) ∧
      s.switch.births = s.births := by
  unfold RunQueue.switch
  split
  · exact ⟨.refl _, rfl⟩
  next c l hrest =>
    refine ⟨?_, rfl⟩
    simp only [procs, hrest, List.map_cons, List.map_append, Proc.suspend_birth]
    exact List.perm_append_singleton s.head.birth (c.birth :: l.map Proc.birth)

theorem stable_numbered (idle : Word) (may : Caller → Syscall → Prop) :
    Stable idle may Numbered where
  say _ hs := hs.of_perm (.refl _) rfl
  setWaits _ hs := hs.of_perm (.refl _) rfl
  fork _ _ _ hs := hs.fork
  execVpe _ _ hs := hs.of_perm (.refl _) rfl
  kill _ hrest hs :=
    hs.of_perm (.of_eq (killProcess_births hrest).1) (killProcess_births hrest).2
  reap _ _ hs := hs.reap _
  switch := fun {s} _ hs => hs.of_perm s.switch_births.1 s.switch_births.2

theorem Booted.numbered {idle init : Word} {s : RunQueue} (h : s.Booted idle init) :
    s.Numbered := by
  obtain ⟨ppid, hrest⟩ := h.rest
  refine ⟨?_, ?_, ?_⟩ <;> simp [procs, h.head, hrest, h.births]

/-- The same process, alive if it was. -/
structure Same (x x' : Proc) : Prop where
  pid : x'.pid = x.pid
  ppid : x'.ppid = x.ppid
  birth : x'.birth = x.birth
  alive : x.state ≠ .zombie → x'.state ≠ .zombie
  addr : x.pid = 1 → x'.addr = x.addr

theorem Same.refl (x : Proc) : Same x x := ⟨rfl, rfl, rfl, id, fun _ => rfl⟩

namespace Lineage

variable {idle block : Word} {s s' : RunQueue}

/-- Links are kept as long as live processes stay and a process keeps its
`ppid` or goes to pid 1. -/
theorem parent_of (h : s.Lineage idle)
    (hback : ∀ x' ∈ s'.procs, ∃ x ∈ s.procs, x'.birth = x.birth ∧
      (x'.ppid = x.ppid ∨ x'.ppid = 1))
    (hforth : ∀ y ∈ s.procs, y.state ≠ .zombie →
      ∃ y' ∈ s'.procs, y'.birth = y.birth ∧ y'.pid = y.pid ∧ y'.state ≠ .zombie) :
    ∀ x' ∈ s'.procs, s'.NamesParent x' := by
  intro x' hx' n hn
  obtain ⟨x, hx, hbirth, hppid⟩ := hback x' hx'
  rcases hppid with hppid | hppid
  · rcases h.parent x hx n (hbirth ▸ hn) with hone | ⟨y, hy, hyn, hyp, hyz⟩
    · exact Or.inl (hppid.trans hone)
    · obtain ⟨y', hy', hyb, hypid, hyz'⟩ := hforth y hy hyz
      exact Or.inr ⟨y', hy', hyb ▸ hyn, by rw [hypid, hyp, hppid], hyz'⟩
  · exact Or.inl hppid

/-- Moves that reorder the processes and change how one of them runs. -/
theorem of_replace (h : s.Lineage idle) {x x' : Proc} {l : List Proc} (hsame : Same x x')
    (hp : s.procs.Perm (x :: l)) (hp' : s'.procs.Perm (x' :: l)) (hbirths : s'.births = s.births)
    (hslots : s'.slots = s.slots) : s'.Lineage idle := by
  have hback : ∀ y' ∈ s'.procs, ∃ y ∈ s.procs, Same y y' := by
    intro y' hy'
    rcases List.mem_cons.mp (hp'.mem_iff.mp hy') with rfl | hy'
    · exact ⟨x, hp.mem_iff.mpr (List.mem_cons_self ..), hsame⟩
    · exact ⟨y', hp.mem_iff.mpr (List.mem_cons_of_mem _ hy'), .refl y'⟩
  have hforth : ∀ y ∈ s.procs, ∃ y' ∈ s'.procs, Same y y' := by
    intro y hy
    rcases List.mem_cons.mp (hp.mem_iff.mp hy) with rfl | hy
    · exact ⟨x', hp'.mem_iff.mpr (List.mem_cons_self ..), hsame⟩
    · exact ⟨y, hp'.mem_iff.mpr (List.mem_cons_of_mem _ hy), .refl y⟩
  have hbirth : (s'.procs.map Proc.birth).Perm (s.procs.map Proc.birth) := by
    refine (hp'.map _).trans (.trans ?_ (hp.map _).symm)
    simp [hsame.birth]
  constructor
  case numbered => exact h.numbered.of_perm hbirth hbirths
  case parent =>
    refine h.parent_of (fun y' hy' => ?_) fun y hy hyz => ?_
    · obtain ⟨y, hy, hyy⟩ := hback y' hy'
      exact ⟨y, hy, hyy.birth, Or.inl hyy.ppid⟩
    · obtain ⟨y', hy', hyy⟩ := hforth y hy
      exact ⟨y', hy', hyy.birth, hyy.pid, hyy.alive hyz⟩
  case one => exact hslots ▸ h.one
  case first =>
    intro y' hy' hone
    obtain ⟨y, hy, hyy⟩ := hback y' hy'
    have hone : y.pid = 1 := hyy.pid ▸ hone
    obtain ⟨haddr, hz, hmaker⟩ := h.first y hy hone
    exact ⟨(hyy.addr hone).trans haddr, hyy.alive hz, hyy.birth ▸ hmaker⟩

theorem head_pid (h : s.Lineage idle) (hidle : s.head.addr ≠ idle) : s.head.pid ≠ 1 :=
  fun hone => hidle (h.first _ (List.mem_cons_self ..) hone).1

theorem fork (h : s.Lineage idle) (hz : s.head.state ≠ .zombie) :
    (s.fork block).2.Lineage idle := by
  have hone : s.takePid.1 ≠ 1 ∧ s.takePid.2.slots 1 ≠ 0 := by
    unfold takePid
    split
    next i hi =>
      obtain ⟨-, -, hzero, -⟩ := Kernel.freeSlot_eq_some.mp hi
      have hi1 : (i : Int) ≠ 1 := fun h' => h.one (h' ▸ hzero)
      exact ⟨hi1, by simpa [setSlot, update_of_ne hi1.symm] using h.one⟩
    next => exact ⟨by simp, h.one⟩
  have hmem : ∀ x ∈ (s.fork block).2.procs, x ∈ s.procs ∨
      x = ⟨block, s.takePid.1, s.head.pid, .queued, none,
        ⟨s.births, some s.head.birth.number⟩⟩ := by
    intro x hx
    simp only [procs, fork_head, fork_rest, List.mem_cons] at hx ⊢
    tauto
  have hold : ∀ x ∈ s.procs, x ∈ (s.fork block).2.procs := by
    intro x hx
    simp only [procs, fork_head, fork_rest, List.mem_cons] at hx ⊢
    tauto
  constructor
  case numbered => exact h.numbered.fork
  case parent =>
    intro x hx n hn
    rcases hmem x hx with hx | rfl
    · refine (h.parent x hx n hn).imp_right ?_
      rintro ⟨y, hy, hyn⟩
      exact ⟨y, hold y hy, hyn⟩
    · cases hn
      exact Or.inr ⟨s.head, hold _ (List.mem_cons_self ..), rfl, rfl, hz⟩
  case one => exact hone.2
  case first =>
    intro x hx hpid
    rcases hmem x hx with hx | rfl
    · exact h.first x hx hpid
    · exact absurd hpid hone.1

theorem killProcess (h : s.Lineage idle) (hidle : s.head.addr ≠ idle) (hrest : s.rest ≠ []) :
    s.killProcess.Lineage idle := by
  rw [RunQueue.killProcess, if_neg hrest]
  have hhead := h.head_pid hidle
  constructor
  case numbered =>
    have hnum := (stable_numbered idle fun _ _ => True).kill hidle hrest h.numbered
    rwa [RunQueue.killProcess, if_neg hrest] at hnum
  case parent =>
    have hkeep : ∀ y ∈ s.procs, y ≠ s.head → y.state ≠ .zombie →
        ∃ y' ∈ s.rest.map (Proc.adopt s.head), y'.birth = y.birth ∧ y'.pid = y.pid ∧
          y'.state ≠ .zombie := by
      intro y hy hne hyz
      have hy := (List.mem_cons.mp hy).resolve_left hne
      exact ⟨_, List.mem_map_of_mem hy, by simp, by simp, by simpa using hyz⟩
    simp only [procs, List.forall_mem_cons, List.forall_mem_map]
    refine ⟨fun n hn => ?_, fun x hx n hn => ?_⟩
    · rcases h.parent _ (List.mem_cons_self ..) n hn with hone | ⟨y, hy, hyn, hyp, hyz⟩
      · exact Or.inl hone
      · have hne : y ≠ s.head := fun h' =>
          absurd (h.numbered.older _ (List.mem_cons_self ..) n hn) (by rw [← hyn, h']; omega)
        obtain ⟨y', hy', hb, hpid, hz⟩ := hkeep y hy hne hyz
        exact Or.inr ⟨y', List.mem_cons_of_mem _ hy', hb ▸ hyn, hpid.trans hyp, hz⟩
    · by_cases hc : x.ppid = s.head.pid
      · exact Or.inl (by simp [Proc.adopt, hc])
      · have hppid : (Proc.adopt s.head x).ppid = x.ppid := by simp [Proc.adopt, hc]
        rw [Proc.adopt_birth] at hn
        rw [hppid]
        rcases h.parent x (List.mem_cons_of_mem _ hx) n hn with hone | ⟨y, hy, hyn, hyp, hyz⟩
        · exact Or.inl hone
        · have hne : y ≠ s.head := fun h' => hc (h' ▸ hyp).symm
          obtain ⟨y', hy', hb, hpid, hz⟩ := hkeep y hy hne hyz
          exact Or.inr ⟨y', List.mem_cons_of_mem _ hy', hb ▸ hyn, hpid.trans hyp, hz⟩
  case one => exact h.one
  case first =>
    simp only [procs, List.forall_mem_cons, List.forall_mem_map, Proc.adopt_pid, Proc.adopt_addr,
      Proc.adopt_state, Proc.adopt_birth]
    exact ⟨fun hone => absurd hone hhead, fun x hx => h.first x (List.mem_cons_of_mem _ hx)⟩

theorem reap (h : s.Lineage idle) {x : Proc} (hx : x ∈ s.rest) (hz : x.state = .zombie) :
    (s.reap x).Lineage idle := by
  have hsub : ∀ y ∈ (s.reap x).procs, y ∈ s.procs := by
    intro y hy
    rcases List.mem_cons.mp hy with rfl | hy
    · exact List.mem_cons_self ..
    · exact List.mem_cons_of_mem _ (List.mem_of_mem_erase hy)
  have hlive : ∀ y ∈ s.procs, y.state ≠ .zombie → y ∈ (s.reap x).procs := by
    intro y hy hyz
    rcases List.mem_cons.mp hy with rfl | hy
    · exact List.mem_cons_self ..
    · have hyx : y ≠ x := fun h' => hyz (h' ▸ hz)
      exact List.mem_cons_of_mem _ ((List.mem_erase_of_ne hyx).mpr hy)
  have hxpid : (1 : Int) ≠ x.pid := fun h' =>
    (h.first x (List.mem_cons_of_mem _ hx) h'.symm).2.1 hz
  refine ⟨h.numbered.reap x, h.parent_of (fun y hy => ⟨y, hsub y hy, rfl, Or.inl rfl⟩)
    fun y hy hyz => ⟨y, hlive y hy hyz, rfl, rfl, hyz⟩, ?_, fun y hy => h.first y (hsub y hy)⟩
  exact (update_of_ne hxpid ..).trans_ne h.one

theorem switch (h : s.Lineage idle) : s.switch.Lineage idle := by
  unfold RunQueue.switch
  split
  · exact h
  next c l hrest =>
    have hsusp : Same s.head s.head.suspend := by
      refine ⟨by simp, by simp, by simp, fun hz => ?_, by simp⟩
      unfold Proc.suspend
      split
      · simp
      · exact hz
    have hrun : Same c { c with state := .running } := ⟨rfl, rfl, rfl, by simp, fun _ => rfl⟩
    have h₁ : ({ s with head := s.head.suspend } : RunQueue).Lineage idle :=
      h.of_replace hsusp (.refl _) (.refl _) rfl rfl
    refine h₁.of_replace hrun (l := s.head.suspend :: l) ?_ ?_ rfl rfl
    · simp only [procs, hrest]
      exact List.Perm.swap ..
    · exact (List.perm_append_singleton ..).cons _

end Lineage

theorem stable_lineage (idle : Word) :
    Stable idle (fun c call => call = .fork → c.state ≠ .zombie) (Lineage idle) where
  say _ hs := hs.of_replace (.refl _) (.refl _) (.refl _) rfl rfl
  setWaits := by
    intro s w hs
    have hsame : Same s.head { s.head with waits := w } := ⟨rfl, rfl, rfl, id, fun _ => rfl⟩
    exact hs.of_replace hsame (.refl _) (.refl _) rfl rfl
  fork _ _ hmay hs := hs.fork (hmay rfl)
  execVpe := by
    intro s block hidle _ hs
    have hsame : Same s.head { s.head with addr := block, state := .running, waits := none } :=
      ⟨rfl, rfl, rfl, by simp, fun hone => absurd hone (hs.head_pid hidle)⟩
    exact hs.of_replace hsame (.refl _) (.refl _) rfl rfl
  kill hidle hrest hs := hs.killProcess hidle hrest
  reap hx hz hs := hs.reap hx hz
  switch _ hs := hs.switch

theorem Booted.lineage {idle init : Word} {s : RunQueue} (h : s.Booted idle init) :
    s.Lineage idle := by
  obtain ⟨ppid, hrest⟩ := h.rest
  have hprocs : s.procs = [⟨idle, 1, 0, .running, none, ⟨0, none⟩⟩,
      ⟨init, 2, ppid, .queued, none, ⟨1, none⟩⟩] := by simp [procs, h.head, hrest]
  refine ⟨h.numbered, ?_, (h.slots 1 (by decide) (by decide)).mpr (Or.inl rfl), ?_⟩
  · simp [hprocs, NamesParent]
  · simp [hprocs]

end RunQueue

namespace Kernel

variable {idle : Word} {k : Kernel}

/-- The parent links of a system in which no zombie forks. Processes are
told apart by their numbers; one that was forked names pid 1 or the process
that forked it, in the ring. If that process is gone, nobody that was
forked has the pid it names. -/
theorem Reach.parents (h : Reach idle (fun c call => call = .fork → c.state ≠ .zombie) k) :
    (∀ a b, k.InRing a → k.InRing b → (k.birth a).number = (k.birth b).number → a = b) ∧
    (∀ a n, k.InRing a → (k.birth a).maker = some n → k.ppid a = 1 ∨
      ∃ b, k.InRing b ∧ (k.birth b).number = n ∧ k.pid b = k.ppid a) ∧
    ∀ a n, k.InRing a → (k.birth a).maker = some n →
      (∀ b, k.InRing b → (k.birth b).number ≠ n) →
      ∀ b, k.InRing b → k.pid b = k.ppid a → (k.birth b).maker = none := by
  obtain ⟨s, hreach, hs⟩ := h.refines
  have hlin : s.Lineage idle :=
    (RunQueue.stable_lineage idle).reach RunQueue.Booted.lineage hreach
  have hparent : ∀ a n, k.InRing a → (k.birth a).maker = some n → k.ppid a = 1 ∨
      ∃ b, k.InRing b ∧ (k.birth b).number = n ∧ k.pid b = k.ppid a := by
    intro a n ha hn
    obtain ⟨x, hx, rfl⟩ := hs.inRing_iff.mp ha
    rw [(hs.holds hx).birth] at hn
    rw [(hs.holds hx).ppid]
    refine (hlin.parent x hx n hn).imp_right fun ⟨y, hy, hyn, hyp, _⟩ => ?_
    refine ⟨y.addr, hs.inRing_iff.mpr ⟨y, hy, rfl⟩, ?_, (hs.holds hy).pid.trans hyp⟩
    rw [(hs.holds hy).birth, hyn]
  refine ⟨fun a b ha hb hab => ?_, hparent, fun a n ha hn hgone b hb hpid => ?_⟩
  · obtain ⟨x, hx, rfl⟩ := hs.inRing_iff.mp ha
    obtain ⟨y, hy, rfl⟩ := hs.inRing_iff.mp hb
    rw [(hs.holds hx).birth, (hs.holds hy).birth] at hab
    exact congrArg Proc.addr (List.inj_on_of_nodup_map hlin.numbered.distinct hx hy hab)
  · have hone : k.ppid a = 1 :=
      (hparent a n ha hn).resolve_right fun ⟨c, hc, hcn, _⟩ => hgone c hc hcn
    obtain ⟨y, hy, rfl⟩ := hs.inRing_iff.mp hb
    rw [(hs.holds hy).pid, hone] at hpid
    rw [(hs.holds hy).birth]
    exact (hlin.first y hy hpid).2.2

end Kernel

theorem RunQueue.init_scheduled (idle init : Word) (p : Int) (slots : Int → Int) (w : List Int) :
    RunQueue.Scheduled idle ⟨⟨init, 2, p, .running, none, ⟨1, none⟩⟩,
      [⟨idle, 1, 0, .queued, none, ⟨0, none⟩⟩], slots, w, [], 2⟩ :=
  ⟨Or.inl rfl, by simp, _, List.mem_cons_of_mem _ (List.mem_singleton_self _), rfl, by simp⟩

theorem RunQueue.kill_self (p : Int) (slots : Int → Int) (w : List Int) (hslot : slots 2 ≠ 0) :
    RunQueue.killKern 2 ⟨⟨2, 2, p, .running, none, ⟨1, none⟩⟩,
      [⟨1, 1, 0, .queued, none, ⟨0, none⟩⟩], slots, w, [], 2⟩ = (0,
      ⟨⟨2, 2, p, .zombie, none, ⟨1, none⟩⟩, [⟨1, 1, 0, .queued, none, ⟨0, none⟩⟩], slots, w, [],
        2⟩) := by
  simp [killKern, hslot, killProcess, Proc.adopt, maxP]

/-- `init` ends itself and forks; the child yields, and `init` is reaped. -/
theorem RunQueue.orphan_run (p : Int) (slots : Int → Int) (w : List Int) (hslot : slots 2 ≠ 0) :
    ∃ q slots' w', Relation.ReflTransGen (RunQueue.Turn 1 fun _ _ => True)
      ⟨⟨2, 2, p, .running, none, ⟨1, none⟩⟩, [⟨1, 1, 0, .queued, none, ⟨0, none⟩⟩], slots, w, [],
        2⟩
      ⟨⟨1, 1, 0, .running, none, ⟨0, none⟩⟩, [⟨3, q, 2, .queued, none, ⟨2, some 1⟩⟩], slots', w',
        [], 3⟩ := by
  obtain ⟨q, slots', w', hfork⟩ := RunQueue.exists_fork 3 ⟨⟨2, 2, p, .zombie, none, ⟨1, none⟩⟩,
    [⟨1, 1, 0, .queued, none, ⟨0, none⟩⟩], slots, w, [], 2⟩
  refine ⟨q, update slots' 2 0, 2 :: w', ?_⟩
  refine .head (b := ⟨⟨2, 2, p, .zombie, none, ⟨1, none⟩⟩,
    [⟨1, 1, 0, .queued, none, ⟨0, none⟩⟩], slots, w, [], 2⟩) ?_ ?_
  · have hturn : RunQueue.Turn 1 (fun _ _ => True) ⟨⟨2, 2, p, .running, none, ⟨1, none⟩⟩,
        [⟨1, 1, 0, .queued, none, ⟨0, none⟩⟩], slots, w, [], 2⟩ _ :=
      .call (c := .kill 2) (show (2 : Word) ≠ 1 by decide) rfl
        (show RunQueue.Fresh _ 3 by simp [RunQueue.Fresh, RunQueue.procs]) trivial
    simpa only [RunQueue.syscall, RunQueue.kill_self p slots w hslot] using hturn
  refine .head (b := ⟨⟨2, 2, p, .zombie, none, ⟨1, none⟩⟩, [⟨3, q, 2, .queued, none, ⟨2, some 1⟩⟩,
    ⟨1, 1, 0, .queued, none, ⟨0, none⟩⟩], slots', w', [], 3⟩) ?_ ?_
  · rw [← hfork]
    refine .call (c := .fork) (show (2 : Word) ≠ 1 by decide) rfl ?_ trivial
    simp [RunQueue.Fresh, RunQueue.procs]
  refine .head (b := ⟨⟨3, q, 2, .running, none, ⟨2, some 1⟩⟩,
    [⟨1, 1, 0, .queued, none, ⟨0, none⟩⟩, ⟨2, 2, p, .zombie, none, ⟨1, none⟩⟩], slots', w', [],
      3⟩) ?_ ?_
  · refine .call (c := .yield) (show (2 : Word) ≠ 1 by decide) rfl
      (?_ : RunQueue.Fresh _ 4) trivial
    simp [RunQueue.Fresh, RunQueue.procs]
  refine .single (.call (c := .yield) (show (3 : Word) ≠ 1 by decide) rfl
    (?_ : RunQueue.Fresh _ 4) trivial)
  simp [RunQueue.Fresh, RunQueue.procs]

/-- A process in the ring names pid 2, which has been given back. -/
theorem Kernel.orphan_named :
    ¬ ∀ k, Reach 1 (fun _ _ => True) k → ∀ a n, k.InRing a → (k.birth a).maker = some n →
      k.ppid a = 1 ∨ ∃ b, k.InRing b ∧ (k.birth b).number = n ∧ k.pid b = k.ppid a := by
  intro hall
  obtain ⟨p, slots, w, hslots, hlift⟩ := Reach.of_init_runs (fun _ _ => True)
  have hslot := (hslots 2 (by decide) (by decide)).mpr (Or.inr rfl)
  obtain ⟨q, slots', w', hrun⟩ := RunQueue.orphan_run p slots w hslot
  obtain ⟨k, hk, hs⟩ := hlift hrun
  have hchild := hs.rest _ (List.mem_singleton_self _)
  have hin : k.InRing 3 :=
    hs.inRing_iff.mpr ⟨_, List.mem_cons_of_mem _ (List.mem_singleton_self _), rfl⟩
  have hmaker : (k.birth 3).maker = some 1 := congrArg Birth.maker hchild.birth
  have hppid : k.ppid 3 = 2 := hchild.ppid
  rcases hall k hk 3 1 hin hmaker with hone | ⟨b, hb, hbn, -⟩
  · rw [hppid] at hone
    exact absurd hone (by decide)
  · obtain ⟨x, hx, rfl⟩ := hs.inRing_iff.mp hb
    rw [(hs.holds hx).birth] at hbn
    simp [RunQueue.procs] at hx
    rcases hx with rfl | rfl <;> simp at hbn

/-- The child of `init` names pid 2, and that is the pid of `init`. -/
theorem Kernel.Reach.parents_fork :
    ∃ k, Reach 1 (fun c call => call = .fork → c.state ≠ .zombie) k ∧ k.InRing 3 ∧
      (k.birth 3).maker = some 1 ∧ k.ppid 3 = 2 ∧
      ∃ b, k.InRing b ∧ (k.birth b).number = 1 ∧ k.pid b = k.ppid 3 := by
  obtain ⟨k, hk, -, hin, hmaker, hppid⟩ := Reach.exists_forked
    (fun c call => call = .fork → c.state ≠ .zombie) fun _ _ _ _ => by simp
  have hparent := (Reach.parents hk).2.1 3 1 hin hmaker
  refine ⟨k, hk, hin, hmaker, hppid, hparent.resolve_left ?_⟩
  rw [hppid]
  decide

/-! ## The end of a process -/

namespace RunQueue

open Kernel (Syscall Caller)

/-- The process with number `n` has been created, does not run, and is a
zombie if it is in the queue. -/
structure Ended (n : Nat) (s : RunQueue) : Prop where
  created : n < s.births
  head : s.head.birth.number ≠ n
  zombie : ∀ x ∈ s.rest, x.birth.number = n → x.state = .zombie

theorem stable_ended (idle : Word) (may : Caller → Syscall → Prop) (n : Nat) :
    Stable idle may (Ended n) where
  say _ hs := ⟨hs.created, hs.head, hs.zombie⟩
  setWaits _ hs := ⟨hs.created, hs.head, hs.zombie⟩
  fork := by
    intro s block _ _ _ hs
    obtain ⟨q, slots, written, hfork⟩ := s.exists_fork block
    rw [hfork]
    refine ⟨Nat.lt_succ_of_lt hs.created, hs.head, ?_⟩
    simp only [List.forall_mem_cons]
    exact ⟨fun hn => absurd hn hs.created.ne', hs.zombie⟩
  execVpe _ _ hs := ⟨hs.created, hs.head, hs.zombie⟩
  kill := by
    intro s _ hrest hs
    rw [killProcess, if_neg hrest]
    refine ⟨hs.created, hs.head, ?_⟩
    simpa only [List.forall_mem_map, Proc.adopt_birth, Proc.adopt_state] using hs.zombie
  reap := fun {s x} _ _ hs =>
    ⟨hs.created, hs.head, fun y hy => hs.zombie y (List.mem_of_mem_erase hy)⟩
  switch := by
    intro s hlive hs
    unfold RunQueue.switch
    split
    · exact hs
    next c l hrest =>
      have hc : c ∈ s.rest := hrest ▸ List.mem_cons_self ..
      refine ⟨hs.created, fun hn => hlive c hc (hs.zombie c hc hn), fun x hx hn => ?_⟩
      rcases List.mem_append.mp hx with hx | hx
      · exact hs.zombie x (hrest ▸ List.mem_cons_of_mem _ hx) hn
      · rw [List.mem_singleton.mp hx, Proc.suspend_birth] at hn
        exact absurd hn hs.head

/-- Some zombie behind the head is this one. -/
def HasZombie (s : RunQueue) (n : Nat) (p : Int) : Prop :=
  ∃ x ∈ s.rest, x.birth.number = n ∧ x.pid = p ∧ x.state = .zombie

/-- A zombie behind the head stays there, or its slot is given back. -/
theorem stable_hasZombie (idle : Word) (n : Nat) (p : Int) :
    Stable idle (fun _ call => call ≠ .fork) fun s => s.HasZombie n p ∨ s.slots p = 0 where
  say _ hs := hs
  setWaits _ hs := hs
  fork _ _ hmay _ := absurd rfl hmay
  execVpe _ _ hs := hs
  kill := by
    intro s _ hrest hs
    rw [killProcess, if_neg hrest]
    refine hs.imp_left ?_
    rintro ⟨x, hx, hn, hp, hz⟩
    refine ⟨_, List.mem_map_of_mem hx, ?_⟩
    exact ⟨by simpa using hn, by simpa using hp, by simpa using hz⟩
  reap := by
    intro s y _ _ hs
    rcases hs with ⟨x, hx, hn, hp, hz⟩ | hs
    · by_cases hxy : x = y
      · subst hxy
        exact Or.inr (hp ▸ update_self ..)
      · exact Or.inl ⟨x, (List.mem_erase_of_ne hxy).mpr hx, hn, hp, hz⟩
    · right
      change update s.slots y.pid 0 p = 0
      by_cases hy : p = y.pid
      · rw [hy, update_self]
      · rw [update_of_ne hy]
        exact hs
  switch := by
    intro s hlive hs
    unfold RunQueue.switch
    split
    · exact hs
    next c l hrest =>
      refine hs.imp_left ?_
      rintro ⟨x, hx, hn, hp, hz⟩
      refine ⟨x, ?_, hn, hp, hz⟩
      have hxc : x ≠ c := fun h' => hlive x hx hz
      rw [hrest] at hx
      exact List.mem_append_left _ ((List.mem_cons.mp hx).resolve_left hxc)

theorem Turn.hasZombie {idle : Word} {may : Caller → Syscall → Prop} {s s' : RunQueue} {n : Nat}
    {p : Int} (ht : Turn idle may s s') (hs : s.HasZombie n p) :
    s'.HasZombie n p ∨ s'.slots p = 0 := by
  have hstable := stable_hasZombie idle n p
  cases ht with
  | idle hidle hb => exact hstable.turn (.idle hidle hb) (Or.inl hs)
  | @call block c hidle hw hb _ =>
      by_cases hc : c = .fork
      · subst hc
        obtain ⟨x, hx, hx'⟩ := hs
        refine Or.inl ⟨x, ?_, hx'⟩
        change x ∈ (s.fork block).2.rest
        rw [fork_rest]
        exact List.mem_cons_of_mem _ hx
      · exact hstable.turn (.call hidle hw hb hc) (Or.inl hs)
  | resume hidle hw hb => exact hstable.turn (.resume hidle hw hb) (Or.inl hs)

/-- `exit_current_process` ends the head, and it is left in the queue. -/
theorem exit_ended {idle : Word} {s : RunQueue} (hnum : s.Numbered) (hsch : s.Scheduled idle)
    (hidle : s.head.addr ≠ idle) :
    s.killProcess.scheduler.Ended s.head.birth.number ∧
      s.killProcess.scheduler.HasZombie s.head.birth.number s.head.pid := by
  have hrest := hsch.rest_ne_nil hidle
  have hkill : s.killProcess = { s with
      head := { s.head with state := .zombie }
      rest := s.rest.map (Proc.adopt s.head) } := if_neg hrest
  have hsch₁ := hsch.killProcess hidle
  have hnum₁ := (stable_numbered idle fun _ _ => True).kill hidle hrest hnum
  rw [hkill] at hsch₁ hnum₁ ⊢
  generalize hs₁ : RunQueue.mk _ _ _ _ _ _ = s₁ at hsch₁ hnum₁ ⊢
  have hhead₁ : s₁.head = { s.head with state := .zombie } := by rw [← hs₁]
  have hsched := (stable_scheduled idle fun _ _ => True).waitAll hsch₁
  have hnum₂ := (stable_numbered idle fun _ _ => True).waitAll hnum₁
  have hnil := hsched.rest_ne_nil (by rw [waitAll_head, hhead₁]; exact hidle)
  have hhead₂ : s₁.waitAll.head = { s.head with state := .zombie } := by rw [waitAll_head, hhead₁]
  unfold scheduler switch
  split
  next hempty => exact absurd hempty hnil
  next c l hrest₂ =>
    have hother : ∀ x ∈ c :: l, x.birth.number ≠ s.head.birth.number := by
      intro x hx hn
      have hnd := List.nodup_cons.mp hnum₂.distinct
      rw [hhead₂, hrest₂] at hnd
      exact hnd.1 (List.mem_map.mpr ⟨x, hx, hn⟩)
    have hsusp : s₁.waitAll.head.suspend = { s.head with state := .zombie } := by
      rw [hhead₂]
      rfl
    rw [hsusp]
    refine ⟨⟨?_, hother c (List.mem_cons_self ..), fun x hx hn => ?_⟩,
      ⟨_, List.mem_append_right _ (List.mem_singleton_self _), rfl, rfl, rfl⟩⟩
    · have := hnum₂.lt _ (List.mem_cons_self ..)
      rwa [hhead₂] at this
    · rcases List.mem_append.mp hx with hx | hx
      · exact absurd hn (hother x (List.mem_cons_of_mem _ hx))
      · rw [List.mem_singleton.mp hx]

end RunQueue

/-- What is left of a process with number `n` that has ended: it does not
run, and is a zombie if it is in the ring. -/
def Kernel.Over (k : Kernel) (n : Nat) : Prop :=
  (k.birth k.current).number ≠ n ∧
    ∀ a, k.InRing a → (k.birth a).number = n → k.state a = .zombie

namespace RingHolds

variable {k : Kernel} {s : RunQueue} {n : Nat}

theorem isOver (hs : RingHolds k s) (hn : s.Ended n) : k.Over n := by
  refine ⟨?_, fun a ha hna => ?_⟩
  · rw [hs.current, hs.head.birth]
    exact hn.head
  · obtain ⟨x, hx, rfl⟩ := hs.inRing_iff.mp ha
    rw [(hs.holds hx).birth] at hna
    rw [(hs.holds hx).state]
    rcases List.mem_cons.mp hx with rfl | hx
    · exact absurd hna hn.head
    · exact hn.zombie x hx hna

theorem inRing_of_hasZombie (hs : RingHolds k s) {p : Int} (hz : s.HasZombie n p) :
    ∃ a, k.InRing a ∧ (k.birth a).number = n := by
  obtain ⟨x, hx, hn, -⟩ := hz
  refine ⟨x.addr, hs.inRing_iff.mpr ⟨x, List.mem_cons_of_mem _ hx, rfl⟩, ?_⟩
  rw [(hs.rest x hx).birth, hn]

theorem hasZombie (hs : RingHolds k s) (hn : s.Ended n) {a : Word} (ha : k.InRing a)
    (hna : (k.birth a).number = n) : s.HasZombie n (k.pid a) := by
  obtain ⟨x, hx, rfl⟩ := hs.inRing_iff.mp ha
  rw [(hs.holds hx).birth] at hna
  rcases List.mem_cons.mp hx with rfl | hx
  · exact absurd hna hn.head
  · exact ⟨x, hx, hna, (hs.rest x hx).pid.symm, hn.zombie x hx hna⟩

end RingHolds

namespace Kernel

variable {idle block : Word} {k k' : Kernel} {may : Caller → Syscall → Prop} {fuel : Nat}

/-- A process that goes through `exit_current_process` is over in every
state from there on. It is a zombie in the ring, and each later turn leaves
it there or gives its slot of `processes` back. -/
theorem Reach.exit_final (h : Reach idle may k) (hidle : k.current ≠ idle)
    (hexit : k.exitCurrentProcess fuel block = some k') :
    (∃ a, k'.InRing a ∧ (k'.birth a).number = (k.birth k.current).number) ∧
    ∀ k₁, Relation.ReflTransGen (Step idle may) k' k₁ →
      k₁.Over (k.birth k.current).number ∧
      ∀ k₂ a, Step idle may k₁ k₂ → k₁.InRing a →
        (k₁.birth a).number = (k.birth k.current).number →
        (∃ b, k₂.InRing b ∧ (k₂.birth b).number = (k.birth k.current).number) ∨
          k₂.processes (k₁.pid a) = 0 := by
  obtain ⟨s, hreach, hs⟩ := h.refines
  have hsch := hreach.scheduled
  have hnum : s.Numbered :=
    (RunQueue.stable_numbered idle may).reach RunQueue.Booted.numbered hreach
  have hbirth : k.birth k.current = s.head.birth := hs.current ▸ hs.head.birth
  rw [hs.current] at hidle
  have hs' := (hs.exitCurrentProcess hsch hidle).of_eq_some hexit
  obtain ⟨hended, hz⟩ := RunQueue.exit_ended hnum hsch hidle
  have hsch' := (RunQueue.stable_scheduled idle may).scheduler (hsch.killProcess hidle)
  rw [hbirth]
  refine ⟨hs'.inRing_of_hasZombie hz, fun k₁ hsteps => ?_⟩
  -- along the run the queue goes on holding, and the process stays ended
  obtain ⟨s₁, hs₁, hsch₁, hended₁⟩ : ∃ s₁, RingHolds k₁ s₁ ∧ s₁.Scheduled idle ∧
      s₁.Ended s.head.birth.number := by
    induction hsteps with
    | refl => exact ⟨_, hs', hsch', hended⟩
    | tail _ hstep ih =>
        obtain ⟨s₁, hs₁, hsch₁, hended₁⟩ := ih
        obtain ⟨s₂, hturn, hs₂⟩ := hstep.refines hs₁ hsch₁
        exact ⟨s₂, hs₂, (RunQueue.stable_scheduled idle may).turn hturn hsch₁,
          (RunQueue.stable_ended idle may _).turn hturn hended₁⟩
  refine ⟨hs₁.isOver hended₁, fun k₂ a hstep ha hna => ?_⟩
  obtain ⟨s₂, hturn, hs₂⟩ := hstep.refines hs₁ hsch₁
  refine (hturn.hasZombie (hs₁.hasZombie hended₁ ha hna)).imp hs₂.inRing_of_hasZombie fun hslot => ?_
  rw [hs₂.slots]
  exact hslot

theorem Reach.exit_final_init :
    ∃ k k', Reach 1 (fun _ _ => True) k ∧ k.exitCurrentProcess 2 3 = some k' ∧
      k'.Over (k.birth k.current).number := by
  obtain ⟨p, slots, w, -, hlift⟩ := Reach.of_init_runs (fun _ _ => True)
  obtain ⟨k, hk, hs⟩ := hlift .refl
  have hidle : (2 : Word) ≠ 1 := by decide
  have hruns : Runs (2 ≤ 1) (k.exitCurrentProcess 2 3) _ :=
    hs.exitCurrentProcess (RunQueue.init_scheduled _ _ p slots w) hidle
  obtain ⟨k', hexit, -⟩ := hruns.exists_eq_some (by decide)
  have hcur : k.current ≠ 1 := fun h' => hidle (hs.current.symm.trans h')
  exact ⟨k, k', hk, hexit, ((Reach.exit_final hk hcur hexit).2 k' .refl).1⟩

/-- `init` is told by `kill_kern` that it has been ended. It forks, and
execs its way back to RUNNING. -/
theorem killed_runs_on :
    ∃ k k₁ k₂, Reach 1 (fun _ _ => True) k ∧ k.killKern 2 (k.pid k.current) = some (0, k₁) ∧
      k₁.state k₁.current = .zombie ∧ Relation.ReflTransGen (Step 1 fun _ _ => True) k₁ k₂ ∧
      k₂.birth k₂.current = k.birth k.current ∧ k₂.state k₂.current = .running ∧
      ∃ a, k₂.InRing a ∧ (k₂.birth a).maker = some (k.birth k.current).number := by
  obtain ⟨p, slots, w, hslots, hlift⟩ := Reach.of_init_runs (fun _ _ => True)
  have hslot := (hslots 2 (by decide) (by decide)).mpr (Or.inr rfl)
  obtain ⟨k, hk, hs⟩ := hlift .refl
  have hpid : k.pid k.current = 2 := hs.current ▸ hs.head.pid
  have hbirth : k.birth k.current = ⟨1, none⟩ := hs.current ▸ hs.head.birth
  have hruns : Runs (2 ≤ 1) (k.killKern 2 2) _ := hs.killKern 2
  obtain ⟨⟨r, k₁⟩, hkill, hr, hs₁⟩ := hruns.exists_eq_some (by decide)
  rw [RunQueue.kill_self p slots w hslot] at hr hs₁
  obtain rfl : r = 0 := hr
  have hidle : (2 : Word) ≠ 1 := by decide
  have hsch : RunQueue.Scheduled 1 ⟨⟨2, 2, p, .zombie, none, ⟨1, none⟩⟩,
      [⟨1, 1, 0, .queued, none, ⟨0, none⟩⟩], slots, w, [], 2⟩ :=
    ⟨Or.inr rfl, by simp, _, List.mem_cons_of_mem _ (List.mem_singleton_self _), rfl, by simp⟩
  obtain ⟨q, slots', w', hfork⟩ := RunQueue.exists_fork 3 ⟨⟨2, 2, p, .zombie, none, ⟨1, none⟩⟩,
    [⟨1, 1, 0, .queued, none, ⟨0, none⟩⟩], slots, w, [], 2⟩
  have hturns : Relation.ReflTransGen (RunQueue.Turn 1 fun _ _ => True)
      ⟨⟨2, 2, p, .zombie, none, ⟨1, none⟩⟩, [⟨1, 1, 0, .queued, none, ⟨0, none⟩⟩], slots, w, [], 2⟩
      ⟨⟨4, 2, p, .running, none, ⟨1, none⟩⟩, [⟨3, q, 2, .queued, none, ⟨2, some 1⟩⟩,
        ⟨1, 1, 0, .queued, none, ⟨0, none⟩⟩], slots', w', [], 3⟩ := by
    refine .head (b := ⟨⟨2, 2, p, .zombie, none, ⟨1, none⟩⟩,
      [⟨3, q, 2, .queued, none, ⟨2, some 1⟩⟩, ⟨1, 1, 0, .queued, none, ⟨0, none⟩⟩], slots', w', [],
        3⟩) ?_ ?_
    · rw [← hfork]
      refine .call (c := .fork) hidle rfl ?_ trivial
      simp [RunQueue.Fresh, RunQueue.procs]
    · refine .single (.call (c := .execVpe true) hidle rfl (?_ : RunQueue.Fresh _ 4) trivial)
      simp [RunQueue.Fresh, RunQueue.procs]
  obtain ⟨k₂, hsteps, hs₂⟩ := hs₁.turns hsch hturns
  have hchild := List.mem_cons_of_mem (⟨4, 2, p, .running, none, ⟨1, none⟩⟩ : Proc)
    (List.mem_cons_self (a := (⟨3, q, 2, .queued, none, ⟨2, some 1⟩⟩ : Proc))
      (l := [⟨1, 1, 0, .queued, none, ⟨0, none⟩⟩]))
  refine ⟨k, k₁, k₂, hk, hpid.symm ▸ hkill, ?_, hsteps, ?_, ?_, 3,
    hs₂.inRing_iff.mpr ⟨_, hchild, rfl⟩, ?_⟩
  · rw [hs₁.current]
    exact hs₁.head.state
  · rw [hs₂.current, hbirth]
    exact hs₂.head.birth
  · rw [hs₂.current]
    exact hs₂.head.state
  · rw [hbirth]
    exact congrArg Birth.maker (hs₂.holds hchild).birth

end Kernel

end SnowOs
