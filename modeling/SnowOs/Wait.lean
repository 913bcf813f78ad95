import SnowOs.ProcessRing

/-!
# What `wait` reports

`wait` and `wait_pid` scan the ring for a child. A call that finds a zombie
reaps it and returns its pid; one that finds no child at all returns -1.
Both reports are true of the ring they are made in. A call that finds only
live children goes into `scheduler` and scans again when it is switched
back to. But its cursor was set before the first scan and stands at the end
of it, on the caller itself, so the second scan looks at nobody and the
call returns -1, whatever has become of the children.
-/

namespace SnowOs

open Linked Function

namespace Kernel

variable {idle block : Word} {k k' : Kernel} {may : Caller → Syscall → Prop}

/-- What the value `r` says when the call that was made or resumed in `k`
returns it in `k'`: -1 that there is no child, another value that a child
that was a zombie has just been reaped. -/
def Reports (k : Kernel) (pid : Option Int) (r : Int) (k' : Kernel) : Prop :=
  if r = -1 then ∀ a, k'.InRing a → ¬ k'.isChild pid a
  else ∃ a, k.InRing a ∧ k.isChild pid a ∧ k.state a = .zombie ∧ k.pid a = r ∧
    (∀ b, k'.InRing b ↔ k.InRing b ∧ b ≠ a) ∧ k'.processes r = 0

/-- The first scan settles the call: there is a zombie child, or no child
at all. No child is the caller itself or has the pid -1. -/
structure Settled (k : Kernel) (pid : Option Int) : Prop where
  own : ¬ k.isChild pid k.current
  valid : ∀ a, k.InRing a → k.isChild pid a → k.pid a ≠ -1
  scan : (∃ a, k.InRing a ∧ k.isChild pid a ∧ k.state a = .zombie) ∨
    ∀ a, k.InRing a → ¬ k.isChild pid a

end Kernel

theorem RunQueue.no_child_setWaits {s : RunQueue} {w : Option (Option Int)} {pid : Option Int} :
    (∀ x ∈ (s.setWaits w).procs, ¬ x.IsChild pid (s.setWaits w).head) ↔
      ∀ x ∈ s.procs, ¬ x.IsChild pid s.head := by
  simp only [RunQueue.procs, List.forall_mem_cons]
  exact Iff.rfl

namespace RingHolds

open Kernel

variable {k k' : Kernel} {s : RunQueue} {pid : Option Int}

theorem procs_nodup (h : RingHolds k s) : (s.procs.map Proc.addr).Nodup := by
  have := h.ring.nodup
  rwa [h.current] at this

/-- Two processes of the queue in one block are the same. -/
theorem eq_of_addr_eq (h : RingHolds k s) {x y : Proc} (hx : x ∈ s.procs) (hy : y ∈ s.procs)
    (hxy : x.addr = y.addr) : x = y :=
  List.inj_on_of_nodup_map h.procs_nodup hx hy hxy

theorem no_child_iff (h : RingHolds k s) :
    (∀ a, k.InRing a → ¬ k.isChild pid a) ↔ ∀ x ∈ s.procs, ¬ x.IsChild pid s.head := by
  constructor
  · intro hno x hx hchild
    exact hno x.addr (h.inRing_iff.mpr ⟨x, hx, rfl⟩) ((h.isChild_iff hx pid).mpr hchild)
  · intro hno a ha hchild
    obtain ⟨x, hx, rfl⟩ := h.inRing_iff.mp ha
    exact hno x hx ((h.isChild_iff hx pid).mp hchild)

/-- A call that was switched out returns -1, whatever is in the ring. -/
theorem resume_reports (h : RingHolds k s) (fuel : Nat) (block : Word) {it prev : Word}
    (hcont : k.cont k.current = .waiting pid it prev) :
    Runs (fuel ≤ s.rest.length) (k.resume fuel block) fun r => r.1 = some (-1) ∧
      (k.Reports pid (-1) r.2 ↔ ∀ x ∈ s.procs, ¬ x.IsChild pid s.head) := by
  refine h.resume.imp id fun r hr => ?_
  obtain ⟨w, hw⟩ : ∃ w, s.head.waits = some w := by
    have := h.head.cont
    rw [← h.current, hcont] at this
    cases hw : s.head.waits with
    | none =>
        rw [hw] at this
        cases this
    | some w => exact ⟨w, rfl⟩
  rw [RunQueue.resume, hw] at hr
  refine ⟨hr.1, ?_⟩
  rw [Reports, if_pos rfl, hr.2.no_child_iff, RunQueue.no_child_setWaits]

theorem reports_reap (h : RingHolds k s) {x : Proc} (hx : x ∈ s.rest)
    (hchild : x.IsChild pid s.head) (hz : x.state = .zombie) (hpid : x.pid ≠ -1)
    (h' : RingHolds k' ((s.reap x).setWaits none)) : k.Reports pid x.pid k' := by
  have hx' : x ∈ s.procs := List.mem_cons_of_mem _ hx
  rw [Reports, if_neg hpid]
  refine ⟨x.addr, h.inRing_iff.mpr ⟨x, hx', rfl⟩, (h.isChild_iff hx' pid).mpr hchild,
    (h.rest x hx).state.trans hz, (h.rest x hx).pid, fun b => ?_, ?_⟩
  · rw [h.inRing_iff, h'.inRing_iff]
    have hnd : s.rest.Nodup := (List.nodup_cons.mp h.procs_nodup.of_map).2
    constructor
    · rintro ⟨y, hy, rfl⟩
      rcases List.mem_cons.mp hy with rfl | hy
      · exact ⟨⟨s.head, List.mem_cons_self .., rfl⟩, fun h'' =>
          h.addr_ne_current hx (h''.symm.trans h.current.symm)⟩
      · have hy := hnd.mem_erase_iff.mp hy
        refine ⟨⟨y, List.mem_cons_of_mem _ hy.2, rfl⟩, fun h'' => hy.1 ?_⟩
        exact h.eq_of_addr_eq (List.mem_cons_of_mem _ hy.2) hx' h''
    · rintro ⟨⟨y, hy, rfl⟩, hne⟩
      rcases List.mem_cons.mp hy with rfl | hy
      · exact ⟨_, List.mem_cons_self .., rfl⟩
      · have hyx : y ≠ x := fun h'' => hne (h'' ▸ rfl)
        exact ⟨y, List.mem_cons_of_mem _ (hnd.mem_erase_iff.mpr ⟨hyx, hy⟩), rfl⟩
  · rw [h'.slots]
    exact update_self ..

theorem waitFor_settled (h : RingHolds k s) {idle : Word} (hsch : s.Scheduled idle)
    (hset : k.Settled pid) {fuel : Nat} {block : Word} :
    Runs (fuel ≤ s.rest.length) (k.waitFor fuel block pid) fun r =>
      ∃ q, r.1 = some q ∧ k.Reports pid q r.2 := by
  refine (h.waitFor hsch pid).imp id fun r hr => ?_
  obtain ⟨hr1, hr2⟩ := hr
  unfold RunQueue.waitFor at hr1 hr2
  cases hf : s.rest.find? fun x => x.IsChild pid s.head ∧ x.state = .zombie with
  | some x =>
      rw [hf] at hr1 hr2
      obtain ⟨hx, hchild, hz⟩ := RunQueue.zombie_of_find hf
      have hx' : x ∈ s.procs := List.mem_cons_of_mem _ hx
      have hvalid := hset.valid x.addr (h.inRing_iff.mpr ⟨x, hx', rfl⟩)
        ((h.isChild_iff hx' pid).mpr hchild)
      rw [(h.rest x hx).pid] at hvalid
      exact ⟨x.pid, hr1, h.reports_reap hx hchild hz hvalid hr2⟩
  | none =>
      rw [hf] at hr1 hr2
      have hno : ∀ x ∈ s.procs, ¬ x.IsChild pid s.head := by
        rcases hset.scan with ⟨a, ha, hchild, hz⟩ | hno
        · obtain ⟨x, hx, rfl⟩ := h.inRing_iff.mp ha
          rcases List.mem_cons.mp hx with rfl | hx'
          · rw [← h.current] at hchild
            exact absurd hchild hset.own
          · have := List.find?_eq_none.mp hf x hx'
            rw [(h.rest x hx').state] at hz
            exact absurd (decide_eq_true ⟨(h.isChild_iff hx pid).mp hchild, hz⟩) this
        · exact h.no_child_iff.mp hno
      have hrest : ¬ ∃ x ∈ s.rest, x.IsChild pid s.head := fun ⟨x, hx, hchild⟩ =>
        hno x (List.mem_cons_of_mem _ hx) hchild
      rw [if_neg hrest] at hr1 hr2
      refine ⟨-1, hr1, ?_⟩
      rw [Reports, if_pos rfl, hr2.no_child_iff, RunQueue.no_child_setWaits]
      exact hno

end RingHolds

namespace Kernel

variable {idle block : Word} {k k' : Kernel} {may : Caller → Syscall → Prop}

/-- Every return of `wait` and `wait_pid` in a reachable state. A call that
its first scan settles returns there, with a true report. One that finds
live children only does not return. A call that was switched out returns -1
as soon as it is switched back to, and the report is true exactly if no
child is left. -/
theorem Reach.wait_reports (h : Reach idle may k) (pid : Option Int) :
    ∃ n, ∀ fuel block,
      (k.Settled pid → Runs (fuel ≤ n) (k.waitFor fuel block pid) fun r =>
        ∃ q, r.1 = some q ∧ k.Reports pid q r.2) ∧
      ((∃ a, k.InRing a ∧ a ≠ k.current ∧ k.isChild pid a) →
        (∀ a, k.InRing a → k.isChild pid a → k.state a ≠ .zombie) →
        Runs (fuel ≤ n) (k.waitFor fuel block pid) fun r => r.1 = none) ∧
      (∀ it prev, k.cont k.current = .waiting pid it prev →
        Runs (fuel ≤ n) (k.resume fuel block) fun r => r.1 = some (-1) ∧
          (k.Reports pid (-1) r.2 ↔ ∀ a, k.InRing a → ¬ k.isChild pid a)) := by
  obtain ⟨s, hreach, hs⟩ := h.refines
  refine ⟨s.rest.length, fun fuel block => ⟨fun hset => ?_, fun hchild hlive => ?_,
    fun it prev hcont => ?_⟩⟩
  · exact hs.waitFor_settled hreach.scheduled hset
  · refine (hs.waitFor hreach.scheduled pid).imp id fun r hr => ?_
    obtain ⟨hr, -⟩ := hr
    have hnone : (s.rest.find? fun x => x.IsChild pid s.head ∧ x.state = .zombie) = none := by
      refine List.find?_eq_none.mpr fun x hx hxz => ?_
      obtain ⟨hxc, hxz⟩ := of_decide_eq_true hxz
      have hx' : x ∈ s.procs := List.mem_cons_of_mem _ hx
      refine hlive x.addr (hs.inRing_iff.mpr ⟨x, hx', rfl⟩) ((hs.isChild_iff hx' pid).mpr hxc) ?_
      exact (hs.rest x hx).state.trans hxz
    have hsome : ∃ x ∈ s.rest, x.IsChild pid s.head := by
      obtain ⟨a, ha, hne, hac⟩ := hchild
      obtain ⟨x, hx, rfl⟩ := hs.inRing_iff.mp ha
      refine ⟨x, ?_, (hs.isChild_iff hx pid).mp hac⟩
      exact (List.mem_cons.mp hx).resolve_left fun h' => hne (h' ▸ hs.current.symm)
    rw [hr, RunQueue.waitFor, hnone]
    simp only [if_pos hsome]
  · rw [hs.no_child_iff]
    exact hs.resume_reports fuel block hcont

end Kernel

/-- `init` (pid 2) forks and waits; the child yields, and idle switches back
to `init`, with the child still alive. -/
theorem RunQueue.wait_run (p : Int) (slots : Int → Int) (w : List Int) :
    ∃ q slots' w', Relation.ReflTransGen (RunQueue.Turn 1 fun _ _ => True)
      ⟨⟨2, 2, p, .running, none, ⟨1, none⟩⟩, [⟨1, 1, 0, .queued, none, ⟨0, none⟩⟩], slots, w, [], 2⟩
      ⟨⟨2, 2, p, .running, some none, ⟨1, none⟩⟩,
        [⟨3, q, 2, .queued, none, ⟨2, some 1⟩⟩, ⟨1, 1, 0, .queued, none, ⟨0, none⟩⟩],
        slots', w', [], 3⟩ := by
  obtain ⟨q, slots', w', hfork⟩ := RunQueue.exists_fork 3 ⟨⟨2, 2, p, .running, none, ⟨1, none⟩⟩,
    [⟨1, 1, 0, .queued, none, ⟨0, none⟩⟩], slots, w, [], 2⟩
  refine ⟨q, slots', w', ?_⟩
  refine .head (b := ⟨⟨2, 2, p, .running, none, ⟨1, none⟩⟩, [⟨3, q, 2, .queued, none, ⟨2, some 1⟩⟩,
    ⟨1, 1, 0, .queued, none, ⟨0, none⟩⟩], slots', w', [], 3⟩) ?_ ?_
  · rw [← hfork]
    refine .call (c := .fork) (show (2 : Word) ≠ 1 by decide) rfl ?_ trivial
    simp [RunQueue.Fresh, RunQueue.procs]
  refine .head (b := ⟨⟨3, q, 2, .running, none, ⟨2, some 1⟩⟩, [⟨1, 1, 0, .queued, none, ⟨0, none⟩⟩,
    ⟨2, 2, p, .queued, some none, ⟨1, none⟩⟩], slots', w', [], 3⟩) ?_ ?_
  · refine .call (c := .wait) (show (2 : Word) ≠ 1 by decide) rfl
      (?_ : RunQueue.Fresh _ 4) trivial
    simp [RunQueue.Fresh, RunQueue.procs]
  refine .head (b := ⟨⟨1, 1, 0, .running, none, ⟨0, none⟩⟩, [⟨2, 2, p, .queued, some none, ⟨1, none⟩⟩,
    ⟨3, q, 2, .queued, none, ⟨2, some 1⟩⟩], slots', w', [], 3⟩) ?_ ?_
  · refine .call (c := .yield) (show (3 : Word) ≠ 1 by decide) rfl
      (?_ : RunQueue.Fresh _ 4) trivial
    simp [RunQueue.Fresh, RunQueue.procs]
  refine .single (.idle rfl (?_ : RunQueue.Fresh _ 4))
  simp [RunQueue.Fresh, RunQueue.procs]

namespace Kernel

/-- After that run, `init` is back in its `wait` and its child is alive. -/
theorem Reach.wait_reports_run :
    ∃ k it prev, Reach 1 (fun _ _ => True) k ∧ k.cont k.current = .waiting none it prev ∧
      ∃ n, ∀ fuel block, Runs (fuel ≤ n) (k.resume fuel block) fun r => r.1 = some (-1) ∧
        (k.Reports none (-1) r.2 ↔ ∀ a, k.InRing a → ¬ k.isChild none a) := by
  obtain ⟨p, slots, w, -, hlift⟩ := Reach.of_init_runs (fun _ _ => True)
  obtain ⟨q, slots', w', hrun⟩ := RunQueue.wait_run p slots w
  obtain ⟨k, hk, hs⟩ := hlift hrun
  have hcont := hs.head.cont
  rw [← hs.current] at hcont
  obtain ⟨prev, hprev⟩ := hcont
  obtain ⟨n, hn⟩ := Reach.wait_reports hk none
  exact ⟨k, _, prev, hk, hprev, n, fun fuel block => (hn fuel block).2.2 _ _ hprev⟩

/-- That run, in the kernel: the `wait` of `init` returns -1 in a ring that
still has its child. -/
theorem wait_misses_child :
    ¬ ∀ k, Reach 1 (fun _ _ => True) k → ∀ pid it prev,
      k.cont k.current = .waiting pid it prev → ∀ fuel block r k', ¬ k.InRing block →
        k.resume fuel block = some (some r, k') → k.Reports pid r k' := by
  intro hall
  obtain ⟨p, slots, w, -, hlift⟩ := Reach.of_init_runs (fun _ _ => True)
  obtain ⟨q, slots', w', hrun⟩ := RunQueue.wait_run p slots w
  obtain ⟨k, hk, hs⟩ := hlift hrun
  have hcont := hs.head.cont
  rw [← hs.current] at hcont
  obtain ⟨prev, hprev⟩ := hcont
  obtain ⟨⟨r, k'⟩, hres, hr, hrep⟩ :=
    (hs.resume_reports _ 4 hprev).exists_eq_some (Nat.not_succ_le_self _)
  obtain rfl : r = some (-1) := hr
  have hfresh : ¬ k.InRing 4 := by
    rw [hs.inRing_iff]
    simp [RunQueue.procs]
  have hno := hrep.mp (hall k hk none _ prev hprev _ 4 (-1) k' hfresh hres)
  exact hno ⟨3, q, 2, .queued, none, ⟨2, some 1⟩⟩ (by simp [RunQueue.procs]) ⟨by simp, rfl⟩

end Kernel

end SnowOs
