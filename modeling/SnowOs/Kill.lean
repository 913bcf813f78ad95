import SnowOs.Lifecycle

/-!
# What `kill_kern` ends

`kill_kern` looks for the pid in the ring and is to end the process it
belongs to: the process becomes a zombie, its children go to pid 1, and
nothing else changes (`Kernel.KillsTarget`). Its scan of the ring answers
-1 at every process but `current_process`, so the only process it ends is
the one that calls it. `Kernel.killKern_runs` says what a call does from
any ring, whatever its blocks hold, and `Kernel.killKern_iff` when that is
what was asked for.
-/

namespace SnowOs.Kernel

open Linked Function

variable {k k' : Kernel} {l : List Word} {fuel : Nat} {pid : Int} {a : Word}

/-! ## What is asked for -/

/-- A process other than `a` in the ring that has `a` as its parent. -/
def ChildOf (k : Kernel) (a x : Word) : Prop :=
  k.InRing x ∧ x ≠ a ∧ k.ppid x = k.pid a

/-- From `k` to `k'`, `a` became a zombie and its children went to pid 1. -/
structure Terminated (k : Kernel) (a : Word) (k' : Kernel) : Prop where
  zombie : k'.state a = .zombie
  state : ∀ x, x ≠ a → k'.state x = k.state x
  adopted : ∀ x, k.ChildOf a x → k'.ppid x = 1
  ppid : ∀ x, ¬ k.ChildOf a x → k'.ppid x = k.ppid x
  others : k' = { k with state := k'.state, ppid := k'.ppid }

/-- `pid` can be killed and is that of the process `a` of the ring. -/
structure Target (k : Kernel) (pid : Int) (a : Word) : Prop where
  one_lt : 1 < pid
  lt_maxP : pid < maxP
  inRing : k.InRing a
  pid_eq : k.pid a = pid

/-- The value `r` and the state `k'` that `kill(pid)` is to give in `k`. -/
structure KillsTarget (k : Kernel) (pid r : Int) (k' : Kernel) : Prop where
  target : (∃ a, k.Target pid a) → r = 0 ∧ ∃ a, k.Target pid a ∧ k.Terminated a k'
  refused : (¬ ∃ a, k.Target pid a) → r = -1 ∧ k' = { k with console := k'.console }

/-- `pid` is that of `current_process` and of no other process, and
`current_process` is not alone. -/
structure KillsSelf (k : Kernel) (pid : Int) : Prop where
  self : k.Target pid k.current
  slot : k.processes pid ≠ 0
  others : k.next k.current ≠ k.current
  unique : ∀ a, k.InRing a → k.pid a = pid → a = k.current

/-! ## What the code does -/

/-- One round of the loop of `kill_process`, and the rounds after it. -/
theorem adopt_cons {ppid ppid' : Word → Int} {p : Int} {b : Word} {l : List Word} (hbl : b ∉ l)
    (hb : ppid' b = if ppid b = p then 1 else ppid b) (hother : ∀ x ≠ b, ppid' x = ppid x) :
    (fun x => if x ∈ l ∧ ppid' x = p then 1 else ppid' x)
      = fun x => if x ∈ b :: l ∧ ppid x = p then 1 else ppid x := by
  funext x
  rcases eq_or_ne x b with rfl | hx
  · simp [hbl, hb]
  · simp [hx, hother x hx]

theorem adoptFrom_runs {cur : Word} : ∀ {l : List Word} {a : Word} {n : Nat} {k : Kernel},
    Seg k.next a l cur → cur ∉ l → l.Nodup →
      Runs (n ≤ l.length) (adoptFrom cur n (k.next a) k) fun k' =>
        k' = { k with ppid := fun x =>
          if x ∈ l ∧ k.ppid x = k.pid cur then 1 else k.ppid x }
  | _, _, 0, _, _, _, _ => Nat.zero_le _
  | [], a, n + 1, k, hs, _, _ => by
      rw [adoptFrom, seg_nil.mp hs, if_pos rfl]
      simp
  | b :: l, a, n + 1, k, hs, hcur, hnd => by
      obtain ⟨hb, hs⟩ := hs
      obtain ⟨hbl, hnd⟩ := List.nodup_cons.mp hnd
      rw [List.mem_cons, not_or] at hcur
      rw [adoptFrom, hb, if_neg fun h => hcur.1 h.symm]
      dsimp only
      by_cases hchild : k.ppid b = k.pid cur
      · rw [if_pos hchild]
        have ih := adoptFrom_runs (n := n) (k := { k with ppid := update k.ppid b 1 })
          hs hcur.2 hnd
        refine ih.imp Nat.succ_le_succ fun k' hk' => ?_
        have hb1 : update k.ppid b 1 b = if k.ppid b = k.pid cur then 1 else k.ppid b := by
          rw [update_self, if_pos hchild]
        rw [hk', adopt_cons hbl hb1 fun x hx => update_of_ne hx ..]
      · rw [if_neg hchild]
        refine (adoptFrom_runs (n := n) hs hcur.2 hnd).imp Nat.succ_le_succ fun k' hk' => ?_
        rw [hk', adopt_cons hbl (if_neg hchild).symm fun x _ => rfl]

theorem childOf_current_iff (hring : Ring k.next k.current l) {x : Word} :
    k.ChildOf k.current x ↔ x ∈ l ∧ k.ppid x = k.pid k.current := by
  rw [ChildOf, InRing, ← hring.mem_iff_iterate, List.mem_cons]
  constructor
  · rintro ⟨hx | hx, hne, hp⟩
    · exact absurd hx hne
    · exact ⟨hx, hp⟩
  · rintro ⟨hx, hp⟩
    exact ⟨Or.inr hx, fun h => hring.notMem (h ▸ hx), hp⟩

theorem killProcess_runs (hring : Ring k.next k.current l)
    (hother : k.next k.current ≠ k.current) :
    Runs (fuel ≤ l.length) (k.killProcess fuel k.current) (k.Terminated k.current) := by
  rw [killProcess, if_neg hother]
  have hadopt := adoptFrom_runs (n := fuel) hring.seg hring.notMem
    (List.nodup_cons.mp hring.nodup).2
  refine hadopt.bind fun k' hk' => ?_
  subst hk'
  refine ⟨update_self .., fun x hx => update_of_ne hx .., fun x hx => ?_, fun x hx => ?_, rfl⟩
  · exact if_pos ((childOf_current_iff hring).mp hx)
  · exact if_neg fun h => hx ((childOf_current_iff hring).mpr h)

/-- The scan comes back to `current_process` if no other has the pid. -/
theorem walk_pid_runs (hring : Ring k.next k.current l) (pid : Int) :
    Runs (fuel ≤ l.length)
      (walkUntil k.next (fun c => c = k.current ∨ k.pid c = pid) fuel k.current
        (k.next k.current))
      fun r => r.2 = k.current ↔ ∀ a, k.InRing a → k.pid a = pid → a = k.current := by
  refine (hring.walk_first (fun a => k.pid a = pid) fuel).imp id fun r hr => ?_
  rw [hr]
  cases hf : l.find? fun a => decide (k.pid a = pid) with
  | none =>
      refine ⟨fun _ a ha hp => ?_, fun _ => rfl⟩
      rcases List.mem_cons.mp (hring.mem_iff_iterate.mpr ha) with rfl | ha
      · rfl
      · exact absurd (decide_eq_true hp) (List.find?_eq_none.mp hf a ha)
  | some c =>
      have hc := List.mem_of_find?_eq_some hf
      have hp : k.pid c = pid := of_decide_eq_true (List.find?_some hf :)
      refine ⟨fun h => absurd (h ▸ hc : k.current ∈ l) hring.notMem, fun h => ?_⟩
      exact h c (hring.mem_iff_iterate.mp (List.mem_cons_of_mem _ hc)) hp

/-- A call ends `current_process`, or answers -1 and at most prints. -/
theorem killKern_runs (hring : Ring k.next k.current l) (fuel : Nat) (pid : Int) :
    Runs (fuel ≤ l.length) (k.killKern fuel pid) fun r =>
      (k.KillsSelf pid ∧ r.1 = 0 ∧ k.Terminated k.current r.2) ∨
        (¬ k.KillsSelf pid ∧ r.1 = -1 ∧ r.2 = { k with console := r.2.console }) := by
  unfold killKern
  split
  · next h => exact Or.inr ⟨fun hk => by have := hk.self.one_lt; omega, rfl, rfl⟩
  split
  · next h => exact Or.inr ⟨fun hk => Int.not_lt.mpr h hk.self.lt_maxP, rfl, rfl⟩
  split
  · next h => exact Or.inr ⟨fun hk => Int.ne_of_gt hk.self.one_lt h, rfl, rfl⟩
  split
  · next h => exact Or.inr ⟨fun hk => hk.slot h, rfl, rfl⟩
  split
  · next h => exact Or.inr ⟨fun hk => hk.others h.1.symm, rfl, rfl⟩
  next hpos hmax hone hslot halone =>
  refine (walk_pid_runs hring pid).bind fun r hr => ?_
  dsimp only
  by_cases hback : r.2 = k.current
  · rw [if_neg (not_not.mpr hback), hback]
    by_cases hself : k.pid k.current = pid
    · rw [if_neg (not_not.mpr hself)]
      have hother : k.next k.current ≠ k.current := fun h => halone ⟨h.symm, hself⟩
      have hkills : k.KillsSelf pid :=
        ⟨⟨by omega, Int.not_le.mp hmax, ⟨0, rfl⟩, hself⟩, hslot, hother, hr.mp hback⟩
      exact (killProcess_runs hring hother).bind fun k' hk' => Or.inl ⟨hkills, rfl, hk'⟩
    · rw [if_pos hself]
      exact Or.inr ⟨fun hk => hself hk.self.pid_eq, rfl, rfl⟩
  · rw [if_pos hback]
    exact Or.inr ⟨fun hk => hback (hr.mpr hk.unique), rfl, rfl⟩

/-- `kill_kern` does what is asked for exactly if the pid is that of no
process of the ring it could end, or that of the caller alone. -/
theorem killKern_iff (hring : Ring k.next k.current l) (hfuel : l.length < fuel) (pid : Int) :
    (∃ r k', k.killKern fuel pid = some (r, k') ∧ k.KillsTarget pid r k') ↔
      ((∃ a, k.Target pid a) → k.KillsSelf pid) := by
  obtain ⟨⟨r, k'⟩, hrun, hres⟩ :=
    (killKern_runs hring fuel pid).exists_eq_some (Nat.not_le.mpr hfuel)
  rw [hrun]
  rcases hres with ⟨hself, hr, hterm⟩ | ⟨hself, hr, hsame⟩
  · refine ⟨fun _ _ => hself, fun _ => ⟨r, k', rfl, fun _ => ⟨hr, _, hself.self, hterm⟩, ?_⟩⟩
    exact fun h => absurd ⟨_, hself.self⟩ h
  · constructor
    · rintro ⟨_, _, ⟨⟩, hkills⟩ htarget
      have hzero : r = 0 := (hkills.target htarget).1
      exact absurd (hr.symm.trans hzero) (by decide)
    · intro h
      exact ⟨r, k', rfl, fun ht => absurd (h ht) hself, fun _ => ⟨hr, hsame⟩⟩

/-- `init` kills itself right after the boot. -/
theorem killKern_iff_init :
    ∃ k, Reach 1 (fun _ _ => True) k ∧ k.KillsSelf 2 ∧
      ∃ r k', k.killKern 2 2 = some (r, k') ∧ k.KillsTarget 2 r k' := by
  obtain ⟨p, slots, w, hslots, hlift⟩ := Reach.of_init_runs (fun _ _ => True)
  obtain ⟨k, hk, hs⟩ := hlift .refl
  have hpid : k.pid k.current = 2 := hs.current ▸ hs.head.pid
  have hslot : k.processes 2 ≠ 0 :=
    hs.slots ▸ (hslots 2 (by decide) (by decide)).mpr (Or.inr rfl)
  have hself : k.KillsSelf 2 := by
    refine ⟨⟨by decide, by decide, ⟨0, rfl⟩, hpid⟩, hslot, ?_, fun a ha hp => ?_⟩
    · intro h
      cases hs.rest_eq_nil.mp h.symm
    · obtain ⟨x, hx, rfl⟩ := hs.inRing_iff.mp ha
      rw [(hs.holds hx).pid] at hp
      rcases List.mem_cons.mp hx with rfl | hx
      · exact hs.current.symm
      · obtain rfl := List.mem_singleton.mp hx
        exact absurd hp (by decide)
  exact ⟨k, hk, hself, (killKern_iff hs.ring (show _ < 2 by simp) 2).mpr fun _ => hself⟩

/-- `init` forks and kills the child: it is answered -1, and the child
lives. -/
theorem child_not_killed :
    ∃ k, Reach 1 (fun _ _ => True) k ∧ k.Target 3 3 ∧ k.state 3 = .queued ∧
      ∃ k', k.killKern 3 3 = some (-1, k') ∧ k'.state 3 = .queued ∧
        ¬ k.KillsTarget 3 (-1) k' := by
  obtain ⟨p, slots, w, hslots, hlift⟩ := Reach.of_init_runs (fun _ _ => True)
  have hfree : freeSlot slots = some 3 := by
    refine freeSlot_eq_some.mpr ⟨by decide, by decide, ?_, fun j h1 hj => ?_⟩
    · by_contra hne
      have := (hslots (3 : Nat) (by decide) (by decide)).mp hne
      omega
    · exact (hslots j (by omega) (by simp only [maxP]; omega)).mpr (by omega)
  obtain ⟨k, hk, hs⟩ := hlift (.single (.call (c := .fork)
    (show (2 : Word) ≠ 1 by decide) rfl
    (show RunQueue.Fresh _ 3 by simp [RunQueue.Fresh, RunQueue.procs]) trivial))
  simp only [RunQueue.syscall, RunQueue.fork, RunQueue.takePid, hfree] at hs
  have hchild := hs.rest _ (List.mem_cons_self ..)
  have hcur : k.current = 2 := hs.current
  have hpid : k.pid k.current = 2 := hs.current ▸ hs.head.pid
  have hin : k.InRing 3 :=
    hs.inRing_iff.mpr ⟨_, List.mem_cons_of_mem _ (List.mem_cons_self ..), rfl⟩
  have htarget : k.Target 3 3 := ⟨by decide, by decide, hin, hchild.pid⟩
  have hstate : k.state 3 = .queued := hchild.state
  have hruns := killKern_runs hs.ring 3 3
  obtain ⟨⟨r, k'⟩, hrun, hres⟩ := hruns.exists_eq_some (by simp [RunQueue.setSlot])
  rcases hres with ⟨hself, -⟩ | ⟨-, hr, hsame⟩
  · exact absurd (hpid.symm.trans hself.self.pid_eq) (by decide)
  · obtain rfl : r = -1 := hr
    refine ⟨k, hk, htarget, hstate, k', hrun, ?_, fun h => ?_⟩
    · have hkept : k'.state = k.state := by
        have := congrArg Kernel.state hsame
        exact this
      rw [hkept]
      exact hstate
    · exact absurd (h.target ⟨3, htarget⟩).1 (by decide)

end SnowOs.Kernel
