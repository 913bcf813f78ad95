import SnowOs.ProcessRing

/-!
# How long a queued process waits

The position of a QUEUED process is the number of ring members between
`current_process` and it. A call of `scheduler` takes the zombies out of the
ring and moves the entry to the first block behind it, so the position goes
down by one at least, or the process runs. A fork puts the child right
behind the entry, in front of everybody. Nothing else moves a queued process
back: `exec_vpe` replaces the entry, and the calls that end a process only
mark it.

So along a run the position plus the calls of `scheduler` stays within the
first position plus the forks (`RunQueue.Queued.syscall` for one turn), as
long as the process has not run.
-/

namespace SnowOs

open Linked Function

namespace Kernel

/-! ## Positions and counted runs -/

/-- The block `p` is QUEUED, with `d` ring members between `current_process`
and it. -/
def Queued (k : Kernel) (p : Word) (d : Nat) : Prop :=
  k.state p = .queued ∧ ∃ l₁ l₂, Ring k.next k.current (l₁ ++ p :: l₂) ∧ l₁.length = d

def IsRunning (k : Kernel) (p : Word) : Prop := k.current = p ∧ k.state p = .running

/-- The calls of `scheduler` in a system call with this result: `wait` goes
there if it has found a child, but no zombie, and then has no value yet. -/
def Syscall.schedules : Syscall → Option Int → Nat
  | .exit, _ => 1
  | .yield, _ => 1
  | .wait, r => if r = none then 1 else 0
  | .waitPid _, r => if r = none then 1 else 0
  | _, _ => 0

def Syscall.forks : Syscall → Nat
  | .fork => 1
  | _ => 0

/-- A turn (`Step`) with the calls of `scheduler` and of `fork` in it. -/
inductive Tick (idle : Word) (may : Caller → Syscall → Prop) : Kernel → Nat → Nat → Kernel → Prop
  | idle {k k' : Kernel} {fuel : Nat} {block : Word} :
      k.current = idle → ¬ k.InRing block → k.scheduler fuel block = some k' →
      Tick idle may k 1 0 k'
  | call {k k' : Kernel} {fuel : Nat} {block : Word} {c : Syscall} {r : Option Int} :
      k.current ≠ idle → k.cont k.current = .user → ¬ k.InRing block →
      may k.caller c → k.syscall fuel block c = some (r, k') →
      Tick idle may k (c.schedules r) c.forks k'
  | resume {k k' : Kernel} {fuel : Nat} {block : Word} {pid : Option Int} {it prev : Word}
      {r : Option Int} :
      k.current ≠ idle → k.cont k.current = .waiting pid it prev → ¬ k.InRing block →
      k.resume fuel block = some (r, k') → Tick idle may k (if r = none then 1 else 0) 0 k'

/-- Turns from `k` with `n` calls of `scheduler` and `f` forks, through the
states `ks`, newest first, to `k'`. -/
inductive Ticks (idle : Word) (may : Caller → Syscall → Prop) (k : Kernel) :
    Nat → Nat → List Kernel → Kernel → Prop
  | refl : Ticks idle may k 0 0 [] k
  | tick {n f n' f' : Nat} {ks : List Kernel} {k₁ k₂ : Kernel} :
      Ticks idle may k n f ks k₁ → Tick idle may k₁ n' f' k₂ →
      Ticks idle may k (n + n') (f + f') (k₂ :: ks) k₂

end Kernel

/-! ## Positions in the queue -/

namespace RunQueue

open Kernel (Syscall)

/-- A QUEUED process with the block `p` behind the head, `d` others between. -/
def Queued (s : RunQueue) (p : Word) (d : Nat) : Prop :=
  ∃ l₁ x l₂, s.rest = l₁ ++ x :: l₂ ∧ x.addr = p ∧ x.state = .queued ∧ l₁.length = d

/-- From position `d`, after `n` calls of `scheduler` and `f` forks. -/
def Advanced (s : RunQueue) (p : Word) (d n f : Nat) : Prop :=
  (s.head.addr = p ∧ s.head.state = .running) ∨ ∃ d', s.Queued p d' ∧ d' + n ≤ d + f

namespace Queued

variable {s : RunQueue} {p block : Word} {d : Nat}

theorem advanced (h : s.Queued p d) : s.Advanced p d 0 0 := Or.inr ⟨d, h, Nat.le_refl _⟩

theorem rest_ne_nil (h : s.Queued p d) : s.rest ≠ [] := by
  obtain ⟨l₁, x, l₂, hs, -⟩ := h
  simp [hs]

theorem fork (h : s.Queued p d) : (s.fork block).2.Queued p (d + 1) := by
  obtain ⟨l₁, x, l₂, hs, hx, hq, rfl⟩ := h
  exact ⟨_ :: l₁, x, l₂, by rw [fork_rest, hs]; rfl, hx, hq, rfl⟩

theorem killProcess (h : s.Queued p d) : s.killProcess.Queued p d := by
  rw [RunQueue.killProcess, if_neg h.rest_ne_nil]
  obtain ⟨l₁, x, l₂, hs, hx, hq, rfl⟩ := h
  refine ⟨l₁.map (Proc.adopt s.head), Proc.adopt s.head x, l₂.map (Proc.adopt s.head), ?_,
    (Proc.adopt_addr ..).trans hx, (Proc.adopt_state ..).trans hq, List.length_map ..⟩
  show s.rest.map _ = _
  rw [hs, List.map_append, List.map_cons]

theorem killKern (h : s.Queued p d) (pid : Int) : (s.killKern pid).2.Queued p d := by
  unfold RunQueue.killKern
  split_ifs
  all_goals first | exact h | exact h.killProcess

/-- Zombies in front of the process are gone, the process itself stays. -/
theorem waitAll (h : s.Queued p d) : ∃ d' ≤ d, s.waitAll.Queued p d' := by
  obtain ⟨l₁, x, l₂, hs, hx, hq, rfl⟩ := h
  refine ⟨_, List.length_filter_le (·.state ≠ .zombie) l₁, _, x, l₂.filter (·.state ≠ .zombie), ?_,
    hx, hq, rfl⟩
  rw [waitAll_rest, hs, List.filter_append, List.filter_cons_of_pos (by simp [hq])]

theorem reap (h : s.Queued p d) {z : Proc} (hz : z.state = .zombie) :
    ∃ d' ≤ d, (s.reap z).Queued p d' := by
  obtain ⟨l₁, x, l₂, hs, hx, hq, rfl⟩ := h
  have hne : x ≠ z := fun heq => by rw [heq, hz] at hq; cases hq
  have hrest : (s.reap z).rest = (l₁ ++ x :: l₂).erase z := congrArg (List.erase · z) hs
  by_cases hmem : z ∈ l₁
  · rw [List.erase_append_left _ hmem] at hrest
    exact ⟨_, (List.length_erase_le ..), _, x, l₂, hrest, hx, hq, rfl⟩
  · rw [List.erase_append_right _ hmem, List.erase_cons_tail (by simpa using hne)] at hrest
    exact ⟨_, Nat.le_refl _, l₁, x, _, hrest, hx, hq, rfl⟩

theorem switch (h : s.Queued p d) : s.switch.Advanced p d 1 0 := by
  obtain ⟨l₁, x, l₂, hs, hx, hq, rfl⟩ := h
  unfold RunQueue.switch
  rw [hs]
  cases l₁ with
  | nil => exact Or.inl ⟨hx, rfl⟩
  | cons c l₁ =>
      exact Or.inr ⟨_, ⟨l₁, x, l₂ ++ [s.head.suspend], by simp, hx, hq, rfl⟩, Nat.le_refl _⟩

theorem scheduler (h : s.Queued p d) : s.scheduler.Advanced p d 1 0 := by
  obtain ⟨d₁, hd₁, h₁⟩ := h.waitAll
  refine h₁.switch.imp id fun ⟨d', h', hd'⟩ => ⟨d', h', ?_⟩
  exact hd'.trans hd₁

theorem waitFor (h : s.Queued p d) (pid : Option Int) :
    (s.waitFor pid).2.Advanced p d (if (s.waitFor pid).1 = none then 1 else 0) 0 := by
  unfold RunQueue.waitFor
  split
  next x hf =>
    obtain ⟨d', hd', h'⟩ := h.reap (zombie_of_find hf).2.2
    exact Or.inr ⟨d', h', hd'⟩
  next =>
    split
    · exact scheduler (s := s.setWaits _) h
    · exact Or.inr ⟨d, h, Nat.le_refl _⟩

/-- One system call: the position and the calls of `scheduler` are paid for
by the old position and the forks. -/
theorem syscall (h : s.Queued p d) (c : Syscall) :
    (s.syscall block c).2.Advanced p d (c.schedules (s.syscall block c).1) c.forks := by
  cases c with
  | fork => exact Or.inr ⟨d + 1, h.fork, Nat.le_refl _⟩
  | execVpe found =>
      cases found with
      | false => exact h.advanced
      | true => exact Or.inr ⟨d, h, Nat.le_refl _⟩
  | exit => exact h.killProcess.scheduler
  | kill pid => exact (h.killKern pid).advanced
  | yield => exact h.scheduler
  | wait => exact h.waitFor none
  | waitPid pid => exact h.waitFor (some pid)

end Queued

end RunQueue

/-! ## Positions in the ring -/

namespace RingHolds

variable {k : Kernel} {s : RunQueue} {p : Word} {d n f : Nat}

theorem queued_iff (h : RingHolds k s) : k.Queued p d ↔ s.Queued p d := by
  constructor
  · rintro ⟨hq, l₁, l₂, hring, rfl⟩
    obtain ⟨m₁, m₂, hs, rfl, hm₂⟩ := List.map_eq_append_iff.mp (h.ring.unique hring)
    obtain ⟨x, m₂, rfl, rfl, rfl⟩ := List.map_eq_cons_iff.mp hm₂
    have hx := (h.rest x (hs ▸ List.mem_append_right _ (List.mem_cons_self ..))).state
    exact ⟨m₁, x, m₂, hs, rfl, hx.symm.trans hq, (List.length_map _).symm⟩
  · rintro ⟨l₁, x, l₂, hs, rfl, hq, rfl⟩
    have hx := (h.rest x (hs ▸ List.mem_append_right _ (List.mem_cons_self ..))).state
    refine ⟨hx.trans hq, l₁.map Proc.addr, l₂.map Proc.addr, ?_, List.length_map _⟩
    have hring := h.ring
    rwa [hs, List.map_append, List.map_cons] at hring

theorem advanced (h : RingHolds k s) (hs : s.Advanced p d n f) :
    k.IsRunning p ∨ ∃ d', k.Queued p d' ∧ d' + n ≤ d + f := by
  rcases hs with ⟨hp, hr⟩ | ⟨d', hq, hd'⟩
  · exact Or.inl ⟨h.current.trans hp, hp ▸ h.head.state.trans hr⟩
  · exact Or.inr ⟨d', h.queued_iff.mpr hq, hd'⟩

end RingHolds

namespace Kernel

variable {idle p : Word} {may : Caller → Syscall → Prop} {k k' : Kernel} {d n f : Nat}

theorem Tick.step (h : Tick idle may k n f k') : Step idle may k k' := by
  cases h with
  | idle hidle hb heq => exact .idle hidle hb heq
  | call hidle huser hb hmay heq => exact .call hidle huser hb hmay heq
  | resume hidle hwait hb heq => exact .resume hidle hwait hb heq

theorem Ticks.reach {ks : List Kernel} (h : Ticks idle may k n f ks k') (hk : Reach idle may k) :
    Reach idle may k' := by
  induction h with
  | refl => exact hk
  | tick _ ht ih => exact ih.step ht.step

theorem Tick.advanced (h : Tick idle may k n f k') (hk : Reach idle may k) (hp : k.Queued p d) :
    k'.IsRunning p ∨ ∃ d', k'.Queued p d' ∧ d' + n ≤ d + f := by
  obtain ⟨s, hreach, hs⟩ := hk.refines
  have hsch := hreach.scheduled
  have hq := hs.queued_iff.mp hp
  cases h with
  | idle _ _ heq => exact ((hs.scheduler hsch).of_eq_some heq).advanced hq.scheduler
  | @call _ _ block c r hidle _ hb _ heq =>
      obtain ⟨hr, hs'⟩ := (hs.syscall hsch hidle hb c).of_eq_some heq
      obtain rfl : r = (s.syscall block c).1 := hr
      exact hs'.advanced (hq.syscall c)
  | @resume _ _ _ _ _ _ r _ hwait _ heq =>
      obtain ⟨hr, hs'⟩ := hs.resume.of_eq_some heq
      have hcont := hs.head.cont
      rw [← hs.current, hwait] at hcont
      unfold RunQueue.resume at hr hs'
      cases hw : s.head.waits with
      | none =>
          rw [hw] at hcont
          cases hcont
      | some pid =>
          rw [hw] at hr hs'
          obtain rfl : r = some (-1) := hr
          exact hs'.advanced (s := s.setWaits none) hq.advanced

/-- A run: while `p` has not run, its position and the calls of `scheduler`
are within its first position and the forks. -/
theorem Ticks.advanced {ks : List Kernel} (h : Ticks idle may k n f ks k')
    (hk : Reach idle may k) (hp : k.Queued p d) :
    (∃ k₁ ∈ ks, k₁.IsRunning p) ∨ ∃ d', k'.Queued p d' ∧ d' + n ≤ d + f := by
  induction h with
  | refl => exact Or.inr ⟨d, hp, Nat.le_refl _⟩
  | @tick n f n' f' ks k₁ k₂ hts ht ih =>
      rcases ih with ⟨k₃, hk₃, hrun⟩ | ⟨d₁, hq, hd₁⟩
      · exact Or.inl ⟨k₃, List.mem_cons_of_mem _ hk₃, hrun⟩
      · rcases ht.advanced (hts.reach hk) hq with hrun | ⟨d₂, hq₂, hd₂⟩
        · exact Or.inl ⟨k₂, List.mem_cons_self .., hrun⟩
        · exact Or.inr ⟨d₂, hq₂, by omega⟩

/-! ## Main result -/

/-- What the operations do to the position `d` of the QUEUED process `p`, and
how many calls of `scheduler` it waits for in a run. -/
structure BoundedOvertaking (idle : Word) (may : Caller → Syscall → Prop) (k : Kernel) (p : Word)
    (d : Nat) : Prop where
  scheduler : ∀ block, Delivers (fun fuel => k.scheduler fuel block) fun k' =>
    k'.IsRunning p ∨ ∃ d' < d, k'.Queued p d'
  fork : ∀ block, ¬ k.InRing block → (k.fork block).2.Queued p (d + 1)
  execVpe : ∀ block found, ¬ k.InRing block →
    Delivers (fun fuel => k.execVpe fuel block found) fun r => r.2.Queued p d
  kill : ∀ pid, Delivers (fun fuel => k.killKern fuel pid) fun r => r.2.Queued p d
  exit : Delivers (fun fuel => k.killProcess fuel k.current) fun k' => k'.Queued p d
  runs : ∀ n f ks k', Ticks idle may k n f ks k' → d + 1 + f ≤ n → ∃ k₁ ∈ ks, k₁.IsRunning p

theorem Reach.boundedOvertaking (idle : Word) (may : Caller → Syscall → Prop) (k : Kernel)
    (hk : Reach idle may k) (p : Word) (d : Nat) (hp : k.Queued p d) :
    BoundedOvertaking idle may k p d := by
  obtain ⟨s, hreach, hs⟩ := hk.refines
  have hq := hs.queued_iff.mp hp
  refine ⟨fun block => ⟨s.rest.length, fun fuel => ?_⟩, fun block hb => ?_,
    fun block found hb => ⟨s.rest.length, fun fuel => ?_⟩,
    fun pid => ⟨s.rest.length, fun fuel => ?_⟩, ⟨s.rest.length, fun fuel => ?_⟩,
    fun n f ks k' hrun hn => ?_⟩
  · refine (hs.scheduler hreach.scheduled).imp id fun k' hs' => ?_
    exact (hs'.advanced hq.scheduler).imp id fun ⟨d', hq', hd'⟩ => ⟨d', hd', hq'⟩
  · exact (hs.fork hb).2.queued_iff.mpr hq.fork
  · cases found with
    | false => exact hp
    | true =>
        exact (hs.execVpe hb hq.rest_ne_nil).imp id fun r hr => hr.2.queued_iff.mpr hq
  · exact (hs.killKern pid).imp id fun r hr => hr.2.queued_iff.mpr (hq.killKern pid)
  · exact hs.killProcess.imp id fun k' hs' => hs'.queued_iff.mpr hq.killProcess
  · refine (hrun.advanced hk hp).resolve_right ?_
    rintro ⟨d', -, hd'⟩
    omega

/-- `init` has forked: the child is in front of idle. -/
theorem Reach.boundedOvertaking_forked :
    ∃ k, Reach 1 (fun _ _ => True) k ∧ k.Queued 1 1 ∧
      BoundedOvertaking 1 (fun _ _ => True) k 1 1 := by
  obtain ⟨ppid, slots, w, -, hlift⟩ := Reach.of_init_runs (fun _ _ => True)
  obtain ⟨k, hk, hs⟩ := hlift (.single (.call (c := .fork)
    (show (2 : Word) ≠ 1 by decide) rfl
    (show RunQueue.Fresh _ 3 by simp [RunQueue.Fresh, RunQueue.procs]) trivial))
  have hq : k.Queued 1 1 := hs.queued_iff.mpr (RunQueue.Queued.fork ⟨[], _, [], rfl, rfl, rfl, rfl⟩)
  exact ⟨k, hk, hq, Reach.boundedOvertaking 1 _ k hk 1 1 hq⟩

end Kernel

end SnowOs
