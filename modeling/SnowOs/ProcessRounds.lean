import SnowOs.DirectHeap

/-!
# Rounds of fork, exit and reap

`kfree` gives a frame back only when its count is zero, and the count of a
frame that was handed out never drops to zero. So nothing that
`shallow_cleanup`, `clean_page_tables` and `reap_process` free goes back
to the free list: each round costs at least the nine pages of the child's
`kthread_t` (`Booted.rounds_leak`).
-/

namespace SnowOs

open Radix Machine

namespace World

/-! ## Rounds -/

/-- A process forks, the child runs and exits, and it is reaped, with
anything in between. -/
inductive Round (y : World) : World → Prop
  | mk {p : MemProc} {fuel exitFuel : Nat} {y₁ y₂ : World} :
      y.Current p → (0 : Word) ∉ (y.fork fuel p).machine.log →
      Run (y.fork fuel p) y₁ → y₁.Current (y.child fuel p) →
      Run (y₁.setSpace (y₁.space.shallowCleanup exitFuel (y.child fuel p).task)) y₂ →
      y.child fuel p ∈ y₂.procs → y₂.machine.cr3 ∈ (y₂.reapProcess (y.child fuel p)).roots →
      Round y (y₂.reapProcess (y.child fuel p))

/-- `k` rounds, with anything in between. -/
inductive Rounds (y : World) : Nat → World → Prop
  | zero : Rounds y 0 y
  | succ {k : Nat} {y₁ y₂ y₃ : World} : Rounds y k y₁ → Run y₁ y₂ → Round y₂ y₃ →
      Rounds y (k + 1) y₃

section Rounds

variable {y y' : World} {pdpt : Word}

theorem Run.log (hrun : Run y y') (hlog : (0 : Word) ∉ y.machine.log) :
    (0 : Word) ∉ y'.machine.log := by
  cases hrun with
  | refl => exact hlog
  | step _ _ hlog' => exact hlog'

theorem fork_length_log (y : World) (fuel : Nat) (p : MemProc) :
    y.machine.log.length + 9 ≤ (y.fork fuel p).machine.log.length := by
  have hkthread := y.machine.kmalloc_length_log sizeofKthread
  have hpages : noOfPages sizeofKthread = 9 := rfl
  rw [hpages] at hkthread
  exact hkthread.trans (y.space.fork_kthread_log_suffix fuel p.task).length_le

/-- A round keeps the world in order and takes nine frames or more. -/
theorem Round.ok (hround : Round y y') (h : y.Ok pdpt) :
    y'.Ok pdpt ∧ ∃ ts, y.machine.Charges ts y'.machine ∧ 9 ≤ ts.length ∧
      (0 : Word) ∉ y'.machine.log := by
  obtain @⟨p, fuel, exitFuel, y₁, y₂, hp, hlog, hrun₁, hcur, hrun₂, hc, hcr3⟩ := hround
  obtain ⟨roots, hdoes⟩ := h.does (.fork fuel hp) hlog
  have hfork := hdoes.ok h hlog
  obtain ⟨ts₁, hts₁⟩ := hdoes.work.charges
  obtain ⟨hy₁, ts₂, hts₂⟩ := hrun₁.ok hfork
  rw [hy₁.shallowCleanup hcur.1] at hrun₂
  obtain ⟨hy₂, ts₃, hts₃⟩ := hrun₂.ok hy₁
  have hlog₂ := hrun₂.log (hrun₁.log hlog)
  obtain ⟨_, hreap⟩ := hy₂.does (.reap hc hcr3) (by rwa [hy₂.reapProcess hc])
  rw [hy₂.reapProcess hc] at hreap ⊢
  refine ⟨hreap.ok hy₂ hlog₂, _, (hts₁.trans hts₂.charges).trans hts₃.charges, ?_, hlog₂⟩
  have hnine := y.fork_length_log fuel p
  rw [hts₁.draws.log, List.length_append] at hnine
  rw [List.length_append, List.length_append]
  omega

theorem Round.freeList (hround : Round y y') (h : y.Ok pdpt) :
    ∃ l l', y.machine.phys.FreeList l ∧ y'.machine.phys.FreeList l' ∧
      l'.length + 9 ≤ l.length := by
  obtain ⟨-, ts, hcharges, hnine, hlog⟩ := hround.ok h
  obtain ⟨l, hbooks⟩ := h.books
  obtain ⟨l', hbooks', hsum⟩ := hbooks.charges hcharges hlog
  refine ⟨l, l', hbooks.counted.list, hbooks'.counted.list, ?_⟩
  rw [hcharges.draws.log, List.length_append] at hsum
  omega

theorem Rounds.ok {k : Nat} (hrounds : Rounds y k y') (h : y.Ok pdpt) :
    y'.Ok pdpt ∧ 9 * k ≤ y'.machine.log.length := by
  induction hrounds with
  | zero => exact ⟨h, Nat.zero_le _⟩
  | succ _ hrun hround ih =>
      obtain ⟨hok, hle⟩ := ih
      obtain ⟨hok₂, us, hus⟩ := hrun.ok hok
      obtain ⟨hok₃, ts, hts, hnine, -⟩ := hround.ok hok₂
      refine ⟨hok₃, ?_⟩
      rw [hts.draws.log, hus.charges.draws.log, List.length_append, List.length_append]
      omega

theorem Ok.exists_round {p : MemProc} {fuel : Nat} (h : y.Ok pdpt) (hp : y.Current p)
    (hlog : (0 : Word) ∉ (y.fork fuel p).machine.log) : ∃ y', Round y y' := by
  obtain ⟨roots, hdoes⟩ := h.does (.fork fuel hp) hlog
  have hfork := hdoes.ok h hlog
  have hchild : y.child fuel p ∈ (y.fork fuel p).procs := List.mem_cons_self ..
  have hrun₁ := Run.step .refl (.switch hchild) hlog
  obtain ⟨hy₁, -⟩ := hrun₁.ok hfork
  generalize hy : (y.fork fuel p).setMachine
    ((y.fork fuel p).machine.setNewCr3 (y.child fuel p).task.cr3) = y₁ at hrun₁ hy₁
  have hswitch : Step y₁ ((y.fork fuel p).setMachine
      ((y.fork fuel p).machine.setNewCr3 p.task.cr3)) := by
    subst hy
    exact .switch (List.mem_cons_of_mem _ hp.1)
  have hcur : y₁.Current (y.child fuel p) := by
    subst hy
    exact ⟨hchild, rfl⟩
  have hexit : y₁.setSpace (y₁.space.shallowCleanup 0 (y.child fuel p).task) = y₁ := by
    rw [hy₁.shallowCleanup hcur.1]
    rfl
  have hrun₂ := Run.step .refl hswitch hlog
  rw [← hexit] at hrun₂
  refine ⟨_, .mk hp hlog hrun₁ hcur hrun₂ hchild ?_⟩
  have hrest : (y.fork fuel p).procs.erase (y.child fuel p) = y.procs := List.erase_cons_head ..
  show p.task.cr3 ∈ ((y.fork fuel p).procs.erase (y.child fuel p)).map fun q => q.task.cr3
  rw [hrest]
  exact mem_roots hp.1

/-- A new process becomes the current one, and its fork is served. -/
theorem Ok.exists_run_fork {total used : Nat} {file : Option (List Space.Elf64Phdr)}
    (h : y.Ok pdpt) (hfile : Space.Loadable file)
    (hacc : (y.createProcess file).machine.Account total used)
    (hfit : 2 * used + 114 ≤ total) :
    ∃ y' p, Run y y' ∧ y'.Current p ∧ (y'.fork 3 p).machine.Account total (2 * used + 105) := by
  have hrun := Run.step .refl (.createProcess hfile) hacc.log
  obtain ⟨p, hp⟩ : ∃ p, p ∈ (y.createProcess file).procs := ⟨_, List.mem_cons_self ..⟩
  have hswitch := hrun.step (.switch hp) hacc.log
  obtain ⟨hy, -⟩ := hswitch.ok h
  obtain ⟨lab, l, hF⟩ := hy.owned.sound
  have hfork := Space.fork_account hF (hacc.congr rfl rfl) 3 p.task (by omega)
  exact ⟨_, p, hswitch, ⟨hp, rfl⟩, hfork⟩

theorem Ok.exists_run_round {total used : Nat} {file : Option (List Space.Elf64Phdr)}
    (h : y.Ok pdpt) (hfile : Space.Loadable file)
    (hacc : (y.createProcess file).machine.Account total used)
    (hfit : 2 * used + 114 ≤ total) : ∃ y' y'', Run y y' ∧ Round y' y'' := by
  obtain ⟨y', p, hrun, hp, hfork⟩ := h.exists_run_fork hfile hacc hfit
  obtain ⟨y'', hround⟩ := (hrun.ok h).1.exists_round hp hfork.log
  exact ⟨y', y'', hrun, hround⟩

end Rounds

end World

/-- **Rounds leak.** In every run from zeroed memory, a round leaves at
least nine frames fewer on the free list, so only finitely many rounds can
be run. -/
theorem Booted.rounds_leak {physfree base length : Word} {m m' : Machine} {y : World}
    (h : Booted physfree base length m m') (hzero : m.RestZero physfree base length)
    (hrun : World.Run (World.boot m') y) :
    (∀ y', World.Round y y' → ∃ l l', y.machine.phys.FreeList l ∧
      y'.machine.phys.FreeList l' ∧ l'.length + 9 ≤ l.length) ∧
      ∀ k y', World.Rounds y k y' → 9 * k ≤ maxPages := by
  obtain ⟨pdpt, hok⟩ := h.ok hzero
  obtain ⟨hy, -⟩ := hrun.ok hok
  refine ⟨fun y' hround => hround.freeList hy, fun k y' hrounds => ?_⟩
  obtain ⟨hy', hle⟩ := hrounds.ok hy
  obtain ⟨l, hbooks⟩ := hy'.books
  exact hle.trans hbooks.length_log

theorem exists_round_small : ∃ m' y y', Booted 0x400000 0 0x900000 (filledMachine 0) m' ∧
    World.Run (World.boot m') y ∧ World.Round y y' := by
  obtain ⟨m', last, pdpt, hbooted, -, hok, hcreated⟩ := exists_created_small
  obtain ⟨y, y', hrun, hround⟩ := hok.exists_run_round Space.loadable_nil hcreated (by decide)
  exact ⟨m', y, y', hbooted, hrun, hround⟩

theorem rounds_leak_small : ∃ m' y y', World.Run (World.boot m') y ∧ World.Round y y' ∧
    ∃ l l', y.machine.phys.FreeList l ∧ y'.machine.phys.FreeList l' ∧
      l'.length + 9 ≤ l.length := by
  obtain ⟨m', y, y', hbooted, hrun, hround⟩ := exists_round_small
  exact ⟨m', y, y', hrun, hround,
    (hbooted.rounds_leak (filledMachine_restZero _ _ _) hrun).1 y' hround⟩

/-- A round on a small machine after which the free list is shorter. -/
theorem round_changes_freeList : ∃ m' y y',
    Booted 0x400000 0 0x900000 (filledMachine 0) m' ∧ World.Run (World.boot m') y ∧
      World.Round y y' ∧ ∃ l l', y.machine.phys.FreeList l ∧ y'.machine.phys.FreeList l' ∧
        l'.length < l.length := by
  obtain ⟨m', y, y', hbooted, hrun, hround⟩ := exists_round_small
  obtain ⟨pdpt, hok⟩ := hbooted.ok (filledMachine_restZero _ _ _)
  obtain ⟨l, l', hl, hl', hlt⟩ := hround.freeList (hrun.ok hok).1
  exact ⟨m', y, y', hbooted, hrun, hround, l, l', hl, hl', by omega⟩

end SnowOs
