import SnowOs.History
import SnowOs.KernelStacks

/-!
# Runs with context switches

The rest of the kernel is meant not to notice a switch: a process that is
switched to goes on with the registers, the stack and the return address it
was switched out with. A run is any sequence of computations of the process
that runs, switches, new processes, `exec_vpe` going on in a new block and
blocks taken out of the ring. The history of a run says which context each
process has to be given back (`saved`), and every switch gives back that
(`Run.coherent`).
-/

namespace SnowOs.Kthread

open ByteMemory StackMachine

/-! ## Runs -/

/-- What happens to the contexts of the processes. -/
inductive Event
  /-- a stack was built for a new process, with the context it starts in -/
  | spawn (t : Word) (k : Context)
  /-- `t` called `switch_to` in one context, and `u` was given the other -/
  | switch (t u : Word) (left taken : Context)
  /-- the block was taken out of the ring -/
  | reap (t : Word)

def save (saved : Word → Option Context) : Event → Word → Option Context
  | .spawn t k => Function.update saved t (some k)
  | .switch t u left _ => Function.update (Function.update saved u none) t (some left)
  | .reap t => Function.update saved t none

def saved (history : List Event) : Word → Option Context := history.foldl save fun _ => none

@[simp] theorem saved_concat (history : List Event) (e : Event) :
    saved (history ++ [e]) = save (saved history) e := by
  rw [saved, List.foldl_append]
  rfl

/-- The blocks of processes, apart from each other and from
`current_process`. -/
structure Blocks (var : Word) (block : Word → Prop) : Prop where
  apart : ∀ {t u}, block t → block u → t ≠ u → ∀ x, ContextSpan t x → ¬ ContextSpan u x
  var : ∀ {t}, block t → ∀ x, ContextSpan t x → ¬ InSpan var 8 x

/-- Blocks are apart when their numbers are, as far as the stack reaches. -/
theorem blocks_of_disjoint {var : Word} {block : Word → Prop}
    (htop : ∀ t, block t → t.toNat + 8 * (2 + kStackSize) ≤ 2 ^ 64)
    (hdisjoint : ∀ t u, block t → block u → t ≠ u →
      t.toNat + 8 * (2 + kStackSize) ≤ u.toNat ∨ u.toNat + 8 * (2 + kStackSize) ≤ t.toNat)
    (hvar : var.toNat + 8 ≤ 2 ^ 64)
    (hout : ∀ t, block t → var.toNat + 8 ≤ t.toNat ∨ t.toNat + 8 * (2 + kStackSize) ≤ var.toNat) :
    Blocks var block where
  apart {t u} ht hu hne x hx hx' := by
    have hxt := hx.bounds (htop t ht)
    have hxu := hx'.bounds (htop u hu)
    rcases hdisjoint t u ht hu hne with h | h <;> omega
  var {t} ht x hx hx' := by
    have hxt := hx.bounds (htop t ht)
    have hxv := hx'.bounds hvar
    rcases hout t ht with h | h <;> omega

/-- Two blocks, with the variable before them. -/
def TwoBlocks (t : Word) : Prop := t = 0x10000 ∨ t = 0x20000

theorem twoBlocks_blocks : Blocks 0x1000 TwoBlocks := by
  refine blocks_of_disjoint ?_ ?_ (by decide) ?_
  · rintro t (rfl | rfl) <;> decide
  · rintro t u (rfl | rfl) (rfl | rfl) hne
    · exact absurd rfl hne
    · exact Or.inl (by decide)
    · exact Or.inr (by decide)
    · exact absurd rfl hne
  · rintro t (rfl | rfl) <;> exact Or.inl (by decide)

/-- Memory that belongs to processes that wait, but for `t`. -/
def Waiting (history : List Event) (t x : Word) : Prop :=
  ∃ u, u ≠ t ∧ saved history u ≠ none ∧ ContextSpan u x

/-- Runs of the machine from `c₀` on. Between two events the registers and
the memory change in any way that leaves the contexts of processes that wait
alone, and `current_process` as well. -/
inductive Run (var : Word) (block : Word → Prop) (c₀ : Cpu Reg) : List Event → Cpu Reg → Prop
  | start : Run var block c₀ [] c₀
  | compute {history : List Event} {c c' : Cpu Reg} : Run var block c₀ history c →
      word c'.mem var = word c.mem var →
      (∀ x, Waiting history (word c.mem var) x → c'.mem x = c.mem x) →
      Run var block c₀ history c'
  /-- `exec_vpe` goes on in a block of its own -/
  | replace {history : List Event} {c c' : Cpu Reg} : Run var block c₀ history c →
      block (word c'.mem var) → saved history (word c'.mem var) = none →
      (∀ x, Waiting history (word c.mem var) x → c'.mem x = c.mem x) →
      Run var block c₀ history c'
  | spawn {history : List Event} {c c' : Cpu Reg} {t : Word} {k : Context} :
      Run var block c₀ history c → block t → t ≠ word c.mem var → Suspended c'.mem t k →
      word c'.mem var = word c.mem var →
      (∀ x, Waiting history t x → c'.mem x = c.mem x) →
      Run var block c₀ (history ++ [.spawn t k]) c'
  | reap {history : List Event} {c : Cpu Reg} {t : Word} : Run var block c₀ history c →
      Run var block c₀ (history ++ [.reap t]) c
  | switch {history : List Event} {c : Cpu Reg} {i : Nat} : Run var block c₀ history c →
      c.regs .rdi = var → saved history (c.regs .rsi) ≠ none →
      c.sp = kStack (word c.mem var) i → 16 ≤ i → i < kStackSize →
      Run var block c₀ (history ++ [.switch (word c.mem var) (c.regs .rsi)
        (caller (word c.mem var) c) (context (c.regs .rsi) (exec switchTo c))]) (exec switchTo c)

/-- What holds between events: the process that runs has no context to be
given back, and every other one with such a context lies on its stack. -/
structure Coherent (block : Word → Prop) (var : Word) (history : List Event) (c : Cpu Reg) :
    Prop where
  current : block (word c.mem var)
  running : saved history (word c.mem var) = none
  waiting : ∀ {t k}, saved history t = some k → block t ∧ Suspended c.mem t k

section Run

variable {var : Word} {block : Word → Prop} {history : List Event} {c c' c₀ : Cpu Reg}

theorem Coherent.ne_current (h : Coherent block var history c) {t : Word} {k : Context}
    (ht : saved history t = some k) : t ≠ word c.mem var := by
  rintro rfl
  rw [h.running] at ht
  cases ht

/-- Contexts that are left alone stay as they are. -/
theorem Coherent.suspended (h : Coherent block var history c) {s t : Word} {k : Context}
    (ht : saved history t = some k) (hne : t ≠ s)
    (hkeep : ∀ x, Waiting history s x → c'.mem x = c.mem x) : Suspended c'.mem t k := by
  refine (h.waiting ht).2.congr fun x hx => hkeep x ⟨t, hne, ?_, hx⟩
  rw [ht]
  nofun

theorem Coherent.compute (h : Coherent block var history c)
    (hvar : word c'.mem var = word c.mem var)
    (hkeep : ∀ x, Waiting history (word c.mem var) x → c'.mem x = c.mem x) :
    Coherent block var history c' where
  current := by
    rw [hvar]
    exact h.current
  running := by
    rw [hvar]
    exact h.running
  waiting ht := ⟨(h.waiting ht).1, h.suspended ht (h.ne_current ht) hkeep⟩

theorem Coherent.replace (h : Coherent block var history c) (hblock : block (word c'.mem var))
    (hnone : saved history (word c'.mem var) = none)
    (hkeep : ∀ x, Waiting history (word c.mem var) x → c'.mem x = c.mem x) :
    Coherent block var history c' where
  current := hblock
  running := hnone
  waiting ht := ⟨(h.waiting ht).1, h.suspended ht (h.ne_current ht) hkeep⟩

theorem Coherent.spawn (h : Coherent block var history c) {t : Word} {k : Context}
    (hblock : block t) (hne : t ≠ word c.mem var) (hsusp : Suspended c'.mem t k)
    (hvar : word c'.mem var = word c.mem var)
    (hkeep : ∀ x, Waiting history t x → c'.mem x = c.mem x) :
    Coherent block var (history ++ [.spawn t k]) c' := by
  refine ⟨?_, ?_, fun {u l} hu => ?_⟩
  · rw [hvar]
    exact h.current
  · rw [hvar, saved_concat, save, Function.update_of_ne hne.symm]
    exact h.running
  · rw [saved_concat, save] at hu
    by_cases hut : u = t
    · subst hut
      rw [Function.update_self] at hu
      obtain rfl := Option.some.inj hu
      exact ⟨hblock, hsusp⟩
    · rw [Function.update_of_ne hut] at hu
      exact ⟨(h.waiting hu).1, h.suspended hu hut hkeep⟩

theorem Coherent.reap (h : Coherent block var history c) (t : Word) :
    Coherent block var (history ++ [.reap t]) c := by
  refine ⟨h.current, ?_, fun {u l} hu => ?_⟩
  · rw [saved_concat, save, Function.update_apply]
    split
    · rfl
    · exact h.running
  · rw [saved_concat, save, Function.update_apply] at hu
    split at hu
    · cases hu
    · exact h.waiting hu

/-- A switch gives back the context of the process it goes to, and the new
history has that of the process it leaves. -/
theorem Coherent.switch (hblocks : Blocks var block) (h : Coherent block var history c)
    {i : Nat} {k : Context} (harg : c.regs .rdi = var) (hk : saved history (c.regs .rsi) = some k)
    (hsp : c.sp = kStack (word c.mem var) i) (hlow : 16 ≤ i) (hhigh : i < kStackSize) :
    context (c.regs .rsi) (exec switchTo c) = k ∧
      Coherent block var (history ++ [.switch (word c.mem var) (c.regs .rsi)
        (caller (word c.mem var) c) (context (c.regs .rsi) (exec switchTo c))]) (exec switchTo c) := by
  have hat : AtSwitch var c (word c.mem var) :=
    ⟨harg, rfl, ⟨i, hlow, hhigh, hsp⟩, hblocks.var h.current⟩
  obtain ⟨hblock, hsusp⟩ := h.waiting hk
  have hne := h.ne_current hk
  have hapart : ∀ {u l}, saved history u = some l →
      ∀ x, ContextSpan u x → ¬ ContextSpan (word c.mem var) x ∧ ¬ InSpan var 8 x := fun hu x hx =>
    ⟨hblocks.apart (h.waiting hu).1 h.current (h.ne_current hu) x hx,
      hblocks.var (h.waiting hu).1 x hx⟩
  obtain ⟨htaken, hvar, hleft, hframe⟩ := exec_switchTo hat rfl hsusp (hapart hk)
  refine ⟨htaken, ?_, ?_, fun {u l} hu => ?_⟩
  · rw [hvar]
    exact hblock
  · rw [hvar, saved_concat, save, Function.update_of_ne hne, Function.update_self]
  · rw [saved_concat, save, Function.update_apply] at hu
    split at hu
    case isTrue hcur =>
      obtain rfl := Option.some.inj hu
      rw [hcur]
      exact ⟨h.current, hleft⟩
    case isFalse hcur =>
      rw [Function.update_apply] at hu
      split at hu
      · cases hu
      · refine ⟨(h.waiting hu).1, (h.waiting hu).2.congr fun x hx => ?_⟩
        exact hframe x (hapart hu x hx).1 (hapart hu x hx).2

/-- A switch goes on with the context the process was last left with. -/
def Resumes (before : List Event) : Event → Prop
  | .switch _ u _ taken => saved before u = some taken
  | _ => True

theorem Run.coherent (hblocks : Blocks var block) (hstart : block (word c₀.mem var))
    (h : Run var block c₀ history c) :
    Coherent block var history c ∧ Each Resumes history := by
  induction h with
  | start => exact ⟨⟨hstart, rfl, nofun⟩, each_nil⟩
  | compute _ hvar hkeep ih => exact ⟨ih.1.compute hvar hkeep, ih.2⟩
  | replace _ hblock hnone hkeep ih => exact ⟨ih.1.replace hblock hnone hkeep, ih.2⟩
  | spawn _ hblock hne hsusp hvar hkeep ih =>
      exact ⟨ih.1.spawn hblock hne hsusp hvar hkeep, each_concat.mpr ⟨ih.2, trivial⟩⟩
  | reap _ ih => exact ⟨ih.1.reap _, each_concat.mpr ⟨ih.2, trivial⟩⟩
  | switch _ harg hsome hsp hlow hhigh ih =>
      obtain ⟨k, hk⟩ := Option.ne_none_iff_exists'.mp hsome
      obtain ⟨htaken, hcoh⟩ := ih.1.switch hblocks harg hk hsp hlow hhigh
      exact ⟨hcoh, each_concat.mpr ⟨ih.2, hk.trans (congrArg some htaken.symm)⟩⟩

/-- **Switches are not noticed.** In every run, each switch goes on with the
registers, the stack and the return address that the process switched to was
last left with, or was built with. -/
theorem Run.resumes (hblocks : Blocks var block) (hstart : block (word c₀.mem var))
    (h : Run var block c₀ history c) : Each Resumes history :=
  (h.coherent hblocks hstart).2

/-- Any two blocks can be switched between, the second with a stack that
`create_process` built. -/
theorem exists_run_created (hblocks : Blocks var block) {t u : Word} (hu : block u) (hne : u ≠ t) :
    ∃ (c₀ c : Cpu Reg) (history : List Event) (left taken : Context),
      word c₀.mem var = t ∧ Run var block c₀ history c ∧
        history.getLast? = some (.switch t u left taken) := by
  obtain ⟨regs, hsusp⟩ := createStack_suspended (fun _ => 0) u 0x4000
  let c : Cpu Reg := ⟨fun r => if r = .rdi then var else if r = .rsi then u else 0,
    kStack t 100, 0, setWord (createStack (fun _ => 0) u 0x4000) var t⟩
  have hcur : word c.mem var = t := word_setWord_self ..
  have hspawn : Run var block c _ c := Run.start.spawn hu (by rwa [hcur])
    (hsusp.congr fun x hx => setWord_apply (hblocks.var hu x hx)) rfl fun _ _ => rfl
  have hrsi : c.regs .rsi = u := rfl
  have hswitch := hspawn.switch (i := 100) rfl (by
    rw [hrsi, saved_concat, save, Function.update_self]
    nofun) (by rw [hcur]) (by decide) (by decide)
  rw [hcur] at hswitch
  exact ⟨c, _, _, _, _, hcur, hswitch, List.getLast?_concat⟩

theorem Run.resumes_created : ∃ history : List Event, Each Resumes history ∧
    ∃ left taken, history.getLast? = some (.switch 0x10000 0x20000 left taken) := by
  obtain ⟨c₀, c, history, left, taken, hcur, hrun, hlast⟩ :=
    exists_run_created twoBlocks_blocks (t := 0x10000) (u := 0x20000) (.inr rfl) (by decide)
  exact ⟨history, hrun.resumes twoBlocks_blocks (by rw [hcur]; exact .inl rfl), left, taken, hlast⟩

/-! ## `fork` in a run -/

/-- The event is about the context of `t`. -/
def Event.Names (t : Word) : Event → Prop
  | .spawn u _ => u = t
  | .switch u v _ _ => u = t ∨ v = t
  | .reap u => u = t

theorem save_of_not_names {t : Word} {e : Event} (h : ¬ e.Names t)
    (saved : Word → Option Context) : save saved e t = saved t := by
  cases e with
  | spawn u k => exact Function.update_of_ne (Ne.symm h) ..
  | reap u => exact Function.update_of_ne (Ne.symm h) ..
  | switch u v left taken =>
      obtain ⟨hu, hv⟩ := not_or.mp h
      rw [save, Function.update_of_ne (Ne.symm hu), Function.update_of_ne (Ne.symm hv)]

theorem saved_append_of_not_names {t : Word} {later : List Event}
    (h : ∀ e ∈ later, ¬ e.Names t) : saved (history ++ later) t = saved history t := by
  induction later generalizing history with
  | nil => rw [List.append_nil]
  | cons e later ih =>
      rw [List.append_cons, ih fun e' he' => h e' (List.mem_cons_of_mem e he'), saved_concat,
        save_of_not_names (h e List.mem_cons_self)]

/-- `fork` in a run is a new process in the context of its caller. -/
theorem Run.fork (hblocks : Blocks var block) (hstart : block (word c₀.mem var))
    (h : Run var block c₀ history c) {child returnVal rsp diff : Word} {j r : Nat}
    (hchild : block child) (hfork : AtFork c.mem (word c.mem var) child returnVal rsp diff j r)
    (back : Word) (regs : Reg → Word) :
    ∃ m', forkStack kStackSize (word c.mem var) child returnVal rsp diff back regs c.mem = some m' ∧
      stackOf m' (word c.mem var) (kStack (word c.mem var) r)
        = stackOf c.mem (word c.mem var) (kStack (word c.mem var) r) ∧
      ∀ c' : Cpu Reg, c'.mem = m' → Run var block c₀ (history ++ [.spawn child
        (childContext c.mem (word c.mem var) child returnVal regs r)]) c' := by
  have hcoh := (h.coherent hblocks hstart).1
  obtain ⟨m', hm', hsusp, hframe⟩ := forkStack_suspended hfork back regs
  obtain ⟨hj, hjr, hr⟩ := hfork.inside
  refine ⟨m', hm', ?_, fun c' hc' => ?_⟩
  · refine stackOf_congr hr.le fun x hx => hframe x ?_ ?_ ?_
    · exact hfork.apart x (contextSpan_of_stack hx (by omega))
    · exact fun hin => block_apart_stack _ (by omega) x hin hx
    · exact fun hin => kStack_apart _ (by omega) (by omega) x hin hx
  have hout : ∀ x, ¬ ContextSpan child x → ¬ ContextSpan (word c.mem var) x → c'.mem x = c.mem x :=
    fun x hx hx' => by
      rw [hc']
      exact hframe x hx (fun hin => hx' (Or.inl hin)) fun hin => hx' (hfork.contextSpan hin)
  refine h.spawn hchild ?_ (hc' ▸ hsusp) ?_ ?_
  · intro heq
    have hself : ContextSpan child child := Or.inl ⟨0, by decide, by simp⟩
    exact hfork.apart child (heq ▸ hself) hself
  · exact word_congr fun x hx => hout x (fun hin => hblocks.var hchild x hin hx)
      fun hin => hblocks.var hcoh.current x hin hx
  · rintro x ⟨u, hne, hsome, hx⟩
    obtain ⟨k, hk⟩ := Option.ne_none_iff_exists'.mp hsome
    have hu := (hcoh.waiting hk).1
    exact hout x (hblocks.apart hu hchild hne x hx)
      (hblocks.apart hu hcoh.current (hcoh.ne_current hk) x hx)

/-- The first switch to a new process takes the context it was built with. -/
theorem taken_of_spawn (hblocks : Blocks var block) (hstart : block (word c₀.mem var))
    {child t : Word} {k left taken : Context} {later : List Event}
    (hlater : ∀ e ∈ later, ¬ Event.Names child e)
    (h : Run var block c₀ (history ++ [.spawn child k] ++ later ++ [.switch t child left taken])
      c) : taken = k := by
  have hlast := (each_concat.mp (h.coherent hblocks hstart).2).2
  rw [Resumes, saved_append_of_not_names hlater, saved_concat, save, Function.update_self] at hlast
  exact (Option.some.inj hlast).symm

/-- **`fork` returns twice.** The parent's stack is as it was, from the
return address up. In every run that goes on from there, the child runs for
the first time where the parent returns from `fork`, with 0 in `rax` and the
parent's stack behind that call. -/
theorem fork_returns_twice (hblocks : Blocks var block) (hstart : block (word c₀.mem var))
    (h : Run var block c₀ history c) {child returnVal rsp diff : Word} {j r : Nat}
    (hchild : block child) (hfork : AtFork c.mem (word c.mem var) child returnVal rsp diff j r)
    (back : Word) (regs : Reg → Word) :
    ∃ m' k,
      forkStack kStackSize (word c.mem var) child returnVal rsp diff back regs c.mem = some m' ∧
      stackOf m' (word c.mem var) (kStack (word c.mem var) r)
        = stackOf c.mem (word c.mem var) (kStack (word c.mem var) r) ∧
      (∀ c' : Cpu Reg, c'.mem = m' → Run var block c₀ (history ++ [.spawn child k]) c') ∧
      ∀ {later t left taken c''}, (∀ e ∈ later, ¬ Event.Names child e) →
        Run var block c₀ (history ++ [.spawn child k] ++ later ++ [.switch t child left taken]) c'' →
        taken.rip = returnVal ∧ taken.regs .rax = 0 ∧ taken.sp = kStack child (r + 1) ∧
          taken.stack = stackOf c.mem (word c.mem var) (kStack (word c.mem var) (r + 1)) := by
  obtain ⟨m', hm', hstack, hrun⟩ := h.fork hblocks hstart hchild hfork back regs
  refine ⟨m', _, hm', hstack, hrun, fun hlater hswitch => ?_⟩
  obtain rfl := taken_of_spawn hblocks hstart hlater hswitch
  exact ⟨rfl, childContext_rax regs, rfl, rfl⟩

/-- A call of `fork` from word 20 of the stack, with its frame of two words
below. -/
theorem fork_returns_twice_small : ∃ m' k, ∀ {later t left taken c''},
    (∀ e ∈ later, ¬ Event.Names 0x20000 e) →
    Run 0x1000 TwoBlocks forkSample
      ([] ++ [.spawn 0x20000 k] ++ later ++ [.switch t 0x20000 left taken]) c'' →
    forkStack kStackSize 0x10000 0x20000 0x1234 (kStack 0x10000 18) (kStack 0x10000 19) 0
        (fun _ => 0) forkSample.mem = some m' ∧ taken.rip = 0x1234 ∧ taken.regs .rax = 0 := by
  have hcur : word forkSample.mem 0x1000 = 0x10000 := by decide +kernel
  have hfork : AtFork forkSample.mem (word forkSample.mem 0x1000) 0x20000 0x1234
      (kStack 0x10000 18) (kStack 0x10000 19) 18 20 := by
    rw [hcur]
    exact forkSample_atFork
  obtain ⟨m', k, hm', -, -, hfirst⟩ := fork_returns_twice twoBlocks_blocks
    (by rw [hcur]; exact Or.inl rfl) Run.start (Or.inr rfl) hfork 0 fun _ => 0
  rw [hcur] at hm'
  refine ⟨m', k, fun hlater hrun => ⟨hm', ?_⟩⟩
  obtain ⟨hrip, hrax, -⟩ := hfirst hlater hrun
  exact ⟨hrip, hrax⟩

end Run

end SnowOs.Kthread
