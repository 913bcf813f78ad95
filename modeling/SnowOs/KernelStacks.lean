import Mathlib.Tactic.IntervalCases
import SnowOs.ContextSwitch

/-!
# Stacks built for new processes (`sys/process.c`)

A process that has never run has no context that `switch_to` left; the stack
is built by hand so that the first switch finds one. `create_process` has it
start in `go_to_ring3`, with registers that are whatever lies in the block
(`createStack_suspended`).

`fork` copies the stack of the parent, puts the stack pointer of the child
where its own is and goes up from there to the first word that is its return
address. In front of that `setup_forked_kthread_stack` writes what
`switch_to` would push, with 0 for `rax` (`exec_setupForked_mem`). So the
child is suspended in the call of `fork` that the parent made, on a copy of
the parent's stack, and returns 0 from it (`forkStack_suspended`).
-/

namespace SnowOs.Kthread

open ByteMemory StackMachine

/-! ## `create_process` -/

/-- The stack of a new process that starts in `entry`. The size of the stack
is in words, and `memset` is given it in bytes. -/
def createStack (m : Memory 64) (t entry : Word) : Memory 64 :=
  let m := putBytes m (kStack t 0) (List.replicate kStackSize 0)
  let m := setWord m (kStack t (kStackSize - 1)) entry
  setWord m t (kStack t (kStackSize - 17))

/-- The registers that lie on the stack from `kStack t i` on. -/
def regsAt (m : Memory 64) (t : Word) (i : Nat) (r : Reg) : Word :=
  word m (kStack t (i + general.reverse.idxOf r))

theorem words_regsAt (m : Memory 64) (t : Word) (i : Nat) :
    Words m (kStack t i) (word m (kStack t i)
      :: (general.reverse.map (regsAt m t (i + 1)) ++ [word m (kStack t (i + 16))])) := by
  have hregs : general.reverse.map (regsAt m t (i + 1))
      = (List.range 15).map fun n => word m (kStack t (i + 1 + n)) := rfl
  rw [hregs]
  simp [Words, kStack_up, List.range_succ, Nat.add_assoc]

theorem createStack_suspended (m : Memory 64) (t entry : Word) :
    ∃ regs, Suspended (createStack m t entry) t ⟨regs, kStack t kStackSize, entry, []⟩ := by
  have hwords := words_regsAt
    (setWord (putBytes m (kStack t 0) (List.replicate kStackSize 0)) (kStack t (kStackSize - 1))
      entry) t (kStackSize - 17)
  rw [show kStackSize - 17 + 16 = kStackSize - 1 from rfl, word_setWord_self] at hwords
  refine ⟨_, suspended_of_frame (k := ⟨_, _, entry, []⟩) (by decide) rfl hwords ?_⟩
  rw [stackOf_kStack _ _ le_rfl, Nat.sub_self]
  rfl

/-! ## `fork` -/

/-- The words of the parent's stack, one after the other. -/
def copyStack (parent child : Word) (m : Memory 64) (n : Nat) : Memory 64 :=
  (List.range n).foldl (fun m i => setWord m (kStack child i) (word m (kStack parent i))) m

/-- The loop that goes up the child's stack to the return address. -/
def seekReturn (child returnVal : Word) : Nat → Memory 64 → Option (Memory 64)
  | 0, _ => none
  | fuel + 1, m =>
      if word m (word m child) ≠ returnVal then
        seekReturn child returnVal fuel (setWord m child (word m child + 8))
      else some m

/-- What `fork` does to the stacks. `rsp` is its stack pointer, and `diff` is
where it keeps its volatile variable; the other registers are what the
compiled body has in them when it calls `setup_forked_kthread_stack`, and
`back` is where that call returns to. The child's `rsp_val` points to the end
of its stack at first. -/
def forkStack (fuel : Nat) (parent child returnVal rsp diff back : Word) (regs : Reg → Word)
    (m : Memory 64) : Option (Memory 64) := do
  let m := copyStack parent child m kStackSize
  let m := setWord m parent rsp
  let m := setWord m diff ((kStack parent (kStackSize - 1) - rsp).sshiftRight 3)
  let m := setWord m child (word m child - 8 * word m diff)
  let m ← seekReturn child returnVal fuel m
  let m := setWord m child (word m child - 8)
  let called : Cpu Reg := ⟨Function.update regs .rdi (word m child), rsp, back, m⟩
  let m := (exec setupForkedKthreadStack (called.push back)).mem
  return setWord m child (word m child - 8 * 15)

/-- `setup_forked_kthread_stack` writes what `switch_to` would push on a
stack that ends right behind its argument, but for `rax`. -/
theorem exec_setupForked_mem (c : Cpu Reg) :
    (exec setupForkedKthreadStack c).mem
      = (exec ((general ++ [Reg.rdi]).map .push)
          { c with regs := Function.update c.regs .rax 0, sp := up (c.regs .rdi) 1 }).mem := by
  simp [setupForkedKthreadStack, general, Instr.step, Cpu.push, down_down]
  simp [down]

section Fork

variable {m : Memory 64} {parent child returnVal rsp diff : Word} {j r n : Nat}

theorem copyStack_succ (parent child : Word) (m : Memory 64) (n : Nat) :
    copyStack parent child m (n + 1)
      = setWord (copyStack parent child m n) (kStack child n)
          (word (copyStack parent child m n) (kStack parent n)) := by
  rw [copyStack, List.range_succ, List.foldl_append]
  rfl

/-- Only the child's stack is written. -/
theorem copyStack_apply {x : Word} (hx : ¬ InSpan (kStack child 0) (8 * n) x) :
    copyStack parent child m n x = m x := by
  induction n with
  | zero => rfl
  | succ n ih =>
      have hword : ¬ InSpan (kStack child n) 8 x := fun h => hx <| by
        rw [← Nat.zero_add n, ← kStack_up] at h
        exact inSpan_up h (by omega)
      have hrest : ¬ InSpan (kStack child 0) (8 * n) x := fun h => hx <| by
        rw [← up_zero (kStack child 0)] at h
        exact inSpan_up h (by omega)
      rw [copyStack_succ, setWord_apply hword, ih hrest]

theorem copyStack_word (hapart : ∀ x, ContextSpan parent x → ¬ ContextSpan child x)
    (hn : n ≤ kStackSize) {i : Nat} (hi : i < n) :
    word (copyStack parent child m n) (kStack child i) = word m (kStack parent i) := by
  induction n with
  | zero => cases hi
  | succ n ih =>
      rw [copyStack_succ]
      rcases Nat.lt_succ_iff_lt_or_eq.mp hi with hlt | rfl
      · rw [word_setWord_apart, ih (by omega) hlt]
        exact (kStack_apart child (n := 1) (k := 1) hlt hn).symm
      · rw [word_setWord_self]
        refine word_congr fun x hx => copyStack_apply fun hcopy => ?_
        exact hapart x (contextSpan_of_stack (n := 1) hx hn)
          (contextSpan_of_stack hcopy (by omega))

/-- The distance of `rsp` from the end of the parent's stack leads to the
same place on the child's. -/
theorem child_start (parent child : Word) (hj : j < kStackSize) :
    kStack child (kStackSize - 1)
        - 8 * (kStack parent (kStackSize - 1) - kStack parent j).sshiftRight 3
      = kStack child j := by
  obtain ⟨n, hn⟩ := Nat.exists_eq_add_of_le (Nat.le_sub_one_of_lt hj)
  have hsmall : 8 * n < 2 ^ 63 := by rw [kStackSize] at hn; omega
  have hdiff : kStack parent (j + n) - kStack parent j = BitVec.ofNat 64 (8 * n) := by
    rw [← kStack_up, up, BitVec.add_comm, BitVec.add_sub_cancel]
  have hshift : (BitVec.ofNat 64 (8 * n)).sshiftRight 3 = BitVec.ofNat 64 n := by
    have hnat : (BitVec.ofNat 64 (8 * n)).toNat = 8 * n := by
      rw [BitVec.toNat_ofNat, Nat.mod_eq_of_lt (by omega)]
    have hmsb : (BitVec.ofNat 64 (8 * n)).msb = false := by
      rw [BitVec.msb_eq_false_iff_two_mul_lt, hnat]
      omega
    refine BitVec.eq_of_toNat_eq ?_
    rw [BitVec.sshiftRight_eq_of_msb_false hmsb, BitVec.toNat_ushiftRight, hnat,
      Nat.shiftRight_eq_div_pow, Nat.mul_div_cancel_left _ (by decide), BitVec.toNat_ofNat,
      Nat.mod_eq_of_lt (by omega)]
  have hmul : (8 : Word) * BitVec.ofNat 64 n = BitVec.ofNat 64 (8 * n) := (BitVec.ofNat_mul ..).symm
  rw [hn, hdiff, hshift, hmul]
  exact kStack_down child j n

/-- The loop ends at the first word that is the return address, and changes
nothing but the child's `rsp_val`. -/
theorem seekReturn_spec {fuel i : Nat} (hfuel : n < fuel) (hin : i + n < kStackSize)
    (hptr : word m child = kStack child i) (hret : word m (kStack child (i + n)) = returnVal)
    (hfirst : ∀ l < n, word m (kStack child (i + l)) ≠ returnVal) :
    ∃ m', seekReturn child returnVal fuel m = some m' ∧ word m' child = kStack child (i + n) ∧
      ∀ x, ¬ InSpan child 8 x → m' x = m x := by
  induction n generalizing fuel i m with
  | zero =>
      obtain ⟨fuel, rfl⟩ := Nat.exists_eq_add_of_lt hfuel
      rw [Nat.add_zero] at hret
      refine ⟨m, ?_, hptr, fun x _ => rfl⟩
      rw [seekReturn, hptr, if_neg (not_not.mpr hret)]
  | succ n ih =>
      obtain ⟨fuel, rfl⟩ := Nat.exists_eq_add_of_lt hfuel
      have hnext : kStack child i + 8 = kStack child (i + 1) := kStack_up child i 1
      have hword : ∀ l, i + l < kStackSize →
          word (setWord m child (kStack child (i + 1))) (kStack child (i + l))
            = word m (kStack child (i + l)) := fun l hl =>
        word_setWord_apart (block_apart_stack child (n := 1) hl)
      have hassoc : ∀ l, i + 1 + l = i + (l + 1) := fun l => by omega
      have hless : n < n + 1 + fuel := by omega
      have hmiss : word m (kStack child i) ≠ returnVal := hfirst 0 (by omega)
      obtain ⟨m', hseek, hptr', hframe⟩ := ih (i := i + 1) hless (by omega)
        (word_setWord_self m child (kStack child (i + 1)))
        (by rw [hassoc, hword _ (by omega), hret])
        (fun l hl => by
          rw [hassoc, hword _ (by omega)]
          exact hfirst (l + 1) (by omega))
      refine ⟨m', ?_, by rw [hptr', hassoc], fun x hx => ?_⟩
      · rw [seekReturn, hptr, if_pos hmiss, hnext]
        exact hseek
      · rw [hframe x hx, setWord_apply hx]

/-- Where `fork` is when it starts on the stacks: its stack pointer is at
word `j` of the parent's stack and its return address at word `r`. Its frame
is in between, with `diff` in it and no word that looks like the return
address. -/
structure AtFork (m : Memory 64) (parent child returnVal rsp diff : Word) (j r : Nat) : Prop where
  apart : ∀ x, ContextSpan parent x → ¬ ContextSpan child x
  fresh : word m child = kStack child (kStackSize - 1)
  stack : rsp = kStack parent j
  inside : 0 < j ∧ j ≤ r ∧ r < kStackSize
  room : 16 ≤ r
  returns : word m (kStack parent r) = returnVal
  slot : ∃ d, j ≤ d ∧ d < r ∧ diff = kStack parent d
  first : ∀ i, j ≤ i → i < r → word m (kStack parent i) ≠ returnVal

/-- A machine whose process runs in the block at `0x10000`. The block at
`0x20000` is as `copy_process` leaves it, and a return address is at word 20
of the stack. -/
def forkSample : Cpu Reg :=
  ⟨fun _ => 0, kStack 0x10000 18, 0,
    setWord (setWord (setWord (fun _ => 0) 0x1000 0x10000) 0x20000
      (kStack 0x20000 (kStackSize - 1))) (kStack 0x10000 20) 0x1234⟩

theorem forkSample_atFork :
    AtFork forkSample.mem 0x10000 0x20000 0x1234 (kStack 0x10000 18) (kStack 0x10000 19) 18 20 where
  apart x hx hx' := by
    have hlow : x.toNat < 0x10000 + 8 * (2 + 4096) := (hx.bounds (by decide)).2
    have hhigh : 0x20000 ≤ x.toNat := (hx'.bounds (by decide)).1
    omega
  fresh := by decide +kernel
  stack := rfl
  inside := by decide
  room := by decide
  returns := by decide +kernel
  slot := ⟨19, by decide, by decide, rfl⟩
  first i hlow hhigh := by interval_cases i <;> decide +kernel

def childContext (m : Memory 64) (parent child returnVal : Word) (regs : Reg → Word) (r : Nat) :
    Context where
  regs := Function.update (Function.update regs .rdi (kStack child (r - 1))) .rax 0
  sp := kStack child (r + 1)
  rip := returnVal
  stack := stackOf m parent (kStack parent (r + 1))

@[simp] theorem childContext_rax (regs : Reg → Word) :
    (childContext m parent child returnVal regs r).regs .rax = 0 := by simp [childContext]

/-- The frame of `fork`, with the word below it that its calls push. -/
def ForkFrame (parent : Word) (j r : Nat) (x : Word) : Prop :=
  InSpan (kStack parent (j - 1)) (8 * (r + 1 - j)) x

theorem forkFrame_of_word {d : Nat} {x : Word} (hlow : j - 1 ≤ d) (hd : d < r)
    (hx : InSpan (kStack parent d) 8 x) : ForkFrame parent j r x := by
  obtain ⟨n, rfl⟩ := Nat.exists_eq_add_of_le hlow
  rw [← kStack_up] at hx
  exact inSpan_up hx (by omega)

/-- The child's stack is the copy, and of the rest of the memory only
`rsp_val` of the parent and the frame of `fork` have changed. -/
structure Copied (m m' : Memory 64) (parent child : Word) (j r : Nat) : Prop where
  words : ∀ i < kStackSize, word m' (kStack child i) = word m (kStack parent i)
  frame : ∀ x, ¬ ContextSpan child x → ¬ InSpan parent 8 x → ¬ ForkFrame parent j r x → m' x = m x

theorem AtFork.contextSpan (h : AtFork m parent child returnVal rsp diff j r) {x : Word}
    (hx : ForkFrame parent j r x) : ContextSpan parent x := by
  have hin := h.inside
  exact contextSpan_of_stack hx (by omega)

/-- Writes to either `rsp_val` and to that frame are not on the child's
stack. -/
theorem AtFork.copied_step (h : AtFork m parent child returnVal rsp diff j r) {m₁ m₂ : Memory 64}
    (hcopied : Copied m m₁ parent child j r)
    (hstep : ∀ x, ¬ InSpan child 8 x → ¬ InSpan parent 8 x → ¬ ForkFrame parent j r x →
      m₂ x = m₁ x) : Copied m m₂ parent child j r where
  words i hi := by
    rw [← hcopied.words i hi]
    refine word_congr fun x hx => hstep x ?_ ?_ ?_
    · exact fun hin => block_apart_stack child (n := 1) hi x hin hx
    · exact fun hin => h.apart x (Or.inl hin) (contextSpan_of_stack (n := 1) hx hi)
    · exact fun hin => h.apart x (h.contextSpan hin) (contextSpan_of_stack (n := 1) hx hi)
  frame x hchild hparent hframe :=
    (hstep x (fun hin => hchild (Or.inl hin)) hparent hframe).trans
      (hcopied.frame x hchild hparent hframe)

theorem AtFork.copied_setWord (h : AtFork m parent child returnVal rsp diff j r) {m₁ : Memory 64}
    (hcopied : Copied m m₁ parent child j r) {a : Word} (v : Word)
    (ha : a = child ∨ a = parent ∨ ∃ d, j - 1 ≤ d ∧ d < r ∧ a = kStack parent d) :
    Copied m (setWord m₁ a v) parent child j r := by
  refine h.copied_step hcopied fun x hchild hparent hframe => setWord_apply ?_
  rcases ha with rfl | rfl | ⟨d, hlow, hd, rfl⟩
  · exact hchild
  · exact hparent
  · exact fun hin => hframe (forkFrame_of_word hlow hd hin)

theorem AtFork.copied_copyStack (h : AtFork m parent child returnVal rsp diff j r) :
    Copied m (copyStack parent child m kStackSize) parent child j r where
  words _ hi := copyStack_word h.apart le_rfl hi
  frame _ hchild _ _ := copyStack_apply fun hin => hchild (Or.inr hin)

theorem AtFork.start (h : AtFork m parent child returnVal rsp diff j r) (v : Word) :
    word (setWord (setWord (copyStack parent child m kStackSize) parent rsp) diff v) child
        - 8 * (kStack parent (kStackSize - 1) - rsp).sshiftRight 3 = kStack child j := by
  have hblock : word (setWord (setWord (copyStack parent child m kStackSize) parent rsp) diff v)
      child = kStack child (kStackSize - 1) := by
    obtain ⟨d, -, hd, rfl⟩ := h.slot
    have hsize : d + 1 ≤ kStackSize := by have := h.inside; omega
    rw [word_setWord_apart fun x hp hc => h.apart x (contextSpan_of_stack (n := 1) hp hsize)
        (Or.inl hc), word_setWord_apart fun x hp hc => h.apart x (Or.inl hp) (Or.inl hc), ← h.fresh]
    refine word_congr fun x hx => copyStack_apply fun hin => ?_
    exact block_apart_stack child (by rw [Nat.zero_add]) x hx hin
  have hj : j < kStackSize := by have := h.inside; omega
  rw [hblock, h.stack, child_start parent child hj]

/-- The search ends at the word the parent is to return through. -/
theorem AtFork.seek (h : AtFork m parent child returnVal rsp diff j r) {m₁ : Memory 64}
    (hcopied : Copied m m₁ parent child j r) (hptr : word m₁ child = kStack child j) :
    ∃ m₂, seekReturn child returnVal kStackSize m₁ = some m₂ ∧ word m₂ child = kStack child r ∧
      Copied m m₂ parent child j r := by
  obtain ⟨-, hjr, hr⟩ := h.inside
  obtain ⟨n, rfl⟩ := Nat.exists_eq_add_of_le hjr
  have hfuel : n < kStackSize := by omega
  obtain ⟨m₂, hseek, hend, hframe⟩ := seekReturn_spec hfuel hr hptr
    ((hcopied.words _ hr).trans h.returns)
    (fun l hl => by
      rw [hcopied.words _ (by omega)]
      exact h.first _ (by omega) (by omega))
  exact ⟨m₂, hseek, hend, h.copied_step hcopied fun x hx _ _ => hframe x hx⟩

theorem Copied.stack {m' : Memory 64} (h : Copied m m' parent child j r) {i : Nat}
    (hi : i ≤ kStackSize) :
    stackOf m' child (kStack child i) = stackOf m parent (kStack parent i) := by
  rw [stackOf_kStack m' child hi, stackOf_kStack m parent hi]
  refine List.map_congr_left fun n hn => h.words _ ?_
  have := List.mem_range.mp hn
  omega

theorem AtFork.build (h : AtFork m parent child returnVal rsp diff j r) {c : Cpu Reg}
    (hcopied : Copied m c.mem parent child j r) (hptr : word c.mem child = kStack child (r - 1))
    (hrdi : c.regs .rdi = kStack child (r - 1)) :
    ∃ m', (exec setupForkedKthreadStack c).mem = m' ∧
      Suspended (setWord m' child (word m' child - 8 * 15)) child
        ⟨Function.update c.regs .rax 0, kStack child (r + 1), returnVal,
          stackOf m parent (kStack parent (r + 1))⟩ ∧
      ∀ x, ¬ ContextSpan child x → m' x = c.mem x := by
  obtain ⟨-, -, hr⟩ := h.inside
  obtain ⟨q, rfl⟩ := Nat.exists_eq_add_of_le' h.room
  obtain ⟨m', hexec, hwords, hbelow⟩ := exec_pushRegs (t := child) (j := q)
    (c := { c with regs := Function.update c.regs .rax 0, sp := kStack child (q + 16) }) rfl
  have hmem : (exec setupForkedKthreadStack c).mem = m' := by
    rw [exec_setupForked_mem, hrdi, kStack_up]
    exact congrArg Cpu.mem hexec
  have hspan : ∀ x, InSpan (kStack child q) (8 * 16) x → ContextSpan child x := fun x hx =>
    contextSpan_of_stack hx (by omega)
  have hptr' : word m' child - 8 * 15 = kStack child q := by
    have hsame : word m' child = word c.mem child := word_congr fun x hx =>
      hbelow x fun hin => block_apart_stack child (by omega) x hx hin
    rw [hsame, hptr]
    exact kStack_down child q 15
  refine ⟨m', hmem, ?_, fun x hx => hbelow x fun hin => hx (hspan x hin)⟩
  have hreturn : word c.mem (kStack child (q + 16)) = returnVal :=
    (hcopied.words _ hr).trans h.returns
  simp only [hreturn] at hwords
  rw [hptr']
  refine suspended_of_frame (by omega) rfl hwords ?_
  rw [← hcopied.stack (by omega)]
  refine stackOf_congr (by omega) fun x hx => hbelow x fun hin => ?_
  exact kStack_apart child (by omega) (by omega) x hin hx

/-- **The child of `fork`.** It is suspended in the call of `fork` that the
parent makes, with a copy of the stack behind that call, and with 0 as the
result. Of the parent only `rsp_val` and the frame of `fork` change. -/
theorem forkStack_suspended (h : AtFork m parent child returnVal rsp diff j r) (back : Word)
    (regs : Reg → Word) :
    ∃ m', forkStack kStackSize parent child returnVal rsp diff back regs m = some m' ∧
      Suspended m' child (childContext m parent child returnVal regs r) ∧
      ∀ x, ¬ ContextSpan child x → ¬ InSpan parent 8 x → ¬ ForkFrame parent j r x → m' x = m x := by
  obtain ⟨hj, hjr, hr⟩ := h.inside
  obtain ⟨d, hlow, hd, hdiff⟩ := h.slot
  have hstored := h.copied_setWord (h.copied_setWord h.copied_copyStack rsp (.inr (.inl rfl)))
    ((kStack parent (kStackSize - 1) - rsp).sshiftRight 3)
    (.inr (.inr ⟨d, (Nat.sub_le ..).trans hlow, hd, hdiff⟩))
  have hstart := h.copied_setWord hstored (kStack child j) (.inl rfl)
  obtain ⟨m₁, hseek, hptr, hfound⟩ := h.seek hstart (word_setWord_self ..)
  have hback : kStack child r - 8 = kStack child (r - 1) := by
    obtain ⟨q, rfl⟩ := Nat.exists_eq_add_of_le' (hj.trans_le hjr)
    exact kStack_down child q 1
  have hbelow : down rsp 1 = kStack parent (j - 1) := by
    obtain ⟨q, rfl⟩ := Nat.exists_eq_add_of_le' hj
    rw [h.stack]
    exact kStack_down parent q 1
  have hcalled := h.copied_setWord (h.copied_setWord hfound (kStack child (r - 1)) (.inl rfl))
    back (.inr (.inr ⟨j - 1, le_rfl, by omega, rfl⟩))
  have hblock : word (setWord (setWord m₁ child (kStack child (r - 1))) (kStack parent (j - 1))
      back) child = kStack child (r - 1) := by
    rw [word_setWord_apart, word_setWord_self]
    exact fun x hx hc => h.apart x (contextSpan_of_stack (n := 1) hx (by omega)) (Or.inl hc)
  generalize hm₂ : setWord (setWord m₁ child (kStack child (r - 1))) (kStack parent (j - 1)) back
    = m₂ at hcalled hblock
  obtain ⟨m₃, hmem, hsusp, hframe⟩ := h.build
    (c := ⟨Function.update regs .rdi (kStack child (r - 1)), kStack parent (j - 1), back, m₂⟩)
    hcalled hblock (Function.update_self Reg.rdi (kStack child (r - 1)) regs)
  refine ⟨_, ?_, hsusp, fun x hchild hparent hx => ?_⟩
  · simp only [forkStack, h.start, hseek, Option.bind_eq_bind, Option.bind_some, hptr, hback,
      word_setWord_self, Cpu.push, hbelow, hm₂, hmem]
    rfl
  · rw [setWord_apply fun hin => hchild (Or.inl hin), hframe x hchild]
    exact hcalled.frame x hchild hparent hx

end Fork

end SnowOs.Kthread
