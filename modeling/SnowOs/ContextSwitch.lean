import SnowOs.PhysicalMemory
import SnowOs.StackMachine

/-!
# Switching between kernel stacks (`sys/kthread.s`)

`switch_to` pushes the registers on the stack of the process that runs,
leaves the stack pointer in its block, takes that of another process and
pops the registers found there. A process that is not running is a frame on
its own stack, the stack behind that, and the address of the frame in its
block (`Suspended`).

One switch leaves the context of the process that runs in its block and
takes that of the other one (`exec_switchTo`): the registers, the return
address and the stack behind it.
-/

namespace SnowOs

open ByteMemory StackMachine

/-- The general registers, `rsp` apart. -/
inductive Reg
  | rax | rcx | rdx | rbx | rbp | rsi | rdi | r8 | r9 | r10 | r11 | r12 | r13 | r14 | r15
deriving DecidableEq, Repr

namespace Kthread

/-! ## The code -/

def general : List Reg :=
  [.rax, .rcx, .rdx, .rbx, .rbp, .rsi, .rdi, .r8, .r9, .r10, .r11, .r12, .r13, .r14, .r15]

/-- `switch_to`. The arguments are the address of `current_process` in `rdi`
and the block of the next process in `rsi`. -/
def switchTo : List (Instr Reg) :=
  (general ++ [Reg.rdi]).map .push
    ++ [.load .rdi .r15, .storeSp .r15, .store .rsi .rdi 0, .loadSp .rsi]
    ++ (Reg.rdi :: general.reverse).map .pop
    ++ [.ret]

def setupForkedKthreadStack : List (Instr Reg) :=
  [.storeImm 0 .rdi, .store .rcx .rdi 8, .store .rdx .rdi 16, .store .rbx .rdi 24,
    .store .rbp .rdi 32, .store .rsi .rdi 40, .store .rdi .rdi 48, .store .r8 .rdi 56,
    .store .r9 .rdi 64, .store .r10 .rdi 72, .store .r11 .rdi 80, .store .r12 .rdi 88,
    .store .r13 .rdi 96, .store .r14 .rdi 104, .store .r15 .rdi 112, .store .rdi .rdi 120, .ret]

/-! ## Stacks and contexts -/

def kStackSize : Nat := 4096

/-- `&t->k_stack[i]`, behind `rsp_val` and `rsp_user`. -/
def kStack (t : Word) (i : Nat) : Word := up t (2 + i)

/-- The words of the stack of `t` from `sp` up to its end. -/
def stackOf (m : Memory 64) (t sp : Word) : List Word :=
  (List.range ((kStack t kStackSize - sp).toNat / 8)).map fun i => word m (up sp i)

/-- What a process goes on with. -/
structure Context where
  regs : Reg → Word
  sp : Word
  rip : Word
  stack : List Word

/-- What the process `t` goes on with when it runs. -/
def context (t : Word) (c : Cpu Reg) : Context := ⟨c.regs, c.sp, c.rip, stackOf c.mem t c.sp⟩

@[simp] theorem context_rip (t : Word) (c : Cpu Reg) : (context t c).rip = c.rip := rfl

/-- What `t` goes on with after a function that changes no register and
nothing on the stack. -/
def caller (t : Word) (c : Cpu Reg) : Context :=
  ⟨c.regs, up c.sp 1, word c.mem c.sp, stackOf c.mem t (up c.sp 1)⟩

/-- The bytes of a block that hold its context: `rsp_val` and the stack. -/
def ContextSpan (t x : Word) : Prop := InSpan t 8 x ∨ InSpan (kStack t 0) (8 * kStackSize) x

/-- The frame of a context lies on the stack of its block. The word that is
popped into `rdi` first is popped over later. -/
structure Suspended (m : Memory 64) (t : Word) (k : Context) : Prop where
  place : ∃ i, i + 17 ≤ kStackSize ∧ word m t = kStack t i ∧ k.sp = kStack t (i + 17)
  frame : ∃ x, Words m (word m t) (x :: (general.reverse.map k.regs ++ [k.rip]))
  stack : stackOf m t k.sp = k.stack

theorem mem_general (r : Reg) : r ∈ general := by cases r <;> decide

theorem kStack_up (t : Word) (i n : Nat) : up (kStack t i) n = kStack t (i + n) := by
  rw [kStack, kStack, up_up, Nat.add_assoc]

theorem kStack_down (t : Word) (i n : Nat) : down (kStack t (i + n)) n = kStack t i := by
  rw [← kStack_up, down_up]

theorem contextSpan_of_stack {t x : Word} {i n : Nat} (h : InSpan (kStack t i) (8 * n) x)
    (hle : i + n ≤ kStackSize) : ContextSpan t x := by
  refine Or.inr (inSpan_up (k := i) ?_ (by omega : 8 * i + 8 * n ≤ 8 * kStackSize))
  rwa [kStack_up, Nat.zero_add]

theorem ContextSpan.inBlock {t x : Word} (h : ContextSpan t x) :
    InSpan t (8 * (2 + kStackSize)) x := by
  rcases h with h | h
  · rw [← up_zero t] at h
    exact inSpan_up h (by omega)
  · exact inSpan_up h (by omega)

theorem ContextSpan.bounds {t x : Word} (h : ContextSpan t x)
    (ht : t.toNat + 8 * (2 + kStackSize) ≤ 2 ^ 64) :
    t.toNat ≤ x.toNat ∧ x.toNat < t.toNat + 8 * (2 + kStackSize) :=
  h.inBlock.bounds ht

/-- `rsp_val` is not on the stack. -/
theorem block_apart_stack (t : Word) {i n : Nat} (hle : i + n ≤ kStackSize) :
    Apart t 8 (kStack t i) (8 * n) := by
  have hfields : Apart (t + BitVec.ofNat 64 0) 8 (t + BitVec.ofNat 64 (8 * (2 + i))) (8 * n) :=
    apart_fields t (by omega) (by rw [kStackSize] at hle; omega)
  rwa [BitVec.add_zero] at hfields

theorem kStack_apart (t : Word) {i n j k : Nat} (hij : i + n ≤ j) (hle : j + k ≤ kStackSize) :
    Apart (kStack t i) (8 * n) (kStack t j) (8 * k) :=
  apart_fields t (by omega) (by rw [kStackSize] at hle; omega)

theorem stackOf_kStack (m : Memory 64) (t : Word) {i : Nat} (hi : i ≤ kStackSize) :
    stackOf m t (kStack t i)
      = (List.range (kStackSize - i)).map fun n => word m (kStack t (i + n)) := by
  obtain ⟨n, hn⟩ := Nat.exists_eq_add_of_le hi
  have hlen : (kStack t kStackSize - kStack t i).toNat / 8 = n := by
    rw [hn, ← kStack_up, up, BitVec.add_comm, BitVec.add_sub_cancel, BitVec.toNat_ofNat,
      Nat.mod_eq_of_lt (by rw [kStackSize] at hn; omega), Nat.mul_div_cancel_left _ (by decide)]
  rw [stackOf, hlen, hn, Nat.add_sub_cancel_left]
  simp only [kStack_up]

theorem stackOf_congr {m m' : Memory 64} {t : Word} {i : Nat} (hi : i ≤ kStackSize)
    (heq : ∀ x, InSpan (kStack t i) (8 * (kStackSize - i)) x → m' x = m x) :
    stackOf m' t (kStack t i) = stackOf m t (kStack t i) := by
  rw [stackOf_kStack m' t hi, stackOf_kStack m t hi]
  refine List.map_congr_left fun n hn => word_congr fun x hx => heq x ?_
  have hlt := List.mem_range.mp hn
  rw [← kStack_up] at hx
  exact inSpan_up hx (by omega)

theorem Suspended.congr {m m' : Memory 64} {t : Word} {k : Context} (h : Suspended m t k)
    (heq : ∀ x, ContextSpan t x → m' x = m x) : Suspended m' t k := by
  have hword : word m' t = word m t := word_congr fun x hx => heq x (Or.inl hx)
  obtain ⟨i, hi, ht, hsp⟩ := h.place
  obtain ⟨v, hv⟩ := h.frame
  rw [ht] at hv
  refine ⟨⟨i, hi, hword.trans ht, hsp⟩, ⟨v, ?_⟩, ?_⟩
  · rw [hword, ht]
    exact hv.congr fun x hx => heq x (contextSpan_of_stack hx hi)
  · rw [← h.stack, hsp]
    exact stackOf_congr hi fun x hx => heq x (contextSpan_of_stack hx (by omega))

/-- A frame on the stack is a suspended context once `rsp_val` points to it. -/
theorem suspended_of_frame {m : Memory 64} {t v : Word} {i : Nat} {k : Context}
    (hi : i + 17 ≤ kStackSize) (hsp : k.sp = kStack t (i + 17))
    (h : Words m (kStack t i) (v :: (general.reverse.map k.regs ++ [k.rip])))
    (hstack : stackOf m t k.sp = k.stack) :
    Suspended (setWord m t (kStack t i)) t k := by
  have hword : word (setWord m t (kStack t i)) t = kStack t i := word_setWord_self ..
  refine ⟨⟨i, hi, hword, hsp⟩, ⟨v, ?_⟩, ?_⟩
  · rw [hword]
    exact h.congr fun x hx => setWord_apply fun hin => block_apart_stack t hi x hin hx
  · rw [← hstack, hsp]
    exact stackOf_congr hi fun x hx =>
      setWord_apply fun hin => block_apart_stack t (by omega) x hin hx

/-! ## One switch -/

theorem exec_resume {c : Cpu Reg} {t : Word} {k : Context} (hrsi : c.regs .rsi = t)
    (h : Suspended c.mem t k) :
    exec (.loadSp .rsi :: .pop .rdi :: (general.reverse.map .pop ++ [.ret])) c
      = ⟨k.regs, k.sp, k.rip, c.mem⟩ := by
  obtain ⟨i, -, hslot, hsp⟩ := h.place
  obtain ⟨v, -, hframe⟩ := h.frame
  obtain ⟨hregs, hrip, -⟩ := words_append.mp hframe
  have hlen : general.reverse.length = 15 := rfl
  rw [hslot, kStack_up] at hregs
  rw [hslot, kStack_up, kStack_up, List.length_map, hlen] at hrip
  have hload : (Instr.loadSp Reg.rsi).step c = { c with sp := kStack t i } := by
    rw [Instr.step, hrsi, hslot]
  have hpop : (Instr.pop Reg.rdi).step { c with sp := kStack t i }
      = { c.setReg .rdi (word c.mem (kStack t i)) with sp := kStack t (i + 1) } := by
    rw [Instr.step, kStack_up]
    rfl
  rw [exec_cons, hload, exec_cons, hpop, exec_append, exec_pop k.regs (by exact hregs),
    exec_cons, exec_nil, Instr.step]
  have hall : (fun r => if r ∈ general.reverse then k.regs r
      else (c.setReg .rdi (word c.mem (kStack t i))).regs r) = k.regs := by
    funext r
    rw [if_pos (List.mem_reverse.mpr (mem_general r))]
  simp only [hall, hlen, kStack_up, Cpu.setReg_mem, hrip, hsp]

theorem exec_pushRegs {c : Cpu Reg} {t : Word} {j : Nat} (hsp : c.sp = kStack t (j + 16)) :
    ∃ m, exec ((general ++ [Reg.rdi]).map .push) c = { c with sp := kStack t j, mem := m } ∧
      Words m (kStack t j) (c.regs .rdi :: (general.reverse.map c.regs ++ [word c.mem c.sp])) ∧
      ∀ x, ¬ InSpan (kStack t j) (8 * 16) x → m x = c.mem x := by
  have hreturn : Words c.mem c.sp [word c.mem c.sp] := ⟨rfl, trivial⟩
  have hpush := pushes_pushAll ((general ++ [Reg.rdi]).map c.regs) hreturn
    (show 8 * (16 + 1) ≤ 2 ^ 64 by decide)
  rw [exec_push]
  generalize c.pushAll ((general ++ [Reg.rdi]).map c.regs) = c' at hpush ⊢
  obtain ⟨regs, sp, rip, m⟩ := c'
  obtain ⟨hregs, hrip, hspan, hwords, hchanged⟩ := hpush
  obtain rfl : sp = kStack t j := by
    refine Eq.trans hspan ?_
    rw [hsp]
    exact kStack_down t j 16
  obtain rfl : regs = c.regs := hregs
  obtain rfl : rip = c.rip := hrip
  refine ⟨m, rfl, ?_, hchanged⟩
  rw [List.map_append, List.reverse_append, ← List.map_reverse] at hwords
  exact hwords

/-- Where a switch starts: `switch_to` was called by the process whose block
is in `current_process`, on its stack and with room on it. -/
structure AtSwitch (var : Word) (c : Cpu Reg) (cur : Word) : Prop where
  arg : c.regs .rdi = var
  current : word c.mem var = cur
  stack : ∃ i, 16 ≤ i ∧ i < kStackSize ∧ c.sp = kStack cur i
  apart : ∀ x, ContextSpan cur x → ¬ InSpan var 8 x

/-- The first half: the context of the process that runs is left in its
block. -/
theorem exec_suspend {var cur : Word} {c : Cpu Reg} (h : AtSwitch var c cur) :
    let c' := exec ((general ++ [Reg.rdi]).map .push
      ++ [.load .rdi .r15, .storeSp .r15, .store .rsi .rdi 0]) c
    Suspended c'.mem cur (caller cur c) ∧ word c'.mem var = c.regs .rsi ∧
      c'.regs .rsi = c.regs .rsi ∧
      ∀ x, ¬ ContextSpan cur x → ¬ InSpan var 8 x → c'.mem x = c.mem x := by
  obtain ⟨i, hlow, hhigh, hsp⟩ := h.stack
  obtain ⟨j, rfl⟩ := Nat.exists_eq_add_of_le' hlow
  obtain ⟨m, hpush, hwords, hbelow⟩ := exec_pushRegs hsp
  have hchanged : ∀ x, ¬ ContextSpan cur x → m x = c.mem x := fun x hx =>
    hbelow x fun hin => hx (contextSpan_of_stack hin (by omega))
  have hcur : word m var = cur := by
    rw [← h.current]
    exact word_congr fun x hx => hchanged x fun hcs => h.apart x hcs hx
  have hcode : exec [.load .rdi .r15, .storeSp .r15, .store .rsi .rdi 0]
      { c with sp := kStack cur j, mem := m }
      = ⟨Function.update c.regs .r15 cur, kStack cur j, c.rip,
          setWord (setWord m cur (kStack cur j)) var (c.regs .rsi)⟩ := by
    simp [Instr.step, Cpu.setReg, h.arg, hcur]
  rw [exec_append, hpush, hcode]
  have hreturn : up c.sp 1 = kStack cur (j + 17) := by rw [hsp, kStack_up]
  have hsusp : Suspended (setWord m cur (kStack cur j)) cur (caller cur c) := by
    refine suspended_of_frame (by omega) hreturn hwords ?_
    rw [caller, hreturn]
    refine stackOf_congr (by omega) fun x hx => hbelow x fun hin => ?_
    exact kStack_apart cur (by omega) (by omega) x hin hx
  refine ⟨hsusp.congr fun x hx => setWord_apply (h.apart x hx), word_setWord_self .., ?_,
    fun x hx hxvar => ?_⟩
  · exact Function.update_of_ne (show Reg.rsi ≠ Reg.r15 by decide) cur c.regs
  · rw [← hchanged x hx]
    exact (setWord_apply hxvar).trans (setWord_apply fun hin => hx (Or.inl hin))

/-- **One switch.** The process that ran is left with the context of its
call, and the other one has its own. -/
theorem exec_switchTo {var cur t : Word} {c : Cpu Reg} {k : Context} (h : AtSwitch var c cur)
    (hrsi : c.regs .rsi = t) (ht : Suspended c.mem t k)
    (hapart : ∀ x, ContextSpan t x → ¬ ContextSpan cur x ∧ ¬ InSpan var 8 x) :
    context t (exec switchTo c) = k ∧ word (exec switchTo c).mem var = t ∧
      Suspended (exec switchTo c).mem cur (caller cur c) ∧
      ∀ x, ¬ ContextSpan cur x → ¬ InSpan var 8 x → (exec switchTo c).mem x = c.mem x := by
  obtain ⟨hout, hvar, hreg, hframe⟩ := exec_suspend h
  have hsplit : switchTo = ((general ++ [Reg.rdi]).map .push
      ++ [.load .rdi .r15, .storeSp .r15, .store .rsi .rdi 0])
      ++ (.loadSp .rsi :: .pop .rdi :: (general.reverse.map .pop ++ [.ret])) := rfl
  have ht' := ht.congr fun x hx => hframe x (hapart x hx).1 (hapart x hx).2
  rw [hsplit, exec_append, exec_resume (hreg.trans hrsi) ht']
  refine ⟨?_, hvar.trans hrsi, hout, hframe⟩
  rw [context, ht'.stack]

end Kthread

end SnowOs
