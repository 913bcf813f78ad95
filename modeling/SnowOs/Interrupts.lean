import SnowOs.ContextSwitch

/-!
# Interrupt stubs (`sys/pit_isr.s`, `sys/keyboard_isr.s`, `sys/page_fault_isr.s`)

The processor pushes five words on the stack of `rsp0`, or on the stack in
use when the kernel itself is interrupted, and for a page fault an error code
in front of them. The stubs save registers around a call of a C function,
and `iretq` takes the five words back.

`timer_isr` and `keyboard_isr` save eleven registers. The other four come
back because a C function keeps them (`calleeSaved`), so what the handler is
compiled to has to follow the calling convention; `page_fault_isr` saves all
of them. Either way the interrupted code has its registers, flags and stack
pointer back, and only memory below the stack pointer that was used and what
the handler itself writes has changed (`irqIsr_returns`,
`pageFaultIsr_returns`).

So a program whose steps look neither below that stack pointer nor at the
memory of the handlers does the same with interrupts between its steps as
without them, wherever they come (`interrupts_unnoticed`).
-/

namespace SnowOs.Interrupt

open ByteMemory StackMachine Kthread

/-! ## The processor -/

/-- The registers and flags a program can see. -/
structure View where
  regs : Reg → Word
  sp : Word
  rip : Word
  cs : Word
  ss : Word
  flags : Word

structure Core where
  cpu : Cpu Reg
  cs : Word
  ss : Word
  flags : Word

def Core.view (c : Core) : View := ⟨c.cpu.regs, c.cpu.sp, c.cpu.rip, c.cs, c.ss, c.flags⟩

def Core.onCpu (c : Core) (f : Cpu Reg → Cpu Reg) : Core := { c with cpu := f c.cpu }

@[simp] theorem Core.onCpu_cpu (c : Core) (f : Cpu Reg → Cpu Reg) : (c.onCpu f).cpu = f c.cpu := rfl

/-- The interrupt flag is bit 9. -/
def Core.cli (c : Core) : Core := { c with flags := c.flags &&& ~~~0x200 }

def Core.sti (c : Core) : Core := { c with flags := c.flags ||| 0x200 }

@[simp] theorem Core.sti_cpu (c : Core) : c.sti.cpu = c.cpu := rfl

/-- Where the frame of an interrupt ends: on the stack in use in ring 0, and
on that of the TSS otherwise, aligned to 16 bytes. -/
def stackTop (rsp0 : Word) (v : View) : Word :=
  (if v.cs &&& 3 = 0 then v.sp else rsp0) &&& ~~~15

def frame (v : View) : List Word := [v.ss, v.sp, v.flags, v.cs, v.rip]

/-- An interrupt through a gate with selector 8. Some interrupts have an
error code. -/
def deliver (rsp0 entry : Word) (error : Option Word) (c : Core) : Core where
  cpu := { Cpu.pushAll { c.cpu with sp := stackTop rsp0 c.view } (frame c.view ++ error.toList) with
    rip := entry }
  cs := 8
  ss := if c.cs &&& 3 = 0 then c.ss else 0
  -- trap, interrupt, nested task and resume flag
  flags := c.flags &&& ~~~0x14300

def iretq (c : Core) : Core where
  cpu := { c.cpu with rip := word c.cpu.mem c.cpu.sp, sp := word c.cpu.mem (up c.cpu.sp 3) }
  cs := word c.cpu.mem (up c.cpu.sp 1)
  flags := word c.cpu.mem (up c.cpu.sp 2)
  ss := word c.cpu.mem (up c.cpu.sp 4)

/-! ## The stubs -/

/-- The registers a C function leaves as they are. -/
def calleeSaved : List Reg := [.rbx, .rbp, .r12, .r13, .r14, .r15]

/-- A call between pushes and pops. -/
def isr (saved : List Reg) (handler : Cpu Reg → Cpu Reg) : List (Instr Reg) :=
  saved.map .push ++ [.call handler] ++ saved.reverse.map .pop

/-- The registers that `timer_isr` and `keyboard_isr` push. -/
def irqSaved : List Reg :=
  [.rax, .rcx, .rdx, .rbx, .rbp, .rsi, .rdi, .r8, .r9, .r10, .r11]

def irqIsr (handler : Cpu Reg → Cpu Reg) (c : Core) : Core :=
  iretq (c.cli.onCpu (exec (isr irqSaved handler))).sti

def timerIsr (pitIntrHandler : Cpu Reg → Cpu Reg) : Core → Core := irqIsr pitIntrHandler

def keyboardIsr (keyboardIntrHandler : Cpu Reg → Cpu Reg) : Core → Core :=
  irqIsr keyboardIntrHandler

/-- `page_fault_isr`. The error code is skipped. -/
def pageFaultIsr (pageFaultHandler : Cpu Reg → Cpu Reg) (c : Core) : Core :=
  iretq (c.onCpu (exec (isr (general ++ [.rdi]) pageFaultHandler ++ [.addSp 8])))

/-! ## One interrupt -/

section Stub

variable {saved : List Reg} {foot : Word → Prop} {depth : Nat} {handler : Cpu Reg → Cpu Reg}

theorem exec_isr (hall : ∀ r, r ∈ saved ∨ r ∈ calleeSaved)
    (hconv : Convention calleeSaved foot depth handler) {c : Cpu Reg}
    (hlen : 8 * (saved.length + depth) ≤ 2 ^ 64)
    (hfoot : ∀ x, Below c.sp saved.length x → ¬ foot x) :
    ∃ m, exec (isr saved handler) c = { c with mem := m } ∧
      ∀ x, ¬ foot x → ¬ Below c.sp (saved.length + depth) x → m x = c.mem x := by
  have hpushes : Pushes c [] (saved.map c.regs) (c.pushAll (saved.map c.regs)) :=
    pushes_pushAll _ trivial (by rw [List.length_map, List.length_nil]; omega)
  generalize hc₁ : c.pushAll (saved.map c.regs) = c₁ at hpushes
  obtain ⟨hregs, hrip, hsp, -, hchanged⟩ := hpushes
  rw [List.length_map] at hsp hchanged
  have hbracket : exec (isr saved handler) c = _ := exec_bracket (by omega) rfl
    (by rw [hc₁]; exact hconv.sp c₁) (fun x hx => by
      rw [hc₁]
      refine hconv.mem c₁ x (hfoot x hx) ?_
      rw [hsp]
      exact hx.not_down hlen)
  rw [hc₁] at hbracket
  refine ⟨(handler c₁).mem, ?_, fun x hx hbelow => ?_⟩
  · rw [hbracket]
    have hkept : (fun r => if r ∈ saved then c.regs r else (handler c₁).regs r) = c.regs := by
      funext r
      split
      case isTrue => rfl
      case isFalse hr => rw [hconv.regs c₁ r ((hall r).resolve_left hr), hregs]
    have hreturn : (handler c₁).rip = c.rip := (hconv.rip c₁).trans hrip
    exact congrArg₂ (fun regs ip => (⟨regs, c.sp, ip, (handler c₁).mem⟩ : Cpu Reg)) hkept hreturn
  · have hdeep : ¬ Below c₁.sp depth x := fun h => hbelow (by rw [hsp] at h; exact h.of_down)
    have hpushed : ¬ InSpan c₁.sp (8 * saved.length) x := fun h =>
      hbelow (Below.mono (n := saved.length) (by rwa [Below, ← hsp]) (by omega))
    rw [hconv.mem c₁ x hx hdeep, hchanged x hpushed]

/-- The frame lies on the stack when the stub starts, behind the error
code. -/
theorem deliver_spec (rsp0 entry : Word) (error : Option Word) (c : Core) :
    (deliver rsp0 entry error c).cpu.regs = c.cpu.regs ∧
      (deliver rsp0 entry error c).cpu.sp
        = down (stackTop rsp0 c.view) (5 + error.toList.length) ∧
      Words (deliver rsp0 entry error c).cpu.mem (down (stackTop rsp0 c.view) 5)
        (frame c.view).reverse ∧
      ∀ x, ¬ Below (stackTop rsp0 c.view) (5 + error.toList.length) x →
        (deliver rsp0 entry error c).cpu.mem x = c.cpu.mem x := by
  have hfew : error.toList.length ≤ 1 := Option.length_toList_le
  have hpushes : Pushes { c.cpu with sp := stackTop rsp0 c.view } []
      (frame c.view ++ error.toList) _ := pushes_pushAll _ trivial (by
    rw [List.length_append, List.length_nil, show (frame c.view).length = 5 from rfl]
    omega)
  obtain ⟨hregs, -, hsp, hwords, hchanged⟩ := hpushes
  rw [List.length_append, show (frame c.view).length = 5 from rfl] at hsp hchanged
  rw [List.append_nil, List.reverse_append, words_append, List.length_reverse, hsp,
    Nat.add_comm 5, up_down_add] at hwords
  rw [hsp] at hchanged
  exact ⟨hregs, hsp, hwords.2, fun x hx => hchanged x hx⟩

/-- `iretq` goes back to where the frame was pushed. -/
theorem iretq_of_frame {c : Core} {v : View} {sp ip : Word} {m : Memory 64}
    (hcpu : c.cpu = ⟨v.regs, sp, ip, m⟩) (h : Words m sp (frame v).reverse) :
    (iretq c).view = v ∧ (iretq c).cpu.mem = m := by
  obtain ⟨hrip, hcs, hflags, hsp, hss, -⟩ := h
  rw [up_up] at hflags
  rw [up_up, up_up] at hsp
  rw [up_up, up_up, up_up] at hss
  rw [iretq, Core.view, hcpu]
  refine ⟨?_, rfl⟩
  rw [hrip, hcs, hflags, hsp, hss]

/-- A stub between the frame and `iretq`: everything but memory is back. -/
theorem deliver_isr (hall : ∀ r, r ∈ saved ∨ r ∈ calleeSaved)
    (hconv : Convention calleeSaved foot depth handler) {rsp0 : Word} (entry : Word)
    (error : Option Word) {c : Core}
    (hlen : 8 * (5 + error.toList.length + (saved.length + depth)) ≤ 2 ^ 64)
    (hfoot : ∀ x, Below (stackTop rsp0 c.view) (5 + error.toList.length + (saved.length + depth)) x →
      ¬ foot x) :
    ∃ m, exec (isr saved handler) (deliver rsp0 entry error c).cpu
        = ⟨c.cpu.regs, down (stackTop rsp0 c.view) (5 + error.toList.length), entry, m⟩ ∧
      Words m (down (stackTop rsp0 c.view) 5) (frame c.view).reverse ∧
      ∀ x, ¬ foot x →
        ¬ Below (stackTop rsp0 c.view) (5 + error.toList.length + (saved.length + depth)) x →
        m x = c.cpu.mem x := by
  obtain ⟨hregs, hsp, hwords, hchanged⟩ := deliver_spec rsp0 entry error c
  have hrip : (deliver rsp0 entry error c).cpu.rip = entry := rfl
  generalize (deliver rsp0 entry error c).cpu = d at hregs hsp hwords hchanged hrip ⊢
  obtain ⟨m, hexec, hframe⟩ := exec_isr hall hconv (c := d) (by omega) fun x hx => hfoot x <| by
    rw [hsp] at hx
    exact hx.of_down.mono (by omega)
  rw [hsp] at hframe
  refine ⟨m, ?_, hwords.congr fun x hx => ?_, fun x hx hbelow => ?_⟩
  · rw [hexec, hregs, hsp, hrip]
  · have htop : Below (stackTop rsp0 c.view) (5 + error.toList.length) x :=
      Below.mono (n := 5) hx (by omega)
    exact hframe x (hfoot x (htop.mono (by omega))) (htop.not_down hlen)
  · rw [hframe x hx fun h => hbelow h.of_down]
    exact hchanged x fun h => hbelow (h.mono (by omega))

theorem irqSaved_all (r : Reg) : r ∈ irqSaved ∨ r ∈ calleeSaved := by cases r <;> decide

/-- **A timer or keyboard interrupt.** The interrupted code has all of its
registers back. -/
theorem irqIsr_returns (hconv : Convention calleeSaved foot depth handler) (rsp0 entry : Word)
    {c : Core} (hlen : 8 * (16 + depth) ≤ 2 ^ 64)
    (hfoot : ∀ x, Below (stackTop rsp0 c.view) (16 + depth) x → ¬ foot x) :
    (irqIsr handler (deliver rsp0 entry none c)).view = c.view ∧
      ∀ x, ¬ foot x → ¬ Below (stackTop rsp0 c.view) (16 + depth) x →
        (irqIsr handler (deliver rsp0 entry none c)).cpu.mem x = c.cpu.mem x := by
  have hdepth : 5 + (none : Option Word).toList.length + (irqSaved.length + depth) = 16 + depth := by
    show 5 + 0 + (11 + depth) = 16 + depth
    omega
  obtain ⟨m, hexec, hwords, hframe⟩ := deliver_isr irqSaved_all hconv entry none (c := c)
    (by rwa [hdepth]) (by rwa [hdepth])
  rw [hdepth] at hframe
  obtain ⟨hview, hmem⟩ := iretq_of_frame
    (c := ((deliver rsp0 entry none c).cli.onCpu (exec (isr irqSaved handler))).sti) (v := c.view)
    hexec hwords
  exact ⟨hview, fun x hx hbelow => by rw [irqIsr, hmem, hframe x hx hbelow]⟩

/-- **A page fault.** The instruction that faulted is run again, with the
registers it had. -/
theorem pageFaultIsr_returns (hconv : Convention calleeSaved foot depth handler)
    (rsp0 entry error : Word) {c : Core} (hlen : 8 * (22 + depth) ≤ 2 ^ 64)
    (hfoot : ∀ x, Below (stackTop rsp0 c.view) (22 + depth) x → ¬ foot x) :
    (pageFaultIsr handler (deliver rsp0 entry (some error) c)).view = c.view ∧
      ∀ x, ¬ foot x → ¬ Below (stackTop rsp0 c.view) (22 + depth) x →
        (pageFaultIsr handler (deliver rsp0 entry (some error) c)).cpu.mem x = c.cpu.mem x := by
  have hdepth : 5 + (some error).toList.length + ((general ++ [Reg.rdi]).length + depth)
      = 22 + depth := by
    show 5 + 1 + (16 + depth) = 22 + depth
    omega
  have hall : ∀ r, r ∈ general ++ [Reg.rdi] ∨ r ∈ calleeSaved := fun r =>
    Or.inl (List.mem_append_left _ (mem_general r))
  obtain ⟨m, hexec, hwords, hframe⟩ := deliver_isr hall hconv entry (some error) (c := c)
    (by rwa [hdepth]) (by rwa [hdepth])
  rw [hdepth] at hframe
  have hcpu : ((deliver rsp0 entry (some error) c).onCpu
        (exec (isr (general ++ [.rdi]) handler ++ [.addSp 8]))).cpu
      = ⟨c.view.regs, down (stackTop rsp0 c.view) 5, entry, m⟩ := by
    have hskip : down (stackTop rsp0 c.view) 6 + 8 = down (stackTop rsp0 c.view) 5 :=
      up_down_add (stackTop rsp0 c.view) 1 5
    rw [Core.onCpu_cpu, exec_append, hexec, exec_cons, exec_nil, Instr.step]
    exact congrArg (fun sp => (⟨c.cpu.regs, sp, entry, m⟩ : Cpu Reg)) hskip
  obtain ⟨hview, hmem⟩ := iretq_of_frame hcpu hwords
  exact ⟨hview, fun x hx hbelow => by rw [pageFaultIsr, hmem, hframe x hx hbelow]⟩

/-- A handler that uses a register and writes a variable at `0x1000`. -/
def sampleHandler (c : Cpu Reg) : Cpu Reg :=
  { c.setReg .rax 7 with mem := setWord c.mem 0x1000 (c.regs .rcx) }

theorem sampleHandler_convention : Convention calleeSaved (InSpan 0x1000 8) 0 sampleHandler where
  sp _ := rfl
  rip _ := rfl
  regs c r hr := Function.update_of_ne (by rintro rfl; revert hr; decide) ..
  mem _ _ hx _ := setWord_apply hx

theorem below_sample {n : Nat} (hn : n ≤ 0x1000) {x : Word} (h : Below 0x20000 n x) :
    0x18000 ≤ x.toNat ∧ x.toNat < 0x20000 := by
  have hspan : InSpan (down 0x20000 0x1000) (8 * 0x1000) x := h.mono hn
  exact hspan.bounds (by decide)

theorem below_sample_apart {n : Nat} (hn : n ≤ 0x1000) {x : Word} (h : Below 0x20000 n x) :
    ¬ InSpan 0x1000 8 x := fun hin => by
  have hlow := (below_sample hn h).1
  have hvar : x.toNat < 0x1008 := (hin.bounds (by decide)).2
  omega

/-- A fault of a user program. -/
theorem pageFaultIsr_returns_sample :
    (pageFaultIsr sampleHandler (deliver 0x20000 0x8000 (some 6)
      ⟨⟨fun _ => 5, 0x7000, 0x400000, fun _ => 0⟩, 0x2B, 0x23, 0x202⟩)).view
      = ⟨fun _ => 5, 0x7000, 0x400000, 0x2B, 0x23, 0x202⟩ :=
  (pageFaultIsr_returns sampleHandler_convention 0x20000 0x8000 6
    (c := ⟨⟨fun _ => 5, 0x7000, 0x400000, fun _ => 0⟩, 0x2B, 0x23, 0x202⟩) (by decide)
    fun _ => below_sample_apart (by decide)).1

end Stub

/-! ## Interrupts between steps -/

/-- A program of the machine, or the device that interrupts it. -/
inductive Act
  | step
  | timer
  | keyboard
deriving DecidableEq

/-- What both machines have: all a program sees, memory as far as it is
`live`. -/
def Same (live : View → Word → Prop) (c c' : Core) : Prop :=
  c'.view = c.view ∧ ∀ x, live c.view x → c'.cpu.mem x = c.cpu.mem x

/-- What interrupts need of a program, in the states where `inv` holds: its
steps depend on live memory only, and live memory is neither written by the
handlers nor on the stack that interrupts use. -/
structure Quiet (live : View → Word → Prop) (inv : View → Prop) (foot : Word → Prop) (depth : Nat)
    (rsp0 : Word) (prog : Core → Core) : Prop where
  keeps : ∀ {c}, inv c.view → inv (prog c).view
  congr : ∀ {c c'}, inv c.view → Same live c c' → Same live (prog c) (prog c')
  unwritten : ∀ {v x}, inv v → live v x → ¬ foot x
  above : ∀ {v x}, inv v → live v x → ¬ Below (stackTop rsp0 v) (16 + depth) x
  apart : ∀ {v x}, inv v → Below (stackTop rsp0 v) (16 + depth) x → ¬ foot x

section Unnoticed

variable {live : View → Word → Prop} {inv : View → Prop} {foot : Word → Prop} {depth : Nat}
  {rsp0 : Word} {prog : Core → Core} {pitIntrHandler keyboardIntrHandler : Cpu Reg → Cpu Reg}

/-- One act; the stubs are at `timer` and `keyboard`. -/
def Act.run (rsp0 : Word) (timer keyboard : Word) (prog : Core → Core)
    (pitIntrHandler keyboardIntrHandler : Cpu Reg → Cpu Reg) (c : Core) : Act → Core
  | .step => prog c
  | .timer => timerIsr pitIntrHandler (deliver rsp0 timer none c)
  | .keyboard => keyboardIsr keyboardIntrHandler (deliver rsp0 keyboard none c)

theorem Quiet.irq (h : Quiet live inv foot depth rsp0 prog) {handler : Cpu Reg → Cpu Reg}
    (hconv : Convention calleeSaved foot depth handler) (hlen : 8 * (16 + depth) ≤ 2 ^ 64)
    (entry : Word) {c c' : Core} (hinv : inv c.view) (hsame : Same live c c') :
    Same live c (irqIsr handler (deliver rsp0 entry none c')) := by
  obtain ⟨hview, hmem⟩ := hsame
  have hinv' : inv c'.view := by rwa [hview]
  obtain ⟨hback, hkeep⟩ := irqIsr_returns hconv rsp0 entry hlen fun x => h.apart (x := x) hinv'
  refine ⟨hback.trans hview, fun x hx => ?_⟩
  rw [hkeep x (h.unwritten hinv hx) (by rw [hview]; exact h.above hinv hx), hmem x hx]

/-- **Interrupts are not noticed.** With timer and keyboard interrupts
between its steps in any order, a program gets where it gets without them. -/
theorem interrupts_unnoticed (h : Quiet live inv foot depth rsp0 prog)
    (hpit : Convention calleeSaved foot depth pitIntrHandler)
    (hkeyboard : Convention calleeSaved foot depth keyboardIntrHandler)
    (hlen : 8 * (16 + depth) ≤ 2 ^ 64) (timer keyboard : Word) {c : Core} (hinv : inv c.view)
    (acts : List Act) :
    Same live (prog^[acts.count .step] c)
      (acts.foldl (Act.run rsp0 timer keyboard prog pitIntrHandler keyboardIntrHandler) c) := by
  suffices hgen : ∀ {d e : Core}, inv d.view → Same live d e →
      Same live (prog^[acts.count .step] d)
        (acts.foldl (Act.run rsp0 timer keyboard prog pitIntrHandler keyboardIntrHandler) e) from
    hgen hinv ⟨rfl, fun _ _ => rfl⟩
  induction acts with
  | nil => exact fun _ hsame => hsame
  | cons a acts ih =>
      intro d e hd hsame
      cases a with
      | step =>
          rw [List.count_cons_self, Function.iterate_succ_apply]
          exact ih (h.keeps hd) (h.congr hd hsame)
      | timer =>
          rw [List.count_cons_of_ne (by decide)]
          exact ih hd (h.irq hpit hlen timer hd hsame)
      | keyboard =>
          rw [List.count_cons_of_ne (by decide)]
          exact ih hd (h.irq hkeyboard hlen keyboard hd hsame)

def sampleProg (c : Core) : Core :=
  c.onCpu fun cpu => cpu.setReg .rax (cpu.regs .rax + word cpu.mem 0x400000)

theorem stackTop_sample {v : View} (h : v.cs = 0x2B) : stackTop 0x20000 v = 0x20000 := by
  rw [stackTop, h, if_neg (by decide)]
  rfl

theorem sampleProg_quiet :
    Quiet (fun _ x => 0x400000 ≤ x.toNat) (fun v => v.cs = 0x2B) (InSpan 0x1000 8) 0 0x20000
      sampleProg where
  keeps h := h
  congr {c c'} _ hsame := by
    obtain ⟨hview, hmem⟩ := hsame
    have hword : word c'.cpu.mem 0x400000 = word c.cpu.mem 0x400000 :=
      word_congr fun x hx => hmem x (hx.bounds (by decide)).1
    have hregs : c'.cpu.regs = c.cpu.regs := congrArg View.regs hview
    refine ⟨?_, hmem⟩
    have hstep : ∀ d : Core, (sampleProg d).view = { d.view with
        regs := Function.update d.view.regs .rax (d.cpu.regs .rax + word d.cpu.mem 0x400000) } :=
      fun _ => rfl
    rw [hstep, hstep, hview, hregs, hword]
  unwritten _ hx hin := by
    have hvar : _ < 0x1008 := (hin.bounds (by decide)).2
    omega
  above {v x} hinv hx hbelow := by
    rw [stackTop_sample hinv] at hbelow
    have := (below_sample (by decide) hbelow).2
    omega
  apart {v x} hinv hbelow := by
    rw [stackTop_sample hinv] at hbelow
    exact below_sample_apart (by decide) hbelow

theorem interrupts_unnoticed_sample :
    Same (fun _ x => 0x400000 ≤ x.toNat)
      (sampleProg^[2] ⟨⟨fun _ => 5, 0x7000, 0x400000, fun _ => 0⟩, 0x2B, 0x23, 0x202⟩)
      ([.step, .timer, .keyboard, .step, .timer].foldl
        (Act.run 0x20000 0x8000 0x9000 sampleProg sampleHandler sampleHandler)
        ⟨⟨fun _ => 5, 0x7000, 0x400000, fun _ => 0⟩, 0x2B, 0x23, 0x202⟩) :=
  interrupts_unnoticed sampleProg_quiet sampleHandler_convention sampleHandler_convention
    (by decide) 0x8000 0x9000 rfl [.step, .timer, .keyboard, .step, .timer]

end Unnoticed

end SnowOs.Interrupt
