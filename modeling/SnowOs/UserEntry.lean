import SnowOs.Interrupts
import SnowOs.SwitchRuns

/-!
# Into the kernel and back (`sys/syscalls.s`, `libc/syscall_wrapper.c`, `sys/process.c`)

A system call goes through three register conventions: the wrappers of the C
library load `rax`, `rbx`, `rcx`, `rdx`, `rsi` and `rdi`, `syscall_isr` moves
these to where a C function has its arguments, and the result comes back in
`rax`. The function gets the arguments in order, and of the caller's
registers only `rax` changes (`syscall_returns`).

`syscall_isr` leaves through words on the kernel stack, so a copy of the
stack will do: the child of a `fork` goes back to where its parent made the
system call (`fork_child_user`). A process that has made none goes to user
mode by a frame that `go_to_ring3` or `go_to_ring3_exec` pushes
(`created_starts`, `goToRing3Exec_view`).
-/

namespace SnowOs.Interrupt

open ByteMemory StackMachine Kthread

/-! ## The code -/

/-- The registers that `syscall_isr` pushes: all but `rax`, and `rdi` twice. -/
def syscallSaved : List Reg :=
  [.rcx, .rdx, .rbx, .rbp, .rsi, .rdi, .r8, .r9, .r10, .r11, .r12, .r13, .r14, .r15, .rdi]

/-- From the registers of the wrappers to those of a C function. -/
def syscallMoves : List (Instr Reg) :=
  [.mov .rsi .r8, .mov .rdi .r9, .mov .rcx .r15, .mov .rdx .rcx, .mov .r15 .rdx, .mov .rbx .rsi,
    .mov .rax .rdi]

/-- What `syscall_isr` and the interrupt before it have pushed. -/
def savedWords (v : View) : List Word := syscallSaved.reverse.map v.regs ++ (frame v).reverse

/-- `syscall_isr` after the call. -/
def syscallExit (c : Core) : Core := iretq (c.onCpu (exec (syscallSaved.reverse.map .pop)))

def syscallIsr (handleSyscall : Cpu Reg → Cpu Reg) (c : Core) : Core :=
  syscallExit (c.sti.onCpu
    (exec (syscallSaved.map .push ++ (syscallMoves ++ [.call handleSyscall]))))

/-- The registers that the wrappers load, in the order of the arguments. -/
def wrapperRegs : List Reg := [.rax, .rbx, .rcx, .rdx, .rsi, .rdi]

/-- The registers in which a C function has its arguments. -/
def argRegs : List Reg := [.rdi, .rsi, .rdx, .rcx, .r8, .r9]

def loadRegs (rs : List Reg) (args : List Word) (regs : Reg → Word) : Reg → Word :=
  (rs.zip args).foldl (fun regs p => Function.update regs p.1 p.2) regs

/-- What `int 0x80` gets to: the stack of the TSS, the stub and the function
it calls. -/
structure Trap where
  rsp0 : Word
  entry : Word
  handleSyscall : Cpu Reg → Cpu Reg

def Trap.int80 (t : Trap) (c : Core) : Core :=
  syscallIsr t.handleSyscall (deliver t.rsp0 t.entry none c)

/-- A wrapper, with its result. The code is an enumeration of four bytes; the
`movq` loads eight, and `code` below is all of them. -/
def Trap.syscall (t : Trap) (args : List Word) (c : Core) : Word × Core :=
  let c := t.int80 (c.onCpu fun cpu => { cpu with regs := loadRegs wrapperRegs args cpu.regs })
  (c.cpu.regs .rax, c)

def Trap.syscall1 (t : Trap) (code : Word) : Core → Word × Core := t.syscall [code]

def Trap.syscall2 (t : Trap) (code arg2 : Word) : Core → Word × Core := t.syscall [code, arg2]

def Trap.syscall3 (t : Trap) (code arg2 arg3 : Word) : Core → Word × Core :=
  t.syscall [code, arg2, arg3]

def Trap.syscall4 (t : Trap) (code arg2 arg3 arg4 : Word) : Core → Word × Core :=
  t.syscall [code, arg2, arg3, arg4]

def Trap.syscall5 (t : Trap) (code arg2 arg3 arg4 arg5 : Word) : Core → Word × Core :=
  t.syscall [code, arg2, arg3, arg4, arg5]

def Trap.syscall6 (t : Trap) (code arg2 arg3 arg4 arg5 arg6 : Word) : Core → Word × Core :=
  t.syscall [code, arg2, arg3, arg4, arg5, arg6]

/-! ## A system call -/

/-- `syscall_isr` leaves by words on the stack: all registers but `rax` are
taken from there. -/
theorem syscallExit_of_words {c : Core} {v : View}
    (h : Words c.cpu.mem c.cpu.sp (savedWords v)) :
    (syscallExit c).view = { v with regs := Function.update v.regs .rax (c.cpu.regs .rax) } ∧
      (syscallExit c).cpu.mem = c.cpu.mem := by
  obtain ⟨hsaved, hframe⟩ := words_append.mp h
  have hregs : (fun r => if r ∈ syscallSaved.reverse then v.regs r else c.cpu.regs r)
      = Function.update v.regs .rax (c.cpu.regs .rax) := by
    funext r
    cases r <;> rfl
  have hcpu : (c.onCpu (exec (syscallSaved.reverse.map .pop))).cpu
      = ⟨Function.update v.regs .rax (c.cpu.regs .rax),
          up c.cpu.sp (syscallSaved.reverse.map v.regs).length, c.cpu.rip, c.cpu.mem⟩ := by
    rw [Core.onCpu_cpu, exec_pop v.regs hsaved, hregs, List.length_map]
  exact iretq_of_frame (v := { v with regs := Function.update v.regs .rax (c.cpu.regs .rax) })
    hcpu hframe

theorem loadRegs_of_notMem {r : Reg} {rs : List Reg} (hr : r ∉ rs) (args : List Word)
    (regs : Reg → Word) : loadRegs rs args regs r = regs r := by
  induction rs generalizing args regs with
  | nil => rfl
  | cons q rs ih =>
      cases args with
      | nil => rfl
      | cons a args =>
          rw [List.mem_cons, not_or] at hr
          obtain ⟨hq, hrs⟩ := hr
          exact (ih hrs args _).trans (Function.update_of_ne hq ..)

/-- The registers have the arguments, as far as there are some. -/
theorem map_loadRegs {rs : List Reg} (hrs : rs.Nodup) {args : List Word}
    (hlen : args.length ≤ rs.length) (regs : Reg → Word) :
    (rs.take args.length).map (loadRegs rs args regs) = args := by
  induction rs generalizing args regs with
  | nil =>
      obtain rfl : args = [] := List.length_eq_zero_iff.mp (Nat.le_zero.mp hlen)
      rfl
  | cons r rs ih =>
      cases args with
      | nil => rfl
      | cons a args =>
          obtain ⟨hr, hrs⟩ := List.nodup_cons.mp hrs
          have hload : loadRegs (r :: rs) (a :: args) regs
              = loadRegs rs args (Function.update regs r a) := rfl
          rw [hload, List.length_cons, List.take_succ_cons, List.map_cons,
            loadRegs_of_notMem hr, Function.update_self, ih hrs (Nat.le_of_succ_le_succ hlen)]

theorem exec_syscallMoves (c : Cpu Reg) :
    (exec syscallMoves c).sp = c.sp ∧ (exec syscallMoves c).mem = c.mem ∧
      argRegs.map (exec syscallMoves c).regs = wrapperRegs.map c.regs :=
  ⟨rfl, rfl, rfl⟩

section Syscall

variable {foot : Word → Prop} {depth : Nat} {t : Trap} {c : Core}

/-- **`int 0x80`.** There is a state in which the function is called with the
caller's registers as its arguments. The caller goes on with its result, and
with the memory it leaves. -/
theorem int80_returns (hconv : Convention calleeSaved foot depth t.handleSyscall)
    (hlen : 8 * (20 + depth) ≤ 2 ^ 64)
    (hfoot : ∀ x, Below (stackTop t.rsp0 c.view) 20 x → ¬ foot x) :
    ∃ d : Cpu Reg, argRegs.map d.regs = wrapperRegs.map c.cpu.regs ∧
      (∀ x, ¬ Below (stackTop t.rsp0 c.view) 20 x → d.mem x = c.cpu.mem x) ∧
      (t.int80 c).view = { c.view with
        regs := Function.update c.cpu.regs .rax ((t.handleSyscall d).regs .rax) } ∧
      (t.int80 c).cpu.mem = (t.handleSyscall d).mem := by
  obtain ⟨hregs, hsp, hwords, hchanged⟩ := deliver_spec t.rsp0 t.entry none c
  rw [show 5 + (none : Option Word).toList.length = 5 from rfl] at hsp hchanged
  rw [← hsp] at hwords
  have hpushes := pushes_pushAll (syscallSaved.map c.cpu.regs) hwords
    (show 8 * (15 + 5) ≤ 2 ^ 64 by decide)
  generalize hc₁ : (deliver t.rsp0 t.entry none c).cpu.pushAll (syscallSaved.map c.cpu.regs) = c₁
    at hpushes
  obtain ⟨hregs₁, -, hsp₁, hwords₁, hchanged₁⟩ := hpushes
  obtain ⟨hmovesSp, hmovesMem, hargs⟩ := exec_syscallMoves c₁
  generalize hd : exec syscallMoves c₁ = d at hmovesSp hmovesMem hargs
  have hbody : exec (syscallSaved.map .push ++ (syscallMoves ++ [.call t.handleSyscall]))
      (deliver t.rsp0 t.entry none c).cpu = t.handleSyscall d := by
    rw [exec_append, exec_push, hregs, hc₁, exec_append, hd]
    rfl
  have hlow : c₁.sp = down (stackTop t.rsp0 c.view) 20 := by
    rw [hsp₁, hsp, down_down]
    rfl
  have hexit := syscallExit_of_words (v := c.view) (c := (deliver t.rsp0 t.entry none c).sti.onCpu
    (exec (syscallSaved.map .push ++ (syscallMoves ++ [.call t.handleSyscall]))))
  have hcpu : ((deliver t.rsp0 t.entry none c).sti.onCpu
      (exec (syscallSaved.map .push ++ (syscallMoves ++ [.call t.handleSyscall])))).cpu
      = t.handleSyscall d := hbody
  rw [hcpu] at hexit
  refine ⟨d, ?_, fun x hx => ?_, hexit ?_⟩
  · rw [hargs, hregs₁, hregs]
  · rw [hmovesMem]
    refine (hchanged₁ x fun h => hx ?_).trans (hchanged x fun h => hx (h.mono (by decide)))
    rw [hlow] at h
    exact inSpan_up (k := 0) (by rwa [up_zero]) (by decide : 8 * 0 + 8 * 15 ≤ 8 * 20)
  · rw [hconv.sp, hmovesSp]
    rw [← List.map_reverse] at hwords₁
    refine hwords₁.congr fun x hx => ?_
    have htop : Below (stackTop t.rsp0 c.view) 20 x := by
      rw [Below, ← hlow]
      exact hx
    rw [hconv.mem d x (hfoot x htop) ?_, hmovesMem]
    rw [hmovesSp, hlow]
    exact htop.not_down hlen

/-- **A system call.** The function gets the arguments of the wrapper in
order, up to six of them, and the caller gets its result; the caller's other
registers are those the wrapper loaded. -/
theorem syscall_returns (hconv : Convention calleeSaved foot depth t.handleSyscall)
    (hlen : 8 * (20 + depth) ≤ 2 ^ 64)
    (hfoot : ∀ x, Below (stackTop t.rsp0 c.view) 20 x → ¬ foot x) (args : List Word)
    (hargs : args.length ≤ 6) :
    ∃ d : Cpu Reg, (argRegs.take args.length).map d.regs = args ∧
      (∀ x, ¬ Below (stackTop t.rsp0 c.view) 20 x → d.mem x = c.cpu.mem x) ∧
      (t.syscall args c).1 = (t.handleSyscall d).regs .rax ∧
      (t.syscall args c).2.view = { c.view with
        regs := Function.update (loadRegs wrapperRegs args c.cpu.regs) .rax
          ((t.handleSyscall d).regs .rax) } ∧
      (t.syscall args c).2.cpu.mem = (t.handleSyscall d).mem := by
  obtain ⟨d, hd, hmem, hview, hmem'⟩ := int80_returns (t := t)
    (c := c.onCpu fun cpu => { cpu with regs := loadRegs wrapperRegs args cpu.regs })
    hconv hlen hfoot
  refine ⟨d, ?_, hmem, ?_, hview, hmem'⟩
  · rw [List.map_take, hd, ← List.map_take]
    exact map_loadRegs (by decide) hargs c.cpu.regs
  · have hrax : (t.syscall args c).2.view.regs .rax = _ := congrArg (fun v => v.regs .rax) hview
    exact hrax.trans (by simp)

/-- A call of `write` that is answered by `sampleHandler`. -/
theorem syscall_returns_write :
    ∃ d : Cpu Reg, [d.regs .rdi, d.regs .rsi, d.regs .rdx, d.regs .rcx] = [2, 1, 0x7000, 5] ∧
      ((⟨0x20000, 0x8000, sampleHandler⟩ : Trap).syscall4 2 1 0x7000 5
        ⟨⟨fun _ => 5, 0x7000, 0x400000, fun _ => 0⟩, 0x2B, 0x23, 0x202⟩).1 = 7 := by
  obtain ⟨d, hargs, -, hresult, -⟩ := syscall_returns (t := ⟨0x20000, 0x8000, sampleHandler⟩)
    (c := ⟨⟨fun _ => 5, 0x7000, 0x400000, fun _ => 0⟩, 0x2B, 0x23, 0x202⟩)
    sampleHandler_convention (by decide) (fun _ => below_sample_apart (by decide))
    [2, 1, 0x7000, 5] (by decide)
  exact ⟨d, hargs, hresult⟩

end Syscall

/-! ## `fork` -/

/-- Words are where words are copied to. -/
theorem words_copy {m m' : Memory 64} {t u : Word} {i : Nat} {vs : List Word}
    (h : Words m (kStack t i) vs) (hlen : i + vs.length ≤ kStackSize)
    (heq : ∀ n, i ≤ n → n < kStackSize → word m' (kStack u n) = word m (kStack t n)) :
    Words m' (kStack u i) vs := by
  induction vs generalizing i with
  | nil => trivial
  | cons v vs ih =>
      obtain ⟨hv, hvs⟩ := h
      rw [List.length_cons] at hlen
      rw [kStack_up] at hvs
      refine ⟨(heq i le_rfl (by omega)).trans hv, ?_⟩
      rw [kStack_up]
      exact ih hvs (by omega) fun n hn => heq n (by omega)

theorem word_of_stackOf {m m' : Memory 64} {t u : Word} {i n : Nat}
    (h : stackOf m' u (kStack u i) = stackOf m t (kStack t i)) (hin : i ≤ n) (hn : n < kStackSize) :
    word m' (kStack u n) = word m (kStack t n) := by
  rw [stackOf_kStack m' u (by omega), stackOf_kStack m t (by omega)] at h
  have hword := List.map_inj_left.mp h (n - i) (List.mem_range.mpr (by omega))
  rwa [Nat.add_sub_cancel' hin] at hword

/-- `put_in_rax`, which ends with a `ret`. -/
def putInRax : List (Instr Reg) := [.mov .rdi .rax, .ret]

/-- The end of a compiled function with `size` words in its frame. The
registers that it gives back are left out: `syscall_isr` pops all but
`rax`. -/
def leave (size : Nat) : List (Instr Reg) := [.addSp (BitVec.ofNat 64 (8 * size)), .ret]

/-- The end of `fork`, from the call of `put_in_rax` with the `pid` of the
child on. -/
def forkEnd (pid back : Word) (size : Nat) (c : Cpu Reg) : Cpu Reg :=
  exec (leave size) (exec putInRax ((c.setReg .rdi pid).push back))

/-- The end of `handle_syscall` for `SYSCALL_FORK`: `rax` goes through
`fork_ret_val`, which is word `k` of the frame. -/
def forkRetVal (k size : Nat) (c : Cpu Reg) : Cpu Reg :=
  let m := setWord c.mem (up c.sp k) (-1)
  let m := setWord m (up c.sp k) (c.regs .rax)
  exec (leave size) (Cpu.setReg { c with mem := m } .rax (word m (up c.sp k)))

section Fork

variable {t : Word} {i n k size : Nat} {vs : List Word}

theorem leave_sp {c : Cpu Reg} (hsp : c.sp = kStack t n) :
    (exec (leave size) c).sp = kStack t (n + size + 1) := by
  rw [← kStack_up, ← kStack_up, ← hsp]
  rfl

/-- Words above the frame of `handle_syscall` are where they were. -/
theorem forkRetVal_spec {c : Cpu Reg} (hsp : c.sp = kStack t n) (hk : k < size)
    (hlen : n + size + 1 + vs.length ≤ kStackSize) (h : Words c.mem (kStack t (n + size + 1)) vs) :
    (forkRetVal k size c).regs .rax = c.regs .rax ∧
      Words (forkRetVal k size c).mem (forkRetVal k size c).sp vs := by
  constructor
  · exact word_setWord_self ..
  · have hup : (forkRetVal k size c).sp = kStack t (n + size + 1) := leave_sp hsp
    rw [hup]
    refine h.congr fun x hx => ?_
    have hslot : ¬ InSpan (up c.sp k) 8 x := by
      rw [hsp, kStack_up]
      exact fun hin => kStack_apart t (n := 1) (by omega) hlen x hin hx
    exact (setWord_apply hslot).trans (setWord_apply hslot)

/-- The call pushes one word below the stack pointer. -/
theorem forkEnd_spec {c : Cpu Reg} (pid back : Word) (size : Nat) (hsp : c.sp = kStack t n)
    (hn : 0 < n) (hlen : i + vs.length ≤ kStackSize) (hi : n ≤ i)
    (h : Words c.mem (kStack t i) vs) :
    (forkEnd pid back size c).regs .rax = pid ∧
      (forkEnd pid back size c).sp = kStack t (n + size + 1) ∧
      Words (forkEnd pid back size c).mem (kStack t i) vs := by
  obtain ⟨n, rfl⟩ := Nat.exists_eq_add_of_lt hn
  rw [Nat.zero_add] at hsp hi ⊢
  have hdown : down c.sp 1 = kStack t n := by rw [hsp, kStack_down]
  refine ⟨rfl, leave_sp ?_, h.congr fun x hx => setWord_apply ?_⟩
  · change up (down c.sp 1) 1 = _
    rw [hdown, kStack_up]
  · rw [Cpu.setReg_sp, hdown]
    exact fun hin => kStack_apart t (n := 1) hi hlen x hin hx

/-- What `handle_syscall` returns for `SYSCALL_FORK` goes to user mode. -/
theorem syscallExit_forkRetVal {c : Core} {v : View} (hsp : c.cpu.sp = kStack t n) (hk : k < size)
    (hlen : n + size + 1 + (savedWords v).length ≤ kStackSize)
    (h : Words c.cpu.mem (kStack t (n + size + 1)) (savedWords v)) :
    (syscallExit (c.onCpu (forkRetVal k size))).view
      = { v with regs := Function.update v.regs .rax (c.cpu.regs .rax) } := by
  obtain ⟨hrax, hwords⟩ := forkRetVal_spec hsp hk hlen h
  have hexit := (syscallExit_of_words (c := c.onCpu (forkRetVal k size)) hwords).1
  rwa [Core.onCpu_cpu, hrax] at hexit

/-- **`fork` from user mode.** The registers of a system call and the frame
of its interrupt lie on the parent's stack, behind the frames of `fork` and
`handle_syscall`. When these have returned, the parent is back in user mode
with the child's `pid` as the result. In every run that goes on from the
`fork`, the child gets to the same place with 0. -/
theorem fork_child_user {var : Word} {block : Word → Prop} {c₀ c : Cpu Reg}
    {history : List Kthread.Event} (hblocks : Blocks var block) (hstart : block (word c₀.mem var))
    (h : Run var block c₀ history c) {child returnVal rsp diff : Word} {j r : Nat}
    (hchild : block child) (hfork : AtFork c.mem (word c.mem var) child returnVal rsp diff j r)
    (back : Word) (regs : Reg → Word) {v : View} (hk : k < size)
    (hlen : r + size + 22 ≤ kStackSize)
    (hcall : Words c.mem (kStack (word c.mem var) (r + size + 2)) (savedWords v)) :
    ∃ m' born,
      forkStack kStackSize (word c.mem var) child returnVal rsp diff back regs c.mem = some m' ∧
      (∀ (d : Core) (pid back' : Word), d.cpu.sp = rsp →
        stackOf d.cpu.mem (word c.mem var) (kStack (word c.mem var) r)
          = stackOf m' (word c.mem var) (kStack (word c.mem var) r) →
        (syscallExit ((d.onCpu (forkEnd pid back' (r - j))).onCpu (forkRetVal k size))).view
          = { v with regs := Function.update v.regs .rax pid }) ∧
      (∀ c' : Cpu Reg, c'.mem = m' → Run var block c₀ (history ++ [.spawn child born]) c') ∧
      ∀ {later : List Kthread.Event} {t : Word} {left taken : Context} {c' : Cpu Reg},
        (∀ e ∈ later, ¬ Event.Names child e) →
        Run var block c₀ (history ++ [.spawn child born] ++ later ++ [.switch t child left taken])
          c' →
        ∀ d : Core, context child d.cpu = taken →
          (syscallExit (d.onCpu (forkRetVal k size))).view
            = { v with regs := Function.update v.regs .rax 0 } := by
  obtain ⟨m', hm', hparent, hrun⟩ := h.fork hblocks hstart hchild hfork back regs
  obtain ⟨hj, hjr, hr⟩ := hfork.inside
  have hsize : r + 1 + size + 1 + (savedWords v).length ≤ kStackSize := by
    rw [show (savedWords v).length = 20 from rfl]
    omega
  rw [show r + size + 2 = r + 1 + size + 1 by omega] at hcall
  refine ⟨m', _, hm', fun d pid back' hsp hstack => ?_, hrun,
    fun {later t left taken c'} hlater hswitch d hd => ?_⟩
  · have hwords := words_copy hcall hsize fun n hn =>
      word_of_stackOf (hstack.trans hparent) (by omega)
    obtain ⟨hrax, hsp', hwords'⟩ := forkEnd_spec pid back' (r - j) (hsp.trans hfork.stack)
      hj hsize (by omega) hwords
    rw [Nat.add_sub_cancel' hjr] at hsp'
    have hexit := syscallExit_forkRetVal (c := d.onCpu (forkEnd pid back' (r - j))) hsp' hk hsize
      hwords'
    rwa [Core.onCpu_cpu, hrax] at hexit
  · obtain rfl := taken_of_spawn hblocks hstart hlater hswitch
    have hsp : d.cpu.sp = kStack child (r + 1) := congrArg Context.sp hd
    have hrax : d.cpu.regs .rax = 0 :=
      (congrFun (congrArg Context.regs hd) .rax).trans (childContext_rax regs)
    have hstack : stackOf d.cpu.mem child d.cpu.sp = _ := congrArg Context.stack hd
    rw [hsp] at hstack
    have hwords := words_copy hcall hsize fun n hn => word_of_stackOf hstack (by omega)
    rw [← hrax]
    exact syscallExit_forkRetVal hsp hk hsize hwords

end Fork

/-- What a process has in its registers when it calls `fork`. -/
def forkView : View where
  regs r := if r = .rbx then 7 else 5
  sp := 0x7000
  rip := 0x400000
  cs := 0x2B
  ss := 0x23
  flags := 0x202

/-- The machine of `forkSample` in a system call of that process, with eight
words in the frame of `handle_syscall`. -/
def forkCall : Cpu Reg :=
  { forkSample with
    mem := (Cpu.pushAll { forkSample with sp := kStack 0x10000 50 }
      (frame forkView ++ syscallSaved.map forkView.regs)).mem }

theorem fork_child_user_sample :
    ∃ m' born,
      forkStack kStackSize 0x10000 0x20000 0x1234 (kStack 0x10000 18) (kStack 0x10000 19) 0
        (fun _ => 0) forkCall.mem = some m' ∧
      (syscallExit (Core.onCpu (Core.onCpu ⟨⟨fun _ => 0, kStack 0x10000 18, 0, m'⟩, 8, 0, 0x202⟩
        (forkEnd 2 0x1300 2)) (forkRetVal 3 8))).view
        = { forkView with regs := Function.update forkView.regs .rax 2 } ∧
      (∀ c' : Cpu Reg, c'.mem = m' → Run 0x1000 TwoBlocks forkCall [.spawn 0x20000 born] c') ∧
      ∀ {t : Word} {left taken : Context} {c' : Cpu Reg},
        Run 0x1000 TwoBlocks forkCall [.spawn 0x20000 born, .switch t 0x20000 left taken] c' →
        ∀ d : Core, context 0x20000 d.cpu = taken →
          (syscallExit (d.onCpu (forkRetVal 3 8))).view
            = { forkView with regs := Function.update forkView.regs .rax 0 } := by
  have hcur : word forkCall.mem 0x1000 = 0x10000 := by decide +kernel
  have hfork : AtFork forkCall.mem (word forkCall.mem 0x1000) 0x20000 0x1234
      (kStack 0x10000 18) (kStack 0x10000 19) 18 20 := by
    rw [hcur]
    exact { forkSample_atFork with
      fresh := by decide +kernel
      returns := by decide +kernel
      first := fun i hlow hhigh => by interval_cases i <;> decide +kernel }
  obtain ⟨m', born, hm', hparent, hrun, hchild⟩ := fork_child_user twoBlocks_blocks
    (by rw [hcur]; exact Or.inl rfl) Run.start (Or.inr rfl) hfork 0 (fun _ => 0) (v := forkView)
    (show 3 < 8 by decide) (by decide) (by rw [hcur]; decide +kernel)
  rw [hcur] at hm'
  exact ⟨m', born, hm',
    hparent ⟨⟨fun _ => 0, kStack 0x10000 18, 0, m'⟩, 8, 0, 0x202⟩ 2 0x1300 rfl rfl, hrun,
    hchild (List.forall_mem_nil _)⟩

/-! ## Into user mode for the first time -/

/-- `t->rsp_user`. -/
def rspUser (m : Memory 64) (t : Word) : Word := word m (up t 1)

/-- `t->rip`, which comes after the stack, `pid`, `cr3` and `process_mm` in
a packed block. -/
def ripOf (m : Memory 64) (t : Word) : Word := word m (t + 32804)

/-- The frame that is pushed to enter user mode. -/
def userFrame (rsp flags rip : Word) : List Word := [0x23, rsp, flags, 0x2B, rip]

/-- `go_to_ring3`, for the process in the variable at `var`. -/
def goToRing3 (var : Word) (c : Core) : Core :=
  let t := word c.cpu.mem var
  let rsp := rspUser c.cpu.mem t
  iretq (c.onCpu fun cpu =>
    (cpu.setReg .rax rsp).pushAll (userFrame rsp c.flags (ripOf c.cpu.mem t)))

def goToRing3Exec (var argc userStackPtr : Word) (c : Core) : Core :=
  let t := word c.cpu.mem var
  let rsp := rspUser c.cpu.mem t
  let c := c.sti
  iretq (c.onCpu fun cpu =>
    let cpu := { cpu with sp := word cpu.mem t }
    let cpu := (cpu.setReg .rax rsp).pushAll (userFrame rsp c.flags (ripOf c.cpu.mem t))
    (cpu.setReg .rsi userStackPtr).setReg .rdi argc)

theorem iretq_pushed {c : Core} (d : Cpu Reg) (rsp flags rip : Word)
    (hsp : c.cpu.sp = (d.pushAll (userFrame rsp flags rip)).sp)
    (hmem : c.cpu.mem = (d.pushAll (userFrame rsp flags rip)).mem) :
    (iretq c).view = ⟨c.cpu.regs, rsp, rip, 0x2B, 0x23, flags⟩ := by
  have hpushes : Pushes d [] (userFrame rsp flags rip) (d.pushAll (userFrame rsp flags rip)) :=
    pushes_pushAll _ trivial (show 8 * (5 + 0) ≤ 2 ^ 64 by decide)
  have hwords := hpushes.words
  rw [List.append_nil, ← hsp, ← hmem] at hwords
  exact (iretq_of_frame (v := ⟨c.cpu.regs, rsp, rip, 0x2B, 0x23, flags⟩) rfl hwords).1

theorem goToRing3_view (var : Word) (c : Core) :
    (goToRing3 var c).view
      = ⟨Function.update c.cpu.regs .rax (rspUser c.cpu.mem (word c.cpu.mem var)),
          rspUser c.cpu.mem (word c.cpu.mem var), ripOf c.cpu.mem (word c.cpu.mem var), 0x2B, 0x23,
          c.flags⟩ := by
  rw [goToRing3, iretq_pushed _ _ _ _ rfl rfl, Core.onCpu_cpu, Cpu.pushAll_regs]
  rfl

theorem goToRing3Exec_view (var argc userStackPtr : Word) (c : Core) :
    (goToRing3Exec var argc userStackPtr c).view
      = ⟨Function.update (Function.update
            (Function.update c.cpu.regs .rax (rspUser c.cpu.mem (word c.cpu.mem var)))
            .rsi userStackPtr) .rdi argc,
          rspUser c.cpu.mem (word c.cpu.mem var), ripOf c.cpu.mem (word c.cpu.mem var), 0x2B, 0x23,
          c.sti.flags⟩ := by
  refine (iretq_pushed
    (Cpu.setReg { c.cpu with sp := word c.cpu.mem (word c.cpu.mem var) } .rax
      (rspUser c.cpu.mem (word c.cpu.mem var)))
    (rspUser c.cpu.mem (word c.cpu.mem var)) c.sti.flags (ripOf c.cpu.mem (word c.cpu.mem var))
    ?_ ?_).trans ?_
  · rw [Core.onCpu_cpu, Cpu.setReg_sp, Cpu.setReg_sp, Core.sti_cpu]
  · rw [Core.onCpu_cpu, Cpu.setReg_mem, Cpu.setReg_mem, Core.sti_cpu]
  · simp only [Core.onCpu_cpu, Cpu.setReg, Cpu.pushAll_regs]
    rfl

/-- **The first time a created process runs.** The switch to it goes to
`entry`, which is the address of `go_to_ring3`, and that goes to user mode at
the place and with the stack that its block names. -/
theorem created_starts {var cur t entry : Word} {m : Memory 64} {c : Core}
    (hat : AtSwitch var c.cpu cur) (hrsi : c.cpu.regs .rsi = t)
    (hbuilt : ∀ x, ContextSpan t x → c.cpu.mem x = createStack m t entry x)
    (hapart : ∀ x, ContextSpan t x ∨ InSpan (up t 1) 8 x ∨ InSpan (t + 32804) 8 x →
      ¬ ContextSpan cur x ∧ ¬ InSpan var 8 x) :
    (c.onCpu (exec switchTo)).cpu.rip = entry ∧
      ∃ regs, (goToRing3 var (c.onCpu (exec switchTo))).view
        = ⟨regs, rspUser c.cpu.mem t, ripOf c.cpu.mem t, 0x2B, 0x23, c.flags⟩ := by
  obtain ⟨regs, hsusp⟩ := createStack_suspended m t entry
  obtain ⟨hcontext, hvar, -, hframe⟩ := exec_switchTo hat hrsi (hsusp.congr hbuilt)
    fun x hx => hapart x (Or.inl hx)
  have hfield : ∀ a, (∀ x, InSpan a 8 x → ¬ ContextSpan cur x ∧ ¬ InSpan var 8 x) →
      word (exec switchTo c.cpu).mem a = word c.cpu.mem a := fun a ha =>
    word_congr fun x hx => hframe x (ha x hx).1 (ha x hx).2
  have huser : rspUser (exec switchTo c.cpu).mem t = rspUser c.cpu.mem t :=
    hfield _ fun x hx => hapart x (Or.inr (Or.inl hx))
  have hrip : ripOf (exec switchTo c.cpu).mem t = ripOf c.cpu.mem t :=
    hfield _ fun x hx => hapart x (Or.inr (Or.inr hx))
  rw [goToRing3_view, Core.onCpu_cpu, hvar, huser, hrip, ← context_rip t, hcontext]
  exact ⟨rfl, _, rfl⟩

/-- A call of `switch_to` by the process in the block at `0x10000`, for a
new process at `0x20000`. -/
def switchSample : Core where
  cpu :=
    { regs := fun r => if r = .rdi then 0x1000 else if r = .rsi then 0x20000 else 0
      sp := kStack 0x10000 100
      rip := 0
      mem := setWord (createStack (fun _ => 0) 0x20000 0x4000) 0x1000 0x10000 }
  cs := 8
  ss := 0
  flags := 0x202

theorem switchSample_apart {x : Word} (hx : 0x20000 ≤ x.toNat) :
    ¬ ContextSpan 0x10000 x ∧ ¬ InSpan 0x1000 8 x := by
  constructor
  · intro h
    have hlt : x.toNat < 0x10000 + 8 * (2 + 4096) := (h.bounds (by decide)).2
    omega
  · intro h
    have hlt : x.toNat < 0x1008 := (h.bounds (by decide)).2
    omega

theorem switchSample_atSwitch : AtSwitch 0x1000 switchSample.cpu 0x10000 where
  arg := rfl
  current := word_setWord_self ..
  stack := ⟨100, by decide, by decide, rfl⟩
  apart x hx hin := by
    have hlow : 0x10000 ≤ x.toNat := (hx.bounds (by decide)).1
    have hlt : x.toNat < 0x1008 := (hin.bounds (by decide)).2
    omega

theorem created_starts_sample : (switchSample.onCpu (exec switchTo)).cpu.rip = 0x4000 := by
  have hrsi : switchSample.cpu.regs .rsi = 0x20000 := rfl
  refine (created_starts switchSample_atSwitch hrsi (m := fun _ => 0) (fun x hx => ?_)
    fun x hx => switchSample_apart ?_).1
  · exact setWord_apply (switchSample_apart (hx.bounds (by decide)).1).2
  · rcases hx with hx | hx | hx
    · exact (hx.bounds (by decide)).1
    · exact le_trans (by decide) (hx.bounds (by decide)).1
    · exact le_trans (by decide) (hx.bounds (by decide)).1

end SnowOs.Interrupt
