import SnowOs.DirStreams
import SnowOs.HeapData
import SnowOs.Reaping

/-!
# The memory side of the system

`World` is everything the memory system has to do with: the machine, the
structures of the kernel heap, the processes that are not reaped yet, the
files that are open and the blocks of directory streams. `Step` is what
system calls, faults and the boot code do to it, in any order and for any
process.

`World.Ok` is the invariant of all runs in which no request for a frame is
refused (`Run.ok`). It holds the two things that make `kfree` harmless:
the books of the allocator, and that whatever is freed is a user address
or a block of the kernel heap. A step is then either a stretch of kernel
work or nothing at all (`Ok.work`).
-/

namespace SnowOs

open Radix Machine

/-! ## Worlds -/

/-- A process: its `kthread_t` and what the memory system reads of it. -/
structure MemProc where
  kthread : Word
  task : Task
deriving Repr, DecidableEq

/-- The memory side of the system: the processes that are not reaped yet,
the file objects that are open and the blocks of directory streams. -/
structure World where
  space : Space
  procs : List MemProc := []
  files : List Word := []
  dirs : List Word := []

def sizeofFileObject : BitVec 32 := 40

namespace Machine

open DirStreams (bufSize currentPoint fileCount files int place)

/-- The bytes of the current address space. An access to a page that is
not mapped does nothing here; its fault is a step of its own. -/
def memory (m : Machine) : ByteMemory.Memory 64 := fun v => (m.readByte m.cr3 v).getD 0

def storeInt (m : Machine) (a : Word) (x : Int) : Machine :=
  m.storeBytes a ((List.range 4).map fun k => BitVec.ofNat 8 ((BitVec.ofInt 32 x).toNat / 256 ^ k))

/-- The loop of `read_dir`, which reads the cursor again in every round. -/
def copyName (m : Machine) (stream filename : Word) : Machine :=
  (List.range bufSize).foldl (fun m i => m.writeByte m.cr3 (place filename i)
    (m.memory (place (files stream (int m.memory (currentPoint stream))) i))) m

def readDir (m : Machine) (stream filename : Word) : Machine :=
  if int m.memory (fileCount stream) ≤ int m.memory (currentPoint stream) then m
  else
    let m := m.copyName stream filename
    m.storeInt (currentPoint stream) (int m.memory (currentPoint stream) + 1)

theorem readDir_log (m : Machine) (stream filename : Word) :
    (m.readDir stream filename).log = m.log := by
  have hcopy : (m.copyName stream filename).log = m.log := by
    unfold copyName
    induction List.range bufSize generalizing m with
    | nil => rfl
    | cons i is ih => rw [List.foldl_cons, ih, writeByte_log]
  rw [readDir]
  split
  · rfl
  · exact (storeBytes_log ..).trans hcopy

end Machine

namespace World

def machine (y : World) : Machine := y.space.machine

def roots (y : World) : List Word := y.procs.map fun p => p.task.cr3

def setSpace (y : World) (s : Space) : World := { y with space := s }

def setMachine (y : World) (m : Machine) : World := y.setSpace (y.space.setMachine m)

/-- The world that `start` makes of the machine `init_paging` leaves:
`init_idle_process`, which is the first to ask for the file objects of the
terminal. -/
def boot (m : Machine) : World :=
  let k := ({ machine := m } : Space).kmalloc sizeofKthread
  let stdinFo := k.2.kmalloc sizeofFileObject
  let stdoutFo := stdinFo.2.kmalloc sizeofFileObject
  { space := stdoutFo.2, procs := [{ kthread := k.1, task := { cr3 := m.cr3, processMm := 0 } }] }

theorem boot_machine (m : Machine) : (boot m).machine
    = (((m.kmalloc sizeofKthread).2.kmalloc sizeofFileObject).2.kmalloc sizeofFileObject).2 := by
  have h : ∀ (s : Space) n, (s.kmalloc n).2.machine = (s.machine.kmalloc n).2 := fun _ _ => rfl
  rw [machine, boot]
  simp only [h]

theorem work_boot (roots : List Word) (m : Machine) : Work roots m roots (boot m).machine := by
  rw [boot_machine]
  exact ((work_kmalloc _).trans (work_kmalloc _)).trans (work_kmalloc _)

/-- `create_process`, on the program headers of the file or on a missing
file. -/
def createProcess (y : World) (file : Option (List Space.Elf64Phdr)) : World :=
  let r := y.space.loadProcess file
  { y with
    space := r.2.setMachine (r.2.machine.setNewCr3 y.machine.cr3)
    procs := { kthread := (y.space.kmalloc sizeofKthread).1, task := r.1 } :: y.procs }

/-- `exec_vpe` of the process `p` on a file that exists. -/
def execVpe (y : World) (p : MemProc) (phdrs : List Space.Elf64Phdr) : World :=
  let r := y.space.loadProcess (some phdrs)
  { y with
    space := r.2.setMachine (r.2.machine.setNewCr3 r.1.cr3)
    procs := { kthread := (y.space.kmalloc sizeofKthread).1, task := r.1 } :: y.procs.erase p }

def child (fuel : Nat) (y : World) (p : MemProc) : MemProc :=
  { kthread := (y.space.kmalloc sizeofKthread).1, task := (y.space.fork fuel p.task).1 }

def fork (fuel : Nat) (y : World) (p : MemProc) : World :=
  { y with
    space := (y.space.fork fuel p.task).2
    procs := y.child fuel p :: y.procs }

def reapProcess (y : World) (p : MemProc) : World :=
  { y.setMachine ((y.machine.cleanPageTables p.task.cr3).kfree p.kthread) with
    procs := y.procs.erase p }

/-- The file object of `SYSCALL_OPEN`. -/
def openFile (y : World) : World :=
  let k := y.space.kmalloc sizeofFileObject
  { y with space := k.2, files := k.1 :: y.files }

/-- `SYSCALL_CLOSE` of a file object whose count drops to zero. -/
def closeFile (y : World) (fo : Word) : World :=
  { y.setMachine (y.machine.kfree fo) with files := y.files.erase fo }

def closeDir (y : World) (stream : Word) : World := y.setMachine (y.machine.kfree stream)

/-- The block of `open_dir`. -/
def openDir (y : World) : World :=
  let k := y.space.kmalloc (BitVec.ofNat 32 DirStreams.sizeofDirHeader)
  { y with space := k.2, dirs := k.1 :: y.dirs }

theorem openDir_machine (y : World) : y.openDir.machine
    = (y.machine.kmalloc (BitVec.ofNat 32 DirStreams.sizeofDirHeader)).2 := by
  have h : ∀ n, (World.mk (y.space.kmalloc n).2 y.procs y.files
      ((y.space.kmalloc n).1 :: y.dirs)).machine = (y.machine.kmalloc n).2 := fun _ => rfl
  exact h _

theorem exists_mem_dirs_openDir (y : World) : ∃ d, d ∈ y.openDir.dirs := ⟨_, List.mem_cons_self ..⟩

/-- What `SYSCALL_READDIR` may be called with: a stream, or the address of
a cursor in user memory. -/
def Readable (y : World) (stream : Word) : Prop :=
  stream ∈ y.dirs ∨ ∀ k < 4, UserAddr (DirStreams.place stream k)

/-- `p` is the process that runs. -/
def Current (y : World) (p : MemProc) : Prop := p ∈ y.procs ∧ y.machine.cr3 = p.task.cr3

/-- What the kernel does on behalf of its processes. The addresses a
process stores to, and those of the buffers it passes, are in the user
half; files are loadable; an address passed to `close_dir` is not mapped,
or mapped to a frame that was handed out; and `read_dir` gets a stream or a
user address. What `get_folder` stores in its block is left open. -/
inductive Step : World → World → Prop
  | switch {y : World} {p : MemProc} : p ∈ y.procs →
      Step y (y.setMachine (y.machine.setNewCr3 p.task.cr3))
  | kmalloc {y : World} (n : BitVec 32) : Step y (y.setSpace (y.space.kmalloc n).2)
  | createProcess {y : World} {file : Option (List Space.Elf64Phdr)} : Space.Loadable file →
      Step y (y.createProcess file)
  | execVpe {y : World} {p : MemProc} {phdrs : List Space.Elf64Phdr} : y.Current p →
      Space.Loadable (some phdrs) → Step y (y.execVpe p phdrs)
  | fork {y : World} {p : MemProc} (fuel : Nat) : y.Current p → Step y (y.fork fuel p)
  | userMalloc {y : World} {p : MemProc} (bytes : Word) : y.Current p →
      Step y (y.setSpace (y.space.userMalloc p.task bytes).2)
  | store {y : World} {v : Word} (b : Byte) : UserAddr v →
      Step y (y.setMachine (y.machine.tryStore y.machine.cr3 v b))
  | copyOut {y : World} {v : Word} (b : Byte) : UserAddr v →
      Step y (y.setMachine (y.machine.writeByte y.machine.cr3 v b))
  | fault {y : World} {p : MemProc} {s : Space} (cr2 : Word) : y.Current p →
      y.space.pageFaultHandler p.task cr2 = some s → Step y (y.setSpace s)
  | userFree {y : World} {p : MemProc} (fuel : Nat) (addr : Word) : y.Current p →
      Step y (y.setSpace (y.space.userFree fuel p.task addr))
  | exit {y : World} {p : MemProc} (fuel : Nat) : y.Current p →
      Step y (y.setSpace (y.space.shallowCleanup fuel p.task))
  | reap {y : World} {p : MemProc} : p ∈ y.procs → y.machine.cr3 ∈ (y.reapProcess p).roots →
      Step y (y.reapProcess p)
  | openFile {y : World} : Step y y.openFile
  | closeFile {y : World} {fo : Word} : fo ∈ y.files → Step y (y.closeFile fo)
  | closeDir {y : World} {stream : Word} : Releasable y.machine stream →
      Step y (y.closeDir stream)
  | openDir {y : World} : Step y y.openDir
  | fillDir {y : World} {d : Word} {k : Nat} (b : Byte) : d ∈ y.dirs →
      k < DirStreams.sizeofDirHeader →
      Step y (y.setMachine (y.machine.writeByte y.machine.cr3 (DirStreams.place d k) b))
  | readDir {y : World} {stream filename : Word} : y.Readable stream →
      (∀ i < DirStreams.bufSize, UserAddr (DirStreams.place filename i)) →
      Step y (y.setMachine (y.machine.readDir stream filename))

/-- Runs in which no request for a frame is refused. -/
inductive Run (y₀ : World) : World → Prop
  | refl : Run y₀ y₀
  | step {y y' : World} : Run y₀ y → Step y y' → (0 : Word) ∉ y'.machine.log → Run y₀ y'

theorem Run.trans {y₀ y y' : World} (h : Run y₀ y) (h' : Run y y') : Run y₀ y' := by
  induction h' with
  | refl => exact h
  | step _ hstep hlog ih => exact ih.step hstep hlog

theorem machine_setMachine (y : World) (m : Machine) : (y.setMachine m).machine = m := rfl

/-! ## The system in order -/

/-- The structures of a process are blocks of the kernel heap. -/
structure ProcOk (m : Machine) (p : MemProc) : Prop where
  kthread : Block m p.kthread
  processMm : Block m p.task.processMm

/-- Everything `kfree` may be called with is accounted for, and all kernel
halves hang off `pdpt`. -/
structure Ok (y : World) (pdpt : Word) : Prop where
  owned : Owned y.roots y.machine (some pdpt)
  books : ∃ l, y.machine.Ledger l
  space : y.space.Ok
  procs : ∀ p ∈ y.procs, ProcOk y.machine p
  files : ∀ fo ∈ y.files, Block y.machine fo
  dirs : ∀ d ∈ y.dirs, ∀ k < DirStreams.sizeofDirHeader,
    InHeap y.roots y.machine (DirStreams.place d k)

section Ok

variable {y y' : World} {p : MemProc} {pdpt : Word}

theorem ProcOk.mono {m m' : Machine} (h : ProcOk m p) (hlog : m.log <:+ m'.log) : ProcOk m' p :=
  ⟨h.kthread.mono hlog, h.processMm.mono hlog⟩

theorem mem_roots (h : p ∈ y.procs) : p.task.cr3 ∈ y.roots := List.mem_map.mpr ⟨p, h, rfl⟩

/-! ### Steps that give memory back do nothing -/

/-- Reaping a process frees none of its tables. -/
theorem Ok.reapProcess (h : y.Ok pdpt) (hp : p ∈ y.procs) :
    y.reapProcess p = { y with procs := y.procs.erase p } := by
  obtain ⟨l, hbooks⟩ := h.books
  rw [World.reapProcess, h.owned.cleanPageTables hbooks (mem_roots hp),
    h.owned.kfree_block hbooks (h.procs p hp).kthread]
  rfl

theorem Ok.closeFile (h : y.Ok pdpt) {fo : Word} (hfo : fo ∈ y.files) :
    y.closeFile fo = { y with files := y.files.erase fo } := by
  obtain ⟨l, hbooks⟩ := h.books
  rw [World.closeFile, h.owned.kfree_block hbooks (h.files fo hfo)]
  rfl

theorem Ok.shallowCleanup (h : y.Ok pdpt) (hp : p ∈ y.procs) (fuel : Nat) :
    y.space.shallowCleanup fuel p.task = y.space := by
  obtain ⟨l, hbooks⟩ := h.books
  exact h.space.shallowCleanup h.owned hbooks (h.procs p hp).processMm fuel

theorem Ok.userFree (h : y.Ok pdpt) (fuel : Nat) (task : Task) (addr : Word) :
    y.space.userFree fuel task addr = y.space := by
  obtain ⟨l, hbooks⟩ := h.books
  exact h.space.userFree h.owned hbooks fuel task addr

/-! ### What a step does -/

/-- What a step does in a world in order: a stretch of kernel work that
leaves the address spaces `roots`, some of which may go, with a new
process, a new file or a new stream at most. -/
structure Does (y y' : World) (roots : List Word) : Prop where
  work : Work y.roots y.machine roots y'.machine
  lives : y'.roots ⊆ roots
  current : y'.machine.cr3 ∈ roots → y'.machine.cr3 ∈ y'.roots
  space : y'.space.Ok
  procs : ∀ p ∈ y'.procs, p ∈ y.procs ∨ ProcOk y'.machine p
  files : ∀ fo ∈ y'.files, fo ∈ y.files ∨ Block y'.machine fo
  dirs : ∀ d ∈ y'.dirs, d ∈ y.dirs ∨ ∀ k < DirStreams.sizeofDirHeader,
    InHeap roots y'.machine (DirStreams.place d k)

theorem does_setSpace {s : Space} (hwork : Work y.roots y.machine y.roots s.machine)
    (hs : s.Ok) : Does y (y.setSpace s) y.roots :=
  ⟨hwork, fun _ hr => hr, id, hs, fun _ hp => Or.inl hp, fun _ hfo => Or.inl hfo,
    fun _ hd => Or.inl hd⟩

theorem does_setMachine {m : Machine} (hs : y.space.Ok)
    (hwork : Work y.roots y.machine y.roots m) : Does y (y.setMachine m) y.roots :=
  does_setSpace hwork (hs.setMachine hwork.log_suffix)

theorem Ok.loadProcess (h : y.Ok pdpt) {file : Option (List Space.Elf64Phdr)}
    (hfile : Space.Loadable file) :
    Work y.roots y.machine ((y.space.loadProcess file).1.cr3 :: y.roots)
        (y.space.loadProcess file).2.machine ∧
      (y.space.loadProcess file).2.Ok ∧
      ProcOk (y.space.loadProcess file).2.machine
        { kthread := (y.space.kmalloc sizeofKthread).1, task := (y.space.loadProcess file).1 } := by
  obtain ⟨hok, hkthread, hmm⟩ := h.space.loadProcess hfile
  exact ⟨Space.work_loadProcess hfile.inUserHalf, hok, hkthread, hmm⟩

theorem inHeap_kmalloc {s : Space} {roots : List Word} (howned : Owned roots s.machine (some pdpt))
    {n : BitVec 32} (hn : noOfPages n ≤ maxPages) (hlog : (0 : Word) ∉ (s.kmalloc n).2.machine.log)
    {k : Nat} (hk : k < noOfPages n * 4096) :
    InHeap roots (s.kmalloc n).2.machine (DirStreams.place (s.kmalloc n).1 k) :=
  howned.inHeap_kmalloc hn hlog hk

/-- The name goes to the user half. -/
theorem work_copyName {roots : List Word} {m : Machine} {filename : Word} (stream : Word)
    (hname : ∀ i < DirStreams.bufSize, UserAddr (DirStreams.place filename i)) :
    Work roots m roots (m.copyName stream filename) := by
  have hrounds : ∀ (is : List Nat) (m : Machine), (∀ i ∈ is, i < DirStreams.bufSize) →
      Work roots m roots (is.foldl (fun m i => m.writeByte m.cr3 (DirStreams.place filename i)
        (m.memory (DirStreams.place (DirStreams.files stream
          (DirStreams.int m.memory (DirStreams.currentPoint stream))) i))) m) := by
    intro is
    induction is with
    | nil => exact fun _ _ => .refl
    | cons i is ih =>
        intro m his
        have hfirst := hname i (his i (List.mem_cons_self ..))
        exact (Move.store _ hfirst.userPath).work.trans
          (ih _ fun j hj => his j (List.mem_cons_of_mem _ hj))
  exact hrounds _ m fun i hi => List.mem_range.mp hi

theorem Ok.work_readDir (h : y.Ok pdpt) {stream filename : Word} (hstream : y.Readable stream)
    (hname : ∀ i < DirStreams.bufSize, UserAddr (DirStreams.place filename i))
    (hlog : (0 : Word) ∉ (y.machine.readDir stream filename).log) :
    Work y.roots y.machine y.roots (y.machine.readDir stream filename) := by
  rw [Machine.readDir] at hlog ⊢
  split
  · exact .refl
  rename_i hmore
  rw [if_neg hmore] at hlog
  have hcopy : Work y.roots y.machine y.roots (y.machine.copyName stream filename) :=
    work_copyName stream hname
  generalize y.machine.copyName stream filename = m at hlog hcopy ⊢
  have hplace : ∀ i, DirStreams.currentPoint stream + BitVec.ofNat 64 i
      = DirStreams.place stream i := fun i => by
    rw [DirStreams.currentPoint, DirStreams.place, DirStreams.place,
      show BitVec.ofNat 64 0 = 0#64 from rfl, BitVec.add_zero]
  refine hcopy.trans ?_
  rw [Machine.storeInt] at hlog ⊢
  rcases hstream with hdir | huser
  · have hlog' : (0 : Word) ∉ m.log := by rwa [storeBytes_log] at hlog
    refine work_storeHeap (hcopy.owned hlog' h.owned) hlog' fun i hi => ?_
    rw [hplace]
    refine hcopy.inHeap hlog' h.owned (h.dirs stream hdir i ?_)
    rw [List.length_map, List.length_range] at hi
    exact hi.trans (by decide)
  · refine work_storeBytes fun i hi => ?_
    rw [List.length_map, List.length_range] at hi
    rw [hplace]
    exact (huser i hi).userPath

theorem Ok.does (h : y.Ok pdpt) (hstep : Step y y') (hlog : (0 : Word) ∉ y'.machine.log) :
    ∃ roots, Does y y' roots := by
  cases hstep with
  | switch hp => exact ⟨_, does_setMachine h.space (Move.switch (mem_roots hp)).work⟩
  | kmalloc n => exact ⟨_, does_setSpace (work_kmalloc n) (h.space.kmalloc n)⟩
  | createProcess hfile =>
      obtain ⟨hwork, hok, hproc⟩ := h.loadProcess hfile
      refine ⟨_, hwork.trans (Move.switch (List.mem_cons_of_mem _ h.owned.current)).work,
        fun _ hr => hr, id, hok.setMachine (List.suffix_refl _), fun p hp => ?_, fun _ => Or.inl,
        fun _ => Or.inl⟩
      rcases List.mem_cons.mp hp with rfl | hp
      · exact Or.inr (hproc.mono (List.suffix_refl _))
      · exact Or.inl hp
  | @execVpe p phdrs _ hfile =>
      obtain ⟨hwork, hok, hproc⟩ := h.loadProcess hfile
      refine ⟨_, hwork.trans (Move.switch (List.mem_cons_self ..)).work, ?_,
        fun _ => List.mem_cons_self .., hok.setMachine (List.suffix_refl _), fun q hq => ?_,
        fun _ => Or.inl, fun _ => Or.inl⟩
      · exact List.cons_subset_cons _ (List.map_subset _ List.erase_subset)
      · rcases List.mem_cons.mp hq with rfl | hq
        · exact Or.inr (hproc.mono (List.suffix_refl _))
        · exact Or.inl (List.mem_of_mem_erase hq)
  | @fork p fuel hp =>
      have hwork := Space.work_fork (s := y.space) (mem_roots hp.1) fuel
      obtain ⟨hok, hkthread, hmm⟩ := h.space.fork fuel p.task
      refine ⟨_, hwork, fun _ hr => hr, id, hok, fun q hq => ?_, fun _ => Or.inl,
        fun _ => Or.inl⟩
      rcases List.mem_cons.mp hq with rfl | hq
      · exact Or.inr ⟨hkthread, hmm⟩
      · exact Or.inl hq
  | @userMalloc p bytes hp =>
      exact ⟨_, does_setSpace (Space.work_userMalloc p.task bytes)
        (h.space.userMalloc p.task bytes)⟩
  | store b hv => exact ⟨_, does_setMachine h.space (work_tryStore hv b)⟩
  | copyOut b hv => exact ⟨_, does_setMachine h.space (Move.store b hv.userPath).work⟩
  | fault cr2 hp hfault =>
      exact ⟨_, does_setSpace (Space.work_pageFaultHandler hfault)
        (h.space.pageFaultHandler hfault)⟩
  | userFree fuel addr hp =>
      rw [h.userFree]
      exact ⟨_, does_setSpace .refl h.space⟩
  | exit fuel hp =>
      rw [h.shallowCleanup hp.1]
      exact ⟨_, does_setSpace .refl h.space⟩
  | @reap p hp hcur =>
      rw [h.reapProcess hp] at hcur ⊢
      exact ⟨_, .refl, List.map_subset _ List.erase_subset, fun _ => hcur, h.space,
        fun q hq => Or.inl (List.mem_of_mem_erase hq), fun _ => Or.inl, fun _ => Or.inl⟩
  | openFile =>
      have hblock := y.space.kmalloc_block (n := sizeofFileObject) (by decide)
      refine ⟨_, work_kmalloc sizeofFileObject, fun _ hr => hr, id, h.space.kmalloc _,
        fun _ => Or.inl, fun fo hfo => ?_, fun _ => Or.inl⟩
      rcases List.mem_cons.mp hfo with rfl | hfo
      · exact Or.inr hblock
      · exact Or.inl hfo
  | closeFile hfo =>
      rw [h.closeFile hfo]
      exact ⟨_, .refl, fun _ hr => hr, id, h.space, fun _ => Or.inl,
        fun _ hmem => Or.inl (List.mem_of_mem_erase hmem), fun _ => Or.inl⟩
  | closeDir hptr =>
      obtain ⟨l, hbooks⟩ := h.books
      rw [World.closeDir, kfree_of_keepsFrame ((h.owned.keepsFrame_iff hbooks _).mpr hptr)]
      exact ⟨_, does_setSpace .refl h.space⟩
  | openDir =>
      have hpages : noOfPages (BitVec.ofNat 32 DirStreams.sizeofDirHeader) = 3 := by decide
      have hsize : DirStreams.sizeofDirHeader < 3 * 4096 := by decide
      rw [openDir] at hlog ⊢
      generalize BitVec.ofNat 32 DirStreams.sizeofDirHeader = n at hpages hlog ⊢
      refine ⟨_, work_kmalloc n, fun _ hr => hr, id, h.space.kmalloc n, fun _ => Or.inl,
        fun _ => Or.inl, fun d hd => ?_⟩
      rcases List.mem_cons.mp hd with rfl | hd
      · refine Or.inr fun k hk => inHeap_kmalloc h.owned (by rw [hpages]; decide) hlog ?_
        rw [hpages]
        exact hk.trans hsize
      · exact Or.inl hd
  | fillDir b hd hk =>
      exact ⟨_, does_setMachine h.space (Move.heapStore b (h.dirs _ hd _ hk)).work⟩
  | readDir hstream hname =>
      exact ⟨_, does_setMachine h.space (h.work_readDir hstream hname hlog)⟩

theorem Does.ok {roots : List Word} (hdoes : Does y y' roots) (h : y.Ok pdpt)
    (hlog : (0 : Word) ∉ y'.machine.log) : y'.Ok pdpt := by
  obtain ⟨l, hbooks⟩ := h.books
  obtain ⟨ts, hcharges⟩ := hdoes.work.charges
  obtain ⟨l', hbooks', -⟩ := hbooks.charges hcharges hlog
  have howned := hdoes.work.owned hlog h.owned
  have hgrow := hdoes.work.log_suffix
  have hcur := hdoes.current howned.current
  refine ⟨howned.mono hdoes.lives hcur, ⟨l', hbooks'⟩, hdoes.space, fun p hp => ?_,
    fun fo hfo => ?_, fun d hd k hk => ?_⟩
  · exact (hdoes.procs p hp).elim (fun hold => (h.procs p hold).mono hgrow) id
  · exact (hdoes.files fo hfo).elim (fun hold => (h.files fo hold).mono hgrow) id
  · refine InHeap.mono ?_ hdoes.lives hcur
    exact (hdoes.dirs d hd).elim
      (fun hold => hdoes.work.inHeap hlog h.owned (h.dirs d hold k hk)) fun hnew => hnew k hk

/-- A run keeps the world in order, and only takes frames. -/
theorem Run.ok (hrun : Run y y') (h : y.Ok pdpt) :
    y'.Ok pdpt ∧ ∃ ts, y.machine.Posts ts y'.machine := by
  induction hrun with
  | refl => exact ⟨h, [], .refl⟩
  | step _ hstep hlog ih =>
      obtain ⟨hok, ts, hposts⟩ := ih
      obtain ⟨roots, hdoes⟩ := hok.does hstep hlog
      obtain ⟨us, hposts'⟩ := hdoes.work.posts
      exact ⟨hdoes.ok hok hlog, _, hposts.trans hposts'⟩

end Ok

end World

end SnowOs
