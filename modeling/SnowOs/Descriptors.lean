import SnowOs.ByteMemory
import SnowOs.FileReads

/-!
# File descriptors (`SYSCALL_OPEN`, `READ`, `WRITE` and `CLOSE`)

The descriptor table, the file objects its slots point to and the tables
of functions these point to are bytes of one memory, and so are the
archive and the buffers of the processes. The system calls are written
over that memory as `handle_syscall` has them, with every pointer read
back from it: what keeps one descriptor's offset apart from another's is
only where the blocks lie. The table is meant to be a map from
descriptors to cursors, which a history of calls and results determines
(`cursors`, `RefinesCursors`).
-/

namespace SnowOs

open ByteMemory

namespace Vfs

def numFds : Nat := 16

/-! ## What the calls print -/

inductive Output
  | invalidFd
  | writeNotSupported (fd : Nat)
  | writeNotSetup (fd : Nat)
  | writeNotHandled (fd : Nat)
  | noWriting (fd : Nat)
  | readNotSupported (fd : Nat)
  | readNotSetup
  | readNotHandled (fd : Nat)
  | noReading (fd : Nat)
  | incorrectFd
  | cantClose (fd : Nat)
  | notOpen (fd : Nat)
  | char (c : Byte)
deriving DecidableEq, Repr

def Output.text : Output → String
  | .invalidFd => "Invalid FD #, must be between 0 and " ++ toString numFds ++ "\n"
  | .writeNotSupported fd => "Write op not supported on FD #" ++ toString fd
  | .writeNotSetup fd => "FD " ++ toString fd ++ " is not setup yet!\n"
  | .writeNotHandled fd => "#" ++ toString fd ++ ": this file descriptor isn't handled for write\n"
  | .noWriting fd => "FD # " ++ toString fd ++ " does not support writing.\n"
  | .readNotSupported fd => "Read op not supported on FD #" ++ toString fd
  -- the format has `$d` for `%d`, so the number is not printed
  | .readNotSetup => "FD $d is not setup yet!\n"
  | .readNotHandled fd => "#" ++ toString fd ++ ": this file descriptor isn't handled for read\n"
  | .noReading fd => "FD # " ++ toString fd ++ " does not support reading.\n"
  | .incorrectFd => "FD # is incorrect!\n"
  | .cantClose fd => "Can't close FD #" ++ toString fd ++ "\n"
  | .notOpen fd => "FD #" ++ toString fd ++ " is not open\n"
  | .char c => String.singleton (Char.ofNat c.toNat)

/-! ## Where things lie -/

/-- The addresses the calls work with. -/
structure Addresses where
  /-- `cur_kt->fds` -/
  fds : Word
  /-- the variable `tarfs_impl` -/
  tarfsImpl : Word
  /-- the structure `terminal_fs_impl` -/
  terminalFsImpl : Word
  stdinFo : Word
  stdoutFo : Word
  /-- the archive, and its length -/
  tarfsStart : Word
  tarfsSize : Nat
  /-- the functions that tables of functions point to -/
  tarfsRead : Word
  terminalRead : Word
  terminalWrite : Word

/-- What a block of kernel memory is for. -/
inductive Owner
  | fds
  | tarfsImplVar
  | terminalFsImpl
  | stdinFo
  | stdoutFo
  | tarfs
  | tarfsImpl
  | file (fd : Nat)
deriving DecidableEq, Repr

/-- An address and a length. -/
abbrev Block := Word × Nat

def Addresses.static (L : Addresses) : Owner → Option Block
  | .fds => some (L.fds, 8 * numFds)
  | .tarfsImplVar => some (L.tarfsImpl, 8)
  | .terminalFsImpl => some (L.terminalFsImpl, 16)
  | .stdinFo => some (L.stdinFo, 40)
  | .stdoutFo => some (L.stdoutFo, 40)
  | .tarfs => some (L.tarfsStart, L.tarfsSize)
  | .tarfsImpl => none
  | .file _ => none

def KernelBlock (b : Block) : Prop :=
  kernelVirtualBase.toNat ≤ b.1.toNat ∧ b.1.toNat + b.2 ≤ 2 ^ 64

/-- Addresses as the linker and `kmalloc` give them: blocks in kernel
memory that do not overlap, and functions at different addresses. -/
structure Layout extends Addresses where
  kernel : ∀ o b, toAddresses.static o = some b → KernelBlock b
  apart : ∀ o o' b b', o ≠ o' → toAddresses.static o = some b →
    toAddresses.static o' = some b' → Apart b.1 b.2 b'.1 b'.2
  tarfsRead_ne : tarfsRead ≠ 0
  terminalRead_ne : terminalRead ≠ 0
  terminalWrite_ne : terminalWrite ≠ 0
  terminalRead_ne_tarfsRead : terminalRead ≠ tarfsRead

/-! ## Pointers and structures -/

def word (m : Memory 64) (a : Word) : Word := BitVec.ofNat 64 (load m a 8)

def setWord (m : Memory 64) (a v : Word) : Memory 64 := store m a 8 v.toNat

/-- The address of a field of a structure. -/
def field (a : Word) (offset : Nat) : Word := a + BitVec.ofNat 64 offset

/-! Of `file_sys_impl_t` -/

def readImpl (m : Memory 64) (impl : Word) : Word := word m (field impl 0)

def writeImpl (m : Memory 64) (impl : Word) : Word := word m (field impl 8)

/-! Of `file_object_t` -/

def fileSysImpl (m : Memory 64) (fo : Word) : Word := word m (field fo 8)

def refCount (m : Memory 64) (fo : Word) : Nat := load m (field fo 16) 2

def contentStart (m : Memory 64) (fo : Word) : Word := word m (field fo 24)

def offset (m : Memory 64) (fo : Word) : Nat := load m (field fo 32) 4

/-! ## The system calls -/

/-- Memory, with what has been printed and the blocks in use. -/
structure Files where
  mem : Memory 64
  console : List Output
  blocks : List Block

/-- What a `terminal_read` comes to: its result, and what it stores at
which index of the buffer. Both are up to the keyboard. -/
structure Typed where
  result : Int
  stores : List (Int × Byte)

def Typed.write (t : Typed) (m : Memory 64) (buffer : Word) : Memory 64 :=
  t.stores.foldl (fun m w => Function.update m (buffer + BitVec.ofInt 64 w.1) w.2) m

/-- The loop of `tarfs_read` from round `i` on, at most `n` rounds; `c` is
the address of the byte of round 0. -/
def tarfsReadLoop (buf c : Word) : Nat → Nat → Memory 64 → Nat × Memory 64
  | 0, i, m => (i, m)
  | n + 1, i, m =>
      if Tarfs.isEof (m (field c i)) then (i, m)
      else tarfsReadLoop buf c n (i + 1) (Function.update m (field buf i) (m (field c i)))

/-- `tarfs_read`, on memory. The offset is passed as an `int`. -/
def tarfsRead (m : Memory 64) (buffer : Word) (len : Int) (file : Word) (offset : Nat) :
    Int × Memory 64 :=
  let r := tarfsReadLoop buffer (file + (BitVec.ofNat 32 offset).signExtend 64) len.toNat 0 m
  (if len ≤ 0 then len else r.1, r.2)

def intArg (arg : Word) : Int := (arg.setWidth 32).toInt

namespace Files

variable (L : Addresses)

def kprintf (s : Files) (o : Output) : Files := { s with console := o :: s.console }

/-- `cur_kt->fds[fd]`. -/
def slot (s : Files) (fd : Nat) : Word := word s.mem (field L.fds (8 * fd))

def image (s : Files) : List Byte := bytes s.mem L.tarfsStart L.tarfsSize

def terminalWrite (s : Files) (buffer : Word) (len : Int) : Int × Files :=
  if len ≤ 0 then (0, s)
  else
    (len, (List.range len.toNat).foldl (fun t i => t.kprintf (.char (s.mem (field buffer i)))) s)

/-- `SYSCALL_WRITE`; `none` is a call to an address that is no function of
this type. -/
def write (s : Files) (arg2 arg3 arg4 : Word) : Option (Int × Files) :=
  let fd := arg2.toNat
  let fo := s.slot L fd
  let impl := fileSysImpl s.mem fo
  let fn := writeImpl s.mem impl
  if numFds ≤ fd then some (-1, s.kprintf .invalidFd)
  else if fd = 0 then some (-1, s.kprintf (.writeNotSupported fd))
  else if fo = 0 then some (-1, s.kprintf (.writeNotSetup fd))
  else if impl = 0 then some (-1, s.kprintf (.writeNotHandled fd))
  else if fn = 0 then some (-1, s.kprintf (.noWriting fd))
  else if fn = L.terminalWrite then some (s.terminalWrite arg3 (intArg arg4))
  else none

def callRead (s : Files) (typed : Typed) (fn buffer : Word) (len : Int) (fo : Word) :
    Option (Int × Memory 64) :=
  if fn = L.tarfsRead then
    some (tarfsRead s.mem buffer len (contentStart s.mem fo) (offset s.mem fo))
  else if fn = L.terminalRead then some (typed.result, typed.write s.mem buffer)
  else none

/-- `fo->offset += len_read`, after a positive result. -/
def addOffset (m : Memory 64) (fo : Word) (r : Int) : Memory 64 :=
  if 0 < r then store m (field fo 32) 4 (offset m fo + r.toNat) else m

/-- `SYSCALL_READ`. -/
def read (s : Files) (typed : Typed) (arg2 arg3 arg4 : Word) : Option (Int × Files) :=
  let fd := arg2.toNat
  let fo := s.slot L fd
  let impl := fileSysImpl s.mem fo
  let fn := readImpl s.mem impl
  if numFds ≤ fd then some (-1, s.kprintf .invalidFd)
  else if fd = 1 ∨ fd = 2 then some (-1, s.kprintf (.readNotSupported fd))
  else if fo = 0 then some (-1, s.kprintf .readNotSetup)
  else if impl = 0 then some (-1, s.kprintf (.readNotHandled fd))
  else if fn = 0 then some (-1, s.kprintf (.noReading fd))
  else (s.callRead L typed fn arg3 (intArg arg4) fo).map fun r =>
    (r.1, { s with mem := addOffset r.2 fo r.1 })

/-- `get_tarfs_impl`; `impl` is what `kmalloc` returns if it is called. -/
def getTarfsImpl (s : Files) (impl : Word) : Word × Files :=
  if word s.mem L.tarfsImpl = 0 then
    let m := setWord s.mem L.tarfsImpl impl
    let m := setWord m (field impl 0) L.tarfsRead
    (impl, { s with mem := setWord m (field impl 8) 0, blocks := (impl, 16) :: s.blocks })
  else (word s.mem L.tarfsImpl, s)

/-- The search for a slot in `SYSCALL_OPEN`. -/
def fdIdx (s : Files) : Option Nat := (List.range' 3 13).find? fun fd => s.slot L fd = 0

/-- The name a lookup compares: no name in the archive is longer. -/
def filename (s : Files) (arg2 : Word) : List Byte := bytes s.mem arg2 (L.tarfsSize + 1)

/-- The new file object of `SYSCALL_OPEN`, filled in and entered. -/
def install (s : Files) (arg2 file : Word) (fd : Nat) (fo impl : Word) : Files :=
  let m := setWord s.mem (field fo 0) arg2
  let m := store m (field fo 32) 4 0
  let m := store m (field fo 16) 2 1
  let r := getTarfsImpl L { s with mem := m, blocks := (fo, 40) :: s.blocks } impl
  let m := setWord r.2.mem (field fo 8) r.1
  let m := setWord m (field fo 24) file
  { r.2 with mem := setWord m (field L.fds (8 * fd)) fo }

/-- `SYSCALL_OPEN`; `fo` and `impl` are what `kmalloc` returns. -/
def sysOpen (s : Files) (arg2 fo impl : Word) : Int × Files :=
  match Tarfs.getFileBinary (s.image L) (s.filename L arg2) with
  | none => (-1, s)
  | some file =>
      match s.fdIdx L with
      | none => (-2, s)
      | some fd => (fd, s.install L arg2 (field L.tarfsStart file) fd fo impl)

/-- `SYSCALL_CLOSE`. The frame of a block keeps its reference, so `kfree`
leaves the bytes as they are. -/
def close (s : Files) (arg2 : Word) : Int × Files :=
  let fd := arg2.toNat
  let fo := s.slot L fd
  let m := store s.mem (field fo 16) 2 (refCount s.mem fo + (2 ^ 16 - 1))
  if numFds ≤ fd then (-1, s.kprintf .incorrectFd)
  else if fd = 0 ∨ fd = 1 ∨ fd = 2 then (-1, s.kprintf (.cantClose fd))
  else if fo = 0 then (-1, s.kprintf (.notOpen fd))
  else if refCount m fo = 0 then
    (0, { s with mem := setWord m (field L.fds (8 * fd)) 0,
                 blocks := s.blocks.filter (· ≠ (fo, 40)) })
  else (0, { s with mem := m })

end Files

/-! ## Runs -/

inductive Call
  | open (arg2 : Word)
  | read (arg2 arg3 arg4 : Word) (typed : Typed)
  | write (arg2 arg3 arg4 : Word)
  | close (arg2 : Word)

/-- One system call; `fo` and `impl` are the blocks `kmalloc` has next. -/
def Files.handle (L : Addresses) (s : Files) (fo impl : Word) : Call → Option (Int × Files)
  | .open arg2 => some (s.sysOpen L arg2 fo impl)
  | .read arg2 arg3 arg4 typed => s.read L typed arg2 arg3 arg4
  | .write arg2 arg3 arg4 => s.write L arg2 arg3 arg4
  | .close arg2 => some (s.close L arg2)

/-- A block that `kmalloc` can return: in kernel memory, and apart from
the blocks in use. -/
def Files.Fresh (s : Files) (b : Block) : Prop :=
  KernelBlock b ∧ ∀ c ∈ s.blocks, Apart b.1 b.2 c.1 c.2

/-- `kmalloc` has two blocks. -/
structure Files.Kmalloc (s : Files) (fo impl : Word) : Prop where
  object : s.Fresh (fo, 40)
  functions : s.Fresh (impl, 16)
  apart : Apart fo 40 impl 16

/-- The runs of one process whose calls meet a condition, with the calls
made and their results, newest first. -/
inductive Run (L : Addresses) (ok : Call → Prop) (s₀ : Files) :
    Files → List (Call × Int) → Prop
  | start : Run L ok s₀ s₀ []
  | call {s s' : Files} {h : List (Call × Int)} {c : Call} {r : Int} {fo impl : Word}
      (run : Run L ok s₀ s h) (kmalloc : s.Kmalloc fo impl) (hok : ok c)
      (hcall : s.handle L fo impl c = some (r, s')) : Run L ok s₀ s' ((c, r) :: h)

/-- The functions of the archive in a block of their own, as the first `OPEN`
of any process leaves them. -/
structure Files.Functions (L : Addresses) (s : Files) (t : Word) : Prop where
  inUse : (t, 16) ∈ s.blocks
  kernel : KernelBlock (t, 16)
  apart : ∀ o b, L.static o = some b → Apart t 16 b.1 b.2
  fns : readImpl s.mem t = L.tarfsRead ∧ writeImpl s.mem t = 0

/-- The state of a new process: the terminal in slots 0 to 2, nothing in
the others. The archive ends with an empty block. -/
structure Start (L : Addresses) (s : Files) : Prop where
  inUse : ∀ o b, L.static o = some b → b ∈ s.blocks
  stdin : s.slot L 0 = L.stdinFo
  stdout : s.slot L 1 = L.stdoutFo ∧ s.slot L 2 = L.stdoutFo
  terminal : ∀ fo, fo = L.stdinFo ∨ fo = L.stdoutFo → fileSysImpl s.mem fo = L.terminalFsImpl
  terminalFns : readImpl s.mem L.terminalFsImpl = L.terminalRead ∧
    writeImpl s.mem L.terminalFsImpl = L.terminalWrite
  empty : ∀ fd, 3 ≤ fd → fd < numFds → s.slot L fd = 0
  impl : word s.mem L.tarfsImpl = 0 ∨ s.Functions L (word s.mem L.tarfsImpl)
  zeroBlock : ∀ i, L.tarfsSize - 512 ≤ i → i < L.tarfsSize → s.mem (field L.tarfsStart i) = 0#8

/-! ## The map of cursors -/

/-- What a call and its result say about the open descriptors. -/
def track (c : Nat → Option Nat) : Call × Int → Nat → Option Nat
  | (.open _, r) => if 0 ≤ r then Function.update c r.toNat (some 0) else c
  | (.read arg2 _ _ _, r) =>
      if 0 < r then Function.update c arg2.toNat ((c arg2.toNat).map (· + r.toNat)) else c
  | (.write _ _ _, _) => c
  | (.close arg2, _) => Function.update c arg2.toNat none

/-- The open descriptors after a history, each with the bytes read from it
since it was opened. -/
def cursors : List (Call × Int) → Nat → Option Nat
  | [] => fun _ => none
  | e :: h => track (cursors h) e

/-- What the table has for a descriptor: nothing, or an offset. -/
def Files.cursor (L : Addresses) (s : Files) (fd : Nat) : Option Nat :=
  if s.slot L fd = 0 then none else some (offset s.mem (s.slot L fd))

/-- What a call has to answer: `OPEN` of a file takes the least empty slot
or reports that there is none, and after -1 or -2 nothing has changed. -/
structure Answers (L : Addresses) (s : Files) (c : Call) (r : Int) (s' : Files) : Prop where
  full : ∀ arg2, c = .open arg2 →
    (Tarfs.getFileBinary (s.image L) (s.filename L arg2)).isSome = true →
    (r = -2 ↔ ∀ fd, 3 ≤ fd → fd < numFds → s.slot L fd ≠ 0)
  least : ∀ arg2, c = .open arg2 →
    (Tarfs.getFileBinary (s.image L) (s.filename L arg2)).isSome = true → r ≠ -2 →
    ∃ fd : Nat, r = fd ∧ 3 ≤ fd ∧ fd < numFds ∧ s.slot L fd = 0 ∧
      ∀ i, 3 ≤ i → i < fd → s.slot L i ≠ 0
  failed : r = -1 ∨ r = -2 → (∀ fd, fd < numFds → s'.slot L fd = s.slot L fd) ∧
    ∀ fd, 3 ≤ fd → fd < numFds → s'.cursor L fd = s.cursor L fd

/-- A state reached is the map of cursors of its history. -/
structure RefinesCursors (L : Addresses) (ok : Call → Prop) (s₀ s : Files)
    (h : List (Call × Int)) : Prop where
  cursor : ∀ fd, 3 ≤ fd → fd < numFds → s.cursor L fd = cursors h fd
  standard : ∀ fd, fd < 3 → s.slot L fd = s₀.slot L fd
  answers : ∀ c fo impl r s', s.Kmalloc fo impl → ok c → s.handle L fo impl c = some (r, s') →
    Answers L s c r s'

/-- Buffers below `kernel_virtual_base`. -/
def UserBuffer : Call → Prop
  | .read arg2 arg3 arg4 typed =>
      if arg2 = 0 then
        ∀ w ∈ typed.stores, (arg3 + BitVec.ofInt 64 w.1).toNat < kernelVirtualBase.toNat
      else arg3.toNat + (intArg arg4).toNat ≤ kernelVirtualBase.toNat
  | _ => True

end Vfs

end SnowOs
