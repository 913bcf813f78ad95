import SnowOs.Descriptors

/-!
# The descriptor table is a map of cursors

The invariant says what the kernel has allocated (`Heap`), that the
blocks lie apart in kernel memory, and what the block of each owner
contains (`Holds`). Contents depend on the owner's block only, so a call
has to be looked at for the blocks it writes: `Table.frame`, `Table.write`
and `Table.setFile` carry all the others over.

`SYSCALL_READ` passes the buffer on as the process gave it. A buffer that
points into the kernel makes `tarfs_read` write over a file object
(`read_over_offset`). As long as every buffer lies below
`kernel_virtual_base`, each state reached is the map of cursors of its
history (`descriptors_are_cursors`).
-/

namespace SnowOs

open ByteMemory

namespace Tarfs

/-- What can be read from a position of the archive on. -/
def fileText (image : List Byte) (start : Nat) : List Byte :=
  (image.drop start).takeWhile fun c => !isEof c

theorem readLoop_eq (n : Nat) (file : List Byte) :
    readLoop n file = (file.takeWhile fun c => !isEof c).take n := by
  induction n generalizing file with
  | zero => rfl
  | succ n ih =>
      cases file with
      | nil => rfl
      | cons c file =>
          rw [readLoop, List.takeWhile_cons]
          cases hc : isEof c with
          | true => simp
          | false => simp [ih]

end Tarfs

namespace Vfs

open Tarfs (fileText isEof)

/-! ## Loads and stores of fields -/

section Fields

variable {m m' : Memory 64} {a : Word} {n i k : Nat}

theorem load_field (h : ∀ x, InSpan a n x → m' x = m x) (hik : i + k ≤ n) :
    load m' (field a i) k = load m (field a i) k :=
  load_congr fun x hx => h x (hx.sub hik)

theorem word_field (h : ∀ x, InSpan a n x → m' x = m x) (hi : i + 8 ≤ n) :
    word m' (field a i) = word m (field a i) := by
  rw [word, word, load_field h hi]

theorem field_field (a : Word) (i j : Nat) : field (field a i) j = field a (i + j) := by
  rw [field, field, field, BitVec.ofNat_add, BitVec.add_assoc]

theorem inSpan_field (a : Word) {i n : Nat} (h : i < n) : InSpan a n (field a i) := ⟨i, h, rfl⟩

theorem word_setWord (m : Memory 64) (a v : Word) : word (setWord m a v) a = v := by
  rw [word, setWord, load_store_of_lt (by decide) v.isLt, BitVec.ofNat_toNat, BitVec.setWidth_eq]

theorem load_store_field (m : Memory 64) (a : Word) {i n j k : Nat} (v : Nat)
    (h : i + n ≤ j ∨ j + k ≤ i) (hpage : i + n ≤ 4096 ∧ j + k ≤ 4096) :
    load (store m (field a i) n v) (field a j) k = load m (field a j) k := by
  rcases h with h | h
  · exact load_store_apart (apart_fields a h (by omega))
  · exact load_store_apart (apart_fields a h (by omega)).symm

end Fields

/-! ## Blocks and their contents -/

/-- An open file: its object, where its data starts in the archive, and
how much has been read. -/
structure OpenFile where
  object : Word
  start : Nat
  cursor : Nat

/-- What the kernel has allocated, and the archive. -/
structure Heap where
  impl : Option Word
  file : Nat → Option OpenFile
  image : List Byte

def Heap.block (L : Addresses) (g : Heap) : Owner → Option Block
  | .tarfsImpl => g.impl.map fun t => (t, 16)
  | .file fd => (g.file fd).map fun f => (f.object, 40)
  | o => L.static o

/-- What the block of an owner has to contain. -/
def Holds (L : Addresses) (g : Heap) (m : Memory 64) : Owner → Prop
  | .fds =>
      word m (field L.fds (8 * 0)) = L.stdinFo ∧ word m (field L.fds (8 * 1)) = L.stdoutFo ∧
        word m (field L.fds (8 * 2)) = L.stdoutFo ∧
        ∀ fd, 3 ≤ fd → fd < numFds →
          word m (field L.fds (8 * fd)) = ((g.file fd).map OpenFile.object).getD 0
  | .tarfsImplVar => word m L.tarfsImpl = g.impl.getD 0
  | .terminalFsImpl =>
      readImpl m L.terminalFsImpl = L.terminalRead ∧ writeImpl m L.terminalFsImpl = L.terminalWrite
  | .stdinFo => fileSysImpl m L.stdinFo = L.terminalFsImpl
  | .stdoutFo => fileSysImpl m L.stdoutFo = L.terminalFsImpl
  | .tarfs => bytes m L.tarfsStart L.tarfsSize = g.image ∧
      ∀ i, L.tarfsSize - 512 ≤ i → i < L.tarfsSize → m (field L.tarfsStart i) = 0#8
  | .tarfsImpl => ∀ t, g.impl = some t → readImpl m t = L.tarfsRead ∧ writeImpl m t = 0
  | .file fd => ∀ f, g.file fd = some f →
      refCount m f.object = 1 ∧ g.impl = some (fileSysImpl m f.object) ∧
        contentStart m f.object = field L.tarfsStart f.start ∧ offset m f.object = f.cursor

/-- Contents depend on the block only. -/
theorem Holds.congr {L : Addresses} {g : Heap} {m m' : Memory 64} {o : Owner} (h : Holds L g m o)
    (hsame : ∀ b, g.block L o = some b → ∀ x, InSpan b.1 b.2 x → m' x = m x) :
    Holds L g m' o := by
  cases o with
  | fds =>
      have hs := hsame _ rfl
      obtain ⟨h0, h1, h2, hfile⟩ := h
      refine ⟨?_, ?_, ?_, fun fd h3 hfd => ?_⟩
      · rw [word_field hs (by simp [numFds]), h0]
      · rw [word_field hs (by simp [numFds]), h1]
      · rw [word_field hs (by simp [numFds]), h2]
      · rw [word_field hs (by simp only [numFds] at hfd ⊢; omega), hfile fd h3 hfd]
  | tarfsImplVar =>
      have hs := hsame _ rfl
      rw [Holds, word, load_congr hs]
      exact h
  | terminalFsImpl =>
      have hs := hsame _ rfl
      exact ⟨(word_field hs (by simp)).trans h.1, (word_field hs (by simp)).trans h.2⟩
  | stdinFo => exact (word_field (hsame _ rfl) (by simp)).trans h
  | stdoutFo => exact (word_field (hsame _ rfl) (by simp)).trans h
  | tarfs =>
      refine ⟨(bytes_congr (hsame _ rfl)).trans h.1, fun i hlo hi => ?_⟩
      exact (hsame _ rfl _ (inSpan_field _ hi)).trans (h.2 i hlo hi)
  | tarfsImpl =>
      intro t ht
      have hs := hsame (t, 16) (by simp [Heap.block, ht])
      exact ⟨(word_field hs (by simp)).trans (h t ht).1,
        (word_field hs (by simp)).trans (h t ht).2⟩
  | file fd =>
      intro f hf
      have hs := hsame (f.object, 40) (by simp [Heap.block, hf])
      obtain ⟨href, himpl, hstart, hoff⟩ := h f hf
      refine ⟨?_, ?_, ?_, ?_⟩
      · rw [refCount, load_field hs (by simp)]
        exact href
      · rw [fileSysImpl, word_field hs (by simp)]
        exact himpl
      · rw [contentStart, word_field hs (by simp)]
        exact hstart
      · rw [offset, load_field hs (by simp)]
        exact hoff

/-- The blocks lie apart in kernel memory and contain what they have to. -/
structure Table (L : Addresses) (g : Heap) (s : Files) : Prop where
  inUse : ∀ o b, g.block L o = some b → b ∈ s.blocks
  kernel : ∀ o b, g.block L o = some b → KernelBlock b
  apart : ∀ o o' b b', o ≠ o' → g.block L o = some b → g.block L o' = some b' →
    Apart b.1 b.2 b'.1 b'.2
  holds : ∀ o, Holds L g s.mem o
  bound : ∀ fd f, g.file fd = some f → 3 ≤ fd ∧ fd < numFds ∧ f.start + f.cursor < L.tarfsSize

def UserAddress (x : Word) : Prop := x.toNat < kernelVirtualBase.toNat

theorem not_userAddress {b : Block} (hb : KernelBlock b) {x : Word} (hx : InSpan b.1 b.2 x) :
    ¬ UserAddress x := by
  obtain ⟨i, hi, rfl⟩ := hx
  have hle := hb.1
  have hlt := hb.2
  rw [UserAddress, BitVec.toNat_add, BitVec.toNat_ofNat, Nat.mod_eq_of_lt (by omega : i < 2 ^ 64),
    Nat.mod_eq_of_lt (by omega)]
  omega

theorem KernelBlock.size_le {b : Block} (hb : KernelBlock b) : b.2 ≤ 2 ^ 31 := by
  have hbase : kernelVirtualBase.toNat = 2 ^ 64 - 2 ^ 31 := rfl
  have hle := hb.1
  have hlt := hb.2
  omega

theorem KernelBlock.ne_zero {b : Block} (hb : KernelBlock b) : b.1 ≠ 0 := by
  intro h
  have hle := hb.1
  rw [h] at hle
  exact absurd hle (by decide)

section Table

variable {L : Addresses} {g : Heap} {s : Files}

theorem Table.image_eq (h : Table L g s) : s.image L = g.image := (h.holds .tarfs).1

/-- Changes outside all blocks. -/
theorem Table.frame (h : Table L g s) {s' : Files} {S : Word → Prop}
    (hchanged : ChangedIn S s.mem s'.mem)
    (hS : ∀ o b, g.block L o = some b → ∀ x, InSpan b.1 b.2 x → ¬ S x)
    (hblocks : ∀ b ∈ s.blocks, b ∈ s'.blocks) : Table L g s' where
  inUse o b hb := hblocks b (h.inUse o b hb)
  kernel := h.kernel
  apart := h.apart
  holds o := (h.holds o).congr fun b hb x hx => hchanged x (hS o b hb x hx)
  bound := h.bound

theorem Table.write (h : Table L g s) {s' : Files} {o : Owner} {b : Block}
    (hb : g.block L o = some b) (hchanged : ChangedIn (InSpan b.1 b.2) s.mem s'.mem)
    (hholds : Holds L g s'.mem o) (hblocks : s'.blocks = s.blocks) : Table L g s' where
  inUse := hblocks ▸ h.inUse
  kernel := h.kernel
  apart := h.apart
  holds o' := by
    by_cases ho : o' = o
    · exact ho ▸ hholds
    · exact (h.holds o').congr fun c hc x hx =>
        hchanged x (h.apart o' o c b ho hc hb x hx)
  bound := h.bound

theorem Table.user (h : Table L g s) {m : Memory 64} (hchanged : ChangedIn UserAddress s.mem m) :
    Table L g { s with mem := m } :=
  h.frame hchanged (fun o b hb _ hx => not_userAddress (h.kernel o b hb) hx) fun _ hb => hb

theorem Table.kprintf (h : Table L g s) (o : Output) : Table L g (s.kprintf o) :=
  h.frame (.refl (fun _ => False) _) (fun _ _ _ _ _ => id) fun _ hb => hb

theorem Table.fresh_apart (h : Table L g s) {b : Block} (hb : s.Fresh b) {o : Owner} {c : Block}
    (hc : g.block L o = some c) : Apart b.1 b.2 c.1 c.2 :=
  hb.2 c (h.inUse o c hc)

/-! One descriptor changes -/

def Heap.setFile (g : Heap) (fd : Nat) (f : Option OpenFile) : Heap :=
  { g with file := Function.update g.file fd f }

theorem Heap.block_setFile {fd : Nat} {e : Option OpenFile} {o : Owner} (ho : o ≠ .file fd) :
    (g.setFile fd e).block L o = g.block L o := by
  cases o with
  | file i =>
      have hi : i ≠ fd := fun heq => ho (heq ▸ rfl)
      simp [Heap.block, Heap.setFile, hi]
  | _ => rfl

theorem Heap.block_setFile_self {fd : Nat} {e : Option OpenFile} :
    (g.setFile fd e).block L (.file fd) = e.map fun f => (f.object, 40) := by
  simp [Heap.block, Heap.setFile]

theorem Holds.setFile {m : Memory 64} {fd : Nat} {e : Option OpenFile} {o : Owner}
    (h : Holds L g m o) (hfds : o ≠ .fds) (ho : o ≠ .file fd) : Holds L (g.setFile fd e) m o := by
  cases o with
  | fds => exact absurd rfl hfds
  | file i =>
      have hi : i ≠ fd := fun heq => ho (heq ▸ rfl)
      intro f hf
      exact h f (by simpa [Heap.setFile, hi] using hf)
  | _ => exact h

/-- Blocks stay apart when one of them is replaced by a new one. -/
theorem Table.replace (h : Table L g s) {g' : Heap} {s' : Files} {o₀ : Owner}
    (hother : ∀ {o}, o ≠ o₀ → g'.block L o = g.block L o)
    (hinUse : ∀ o, o ≠ o₀ → ∀ b, g.block L o = some b → b ∈ s'.blocks)
    (hnew : ∀ b, g'.block L o₀ = some b → b ∈ s'.blocks ∧ KernelBlock b ∧
      ∀ o, o ≠ o₀ → ∀ c, g.block L o = some c → Apart b.1 b.2 c.1 c.2)
    (hholds : ∀ o, Holds L g' s'.mem o)
    (hbound : ∀ fd f, g'.file fd = some f →
      3 ≤ fd ∧ fd < numFds ∧ f.start + f.cursor < L.tarfsSize) : Table L g' s' := by
  refine ⟨fun o b hb => ?_, fun o b hb => ?_, fun o o' b b' hne hb hb' => ?_, hholds, hbound⟩
  · by_cases ho : o = o₀
    · exact (hnew b (ho ▸ hb)).1
    · exact hinUse o ho b (hother ho ▸ hb)
  · by_cases ho : o = o₀
    · exact (hnew b (ho ▸ hb)).2.1
    · exact h.kernel o b (hother ho ▸ hb)
  · by_cases ho : o = o₀
    · subst ho
      exact (hnew b hb).2.2 o' hne.symm b' (hother hne.symm ▸ hb')
    · by_cases ho' : o' = o₀
      · exact ((hnew b' (ho' ▸ hb')).2.2 o ho b (hother ho ▸ hb)).symm
      · exact h.apart o o' b b' hne (hother ho ▸ hb) (hother ho' ▸ hb')

/-- The table and the object of one descriptor are written; everything
else stays. -/
theorem Table.setFile (h : Table L g s) {s' : Files} {fd : Nat} {e : Option OpenFile}
    (hsame : ∀ o, o ≠ .fds → o ≠ .file fd → ∀ b, g.block L o = some b →
      ∀ x, InSpan b.1 b.2 x → s'.mem x = s.mem x)
    (hfds : Holds L (g.setFile fd e) s'.mem .fds)
    (hfile : Holds L (g.setFile fd e) s'.mem (.file fd))
    (hinUse : ∀ o, o ≠ .file fd → ∀ b, g.block L o = some b → b ∈ s'.blocks)
    (hnew : ∀ f, e = some f → (f.object, 40) ∈ s'.blocks ∧ KernelBlock (f.object, 40) ∧
      (∀ o, o ≠ .file fd → ∀ c, g.block L o = some c → Apart f.object 40 c.1 c.2) ∧
      3 ≤ fd ∧ fd < numFds ∧ f.start + f.cursor < L.tarfsSize) :
    Table L (g.setFile fd e) s' := by
  refine h.replace Heap.block_setFile hinUse (fun b hb => ?_) (fun o => ?_) fun i f hf => ?_
  · rw [Heap.block_setFile_self] at hb
    obtain ⟨f, hf, rfl⟩ := Option.map_eq_some_iff.mp hb
    obtain ⟨hblock, hkernel, hapart, -⟩ := hnew f hf
    exact ⟨hblock, hkernel, hapart⟩
  · by_cases hofds : o = .fds
    · exact hofds ▸ hfds
    · by_cases ho : o = .file fd
      · exact ho ▸ hfile
      · exact ((h.holds o).congr (hsame o hofds ho)).setFile hofds ho
  · by_cases hi : i = fd
    · subst hi
      have he : e = some f := by simpa [Heap.setFile] using hf
      exact (hnew f he).2.2.2
    · exact h.bound i f (by simpa [Heap.setFile, hi] using hf)

/-! What the table says about a slot -/

theorem Table.slot_file (h : Table L g s) {fd : Nat} (h3 : 3 ≤ fd) (hfd : fd < numFds) :
    s.slot L fd = ((g.file fd).map OpenFile.object).getD 0 :=
  (h.holds .fds).2.2.2 fd h3 hfd

theorem Table.block_ne_zero (h : Table L g s) {o : Owner} {b : Block}
    (hb : g.block L o = some b) : b.1 ≠ 0 :=
  (h.kernel o b hb).ne_zero

theorem Table.object_ne_zero (h : Table L g s) {fd : Nat} {f : OpenFile}
    (hf : g.file fd = some f) : f.object ≠ 0 := by
  have hb : g.block L (.file fd) = some (f.object, 40) := by simp [Heap.block, hf]
  exact h.block_ne_zero hb

theorem Table.slot_some (h : Table L g s) {fd : Nat} {f : OpenFile} (hf : g.file fd = some f) :
    s.slot L fd = f.object := by
  obtain ⟨h3, hfd, -⟩ := h.bound fd f hf
  simp [h.slot_file h3 hfd, hf]

theorem Table.slot_eq_zero_iff (h : Table L g s) {fd : Nat} (h3 : 3 ≤ fd) (hfd : fd < numFds) :
    s.slot L fd = 0 ↔ g.file fd = none := by
  cases hf : g.file fd with
  | none => simp [h.slot_file h3 hfd, hf]
  | some f =>
      rw [h.slot_some hf]
      exact ⟨fun hzero => absurd hzero (h.object_ne_zero hf), nofun⟩

theorem Table.cursor (h : Table L g s) {fd : Nat} (h3 : 3 ≤ fd) (hfd : fd < numFds) :
    s.cursor L fd = (g.file fd).map OpenFile.cursor := by
  cases hf : g.file fd with
  | none => simp [Files.cursor, (h.slot_eq_zero_iff h3 hfd).mpr hf]
  | some f =>
      have hoff := ((h.holds (.file fd)) f hf).2.2.2
      rw [Files.cursor, h.slot_some hf, if_neg (h.object_ne_zero hf), hoff, Option.map_some]

end Table

/-! ## `SYSCALL_WRITE` -/

section Write

variable {L : Layout} {g : Heap} {s : Files}

theorem Table.kprintf_foldl (h : Table L.toAddresses g s) (f : Nat → Output) (l : List Nat) :
    Table L.toAddresses g (l.foldl (fun t i => t.kprintf (f i)) s) := by
  induction l generalizing s with
  | nil => exact h
  | cons i l ih => exact ih (h.kprintf _)

theorem Table.terminalWrite (h : Table L.toAddresses g s) (buffer : Word) (len : Int) :
    Table L.toAddresses g (s.terminalWrite buffer len).2 := by
  rw [Files.terminalWrite]
  split
  · exact h
  · exact h.kprintf_foldl _ _

theorem Table.write_terminal (h : Table L.toAddresses g s) (arg2 : Word)
    (hfd : ¬ numFds ≤ arg2.toNat) (h0 : arg2.toNat ≠ 0)
    (hslot : s.slot L.toAddresses arg2.toNat = L.stdoutFo) (arg3 arg4 : Word) :
    s.write L.toAddresses arg2 arg3 arg4 = some (s.terminalWrite arg3 (intArg arg4)) := by
  have hne : L.stdoutFo ≠ 0 := h.block_ne_zero (o := .stdoutFo) rfl
  have hineq : L.terminalFsImpl ≠ 0 := h.block_ne_zero (o := .terminalFsImpl) rfl
  have himpl : fileSysImpl s.mem L.stdoutFo = L.terminalFsImpl := h.holds .stdoutFo
  have hfn : writeImpl s.mem L.terminalFsImpl = L.terminalWrite := (h.holds .terminalFsImpl).2
  simp only [Files.write, hslot, himpl, hfn, if_neg hfd, if_neg h0, if_neg hne, if_neg hineq,
    if_neg L.terminalWrite_ne, if_true]

/-- A write changes nothing in kernel memory. -/
theorem Table.write_call (h : Table L.toAddresses g s) (arg2 arg3 arg4 : Word) :
    ∃ r s', s.write L.toAddresses arg2 arg3 arg4 = some (r, s') ∧ Table L.toAddresses g s' := by
  obtain ⟨-, hslot1, hslot2, -⟩ := h.holds .fds
  by_cases hfd : numFds ≤ arg2.toNat
  · exact ⟨-1, _, by rw [Files.write, if_pos hfd], h.kprintf _⟩
  by_cases h0 : arg2.toNat = 0
  · exact ⟨-1, _, by rw [Files.write, if_neg hfd, if_pos h0], h.kprintf _⟩
  by_cases h3 : 3 ≤ arg2.toNat
  · cases hf : g.file arg2.toNat with
    | none =>
        have hzero := (h.slot_eq_zero_iff h3 (by omega)).mpr hf
        exact ⟨-1, _, by rw [Files.write, if_neg hfd, if_neg h0, if_pos hzero], h.kprintf _⟩
    | some f =>
        obtain ⟨-, himpl, -, -⟩ := h.holds (.file arg2.toNat) f hf
        have hfns := h.holds .tarfsImpl _ himpl
        have hslot := h.slot_some hf
        have hne := h.object_ne_zero hf
        have hblock : g.block L.toAddresses .tarfsImpl = some (fileSysImpl s.mem f.object, 16) := by
          simp [Heap.block, himpl]
        have hineq := h.block_ne_zero hblock
        refine ⟨-1, _, ?_, h.kprintf (.noWriting arg2.toNat)⟩
        simp only [Files.write, hslot, if_neg hfd, if_neg h0, if_neg hne, if_neg hineq, hfns.2,
          if_true]
  · have hslot : s.slot L.toAddresses arg2.toNat = L.stdoutFo := by
      rcases (by omega : arg2.toNat = 1 ∨ arg2.toNat = 2) with h1 | h2
      · rw [h1]
        exact hslot1
      · rw [h2]
        exact hslot2
    exact ⟨_, _, h.write_terminal arg2 hfd h0 hslot arg3 arg4, h.terminalWrite arg3 (intArg arg4)⟩

end Write

/-! ## `SYSCALL_READ` -/

section Read

theorem drop_bytes (m : Memory 64) (a : Word) {n k : Nat} (hk : k < n) :
    (bytes m a n).drop k = m (field a k) :: (bytes m a n).drop (k + 1) := by
  have hlen : k < (bytes m a n).length := by rwa [bytes, List.length_map, List.length_range]
  rw [List.drop_eq_getElem_cons hlen]
  simp [bytes, field]

/-- The loop of `tarfs_read` stores the text it is at, as far as it is asked
to. -/
theorem tarfsReadLoop_eq {L : Addresses} {buf : Word} {k n i : Nat} {m : Memory 64}
    (hkernel : KernelBlock (L.tarfsStart, L.tarfsSize))
    (hbuf : ∀ j, i ≤ j → j < i + n → UserAddress (field buf j))
    (hlast : m (field L.tarfsStart (L.tarfsSize - 1)) = 0#8) (hk : k + i < L.tarfsSize) :
    tarfsReadLoop buf (field L.tarfsStart k) n i m
      = (i + (Tarfs.readLoop n ((bytes m L.tarfsStart L.tarfsSize).drop (k + i))).length,
        putBytes m (field buf i)
          (Tarfs.readLoop n ((bytes m L.tarfsStart L.tarfsSize).drop (k + i)))) := by
  induction n generalizing i m with
  | zero => rfl
  | succ n ih =>
      have huser := hbuf i (Nat.le_refl _) (by omega)
      rw [drop_bytes m L.tarfsStart hk, tarfsReadLoop, field_field, Tarfs.readLoop]
      cases hbyte : isEof (m (field L.tarfsStart (k + i))) with
      | true => rfl
      | false =>
          generalize hc : m (field L.tarfsStart (k + i)) = c at hbyte
          have hchanged := changedIn_update m huser c
          have hkept : ∀ x, InSpan L.tarfsStart L.tarfsSize x →
              Function.update m (field buf i) c x = m x :=
            fun x hx => hchanged x (not_userAddress hkernel hx)
          have hnot : k + i ≠ L.tarfsSize - 1 := by
            intro heq
            rw [heq, hlast] at hc
            rw [← hc] at hbyte
            exact absurd hbyte (by decide)
          have hlast' := (hkept _ (inSpan_field _ (by omega))).trans hlast
          have hnext := ih (i := i + 1) (m := Function.update m (field buf i) c)
            (fun j hj hlt => hbuf j (by omega) (by omega)) hlast' (by omega)
          rw [if_neg Bool.false_ne_true, if_neg Bool.false_ne_true, hnext, bytes_congr hkept,
            List.length_cons, putBytes, ← Nat.add_assoc k i 1]
          refine Prod.ext (by simp only []; omega) ?_
          rw [field, field, BitVec.ofNat_add, ← BitVec.add_assoc]
          rfl

/-- An offset below `2 ^ 31` is the same number as an `int`. -/
theorem signExtend_ofNat {n : Nat} (h : n < 2 ^ 31) :
    (BitVec.ofNat 32 n).signExtend 64 = BitVec.ofNat 64 n := by
  have hmsb : (BitVec.ofNat 32 n).msb = false := by
    rw [BitVec.msb_eq_false_iff_two_mul_lt, BitVec.toNat_ofNat]
    omega
  rw [BitVec.signExtend_eq_setWidth_of_msb_false hmsb]
  apply BitVec.eq_of_toNat_eq
  simp only [BitVec.toNat_setWidth, BitVec.toNat_ofNat]
  omega

variable {L : Layout} {g : Heap} {s : Files}

theorem userAddress_field {a : Word} {n j : Nat} (h : a.toNat + n ≤ kernelVirtualBase.toNat)
    (hj : j < n) : UserAddress (field a j) := by
  have hlt := kernelVirtualBase.isLt
  rw [UserAddress, field, BitVec.toNat_add, BitVec.toNat_ofNat,
    Nat.mod_eq_of_lt (by omega : j < 2 ^ 64), Nat.mod_eq_of_lt (by omega)]
  omega

/-- What a read of `n` bytes from an open file is to deliver. -/
def OpenFile.next (f : OpenFile) (image : List Byte) (n : Nat) : List Byte :=
  (fileText image (f.start + f.cursor)).take n

/-- `SYSCALL_READ` on an open file, down to the copy of its text. -/
theorem Table.read_eq (h : Table L.toAddresses g s) {arg2 arg3 arg4 : Word} {f : OpenFile}
    (hf : g.file arg2.toNat = some f) (typed : Typed)
    (hbuf : arg3.toNat + (intArg arg4).toNat ≤ kernelVirtualBase.toNat) :
    let text := f.next g.image (intArg arg4).toNat
    let r : Int := if intArg arg4 ≤ 0 then intArg arg4 else text.length
    s.read L.toAddresses typed arg2 arg3 arg4
      = some (r, { s with mem := Files.addOffset (putBytes s.mem arg3 text) f.object r }) := by
  obtain ⟨h3, hfd, hbound⟩ := h.bound _ f hf
  obtain ⟨-, himpl, hstart, hoff⟩ := h.holds (.file arg2.toNat) f hf
  have hfns := h.holds .tarfsImpl _ himpl
  have hblock : g.block L.toAddresses .tarfsImpl = some (fileSysImpl s.mem f.object, 16) := by
    simp [Heap.block, himpl]
  have hkernel : KernelBlock (L.tarfsStart, L.tarfsSize) := h.kernel .tarfs _ rfl
  have hsize : L.tarfsSize ≤ 2 ^ 31 := hkernel.size_le
  obtain ⟨himage, hzero⟩ := h.holds .tarfs
  have hlast := hzero (L.tarfsSize - 1) (by omega) (by omega)
  have hat : field L.tarfsStart f.start + BitVec.ofNat 64 f.cursor
      = field L.tarfsStart (f.start + f.cursor) := field_field _ _ _
  have hloop := tarfsReadLoop_eq (n := (intArg arg4).toNat) (i := 0) (k := f.start + f.cursor)
    hkernel (fun j _ hj => userAddress_field hbuf (by omega)) hlast (by omega)
  rw [himage, Tarfs.readLoop_eq, Nat.zero_add, Nat.add_zero] at hloop
  have hbase : field arg3 0 = arg3 := BitVec.add_zero arg3
  have hread : tarfsRead s.mem arg3 (intArg arg4) (contentStart s.mem f.object)
      (offset s.mem f.object)
        = (if intArg arg4 ≤ 0 then intArg arg4
            else ((f.next g.image (intArg arg4).toNat).length : Int),
          putBytes s.mem arg3 (f.next g.image (intArg arg4).toNat)) := by
    rw [tarfsRead, hstart, hoff, signExtend_ofNat (by omega : f.cursor < 2 ^ 31), hat, hloop, hbase]
    rfl
  simp only [Files.read, Files.callRead, h.slot_some hf, if_neg (by omega : ¬ numFds ≤ arg2.toNat),
    if_neg (by omega : ¬ (arg2.toNat = 1 ∨ arg2.toNat = 2)), if_neg (h.object_ne_zero hf),
    if_neg (h.block_ne_zero hblock), hfns.1, if_neg L.tarfsRead_ne, if_true, hread, Option.map_some]

/-- The buffer of a read from a file is in user memory as a whole. -/
theorem Table.userBuffer_iff (h : Table L.toAddresses g s) {arg2 : Word} {f : OpenFile}
    (hf : g.file arg2.toNat = some f) (arg3 arg4 : Word) (typed : Typed) :
    UserBuffer (.read arg2 arg3 arg4 typed) ↔
      arg3.toNat + (intArg arg4).toNat ≤ kernelVirtualBase.toNat := by
  have hne : arg2 ≠ 0 := by
    rintro rfl
    exact absurd (h.bound _ f hf).1 (by decide)
  rw [UserBuffer, if_neg hne]

/-- Reads end before the archive does, since its last byte is NUL. -/
theorem Table.next_lt (h : Table L.toAddresses g s) {fd : Nat} {f : OpenFile}
    (hf : g.file fd = some f) (n : Nat) :
    f.start + (f.cursor + (f.next g.image n).length) < L.tarfsSize := by
  obtain ⟨-, -, hbound⟩ := h.bound fd f hf
  obtain ⟨himage, hzero⟩ := h.holds .tarfs
  have hlen : g.image.length = L.tarfsSize := by
    rw [← himage, bytes, List.length_map, List.length_range]
  have hlast : 0#8 ∈ g.image.drop (f.start + f.cursor) := by
    refine List.mem_drop_iff_getElem.mpr ⟨L.tarfsSize - 1 - (f.start + f.cursor), by omega, ?_⟩
    simp only [← himage, bytes, List.getElem_map, List.getElem_range]
    rw [show f.start + f.cursor + (L.tarfsSize - 1 - (f.start + f.cursor)) = L.tarfsSize - 1 by
      omega]
    exact hzero _ (by omega) (by omega)
  have hshort : (fileText g.image (f.start + f.cursor)).length
      < (g.image.drop (f.start + f.cursor)).length := by
    refine lt_of_le_of_ne (List.takeWhile_prefix _).length_le fun heq => ?_
    rw [← (List.takeWhile_prefix _).eq_of_length heq] at hlast
    exact absurd (List.all_eq_true.mp List.all_takeWhile _ hlast) (by decide)
  rw [List.length_drop] at hshort
  have htake : (f.next g.image n).length ≤ (fileText g.image (f.start + f.cursor)).length :=
    List.length_take_le' ..
  omega

theorem Table.setCursor (h : Table L.toAddresses g s) {fd n : Nat} {f : OpenFile}
    (hf : g.file fd = some f) (hn : f.start + n < L.tarfsSize) :
    Table L.toAddresses (g.setFile fd (some { f with cursor := n }))
      { s with mem := store s.mem (field f.object 32) 4 n } := by
  have hb : g.block L.toAddresses (.file fd) = some (f.object, 40) := by simp [Heap.block, hf]
  have hkernel : KernelBlock (L.tarfsStart, L.tarfsSize) := h.kernel .tarfs _ rfl
  have hchanged := changedIn_store s.mem f.object n (by omega : 32 + 4 ≤ 40)
  have hsame : ∀ o, o ≠ .file fd → ∀ c, g.block L.toAddresses o = some c →
      ∀ x, InSpan c.1 c.2 x → store s.mem (field f.object 32) 4 n x = s.mem x :=
    fun o ho c hc x hx => hchanged x (h.apart o _ c _ ho hc hb x hx)
  obtain ⟨h3, hfd, -⟩ := h.bound fd f hf
  refine h.setFile (fun o _ ho => hsame o ho) ?_ ?_ (fun o _ b hob => h.inUse o b hob) ?_
  · obtain ⟨h0, h1, h2, hfile⟩ := (h.holds .fds).congr (hsame .fds nofun)
    refine ⟨h0, h1, h2, fun i hi3 hi => (hfile i hi3 hi).trans ?_⟩
    by_cases heq : i = fd
    · subst heq
      simp [Heap.setFile, hf]
    · simp [Heap.setFile, heq]
  · obtain ⟨href, himpl, hstart, -⟩ := h.holds (.file fd) f hf
    have hsize : L.tarfsSize ≤ 2 ^ 31 := hkernel.size_le
    have hlt : n < 256 ^ 4 := by omega
    intro e he
    obtain rfl : { f with cursor := n } = e := by simpa [Heap.setFile] using he
    refine ⟨?_, ?_, ?_, load_store_of_lt (by decide) hlt⟩
    · exact (load_store_field _ _ _ (by omega) (by omega)).trans href
    · rw [fileSysImpl, word, load_store_field _ _ _ (by omega) (by omega)]
      exact himpl
    · rw [contentStart, word, load_store_field _ _ _ (by omega) (by omega)]
      exact hstart
  · rintro e he
    obtain rfl := Option.some.inj he
    exact ⟨h.inUse _ _ hb, h.kernel _ _ hb,
      fun o ho c hc => h.apart _ o _ c (Ne.symm ho) hb hc, h3, hfd, hn⟩

theorem changedIn_typed {typed : Typed} {buffer : Word}
    (h : ∀ w ∈ typed.stores, UserAddress (buffer + BitVec.ofInt 64 w.1)) (m : Memory 64) :
    ChangedIn UserAddress m (typed.write m buffer) := by
  obtain ⟨result, stores⟩ := typed
  rw [Typed.write]
  dsimp only at h ⊢
  induction stores generalizing m with
  | nil => exact .refl _ _
  | cons w stores ih =>
      rw [List.foldl_cons]
      exact (changedIn_update m (h w (List.mem_cons_self ..)) w.2).trans
        (ih _ fun v hv => h v (List.mem_cons_of_mem _ hv))

/-- A read from the terminal moves at most the offset of its object, which
nothing looks at. -/
theorem Table.addOffset_stdin (h : Table L.toAddresses g s) (r : Int) :
    Table L.toAddresses g { s with mem := Files.addOffset s.mem L.stdinFo r } := by
  rw [Files.addOffset]
  split
  · refine h.write (o := .stdinFo) (b := (L.stdinFo, 40)) rfl
      (changedIn_store s.mem L.stdinFo _ (by omega : 32 + 4 ≤ 40)) ?_ rfl
    exact (congrArg (BitVec.ofNat 64)
      (load_store_field _ _ _ (by omega) (by omega))).trans (h.holds .stdinFo)
  · exact h

/-- What a read does to the heap: a positive result moves the cursor. -/
def Heap.advance (g : Heap) (fd : Nat) (r : Int) : Heap :=
  if 0 < r then
    g.setFile fd ((g.file fd).map fun f => { f with cursor := f.cursor + r.toNat })
  else g

theorem Heap.advance_of_none {g : Heap} {fd : Nat} (hf : g.file fd = none) (r : Int) :
    g.advance fd r = g := by
  have : Function.update g.file fd none = g.file := by rw [← hf, Function.update_eq_self]
  simp [Heap.advance, Heap.setFile, hf, this]

theorem Table.file_lt_three (h : Table L.toAddresses g s) {fd : Nat} (hfd : fd < 3) :
    g.file fd = none := by
  cases hf : g.file fd with
  | none => rfl
  | some f =>
      have := (h.bound fd f hf).1
      omega

theorem Table.advance (h : Table L.toAddresses g s) {fd : Nat} {r : Int} (hr : ¬ 0 < r) :
    Table L.toAddresses (g.advance fd r) s := by
  rw [Heap.advance, if_neg hr]
  exact h

theorem Table.read_call (h : Table L.toAddresses g s) {typed : Typed} {arg2 arg3 arg4 : Word}
    (hbuf : UserBuffer (.read arg2 arg3 arg4 typed)) :
    ∃ r s', s.read L.toAddresses typed arg2 arg3 arg4 = some (r, s') ∧
      Table L.toAddresses (g.advance arg2.toNat r) s' := by
  by_cases hfd : numFds ≤ arg2.toNat
  · exact ⟨-1, _, by rw [Files.read, if_pos hfd], (h.kprintf _).advance (by decide)⟩
  by_cases h12 : arg2.toNat = 1 ∨ arg2.toNat = 2
  · exact ⟨-1, _, by rw [Files.read, if_neg hfd, if_pos h12], (h.kprintf _).advance (by decide)⟩
  by_cases h3 : 3 ≤ arg2.toNat
  · cases hf : g.file arg2.toNat with
    | none =>
        have hzero := (h.slot_eq_zero_iff h3 (by omega)).mpr hf
        exact ⟨-1, _, by rw [Files.read, if_neg hfd, if_neg h12, if_pos hzero],
          (h.kprintf _).advance (by decide)⟩
    | some f =>
        have hroom := (h.userBuffer_iff hf arg3 arg4 typed).mp hbuf
        have hread := h.read_eq hf typed hroom
        dsimp only at hread
        have hend := h.next_lt hf (intArg arg4).toNat
        have hle : (f.next g.image (intArg arg4).toNat).length ≤ (intArg arg4).toNat :=
          List.length_take_le ..
        generalize f.next g.image (intArg arg4).toNat = text at hread hend hle
        generalize hr : (if intArg arg4 ≤ 0 then intArg arg4 else (text.length : Int)) = r at hread
        have huser := h.user (m := putBytes s.mem arg3 text) fun x hx => putBytes_apply fun hin => by
          obtain ⟨j, hj, rfl⟩ := hin
          exact hx (userAddress_field hroom (by omega))
        refine ⟨_, _, hread, ?_⟩
        rw [Heap.advance, Files.addOffset]
        split
        · rename_i hpos
          -- the offset is read again after the call, and is as before
          have hoff : offset (putBytes s.mem arg3 text) f.object = f.cursor :=
            (huser.holds (.file _) f hf).2.2.2
          rw [hoff, hf]
          refine huser.setCursor hf ?_
          split at hr <;> omega
        · exact huser
  · have h0 : arg2.toNat = 0 := by omega
    have hzero : arg2 = 0 := BitVec.eq_of_toNat_eq h0
    have hslot : s.slot L.toAddresses arg2.toNat = L.stdinFo := by
      rw [h0]
      exact (h.holds .fds).1
    have hne : L.stdinFo ≠ 0 := h.block_ne_zero (o := .stdinFo) rfl
    have hineq : L.terminalFsImpl ≠ 0 := h.block_ne_zero (o := .terminalFsImpl) rfl
    have himpl : fileSysImpl s.mem L.stdinFo = L.terminalFsImpl := h.holds .stdinFo
    have hfn : readImpl s.mem L.terminalFsImpl = L.terminalRead := (h.holds .terminalFsImpl).1
    have huser := h.user (changedIn_typed ((if_pos hzero).mp hbuf) s.mem)
    have hnone : g.file arg2.toNat = none := h.file_lt_three (by omega)
    refine ⟨typed.result, _, ?_,
      (Heap.advance_of_none hnone typed.result).symm ▸ huser.addOffset_stdin typed.result⟩
    simp only [Files.read, Files.callRead, hslot, himpl, hfn, if_neg hfd, if_neg h12, if_neg hne,
      if_neg hineq, if_neg L.terminalRead_ne, if_neg L.terminalRead_ne_tarfsRead, if_true,
      Option.map_some]

theorem Table.read_image (h : Table L.toAddresses g s) {typed : Typed} {arg2 arg3 arg4 : Word}
    (hbuf : UserBuffer (.read arg2 arg3 arg4 typed)) {r : Int} {s' : Files}
    (hread : s.read L.toAddresses typed arg2 arg3 arg4 = some (r, s')) :
    s'.image L.toAddresses = s.image L.toAddresses := by
  obtain ⟨r', t, heq, htable⟩ := h.read_call hbuf
  obtain ⟨rfl, rfl⟩ := Prod.mk.inj (Option.some.inj (heq.symm.trans hread))
  rw [htable.image_eq, h.image_eq, Heap.advance]
  split <;> rfl

end Read

/-! ## `SYSCALL_CLOSE` -/

section Close

variable {L : Addresses} {g : Heap} {s : Files}

theorem Heap.setFile_of_eq {fd : Nat} {e : Option OpenFile} (hf : g.file fd = e) :
    g.setFile fd e = g := by
  subst hf
  simp [Heap.setFile]

theorem Holds.setSlot {m : Memory 64} (h : Holds L g m .fds) {fd : Nat} (h3 : 3 ≤ fd)
    (hfd : fd < numFds) (e : Option OpenFile) :
    Holds L (g.setFile fd e)
      (setWord m (field L.fds (8 * fd)) ((e.map OpenFile.object).getD 0)) .fds := by
  obtain ⟨h0, h1, h2, hfile⟩ := h
  have hother : ∀ i, i < numFds → i ≠ fd → ∀ v,
      word (setWord m (field L.fds (8 * fd)) v) (field L.fds (8 * i))
        = word m (field L.fds (8 * i)) := by
    intro i hi hne v
    simp only [numFds] at hi hfd
    rw [word, setWord, load_store_field _ _ _ (by omega) (by omega), word]
  refine ⟨(hother 0 (by decide) (by omega) _).trans h0,
    (hother 1 (by decide) (by omega) _).trans h1, (hother 2 (by decide) (by omega) _).trans h2,
    fun i hi3 hi => ?_⟩
  by_cases heq : i = fd
  · subst heq
    rw [word_setWord]
    simp [Heap.setFile]
  · rw [hother i hi heq, hfile i hi3 hi]
    simp [Heap.setFile, heq]

/-- A slot is cleared, after the count of its object has been written. -/
theorem Table.clear (h : Table L g s) {fd v : Nat} {f : OpenFile} (hf : g.file fd = some f) :
    Table L (g.setFile fd none)
      { s with mem := setWord (store s.mem (field f.object 16) 2 v) (field L.fds (8 * fd)) 0,
               blocks := s.blocks.filter (· ≠ (f.object, 40)) } := by
  have hb : g.block L (.file fd) = some (f.object, 40) := by simp [Heap.block, hf]
  have hfdsBlock : g.block L .fds = some (L.fds, 8 * numFds) := rfl
  obtain ⟨h3, hfd, -⟩ := h.bound fd f hf
  have hobject := changedIn_store s.mem f.object v (by omega : 16 + 2 ≤ 40)
  have hslot := changedIn_store (store s.mem (field f.object 16) 2 v) L.fds 0
    (by simp only [numFds] at hfd ⊢; omega : 8 * fd + 8 ≤ 8 * numFds)
  have hkept : ∀ o, o ≠ .file fd → ∀ b, g.block L o = some b →
      ∀ x, InSpan b.1 b.2 x → store s.mem (field f.object 16) 2 v x = s.mem x :=
    fun o ho b hob x hx => hobject x (h.apart o _ b _ ho hob hb x hx)
  refine h.setFile (fun o hofds ho b hob x hx => ?_) ?_ ?_ (fun o ho b hob => ?_) nofun
  · exact (hslot x (h.apart o _ b _ hofds hob hfdsBlock x hx)).trans (hkept o ho b hob x hx)
  · exact ((h.holds .fds).congr (hkept .fds nofun)).setSlot h3 hfd none
  · intro e he
    simp [Heap.setFile] at he
  · refine List.mem_filter.mpr ⟨h.inUse o b hob, decide_eq_true ?_⟩
    rintro rfl
    exact h.apart o _ _ _ ho hob hb f.object ⟨0, by simp, by simp⟩ ⟨0, by simp, by simp⟩

theorem Table.close_call (h : Table L g s) (arg2 : Word) :
    Table L (g.setFile arg2.toNat none) (s.close L arg2).2 ∧
      (s.close L arg2).1 = if g.file arg2.toNat = none then -1 else 0 := by
  cases hf : g.file arg2.toNat with
  | none =>
      rw [Heap.setFile_of_eq hf, if_pos rfl]
      by_cases hfd : numFds ≤ arg2.toNat
      · rw [Files.close, if_pos hfd]
        exact ⟨h.kprintf _, rfl⟩
      by_cases h012 : arg2.toNat = 0 ∨ arg2.toNat = 1 ∨ arg2.toNat = 2
      · rw [Files.close, if_neg hfd, if_pos h012]
        exact ⟨h.kprintf _, rfl⟩
      · have hzero := (h.slot_eq_zero_iff (by omega) (by omega)).mpr hf
        rw [Files.close, if_neg hfd, if_neg h012, if_pos hzero]
        exact ⟨h.kprintf _, rfl⟩
  | some f =>
      obtain ⟨h3, hfd, -⟩ := h.bound _ f hf
      have href : refCount s.mem f.object = 1 := (h.holds (.file _) f hf).1
      have hlast : refCount (store s.mem (field f.object 16) 2
          (refCount s.mem f.object + (2 ^ 16 - 1))) f.object = 0 := by
        rw [refCount, load_store (by decide), href]
        decide
      rw [Files.close, h.slot_some hf, if_neg (by omega), if_neg (by omega),
        if_neg (h.object_ne_zero hf), if_pos hlast, if_neg nofun]
      exact ⟨h.clear hf, rfl⟩

end Close

/-! ## `SYSCALL_OPEN` -/

section Open

variable {L : Addresses} {g : Heap} {s : Files}

theorem Heap.block_setImpl {t : Option Word} {o : Owner} (ho : o ≠ .tarfsImpl) :
    ({ g with impl := t } : Heap).block L o = g.block L o := by
  cases o with
  | tarfsImpl => exact absurd rfl ho
  | _ => rfl

/-- `get_tarfs_impl` gives the functions of the archive, in the block it
had or in a new one. -/
theorem Table.getTarfsImpl (h : Table L g s) {impl : Word} (hfresh : s.Fresh (impl, 16)) :
    Table L { g with impl := some (s.getTarfsImpl L impl).1 } (s.getTarfsImpl L impl).2 ∧
      ChangedIn (fun x => InSpan L.tarfsImpl 8 x ∨ InSpan impl 16 x) s.mem
        (s.getTarfsImpl L impl).2.mem ∧
      (∀ b ∈ s.blocks, b ∈ (s.getTarfsImpl L impl).2.blocks) ∧
      ((s.getTarfsImpl L impl).1 = impl ∨ g.impl = some (s.getTarfsImpl L impl).1) := by
  have hvar : word s.mem L.tarfsImpl = g.impl.getD 0 := h.holds .tarfsImplVar
  cases hg : g.impl with
  | some t =>
      have hb : g.block L .tarfsImpl = some (t, 16) := by simp [Heap.block, hg]
      have ht : word s.mem L.tarfsImpl = t := by simp [hvar, hg]
      have hsame : { g with impl := some t } = g := by rw [← hg]
      rw [Files.getTarfsImpl, ht, if_neg (h.block_ne_zero hb), hsame]
      exact ⟨h, .refl _ _, fun b hb => hb, Or.inr rfl⟩
  | none =>
      have ht : word s.mem L.tarfsImpl = 0 := by simp [hvar, hg]
      rw [Files.getTarfsImpl, if_pos ht]
      dsimp only
      generalize hm₁ : setWord s.mem L.tarfsImpl impl = m₁
      generalize hm₂ : setWord m₁ (field impl 0) L.tarfsRead = m₂
      generalize hm₃ : setWord m₂ (field impl 8) 0 = m₃
      have hvarBlock : g.block L .tarfsImplVar = some (L.tarfsImpl, 8) := rfl
      have hapart := h.fresh_apart hfresh hvarBlock
      have h₁ : ChangedIn (InSpan L.tarfsImpl 8) s.mem m₁ := by
        rw [← hm₁]
        exact fun x hx => store_apply hx
      have h₂₃ : ChangedIn (InSpan impl 16) m₁ m₃ := by
        rw [← hm₃, ← hm₂]
        exact (changedIn_store m₁ impl _ (by omega : 0 + 8 ≤ 16)).trans
          (changedIn_store _ impl _ (by omega : 8 + 8 ≤ 16))
      have hchanged : ChangedIn (fun x => InSpan L.tarfsImpl 8 x ∨ InSpan impl 16 x) s.mem m₃ :=
        (h₁.mono fun _ => Or.inl).trans (h₂₃.mono fun _ => Or.inr)
      have hvar' : word m₃ L.tarfsImpl = impl := by
        rw [word, load_changedIn h₂₃ hapart.symm, ← hm₁]
        exact word_setWord _ _ _
      have hread : readImpl m₃ impl = L.tarfsRead := by
        rw [readImpl, word, ← hm₃, setWord, load_store_field _ _ _ (by omega) (by omega),
          ← hm₂]
        exact word_setWord _ _ _
      have hwrite : writeImpl m₃ impl = 0 := by
        rw [← hm₃]
        exact word_setWord _ _ _
      have hkept : ∀ o, o ≠ .tarfsImpl → o ≠ .tarfsImplVar → Holds L g m₃ o := by
        intro o ho hov
        refine (h.holds o).congr fun b hob x hx => hchanged x ?_
        rintro (hx' | hx')
        · exact h.apart o _ b _ hov hob hvarBlock x hx hx'
        · exact h.fresh_apart hfresh hob x hx' hx
      refine ⟨h.replace Heap.block_setImpl
        (fun o _ b hob => List.mem_cons_of_mem _ (h.inUse o b hob)) (fun b hob => ?_) (fun o => ?_)
        h.bound, hchanged, fun b hb => List.mem_cons_of_mem _ hb, Or.inl rfl⟩
      · obtain rfl := Option.some.inj hob
        exact ⟨List.mem_cons_self .., hfresh.1, fun o _ c hc => h.fresh_apart hfresh hc⟩
      · cases o with
        | tarfsImplVar => exact hvar'
        | tarfsImpl =>
            intro t ht
            obtain rfl := Option.some.inj ht
            exact ⟨hread, hwrite⟩
        | file fd =>
            intro f hf
            have := (h.holds (.file fd) f hf).2.1
            rw [hg] at this
            cases this
        | fds => exact hkept .fds nofun nofun
        | terminalFsImpl => exact hkept .terminalFsImpl nofun nofun
        | stdinFo => exact hkept .stdinFo nofun nofun
        | stdoutFo => exact hkept .stdoutFo nofun nofun
        | tarfs => exact hkept .tarfs nofun nofun

theorem Table.enter (h : Table L g s) {fd start : Nat} {fo : Word} (h3 : 3 ≤ fd) (hfd : fd < numFds)
    (hmem : (fo, 40) ∈ s.blocks) (hkernel : KernelBlock (fo, 40))
    (hapart : ∀ o c, g.block L o = some c → Apart fo 40 c.1 c.2)
    (href : refCount s.mem fo = 1) (himpl : g.impl = some (fileSysImpl s.mem fo))
    (hcontent : contentStart s.mem fo = field L.tarfsStart start) (hoff : offset s.mem fo = 0)
    (hstart : start < L.tarfsSize) :
    Table L (g.setFile fd (some ⟨fo, start, 0⟩))
      { s with mem := setWord s.mem (field L.fds (8 * fd)) fo } := by
  have hfdsBlock : g.block L .fds = some (L.fds, 8 * numFds) := rfl
  have hslot : ChangedIn (InSpan L.fds (8 * numFds)) s.mem
      (setWord s.mem (field L.fds (8 * fd)) fo) :=
    changedIn_store s.mem L.fds _ (by simp only [numFds] at hfd ⊢; omega)
  have hobject : ∀ x, InSpan fo 40 x → setWord s.mem (field L.fds (8 * fd)) fo x = s.mem x :=
    fun x hx => hslot x (hapart .fds _ hfdsBlock x hx)
  refine h.setFile (fun o hofds _ b hob x hx => hslot x (h.apart o _ b _ hofds hob hfdsBlock x hx))
    ((h.holds .fds).setSlot h3 hfd (some ⟨fo, start, 0⟩)) ?_ (fun o _ b hob => h.inUse o b hob) ?_
  · intro e he
    obtain rfl : (⟨fo, start, 0⟩ : OpenFile) = e := by simpa [Heap.setFile] using he
    refine ⟨?_, ?_, ?_, ?_⟩
    · exact (load_field hobject (by omega)).trans href
    · exact himpl.trans (congrArg some (word_field hobject (by omega)).symm)
    · exact (word_field hobject (by omega)).trans hcontent
    · exact (load_field hobject (by omega)).trans hoff
  · rintro e he
    obtain rfl := Option.some.inj he
    exact ⟨hmem, hkernel, fun o _ c hc => hapart o c hc, h3, hfd, hstart⟩

theorem Table.install (h : Table L g s) (arg2 : Word) {fo impl : Word} (hk : s.Kmalloc fo impl)
    {fd start : Nat} (h3 : 3 ≤ fd) (hfd : fd < numFds) (hstart : start < L.tarfsSize) :
    ∃ t, Table L (({ g with impl := some t } : Heap).setFile fd (some ⟨fo, start, 0⟩))
        (s.install L arg2 (field L.tarfsStart start) fd fo impl) ∧
      ∀ x, UserAddress x → (s.install L arg2 (field L.tarfsStart start) fd fo impl).mem x
        = s.mem x := by
  rw [Files.install]
  generalize hm : store (store (setWord s.mem (field fo 0) arg2) (field fo 32) 4 0)
    (field fo 16) 2 1 = m
  have hchanged : ChangedIn (InSpan fo 40) s.mem m := by
    rw [← hm]
    exact ((changedIn_store s.mem fo _ (by omega : 0 + 8 ≤ 40)).trans
      (changedIn_store _ fo _ (by omega : 32 + 4 ≤ 40))).trans
      (changedIn_store _ fo _ (by omega : 16 + 2 ≤ 40))
  have href : refCount m fo = 1 := by
    rw [← hm]
    exact load_store_of_lt (by decide) (by decide)
  have hoff : offset m fo = 0 := by
    rw [offset, ← hm, load_store_field _ _ _ (by omega) (by omega)]
    exact load_store_of_lt (by decide) (by decide)
  have hobject : ∀ o c, g.block L o = some c → Apart fo 40 c.1 c.2 :=
    fun o c hc => h.fresh_apart hk.object hc
  have h₁ : Table L g { s with mem := m, blocks := (fo, 40) :: s.blocks } :=
    h.frame hchanged (fun o b hb x hx hfo => hobject o b hb x hfo hx)
      fun b hb => List.mem_cons_of_mem _ hb
  have hfresh : Files.Fresh { s with mem := m, blocks := (fo, 40) :: s.blocks } (impl, 16) := by
    refine ⟨hk.functions.1, fun c hc => ?_⟩
    rcases List.mem_cons.mp hc with rfl | hc
    · exact hk.apart.symm
    · exact hk.functions.2 c hc
  obtain ⟨h₂, hchanged₂, hblocks₂, ht⟩ := h₁.getTarfsImpl hfresh
  generalize Files.getTarfsImpl L { s with mem := m, blocks := (fo, 40) :: s.blocks } impl = r
    at h₂ hchanged₂ hblocks₂ ht ⊢
  have hobject₂ : ∀ o c, ({ g with impl := some r.1 } : Heap).block L o = some c →
      Apart fo 40 c.1 c.2 := by
    intro o c hc
    by_cases ho : o = .tarfsImpl
    · subst ho
      obtain rfl := Option.some.inj hc
      rcases ht with ht | ht
      · rw [ht]
        exact hk.apart
      · exact hobject .tarfsImpl _ (by simp [Heap.block, ht])
    · exact hobject o c (Heap.block_setImpl ho ▸ hc)
  have hsame₂ : ∀ x, InSpan fo 40 x → r.2.mem x = m x := by
    intro x hx
    refine hchanged₂ x ?_
    rintro (hx' | hx')
    · exact hobject .tarfsImplVar _ rfl x hx hx'
    · exact hk.apart x hx hx'
  generalize hm₃ : setWord (setWord r.2.mem (field fo 8) r.1) (field fo 24)
    (field L.tarfsStart start) = m₃
  have hchanged₃ : ChangedIn (InSpan fo 40) r.2.mem m₃ := by
    rw [← hm₃]
    exact (changedIn_store _ fo _ (by omega : 8 + 8 ≤ 40)).trans
      (changedIn_store _ fo _ (by omega : 24 + 8 ≤ 40))
  have h₃ : Table L { g with impl := some r.1 } { r.2 with mem := m₃ } :=
    h₂.frame hchanged₃ (fun o b hb x hx hfo => hobject₂ o b hb x hfo hx) fun _ hb => hb
  refine ⟨r.1, h₃.enter h3 hfd (hblocks₂ _ (List.mem_cons_self ..)) hk.object.1 hobject₂
    ?_ ?_ ?_ ?_ hstart, fun x hx => ?_⟩
  · rw [refCount, ← hm₃, setWord, setWord, load_store_field _ _ _ (by omega) (by omega),
      load_store_field _ _ _ (by omega) (by omega), load_field hsame₂ (by omega)]
    exact href
  · rw [fileSysImpl, word, ← hm₃, setWord,
      load_store_field _ _ _ (by omega) (by omega)]
    exact congrArg some (word_setWord _ _ _).symm
  · rw [contentStart, ← hm₃, word_setWord]
  · rw [offset, ← hm₃, setWord, setWord, load_store_field _ _ _ (by omega) (by omega),
      load_store_field _ _ _ (by omega) (by omega), load_field hsame₂ (by omega)]
    exact hoff
  · have hout {b : Block} (hb : KernelBlock b) : ¬ InSpan b.1 b.2 x := fun hin =>
      not_userAddress hb hin hx
    have hslot := changedIn_store m₃ L.fds fo.toNat
      (by simp only [numFds] at hfd ⊢; omega : 8 * fd + 8 ≤ 8 * numFds)
    refine (hslot x (hout (h.kernel .fds _ rfl))).trans ((hchanged₃ x (hout hk.object.1)).trans
      ((hchanged₂ x ?_).trans (hchanged x (hout hk.object.1))))
    exact not_or.mpr ⟨hout (h.kernel .tarfsImplVar _ rfl), hout hk.functions.1⟩

/-- A file that is found starts before the last block. -/
theorem Table.file_lt (h : Table L g s) {name : List Byte} {file : Nat}
    (hfile : Tarfs.getFileBinary (s.image L) name = some file) : file < L.tarfsSize := by
  obtain ⟨b, rfl, hname⟩ := Tarfs.header_of_search hfile
  by_contra hge
  refine hname ?_
  have hzero := (h.holds .tarfs).2
  rw [Tarfs.name, Tarfs.field, List.headD_eq_head?_getD, List.head?_drop, Files.image, bytes,
    List.getElem?_map]
  by_cases hb : 512 * b + 0 < L.tarfsSize
  · rw [List.getElem?_range hb]
    exact hzero _ (by omega) hb
  · rw [List.getElem?_eq_none (by simpa using hb)]
    rfl

theorem fdIdx_eq_none_iff :
    s.fdIdx L = none ↔ ∀ fd, 3 ≤ fd → fd < numFds → s.slot L fd ≠ 0 := by
  simp only [Files.fdIdx, List.find?_eq_none, List.mem_range'_1, decide_eq_true_eq, numFds]
  exact ⟨fun h fd h3 hfd => h fd ⟨h3, hfd⟩, fun h fd hfd => h fd hfd.1 hfd.2⟩

theorem fdIdx_eq_some {fd : Nat} (h : s.fdIdx L = some fd) :
    3 ≤ fd ∧ fd < numFds ∧ s.slot L fd = 0 ∧ ∀ i, 3 ≤ i → i < fd → s.slot L i ≠ 0 := by
  rw [Files.fdIdx, List.find?_range'_eq_some] at h
  obtain ⟨hzero, hmem, hleast⟩ := h
  rw [List.mem_range'_1] at hmem
  exact ⟨hmem.1, hmem.2, of_decide_eq_true hzero, fun i h3 hi => by simpa using hleast i h3 hi⟩

end Open

/-! ## One call and whole runs -/

section Runs

variable {L : Layout} {g : Heap} {s : Files}

def Heap.cursors (g : Heap) (fd : Nat) : Option Nat := (g.file fd).map OpenFile.cursor

theorem Heap.cursors_setFile (g : Heap) (fd : Nat) (e : Option OpenFile) :
    (g.setFile fd e).cursors = Function.update g.cursors fd (e.map OpenFile.cursor) := by
  funext i
  by_cases hi : i = fd
  · subst hi
    simp [Heap.cursors, Heap.setFile]
  · simp [Heap.cursors, Heap.setFile, hi]

theorem Heap.cursors_advance (g : Heap) (fd : Nat) (r : Int) :
    (g.advance fd r).cursors =
      if 0 < r then Function.update g.cursors fd ((g.cursors fd).map (· + r.toNat))
      else g.cursors := by
  rw [Heap.advance]
  split
  · rw [Heap.cursors_setFile, Heap.cursors, Option.map_map, Option.map_map]
    rfl
  · rfl

/-- Every call with a user buffer returns, and does to the cursors what
its result says. -/
theorem Table.handle (h : Table L.toAddresses g s) {fo impl : Word} (hk : s.Kmalloc fo impl)
    {c : Call} (hc : UserBuffer c) :
    ∃ r s' g', s.handle L.toAddresses fo impl c = some (r, s') ∧ Table L.toAddresses g' s' ∧
      g'.cursors = track g.cursors (c, r) ∧ (r = -1 ∨ r = -2 → g' = g) := by
  cases c with
  | «open» arg2 =>
      simp only [Files.handle, Files.sysOpen, track]
      cases hfile : Tarfs.getFileBinary (s.image L.toAddresses) (s.filename L.toAddresses arg2) with
      | none => exact ⟨-1, s, g, rfl, h, rfl, fun _ => rfl⟩
      | some file =>
          cases hfd : s.fdIdx L.toAddresses with
          | none => exact ⟨-2, s, g, rfl, h, rfl, fun _ => rfl⟩
          | some fd =>
              obtain ⟨h3, hlt, -, -⟩ := fdIdx_eq_some hfd
              obtain ⟨t, ht, -⟩ := h.install arg2 hk h3 hlt (h.file_lt hfile)
              refine ⟨fd, _, _, rfl, ht, ?_, fun hr => by omega⟩
              rw [Heap.cursors_setFile, if_pos (by omega)]
              rfl
  | read arg2 arg3 arg4 typed =>
      obtain ⟨r, s', hread, hs'⟩ := h.read_call hc
      refine ⟨r, s', _, hread, hs', Heap.cursors_advance g _ r, fun hr => ?_⟩
      rw [Heap.advance, if_neg (by omega)]
  | write arg2 arg3 arg4 =>
      obtain ⟨r, s', hwrite, hs'⟩ := h.write_call arg2 arg3 arg4
      exact ⟨r, s', g, hwrite, hs', rfl, fun _ => rfl⟩
  | close arg2 =>
      obtain ⟨hs', hr⟩ := h.close_call arg2
      refine ⟨(s.close L.toAddresses arg2).1, _, _, rfl, hs', Heap.cursors_setFile g _ none,
        fun hfail => ?_⟩
      refine Heap.setFile_of_eq ?_
      by_contra hopen
      rw [if_neg hopen] at hr
      omega

theorem Start.exists_impl {s : Files} (h : Start L.toAddresses s) : ∃ impl : Option Word,
    word s.mem L.tarfsImpl = impl.getD 0 ∧ ∀ t, impl = some t → s.Functions L.toAddresses t := by
  rcases h.impl with hzero | hfns
  · exact ⟨none, hzero, nofun⟩
  · exact ⟨some _, rfl, fun t ht => Option.some.inj ht ▸ hfns⟩

theorem Start.table {s : Files} (h : Start L.toAddresses s) :
    ∃ impl, Table L.toAddresses ⟨impl, fun _ => none, s.image L.toAddresses⟩ s := by
  obtain ⟨impl, hvar, hfns⟩ := h.exists_impl
  have hblock : ∀ o b, Heap.block L.toAddresses ⟨impl, fun _ => none, s.image L.toAddresses⟩ o
      = some b →
      L.static o = some b ∨ o = .tarfsImpl ∧ ∃ t, impl = some t ∧ b = (t, 16) := by
    intro o b hb
    cases o with
    | tarfsImpl =>
        obtain ⟨t, ht, rfl⟩ := Option.map_eq_some_iff.mp hb
        exact .inr ⟨rfl, t, ht, rfl⟩
    | _ => exact .inl hb
  refine ⟨impl, fun o b hb => ?_, fun o b hb => ?_, fun o o' b b' hne hb hb' => ?_, fun o => ?_,
    nofun⟩
  · rcases hblock o b hb with hb | ⟨-, t, ht, rfl⟩
    · exact h.inUse o b hb
    · exact (hfns t ht).inUse
  · rcases hblock o b hb with hb | ⟨-, t, ht, rfl⟩
    · exact L.kernel o b hb
    · exact (hfns t ht).kernel
  · rcases hblock o b hb with hb | ⟨rfl, t, ht, rfl⟩
    · rcases hblock o' b' hb' with hb' | ⟨-, t, ht, rfl⟩
      · exact L.apart o o' b b' hne hb hb'
      · exact ((hfns t ht).apart o b hb).symm
    · rcases hblock o' b' hb' with hb' | ⟨rfl, -⟩
      · exact (hfns t ht).apart o' b' hb'
      · exact absurd rfl hne
  cases o with
  | fds => exact ⟨h.stdin, h.stdout.1, h.stdout.2, h.empty⟩
  | tarfsImplVar => exact hvar
  | terminalFsImpl => exact h.terminalFns
  | stdinFo => exact h.terminal _ (Or.inl rfl)
  | stdoutFo => exact h.terminal _ (Or.inr rfl)
  | tarfs => exact ⟨rfl, h.zeroBlock⟩
  | tarfsImpl => exact fun t ht => (hfns t ht).fns
  | file fd => exact nofun

/-- A process that finds the slots empty can start in any state an earlier
one has left, with the functions of the archive or without. -/
theorem Table.start (h : Table L.toAddresses g s)
    (hempty : ∀ fd, 3 ≤ fd → fd < numFds → s.slot L.toAddresses fd = 0) :
    Start L.toAddresses s := by
  have hstatic : ∀ o b, L.static o = some b →
      g.block L.toAddresses o = some b ∧ o ≠ .tarfsImpl := by
    intro o b hb
    cases o with
    | tarfsImpl => cases hb
    | file fd => cases hb
    | _ => exact ⟨hb, by simp⟩
  obtain ⟨hstdin, hout1, hout2, -⟩ := h.holds .fds
  refine ⟨fun o b hb => h.inUse o b (hstatic o b hb).1, hstdin, ⟨hout1, hout2⟩, ?_,
    h.holds .terminalFsImpl, hempty, ?_, (h.holds .tarfs).2⟩
  · rintro fo (rfl | rfl)
    · exact h.holds .stdinFo
    · exact h.holds .stdoutFo
  · have hvar : word s.mem L.tarfsImpl = g.impl.getD 0 := h.holds .tarfsImplVar
    rw [hvar]
    cases hg : g.impl with
    | none => exact .inl rfl
    | some t =>
        have hb : g.block L.toAddresses .tarfsImpl = some (t, 16) := by simp [Heap.block, hg]
        refine .inr ⟨h.inUse _ _ hb, h.kernel _ _ hb, fun o b hob => ?_, h.holds .tarfsImpl t hg⟩
        obtain ⟨hblock, hne⟩ := hstatic o b hob
        exact h.apart _ _ _ _ hne.symm hb hblock

/-- After a run the heap has the cursors of the history. -/
theorem Run.table {s₀ : Files} (h₀ : Start L.toAddresses s₀) {h : List (Call × Int)}
    (hrun : Run L.toAddresses UserBuffer s₀ s h) :
    ∃ g, Table L.toAddresses g s ∧ g.cursors = cursors h := by
  induction hrun with
  | start =>
      obtain ⟨impl, hg⟩ := h₀.table
      exact ⟨_, hg, rfl⟩
  | call _ hk hok hcall ih =>
      obtain ⟨g, hg, hcursors⟩ := ih
      obtain ⟨r, s', g', heq, hg', htrack, -⟩ := hg.handle hk hok
      obtain ⟨rfl, rfl⟩ := Prod.mk.inj (Option.some.inj (heq.symm.trans hcall))
      exact ⟨g', hg', by rw [htrack, hcursors, cursors]⟩

theorem Table.slot_standard {s₀ : Files} {g₀ : Heap} (h₀ : Table L.toAddresses g₀ s₀)
    (h : Table L.toAddresses g s) {fd : Nat} (hfd : fd < 3) :
    s.slot L.toAddresses fd = s₀.slot L.toAddresses fd := by
  obtain ⟨h0, h1, h2, -⟩ := h.holds .fds
  obtain ⟨h0', h1', h2', -⟩ := h₀.holds .fds
  rcases (by omega : fd = 0 ∨ fd = 1 ∨ fd = 2) with rfl | rfl | rfl
  · exact h0.trans h0'.symm
  · exact h1.trans h1'.symm
  · exact h2.trans h2'.symm

theorem Table.answers (h : Table L.toAddresses g s) {fo impl : Word} (hk : s.Kmalloc fo impl)
    {c : Call} (hc : UserBuffer c) {r : Int} {s' : Files}
    (hcall : s.handle L.toAddresses fo impl c = some (r, s')) :
    Answers L.toAddresses s c r s' := by
  obtain ⟨r', t, g', heq, hg', -, hfailed⟩ := h.handle hk hc
  obtain ⟨rfl, rfl⟩ := Prod.mk.inj (Option.some.inj (heq.symm.trans hcall))
  have hopen : ∀ arg2, c = .open arg2 →
      (Tarfs.getFileBinary (s.image L.toAddresses) (s.filename L.toAddresses arg2)).isSome = true →
      (r' = -2 ∧ s.fdIdx L.toAddresses = none) ∨
        ∃ fd : Nat, r' = fd ∧ s.fdIdx L.toAddresses = some fd := by
    rintro arg2 rfl hfound
    obtain ⟨file, hfile⟩ := Option.isSome_iff_exists.mp hfound
    simp only [Files.handle, Files.sysOpen, hfile] at hcall
    cases hfd : s.fdIdx L.toAddresses with
    | none =>
        simp only [hfd] at hcall
        exact Or.inl ⟨(Prod.mk.inj (Option.some.inj hcall)).1.symm, rfl⟩
    | some fd =>
        simp only [hfd] at hcall
        exact Or.inr ⟨fd, (Prod.mk.inj (Option.some.inj hcall)).1.symm, rfl⟩
  refine ⟨fun arg2 hc2 hfound => ?_, fun arg2 hc2 hfound hne => ?_, fun hr => ?_⟩
  · rw [← fdIdx_eq_none_iff]
    rcases hopen arg2 hc2 hfound with ⟨hr, hnone⟩ | ⟨fd, hr, hsome⟩
    · exact ⟨fun _ => hnone, fun _ => hr⟩
    · exact ⟨fun _ => by omega, fun hnone => by rw [hsome] at hnone; cases hnone⟩
  · rcases hopen arg2 hc2 hfound with ⟨hr, -⟩ | ⟨fd, hr, hsome⟩
    · exact absurd hr hne
    · exact ⟨fd, hr, fdIdx_eq_some hsome⟩
  · have hg : Table L.toAddresses g t := hfailed hr ▸ hg'
    refine ⟨fun fd hfd => ?_, fun fd h3 hfd => ?_⟩
    · by_cases h3 : 3 ≤ fd
      · rw [hg.slot_file h3 hfd, h.slot_file h3 hfd]
      · exact h.slot_standard hg (by omega)
    · rw [hg.cursor h3 hfd, h.cursor h3 hfd]

/-- In every run whose reads have buffers in user memory, the descriptor
table is a map of independent cursors, and every call returns. -/
theorem descriptors_are_cursors (L : Layout) {s₀ s : Files} {h : List (Call × Int)}
    (h₀ : Start L.toAddresses s₀) (hrun : Run L.toAddresses UserBuffer s₀ s h) :
    RefinesCursors L.toAddresses UserBuffer s₀ s h ∧
      ∀ c fo impl, s.Kmalloc fo impl → UserBuffer c →
        (s.handle L.toAddresses fo impl c).isSome = true := by
  obtain ⟨impl, hg₀⟩ := h₀.table
  obtain ⟨g, hg, hcursors⟩ := hrun.table h₀
  refine ⟨⟨fun fd h3 hfd => ?_, fun fd hfd => hg₀.slot_standard hg hfd,
    fun c fo impl r s' hk hc hcall => hg.answers hk hc hcall⟩, fun c fo impl hk hc => ?_⟩
  · rw [hg.cursor h3 hfd, ← hcursors]
    rfl
  · obtain ⟨r, s', -, heq, -⟩ := hg.handle hk hc
    rw [heq]
    rfl

end Runs

/-! ## Runs of a small kernel -/

section Sample

/-- One structure to a page, and an archive with a file of one byte. -/
def sampleAddresses : Addresses where
  fds := kernelVirtualBase + 0x1000
  tarfsImpl := kernelVirtualBase + 0x2000
  terminalFsImpl := kernelVirtualBase + 0x3000
  stdinFo := kernelVirtualBase + 0x4000
  stdoutFo := kernelVirtualBase + 0x5000
  tarfsStart := kernelVirtualBase + 0x6000
  tarfsSize := 1536
  tarfsRead := kernelVirtualBase + 0x100
  terminalRead := kernelVirtualBase + 0x200
  terminalWrite := kernelVirtualBase + 0x300

theorem KernelBlock.apart_of_le {b c : Block} (hb : KernelBlock b) (hc : KernelBlock c)
    (h : b.1.toNat + b.2 ≤ c.1.toNat) : Apart b.1 b.2 c.1 c.2 := by
  have toNat_of_mem : ∀ {d : Block}, KernelBlock d → ∀ {i}, i < d.2 →
      (d.1 + BitVec.ofNat 64 i).toNat = d.1.toNat + i := by
    intro d hd i hi
    have := hd.2
    rw [BitVec.toNat_add, BitVec.toNat_ofNat, Nat.mod_eq_of_lt (by omega : i < 2 ^ 64),
      Nat.mod_eq_of_lt (by omega)]
  rintro x ⟨i, hi, rfl⟩ ⟨j, hj, heq⟩
  have := congrArg BitVec.toNat heq
  rw [toNat_of_mem hb hi, toNat_of_mem hc hj] at this
  omega

instance (b : Block) : Decidable (KernelBlock b) := inferInstanceAs (Decidable (_ ∧ _))

def sampleBlocks : List Block :=
  [(sampleAddresses.fds, 128), (sampleAddresses.tarfsImpl, 8), (sampleAddresses.terminalFsImpl, 16),
    (sampleAddresses.stdinFo, 40), (sampleAddresses.stdoutFo, 40),
    (sampleAddresses.tarfsStart, sampleAddresses.tarfsSize)]

theorem sampleStatic_kernel : ∀ o b, sampleAddresses.static o = some b → KernelBlock b := by
  intro o b hb
  cases o with
  | tarfsImpl => cases hb
  | file fd => cases hb
  | _ =>
      obtain rfl := Option.some.inj hb
      decide

theorem sampleStatic_apart : ∀ o o' b b', o ≠ o' → sampleAddresses.static o = some b →
    sampleAddresses.static o' = some b' → Apart b.1 b.2 b'.1 b'.2 := by
  intro o o' b b' hne hb hb'
  have hk := sampleStatic_kernel o b hb
  have hk' := sampleStatic_kernel o' b' hb'
  have hor : b.1.toNat + b.2 ≤ b'.1.toNat ∨ b'.1.toNat + b'.2 ≤ b.1.toNat := by
    cases o <;> cases o' <;> first
      | exact absurd rfl hne
      | (cases hb; done)
      | (cases hb'; done)
      | (obtain rfl := Option.some.inj hb
         obtain rfl := Option.some.inj hb'
         decide)
  rcases hor with hle | hle
  · exact hk.apart_of_le hk' hle
  · exact (hk'.apart_of_le hk hle).symm

def sampleLayout : Layout where
  toAddresses := sampleAddresses
  kernel := sampleStatic_kernel
  apart := sampleStatic_apart
  tarfsRead_ne := by decide
  terminalRead_ne := by decide
  terminalWrite_ne := by decide
  terminalRead_ne_tarfsRead := by decide

/-- The words that are not 0, by their distance from
`kernel_virtual_base`. -/
def sampleWords : List (Nat × Word) :=
  let L := sampleAddresses
  [(0x1000, L.stdinFo), (0x1008, L.stdoutFo), (0x1010, L.stdoutFo),
    (0x3000, L.terminalRead), (0x3008, L.terminalWrite),
    (0x4008, L.terminalFsImpl), (0x5008, L.terminalFsImpl)]

/-- The structures of the terminal, then the archive; the rest is 0. -/
def sampleMem : Memory 64 := fun x =>
  let i := (x - kernelVirtualBase).toNat
  if i < 0x6000 then
    (((sampleWords.lookup (i / 8 * 8)).getD 0) >>> (8 * (i % 8))).setWidth 8
  else if i < 0x6400 then (Tarfs.fileB.bytes[i - 0x6000]?).getD 0#8
  else 0#8

def sampleFiles : Files := ⟨sampleMem, [], sampleBlocks⟩

theorem sampleStatic_inUse : ∀ o b, sampleAddresses.static o = some b → b ∈ sampleBlocks := by
  intro o b hb
  cases o with
  | tarfsImpl => cases hb
  | file fd => cases hb
  | _ =>
      obtain rfl := Option.some.inj hb
      decide +kernel

theorem sampleFiles_empty : ∀ fd < numFds, 3 ≤ fd →
    sampleFiles.slot sampleAddresses fd = 0 := by decide +kernel

theorem sampleMem_eq_zero {j : Nat} (hlo : 1024 ≤ j) (hj : j < 1536) :
    sampleMem (field sampleAddresses.tarfsStart j) = 0#8 := by
  have hi : (field sampleAddresses.tarfsStart j - kernelVirtualBase).toNat = 0x6000 + j := by
    have hadd : field sampleAddresses.tarfsStart j
        = BitVec.ofNat 64 (0x6000 + j) + kernelVirtualBase := by
      rw [field, BitVec.ofNat_add, BitVec.add_comm _ kernelVirtualBase, ← BitVec.add_assoc]
      rfl
    rw [hadd, BitVec.add_sub_cancel, BitVec.toNat_ofNat, Nat.mod_eq_of_lt (by omega)]
  simp only [sampleMem, hi]
  rw [if_neg (by omega), if_neg (by omega)]

theorem sampleFiles_start : Start sampleAddresses sampleFiles where
  inUse := sampleStatic_inUse
  stdin := by decide +kernel
  stdout := by decide +kernel
  terminal fo hfo := by
    rcases hfo with rfl | rfl <;> decide +kernel
  terminalFns := by decide +kernel
  empty fd h3 hfd := sampleFiles_empty fd hfd h3
  impl := .inl (by decide +kernel)
  zeroBlock _ hlo hi := sampleMem_eq_zero hlo hi

def sampleFo : Word := kernelVirtualBase + 0x7000

def sampleImpl : Word := kernelVirtualBase + 0x8000

/-- A fresh block after all blocks in use. -/
theorem fresh_of_le {s : Files} {b : Block} (hb : KernelBlock b)
    (h : ∀ c ∈ s.blocks, KernelBlock c ∧ c.1.toNat + c.2 ≤ b.1.toNat) : s.Fresh b :=
  ⟨hb, fun c hc => ((h c hc).1.apart_of_le hb (h c hc).2).symm⟩

theorem sampleFiles_kmalloc : sampleFiles.Kmalloc sampleFo sampleImpl where
  object := fresh_of_le (by decide) (by decide)
  functions := fresh_of_le (by decide) (by decide)
  apart := KernelBlock.apart_of_le (b := (sampleFo, 40)) (c := (sampleImpl, 16)) (by decide)
    (by decide) (by decide)

/-- The name is passed as the address of the header. -/
def openB : Call := .open sampleAddresses.tarfsStart

def openedB : Files :=
  (sampleFiles.sysOpen sampleAddresses sampleAddresses.tarfsStart sampleFo sampleImpl).2

theorem handle_openB :
    sampleFiles.handle sampleAddresses sampleFo sampleImpl openB = some (3, openedB) := by
  have hr : (sampleFiles.sysOpen sampleAddresses sampleAddresses.tarfsStart sampleFo
      sampleImpl).1 = 3 := by decide +kernel
  rw [openB, Files.handle, openedB, ← hr]

theorem openedB_kmalloc :
    openedB.Kmalloc (kernelVirtualBase + 0x9000) (kernelVirtualBase + 0xa000) where
  object := fresh_of_le (by decide) (by decide +kernel)
  functions := fresh_of_le (by decide) (by decide +kernel)
  apart := KernelBlock.apart_of_le (b := (kernelVirtualBase + 0x9000, 40))
    (c := (kernelVirtualBase + 0xa000, 16)) (by decide) (by decide) (by decide)

theorem run_openB {ok : Call → Prop} (h : ok openB) :
    Run sampleAddresses ok sampleFiles openedB [(openB, 3)] :=
  .call .start sampleFiles_kmalloc h handle_openB

def readB (buffer : Word) : Call := .read 3 buffer 1 ⟨0, []⟩

def afterReadB (buffer : Word) : Files :=
  ((openedB.read sampleAddresses ⟨0, []⟩ 3 buffer 1).getD (0, openedB)).2

theorem handle_readB {buffer : Word}
    (h : (openedB.read sampleAddresses ⟨0, []⟩ 3 buffer 1).map Prod.fst = some 1) (fo impl : Word) :
    openedB.handle sampleAddresses fo impl (readB buffer) = some (1, afterReadB buffer) := by
  rw [readB, Files.handle, afterReadB]
  cases hread : openedB.read sampleAddresses ⟨0, []⟩ 3 buffer 1 with
  | none =>
      rw [hread] at h
      cases h
  | some p =>
      rw [hread] at h
      rw [Option.getD_some, ← Option.some.inj h]

theorem run_readB {ok : Call → Prop} {buffer : Word} (hopen : ok openB) (hread : ok (readB buffer))
    (h : (openedB.read sampleAddresses ⟨0, []⟩ 3 buffer 1).map Prod.fst = some 1) :
    Run sampleAddresses ok sampleFiles (afterReadB buffer) [(readB buffer, 1), (openB, 3)] :=
  .call (run_openB hopen) openedB_kmalloc hread (handle_readB h _ _)

/-- The next process, after one that has opened a file and closed it. -/
example : Start sampleAddresses (openedB.close sampleAddresses 3).2 := by
  obtain ⟨g, hg, -⟩ := Run.table (L := sampleLayout) sampleFiles_start (run_openB trivial)
  exact Table.start (L := sampleLayout) (hg.close_call 3).1
    fun fd h3 hfd => (by decide +kernel : ∀ fd < numFds, 3 ≤ fd →
      (openedB.close sampleAddresses 3).2.slot sampleAddresses fd = 0) fd hfd h3

theorem userBuffer_readB : UserBuffer (readB 0x1000) := by
  rw [readB, UserBuffer, if_neg (by decide)]
  decide

theorem descriptors_are_cursors_readB :
    RefinesCursors sampleAddresses UserBuffer sampleFiles (afterReadB 0x1000)
        [(readB 0x1000, 1), (openB, 3)] ∧
      ∀ c fo impl, (afterReadB 0x1000).Kmalloc fo impl → UserBuffer c →
        ((afterReadB 0x1000).handle sampleAddresses fo impl c).isSome = true :=
  descriptors_are_cursors sampleLayout sampleFiles_start
    (run_readB trivial userBuffer_readB (by decide +kernel))

/-- A read into the object of the descriptor itself: one byte has been
read, and the offset is 121, the `x` of the file and 1. -/
theorem read_over_offset :
    ¬ ∀ (L : Layout) (s₀ s : Files) (h : List (Call × Int)), Start L.toAddresses s₀ →
      Run L.toAddresses (fun _ => True) s₀ s h →
      RefinesCursors L.toAddresses (fun _ => True) s₀ s h := by
  intro hall
  have hrun : Run sampleAddresses (fun _ => True) sampleFiles (afterReadB (field sampleFo 32))
      [(readB (field sampleFo 32), 1), (openB, 3)] :=
    run_readB trivial trivial (by decide +kernel)
  have hcursor := (hall sampleLayout _ _ _ sampleFiles_start hrun).cursor 3 (by decide) (by decide)
  have hoffset : (afterReadB (field sampleFo 32)).cursor sampleAddresses 3 = some 121 := by
    decide +kernel
  have hread : cursors [(readB (field sampleFo 32), 1), (openB, 3)] 3 = some 1 := by
    decide +kernel
  have hne := (hoffset.symm.trans hcursor).trans hread
  cases hne

end Sample

end Vfs

end SnowOs
