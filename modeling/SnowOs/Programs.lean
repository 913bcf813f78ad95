import SnowOs.Streams

/-!
# `bin/cat`

`cat` opens its argument, reads 1024 bytes at a time into a buffer on its
stack and writes what it got to descriptor 1, until a read is short. The
system calls run on the memory that the buffer, the strings of the program
and the structures of the kernel share, so that what reaches the console
depends on every pointer in between. It is the file and a newline, and the
descriptors are afterwards as they were (`cat_prints`).
-/

namespace SnowOs

open ByteMemory

namespace Vfs

open Tarfs (fileText)

/-! ## Output -/

section Output

variable {L : Layout} {g : Heap} {s : Files}

/-- What has been printed with `text` behind it. -/
def Files.printed (s : Files) (text : List Byte) : Files :=
  { s with console := (text.map Output.char).reverse ++ s.console }

theorem foldl_kprintf (f : Nat → Output) (l : List Nat) (s : Files) :
    l.foldl (fun t i => t.kprintf (f i)) s
      = { s with console := (l.map f).reverse ++ s.console } := by
  induction l generalizing s with
  | nil => rfl
  | cons i l ih =>
      rw [List.foldl_cons, ih, Files.kprintf, List.map_cons, List.reverse_cons, List.append_assoc]
      rfl

theorem terminalWrite_printed (s : Files) (buffer : Word) {len : Int} (hlen : 0 ≤ len) :
    s.terminalWrite buffer len = (len, s.printed (bytes s.mem buffer len.toNat)) := by
  rw [Files.terminalWrite]
  split
  · have hzero : len = 0 := by omega
    subst hzero
    rfl
  · rw [foldl_kprintf, Files.printed, bytes, List.map_map]
    rfl

theorem Table.write_stdout (h : Table L.toAddresses g s) (buffer arg4 : Word)
    (hlen : 0 ≤ intArg arg4) : s.write L.toAddresses 1 buffer arg4
      = some (intArg arg4, s.printed (bytes s.mem buffer (intArg arg4).toNat)) := by
  have hslot : s.slot L.toAddresses 1 = L.stdoutFo := (h.holds .fds).2.1
  rw [h.write_terminal 1 (by decide) (by decide) hslot, terminalWrite_printed s buffer hlen]

theorem Table.printed (h : Table L.toAddresses g s) (text : List Byte) :
    Table L.toAddresses g (s.printed text) :=
  h.frame (.refl (fun _ => False) _) (fun _ _ _ _ _ => id) fun _ hb => hb

end Output

/-! ## The program -/

/-- Where the strings of `cat` lie. -/
structure CatStrings where
  notFound : Word
  failed : Word
  newline : Word
  incorrect : Word

def say (L : Addresses) (s : Files) (msg : Word) (text : String) : Option Files :=
  (s.write L 1 msg (BitVec.ofNat 64 text.length)).map Prod.snd

/-- `BUF_SIZE` of `cat`. -/
def catBufSize : Nat := 1024

/-- The loop of `cat`. The descriptor is none of the terminal's, so nothing
is typed. -/
def catLoop (L : Addresses) (c : CatStrings) (fd buf : Word) : Nat → Files → Option Files
  | 0, _ => none
  | fuel + 1, s =>
      (s.read L ⟨0, []⟩ fd buf (BitVec.ofNat 64 catBufSize)).bind fun (lenRead, s) =>
        if lenRead = -1 then say L s c.failed "Failed to read from file\n"
        else (s.write L 1 buf (BitVec.ofInt 64 lenRead)).bind fun (_, s) =>
          if lenRead < catBufSize then some s else catLoop L c fd buf fuel s

/-- `main` of `cat`; it returns 0 whatever happens. `fo` and `impl` are what
`kmalloc` returns in the `open`. -/
def cat (L : Addresses) (c : CatStrings) (argc : Nat) (path buf fo impl : Word) (fuel : Nat)
    (s : Files) : Option Files :=
  if argc = 2 then
    let (fd, s) := s.sysOpen L path fo impl
    if fd < 0 then say L s c.notFound "File not found\n"
    else
      (catLoop L c (BitVec.ofInt 64 fd) buf fuel s).bind fun s =>
        (say L s c.newline "\n").map fun s => (s.close L (BitVec.ofInt 64 fd)).2
  else say L s c.incorrect "Incorrect number of command line arguments. Please try again.\n"

/-! ## What it prints -/

theorem intArg_ofNat {n : Nat} (h : n < 2 ^ 31) : intArg (BitVec.ofNat 64 n) = n := by
  have hword : (BitVec.ofNat 64 n).setWidth 32 = BitVec.ofNat 32 n := by
    apply BitVec.eq_of_toNat_eq
    rw [BitVec.toNat_setWidth, BitVec.toNat_ofNat, BitVec.toNat_ofNat]
    omega
  rw [intArg, hword, BitVec.toInt_eq_toNat_cond, BitVec.toNat_ofNat]
  split <;> omega

section Cat

variable {L : Layout} {g : Heap} {s : Files} {c : CatStrings}

theorem Table.say_eq (h : Table L.toAddresses g s) (msg : Word) {text : String}
    (hlen : text.length < 2 ^ 31) :
    say L.toAddresses s msg text = some (s.printed (bytes s.mem msg text.length)) := by
  have hnat := intArg_ofNat hlen
  rw [say, h.write_stdout msg _ (by omega), hnat, Int.toNat_natCast, Option.map_some]

/-- What the loop leaves: the descriptor further on, `text` printed, and of
the memory of the program only the buffer changed. -/
structure Copied (L : Layout) (g : Heap) (s : Files) (fd : Nat) (f : OpenFile) (buf : Word)
    (text : List Byte) (s' : Files) : Prop where
  table : ∃ n, Table L.toAddresses (g.setFile fd (some { f with cursor := n })) s'
  console : s'.console = (text.map Output.char).reverse ++ s.console
  kept : ∀ x, UserAddress x → ¬ InSpan buf catBufSize x → s'.mem x = s.mem x

theorem Heap.advance_of_some {fd : Nat} {f : OpenFile} (hf : g.file fd = some f) (n : Nat) :
    g.advance fd n = g.setFile fd (some { f with cursor := f.cursor + n }) := by
  rw [Heap.advance]
  split
  · rw [hf, Option.map_some, Int.toNat_natCast]
  · have hzero : n = 0 := by omega
    subst hzero
    exact (Heap.setFile_of_eq hf).symm

theorem Heap.setFile_setFile (g : Heap) (fd : Nat) (e e' : Option OpenFile) :
    (g.setFile fd e).setFile fd e' = g.setFile fd e' := by
  simp [Heap.setFile]

/-- One round of the loop: it prints `text`, the next bytes of the file, and
is over if there are fewer than it asked for. -/
theorem catLoop_round (h : Table L.toAddresses g s) {fd buf : Word} {f : OpenFile}
    (hf : g.file fd.toNat = some f) (hbuf : buf.toNat + catBufSize ≤ kernelVirtualBase.toNat)
    {text : List Byte} (htext : f.next g.image catBufSize = text) (fuel : Nat) :
    ∃ t, catLoop L.toAddresses c fd buf (fuel + 1) s
        = (if text.length < catBufSize then some t else catLoop L.toAddresses c fd buf fuel t) ∧
      Table L.toAddresses (g.setFile fd.toNat (some { f with cursor := f.cursor + text.length })) t ∧
      t.console = (text.map Output.char).reverse ++ s.console ∧
      ∀ x, UserAddress x → ¬ InSpan buf catBufSize x → t.mem x = s.mem x := by
  have hsize : intArg (BitVec.ofNat 64 catBufSize) = catBufSize := intArg_ofNat (by decide)
  have hroom : buf.toNat + (intArg (BitVec.ofNat 64 catBufSize)).toNat
      ≤ kernelVirtualBase.toNat := by rwa [hsize, Int.toNat_natCast]
  have hpos : 0 < intArg (BitVec.ofNat 64 catBufSize) := by
    rw [hsize]
    decide
  have hnext : f.next g.image (intArg (BitVec.ofNat 64 catBufSize)).toNat = text := by
    rw [hsize, Int.toNat_natCast, htext]
  have hle : text.length ≤ catBufSize := by
    rw [← htext]
    exact List.length_take_le ..
  obtain ⟨t, hread, ht, hbytes, hconsole, hkept⟩ := h.read_file hf ⟨0, []⟩ hpos hroom hnext
  have hlen : intArg (BitVec.ofInt 64 text.length) = text.length := by
    rw [BitVec.ofInt_natCast]
    exact intArg_ofNat (Nat.lt_of_le_of_lt hle (by decide))
  have hwrite := ht.write_stdout buf (BitVec.ofInt 64 text.length) (by omega)
  rw [hlen, Int.toNat_natCast, hbytes] at hwrite
  refine ⟨t.printed text, ?_, ?_, ?_, fun x hx hout => hkept x hx fun hin => hout ?_⟩
  · rw [catLoop, hread, Option.bind_some]
    simp only [hwrite, Option.bind_some, if_neg (by omega : ¬ (text.length : Int) = -1),
      Int.ofNat_lt]
  · rw [← Heap.advance_of_some hf]
    exact ht.printed text
  · rw [Files.printed, hconsole]
  · obtain ⟨i, hi, rfl⟩ := hin
    exact ⟨i, Nat.lt_of_lt_of_le hi hle, rfl⟩

/-- The text that is left is printed, 1024 bytes at a time. -/
theorem catLoop_copied (h : Table L.toAddresses g s) {fd buf : Word} {f : OpenFile}
    (hf : g.file fd.toNat = some f) (hbuf : buf.toNat + catBufSize ≤ kernelVirtualBase.toNat)
    {image : List Byte} (himage : g.image = image) {fuel : Nat}
    (hfuel : (fileText image (f.start + f.cursor)).length < catBufSize * fuel) :
    ∃ s', catLoop L.toAddresses c fd buf fuel s = some s' ∧
      Copied L g s fd.toNat f buf (fileText image (f.start + f.cursor)) s' := by
  induction fuel generalizing g s f with
  | zero => exact absurd hfuel (Nat.not_lt_zero _)
  | succ fuel ih =>
      generalize htext : f.next g.image catBufSize = text
      obtain ⟨t, hround, ht, htconsole, htkept⟩ :=
        catLoop_round (c := c) h hf hbuf htext fuel
      rw [OpenFile.next, himage] at htext
      rw [hround]
      by_cases hshort : text.length < catBufSize
      · have hall : fileText image (f.start + f.cursor) = text := by
          rw [← htext, List.length_take] at hshort
          rw [← htext, List.take_of_length_le (by omega)]
        rw [if_pos hshort, hall]
        exact ⟨t, rfl, ⟨_, ht⟩, htconsole, htkept⟩
      · have hlen : text.length = catBufSize ∧
            catBufSize ≤ (fileText image (f.start + f.cursor)).length := by
          rw [← htext, List.length_take] at hshort ⊢
          omega
        have hrest : fileText image (f.start + f.cursor + catBufSize)
            = (fileText image (f.start + f.cursor)).drop catBufSize :=
          Tarfs.fileText_add hlen.2
        rw [hlen.1] at ht
        have hf' : (g.setFile fd.toNat (some { f with cursor := f.cursor + catBufSize })).file
            fd.toNat = some { f with cursor := f.cursor + catBufSize } := by
          simp [Heap.setFile]
        obtain ⟨s', hloop, hcopied⟩ := ih ht hf' himage (by
          rw [← Nat.add_assoc, hrest, List.length_drop]
          rw [Nat.mul_succ] at hfuel
          omega)
        rw [← Nat.add_assoc, hrest] at hcopied
        obtain ⟨n, hs'⟩ := hcopied.table
        rw [Heap.setFile_setFile] at hs'
        rw [if_neg hshort]
        refine ⟨s', hloop, ⟨n, hs'⟩, ?_, fun x hx hout => ?_⟩
        · have hsplit : fileText image (f.start + f.cursor)
              = text ++ (fileText image (f.start + f.cursor)).drop catBufSize := by
            rw [← htext, List.take_append_drop]
          rw [hcopied.console, htconsole, hsplit, List.map_append, List.reverse_append,
            List.append_assoc, ← hsplit]
        · exact (hcopied.kept x hx hout).trans (htkept x hx hout)

theorem Table.close_console (h : Table L.toAddresses g s) {arg2 : Word} {f : OpenFile}
    (hf : g.file arg2.toNat = some f) :
    (s.close L.toAddresses arg2).2.console = s.console := by
  obtain ⟨h3, hfd, -⟩ := h.bound _ f hf
  rw [Files.close, h.slot_some hf, if_neg (by omega), if_neg (by omega),
    if_neg (h.object_ne_zero hf)]
  split <;> rfl

/-- `cat` of a file that `open` finds, with a slot free for it: it prints
the text of the file and the newline, and closes what it has opened. -/
theorem cat_copies (h : Table L.toAddresses g s) {path buf fo impl : Word}
    (hk : s.Kmalloc fo impl) {start fd : Nat}
    (hfile : Tarfs.getFileBinary (s.image L.toAddresses) (s.filename L.toAddresses path)
      = some start) (hfd : s.fdIdx L.toAddresses = some fd)
    (hbuf : buf.toNat + catBufSize ≤ kernelVirtualBase.toNat) (huser : UserAddress c.newline)
    (hout : ¬ InSpan buf catBufSize c.newline) {fuel : Nat}
    (hfuel : (fileText (s.image L.toAddresses) start).length < catBufSize * fuel) :
    ∃ g' s', cat L.toAddresses c 2 path buf fo impl fuel s = some s' ∧
      Table L.toAddresses g' s' ∧ g'.file = g.file ∧
      s'.console = ((fileText (s.image L.toAddresses) start ++ [s.mem c.newline]).map
        Output.char).reverse ++ s.console := by
  obtain ⟨h3, hlt, hzero, -⟩ := fdIdx_eq_some hfd
  obtain ⟨t, hopened, hmem⟩ := h.install path hk h3 hlt (h.file_lt hfile)
  have hopen : s.sysOpen L.toAddresses path fo impl
      = ((fd : Int), s.install L.toAddresses path (field L.tarfsStart start) fd fo impl) := by
    simp only [Files.sysOpen, hfile, hfd]
  have hkept := hmem _ huser
  have hconsole : (s.install L.toAddresses path (field L.tarfsStart start) fd fo impl).console
      = s.console := by
    simp only [Files.install, Files.getTarfsImpl]
    split <;> rfl
  generalize s.install L.toAddresses path (field L.tarfsStart start) fd fo impl = u
    at hopened hopen hmem hkept hconsole
  have hword : (BitVec.ofInt 64 (fd : Int) : Word).toNat = fd := by
    rw [BitVec.ofInt_natCast, BitVec.toNat_ofNat]
    rw [numFds] at hlt
    omega
  have hfd' : (({ g with impl := some t } : Heap).setFile fd (some ⟨fo, start, 0⟩)).file
      (BitVec.ofInt 64 (fd : Int) : Word).toNat = some ⟨fo, start, 0⟩ := by
    rw [hword]
    simp [Heap.setFile]
  obtain ⟨v, hloop, hcopied⟩ := catLoop_copied (c := c) hopened hfd' hbuf h.image_eq.symm hfuel
  obtain ⟨n, hv⟩ := hcopied.table
  have hbyte : v.mem c.newline = s.mem c.newline := (hcopied.kept _ huser hout).trans hkept
  have hsay : say L.toAddresses v c.newline "\n" = some (v.printed [s.mem c.newline]) := by
    have hone : "\n".length = 1 := by decide
    rw [hv.say_eq c.newline (by decide), ← hbyte, hone, bytes_succ]
    rfl
  have hw := hv.printed [s.mem c.newline]
  have hfile' : ((({ g with impl := some t } : Heap).setFile fd (some ⟨fo, start, 0⟩)).setFile
      (BitVec.ofInt 64 (fd : Int) : Word).toNat (some ⟨fo, start, n⟩)).file
      (BitVec.ofInt 64 (fd : Int) : Word).toNat = some ⟨fo, start, n⟩ := by
    simp [Heap.setFile]
  have hclose := hw.close_console hfile'
  refine ⟨_, _, ?_, (hw.close_call (BitVec.ofInt 64 (fd : Int))).1, ?_, ?_⟩
  · simp only [cat, if_true, hopen, hloop, hsay, Option.bind_some, Option.map_some,
      if_neg (by omega : ¬ (fd : Int) < 0)]
  · have hnone := (h.slot_eq_zero_iff h3 hlt).mp hzero
    rw [hword, Heap.setFile_setFile, Heap.setFile_setFile]
    simp [Heap.setFile, ← hnone]
  · rw [hclose, Files.printed, hcopied.console, hconsole, List.map_append, List.reverse_append,
      List.append_assoc]
    rfl

/-- **`cat` prints the file.** In every state a process can be in, with a
slot free and a file that reads can deliver, `cat` prints the data of the
file and a newline, returns, and leaves every descriptor as it was. -/
theorem cat_prints {s₀ : Files} {h : List (Call × Int)} (h₀ : Start L.toAddresses s₀)
    (hrun : Run L.toAddresses UserBuffer s₀ s h) {path buf fo impl : Word}
    (hk : s.Kmalloc fo impl) {before following : List Entry} {e : Entry} {z : Nat}
    (hz : 1 ≤ z) (himage : s.image L.toAddresses = archive (before ++ e :: following) z)
    (hdata : ∀ b ∈ e.data, Tarfs.isEof b = false) (hend : Tarfs.Delimited e following)
    (hfile : Tarfs.getFileBinary (s.image L.toAddresses) (s.filename L.toAddresses path)
      = some (512 * (Tarfs.blockAfter before + 1)))
    (hfree : ∃ fd, 3 ≤ fd ∧ fd < numFds ∧ s.slot L.toAddresses fd = 0)
    (hbuf : buf.toNat + catBufSize ≤ kernelVirtualBase.toNat) (huser : UserAddress c.newline)
    (hout : ¬ InSpan buf catBufSize c.newline) (hnewline : s.mem c.newline = ascii '\n')
    {fuel : Nat} (hfuel : e.data.length < catBufSize * fuel) :
    ∃ s', cat L.toAddresses c 2 path buf fo impl fuel s = some s' ∧
      s'.console = ((e.data ++ [ascii '\n']).map Output.char).reverse ++ s.console ∧
      ∀ fd, 3 ≤ fd → fd < numFds → s'.cursor L.toAddresses fd = s.cursor L.toAddresses fd := by
  obtain ⟨g, hg, -⟩ := hrun.table h₀
  have htext : fileText (s.image L.toAddresses) (512 * (Tarfs.blockAfter before + 1)) = e.data := by
    rw [himage, Tarfs.fileText_archive before hz hdata hend]
  have hsome : s.fdIdx L.toAddresses ≠ none := by
    obtain ⟨fd, h3, hlt, hzero⟩ := hfree
    exact fun hnone => fdIdx_eq_none_iff.mp hnone fd h3 hlt hzero
  obtain ⟨fd, hfd⟩ := Option.ne_none_iff_exists'.mp hsome
  obtain ⟨g', s', hcat, hg', hfiles, hconsole⟩ :=
    cat_copies hg hk hfile hfd hbuf huser hout (by rwa [htext])
  rw [htext, hnewline] at hconsole
  exact ⟨s', hcat, hconsole, fun i h3 hi => by rw [hg'.cursor h3 hi, hg.cursor h3 hi, hfiles]⟩

end Cat

section Sample

def typedNewline : Typed := ⟨1, [(0, ascii '\n')]⟩

def typedFiles : Files :=
  ((sampleFiles.read sampleAddresses typedNewline 0 0x2000 1).getD (0, sampleFiles)).2

theorem userBuffer_typedNewline : UserBuffer (.read 0 0x2000 1 typedNewline) := by
  rw [UserBuffer, if_pos rfl]
  decide

theorem read_typedNewline :
    sampleFiles.read sampleAddresses typedNewline 0 0x2000 1 = some (1, typedFiles) := by
  have hread : (sampleFiles.read sampleAddresses typedNewline 0 0x2000 1).map Prod.fst = some 1 := by
    decide +kernel
  rw [typedFiles]
  cases h : sampleFiles.read sampleAddresses typedNewline 0 0x2000 1 with
  | none =>
      rw [h] at hread
      cases hread
  | some p =>
      rw [h] at hread
      rw [Option.getD_some, ← Option.some.inj hread]

theorem run_typedFiles : Run sampleAddresses UserBuffer sampleFiles typedFiles
    [(.read 0 0x2000 1 typedNewline, 1)] :=
  .call .start sampleFiles_kmalloc userBuffer_typedNewline read_typedNewline

theorem sampleMem_archive {j : Nat} (hj : j < 1536) :
    sampleMem (field sampleAddresses.tarfsStart j) = (Tarfs.fileB.bytes[j]?).getD 0#8 := by
  have hlen : Tarfs.fileB.bytes.length = 1024 := Tarfs.fileB.length_bytes
  by_cases hlow : j < 1024
  · have hadd : field sampleAddresses.tarfsStart j
        = BitVec.ofNat 64 (0x6000 + j) + kernelVirtualBase := by
      rw [field, BitVec.ofNat_add, BitVec.add_comm _ kernelVirtualBase, ← BitVec.add_assoc]
      rfl
    have hi : (field sampleAddresses.tarfsStart j - kernelVirtualBase).toNat = 0x6000 + j := by
      rw [hadd, BitVec.add_sub_cancel, BitVec.toNat_ofNat, Nat.mod_eq_of_lt (by omega)]
    simp only [sampleMem, hi]
    rw [if_neg (by omega), if_pos (by omega), Nat.add_sub_cancel_left]
  · rw [sampleMem_eq_zero (by omega) hj, List.getElem?_eq_none (by omega), Option.getD_none]

theorem typedFiles_image :
    typedFiles.image sampleAddresses = archive ([] ++ Tarfs.fileB :: []) 1 := by
  have hlen : Tarfs.fileB.bytes.length = 1024 := Tarfs.fileB.length_bytes
  obtain ⟨impl, hg⟩ := Start.table (L := sampleLayout) sampleFiles_start
  have hkept : typedFiles.image sampleAddresses = sampleFiles.image sampleAddresses :=
    hg.read_image userBuffer_typedNewline read_typedNewline
  have hsize : (archive ([] ++ Tarfs.fileB :: []) 1).length = 1536 := by
    simp only [archive, List.nil_append, List.flatMap_cons, List.flatMap_nil, List.append_nil,
      List.length_append, hlen, List.length_replicate]
  rw [hkept, Files.image]
  refine List.ext_getElem (by rw [hsize, bytes, List.length_map, List.length_range]; rfl) ?_
  intro j hj hj'
  rw [hsize] at hj'
  have hbyte := sampleMem_archive hj'
  simp only [bytes, List.getElem_map, List.getElem_range, archive, List.nil_append,
    List.flatMap_cons, List.flatMap_nil, List.append_nil, List.getElem_append,
    List.getElem_replicate]
  refine hbyte.trans ?_
  split
  · rename_i hlow
    rw [List.getElem?_eq_getElem hlow, Option.getD_some]
  · rename_i hhigh
    rw [List.getElem?_eq_none (Nat.not_lt.mp hhigh), Option.getD_none]

theorem typedFiles_kmalloc : typedFiles.Kmalloc sampleFo sampleImpl where
  object := fresh_of_le (by decide) (by decide +kernel)
  functions := fresh_of_le (by decide) (by decide +kernel)
  apart := sampleFiles_kmalloc.apart

/-- `cat b`, where `b` has one byte. -/
theorem cat_prints_b : ∃ s', cat sampleAddresses ⟨0x2100, 0x2200, 0x2000, 0x2300⟩ 2
      sampleAddresses.tarfsStart 0x1000 sampleFo sampleImpl 1 typedFiles = some s' ∧
    s'.console = [.char (ascii '\n'), .char (ascii 'x')] := by
  have hfile : Tarfs.getFileBinary (typedFiles.image sampleAddresses)
      (typedFiles.filename sampleAddresses sampleAddresses.tarfsStart)
      = some (512 * (Tarfs.blockAfter [] + 1)) := by decide +kernel
  have hfree : ∃ fd, 3 ≤ fd ∧ fd < numFds ∧ typedFiles.slot sampleAddresses fd = 0 :=
    ⟨3, by decide, by decide, by decide +kernel⟩
  have hbuf : (0x1000 : Word).toNat + catBufSize ≤ kernelVirtualBase.toNat := by decide
  have huser : UserAddress 0x2000 := by
    rw [UserAddress]
    decide
  have hout : ¬ InSpan (0x1000 : Word) catBufSize 0x2000 := fun hin => by
    have := (hin.bounds (by decide)).2
    exact absurd this (by decide)
  have hfuel : Tarfs.fileB.data.length < catBufSize * 1 := by decide
  obtain ⟨s', hcat, hconsole, -⟩ := cat_prints (L := sampleLayout)
    (c := ⟨0x2100, 0x2200, 0x2000, 0x2300⟩) sampleFiles_start run_typedFiles typedFiles_kmalloc
    (Nat.le_refl 1) typedFiles_image (by decide) (.inl (by decide)) hfile hfree hbuf huser hout
    (by decide +kernel) hfuel
  exact ⟨s', hcat, hconsole⟩

end Sample

end Vfs

end SnowOs
