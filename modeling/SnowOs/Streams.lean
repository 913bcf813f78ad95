import SnowOs.DescriptorTable

/-!
# Descriptors as streams

`descriptors_are_cursors` says how far each descriptor is, `reads_file_iff`
what reads of one file from the beginning deliver. Here the two meet in the
memory that the system calls share: a read stores the next bytes of its file
in the buffer and nothing else in user memory (`Table.read_file`), so along
any run of opens, reads, writes and closes on any descriptors, what a
descriptor has delivered since it was opened is a beginning of the text of
its file, and the next read continues it (`streams_of_run`).

The text of a file is what lies in the archive up to the first byte that
`tarfs_read` stops at.
-/

namespace SnowOs

open ByteMemory

namespace Tarfs

theorem takeWhile_drop {α : Type} (p : α → Bool) {k : Nat} {l : List α}
    (hk : k ≤ (l.takeWhile p).length) : (l.drop k).takeWhile p = (l.takeWhile p).drop k := by
  induction k generalizing l with
  | zero => rfl
  | succ k ih =>
      cases l with
      | nil => rfl
      | cons a l =>
          rw [List.takeWhile_cons] at hk ⊢
          cases ha : p a with
          | false => simp [ha] at hk
          | true =>
              rw [ha, if_pos rfl, List.length_cons] at hk
              rw [if_pos rfl, List.drop_succ_cons, List.drop_succ_cons, ih (by omega)]

/-- Behind bytes that have been read the text goes on. -/
theorem fileText_add {image : List Byte} {start k : Nat}
    (hk : k ≤ (fileText image start).length) :
    fileText image (start + k) = (fileText image start).drop k := by
  rw [fileText, ← List.drop_drop]
  exact takeWhile_drop _ hk

/-- The text of a file that has none of the bytes in it, and one behind it,
is the file. -/
theorem fileText_archive (before : List Entry) {e : Entry} {following : List Entry} {z : Nat}
    (hz : 1 ≤ z) (hdata : ∀ c ∈ e.data, isEof c = false) (hend : Delimited e following) :
    fileText (archive (before ++ e :: following) z) (512 * (blockAfter before + 1)) = e.data := by
  have hnext := (isEof_next_iff e following hz).mpr hend
  rw [fileText, drop_archive]
  generalize List.replicate (512 * (e.blocks - 1) - e.data.length) 0#8 ++ archive following z = rest
    at hnext ⊢
  rw [List.takeWhile_append_of_pos fun c hc => by rw [hdata c hc]; rfl]
  cases rest with
  | nil => rw [List.takeWhile_nil, List.append_nil]
  | cons b rest =>
      rw [List.headD_cons] at hnext
      rw [List.takeWhile_cons, hnext, if_neg (by decide), List.append_nil]

end Tarfs

namespace Vfs

open Tarfs (fileText isEof)

/-! ## Reading -/

section Calls

variable {L : Layout} {g : Heap} {s : Files}

theorem changedIn_addOffset (m : Memory 64) (fo : Word) (r : Int) :
    ChangedIn (InSpan fo 40) m (Files.addOffset m fo r) := by
  rw [Files.addOffset]
  split
  · exact changedIn_store m fo _ (by omega : 32 + 4 ≤ 40)
  · exact .refl _ _

/-- A read from an open file: the buffer has the next bytes of the file, the
cursor is behind them, and nothing else has changed that a program or a later
call can see. -/
theorem Table.read_file (h : Table L.toAddresses g s) {arg2 arg3 arg4 : Word} {f : OpenFile}
    (hf : g.file arg2.toNat = some f) (typed : Typed) (hlen : 0 < intArg arg4)
    (hbuf : arg3.toNat + (intArg arg4).toNat ≤ kernelVirtualBase.toNat) {text : List Byte}
    (htext : f.next g.image (intArg arg4).toNat = text) :
    ∃ s', s.read L.toAddresses typed arg2 arg3 arg4 = some ((text.length : Int), s') ∧
      Table L.toAddresses (g.advance arg2.toNat text.length) s' ∧
      bytes s'.mem arg3 text.length = text ∧ s'.console = s.console ∧
      ∀ x, UserAddress x → ¬ InSpan arg3 text.length x → s'.mem x = s.mem x := by
  have hread := h.read_eq hf typed hbuf
  simp only [htext, if_neg (Int.not_le.mpr hlen)] at hread
  have hb : g.block L.toAddresses (.file arg2.toNat) = some (f.object, 40) := by
    simp [Heap.block, hf]
  have hle : text.length ≤ (intArg arg4).toNat := by
    rw [← htext]
    exact List.length_take_le ..
  have hoffset := changedIn_addOffset (putBytes s.mem arg3 text) f.object text.length
  have huser : ∀ x, UserAddress x → Files.addOffset (putBytes s.mem arg3 text) f.object
      text.length x = putBytes s.mem arg3 text x :=
    fun x hx => hoffset x fun hin => not_userAddress (h.kernel _ _ hb) hin hx
  have hspan : ∀ x, InSpan arg3 text.length x → UserAddress x := by
    rintro x ⟨j, hj, rfl⟩
    exact userAddress_field hbuf (by omega)
  refine ⟨_, hread, ?_, ?_, rfl, fun x hx hout => ?_⟩
  · obtain ⟨r, s', heq, htable⟩ :=
      h.read_call ((h.userBuffer_iff hf arg3 arg4 typed).mpr hbuf)
    obtain ⟨rfl, rfl⟩ := Prod.mk.inj (Option.some.inj (heq.symm.trans hread))
    exact htable
  · have hlt := kernelVirtualBase.isLt
    rw [bytes_congr fun x hx => huser x (hspan x hx), bytes_putBytes (by omega)]
  · exact (huser x hx).trans (putBytes_apply hout)

end Calls

/-! ## Runs -/

/-- What a process sees of a call. -/
inductive Seen where
  | opened (fd start : Nat)
  | delivered (fd : Nat) (data : List Byte)
  | closed (fd : Nat)
  | nothing
deriving DecidableEq

/-- An `OPEN` finds a file, a `READ` leaves bytes in its buffer. -/
def observe (L : Addresses) (s : Files) (c : Call) (r : Int) (s' : Files) : Seen :=
  match c with
  | .open arg2 =>
      match Tarfs.getFileBinary (s.image L) (s.filename L arg2) with
      | some start => if 0 ≤ r then .opened r.toNat start else .nothing
      | none => .nothing
  | .read arg2 arg3 _ _ =>
      if 0 < r then .delivered arg2.toNat (bytes s'.mem arg3 r.toNat) else .nothing
  | .write _ _ _ => .nothing
  | .close arg2 => if r = 0 then .closed arg2.toNat else .nothing

/-- What an observation says about the descriptors. -/
def Seen.track (d : Nat → Option (Nat × List Byte)) : Seen → Nat → Option (Nat × List Byte)
  | .opened fd start => Function.update d fd (some (start, []))
  | .delivered fd data => Function.update d fd ((d fd).map fun p => (p.1, p.2 ++ data))
  | .closed fd => Function.update d fd none
  | .nothing => d

/-- The open descriptors after a history, newest first: where the file of
each one starts, and what has been read from it since it was opened. -/
def streams : List Seen → Nat → Option (Nat × List Byte)
  | [] => fun _ => none
  | o :: h => o.track (streams h)

/-- The runs of one process with buffers in user memory, and what it sees. -/
inductive Watched (L : Addresses) (s₀ : Files) : Files → List Seen → Prop
  | start : Watched L s₀ s₀ []
  | call {s s' : Files} {h : List Seen} {c : Call} {r : Int} {fo impl : Word}
      (run : Watched L s₀ s h) (kmalloc : s.Kmalloc fo impl) (hbuf : UserBuffer c)
      (hcall : s.handle L fo impl c = some (r, s')) : Watched L s₀ s' (observe L s c r s' :: h)

/-- Each descriptor of a state is a stream of its file: what it has delivered
is a beginning of the text, and a read delivers what comes next. -/
structure Streams (L : Addresses) (image : List Byte) (s : Files) (h : List Seen) : Prop where
  isOpen : ∀ fd, 3 ≤ fd → fd < numFds → (s.slot L fd = 0 ↔ streams h fd = none)
  begun : ∀ fd start data, streams h fd = some (start, data) → data <+: fileText image start
  next : ∀ arg2 arg3 arg4 typed start data, streams h arg2.toNat = some (start, data) →
    UserBuffer (.read arg2 arg3 arg4 typed) → 0 < intArg arg4 →
    ∃ s' text, text = ((fileText image start).drop data.length).take (intArg arg4).toNat ∧
      s.read L typed arg2 arg3 arg4 = some ((text.length : Int), s') ∧
      bytes s'.mem arg3 text.length = text

section Runs

variable {L : Layout} {g : Heap} {s s' : Files} {r : Int} {image : List Byte} {h : List Seen}

/-- What the kernel has for an open file, as a stream. -/
def OpenFile.stream (image : List Byte) (f : OpenFile) : Nat × List Byte :=
  (f.start, (fileText image f.start).take f.cursor)

/-- The kernel has the descriptors of the history, none of them past the end
of its file. -/
structure Follows (L : Layout) (image : List Byte) (g : Heap) (s : Files) (h : List Seen) :
    Prop where
  table : Table L.toAddresses g s
  image_eq : g.image = image
  stream : ∀ fd, streams h fd = (g.file fd).map (OpenFile.stream image)
  cursor : ∀ fd f, g.file fd = some f → f.cursor ≤ (fileText image f.start).length

theorem Start.follows (h₀ : Start L.toAddresses s) :
    ∃ g, Follows L (s.image L.toAddresses) g s [] := by
  obtain ⟨impl, hg⟩ := h₀.table
  exact ⟨_, hg, rfl, fun _ => rfl, nofun⟩

/-- Nothing is seen of a call that leaves the descriptors alone. -/
theorem Follows.nothing (hf : Follows L image g s h) (htable : Table L.toAddresses g s') :
    Follows L image g s' (.nothing :: h) :=
  ⟨htable, hf.image_eq, hf.stream, hf.cursor⟩

theorem Follows.set (hf : Follows L image g s h) {fd : Nat} {e : Option OpenFile} {t : Option Word}
    {o : Seen} (htable : Table L.toAddresses (({ g with impl := t } : Heap).setFile fd e) s')
    (hseen : o.track (streams h) = Function.update (streams h) fd (e.map (OpenFile.stream image)))
    (hcursor : ∀ f, e = some f → f.cursor ≤ (fileText image f.start).length) :
    Follows L image (({ g with impl := t } : Heap).setFile fd e) s' (o :: h) where
  table := htable
  image_eq := hf.image_eq
  stream i := by
    rw [streams, hseen]
    by_cases hi : i = fd
    · subst hi
      simp [Heap.setFile]
    · simp [Heap.setFile, hi, hf.stream]
  cursor i f hi := by
    by_cases heq : i = fd
    · subst heq
      exact hcursor f (by simpa [Heap.setFile] using hi)
    · exact hf.cursor i f (by simpa [Heap.setFile, heq] using hi)

theorem track_delivered_of_none {d : Nat → Option (Nat × List Byte)} {fd : Nat}
    (hd : d fd = none) (data : List Byte) : (Seen.delivered fd data).track d = d := by
  rw [Seen.track, hd, Option.map_none, ← hd, Function.update_eq_self]

theorem Follows.opened (hf : Follows L image g s h) {fo impl : Word} (hk : s.Kmalloc fo impl)
    {arg2 : Word} (hcall : s.sysOpen L.toAddresses arg2 fo impl = (r, s')) :
    ∃ g', Follows L image g' s' (observe L.toAddresses s (.open arg2) r s' :: h) := by
  rw [Files.sysOpen] at hcall
  rw [observe]
  cases hfile : Tarfs.getFileBinary (s.image L.toAddresses) (s.filename L.toAddresses arg2) with
  | none =>
      rw [hfile] at hcall
      cases hcall
      exact ⟨g, hf.nothing hf.table⟩
  | some start =>
      rw [hfile] at hcall
      dsimp only at hcall ⊢
      cases hfd : s.fdIdx L.toAddresses with
      | none =>
          rw [hfd] at hcall
          cases hcall
          exact ⟨g, hf.nothing hf.table⟩
      | some fd =>
          rw [hfd] at hcall
          cases hcall
          obtain ⟨h3, hlt, -, -⟩ := fdIdx_eq_some hfd
          obtain ⟨t, htable, -⟩ := hf.table.install arg2 hk h3 hlt (hf.table.file_lt hfile)
          rw [if_pos (Int.natCast_nonneg fd), Int.toNat_natCast]
          refine ⟨_, hf.set htable rfl ?_⟩
          intro f hnew
          obtain rfl := Option.some.inj hnew
          exact Nat.zero_le _

theorem Follows.advance (hf : Follows L image g s h) {fd n : Nat} {f : OpenFile}
    (hfile : g.file fd = some f) {text : List Byte} (htext : f.next image n = text)
    (htable : Table L.toAddresses
      (g.setFile fd (some { f with cursor := f.cursor + text.length })) s') :
    ∃ g', Follows L image g' s' (.delivered fd text :: h) := by
  have hle := hf.cursor fd f hfile
  rw [OpenFile.next, Tarfs.fileText_add hle] at htext
  have hbegin : text <+: (fileText image f.start).drop f.cursor := htext ▸ List.take_prefix ..
  refine ⟨_, hf.set (t := g.impl) htable ?_ ?_⟩
  · rw [Seen.track, hf.stream, hfile, Option.map_some, Option.map_some, Option.map_some]
    refine congrArg (fun e => Function.update (streams h) fd (some e)) (Prod.ext rfl ?_)
    simp only [OpenFile.stream]
    rw [List.take_add, ← List.prefix_iff_eq_take.mp hbegin]
  · intro f' hnew
    obtain rfl := Option.some.inj hnew
    have := hbegin.length_le
    rw [List.length_drop] at this
    dsimp only
    omega

theorem Follows.read (hf : Follows L image g s h) {typed : Typed} {arg2 arg3 arg4 : Word}
    (hbuf : UserBuffer (.read arg2 arg3 arg4 typed))
    (hcall : s.read L.toAddresses typed arg2 arg3 arg4 = some (r, s')) :
    ∃ g', Follows L image g' s'
      (observe L.toAddresses s (.read arg2 arg3 arg4 typed) r s' :: h) := by
  obtain ⟨r', t, heq, htable⟩ := hf.table.read_call hbuf
  obtain ⟨rfl, rfl⟩ := Prod.mk.inj (Option.some.inj (heq.symm.trans hcall))
  rw [observe]
  by_cases hpos : 0 < r'
  case neg =>
    rw [if_neg hpos]
    rw [Heap.advance, if_neg hpos] at htable
    exact ⟨g, hf.nothing htable⟩
  rw [if_pos hpos]
  cases hfile : g.file arg2.toNat with
  | none =>
      have hnone : streams h arg2.toNat = none := by rw [hf.stream, hfile, Option.map_none]
      rw [Heap.advance_of_none hfile] at htable
      refine ⟨g, htable, hf.image_eq, fun fd => ?_, hf.cursor⟩
      rw [streams, track_delivered_of_none hnone, hf.stream]
  | some f =>
      have hroom := (hf.table.userBuffer_iff hfile arg3 arg4 typed).mp hbuf
      have hlen : 0 < intArg arg4 := by
        by_contra hle
        have hread := hf.table.read_eq hfile typed hroom
        simp only [if_pos (Int.not_lt.mp hle)] at hread
        have hr := (Prod.mk.inj (Option.some.inj (heq.symm.trans hread))).1
        omega
      obtain ⟨u, hread, -, hbytes, -⟩ := hf.table.read_file hfile typed hlen hroom rfl
      obtain ⟨rfl, rfl⟩ := Prod.mk.inj (Option.some.inj (heq.symm.trans hread))
      rw [Heap.advance, if_pos hpos, hfile, Option.map_some, Int.toNat_natCast] at htable
      rw [Int.toNat_natCast, hbytes]
      exact hf.advance hfile (by rw [hf.image_eq]) htable

theorem Follows.closed (hf : Follows L image g s h) (arg2 : Word) :
    ∃ g', Follows L image g' (s.close L.toAddresses arg2).2
      (observe L.toAddresses s (.close arg2) (s.close L.toAddresses arg2).1
        (s.close L.toAddresses arg2).2 :: h) := by
  obtain ⟨htable, hr⟩ := hf.table.close_call arg2
  rw [observe, hr]
  cases hfile : g.file arg2.toNat with
  | none =>
      rw [Heap.setFile_of_eq hfile] at htable
      exact ⟨g, hf.nothing htable⟩
  | some f => exact ⟨_, hf.set (t := g.impl) htable rfl nofun⟩

theorem Watched.follows {s₀ : Files} (h₀ : Start L.toAddresses s₀)
    (hrun : Watched L.toAddresses s₀ s h) :
    ∃ g, Follows L (s₀.image L.toAddresses) g s h := by
  induction hrun with
  | start => exact h₀.follows
  | @call s s' h c r fo impl _ hk hbuf hcall ih =>
      obtain ⟨g, hf⟩ := ih
      cases c with
      | «open» arg2 => exact hf.opened hk (Option.some.inj hcall)
      | read arg2 arg3 arg4 typed => exact hf.read hbuf hcall
      | write arg2 arg3 arg4 =>
          obtain ⟨r', t, heq, htable⟩ := hf.table.write_call arg2 arg3 arg4
          obtain ⟨rfl, rfl⟩ := Prod.mk.inj (Option.some.inj (heq.symm.trans hcall))
          exact ⟨g, hf.nothing htable⟩
      | close arg2 =>
          have heq := Option.some.inj hcall
          obtain ⟨rfl, rfl⟩ := Prod.mk.inj heq
          exact hf.closed arg2

/-- **Descriptors are streams.** In every run of a process whose buffers lie
in user memory, whatever the order of its calls, a descriptor has delivered a
beginning of the text of the file it was opened on, and the next read stores
what follows. -/
theorem streams_of_run {s₀ : Files} (h₀ : Start L.toAddresses s₀)
    (hrun : Watched L.toAddresses s₀ s h) :
    Streams L.toAddresses (s₀.image L.toAddresses) s h := by
  obtain ⟨g, hf⟩ := hrun.follows h₀
  have hopen {fd start : Nat} {data : List Byte} (hs : streams h fd = some (start, data)) :
      ∃ f, g.file fd = some f ∧ f.stream (s₀.image L.toAddresses) = (start, data) := by
    rw [hf.stream, Option.map_eq_some_iff] at hs
    exact hs
  refine ⟨fun fd h3 hfd => ?_, fun fd start data hs => ?_, ?_⟩
  · rw [hf.table.slot_eq_zero_iff h3 hfd, hf.stream, Option.map_eq_none_iff]
  · obtain ⟨f, -, heq⟩ := hopen hs
    cases heq
    exact List.take_prefix ..
  · intro arg2 arg3 arg4 typed start data hs hbuf hlen
    obtain ⟨f, hfile, heq⟩ := hopen hs
    cases heq
    have hle := hf.cursor _ f hfile
    have hroom := (hf.table.userBuffer_iff hfile arg3 arg4 typed).mp hbuf
    obtain ⟨s', hread, -, hbytes, -⟩ := hf.table.read_file hfile typed hlen hroom rfl
    refine ⟨s', _, ?_, hread, hbytes⟩
    rw [OpenFile.next, hf.image_eq, Tarfs.fileText_add hle, List.length_take, Nat.min_eq_left hle]

end Runs

/-- The file of one byte, opened and read. -/
theorem streams_of_run_readB : ∃ h, streams h 3 = some (512, [ascii 'x']) ∧
    Streams sampleAddresses (sampleFiles.image sampleAddresses) (afterReadB 0x1000) h := by
  have hread : (openedB.read sampleAddresses ⟨0, []⟩ 3 0x1000 1).map Prod.fst = some 1 := by
    decide +kernel
  have hopen : UserBuffer openB := trivial
  have hrun : Watched sampleAddresses sampleFiles (afterReadB 0x1000)
      [observe sampleAddresses openedB (readB 0x1000) 1 (afterReadB 0x1000),
        observe sampleAddresses sampleFiles openB 3 openedB] :=
    (Watched.start.call sampleFiles_kmalloc hopen handle_openB).call openedB_kmalloc
      userBuffer_readB (handle_readB hread _ _)
  exact ⟨_, by decide +kernel, streams_of_run (L := sampleLayout) sampleFiles_start hrun⟩

end Vfs

end SnowOs
