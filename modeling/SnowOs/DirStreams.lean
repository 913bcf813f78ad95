import SnowOs.ByteMemory
import SnowOs.History
import SnowOs.Tarfs

/-!
# Directory streams (`open_dir`, `read_dir`, `opendir`, `readdir`)

A stream is a `struct dir_header` in the kernel's heap; here it is bytes
of memory at the address `kmalloc` returned, with the contents the pages
had before. `get_folder` sets the count and fills the table of names, but
not the cursor `current_point`. In the library the handle is one static
object, `dir_open`, that every `opendir` overwrites and returns.

What the calls return is kept as a list of events, in which a stream is
named by the number of its `opendir`. A run keeps its streams independent
if only the stream opened last is used and the memory of its block had a
zero in the place of the cursor (`independent_streams`); with two streams
open the names of one are returned on the other (`streams_mixed`).
-/

namespace SnowOs.DirStreams

open ByteMemory Tarfs

/-- `BUF_SIZE` of the kernel. -/
def bufSize : Nat := 128

def filesAllowed : Nat := 64

/-! ## `struct dir_header` -/

def place (dir : Word) (offset : Nat) : Word := dir + BitVec.ofNat 64 offset

def int (m : Memory 64) (a : Word) : Int := (BitVec.ofNat 32 (load m a 4)).toInt

def setInt (m : Memory 64) (a : Word) (v : Int) : Memory 64 :=
  store m a 4 (BitVec.ofInt 32 v).toNat

def currentPoint (dir : Word) : Word := place dir 0

def fileCount (dir : Word) : Word := place dir 4

/-- `dir->files[i]`, for any `i`. -/
def files (dir : Word) (i : Int) : Word := dir + BitVec.ofInt 64 (8 + bufSize * i)

def dirExists (dir : Word) : Word := place dir (8 + bufSize * filesAllowed)

def sizeofDirHeader : Nat := 8 + bufSize * filesAllowed + 4

/-! ## The kernel -/

/-- A name is put into the table, whose length is not checked. -/
def addFile (m : Memory 64) (dir : Word) (name : List Byte) : Memory 64 :=
  let m := putBytes m (files dir (int m (fileCount dir))) (name ++ [0#8])
  let m := setInt m (fileCount dir) (int m (fileCount dir) + 1)
  setInt m (dirExists dir) 1

/-- What a round of `get_folder` does to the block. -/
def folderStore (image name : List Byte) (dir : Word) (m : Memory 64) (s : Nat) : Memory 64 :=
  let tmpCopy := cString name ++ [ascii '/']
  if substr name (Tarfs.name image s) ∧ kstrcmp tmpCopy (Tarfs.name image s) ≠ 0 then
    addFile m dir (cString (Tarfs.name image s))
  else if kstrcmp tmpCopy (Tarfs.name image s) = 0 then setInt m (dirExists dir) 1
  else m

/-- The body of the loop of `get_folder`. -/
def folderStep (image name : List Byte) (dir : Word) (m : Memory 64) (s : Nat) :
    Memory 64 ⊕ Unit :=
  if CopyFits name then .inl (folderStore image name dir m s) else .inr ()

/-- `get_folder`, in the block `kmalloc` returned; `none` if `tmp_copy` is
overrun. -/
def getFolder (image name : List Byte) (dir : Word) (m : Memory 64) : Option (Memory 64) :=
  let m := setInt (setInt m (fileCount dir) 0) (dirExists dir) 0
  match walk image (folderStep image name dir) m with
  | some (.inl m) => some m
  | _ => none

def openDir (image name : List Byte) (dir : Word) (m : Memory 64) : Option (Word × Memory 64) :=
  (getFolder image name dir m).map fun m => (if int m (dirExists dir) = 1 then dir else 0, m)

/-- `read_dir`: the bytes copied to the caller, or -1. -/
def readDir (m : Memory 64) (stream : Word) : Option (List Byte) × Memory 64 :=
  let current := int m (currentPoint stream)
  if int m (fileCount stream) ≤ current then (none, m)
  else (some (bytes m (files stream current) bufSize), setInt m (currentPoint stream) (current + 1))

/-! ## The library -/

/-- What `readdir` returns. A stream of 0, or one whose block was given
back, is a fault in the kernel. -/
inductive Answer where
  | name (dName : List Byte)
  | null
  | fault
deriving DecidableEq, Repr

/-- What happened: an `opendir` and whether it returned a stream, a
`readdir` and a `closedir` on the `k`-th stream. -/
inductive Event where
  | opened (name : List Byte) (ok : Bool)
  | read (k : Nat) (a : Answer)
  | closed (k : Nat)
deriving DecidableEq, Repr

/-- The memory of the kernel with the blocks given back, and `dir_open`. -/
structure Streams where
  mem : Memory 64
  freed : Word → Bool := fun _ => false
  dirOpen : Word := 0
  events : List Event := []

/-- The calls: `opendir` with the block that `kmalloc` returns to it and
its contents, and calls on the stream of the `k`-th `opendir`. The
argument of these is a pointer to `dir_open` whichever stream is meant.
`kfree` may find the page still referenced and keep it. -/
inductive Call where
  | opendir (name : List Byte) (dir : Word) (contents : Memory 64)
  | readdir (k : Nat)
  | closedir (k : Nat) (kept : Bool)

/-- The memory after `kmalloc` has mapped the three pages of a block. -/
def kmalloc (m : Memory 64) (dir : Word) (contents : Memory 64) : Memory 64 :=
  fun x => if (x - dir).toNat < 3 * 4096 then contents x else m x

namespace Streams

def opendir (image : List Byte) (s : Streams) (name : List Byte) (dir : Word)
    (contents : Memory 64) : Option Streams :=
  (openDir image name dir (kmalloc s.mem dir contents)).map fun (r : Word × Memory 64) =>
    { mem := r.2
      freed := Function.update s.freed dir false
      dirOpen := r.1
      events := s.events ++ [.opened name (r.1 ≠ 0)] }

/-- `readdir`: the kernel copies `BUF_SIZE` bytes over the cleared
`d_name`. -/
def readdir (s : Streams) (k : Nat) : Streams :=
  if s.dirOpen = 0 ∨ s.freed s.dirOpen then { s with events := s.events ++ [.read k .fault] }
  else
    match readDir s.mem s.dirOpen with
    | (none, _) => { s with events := s.events ++ [.read k .null] }
    | (some b, m) =>
        { s with
          mem := m
          events := s.events ++ [.read k (.name (cString (b ++ List.replicate bufSize 0#8)))] }

def closedir (s : Streams) (k : Nat) (kept : Bool) : Streams :=
  { s with
    freed := if kept then s.freed else Function.update s.freed s.dirOpen true
    events := s.events ++ [.closed k] }

def step (image : List Byte) (s : Streams) : Call → Option Streams
  | .opendir name dir contents => s.opendir image name dir contents
  | .readdir k => some (s.readdir k)
  | .closedir k kept => some (s.closedir k kept)

def run (image : List Byte) : Streams → List Call → Option Streams
  | s, [] => some s
  | s, c :: calls => (s.step image c).bind (run image · calls)

end Streams

/-! ## Independent streams -/

/-- The names of the directories opened, in order, and whether a stream
was returned. -/
def opens (events : List Event) : List (List Byte × Bool) :=
  events.filterMap fun
    | .opened name ok => some (name, ok)
    | _ => none

/-- The directory of the `k`-th stream, if it was returned and is not yet
closed. -/
def openStream (events : List Event) (k : Nat) : Option (List Byte) :=
  match (opens events)[k]? with
  | some (name, true) => if .closed k ∈ events then none else some name
  | _ => none

def reads (events : List Event) (k : Nat) : Nat :=
  events.countP fun
    | .read j _ => j = k
    | _ => false

/-- What the `i`-th call on a stream has to return. -/
def expected (names : List (List Byte)) (i : Nat) : Answer :=
  match names[i]? with
  | some name => .name name
  | none => .null

/-- Each stream returns the names `get_folder` collects for its directory,
each once and in order, and then NULL. -/
def Independent (image : List Byte) (events : List Event) : Prop :=
  Each (fun before e => ∀ k a name, e = .read k a → openStream before k = some name →
    ∃ d, Tarfs.getFolder image name = some d ∧ a = expected d.files (reads before k)) events

/-- The header has room for its names, in the table and in its rows. -/
def FitsHeader (d : DirHeader) : Prop :=
  d.files.length ≤ filesAllowed ∧ ∀ f ∈ d.files, f.length < bufSize

def Proper (image : List Byte) (s : Streams) : Call → Prop
  | .opendir name dir contents => ∃ d, Tarfs.getFolder image name = some d ∧ FitsHeader d ∧
      (int contents (currentPoint dir) = 0 ∨ d.files = [] ∧ 0 ≤ int contents (currentPoint dir))
  | .readdir k => k + 1 = (opens s.events).length
  | .closedir k _ => k + 1 = (opens s.events).length

/-- Every call of the run is proper in the state it is made in. -/
def ProperRun (image : List Byte) : Streams → List Call → Prop
  | _, [] => True
  | s, c :: calls => Proper image s c ∧ ∀ s' ∈ s.step image c, ProperRun image s' calls

/-! ## Fields of the block -/

section Fields

variable {m m' : Memory 64} {dir : Word} {i j k n : Nat}

theorem files_natCast (dir : Word) (i : Nat) : files dir i = place dir (8 + bufSize * i) := by
  rw [files, place, ← BitVec.ofInt_natCast]
  norm_cast

theorem int_setInt (m : Memory 64) (a : Word) {v : Int} (hlow : -2 ^ 31 ≤ v) (hhigh : v < 2 ^ 31) :
    int (setInt m a v) a = v := by
  rw [int, setInt, load_store_of_lt (by omega) (BitVec.isLt _), BitVec.ofNat_toNat,
    BitVec.setWidth_eq, BitVec.toInt_ofInt_eq_self (by omega) (by omega) (by omega)]

/-- What changed is a part of the block. -/
def ChangedAt (dir : Word) (i n : Nat) (m m' : Memory 64) : Prop :=
  ChangedIn (InSpan (place dir i) n) m m'

theorem changedAt_setInt (m : Memory 64) (dir : Word) (i : Nat) (v : Int) :
    ChangedAt dir i 4 m (setInt m (place dir i) v) :=
  fun _ hx => store_apply hx

theorem changedAt_currentPoint (m : Memory 64) (dir : Word) (v : Int) :
    ChangedAt dir 0 4 m (setInt m (currentPoint dir) v) :=
  changedAt_setInt m dir 0 v

theorem changedAt_fileCount (m : Memory 64) (dir : Word) (v : Int) :
    ChangedAt dir 4 4 m (setInt m (fileCount dir) v) :=
  changedAt_setInt m dir 4 v

theorem changedAt_dirExists (m : Memory 64) (dir : Word) (v : Int) :
    ChangedAt dir (8 + bufSize * filesAllowed) 4 m (setInt m (dirExists dir) v) :=
  changedAt_setInt m dir _ v

theorem changedAt_putBytes (m : Memory 64) (dir : Word) (i : Nat) (l : List Byte) :
    ChangedAt dir i l.length m (putBytes m (place dir i) l) :=
  fun _ hx => putBytes_apply hx

theorem ChangedAt.apart (hij : i + n ≤ j ∨ j + k ≤ i) (hn : i + n ≤ 2 ^ 64) (hk : j + k ≤ 2 ^ 64) :
    ∀ x, InSpan (place dir j) k x → ¬ InSpan (place dir i) n x := by
  intro x hx
  rcases hij with hij | hij
  · exact (apart_fields dir hij hk).symm x hx
  · exact apart_fields dir hij hn x hx

theorem ChangedAt.int_eq (h : ChangedAt dir i n m m') (hij : i + n ≤ j ∨ j + 4 ≤ i)
    (hn : i + n ≤ 2 ^ 64) (hj : j + 4 ≤ 2 ^ 64) : int m' (place dir j) = int m (place dir j) := by
  rw [int, int, load_changedIn h (ChangedAt.apart hij hn hj)]

theorem ChangedAt.bytes_eq (h : ChangedAt dir i n m m') (hij : i + n ≤ j ∨ j + k ≤ i)
    (hn : i + n ≤ 2 ^ 64) (hk : j + k ≤ 2 ^ 64) :
    bytes m' (place dir j) k = bytes m (place dir j) k :=
  bytes_congr fun x hx => h x (ChangedAt.apart hij hn hk x hx)

end Fields

/-! ## What `get_folder` stores -/

/-- The block holds the header: the count, the names in their rows, each
with a NUL, and the flag. -/
structure Holds (m : Memory 64) (dir : Word) (d : DirHeader) : Prop where
  count : int m (fileCount dir) = d.files.length
  rows : ∀ (i : Nat) (name : List Byte), d.files[i]? = some name →
    ∃ tail, bytes m (files dir i) bufSize = name ++ 0#8 :: tail
  clean : ∀ name ∈ d.files, 0#8 ∉ name
  flag : int m (dirExists dir) = if d.dirExists then 1 else 0

section Folder

variable {m : Memory 64} {dir : Word} {d : DirHeader} {image name : List Byte}

/-- A write behind the rows in use leaves the header as it is, up to the
fields written. -/
theorem Holds.rows_of_changedAt {m' : Memory 64} {i n : Nat} (h : Holds m dir d)
    (hlen : d.files.length ≤ filesAllowed) (hchange : ChangedAt dir i n m m')
    (hin : 8 + bufSize * d.files.length ≤ i ∨ i + n ≤ 8) (hn : i + n ≤ 2 ^ 64) :
    ∀ (j : Nat) (name : List Byte), d.files[j]? = some name →
      ∃ tail, bytes m' (files dir j) bufSize = name ++ 0#8 :: tail := by
  intro j name hj
  obtain ⟨hlt, -⟩ := List.getElem?_eq_some_iff.mp hj
  obtain ⟨tail, htail⟩ := h.rows j name hj
  refine ⟨tail, ?_⟩
  rw [files_natCast] at htail ⊢
  unfold bufSize filesAllowed at *
  rw [hchange.bytes_eq (by omega) hn (by omega), htail]

theorem addFile_holds (h : Holds m dir d) (hlen : d.files.length < filesAllowed)
    (hname : name.length < bufSize) (hzero : 0#8 ∉ name) :
    Holds (addFile m dir name) dir { d with files := d.files ++ [name], dirExists := true } ∧
      int (addFile m dir name) (currentPoint dir) = int m (currentPoint dir) := by
  have hrow : files dir (int m (fileCount dir)) = place dir (8 + bufSize * d.files.length) := by
    rw [h.count, files_natCast]
  unfold addFile
  rw [hrow]
  simp only
  have hput := changedAt_putBytes m dir (8 + bufSize * d.files.length) (name ++ [0#8])
  have hlast := bytes_putBytes (m := m) (a := place dir (8 + bufSize * d.files.length))
    (l := name ++ [0#8]) (by rw [List.length_append]; unfold bufSize at hname; simp; omega)
  generalize putBytes m (place dir (8 + bufSize * d.files.length)) (name ++ [0#8]) = m1
    at hput hlast ⊢
  rw [List.length_append, List.length_singleton] at hput hlast
  have hcount : int m1 (fileCount dir) = d.files.length := by
    rw [← h.count]
    unfold bufSize filesAllowed at *
    exact hput.int_eq (by omega) (by omega) (by omega)
  rw [hcount]
  have hset := changedAt_fileCount m1 dir (d.files.length + 1)
  have hcount' : int (setInt m1 (fileCount dir) (d.files.length + 1)) (fileCount dir)
      = d.files.length + 1 :=
    int_setInt _ _ (by omega) (by unfold filesAllowed at hlen; omega)
  generalize setInt m1 (fileCount dir) (d.files.length + 1) = m2 at hset hcount' ⊢
  have hmark := changedAt_dirExists m2 dir 1
  have hflag : int (setInt m2 (dirExists dir) 1) (dirExists dir) = 1 :=
    int_setInt _ _ (by omega) (by omega)
  generalize setInt m2 (dirExists dir) 1 = m3 at hmark hflag ⊢
  unfold bufSize filesAllowed at *
  refine ⟨⟨?_, fun j f hj => ?_, fun f hf => ?_, by simpa using hflag⟩, ?_⟩
  · rw [List.length_append, List.length_singleton, fileCount, hmark.int_eq (by omega) (by omega)
      (by omega)]
    exact hcount'
  · obtain ⟨hlt, -⟩ := List.getElem?_eq_some_iff.mp hj
    rw [List.length_append, List.length_singleton] at hlt
    have hsame : bytes m3 (place dir (8 + 128 * j)) 128
        = bytes m1 (place dir (8 + 128 * j)) 128 := by
      rw [hmark.bytes_eq (by omega) (by omega) (by omega),
        hset.bytes_eq (by omega) (by omega) (by omega)]
    rw [files_natCast]
    unfold bufSize
    rw [hsame]
    rcases Nat.lt_succ_iff_lt_or_eq.mp hlt with hold | rfl
    · rw [List.getElem?_append_left hold] at hj
      obtain ⟨tail, htail⟩ := h.rows j f hj
      rw [files_natCast] at htail
      exact ⟨tail, by rw [hput.bytes_eq (by omega) (by omega) (by omega)]; exact htail⟩
    · obtain rfl : name = f := by simpa using hj
      have hsplit := bytes_add m1 (place dir (8 + 128 * d.files.length)) (name.length + 1)
        (128 - (name.length + 1))
      rw [Nat.add_sub_cancel' hname, hlast] at hsplit
      rw [List.append_assoc] at hsplit
      exact ⟨_, hsplit⟩
  · rcases List.mem_append.mp hf with hf | hf
    · exact h.clean f hf
    · rwa [List.mem_singleton.mp hf]
  · rw [currentPoint, hmark.int_eq (by omega) (by omega) (by omega),
      hset.int_eq (by omega) (by omega) (by omega), hput.int_eq (by omega) (by omega) (by omega)]

theorem Holds.mark (h : Holds m dir d) (hlen : d.files.length ≤ filesAllowed) :
    Holds (setInt m (dirExists dir) 1) dir { d with dirExists := true } ∧
      int (setInt m (dirExists dir) 1) (currentPoint dir) = int m (currentPoint dir) := by
  have hmark := changedAt_dirExists m dir 1
  have hflag : int (setInt m (dirExists dir) 1) (dirExists dir) = 1 :=
    int_setInt _ _ (by omega) (by omega)
  generalize setInt m (dirExists dir) 1 = m' at hmark hflag ⊢
  have hrows := h.rows_of_changedAt hlen hmark
  unfold bufSize filesAllowed at *
  refine ⟨⟨?_, hrows (by omega) (by omega), h.clean, by simpa using hflag⟩, ?_⟩
  · rw [fileCount, hmark.int_eq (by omega) (by omega) (by omega)]
    exact h.count
  · rw [currentPoint, hmark.int_eq (by omega) (by omega) (by omega)]

theorem changedIn_block {m' : Memory 64} {i n : Nat} (h : ChangedAt dir i n m m')
    (hin : i + n ≤ sizeofDirHeader) : ChangedIn (InSpan dir sizeofDirHeader) m m' :=
  fun x hx => h x fun hpart => hx (hpart.sub hin)

theorem addFile_changedIn (h : Holds m dir d) (hlen : d.files.length < filesAllowed)
    (hname : name.length < bufSize) :
    ChangedIn (InSpan dir sizeofDirHeader) m (addFile m dir name) := by
  have hrow : files dir (int m (fileCount dir)) = place dir (8 + bufSize * d.files.length) := by
    rw [h.count, files_natCast]
  have hput := changedAt_putBytes m dir (8 + bufSize * d.files.length) (name ++ [0#8])
  rw [List.length_append, List.length_singleton] at hput
  unfold addFile
  rw [hrow]
  refine (changedIn_block hput ?_).trans
    ((changedIn_block (changedAt_fileCount _ dir _) (by decide)).trans
      (changedIn_block (changedAt_dirExists _ dir _) (Nat.le_refl _)))
  unfold sizeofDirHeader
  unfold bufSize filesAllowed at *
  omega

/-- The memory `m` follows the header in the block, since `m₀`: nothing else
has changed, and the cursor has not. -/
structure Follows (m₀ m : Memory 64) (dir : Word) (d : DirHeader) : Prop where
  holds : Holds m dir d
  cursor : int m (currentPoint dir) = int m₀ (currentPoint dir)
  changed : ChangedIn (InSpan dir sizeofDirHeader) m₀ m

/-- The block follows the header the loop builds, as long as that fits. -/
theorem folderStore_follows {m₀ : Memory 64} (image name : List Byte) (s : Nat)
    (h : FitsHeader d → Follows m₀ m dir d) (hfits : FitsHeader (folderRound image name d s)) :
    Follows m₀ (folderStore image name dir m s) dir (folderRound image name d s) := by
  unfold folderRound at hfits ⊢
  unfold folderStore
  simp only at hfits ⊢
  split
  · next hadd =>
    rw [if_pos hadd] at hfits
    obtain ⟨hlen, hshort⟩ := hfits
    rw [List.length_append, List.length_singleton] at hlen
    have hname := hshort (cString (Tarfs.name image s)) (by simp)
    have hfollows := h ⟨by omega, fun f hf => hshort f (List.mem_append_left _ hf)⟩
    obtain ⟨hholds, hcur⟩ := addFile_holds hfollows.holds hlen hname (zero_notMem_cString _)
    exact ⟨hholds, hcur.trans hfollows.cursor,
      hfollows.changed.trans (addFile_changedIn hfollows.holds hlen hname)⟩
  · next hadd =>
    rw [if_neg hadd] at hfits
    split
    · next hself =>
      rw [if_pos hself] at hfits
      have hfollows := h hfits
      obtain ⟨hholds, hcur⟩ := hfollows.holds.mark hfits.1
      exact ⟨hholds, hcur.trans hfollows.cursor, hfollows.changed.trans
        (changedIn_block (changedAt_dirExists _ dir _) (Nat.le_refl _))⟩
    · next hself =>
      rw [if_neg hself] at hfits
      exact h hfits

theorem follows_start (m : Memory 64) (dir : Word) :
    Follows m (setInt (setInt m (fileCount dir) 0) (dirExists dir) 0) dir {} := by
  have hcount := changedAt_fileCount m dir 0
  have hzero : int (setInt m (fileCount dir) 0) (fileCount dir) = 0 :=
    int_setInt _ _ (by omega) (by omega)
  generalize setInt m (fileCount dir) 0 = m1 at hcount hzero
  have hexists := changedAt_dirExists m1 dir 0
  have hflag : int (setInt m1 (dirExists dir) 0) (dirExists dir) = 0 :=
    int_setInt _ _ (by omega) (by omega)
  generalize setInt m1 (dirExists dir) 0 = m2 at hexists hflag
  have hchanged := (changedIn_block hcount (by decide)).trans
    (changedIn_block hexists (Nat.le_refl _))
  unfold bufSize filesAllowed at hexists
  refine ⟨⟨?_, by simp, by simp, hflag⟩, ?_, hchanged⟩
  · rw [fileCount, hexists.int_eq (by omega) (by omega) (by omega)]
    exact hzero
  · rw [currentPoint, hexists.int_eq (by omega) (by omega) (by omega),
      hcount.int_eq (by omega) (by omega) (by omega)]

/-- `get_folder` stores the names in the block, leaves the cursor as it was,
and changes nothing but the block. -/
theorem getFolder_follows (dir : Word) (m : Memory 64)
    (hd : Tarfs.getFolder image name = some d) (hfits : FitsHeader d) :
    ∃ m', getFolder image name dir m = some m' ∧ Follows m m' dir d := by
  have hstart := follows_start m dir
  unfold Tarfs.getFolder at hd
  simp only [getFolder]
  generalize setInt (setInt m (fileCount dir) 0) (dirExists dir) 0 = m₀ at hstart ⊢
  by_cases hcopy : CopyFits name
  · have hround : ∀ d m' s, (FitsHeader d → Follows m m' dir d) → ∃ d₁ m₁,
        folderBody image name d s = .inl d₁ ∧ folderStep image name dir m' s = .inl m₁ ∧
          (FitsHeader d₁ → Follows m m₁ dir d₁) := fun d m' s h =>
      ⟨_, _, if_pos hcopy, if_pos hcopy, folderStore_follows image name s h⟩
    obtain ⟨d', m', hd', hm', hrel⟩ := walk_related image hround fun _ => hstart
    rw [hd'] at hd
    obtain rfl := Option.some.inj hd
    exact ⟨m', by rw [hm'], hrel hfits⟩
  · have hbody : ∀ d s, folderBody image name d s = .inr () := fun _ _ => if_neg hcopy
    have hstep : ∀ m s, folderStep image name dir m s = .inr () := fun _ _ => if_neg hcopy
    rw [walk_of_returns hbody] at hd
    rw [walk_of_returns hstep]
    by_cases hnone : (visits image).getD [] = []
    · rw [if_pos hnone] at hd ⊢
      obtain rfl := Option.some.inj hd
      exact ⟨m₀, rfl, hstart⟩
    · rw [if_neg hnone] at hd
      cases hd

end Folder

/-! ## Runs -/

section Events

variable {events : List Event} {k : Nat} {a : Answer} {name : List Byte}

@[simp] theorem opens_opened (events : List Event) (name : List Byte) (ok : Bool) :
    opens (events ++ [.opened name ok]) = opens events ++ [(name, ok)] := by simp [opens]

@[simp] theorem opens_read (events : List Event) (k : Nat) (a : Answer) :
    opens (events ++ [.read k a]) = opens events := by simp [opens]

@[simp] theorem opens_closed (events : List Event) (k : Nat) :
    opens (events ++ [.closed k]) = opens events := by simp [opens]

theorem openStream_read (j : Nat) : openStream (events ++ [.read k a]) j = openStream events j := by
  simp [openStream]

theorem openStream_closed : openStream (events ++ [.closed k]) k = none := by
  unfold openStream
  split
  · simp
  · rfl

theorem openStream_opened {name' : List Byte} {ok : Bool}
    (h : openStream (events ++ [.opened name ok]) (opens events).length = some name') :
    name' = name ∧ ok = true := by
  unfold openStream at h
  rw [opens_opened, List.getElem?_concat_length] at h
  cases ok with
  | false => cases h
  | true =>
      dsimp only at h
      split at h
      · cases h
      · exact ⟨(Option.some.inj h).symm, rfl⟩

theorem reads_read_self : reads (events ++ [.read k a]) k = reads events k + 1 := by simp [reads]

end Events

/-- The stream opened last is in the block `dir_open` points to, with the
cursor behind the names already read. -/
structure Current (d : DirHeader) (s : Streams) (n : Nat) : Prop where
  fits : FitsHeader d
  opened : s.dirOpen ≠ 0
  kept : s.freed s.dirOpen = false
  holds : Holds s.mem s.dirOpen d
  cursor : n < d.files.length → int s.mem (currentPoint s.dirOpen) = n
  past : d.files.length ≤ n → (d.files.length : Int) ≤ int s.mem (currentPoint s.dirOpen)

/-- What proper calls keep. -/
structure Tracks (image : List Byte) (s : Streams) : Prop where
  independent : Independent image s.events
  unused : ∀ k, (opens s.events).length ≤ k → reads s.events k = 0
  current : ∀ k name, k + 1 = (opens s.events).length → openStream s.events k = some name →
    ∃ d, Tarfs.getFolder image name = some d ∧ Current d s (reads s.events k)

section Runs

variable {image : List Byte} {s s' : Streams} {k n : Nat} {name : List Byte} {d : DirHeader}

theorem Current.readdir (h : Current d s n) (k : Nat) :
    (s.readdir k).events = s.events ++ [.read k (expected d.files n)] ∧
      Current d (s.readdir k) (n + 1) := by
  have hlen := h.fits.1
  unfold Streams.readdir readDir
  rw [if_neg (by simpa [h.kept] using h.opened), h.holds.count]
  by_cases hn : n < d.files.length
  · have hcursor := h.cursor hn
    obtain ⟨tail, hrow⟩ := h.holds.rows n _ (List.getElem?_eq_getElem hn)
    have hmove := changedAt_currentPoint s.mem s.dirOpen (n + 1)
    have hset : int (setInt s.mem (currentPoint s.dirOpen) (n + 1)) (currentPoint s.dirOpen)
        = n + 1 := int_setInt _ _ (by omega) (by unfold filesAllowed at hlen; omega)
    simp only [hcursor]
    rw [if_neg (by omega)]
    simp only [hrow]
    generalize setInt s.mem (currentPoint s.dirOpen) (n + 1) = m at hset hmove ⊢
    have hzero := h.holds.clean _ (List.getElem_mem hn)
    refine ⟨?_, h.fits, h.opened, h.kept, ⟨?_, ?_, h.holds.clean, ?_⟩, fun _ => ?_, fun _ => ?_⟩
    · rw [expected, List.getElem?_eq_getElem hn, List.append_assoc, cString_append_of_notMem hzero]
      simp
    · rw [← h.holds.count]
      exact hmove.int_eq (by omega) (by omega) (by omega)
    · exact h.holds.rows_of_changedAt hlen hmove (by omega) (by omega)
    · rw [← h.holds.flag]
      unfold bufSize filesAllowed at *
      exact hmove.int_eq (by unfold bufSize filesAllowed; omega) (by omega)
        (by unfold bufSize filesAllowed; omega)
    · rw [hset]
      norm_cast
    · rw [hset]
      omega
  · have hpast := h.past (by omega)
    rw [if_pos hpast]
    refine ⟨?_, h.fits, h.opened, h.kept, h.holds, fun hlt => absurd hlt (by omega), fun _ => hpast⟩
    rw [expected, List.getElem?_eq_none (by omega)]

theorem int_kmalloc (m : Memory 64) (dir : Word) (contents : Memory 64) :
    int (kmalloc m dir contents) (currentPoint dir) = int contents (currentPoint dir) := by
  unfold int
  rw [load_congr fun x hx => ?_]
  obtain ⟨i, hi, rfl⟩ := hx
  have hoffset : currentPoint dir + BitVec.ofNat 64 i - dir = BitVec.ofNat 64 i := by
    rw [currentPoint, place, BitVec.add_zero, BitVec.add_comm, BitVec.add_sub_cancel]
  rw [kmalloc, hoffset, if_pos]
  rw [BitVec.toNat_ofNat, Nat.mod_eq_of_lt (by omega)]
  omega

/-- `opendir` returns, and an open stream is in the block. -/
theorem opendir_eq (hd : Tarfs.getFolder image name = some d) (hfits : FitsHeader d) (dir : Word)
    (contents : Memory 64) (s : Streams) :
    ∃ m, Follows (kmalloc s.mem dir contents) m dir d ∧
      s.opendir image name dir contents = some
        { mem := m
          freed := Function.update s.freed dir false
          dirOpen := if d.dirExists then dir else 0
          events := s.events ++ [.opened name ((if d.dirExists then dir else 0) ≠ 0)] } := by
  obtain ⟨m, hm, hfollows⟩ := getFolder_follows dir (kmalloc s.mem dir contents) hd hfits
  refine ⟨m, hfollows, ?_⟩
  rw [Streams.opendir, openDir, hm, Option.map_some, Option.map_some, hfollows.holds.flag]
  cases d.dirExists <;> rfl

theorem Tracks.opendir (h : Tracks image s) {dir : Word} {contents : Memory 64}
    (hproper : Proper image s (.opendir name dir contents)) :
    ∃ s' ∈ s.opendir image name dir contents, Tracks image s' := by
  obtain ⟨d, hd, hfits, hcursor⟩ := hproper
  obtain ⟨m, ⟨hholds, hcur, -⟩, hopen⟩ := opendir_eq hd hfits dir contents s
  rw [int_kmalloc] at hcur
  have hreads : ∀ k ok, reads (s.events ++ [.opened name ok]) k = reads s.events k := by
    intro k ok
    simp [reads]
  refine ⟨_, hopen, each_concat.mpr ⟨h.independent, by simp⟩, fun k hk => ?_,
    fun k name' hk hname => ?_⟩
  · simp only [opens_opened, List.length_append] at hk
    simp only [hreads]
    exact h.unused k (by omega)
  · simp only [opens_opened, List.length_append, List.length_singleton] at hk
    obtain rfl : k = (opens s.events).length := by omega
    simp only [hreads, h.unused _ le_rfl]
    obtain ⟨rfl, hok⟩ := openStream_opened hname
    have hne := of_decide_eq_true hok
    have hexists : d.dirExists = true := by
      by_contra hnot
      exact hne (if_neg hnot)
    rw [if_pos hexists] at hne ⊢
    refine ⟨d, hd, hfits, hne, Function.update_self .., hholds, fun hlt => ?_, fun hle => ?_⟩
    · rcases hcursor with hzero | ⟨hnil, -⟩
      · exact hcur.trans hzero
      · rw [hnil] at hlt
        cases hlt
    · rcases hcursor with hzero | ⟨-, hpos⟩
      · exact (Int.natCast_nonpos_iff.mpr (Nat.le_zero.mp hle)).trans (hcur.trans hzero).ge
      · exact (Int.natCast_nonpos_iff.mpr (Nat.le_zero.mp hle)).trans (hpos.trans hcur.ge)

theorem exists_readdir_events (s : Streams) (k : Nat) :
    ∃ a, (s.readdir k).events = s.events ++ [.read k a] := by
  unfold Streams.readdir
  split
  · exact ⟨_, rfl⟩
  · split <;> exact ⟨_, rfl⟩

theorem Tracks.readdir (h : Tracks image s) (hproper : Proper image s (.readdir k)) :
    Tracks image (s.readdir k) := by
  obtain ⟨a, hevents⟩ := exists_readdir_events s k
  have hk : k + 1 = (opens s.events).length := hproper
  refine ⟨?_, fun j hj => ?_, fun j name hj hname => ?_⟩
  · rw [hevents]
    refine each_concat.mpr ⟨h.independent, fun j b name hb hname => ?_⟩
    cases hb
    obtain ⟨d, hd, hcurrent⟩ := h.current k name hk hname
    have hread := (hcurrent.readdir k).1
    rw [hevents] at hread
    exact ⟨d, hd, by simpa using hread⟩
  · rw [hevents, opens_read] at hj
    rw [hevents]
    have hne : k ≠ j := by omega
    simpa [reads, hne] using h.unused j hj
  · rw [hevents, opens_read] at hj
    obtain rfl : j = k := by omega
    rw [hevents, openStream_read] at hname
    rw [hevents, reads_read_self]
    obtain ⟨d, hd, hcurrent⟩ := h.current j name hk hname
    exact ⟨d, hd, (hcurrent.readdir j).2⟩

theorem properRun_readdir (hk : k + 1 = (opens s.events).length) :
    ProperRun image s (List.replicate n (.readdir k)) := by
  induction n generalizing s with
  | zero => trivial
  | succ n ih =>
      refine ⟨hk, fun s' hs => ih ?_⟩
      obtain rfl := Option.some.inj hs
      obtain ⟨a, ha⟩ := exists_readdir_events s k
      rw [ha, opens_read]
      exact hk

theorem Tracks.closedir (h : Tracks image s) {kept : Bool}
    (hproper : Proper image s (.closedir k kept)) : Tracks image (s.closedir k kept) := by
  have hk : k + 1 = (opens s.events).length := hproper
  refine ⟨each_concat.mpr ⟨h.independent, by simp⟩, fun j hj => ?_, fun j name hj hname => ?_⟩
  · simp only [Streams.closedir, opens_closed] at hj
    simpa [Streams.closedir, reads] using h.unused j hj
  · simp only [Streams.closedir, opens_closed] at hj hname
    obtain rfl : j = k := by omega
    rw [openStream_closed] at hname
    cases hname

theorem Tracks.step {c : Call} (h : Tracks image s) (hproper : Proper image s c) :
    ∃ s' ∈ s.step image c, Tracks image s' := by
  cases c with
  | opendir name dir contents => exact h.opendir hproper
  | readdir k => exact ⟨_, rfl, h.readdir hproper⟩
  | closedir k kept => exact ⟨_, rfl, h.closedir hproper⟩

theorem Tracks.run {calls : List Call} (h : Tracks image s) (hproper : ProperRun image s calls) :
    ∃ s', s.run image calls = some s' ∧ Tracks image s' := by
  induction calls generalizing s with
  | nil => exact ⟨s, rfl, h⟩
  | cons c calls ih =>
      obtain ⟨hc, hcalls⟩ := hproper
      obtain ⟨s₁, hstep, h₁⟩ := h.step hc
      obtain ⟨s', hrun, h'⟩ := ih h₁ (hcalls s₁ hstep)
      exact ⟨s', by rw [Streams.run, Option.mem_def.mp hstep, Option.bind_some, hrun], h'⟩

end Runs

/-- In every run in which each call on a stream is made on the stream
opened last, and each directory opened fits in the copy of its name and in
its block and finds a zero in the place of the cursor (or no names, and
nothing negative there), all calls return, and each stream returns the names
of its own directory, each once and in order, and then NULL. -/
theorem independent_streams {image : List Byte} {m : Memory 64} {calls : List Call}
    (hproper : ProperRun image { mem := m } calls) :
    ∃ s, Streams.run image { mem := m } calls = some s ∧ Independent image s.events := by
  have hstart : Tracks image { mem := m } :=
    ⟨each_nil, fun k _ => rfl, fun k name hk => by cases hk⟩
  obtain ⟨s, hrun, h⟩ := hstart.run hproper
  exact ⟨s, hrun, h.independent⟩

def emptyFile (name : List Byte) : List Byte := name ++ List.replicate (512 - name.length) 0#8

def nameAX : List Byte := [ascii 'a', ascii '/', ascii 'x']

def nameBY : List Byte := [ascii 'b', ascii '/', ascii 'y']

def twoFolders : List Byte := emptyFile nameAX ++ emptyFile nameBY

/-- A directory that is read to its end. -/
def readA : List Call := [.opendir [ascii 'a'] 0x1000 fun _ => 0#8, .readdir 0, .readdir 0]

theorem getFolder_twoFolders : Tarfs.getFolder twoFolders [ascii 'a']
    = some { files := [nameAX], dirExists := true } := by decide +kernel

theorem independent_streams_a :
    ∃ s, Streams.run twoFolders { mem := fun _ => 0#8 } readA = some s ∧
      Independent twoFolders s.events := by
  have hfits : FitsHeader { files := [nameAX], dirExists := true } := by
    rw [FitsHeader]
    decide
  refine independent_streams ⟨⟨_, getFolder_twoFolders, hfits, .inl (by decide +kernel)⟩,
    fun s hs => ?_⟩
  obtain ⟨m, -, hopen⟩ := opendir_eq getFolder_twoFolders hfits 0x1000 (fun _ => 0#8)
    { mem := fun _ => 0#8 }
  obtain rfl := Option.some.inj (hopen.symm.trans (Option.mem_def.mp hs))
  exact properRun_readdir (n := 2) rfl

def readAB : List Call :=
  [.opendir [ascii 'a'] 0x1000 fun _ => 0#8, .opendir [ascii 'b'] 0x4000 fun _ => 0#8,
    .readdir 0, .readdir 1]

/-- The first stream returns the name in the second directory, and the
second stream none, in memory that was all zeros. -/
theorem streams_mixed :
    ∃ s, Streams.run twoFolders { mem := fun _ => 0#8 } readAB = some s ∧
      s.events = [.opened [ascii 'a'] true, .opened [ascii 'b'] true, .read 0 (.name nameBY),
        .read 1 .null] ∧ ¬ Independent twoFolders s.events := by
  have hrun : (Streams.run twoFolders { mem := fun _ => 0#8 } readAB).map Streams.events
      = some [.opened [ascii 'a'] true, .opened [ascii 'b'] true, .read 0 (.name nameBY),
        .read 1 .null] := by
    decide +kernel
  obtain ⟨s, hs, hevents⟩ := Option.map_eq_some_iff.mp hrun
  refine ⟨s, hs, hevents, fun hindependent => ?_⟩
  rw [hevents] at hindependent
  obtain ⟨d, hd, hread⟩ := hindependent [.opened [ascii 'a'] true, .opened [ascii 'b'] true] _ _
    rfl 0 _ [ascii 'a'] rfl (by decide)
  obtain rfl := Option.some.inj (getFolder_twoFolders.symm.trans hd)
  exact absurd hread (by decide)

end SnowOs.DirStreams
