import SnowOs.Folder

/-!
# `bin/ls`

`ls` reads a directory stream to its end and writes each name with a blank
behind it. It looks at the result of `readdir` only after it has written the
name in it: behind the last name it writes the name at the NULL pointer,
which `strlen` takes for an empty one, and one more blank. The rest is right:
each name `get_folder` collects is printed once, in the order of the archive
(`ls_lists`), as long as the block of the stream came with a zero in the place
of the cursor.
-/

namespace SnowOs.DirStreams

open ByteMemory

/-- The loop of `ls`, with what has been written so far; `none` is a fault,
or no end in sight. -/
def lsLoop (k : Nat) : Nat → Streams → List Byte → Option (List Byte × Streams)
  | 0, _, _ => none
  | fuel + 1, s, out =>
      match (s.readdir k).events.getLast? with
      | some (.read _ (.name dName)) =>
          lsLoop k fuel (s.readdir k) (out ++ dName ++ [ascii ' '])
      | some (.read _ .null) => some (out ++ [ascii ' '], s.readdir k)
      | _ => none

/-- `main` of `ls` with a directory: its result, what it has written and the
streams. -/
def ls (image : List Byte) (name : List Byte) (dir : Word) (contents : Memory 64) (kept : Bool)
    (fuel : Nat) (s : Streams) : Option (Int × List Byte × Streams) :=
  let k := (opens s.events).length
  (s.opendir image name dir contents).bind fun s =>
    if s.dirOpen = 0 then
      some (-1, "No directory found with name: ".toList.map ascii ++ cString name ++ [ascii '\n'], s)
    else
      (lsLoop k fuel s [ascii ' ']).map fun r => (0, r.1 ++ [ascii '\n'], r.2.closedir k kept)

/-- Names with a blank behind each. -/
def listed (names : List (List Byte)) : List Byte := names.flatMap (· ++ [ascii ' '])

variable {image name : List Byte} {s : Streams} {d : Tarfs.DirHeader}

theorem lsLoop_lists {n fuel : Nat} (h : Current d s n) (k : Nat) (out : List Byte)
    (hn : n ≤ d.files.length) (hfuel : d.files.length < n + fuel) :
    ∃ s', lsLoop k fuel s out = some (out ++ listed (d.files.drop n) ++ [ascii ' '], s') := by
  induction fuel generalizing n s out with
  | zero => omega
  | succ fuel ih =>
      obtain ⟨hevents, hnext⟩ := h.readdir k
      rw [lsLoop, hevents, List.getLast?_concat]
      by_cases hlt : n < d.files.length
      · obtain ⟨s', hloop⟩ := ih hnext (out ++ d.files[n] ++ [ascii ' ']) hlt (by omega)
        have hcons := List.drop_eq_getElem_cons hlt
        refine ⟨s', ?_⟩
        simp only [expected, List.getElem?_eq_getElem hlt]
        rw [hloop, hcons]
        simp only [listed, List.flatMap_cons, List.append_assoc]
      · have hend : d.files.drop n = [] := List.drop_eq_nil_of_le (by omega)
        refine ⟨s.readdir k, ?_⟩
        simp only [expected, List.getElem?_eq_none (Nat.not_lt.mp hlt)]
        rw [hend, listed, List.flatMap_nil, List.append_nil]

theorem current_opendir {dir : Word} {contents : Memory 64} (hdir : dir ≠ 0)
    (hd : Tarfs.getFolder image name = some d) (hfits : FitsHeader d)
    (hzero : int contents (currentPoint dir) = 0) (hexists : d.dirExists = true) (s : Streams) :
    ∃ s', s.opendir image name dir contents = some s' ∧ Current d s' 0 := by
  obtain ⟨m, hfollows, hopen⟩ := opendir_eq hd hfits dir contents s
  have hcursor : int m (currentPoint dir) = 0 := by rw [hfollows.cursor, int_kmalloc, hzero]
  rw [if_pos hexists] at hopen
  exact ⟨_, hopen, hfits, hdir, Function.update_self .., hfollows.holds, fun _ => hcursor,
    fun hle => by rw [hcursor]; omega⟩

theorem ls_prints {dir : Word} {contents : Memory 64} (hdir : dir ≠ 0)
    (hd : Tarfs.getFolder image name = some d) (hfits : FitsHeader d)
    (hzero : int contents (currentPoint dir) = 0) (hexists : d.dirExists = true) (kept : Bool)
    {fuel : Nat} (hfuel : d.files.length < fuel) (s : Streams) :
    ∃ s', ls image name dir contents kept fuel s
      = some (0, ascii ' ' :: listed d.files ++ [ascii ' ', ascii '\n'], s') := by
  obtain ⟨s₁, hopen, hcurrent⟩ := current_opendir hdir hd hfits hzero hexists s
  obtain ⟨t, hloop⟩ := lsLoop_lists hcurrent (opens s.events).length [ascii ' '] (Nat.zero_le _)
    (show _ < 0 + fuel by omega)
  refine ⟨t.closedir (opens s.events).length kept, ?_⟩
  simp only [ls, hopen, Option.bind_some, if_neg hcurrent.opened, hloop, Option.map_some,
    List.drop_zero]
  rw [List.append_assoc]
  rfl

/-- **`ls` lists the directory.** In every state, for an archive that
`get_folder` lists rightly and a block that comes with a zero cursor, `ls` of
a directory prints the names below it, each once and in the order of the
archive, and of anything else the message. -/
theorem ls_lists {entries : List Entry} {zeroBlocks : Nat} (h : Tarfs.WellFormed entries)
    (hz : 1 ≤ zeroBlocks) (hlists : Tarfs.ListsFolder entries zeroBlocks name) {dir : Word}
    {contents : Memory 64} (hdir : dir ≠ 0) (hzero : int contents (currentPoint dir) = 0)
    (kept : Bool) {fuel : Nat} (hfuel : entries.length < fuel) (s : Streams) :
    (Tarfs.IsDirectory name entries →
      ∃ s', ls (archive entries zeroBlocks) name dir contents kept fuel s
        = some (0, ascii ' ' :: listed (Tarfs.below name entries) ++ [ascii ' ', ascii '\n'], s')) ∧
    (¬ Tarfs.IsDirectory name entries →
      ∃ s', ls (archive entries zeroBlocks) name dir contents kept fuel s
        = some (-1, "No directory found with name: ".toList.map ascii ++ cString name
            ++ [ascii '\n'], s')) := by
  constructor
  · intro hisdir
    obtain ⟨d, hd, hfiles, hexists⟩ := hlists.lists
    have hfits : FitsHeader d := by
      rw [Tarfs.getFolder_archive h.walkable hz] at hd
      split at hd
      · exact Option.some.inj hd ▸ h.fitsHeader name
      · cases hd
    have hcount : (Tarfs.below name entries).length ≤ entries.length := by
      calc (Tarfs.below name entries).length
          ≤ (entries.map Entry.name).length := List.length_filter_le ..
        _ = entries.length := List.length_map ..
    have hls := ls_prints hdir hd hfits hzero (hexists.mpr hisdir) kept
      (show _ < fuel by rw [hfiles]; omega) s
    rwa [hfiles] at hls
  · intro hnot
    obtain ⟨m, hopen⟩ := hlists.openDir hnot dir (kmalloc s.mem dir contents)
    have hfound : ∃ s', s.opendir (archive entries zeroBlocks) name dir contents = some s' ∧
        s'.dirOpen = 0 := ⟨_, by rw [Streams.opendir, hopen, Option.map_some], rfl⟩
    obtain ⟨s', hs', hclosed⟩ := hfound
    exact ⟨s', by simp only [ls, hs', Option.bind_some, if_pos hclosed]⟩

/-- The directory `b` with the file `c`. -/
theorem ls_lists_b : ∃ s', ls (archive [Tarfs.dirB, Tarfs.fileBC] 2) [ascii 'b'] 0x1000
    (fun _ => 0#8) false 3 { mem := fun _ => 0#8 } = some (0, " b/c  \n".toList.map ascii, s') := by
  have hwf : Tarfs.WellFormed [Tarfs.dirB, Tarfs.fileBC] :=
    ⟨by decide +kernel, by decide +kernel, by decide⟩
  have hisdir : Tarfs.IsDirectory [ascii 'b'] [Tarfs.dirB, Tarfs.fileBC] :=
    ⟨Tarfs.dirB, List.mem_cons_self, by decide +kernel⟩
  have hlists : Tarfs.ListsFolder [Tarfs.dirB, Tarfs.fileBC] 2 [ascii 'b'] := by
    refine ⟨⟨_, (Tarfs.getFolder_archive hwf.walkable (show 1 ≤ 2 by decide) _).trans
      (if_pos (.inr (by decide))), ?_, iff_of_true ?_ hisdir⟩, fun hnot => absurd hisdir hnot⟩
    · decide +kernel
    · decide +kernel
  have hbelow : Tarfs.below [ascii 'b'] [Tarfs.dirB, Tarfs.fileBC]
      = [[ascii 'b', ascii '/', ascii 'c']] := by decide +kernel
  have hdir : (0x1000 : Word) ≠ 0 := by decide
  have hzero : int (fun _ => 0#8) (currentPoint 0x1000) = 0 := by decide +kernel
  obtain ⟨s', hls⟩ := (ls_lists hwf (by decide) hlists hdir hzero false
    (show [Tarfs.dirB, Tarfs.fileBC].length < 3 by decide) { mem := fun _ => 0#8 }).1 hisdir
  rw [hbelow] at hls
  exact ⟨s', hls⟩

end SnowOs.DirStreams
