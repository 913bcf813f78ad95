import SnowOs.DirStreams

/-!
# Listing a directory (`get_folder`)

`get_folder` goes by two tests on each name of the archive. `substr` stops
at the end of either string, so it accepts a name that begins with the
directory, and also a name the directory begins with; a comparison with
`tmp_copy` leaves out the entry of the directory itself. What is collected
and the flag are read off the names the loop looks at (`getFolder_eq`).

So the listing is right exactly if every name accepted lies below the
directory and the directory fits in `tmp_copy` (`listsFolder_iff`): an entry
for the directory it is in, a file of the same name or a name that goes on
with another character is taken for a part of it.

Neither the table nor the copy of the name is checked for its size. The
stores are listed on the way (`folderWrites`), and it is decided when they
stay within the block and the copy (`folderWrites_inside_iff`).
-/

namespace SnowOs.Tarfs

open DirStreams (filesAllowed bufSize)

/-! ## The two tests -/

def Comparable (s t : List Byte) : Prop := s <+: t ∨ t <+: s

instance (s t : List Byte) : Decidable (Comparable s t) := inferInstanceAs (Decidable (_ ∨ _))

/-- `tmp_copy`: the directory as its own entry names it. -/
def slashed (dir : List Byte) : List Byte := cString dir ++ [ascii '/']

theorem comparable_cons {a b : Byte} {s t : List Byte} :
    Comparable (a :: s) (b :: t) ↔ a = b ∧ Comparable s t := by
  rw [Comparable, List.cons_prefix_cons, List.cons_prefix_cons, eq_comm (a := b), ← and_or_left,
    Comparable]

theorem substr_iff (s t : List Byte) :
    substr s t = true ↔ Comparable (cString s) (cString t) := by
  induction s generalizing t with
  | nil => exact iff_of_true (by cases t <;> rfl) (.inl List.nil_prefix)
  | cons a s ih =>
      cases t with
      | nil => exact iff_of_true rfl (.inr List.nil_prefix)
      | cons b t =>
          rw [substr, cString_cons, cString_cons]
          by_cases ha : a = 0#8
          · rw [if_neg fun h => h.1 ha, if_pos ha]
            exact iff_of_true rfl (.inl List.nil_prefix)
          · by_cases hb : b = 0#8
            · rw [if_neg fun h => h.2 hb, if_pos hb]
              exact iff_of_true rfl (.inr List.nil_prefix)
            · rw [if_pos ⟨ha, hb⟩, if_neg ha, if_neg hb, comparable_cons, ← ih]
              by_cases hab : a = b
              · rw [if_neg (not_not_intro hab), and_iff_right hab]
              · rw [if_pos hab]
                exact iff_of_false Bool.false_ne_true fun h => hab h.1

theorem zero_notMem_slashed (dir : List Byte) : 0#8 ∉ slashed dir := by
  rw [slashed, List.mem_append, not_or]
  exact ⟨zero_notMem_cString dir, by decide⟩

theorem kstrcmp_slashed (dir t : List Byte) :
    kstrcmp (slashed dir) t = 0 ↔ slashed dir = cString t := by
  rw [kstrcmp_eq_zero_iff, cString_eq_self (zero_notMem_slashed dir)]

/-! ## What is collected -/

/-- The names of the headers the loop looks at. -/
def names (image : List Byte) : List (List Byte) :=
  ((visits image).getD []).map fun s => cString (name image s)

def Collected (dir n : List Byte) : Prop := Comparable (cString dir) n ∧ slashed dir ≠ n

instance (dir n : List Byte) : Decidable (Collected dir n) := inferInstanceAs (Decidable (_ ∧ _))

def headerOf (dir : List Byte) (ns : List (List Byte)) : DirHeader where
  files := ns.filter (Collected dir ·)
  dirExists := ns.any (Comparable (cString dir) ·)

theorem collects_iff (dir t : List Byte) :
    (substr dir t = true ∧ kstrcmp (slashed dir) t ≠ 0) ↔ Collected dir (cString t) :=
  and_congr (substr_iff ..) (not_congr (kstrcmp_slashed ..))

theorem comparable_slashed (dir : List Byte) : Comparable (cString dir) (slashed dir) :=
  .inl (List.prefix_append ..)

/-- One round of the loop, by the name of the header. -/
theorem folderRound_eq (image dir : List Byte) (d : DirHeader) (s : Nat) :
    folderRound image dir d s =
      if Collected dir (cString (name image s)) then
        { d with files := d.files ++ [cString (name image s)], dirExists := true }
      else if slashed dir = cString (name image s) then { d with dirExists := true }
      else d := by
  change (if substr dir (name image s) ∧ kstrcmp (slashed dir) (name image s) ≠ 0 then _
    else if kstrcmp (slashed dir) (name image s) = 0 then _ else _) = _
  simp only [collects_iff, kstrcmp_slashed]

theorem headerOf_concat (dir : List Byte) (ns : List (List Byte)) (n : List Byte) :
    headerOf dir (ns ++ [n]) =
      if Collected dir n then
        { headerOf dir ns with files := (headerOf dir ns).files ++ [n], dirExists := true }
      else if slashed dir = n then { headerOf dir ns with dirExists := true }
      else headerOf dir ns := by
  have hfiles : (headerOf dir (ns ++ [n])).files
      = (headerOf dir ns).files ++ if Collected dir n then [n] else [] := by
    simp [headerOf, List.filter_append, List.filter_singleton]
  have hexists : (headerOf dir (ns ++ [n])).dirExists
      = ((headerOf dir ns).dirExists || decide (Comparable (cString dir) n)) := by
    simp [headerOf]
  have heq : ∀ d : DirHeader, d.currentPoint = 0 →
      d = { files := d.files, dirExists := d.dirExists } := fun d h => by rw [← h]
  rw [heq (headerOf dir (ns ++ [n])) rfl, hfiles, hexists]
  by_cases hself : slashed dir = n
  · subst hself
    rw [if_neg fun h => h.2 rfl, if_neg fun h => h.2 rfl, if_pos rfl,
      decide_eq_true (comparable_slashed dir), Bool.or_true, List.append_nil]
    rfl
  · by_cases hcomparable : Comparable (cString dir) n
    · rw [if_pos ⟨hcomparable, hself⟩, if_pos ⟨hcomparable, hself⟩, decide_eq_true hcomparable,
        Bool.or_true]
      rfl
    · rw [if_neg fun h => hcomparable h.1, if_neg fun h => hcomparable h.1, if_neg hself,
        decide_eq_false hcomparable, Bool.or_false, List.append_nil]
      rfl

/-- A loop that goes on in every round ends with a state that its rounds
built from the names. -/
theorem walk_names {σ ρ : Type} {R : σ → List (List Byte) → Prop} {image : List Byte}
    {body : σ → Nat → σ ⊕ ρ}
    (hbody : ∀ st ns s, R st ns → ∃ st', body st s = .inl st' ∧
      R st' (ns ++ [cString (name image s)])) {st : σ} (h : R st []) :
    ∃ st', walk image body st = some (.inl st') ∧ R st' (names image) := by
  have hround : ∀ (st : σ) (l : List Nat) s, R st (l.map fun s => cString (name image s)) →
      ∃ a b, body st s = .inl a ∧ (.inl (l ++ [s]) : List Nat ⊕ Empty) = .inl b ∧
        R a (b.map fun s => cString (name image s)) := by
    intro st l s hst
    obtain ⟨st', hst', hR⟩ := hbody st _ s hst
    exact ⟨st', l ++ [s], hst', rfl, by rwa [List.map_append, List.map_singleton]⟩
  obtain ⟨st', l, hst', hl, hR⟩ :=
    walk_related image hround (show R st (([] : List Nat).map _) from h)
  have hvisits : visits image = some l := by rw [visits, hl]
  refine ⟨st', hst', ?_⟩
  rwa [names, hvisits, Option.getD_some]

/-- **What `get_folder` builds**, from the names it looks at. -/
theorem getFolder_eq (image dir : List Byte) :
    getFolder image dir
      = if names image = [] ∨ CopyFits dir then some (headerOf dir (names image)) else none := by
  by_cases hcopy : CopyFits dir
  · have hround : ∀ (d : DirHeader) ns s, d = headerOf dir ns →
        ∃ d', folderBody image dir d s = .inl d' ∧
          d' = headerOf dir (ns ++ [cString (name image s)]) := by
      rintro d ns s rfl
      refine ⟨_, if_pos hcopy, ?_⟩
      rw [folderRound_eq, headerOf_concat]
    obtain ⟨d, hd, hR⟩ := walk_names hround (show {} = headerOf dir [] from rfl)
    rw [getFolder, hd, hR, if_pos (.inr hcopy)]
  · have hbody : ∀ d s, folderBody image dir d s = .inr () := fun _ _ => if_neg hcopy
    rw [getFolder, walk_of_returns hbody]
    by_cases hnone : (visits image).getD [] = []
    · have hnames : names image = [] := by rw [names, hnone, List.map_nil]
      rw [if_pos hnone, if_pos (.inl hnames), hnames]
      rfl
    · have hnames : names image ≠ [] := fun h => hnone (List.map_eq_nil_iff.mp h)
      rw [if_neg hnone, if_neg (not_or.mpr ⟨hnames, hcopy⟩)]

/-! ## Well-formed archives -/

/-- The archives every listing is meant for. -/
structure WellFormed (entries : List Entry) : Prop where
  named : ∀ e ∈ entries, e.name ≠ []
  size : ∀ e ∈ entries, e.data.length = 0 ∨ e.data.length % 512 ≠ 0
  count : entries.length ≤ filesAllowed

/-- The listing a directory should have: the names behind its own, in the
order of the archive. -/
def below (dir : List Byte) (entries : List Entry) : List (List Byte) :=
  (entries.map Entry.name).filter fun n => slashed dir <+: n ∧ (slashed dir).length < n.length

/-- The archive has an entry for the directory, or one below it. -/
def IsDirectory (dir : List Byte) (entries : List Entry) : Prop :=
  ∃ e ∈ entries, slashed dir <+: e.name

/-- What a listing owes: `get_folder` returns, with the names below the
directory and no others and the flag for the directories of the archive, and
there is no stream for other names, in whichever block. -/
structure ListsFolder (entries : List Entry) (zeroBlocks : Nat) (dir : List Byte) : Prop where
  lists : ∃ d, getFolder (archive entries zeroBlocks) dir = some d ∧ d.files = below dir entries ∧
    (d.dirExists = true ↔ IsDirectory dir entries)
  openDir : ¬ IsDirectory dir entries → ∀ block m, ∃ m',
    DirStreams.openDir (archive entries zeroBlocks) dir block m = some (0, m')

/-- Every name that `substr` takes for a part of the directory is one. -/
def Separate (dir : List Byte) (entries : List Entry) : Prop :=
  ∀ e ∈ entries, Comparable (cString dir) e.name → slashed dir <+: e.name

instance (dir : List Byte) (entries : List Entry) : Decidable (Separate dir entries) :=
  inferInstanceAs (Decidable (∀ e ∈ entries, _))

section Listing

variable {entries : List Entry} {zeroBlocks : Nat}

theorem WellFormed.walkable (h : WellFormed entries) : Walkable entries :=
  ⟨h.named, fun e he => h.size e (List.mem_of_mem_dropLast he)⟩

theorem names_archive (hw : Walkable entries) (hz : 1 ≤ zeroBlocks) :
    names (archive entries zeroBlocks) = entries.map Entry.name := by
  have hplaced : ∀ s, (placed s entries).map Prod.snd = entries := by
    induction entries with
    | nil => exact fun _ => rfl
    | cons e es ih => exact fun s => congrArg (e :: ·) (ih hw.tail (s + e.blocks))
  rw [names, (hw.walksHeaders hz).visits, Option.getD_some, headerBlocks, List.map_map,
    ← hplaced 0, List.map_map, hplaced 0]
  refine List.map_congr_left fun p hp => ?_
  obtain ⟨before, rest, himage, hs⟩ := placed_image (List.nil_append _).symm rfl p hp
  exact (name_eq himage hs).1

theorem getFolder_archive (hw : Walkable entries) (hz : 1 ≤ zeroBlocks) (dir : List Byte) :
    getFolder (archive entries zeroBlocks) dir = if entries = [] ∨ CopyFits dir then
      some (headerOf dir (entries.map Entry.name)) else none := by
  rw [getFolder_eq, names_archive hw hz]
  simp only [List.map_eq_nil_iff]

theorem WellFormed.fitsHeader (h : WellFormed entries) (dir : List Byte) :
    DirStreams.FitsHeader (headerOf dir (entries.map Entry.name)) := by
  constructor
  · calc ((entries.map Entry.name).filter (Collected dir ·)).length
        ≤ (entries.map Entry.name).length := List.length_filter_le ..
      _ = entries.length := List.length_map ..
      _ ≤ filesAllowed := h.count
  · intro f hf
    obtain ⟨e, -, rfl⟩ := List.mem_map.mp (List.mem_of_mem_filter hf)
    exact Nat.lt_trans (e.length_name_lt) (by decide)

theorem openDir_eq {image dir : List Byte} {d : DirHeader} (hd : getFolder image dir = some d)
    (hfits : DirStreams.FitsHeader d) (block : Word) (m : ByteMemory.Memory 64) :
    ∃ m', DirStreams.openDir image dir block m = some (if d.dirExists then block else 0, m') := by
  obtain ⟨m', hm', hfollows⟩ := DirStreams.getFolder_follows block m hd hfits
  refine ⟨m', ?_⟩
  rw [DirStreams.openDir, hm', Option.map_some, hfollows.holds.flag]
  cases d.dirExists <;> rfl

/-- A name below the directory goes on behind its slash. -/
theorem collected_iff_of_below {dir n : List Byte} (h : slashed dir <+: n) :
    Collected dir n ↔ (slashed dir).length < n.length := by
  have hcomparable : Comparable (cString dir) n := .inl ((List.prefix_append ..).trans h)
  rw [Collected, and_iff_right hcomparable]
  refine ⟨fun hne => Nat.lt_of_le_of_ne h.length_le fun hlen => hne (h.eq_of_length hlen), ?_⟩
  rintro hlt rfl
  exact Nat.lt_irrefl _ hlt

/-- **The listing is right** exactly if every name that begins with the
directory, or that the directory begins with, is the directory's or below
it, and the directory fits in `tmp_copy`. -/
theorem listsFolder_iff (h : WellFormed entries) (hz : 1 ≤ zeroBlocks) (dir : List Byte) :
    ListsFolder entries zeroBlocks dir ↔
      Separate dir entries ∧ (entries = [] ∨ CopyFits dir) := by
  have hfolder := getFolder_archive h.walkable hz dir
  constructor
  · intro hlists
    obtain ⟨d, hd, hfiles, -⟩ := hlists.lists
    rw [hfolder] at hd
    have hcopy : entries = [] ∨ CopyFits dir := by
      by_contra hnot
      rw [if_neg hnot] at hd
      cases hd
    rw [if_pos hcopy] at hd
    obtain rfl := Option.some.inj hd
    refine ⟨fun e he hcomparable => ?_, hcopy⟩
    by_cases hself : slashed dir = e.name
    · exact hself ▸ List.prefix_refl _
    · have hfile : e.name ∈ (headerOf dir (entries.map Entry.name)).files :=
        List.mem_filter.mpr ⟨List.mem_map_of_mem he, decide_eq_true ⟨hcomparable, hself⟩⟩
      rw [hfiles] at hfile
      exact (of_decide_eq_true (List.mem_filter.mp hfile).2).1
  · rintro ⟨hsep, hcopy⟩
    rw [if_pos hcopy] at hfolder
    have hexists : (headerOf dir (entries.map Entry.name)).dirExists = true ↔
        IsDirectory dir entries := by
      rw [headerOf, List.any_map, List.any_eq_true]
      constructor
      · rintro ⟨e, he, hcomparable⟩
        exact ⟨e, he, hsep e he (of_decide_eq_true hcomparable)⟩
      · rintro ⟨e, he, hbegins⟩
        exact ⟨e, he, decide_eq_true (.inl ((List.prefix_append ..).trans hbegins))⟩
    refine ⟨⟨_, hfolder, ?_, hexists⟩, fun hnot block m => ?_⟩
    · refine List.filter_congr fun n hn => decide_eq_decide.mpr ?_
      obtain ⟨e, he, rfl⟩ := List.mem_map.mp hn
      constructor
      · intro hcollected
        have hbegins := hsep e he hcollected.1
        exact ⟨hbegins, (collected_iff_of_below hbegins).mp hcollected⟩
      · rintro ⟨hbegins, hlt⟩
        exact (collected_iff_of_below hbegins).mpr hlt
    · obtain ⟨m', hopen⟩ := openDir_eq hfolder (h.fitsHeader dir) block m
      exact ⟨m', by rw [hopen, if_neg fun hd => hnot (hexists.mp hd)]⟩

end Listing

def dirB : Entry where
  header := shortHeader [ascii 'b', ascii '/'] 0 .directory
  data := []
  type := .directory
  length_header := by decide +kernel
  nameField := by decide +kernel
  size_lt := by decide +kernel
  sizeField := by decide +kernel
  typeField := by decide +kernel

def fileBC : Entry where
  header := shortHeader [ascii 'b', ascii '/', ascii 'c'] 0 .regular
  data := []
  type := .regular
  length_header := by decide +kernel
  nameField := by decide +kernel
  size_lt := by decide +kernel
  sizeField := by decide +kernel
  typeField := by decide +kernel

theorem listsFolder_iff_b : ListsFolder [dirB, fileBC] 2 [ascii 'b'] :=
  (listsFolder_iff ⟨by decide +kernel, by decide +kernel, by decide⟩ (by decide) _).mpr
    ⟨by decide +kernel, .inr (by decide)⟩

/-- The file `b` is taken for a directory with itself in it. -/
theorem getFolder_confused :
    WellFormed [fileB] ∧ getFolder (archive [fileB] 2) [ascii 'b']
        = some { files := [[ascii 'b']], dirExists := true } ∧
      ¬ ListsFolder [fileB] 2 [ascii 'b'] := by
  have hwf : WellFormed [fileB] := ⟨by decide +kernel, by decide +kernel, by decide⟩
  have hfolder : getFolder (archive [fileB] 2) [ascii 'b']
      = some { files := [[ascii 'b']], dirExists := true } := by
    rw [getFolder_archive hwf.walkable (by decide)]
    decide +kernel
  refine ⟨hwf, hfolder, fun hlists => ?_⟩
  have hbelow : below [ascii 'b'] [fileB] = [] := by decide +kernel
  obtain ⟨d, hd, hfiles, -⟩ := hlists.lists
  obtain rfl := Option.some.inj (hfolder.symm.trans hd)
  rw [hbelow] at hfiles
  cases hfiles

/-! ## The stores -/

/-- A store of `get_folder`: a number into `file_count`, the flag, a byte of
`tmp_copy`, or a byte of a slot of the table. -/
inductive FolderWrite where
  | fileCount (n : Nat)
  | dirExists
  | tmpCopy (i : Nat)
  | slot (row col : Nat)
deriving DecidableEq, Repr

/-- The store is to the block or to the copy, and the count is one of the
table. -/
def FolderWrite.Inside : FolderWrite → Prop
  | .fileCount n => n ≤ filesAllowed
  | .dirExists => True
  | .tmpCopy i => i < tmpSize
  | .slot row col => row < filesAllowed ∧ col < bufSize

/-- The stores of one round: the name and the slash with their NUL go to the
copy first, in every round. -/
def roundWrites (image dir : List Byte) (fileCount s : Nat) : List FolderWrite :=
  (List.range ((slashed dir).length + 1)).map .tmpCopy ++
    if substr dir (name image s) ∧ kstrcmp (slashed dir) (name image s) ≠ 0 then
      (List.range ((cString (name image s)).length + 1)).map (.slot fileCount) ++
        [.fileCount (fileCount + 1), .dirExists]
    else if kstrcmp (slashed dir) (name image s) = 0 then [.dirExists]
    else []

/-- The stores of the rounds, which are listed as the code makes them
whether they fit or not. -/
def writesBody (image dir : List Byte) (st : DirHeader × List FolderWrite) (s : Nat) :
    DirHeader × List FolderWrite ⊕ Empty :=
  .inl (folderRound image dir st.1 s, st.2 ++ roundWrites image dir st.1.files.length s)

def folderWrites (image dir : List Byte) : List FolderWrite :=
  match walk image (writesBody image dir) ({}, [.fileCount 0, .dirExists]) with
  | some (.inl st) => st.2
  | _ => []

/-- What the names of an archive and the directory have to satisfy. -/
structure FolderFits (dir : List Byte) (ns : List (List Byte)) : Prop where
  copy : ns ≠ [] → (cString dir).length + 2 ≤ tmpSize
  count : (ns.filter (Collected dir ·)).length ≤ filesAllowed
  slots : ∀ n ∈ ns, Collected dir n → n.length < bufSize

section Stores

variable {image dir n : List Byte} {ns : List (List Byte)} {s : Nat}

/-- A range of indices stays below a bound if its last one does. -/
theorem range_succ_lt_iff {k bound : Nat} : (∀ i ∈ List.range (k + 1), i < bound) ↔ k < bound :=
  ⟨fun h => h k List.self_mem_range_succ,
    fun h _ hi => Nat.lt_of_le_of_lt (Nat.le_of_lt_succ (List.mem_range.mp hi)) h⟩

theorem roundWrites_inside_iff (fileCount : Nat) :
    (∀ w ∈ roundWrites image dir fileCount s, w.Inside) ↔
      (cString dir).length + 2 ≤ tmpSize ∧ (Collected dir (cString (name image s)) →
        fileCount < filesAllowed ∧ (cString (name image s)).length < bufSize) := by
  have hcopy : (∀ i ∈ List.range ((slashed dir).length + 1), i < tmpSize) ↔
      (cString dir).length + 2 ≤ tmpSize := by
    rw [range_succ_lt_iff, slashed, List.length_append, List.length_singleton]
    omega
  rw [roundWrites, List.forall_mem_append, List.forall_mem_map]
  refine and_congr hcopy ?_
  simp only [collects_iff]
  split
  · next hcollected =>
      rw [List.forall_mem_append, List.forall_mem_map, forall_prop_of_true hcollected]
      constructor
      · rintro ⟨hslots, -⟩
        exact hslots _ List.self_mem_range_succ
      · rintro ⟨hcount, hlen⟩
        refine ⟨fun j hj => ⟨hcount, range_succ_lt_iff.mpr hlen j hj⟩, ?_⟩
        exact List.forall_mem_cons.mpr ⟨hcount, List.forall_mem_singleton.mpr trivial⟩
  · next hcollected =>
      refine iff_of_true ?_ fun h => absurd h hcollected
      split
      · exact List.forall_mem_singleton.mpr trivial
      · exact nofun

theorem folderFits_concat : FolderFits dir (ns ++ [n]) ↔
    FolderFits dir ns ∧ (cString dir).length + 2 ≤ tmpSize ∧
      (Collected dir n → (ns.filter (Collected dir ·)).length < filesAllowed ∧
        n.length < bufSize) := by
  have hfilter : ((ns ++ [n]).filter (Collected dir ·)).length
      = (ns.filter (Collected dir ·)).length + if Collected dir n then 1 else 0 := by
    rw [List.filter_append, List.length_append, List.filter_singleton]
    by_cases hn : Collected dir n <;> simp [hn]
  constructor
  · intro h
    have hcount := h.count
    have hslots := h.slots
    rw [hfilter] at hcount
    rw [List.forall_mem_append, List.forall_mem_singleton] at hslots
    refine ⟨⟨fun _ => h.copy (by simp), by omega, hslots.1⟩, h.copy (by simp), fun hn => ?_⟩
    rw [if_pos hn] at hcount
    exact ⟨hcount, hslots.2 hn⟩
  · rintro ⟨h, hcopy, hn⟩
    refine ⟨fun _ => hcopy, ?_, List.forall_mem_append.mpr ⟨h.slots, ?_⟩⟩
    · rw [hfilter]
      split
      · next hcollected => exact (hn hcollected).1
      · exact h.count
    · exact List.forall_mem_singleton.mpr fun hcollected => (hn hcollected).2

theorem folderFits_nil (dir : List Byte) : FolderFits dir [] :=
  ⟨fun h => absurd rfl h, Nat.zero_le _, nofun⟩

/-- The header and the stores after some names: all stores are inside if the
names fit. -/
def StoresFit (dir : List Byte) (st : DirHeader × List FolderWrite) (ns : List (List Byte)) :
    Prop :=
  st.1 = headerOf dir ns ∧ ((∀ w ∈ st.2, w.Inside) ↔ FolderFits dir ns)

theorem StoresFit.round {st : DirHeader × List FolderWrite} (h : StoresFit dir st ns)
    (image : List Byte) (s : Nat) :
    ∃ st', writesBody image dir st s = .inl st' ∧
      StoresFit dir st' (ns ++ [cString (name image s)]) := by
  obtain ⟨d, ws⟩ := st
  obtain ⟨rfl, hws⟩ := h
  refine ⟨_, rfl, by rw [folderRound_eq, headerOf_concat], ?_⟩
  rw [List.forall_mem_append, hws, roundWrites_inside_iff, folderFits_concat]
  rfl

theorem folderWrites_storesFit (image dir : List Byte) :
    ∃ d, StoresFit dir (d, folderWrites image dir) (names image) := by
  have hfirst : ∀ w ∈ [FolderWrite.fileCount 0, .dirExists], w.Inside :=
    List.forall_mem_cons.mpr ⟨Nat.zero_le _, List.forall_mem_singleton.mpr trivial⟩
  have hstart : StoresFit dir ({}, [.fileCount 0, .dirExists]) [] :=
    ⟨rfl, iff_of_true hfirst (folderFits_nil dir)⟩
  obtain ⟨st, hst, hfit⟩ := walk_names (fun st ns s h => h.round image s) hstart
  rw [folderWrites, hst]
  exact ⟨st.1, hfit⟩

theorem folderFits_of_inside (h : ∀ w ∈ folderWrites image dir, w.Inside) :
    FolderFits dir (names image) := by
  obtain ⟨d, hfit⟩ := folderWrites_storesFit image dir
  exact hfit.2.mp h

/-- **The stores of `get_folder` stay inside** exactly if the directory with
its slash fits in the copy, no more names than the table has slots are
collected, and each fits in its slot. -/
theorem folderWrites_inside_iff (image dir : List Byte) :
    (∀ w ∈ folderWrites image dir, w.Inside) ↔ FolderFits dir (names image) := by
  obtain ⟨d, hfit⟩ := folderWrites_storesFit image dir
  exact hfit.2

end Stores

theorem fileB_name : fileB.name = [ascii 'b'] := by decide +kernel

theorem names_replicate (n : Nat) :
    names (archive (List.replicate n fileB) 1) = List.replicate n [ascii 'b'] := by
  have hwalk : Walkable (List.replicate n fileB) := by
    constructor
    · intro e he
      rw [List.eq_of_mem_replicate he, fileB_name]
      exact List.cons_ne_nil _ _
    · intro e he
      rw [List.eq_of_mem_replicate (List.mem_of_mem_dropLast he)]
      exact .inr nofun
  rw [names_archive hwalk (Nat.le_refl 1), List.map_replicate, fileB_name]

/-- A name of 255 characters, and a directory of 65 files. -/
theorem folderWrites_overrun :
    (¬ ∀ w ∈ folderWrites (archive (List.replicate 1 fileB) 1) (List.replicate 255 (ascii 'x')),
        w.Inside) ∧
      ¬ ∀ w ∈ folderWrites (archive (List.replicate 65 fileB) 1) [ascii 'b'], w.Inside := by
  constructor
  · intro hinside
    have hcopy := (folderFits_of_inside hinside).copy
    have htext : cString (List.replicate 255 (ascii 'x')) = List.replicate 255 (ascii 'x') :=
      cString_eq_self fun h => absurd (List.eq_of_mem_replicate h) (by decide)
    rw [names_replicate, htext, List.length_replicate] at hcopy
    exact absurd (hcopy (List.cons_ne_nil _ _)) (by decide)
  · intro hinside
    have hcount := (folderFits_of_inside hinside).count
    rw [names_replicate, List.filter_replicate, if_pos (by decide), List.length_replicate] at hcount
    exact absurd hcount (by decide)

end SnowOs.Tarfs
