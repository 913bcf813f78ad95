import Mathlib.Data.List.Find
import SnowOs.CString

/-!
# The archive (`sys/tarfs.c`)

The file system is a ustar archive linked into the kernel. Every lookup is
the same loop over its headers (`scan`): stop at an empty name or at the
end of the image, look at the header, step over it and its data. The step
is computed from the size the header states, as `file_size / 512 + 2`
blocks. That is the header and the data rounded up when the size is not a
multiple of 512; when it is one, there is no partial block to round up
and the step is one block too long.

So the walk is right exactly for the archives in which every size but the
last is zero or no multiple of 512 (`walksHeaders_iff`); otherwise a
header is stepped over, and what is taken for a header next is data.
-/

namespace SnowOs

namespace Tarfs

/-! ## Headers -/

/-- The bytes from block `s` of the image on, at an offset into the
header. -/
def field (image : List Byte) (s offset : Nat) : List Byte := image.drop (512 * s + offset)

/-- `s->name`. -/
def name (image : List Byte) (s : Nat) : List Byte := field image s 0

/-- `s->size`. -/
def size (image : List Byte) (s : Nat) : List Byte := field image s 124

/-- `s->typeflag`, which runs on into `s->linkname`. -/
def typeflag (image : List Byte) (s : Nat) : List Byte := field image s 156

/-- `o_to_d(atoi(s->size))`. -/
def fileSize (image : List Byte) (s : Nat) : Int := oToD (atoi (size image s))

/-- The step to the next header. -/
def advance (image : List Byte) (s : Nat) : Nat :=
  if 0 < fileSize image s then s + ((fileSize image s).toNat / 512 + 2) else s + 1

/-- The loop of the lookups, from block `s` on. The body looks at a header
and goes on with a new state or returns. -/
def scan {σ ρ : Type} (image : List Byte) (body : σ → Nat → σ ⊕ ρ) : Nat → Nat → σ →
    Option (σ ⊕ ρ)
  | 0, _, _ => none
  | fuel + 1, s, st =>
      if (name image s).headD 0#8 = 0#8 then some (.inl st)
      else
        match body st s with
        | .inr r => some (.inr r)
        | .inl st =>
            if 512 * advance image s < image.length then scan image body fuel (advance image s) st
            else some (.inl st)

/-- The loop from the start of the image. It moves on by a block at least
in each round. -/
def walk {σ ρ : Type} (image : List Byte) (body : σ → Nat → σ ⊕ ρ) (st : σ) : Option (σ ⊕ ρ) :=
  scan image body (image.length + 1) 0 st

/-! ## The lookups -/

/-- The body of the loop of a lookup that returns at the first header
accepted: the address of its data, in bytes from the start of the image. -/
def searchBody (accept : Nat → Bool) (_ : Unit) (s : Nat) : Unit ⊕ Nat :=
  if accept s then .inr (512 * (s + 1)) else .inl ()

/-- The lookups that return at the first header accepted; `none` is NULL. -/
def search (image : List Byte) (accept : Nat → Bool) : Option Nat :=
  match walk image (searchBody accept) () with
  | some (.inr file) => some file
  | _ => none

/-- The test of a header in `get_file_binary` and `dir_exists`: this name,
and this code for a type. -/
def headerTest (code : Int) (image filename : List Byte) (s : Nat) : Bool :=
  kstrcmp filename (name image s) = 0 ∧ atoi (typeflag image s) = code

def getFileBinary (image filename : List Byte) : Option Nat :=
  search image (headerTest 0 image filename)

def dirExists (image filename : List Byte) : Int :=
  match search image (headerTest 5 image filename) with
  | some _ => 0
  | none => -1

/-- `struct dir_header`. -/
structure DirHeader where
  currentPoint : Int := 0
  files : List (List Byte) := []
  dirExists : Bool := false
deriving DecidableEq, Repr

/-- `sizeof(tmp_copy)`. -/
def tmpSize : Nat := 256

/-- The name with a slash and its NUL fits in `tmp_copy`. -/
def CopyFits (dir : List Byte) : Prop := (cString dir).length + 2 ≤ tmpSize

instance (dir : List Byte) : Decidable (CopyFits dir) := inferInstanceAs (Decidable (_ ≤ _))

/-- What a round of `get_folder` does to its block; `file_count` is the
number of files. -/
def folderRound (image dir : List Byte) (d : DirHeader) (s : Nat) : DirHeader :=
  let tmpCopy := cString dir ++ [ascii '/']
  if substr dir (name image s) ∧ kstrcmp tmpCopy (name image s) ≠ 0 then
    { d with files := d.files ++ [cString (name image s)], dirExists := true }
  else if kstrcmp tmpCopy (name image s) = 0 then { d with dirExists := true }
  else d

/-- The body of the loop of `get_folder`. A round begins with the copy of
the name; one that does not fit overwrites the frame of the call, and then
nothing is said about it. -/
def folderBody (image dir : List Byte) (d : DirHeader) (s : Nat) : DirHeader ⊕ Unit :=
  if CopyFits dir then .inl (folderRound image dir d s) else .inr ()

/-- `get_folder`, in a fresh block; `none` if `tmp_copy` is overrun. -/
def getFolder (image dir : List Byte) : Option DirHeader :=
  match walk image (folderBody image dir) {} with
  | some (.inl d) => some d
  | _ => none

/-- The headers the loop looks at. -/
def visits (image : List Byte) : Option (List Nat) :=
  match walk image (fun l s => (.inl (l ++ [s]) : List Nat ⊕ Empty)) [] with
  | some (.inl l) => some l
  | _ => none

/-! ## The loop ends -/

section Loop

variable {σ ρ : Type} {image : List Byte} {body : σ → Nat → σ ⊕ ρ}

theorem lt_advance (image : List Byte) (s : Nat) : s < advance image s := by
  unfold advance
  split <;> omega

theorem scan_isSome {fuel s : Nat} {st : σ} (hs : s = 0 ∨ 512 * s < image.length)
    (hfuel : image.length < fuel + s) : (scan image body fuel s st).isSome = true := by
  induction fuel generalizing s st with
  | zero => omega
  | succ fuel ih =>
      have hlt := lt_advance image s
      rw [scan]
      split
      · rfl
      · split
        · rfl
        · split
          · rename_i hmore
            exact ih (Or.inr hmore) (by omega)
          · rfl

theorem walk_isSome (st : σ) : (walk image body st).isSome = true :=
  scan_isSome (Or.inl rfl) (by omega)

/-- What a body makes of a list of headers. -/
def foldHeaders (body : σ → Nat → σ ⊕ ρ) (st : σ) : List Nat → σ ⊕ ρ
  | [] => .inl st
  | s :: ss =>
      match body st s with
      | .inr r => .inr r
      | .inl st => foldHeaders body st ss

theorem foldHeaders_collect (l ss : List Nat) :
    foldHeaders (fun l s => (.inl (l ++ [s]) : List Nat ⊕ Empty)) l ss = .inl (l ++ ss) := by
  induction ss generalizing l with
  | nil => simp [foldHeaders]
  | cons s ss ih => simp [foldHeaders, ih]

theorem foldHeaders_search (accept : Nat → Bool) (ss : List Nat) :
    foldHeaders (searchBody accept) () ss
      = match ss.find? accept with
        | some s => .inr (512 * (s + 1))
        | none => .inl () := by
  induction ss with
  | nil => rfl
  | cons s ss ih =>
      by_cases h : accept s = true
      · simp [foldHeaders, searchBody, h]
      · simp [foldHeaders, searchBody, h, ih]

end Loop

theorem scan_search {image : List Byte} {accept : Nat → Bool} {fuel s file : Nat}
    (h : scan image (searchBody accept) fuel s () = some (.inr file)) :
    ∃ t, file = 512 * (t + 1) ∧ (name image t).headD 0#8 ≠ 0#8 := by
  induction fuel generalizing s with
  | zero => cases h
  | succ fuel ih =>
      by_cases hname : (name image s).headD 0#8 = 0#8
      · rw [scan, if_pos hname] at h
        cases h
      · by_cases hs : accept s = true
        · rw [scan, if_neg hname, searchBody, hs] at h
          cases h
          exact ⟨s, rfl, hname⟩
        · rw [scan, if_neg hname, searchBody, if_neg hs] at h
          dsimp only at h
          split at h
          · exact ih h
          · cases h

/-- The data found follows a header with a name. -/
theorem header_of_search {image : List Byte} {accept : Nat → Bool} {file : Nat}
    (h : search image accept = some file) :
    ∃ s, file = 512 * (s + 1) ∧ (name image s).headD 0#8 ≠ 0#8 := by
  unfold search at h
  split at h
  · rename_i r hwalk
    obtain rfl := Option.some.inj h
    exact scan_search hwalk
  · cases h

end Tarfs

/-! ## Well-formed archives -/

/-- The kinds of entries. -/
inductive EntryType where
  | regular
  | directory
deriving DecidableEq, Repr

def EntryType.flag : EntryType → Byte
  | regular => ascii '0'
  | directory => ascii '5'

/-- The number `atoi` reads in the flag. -/
def EntryType.code : EntryType → Int
  | regular => 0
  | directory => 5

/-- An entry of an archive: a header of 512 bytes and the data. The name
is terminated inside its field, the size is written in eleven octal
digits, and the empty linkname ends the type flag. -/
structure Entry where
  header : List Byte
  data : List Byte
  type : EntryType
  length_header : header.length = 512
  nameField : 0#8 ∈ header.take 100
  size_lt : data.length < 2 ^ 28
  sizeField : (header.drop 124).take 12 = octal 11 data.length ++ [0#8]
  typeField : (header.drop 156).take 2 = [type.flag, 0#8]

namespace Entry

def name (e : Entry) : List Byte := cString e.header

/-- A name is terminated in its field. -/
theorem length_name_lt (e : Entry) : e.name.length < 100 := length_cString_lt e.nameField

/-- The blocks of the entry: the header, and the data rounded up. -/
def blocks (e : Entry) : Nat := 1 + (e.data.length + 511) / 512

/-- The entry in the archive, its data padded to whole blocks. -/
def bytes (e : Entry) : List Byte :=
  e.header ++ (e.data ++ List.replicate (512 * (e.blocks - 1) - e.data.length) 0#8)

theorem length_bytes (e : Entry) : e.bytes.length = 512 * e.blocks := by
  simp only [bytes, blocks, List.length_append, e.length_header, List.length_replicate]
  omega

end Entry

/-- The image of a list of entries, ended by zero blocks. -/
def archive (entries : List Entry) (zeroBlocks : Nat) : List Byte :=
  entries.flatMap Entry.bytes ++ List.replicate (512 * zeroBlocks) 0#8

/-- The entries with the blocks of their headers, from block `s` on. -/
def placed : Nat → List Entry → List (Nat × Entry)
  | _, [] => []
  | s, e :: es => (s, e) :: placed (s + e.blocks) es

def headerBlocks (s : Nat) (entries : List Entry) : List Nat := (placed s entries).map Prod.fst

theorem headerBlocks_cons (s : Nat) (e : Entry) (es : List Entry) :
    headerBlocks s (e :: es) = s :: headerBlocks (s + e.blocks) es := rfl

namespace Tarfs

/-! ## Reading a header back -/

section Fields

variable {image before rest : List Byte} {s : Nat} {e : Entry}
  (himage : image = before ++ (e.bytes ++ rest)) (hs : before.length = 512 * s)

include himage hs

theorem field_eq {k : Nat} (hk : k ≤ 512) : ∃ tail, field image s k = e.header.drop k ++ tail := by
  have hlen := e.length_header
  refine ⟨e.data ++ List.replicate (512 * (e.blocks - 1) - e.data.length) 0#8 ++ rest, ?_⟩
  rw [field, himage, ← hs, List.drop_append, List.drop_of_length_le (by omega), List.nil_append,
    Nat.add_sub_cancel_left, Entry.bytes, List.append_assoc, List.drop_append,
    show k - e.header.length = 0 by omega, List.drop_zero]

theorem name_eq :
    cString (name image s) = e.name ∧ (name image s).headD 0#8 = e.header.headD 0#8 := by
  obtain ⟨tail, htail⟩ := field_eq (k := 0) himage hs (by decide)
  rw [name, htail, List.drop_zero, cString_append (List.mem_of_mem_take e.nameField)]
  refine ⟨rfl, ?_⟩
  cases hheader : e.header with
  | nil =>
      have := e.length_header
      rw [hheader] at this
      cases this
  | cons b header => rfl

theorem fileSize_eq : fileSize image s = e.data.length := by
  obtain ⟨tail, htail⟩ := field_eq (k := 124) himage hs (by decide)
  rw [fileSize, size, htail, ← List.take_append_drop 12 (e.header.drop 124), e.sizeField,
    List.append_assoc, List.append_assoc]
  exact oToD_atoi_octal e.size_lt _

theorem typeflag_eq : atoi (typeflag image s) = e.type.code := by
  obtain ⟨tail, htail⟩ := field_eq (k := 156) himage hs (by decide)
  rw [typeflag, htail, ← List.take_append_drop 2 (e.header.drop 156), e.typeField]
  cases e.type <;> rfl

/-- The step is right exactly if the data does not fill its blocks. -/
theorem advance_eq :
    advance image s = if e.data.length = 0 ∨ e.data.length % 512 ≠ 0 then s + e.blocks
      else s + e.blocks + 1 := by
  rw [advance, fileSize_eq himage hs, Entry.blocks, Int.toNat_natCast]
  split <;> split <;> omega

end Fields

/-! ## The walk -/

/-- Archives the loop walks from header to header. -/
structure Walkable (entries : List Entry) : Prop where
  named : ∀ e ∈ entries, e.name ≠ []
  step : ∀ e ∈ entries.dropLast, e.data.length = 0 ∨ e.data.length % 512 ≠ 0

theorem name_ne_nil_iff (e : Entry) : e.name ≠ [] ↔ e.header.headD 0#8 ≠ 0#8 := by
  rw [Entry.name]
  cases e.header with
  | nil => simp
  | cons b header => by_cases hb : b = 0#8 <;> simp [hb]

theorem Walkable.nil : Walkable [] where
  named := List.forall_mem_nil _
  step := List.forall_mem_nil _

theorem Walkable.tail {e : Entry} {es : List Entry} (h : Walkable (e :: es)) : Walkable es where
  named := fun e' he' => h.named e' (List.mem_cons_of_mem _ he')
  step := fun e' he' => h.step e' (by
    cases es with
    | nil => cases he'
    | cons e₂ es => exact List.mem_cons_of_mem _ he')

theorem Walkable.cons {e : Entry} {es : List Entry} (h : Walkable es) (hname : e.name ≠ [])
    (hstep : es ≠ [] → e.data.length = 0 ∨ e.data.length % 512 ≠ 0) : Walkable (e :: es) where
  named := List.forall_mem_cons.mpr ⟨hname, h.named⟩
  step := by
    cases es with
    | nil => exact List.forall_mem_nil _
    | cons e₂ es => exact List.forall_mem_cons.mpr ⟨hstep (List.cons_ne_nil _ _), h.step⟩

section Walk

variable {σ ρ : Type} {image before : List Byte} {body : σ → Nat → σ ⊕ ρ} {zeroBlocks : Nat}

/-- The first entry of an archive, and the place of the others. -/
theorem archive_cons {e : Entry} {es : List Entry} {s : Nat}
    (himage : image = before ++ archive (e :: es) zeroBlocks) (hs : before.length = 512 * s) :
    image = before ++ (e.bytes ++ archive es zeroBlocks) ∧
      image = (before ++ e.bytes) ++ archive es zeroBlocks ∧
      (before ++ e.bytes).length = 512 * (s + e.blocks) := by
  have hhere : image = before ++ (e.bytes ++ archive es zeroBlocks) := by
    rw [himage, archive, archive, List.flatMap_cons, List.append_assoc]
  refine ⟨hhere, by rw [hhere, List.append_assoc], ?_⟩
  rw [List.length_append, hs, e.length_bytes]
  omega

/-- In the zero blocks the loop stops. -/
theorem scan_zero (himage : image = before ++ List.replicate (512 * zeroBlocks) 0#8) {s : Nat}
    (hs : before.length ≤ 512 * s) (fuel : Nat) (st : σ) :
    scan image body (fuel + 1) s st = some (.inl st) := by
  have hname : (name image s).headD 0#8 = 0#8 := by
    rw [name, field, himage, List.drop_append, List.drop_of_length_le (by omega),
      List.nil_append, List.drop_replicate]
    cases 512 * zeroBlocks - (512 * s + 0 - before.length) <;> rfl
  rw [scan, if_pos hname]

theorem scan_walkable {entries : List Entry} (hw : Walkable entries) (hz : 1 ≤ zeroBlocks) :
    ∀ {before : List Byte} {s fuel : Nat} {st : σ}, image = before ++ archive entries zeroBlocks →
      before.length = 512 * s → entries.length < fuel →
      scan image body fuel s st = some (foldHeaders body st (headerBlocks s entries)) := by
  induction entries with
  | nil =>
      intro before s fuel st himage hs hfuel
      obtain ⟨fuel, rfl⟩ := Nat.exists_eq_add_one_of_ne_zero (show fuel ≠ 0 by simp at hfuel; omega)
      exact scan_zero (by simpa [archive] using himage) (by omega) fuel st
  | cons e es ih =>
      intro before s fuel st himage hs hfuel
      obtain ⟨fuel, rfl⟩ := Nat.exists_eq_add_one_of_ne_zero (show fuel ≠ 0 by omega)
      rw [List.length_cons] at hfuel
      obtain ⟨hhere, hnext, hlen⟩ := archive_cons himage hs
      have hname : ¬ (name image s).headD 0#8 = 0#8 := by
        rw [(name_eq hhere hs).2]
        exact (name_ne_nil_iff e).mp (hw.named e (List.mem_cons_self ..))
      have hadv := advance_eq hhere hs
      have hmore : 512 * (s + e.blocks) < image.length := by
        rw [hnext, List.length_append, hlen, archive, List.length_append, List.length_replicate]
        omega
      rw [scan, if_neg hname, headerBlocks_cons, foldHeaders]
      cases body st s with
      | inr r => rfl
      | inl st =>
          simp only
          by_cases hexact : e.data.length = 0 ∨ e.data.length % 512 ≠ 0
          · rw [if_pos hexact] at hadv
            rw [hadv, if_pos hmore]
            exact ih hw.tail hnext hlen (by omega)
          · -- only the last entry may end with a full block; the step then
            -- ends up in the zero blocks or past the image
            rw [if_neg hexact] at hadv
            have hlast : es = [] := by
              by_contra hne
              exact hexact (hw.step e (by
                obtain ⟨e', es', rfl⟩ := List.exists_cons_of_ne_nil hne
                exact List.mem_cons_self ..))
            subst hlast
            rw [hadv]
            split
            · obtain ⟨fuel, rfl⟩ := Nat.exists_eq_add_one_of_ne_zero (show fuel ≠ 0 by omega)
              exact scan_zero (hnext.trans rfl) (by omega) fuel st
            · rfl

/-- What the collecting loop adds begins with the block it is at. -/
theorem scan_collect {fuel s : Nat} {l r : List Nat}
    (h : scan image (fun l s => (.inl (l ++ [s]) : List Nat ⊕ Empty)) fuel s l = some (.inl r)) :
    r = l ∨ ∃ more, r = l ++ s :: more := by
  induction fuel generalizing s l with
  | zero => cases h
  | succ fuel ih =>
      rw [scan] at h
      split at h
      · exact Or.inl (Sum.inl.inj (Option.some.inj h)).symm
      · refine Or.inr ?_
        simp only at h
        split at h
        · rcases ih h with rfl | ⟨more, rfl⟩
          · exact ⟨[], rfl⟩
          · exact ⟨_, List.append_assoc ..⟩
        · exact ⟨[], (Sum.inl.inj (Option.some.inj h)).symm⟩

/-- Every loop goes over the blocks that the collecting loop adds. -/
theorem scan_eq_foldHeaders {fuel s : Nat} {l r : List Nat} {st : σ}
    (h : scan image (fun l s => (.inl (l ++ [s]) : List Nat ⊕ Empty)) fuel s l
      = some (.inl (l ++ r))) :
    scan image body fuel s st = some (foldHeaders body st r) := by
  induction fuel generalizing s l r st with
  | zero => cases h
  | succ fuel ih =>
      rw [scan] at h ⊢
      split at h
      · next hname =>
          have hr : r = [] := by simpa using Sum.inl.inj (Option.some.inj h)
          rw [if_pos hname, hr, foldHeaders]
      · next hname =>
          rw [if_neg hname]
          simp only at h
          split at h
          · next hmore =>
              obtain ⟨r, rfl⟩ : ∃ r', r = s :: r' := by
                rcases scan_collect h with heq | ⟨more, heq⟩
                · exact ⟨[], List.append_cancel_left heq⟩
                · rw [List.append_assoc] at heq
                  exact ⟨_, List.append_cancel_left heq⟩
              have hrest : l ++ s :: r = (l ++ [s]) ++ r := List.append_cons ..
              rw [hrest] at h
              rw [foldHeaders]
              cases body st s with
              | inr r => rfl
              | inl st =>
                  dsimp only
                  rw [if_pos hmore]
                  exact ih h
          · next hend =>
              obtain rfl : r = [s] :=
                (List.append_cancel_left (Sum.inl.inj (Option.some.inj h))).symm
              rw [foldHeaders]
              cases body st s with
              | inr r => rfl
              | inl st =>
                  dsimp only
                  rw [if_neg hend, foldHeaders]

/-- **What a loop computes**, on any image: the fold over the headers it
looks at. -/
theorem walk_visits (image : List Byte) (body : σ → Nat → σ ⊕ ρ) (st : σ) :
    walk image body st = some (foldHeaders body st ((visits image).getD [])) := by
  have hsome : (walk image (fun l s => (.inl (l ++ [s]) : List Nat ⊕ Empty)) []).isSome = true :=
    walk_isSome []
  obtain ⟨r, hr⟩ := Option.isSome_iff_exists.mp hsome
  cases r with
  | inr e => exact e.elim
  | inl l =>
      have hvisits : visits image = some l := by rw [visits, hr]
      rw [hvisits]
      exact scan_eq_foldHeaders (l := []) hr

theorem foldHeaders_related {τ ω : Type} {R : σ → τ → Prop} {body : σ → Nat → σ ⊕ ρ}
    {body' : τ → Nat → τ ⊕ ω}
    (hbody : ∀ st st' s, R st st' → ∃ a b, body st s = .inl a ∧ body' st' s = .inl b ∧ R a b)
    {st : σ} {st' : τ} (h : R st st') (ss : List Nat) :
    ∃ a b, foldHeaders body st ss = .inl a ∧ foldHeaders body' st' ss = .inl b ∧ R a b := by
  induction ss generalizing st st' with
  | nil => exact ⟨st, st', rfl, rfl, h⟩
  | cons s ss ih =>
      obtain ⟨a, b, ha, hb, hab⟩ := hbody st st' s h
      rw [foldHeaders, foldHeaders, ha, hb]
      exact ih hab

/-- Two bodies that go on with related states end with related states. -/
theorem walk_related {τ ω : Type} {R : σ → τ → Prop} {body : σ → Nat → σ ⊕ ρ}
    {body' : τ → Nat → τ ⊕ ω} (image : List Byte)
    (hbody : ∀ st st' s, R st st' → ∃ a b, body st s = .inl a ∧ body' st' s = .inl b ∧ R a b)
    {st : σ} {st' : τ} (h : R st st') :
    ∃ a b, walk image body st = some (.inl a) ∧ walk image body' st' = some (.inl b) ∧ R a b := by
  obtain ⟨a, b, ha, hb, hab⟩ := foldHeaders_related hbody h ((visits image).getD [])
  rw [walk_visits, walk_visits, ha, hb]
  exact ⟨a, b, rfl, rfl, hab⟩

/-- A body that returns at once is called at the first header, if there is
one. -/
theorem walk_of_returns {body : σ → Nat → σ ⊕ ρ} {r : ρ} (h : ∀ st s, body st s = .inr r)
    (image : List Byte) (st : σ) :
    walk image body st = some (if (visits image).getD [] = [] then .inl st else .inr r) := by
  rw [walk_visits]
  cases (visits image).getD [] with
  | nil => rfl
  | cons s ss => rw [foldHeaders, h, if_neg (List.cons_ne_nil _ _)]

/-- If the collecting loop finds the headers, nothing made it miss one. -/
theorem walkable_of_collect {entries : List Entry} :
    ∀ {before : List Byte} {s fuel : Nat} {l : List Nat},
      image = before ++ archive entries zeroBlocks → before.length = 512 * s →
      scan image (fun l s => (.inl (l ++ [s]) : List Nat ⊕ Empty)) fuel s l
        = some (.inl (l ++ headerBlocks s entries)) → Walkable entries := by
  induction entries with
  | nil => exact fun _ _ _ => .nil
  | cons e es ih =>
      intro before s fuel l himage hs h
      cases fuel with
      | zero => cases h
      | succ fuel =>
      obtain ⟨hhere, hnext, hlen⟩ := archive_cons himage hs
      have hadv := advance_eq hhere hs
      rw [headerBlocks_cons, scan] at h
      split at h
      · have := congrArg List.length (Sum.inl.inj (Option.some.inj h))
        simp at this
      rename_i hname
      have hnamed : e.name ≠ [] := by
        rwa [(name_eq hhere hs).2, ← Ne, ← name_ne_nil_iff] at hname
      simp only at h
      cases es with
      | nil => exact Walkable.nil.cons hnamed fun hne => absurd rfl hne
      | cons e₂ es =>
          have hcat : l ++ s :: headerBlocks (s + e.blocks) (e₂ :: es)
              = (l ++ [s]) ++ headerBlocks (s + e.blocks) (e₂ :: es) := by simp
          rw [hcat] at h
          split at h
          swap
          · have := congrArg List.length (Sum.inl.inj (Option.some.inj h))
            simp [headerBlocks_cons] at this
          have hblock : advance image s = s + e.blocks := by
            rcases scan_collect h with hnone | ⟨more, hmore⟩
            · have := congrArg List.length hnone
              simp [headerBlocks_cons] at this
            · exact (List.cons.inj (List.append_cancel_left hmore)).1.symm
          have hexact : e.data.length = 0 ∨ e.data.length % 512 ≠ 0 := by
            by_contra hfull
            rw [if_neg hfull, hblock] at hadv
            omega
          rw [hblock] at h
          exact (ih hnext hlen h).cons hnamed fun _ => hexact

end Walk

/-! ## The lookups on a well-formed archive -/

/-- What the lookups owe: the headers of the entries, each once and in
order, are what the loop looks at; a file is found by its name, at the
data of the first regular entry with that name; a directory exists if an
entry says so. -/
structure WalksHeaders (entries : List Entry) (image : List Byte) : Prop where
  visits : visits image = some (headerBlocks 0 entries)
  getFileBinary : ∀ filename, getFileBinary image filename
    = ((placed 0 entries).find? fun p => p.2.type = .regular ∧ p.2.name = cString filename).map
        fun p => 512 * (p.1 + 1)
  dirExists : ∀ filename, dirExists image filename = 0
    ↔ ∃ e ∈ entries, e.type = .directory ∧ e.name = cString filename

section Lookups

variable {entries : List Entry} {zeroBlocks : Nat}

theorem walk_eq {σ ρ : Type} (hw : Walkable entries) (hz : 1 ≤ zeroBlocks)
    (body : σ → Nat → σ ⊕ ρ) (st : σ) :
    walk (archive entries zeroBlocks) body st
      = some (foldHeaders body st (headerBlocks 0 entries)) := by
  have hlen : ∀ es : List Entry, es.length ≤ (es.flatMap Entry.bytes).length := by
    intro es
    induction es with
    | nil => exact Nat.le_refl 0
    | cons e es ih =>
        rw [List.flatMap_cons, List.length_append, e.length_bytes, Entry.blocks, List.length_cons]
        omega
  refine scan_walkable hw hz (List.nil_append _).symm rfl ?_
  have := hlen entries
  rw [archive, List.length_append]
  omega

theorem placed_image {s : Nat} {before image : List Byte}
    (himage : image = before ++ archive entries zeroBlocks) (hs : before.length = 512 * s) :
    ∀ p ∈ placed s entries, ∃ before' rest, image = before' ++ (p.2.bytes ++ rest)
      ∧ before'.length = 512 * p.1 := by
  induction entries generalizing s before with
  | nil => exact List.forall_mem_nil _
  | cons e es ih =>
      obtain ⟨hhere, hnext, hlen⟩ := archive_cons himage hs
      intro p hp
      rcases List.mem_cons.mp hp with rfl | hp
      · exact ⟨before, _, hhere, hs⟩
      · exact ih hnext hlen p hp

theorem mem_iff_placed (s : Nat) {e : Entry} :
    e ∈ entries ↔ ∃ s', (s', e) ∈ placed s entries := by
  induction entries generalizing s with
  | nil => simp [placed]
  | cons e' es ih => simp [placed, ih (s + e'.blocks), exists_or]

theorem accept_iff (filename : List Byte) (type : EntryType) {p : Nat × Entry}
    (hp : p ∈ placed 0 entries) :
    (kstrcmp filename (name (archive entries zeroBlocks) p.1) = 0
        ∧ atoi (typeflag (archive entries zeroBlocks) p.1) = type.code)
      ↔ p.2.type = type ∧ p.2.name = cString filename := by
  obtain ⟨before, rest, himage, hs⟩ := placed_image (List.nil_append _).symm rfl p hp
  rw [kstrcmp_eq_zero_iff, (name_eq himage hs).1, typeflag_eq himage hs, and_comm,
    eq_comm (a := cString filename)]
  refine and_congr_left fun _ => ?_
  cases p.2.type <;> cases type <;> decide

/-- A lookup by what the entries say. -/
theorem search_eq (hw : Walkable entries) (hz : 1 ≤ zeroBlocks) (filename : List Byte)
    (type : EntryType) :
    search (archive entries zeroBlocks) (headerTest type.code (archive entries zeroBlocks) filename)
      = ((placed 0 entries).find? fun p => p.2.type = type ∧ p.2.name = cString filename).map
          fun p => 512 * (p.1 + 1) := by
  have hfind : (headerBlocks 0 entries).find?
        (headerTest type.code (archive entries zeroBlocks) filename)
      = ((placed 0 entries).find? fun p =>
          p.2.type = type ∧ p.2.name = cString filename).map Prod.fst := by
    rw [headerBlocks, List.find?_map]
    congr 1
    exact List.find?_congr fun p hp => decide_eq_decide.mpr (accept_iff filename type hp)
  rw [search, walk_eq hw hz, foldHeaders_search, hfind]
  cases (placed 0 entries).find? fun p => p.2.type = type ∧ p.2.name = cString filename <;> rfl

theorem Walkable.walksHeaders (hw : Walkable entries) (hz : 1 ≤ zeroBlocks) :
    WalksHeaders entries (archive entries zeroBlocks) where
  visits := by
    rw [Tarfs.visits, walk_eq hw hz, foldHeaders_collect]
    rfl
  getFileBinary := fun filename => search_eq hw hz filename .regular
  dirExists := fun filename => by
    have hsearch := search_eq hw hz filename .directory
    have hsome : (search (archive entries zeroBlocks)
        (headerTest 5 (archive entries zeroBlocks) filename)).isSome = true
        ↔ ∃ e ∈ entries, e.type = .directory ∧ e.name = cString filename := by
      refine Iff.trans (iff_of_eq (congrArg (fun o => o.isSome = true) hsearch)) ?_
      rw [Option.isSome_map, List.find?_isSome]
      constructor
      · rintro ⟨p, hp, hdir⟩
        exact ⟨p.2, (mem_iff_placed 0).mpr ⟨p.1, hp⟩, of_decide_eq_true hdir⟩
      · rintro ⟨e, he, hdir⟩
        obtain ⟨s, hs⟩ := (mem_iff_placed 0).mp he
        exact ⟨(s, e), hs, decide_eq_true hdir⟩
    rw [Tarfs.dirExists, ← hsome]
    cases search (archive entries zeroBlocks) _ <;> simp

end Lookups

/-- **The archive walk.** For every list of entries, ended by one zero
block or more: the loop looks at exactly the headers, and the lookups
answer by them, if and only if all names are nonempty and every entry but
the last has a size that is zero or not a multiple of 512. -/
theorem walksHeaders_iff (entries : List Entry) {zeroBlocks : Nat} (hz : 1 ≤ zeroBlocks) :
    WalksHeaders entries (archive entries zeroBlocks) ↔ Walkable entries := by
  refine ⟨fun h => ?_, fun hw => hw.walksHeaders hz⟩
  have hvisits := h.visits
  rw [visits] at hvisits
  split at hvisits
  · rename_i l hwalk
    rw [walk] at hwalk
    rw [Option.some.inj hvisits] at hwalk
    exact walkable_of_collect (List.nil_append _).symm rfl hwalk
  · cases hvisits

/-- A header with zeros in the fields the kernel does not read. -/
def shortHeader (name : List Byte) (size : Nat) (type : EntryType) : List Byte :=
  name ++ List.replicate (124 - name.length) 0#8 ++ (octal 11 size ++ [0#8]) ++
    List.replicate 20 0#8 ++ (type.flag :: List.replicate 355 0#8)

def fileA : Entry where
  header := shortHeader [ascii 'a'] 512 .regular
  data := List.replicate 512 (ascii 'x')
  type := .regular
  length_header := by decide +kernel
  nameField := by decide +kernel
  size_lt := by decide +kernel
  sizeField := by decide +kernel
  typeField := by decide +kernel

def fileB : Entry where
  header := shortHeader [ascii 'b'] 1 .regular
  data := [ascii 'x']
  type := .regular
  length_header := by decide +kernel
  nameField := by decide +kernel
  size_lt := by decide +kernel
  sizeField := by decide +kernel
  typeField := by decide +kernel

theorem walksHeaders_iff_two : WalksHeaders [fileB, fileA] (archive [fileB, fileA] 2) :=
  (walksHeaders_iff [fileB, fileA] (by decide)).mpr
    ⟨by decide +kernel, by decide +kernel⟩

/-- After a file of one block the next one is not found: the loop steps to
the data of `b` and from there to the end. -/
theorem getFileBinary_skips :
    getFileBinary (archive [fileA, fileB] 2) [ascii 'b'] = none ∧
      ¬ WalksHeaders [fileA, fileB] (archive [fileA, fileB] 2) := by
  have hnone : getFileBinary (archive [fileA, fileB] 2) [ascii 'b'] = none := by decide +kernel
  have hfound : ((placed 0 [fileA, fileB]).find? fun p =>
      p.2.type = .regular ∧ p.2.name = cString [ascii 'b']).isSome = true := by decide +kernel
  refine ⟨hnone, fun h => ?_⟩
  have := h.getFileBinary [ascii 'b']
  rw [hnone] at this
  rw [← Option.isSome_map, ← this] at hfound
  cases hfound

end Tarfs

end SnowOs
