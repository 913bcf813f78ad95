import SnowOs.Cells
import SnowOs.Terminal

/-!
# The console (`sys/kprintf.c`)

The screen is 4000 bytes of video memory, a character and a color for each
of 25 rows of 80 columns. The first 24 rows are written at the cursor; the
last one is the status row. The bytes are `Cells`, so that every access is
recorded.

Whatever is printed, typed and deleted, the cursor stays in the 24 rows and
all accesses in the 4000 bytes (`console_confined`). The scroll keeps
nothing: `memcpy` moves the lower half of the screen up, and then all 24
rows are cleared. So a completed row is still on the screen exactly if it
is made of spaces and the beginning of the status row (`keepsRow_iff`).
-/

namespace SnowOs

def videoMemRows : Nat := 24

def videoMemColumns : Nat := 80

/-- The bytes of the screen: the rows, the status row among them, of
characters with their colors. -/
def screenSize : Nat := 4000

def defaultColor : Byte := 7#8

/-- The video memory, by the distance from `VIDEO_BASE_ADDRESS`. -/
abbrev Video := Cells Byte 0#8

def getAddress (row column : Nat) : Int := 2 * (videoMemColumns * row + column)

def Video.store (v : Video) (address : Int) (c color : Byte) : Video :=
  (v.put address c).put (address + 1) color

def resetVideoMemory (v : Video) (initValue color : Byte) : Video :=
  (List.range videoMemRows).foldl (fun v i =>
    (List.range videoMemColumns).foldl (fun v j =>
      Video.store v (getAddress i j) initValue color) v) v

/-- `memcpy` in the video memory. -/
def Video.memcpy (v : Video) (dest src : Int) (bytes : Nat) : Video :=
  (List.range bytes).foldl (fun v i =>
    (v.look (src + (i : Nat))).put (dest + (i : Nat)) (v.mem (src + (i : Nat)))) v

/-- `currentRow`, `currentColumn` and the video memory. -/
structure Console where
  video : Video
  currentRow : Nat := 0
  currentColumn : Nat := 0

namespace Console

/-- The cursor moves to the next row, or the screen is scrolled. -/
def nextRow (s : Console) : Console :=
  if s.currentRow = videoMemRows - 1 then
    let v := s.video.memcpy (getAddress 0 0)
      (getAddress (videoMemRows / 2) (videoMemColumns / 2)) (videoMemRows * videoMemColumns)
    { video := resetVideoMemory v (ascii ' ') defaultColor, currentRow := 0, currentColumn := 0 }
  else { s with currentRow := s.currentRow + 1, currentColumn := 0 }

def printChar (s : Console) (c : Byte) : Console :=
  if c = ascii '\n' then s.nextRow
  else
    let s := { s with video := s.video.put (getAddress s.currentRow s.currentColumn) c }
    if s.currentColumn = videoMemColumns - 1 then s.nextRow
    else { s with currentColumn := s.currentColumn + 1 }

def printString (s : Console) (c : List Byte) : Console := (cString c).foldl printChar s

def handleVideoMemBackspace (s : Console) : Console :=
  if s.currentColumn = 0 then
    if s.currentRow = 0 then s
    else
      { video := s.video.put (getAddress (s.currentRow - 1) (videoMemColumns - 1)) (ascii ' ')
        currentRow := s.currentRow - 1
        currentColumn := videoMemColumns - 1 }
  else
    { s with
      video := s.video.put (getAddress s.currentRow (s.currentColumn - 1)) (ascii ' ')
      currentColumn := s.currentColumn - 1 }

end Console

/-- A string of the keyboard driver, of four characters at most. -/
structure KeyText where
  ctrs : Nat → Byte
  nul : ∃ k ≤ 4, ctrs k = 0#8

def KeyText.text (key : KeyText) : List Byte := cString ((List.range 5).map key.ctrs)

theorem KeyText.length_text (key : KeyText) : key.text.length ≤ 4 := by
  obtain ⟨k, hk, hnul⟩ := key.nul
  refine Nat.le_of_lt_succ (length_cString_lt ?_)
  have htake : ((List.range 5).map key.ctrs).take (Nat.succ 4) = (List.range 5).map key.ctrs :=
    List.take_of_length_le (by simp)
  rw [htake, List.mem_map]
  exact ⟨k, List.mem_range.mpr (Nat.lt_succ_of_le hk), hnul⟩

namespace Console

/-- The echo of `on_new_char_recvd`. -/
def echo (s : Console) (t : Terminal) (ctrs : Nat → Byte) : Console :=
  if ctrs 1 = ascii 'H' ∧ ctrs 0 = ascii '^' then
    if t.index = 0 then s else s.handleVideoMemBackspace
  else if ctrs 1 = ascii 'r' ∧ ctrs 0 = ascii '\\' then s.printChar (ascii '\n')
  else s.printChar (ctrs 0)

def showInput (v : Video) (text : List Byte) : Video :=
  let address := getAddress videoMemRows 0
  let v := (List.range 15).foldl (fun v k =>
    Video.store v (address + 2 * (k : Nat)) (ascii ' ') 2#8) v
  text.zipIdx.foldl (fun v x => v.put (address + 2 * (x.2 : Nat)) x.1) v

def inputLabel : List Byte := "Input: ".toList.map ascii

/-- `printInputChar`, when the terminal is in the state given. -/
def printInputChar (s : Console) (t : Terminal) (key : KeyText) : Console :=
  let s := s.echo t key.ctrs
  { s with video := showInput s.video (inputLabel ++ key.text) }

/-- A call. The keyboard interrupt finds the terminal in any state. -/
inductive Call where
  | printChar (c : Byte)
  | printString (c : List Byte)
  | handleVideoMemBackspace
  | printInputChar (t : Terminal) (key : KeyText)
  | resetVideoMemory (initValue color : Byte)

def Call.run (s : Console) : Call → Console
  | .printChar c => s.printChar c
  | .printString c => s.printString c
  | .handleVideoMemBackspace => s.handleVideoMemBackspace
  | .printInputChar t key => s.printInputChar t key
  | .resetVideoMemory initValue color =>
      { s with video := SnowOs.resetVideoMemory s.video initValue color }

/-- The cursor is in the rows that are printed to, and the accesses are in
the video memory. -/
structure Confined (s : Console) : Prop where
  row : s.currentRow < videoMemRows
  column : s.currentColumn < videoMemColumns
  video : s.video.Within screenSize

end Console

/-! ## Accesses -/

section Accesses

variable {v : Video} {s : Console}

theorem getAddress_lt {row column : Nat} (hrow : row ≤ videoMemRows)
    (hcolumn : column < videoMemColumns) :
    0 ≤ getAddress row column ∧ getAddress row column + 1 < screenSize := by
  unfold getAddress
  rw [videoMemRows] at hrow
  rw [videoMemColumns] at hcolumn ⊢
  rw [screenSize]
  omega

theorem Video.store_within {address : Int} {c color : Byte} (hv : v.Within screenSize)
    (h : 0 ≤ address ∧ address + 1 < screenSize) :
    (Video.store v address c color).Within screenSize := by
  obtain ⟨hle, hlt⟩ := h
  refine Cells.put_within.mpr ⟨Cells.put_within.mpr ⟨hv, hle, ?_⟩, ?_, hlt⟩
  · omega
  · omega

theorem resetVideoMemory_within (hv : v.Within screenSize) (initValue color : Byte) :
    (resetVideoMemory v initValue color).Within screenSize := by
  refine Cells.foldl_within (fun v i hi hv => Cells.foldl_within (fun v j hj hv => ?_) hv) hv
  exact Video.store_within hv
    (getAddress_lt (Nat.le_of_lt (List.mem_range.mp hi)) (List.mem_range.mp hj))

theorem Video.memcpy_within (hv : v.Within screenSize) {dest src : Int} {bytes : Nat}
    (hdest : 0 ≤ dest ∧ dest + bytes ≤ screenSize) (hsrc : 0 ≤ src ∧ src + bytes ≤ screenSize) :
    (v.memcpy dest src bytes).Within screenSize := by
  refine Cells.foldl_within (fun v i hi hv => ?_) hv
  have hi := List.mem_range.mp hi
  refine Cells.put_within.mpr ⟨Cells.look_within.mpr ⟨hv, ?_, ?_⟩, ?_, ?_⟩ <;> omega

namespace Console

theorem Confined.withVideo (h : s.Confined) (hv : v.Within screenSize) :
    Confined { s with video := v } :=
  ⟨h.row, h.column, hv⟩

theorem Confined.nextRow (h : s.Confined) : s.nextRow.Confined := by
  unfold Console.nextRow
  split
  · refine ⟨Nat.succ_pos 23, Nat.succ_pos 79,
      resetVideoMemory_within (Video.memcpy_within h.video ?_ ?_) _ _⟩
    · decide
    · decide
  · next hrow =>
      have hlt := h.row
      exact ⟨by simp only; omega, Nat.succ_pos 79, h.video⟩

theorem Confined.put (h : s.Confined) (c : Byte) {row column : Nat} (hrow : row ≤ videoMemRows)
    (hcolumn : column < videoMemColumns) :
    (s.video.put (getAddress row column) c).Within screenSize := by
  obtain ⟨hle, hlt⟩ := getAddress_lt hrow hcolumn
  refine Cells.put_within.mpr ⟨h.video, hle, ?_⟩
  omega

theorem Confined.printChar (h : s.Confined) (c : Byte) : (s.printChar c).Confined := by
  have hstored : Confined { s with
      video := s.video.put (getAddress s.currentRow s.currentColumn) c } :=
    h.withVideo (h.put c (Nat.le_of_lt h.row) h.column)
  unfold Console.printChar
  split
  · exact h.nextRow
  · simp only
    split
    · exact hstored.nextRow
    · next hcolumn =>
        have hlt := h.column
        exact ⟨h.row, by simp only; omega, hstored.video⟩

theorem Confined.printString (h : s.Confined) (c : List Byte) : (s.printString c).Confined := by
  unfold Console.printString
  induction cString c generalizing s with
  | nil => exact h
  | cons a c ih => exact ih (h.printChar a)

theorem Confined.handleVideoMemBackspace (h : s.Confined) :
    s.handleVideoMemBackspace.Confined := by
  have hrow := h.row
  have hcolumn := h.column
  unfold Console.handleVideoMemBackspace
  split
  · split
    · exact h
    · exact ⟨by simp only; omega, Nat.lt_succ_self 79, h.put _ (by omega) (Nat.lt_succ_self 79)⟩
  · exact ⟨hrow, by simp only; omega, h.put _ (by omega) (by omega)⟩

theorem Confined.echo (h : s.Confined) (t : Terminal) (ctrs : Nat → Byte) :
    (s.echo t ctrs).Confined := by
  unfold Console.echo
  split
  · split
    · exact h
    · exact h.handleVideoMemBackspace
  · split
    · exact h.printChar _
    · exact h.printChar _

theorem showInput_within {text : List Byte} (hv : v.Within screenSize) (htext : text.length ≤ 11) :
    (showInput v text).Within screenSize := by
  have haddress : getAddress videoMemRows 0 = 3840 := by decide
  rw [showInput, haddress]
  refine Cells.foldl_within (fun v x hx hv => ?_)
    (Cells.foldl_within (fun v k hk hv => ?_) hv)
  · have hlt := (List.mem_zipIdx' hx).1
    refine Cells.put_within.mpr ⟨hv, ?_, ?_⟩
    · omega
    · rw [screenSize]
      omega
  · have hk := List.mem_range.mp hk
    refine Video.store_within hv ⟨?_, ?_⟩
    · omega
    · rw [screenSize]
      omega

theorem Confined.printInputChar (h : s.Confined) (t : Terminal) (key : KeyText) :
    (s.printInputChar t key).Confined := by
  have hecho := h.echo t key.ctrs
  have hlabel : inputLabel.length = 7 := by decide +kernel
  have htext := key.length_text
  have hlen : (inputLabel ++ key.text).length ≤ 11 := by
    rw [List.length_append, hlabel]
    omega
  have hvideo := showInput_within hecho.video hlen
  exact hecho.withVideo hvideo

theorem Confined.run (h : s.Confined) (call : Call) : (call.run s).Confined := by
  cases call with
  | printChar c => exact h.printChar c
  | printString c => exact h.printString c
  | handleVideoMemBackspace => exact h.handleVideoMemBackspace
  | printInputChar t key => exact h.printInputChar t key
  | resetVideoMemory initValue color =>
      exact h.withVideo (resetVideoMemory_within h.video initValue color)

end Console

end Accesses

/-- **Console confinement.** From boot on, after any calls, whatever is on
the screen at first. -/
theorem Console.console_confined (v : Video) (calls : List Console.Call) :
    (calls.foldl Console.Call.run { video := v.watch 0 }).Confined := by
  have hboot : ({ video := v.watch 0 } : Console).Confined :=
    ⟨Nat.succ_pos 23, Nat.succ_pos 79, Cells.watch_within.mpr ⟨le_rfl, by decide⟩⟩
  generalize ({ video := v.watch 0 } : Console) = s at hboot
  induction calls generalizing s with
  | nil => exact hboot
  | cons call calls ih => exact ih _ (hboot.run call)

/-! ## Scrolling -/

def Video.row (v : Video) (i : Nat) : List Byte :=
  (List.range videoMemColumns).map fun j => v.mem (getAddress i j)

/-- The characters on the screen, row by row, the status row last. -/
def Video.screen (v : Video) : List Byte := (List.range (videoMemRows + 1)).flatMap (Video.row v)

namespace Console

/-- The row of the cursor when the character is printed. -/
def completedRow (s : Console) (c : Byte) : List Byte :=
  if c = ascii '\n' then Video.row s.video s.currentRow
  else Video.row (s.video.put (getAddress s.currentRow s.currentColumn) c) s.currentRow

/-- The characters of the row appear somewhere on the screen after the
character was printed. -/
def KeepsRow (s : Console) (c : Byte) : Prop :=
  s.completedRow c <:+: Video.screen (s.printChar c).video

end Console

section Scrolling

variable {v : Video} {i j i' j' : Nat}

theorem getAddress_inj (hj : j < videoMemColumns) (hj' : j' < videoMemColumns) :
    getAddress i j = getAddress i' j' ↔ i = i' ∧ j = j' := by
  simp only [getAddress, videoMemColumns] at *
  omega

theorem Video.store_char (v : Video) (c color : Byte) (hj : j < videoMemColumns)
    (hj' : j' < videoMemColumns) :
    (Video.store v (getAddress i j) c color).mem (getAddress i' j')
      = if i = i' ∧ j = j' then c else v.mem (getAddress i' j') := by
  have hcolor : getAddress i' j' ≠ getAddress i j + 1 := by
    simp only [getAddress]
    omega
  rw [Video.store, Cells.put_mem, Function.update_of_ne hcolor, Cells.put_mem,
    Function.update_apply]
  refine if_congr ?_ rfl rfl
  rw [eq_comm, getAddress_inj hj hj']

theorem resetRow_char (v : Video) (initValue color : Byte) (i : Nat) {n : Nat}
    (hn : n ≤ videoMemColumns) (hj' : j' < videoMemColumns) :
    ((List.range n).foldl (fun v j => Video.store v (getAddress i j) initValue color) v).mem
        (getAddress i' j')
      = if i = i' ∧ j' < n then initValue else v.mem (getAddress i' j') := by
  induction n with
  | zero => simp
  | succ n ih =>
      rw [List.range_succ, List.foldl_append, List.foldl_cons, List.foldl_nil,
        Video.store_char _ _ _ hn hj', ih (Nat.le_of_succ_le hn)]
      by_cases hlast : i = i' ∧ n = j'
      · rw [if_pos hlast, if_pos ⟨hlast.1, hlast.2 ▸ Nat.lt_succ_self n⟩]
      · rw [if_neg hlast]
        refine if_congr (and_congr_right fun hi => ?_) rfl rfl
        have hne : n ≠ j' := fun hj => hlast ⟨hi, hj⟩
        omega

/-- `resetVideoMemory` clears the rows above the status row. -/
theorem resetVideoMemory_char (v : Video) (initValue color : Byte) (hj' : j' < videoMemColumns) :
    (resetVideoMemory v initValue color).mem (getAddress i' j')
      = if i' < videoMemRows then initValue else v.mem (getAddress i' j') := by
  unfold resetVideoMemory
  induction videoMemRows with
  | zero => simp
  | succ n ih =>
      rw [List.range_succ, List.foldl_append, List.foldl_cons, List.foldl_nil,
        resetRow_char _ _ _ _ le_rfl hj', ih]
      by_cases hlast : n = i'
      · rw [if_pos ⟨hlast, hj'⟩, if_pos (hlast ▸ Nat.lt_succ_self n)]
      · rw [if_neg fun h => hlast h.1]
        refine if_congr ?_ rfl rfl
        omega

/-- `memcpy` writes to its destination only. -/
theorem Video.memcpy_frame (v : Video) (dest src : Int) {bytes : Nat} {x : Int}
    (hx : dest + bytes ≤ x) : (v.memcpy dest src bytes).mem x = v.mem x := by
  unfold Video.memcpy
  induction bytes with
  | zero => rfl
  | succ n ih =>
      rw [List.range_succ, List.foldl_append, List.foldl_cons, List.foldl_nil, Cells.put_mem,
        Function.update_of_ne (by omega), Cells.look_mem]
      exact ih (by omega)

theorem Video.row_congr {v v' : Video}
    (h : ∀ j < videoMemColumns, v.mem (getAddress i j) = v'.mem (getAddress i j)) :
    Video.row v i = Video.row v' i :=
  List.map_congr_left fun j hj => h j (List.mem_range.mp hj)

theorem flatMap_replicate {α : Type} (n m : Nat) {a : α} {f : Nat → List α}
    (h : ∀ i < n, f i = List.replicate m a) :
    (List.range n).flatMap f = List.replicate (n * m) a := by
  induction n with
  | zero => simp
  | succ n ih =>
      rw [List.range_succ, List.flatMap_append, List.flatMap_singleton,
        ih fun i hi => h i (Nat.lt_succ_of_lt hi), h n (Nat.lt_succ_self n),
        List.replicate_append_replicate, Nat.succ_mul]

/-- What is left of the screen by a scroll: blank rows, and the status
row. -/
theorem Console.screen_nextRow (s : Console) (hrow : s.currentRow = videoMemRows - 1) :
    Video.screen s.nextRow.video
      = List.replicate (videoMemRows * videoMemColumns) (ascii ' ')
        ++ Video.row s.video videoMemRows := by
  rw [Console.nextRow, if_pos hrow]
  generalize hcopied : s.video.memcpy (getAddress 0 0)
    (getAddress (videoMemRows / 2) (videoMemColumns / 2)) (videoMemRows * videoMemColumns) = v
  dsimp only
  have hblank : ∀ i < videoMemRows, Video.row (resetVideoMemory v (ascii ' ') defaultColor) i
      = List.replicate videoMemColumns (ascii ' ') := by
    intro i hi
    refine List.eq_replicate_iff.mpr ⟨by simp [Video.row], fun b hb => ?_⟩
    obtain ⟨j, hj, rfl⟩ := List.mem_map.mp hb
    rw [resetVideoMemory_char _ _ _ (List.mem_range.mp hj), if_pos hi]
  have hstatus : Video.row (resetVideoMemory v (ascii ' ') defaultColor) videoMemRows
      = Video.row s.video videoMemRows := by
    refine Video.row_congr fun j hj => ?_
    rw [resetVideoMemory_char _ _ _ hj, if_neg (Nat.lt_irrefl _), ← hcopied]
    refine Video.memcpy_frame _ _ _ ?_
    simp only [getAddress, videoMemRows, videoMemColumns]
    omega
  rw [Video.screen, List.range_succ, List.flatMap_append, List.flatMap_singleton,
    flatMap_replicate _ _ hblank, hstatus]

/-- Where a text as long as the last row can stand in blank rows and a last
row. -/
theorem infix_blank_iff {α : Type} {a : α} {n m : Nat} {text last : List α}
    (htext : text.length = n) (hlast : last.length = n) (hm : n ≤ m) :
    text <:+: List.replicate m a ++ last ↔
      ∃ k ≤ n, text = List.replicate (n - k) a ++ last.take k := by
  constructor
  · rintro ⟨front, back, heq⟩
    have hlen := congrArg List.length heq
    simp only [List.length_append, List.length_replicate] at hlen
    refine ⟨n - (m - front.length), Nat.sub_le .., ?_⟩
    have hcut : text = ((List.replicate m a ++ last).drop front.length).take n := by
      rw [← heq, List.append_assoc, List.drop_left, ← htext, List.take_left]
    have hsub : front.length - m = 0 := by omega
    have hmin : min n (m - front.length) = n - (n - (m - front.length)) := by omega
    rw [hcut, List.drop_append, List.drop_replicate, List.length_replicate, hsub, List.drop_zero,
      List.take_append, List.take_replicate, List.length_replicate, hmin]
  · rintro ⟨k, hk, rfl⟩
    refine ⟨List.replicate (m - n + k) a, last.drop k, ?_⟩
    rw [List.append_assoc, List.append_assoc, List.take_append_drop, ← List.append_assoc,
      List.replicate_append_replicate]
    congr 2
    omega

end Scrolling

namespace Console

theorem length_row (v : Video) (i : Nat) : (Video.row v i).length = videoMemColumns := by
  rw [Video.row, List.length_map, List.length_range]

theorem length_completedRow (s : Console) (c : Byte) :
    (s.completedRow c).length = videoMemColumns := by
  unfold completedRow
  split
  · exact length_row ..
  · exact length_row ..

theorem screen_printChar (s : Console) (c : Byte) (hrow : s.currentRow = videoMemRows - 1)
    (hleaves : c = ascii '\n' ∨ s.currentColumn = videoMemColumns - 1) :
    Video.screen (s.printChar c).video
      = List.replicate (videoMemRows * videoMemColumns) (ascii ' ')
        ++ Video.row s.video videoMemRows := by
  unfold printChar
  split
  · exact s.screen_nextRow hrow
  · next hc =>
      have hcolumn := hleaves.resolve_left hc
      dsimp only
      rw [if_pos hcolumn]
      refine (screen_nextRow { s with video := s.video.put _ c } hrow).trans ?_
      congr 1
      refine Video.row_congr fun j hj => ?_
      have hne : getAddress videoMemRows j ≠ getAddress s.currentRow s.currentColumn := by
        rw [Ne, getAddress_inj hj (by rw [hcolumn]; decide), hrow]
        exact fun h => absurd h.1 (by decide)
      exact Function.update_of_ne hne ..

/-- **Scrolling.** With the cursor in the last row, whatever is on the
screen, the row that a newline or its last column completes is still there
exactly if it consists of spaces and a beginning of the status row. -/
theorem keepsRow_iff (s : Console) (c : Byte) (hrow : s.currentRow = videoMemRows - 1)
    (hleaves : c = ascii '\n' ∨ s.currentColumn = videoMemColumns - 1) :
    s.KeepsRow c ↔ ∃ k ≤ videoMemColumns, s.completedRow c
      = List.replicate (videoMemColumns - k) (ascii ' ')
        ++ (Video.row s.video videoMemRows).take k := by
  rw [KeepsRow, screen_printChar s c hrow hleaves]
  exact infix_blank_iff (s.length_completedRow c) (length_row ..) (by decide)

/-- A blank row is found again. -/
theorem keepsRow_blank :
    KeepsRow { video := resetVideoMemory .clear (ascii ' ') defaultColor, currentRow := 23 }
      (ascii '\n') := by
  refine (keepsRow_iff _ _ rfl (.inl rfl)).mpr ⟨0, Nat.zero_le _, ?_⟩
  rw [List.take_zero, List.append_nil, Nat.sub_zero, completedRow, if_pos rfl]
  refine List.eq_replicate_iff.mpr ⟨length_row .., fun b hb => ?_⟩
  obtain ⟨j, hj, rfl⟩ := List.mem_map.mp hb
  rw [resetVideoMemory_char _ _ _ (List.mem_range.mp hj), if_pos (by decide)]

/-- A console with one character, at the beginning of the last row. -/
def oneChar : Console where
  video := Cells.clear.put (getAddress 23 0) (ascii 'x')
  currentRow := 23
  currentColumn := 1

/-- After a newline it is gone. -/
theorem oneChar_lost :
    oneChar.completedRow (ascii '\n') = ascii 'x' :: List.replicate 79 0#8 ∧
      ¬ oneChar.KeepsRow (ascii '\n') := by
  have hcompleted : oneChar.completedRow (ascii '\n') = ascii 'x' :: List.replicate 79 0#8 := by
    decide +kernel
  refine ⟨hcompleted, fun hkeeps => ?_⟩
  have hmem : ascii 'x' ∈ Video.screen (oneChar.printChar (ascii '\n')).video :=
    hkeeps.subset (hcompleted ▸ List.mem_cons_self ..)
  have hstatus : Video.row oneChar.video videoMemRows = List.replicate 80 0#8 := by decide +kernel
  rw [screen_printChar _ _ rfl (.inl rfl), hstatus] at hmem
  rcases List.mem_append.mp hmem with hmem | hmem
  · exact absurd (List.eq_of_mem_replicate hmem) (by decide)
  · exact absurd (List.eq_of_mem_replicate hmem) (by decide)

end Console

end SnowOs
