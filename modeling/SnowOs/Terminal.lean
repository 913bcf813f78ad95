import Mathlib.Data.List.Infix
import SnowOs.CString

/-!
# Line input (`sys/terminal.c`)

A line is read by two parties. The keyboard interrupt hands each key to
`on_new_char_recvd`, which edits `term_buf` and moves `index`; meanwhile
`terminal_read` polls `index` and, whenever it has moved, copies the cell
below it into the caller's buffer. `Reading` is a `terminal_read` under
way, and `press` one key followed by one poll.

An array is a function of all indices: in C an index outside the array
reads and writes whatever lies there, and `inBounds` records whether that
has happened.

A backspace moves `index` only. The deleted character stays in the
caller's buffer until another one is typed over it, and the poll that
follows looks at the cell *below* `index` - outside both arrays when the
line has become empty. `line_edit` says what is left of line editing:
exactly the key sequences that never empty the line and end at their
longest.
-/

namespace SnowOs

def termBufSize : Nat := 256

/-! ## The terminal -/

/-- The globals of `terminal.c`. -/
structure Terminal where
  termBuf : Int → Byte
  index : Nat
  inBounds : Bool := true

namespace Terminal

/-- `term_buf[i]` accessed. -/
def touch (t : Terminal) (i : Int) : Terminal :=
  { t with inBounds := t.inBounds && decide (0 ≤ i ∧ i < termBufSize) }

def put (t : Terminal) (i : Int) (c : Byte) : Terminal :=
  { t.touch i with termBuf := Function.update t.termBuf i c }

@[simp] theorem touch_termBuf (t : Terminal) (i : Int) : (t.touch i).termBuf = t.termBuf := rfl

@[simp] theorem touch_index (t : Terminal) (i : Int) : (t.touch i).index = t.index := rfl

@[simp] theorem touch_inBounds (t : Terminal) (i : Int) : (t.touch i).inBounds = true
    ↔ t.inBounds = true ∧ 0 ≤ i ∧ i < termBufSize := by
  simp [touch]

@[simp] theorem put_termBuf (t : Terminal) (i : Int) (c : Byte) :
    (t.put i c).termBuf = Function.update t.termBuf i c := rfl

@[simp] theorem put_inBounds (t : Terminal) (i : Int) (c : Byte) :
    (t.put i c).inBounds = (t.touch i).inBounds := rfl

def resetTermInpBuffer (t : Terminal) : Terminal :=
  { t with
    termBuf := fun i => if 0 ≤ i ∧ i < termBufSize then 0 else t.termBuf i
    index := 0 }

/-- `on_new_char_recvd`, without its echo on the screen. `index` is a
`uint16_t`. -/
def onNewCharRecvd (t : Terminal) (ctrs : Nat → Byte) : Terminal :=
  if ctrs 1 = ascii 'H' ∧ ctrs 0 = ascii '^' then
    if t.index = 0 then t
    else { t.put t.index 0 with index := t.index - 1 }
  else if ctrs 1 = ascii 'r' ∧ ctrs 0 = ascii '\\' then
    { t.put t.index (ascii '\n') with index := (t.index + 1) % 65536 }
  else
    { t.put t.index (ctrs 0) with index := (t.index + 1) % 65536 }

end Terminal

/-! ## `terminal_read` -/

/-- A `terminal_read` under way: the terminal, its `buffer` and `len`, its
local `last_index`, and its result once it has returned. -/
structure Reading where
  terminal : Terminal
  len : Nat
  buf : Int → Byte
  bufInBounds : Bool := true
  lastIndex : Nat := 0
  ret : Option Int := none

namespace Reading

def start (t : Terminal) (buf : Int → Byte) (len : Nat) : Reading :=
  if len = 0 then { terminal := t, len, buf, ret := some 0 }
  else { terminal := t.resetTermInpBuffer, len, buf }

/-- `buf[i] = c`. -/
def put (r : Reading) (i : Int) (c : Byte) : Reading :=
  { r with
    buf := Function.update r.buf i c
    bufInBounds := r.bufInBounds && decide (0 ≤ i ∧ i < r.len) }

@[simp] theorem put_buf (r : Reading) (i : Int) (c : Byte) :
    (r.put i c).buf = Function.update r.buf i c := rfl

@[simp] theorem put_bufInBounds (r : Reading) (i : Int) (c : Byte) :
    (r.put i c).bufInBounds = true ↔ r.bufInBounds = true ∧ 0 ≤ i ∧ i < r.len := by
  simp [put]

def finish (r : Reading) (v : Int) : Reading :=
  { r with terminal := r.terminal.resetTermInpBuffer, ret := some v }

/-- One round of the loop of `terminal_read`. -/
def poll (r : Reading) : Reading :=
  if r.ret.isSome ∨ r.lastIndex = r.terminal.index then r
  else
    let i : Int := r.terminal.index - 1
    let r := { r with lastIndex := r.terminal.index, terminal := r.terminal.touch i }
    if r.terminal.termBuf i = ascii '\n' then r.finish i
    else
      let r := r.put i (r.terminal.termBuf i)
      if r.terminal.index = r.len then r.finish r.len else r

end Reading

/-- What the user can press. -/
inductive Key where
  | char (c : Byte)
  | backspace
  | enter
deriving DecidableEq, Repr

/-- The string the keyboard driver makes of a key. -/
def Key.ctrs : Key → Nat → Byte
  | char c, i => if i = 0 then c else 0
  | backspace, i => if i = 0 then ascii '^' else if i = 1 then ascii 'H' else 0
  | enter, i => if i = 0 then ascii '\\' else if i = 1 then ascii 'r' else 0

namespace Reading

/-- One key, and the poll after it. -/
def press (r : Reading) (k : Key) : Reading :=
  poll { r with terminal := r.terminal.onNewCharRecvd k.ctrs }

def type (r : Reading) (keys : List Key) : Reading := keys.foldl press r

/-- Every array access so far was inside its array. -/
def InBounds (r : Reading) : Prop := r.terminal.inBounds = true ∧ r.bufInBounds = true

instance (r : Reading) : Decidable r.InBounds := inferInstanceAs (Decidable (_ ∧ _))

end Reading

/-- The NUL-terminated string at the start of an array of `n` cells. -/
def cStringIn (buf : Int → Byte) (n : Nat) : List Byte :=
  ((List.range n).map fun (i : Nat) => buf i).takeWhile (· ≠ 0)

/-! ## The line meant -/

/-- A key that edits the line: a printable character or a backspace. -/
def Key.Edits : Key → Prop
  | char c => 0x20 ≤ c.toNat ∧ c.toNat < 0x7F
  | backspace => True
  | enter => False

instance (k : Key) : Decidable k.Edits := by
  cases k <;> unfold Key.Edits <;> infer_instance

def editKey (line : List Byte) : Key → List Byte
  | .char c => line ++ [c]
  | .backspace => line.dropLast
  | .enter => line

def editLine (keys : List Key) : List Byte := keys.foldl editKey []

@[simp] theorem editLine_nil : editLine [] = [] := rfl

@[simp] theorem editLine_concat (keys : List Key) (k : Key) :
    editLine (keys ++ [k]) = editKey (editLine keys) k := by
  simp [editLine]

/-- No backspace deletes the only character of the line. -/
def NeverEmptied (keys : List Key) : Prop :=
  ∀ pre, pre ++ [.backspace] <+: keys → (editLine pre).length ≠ 1

/-- The line is never longer than at the end. -/
def EndsLongest (keys : List Key) : Prop :=
  ∀ pre, pre <+: keys → (editLine pre).length ≤ (editLine keys).length

theorem NeverEmptied.concat_iff {keys : List Key} {k : Key} :
    NeverEmptied (keys ++ [k]) ↔
      NeverEmptied keys ∧ (k = .backspace → (editLine keys).length ≠ 1) := by
  constructor
  · refine fun h => ⟨fun pre hpre => h pre (hpre.trans (List.prefix_append ..)), ?_⟩
    rintro rfl
    exact h keys (List.prefix_refl _)
  · rintro ⟨h, hlast⟩ pre hpre
    rcases List.prefix_concat_iff.mp hpre with heq | hpre
    · obtain ⟨rfl, hk⟩ := List.append_inj' heq rfl
      exact hlast (List.singleton_inj.mp hk).symm
    · exact h pre hpre

/-! ## What one key does to the terminal -/

namespace Terminal

variable {t : Terminal} {n : Nat}

theorem onNewCharRecvd_char (c : Byte) (hn : t.index = n) (hmax : n < 256) :
    t.onNewCharRecvd (Key.char c).ctrs = { t.put n c with index := n + 1 } := by
  have hH : ¬ ((Key.char c).ctrs 1 = ascii 'H' ∧ (Key.char c).ctrs 0 = ascii '^') :=
    fun h => absurd h.1 (show ¬ (0 : Byte) = ascii 'H' by decide)
  have hr : ¬ ((Key.char c).ctrs 1 = ascii 'r' ∧ (Key.char c).ctrs 0 = ascii '\\') :=
    fun h => absurd h.1 (show ¬ (0 : Byte) = ascii 'r' by decide)
  have hmod : (n + 1) % 65536 = n + 1 := by omega
  rw [onNewCharRecvd, if_neg hH, if_neg hr, hn, hmod]
  rfl

theorem onNewCharRecvd_backspace (hn : t.index = n) :
    t.onNewCharRecvd Key.backspace.ctrs
      = if n = 0 then t else { t.put n 0 with index := n - 1 } := by
  rw [onNewCharRecvd, if_pos (by decide), hn]

theorem onNewCharRecvd_enter (hn : t.index = n) (hmax : n < 256) :
    t.onNewCharRecvd Key.enter.ctrs = { t.put n (ascii '\n') with index := n + 1 } := by
  have hmod : (n + 1) % 65536 = n + 1 := by omega
  rw [onNewCharRecvd, if_neg (by decide), if_pos (by decide), hn, hmod]

end Terminal

/-! ## The two buffers -/

namespace Reading

/-- The reader after the editing keys `keys`: both buffers hold the line
below `index`, and a cell of the caller's buffer is still zero exactly if
the line has never been long enough to reach it. -/
structure Tracks (len : Nat) (keys : List Key) (r : Reading) : Prop where
  ret : r.ret = none
  len : r.len = len
  index : r.terminal.index = (editLine keys).length
  lastIndex : r.lastIndex = (editLine keys).length
  inBounds : r.InBounds
  termBuf : ∀ i (h : i < (editLine keys).length), r.terminal.termBuf i = (editLine keys)[i]
  buf : ∀ i (h : i < (editLine keys).length), r.buf i = (editLine keys)[i]
  stale : ∀ i < 256, r.buf (i : Nat) ≠ 0 ↔ ∃ pre, pre <+: keys ∧ i < (editLine pre).length

variable {len : Nat} {keys : List Key} {r : Reading}

theorem update_cell (f : Int → Byte) {i n : Nat} (h : i ≠ n) (c : Byte) :
    Function.update f n c i = f i :=
  Function.update_of_ne (by omega) ..

theorem poll_copy {i : Nat} (hi : r.terminal.index = i + 1) (hret : r.ret = none)
    (hnew : r.lastIndex ≠ i + 1) (hc : r.terminal.termBuf i ≠ ascii '\n') (hlen : i + 1 ≠ r.len) :
    r.poll = { r.put i (r.terminal.termBuf i) with
      lastIndex := i + 1
      terminal := r.terminal.touch i } := by
  have hcell : ((r.terminal.index : Nat) : Int) - 1 = i := by omega
  have hgo : ¬ (r.ret.isSome = true ∨ r.lastIndex = r.terminal.index) := by simp [hret, hi, hnew]
  have hfull : ¬ r.terminal.index = r.len := by omega
  rw [poll, if_neg hgo]
  simp only [hcell, Terminal.touch_termBuf]
  rw [if_neg hc]
  refine (if_neg hfull).trans ?_
  rw [hi]
  rfl

theorem poll_newline {i : Nat} (hi : r.terminal.index = i + 1) (hret : r.ret = none)
    (hnew : r.lastIndex ≠ i + 1) (hc : r.terminal.termBuf i = ascii '\n') :
    r.poll = finish { r with lastIndex := i + 1, terminal := r.terminal.touch i } i := by
  have hcell : ((r.terminal.index : Nat) : Int) - 1 = i := by omega
  have hgo : ¬ (r.ret.isSome = true ∨ r.lastIndex = r.terminal.index) := by simp [hret, hi, hnew]
  rw [poll, if_neg hgo]
  simp only [hcell, Terminal.touch_termBuf]
  rw [if_pos hc, hi]

theorem press_copy {k : Key} {t : Terminal} {i : Nat}
    (ht : r.terminal.onNewCharRecvd k.ctrs = t) (hi : t.index = i + 1) (hret : r.ret = none)
    (hnew : r.lastIndex ≠ i + 1) (hc : t.termBuf i ≠ ascii '\n') (hlen : i + 1 ≠ r.len) :
    r.press k = { r.put i (t.termBuf i) with lastIndex := i + 1, terminal := t.touch i } := by
  rw [press, ht]
  exact poll_copy (r := { r with terminal := t }) hi hret hnew hc hlen

theorem poll_idle (h : r.lastIndex = r.terminal.index) : r.poll = r := by
  rw [poll, if_pos (Or.inr h)]

/-- A poll that stays in bounds has a cell below `index` to look at, and
what happened before it stayed in bounds as well. -/
theorem inBounds_of_poll (h : r.poll.InBounds) : r.InBounds ∧
    (r.ret = none → r.lastIndex ≠ r.terminal.index → 0 < r.terminal.index) := by
  by_cases hgo : r.ret.isSome = true ∨ r.lastIndex = r.terminal.index
  · rw [poll, if_pos hgo] at h
    refine ⟨h, fun hret hne => ?_⟩
    rcases hgo with hsome | heq
    · simp [hret] at hsome
    · exact absurd heq hne
  · rw [poll, if_neg hgo] at h
    have hcell : (r.terminal.touch (r.terminal.index - 1)).inBounds = true ∧
        r.bufInBounds = true := by
      simp only at h
      split at h
      · exact h
      · have hput : (r.terminal.touch (r.terminal.index - 1)).inBounds = true ∧
            (r.bufInBounds && decide (0 ≤ (r.terminal.index : Int) - 1
              ∧ (r.terminal.index : Int) - 1 < r.len)) = true := by
          split at h
          · exact h
          · exact h
        exact ⟨hput.1, (Bool.and_eq_true_iff.mp hput.2).1⟩
    obtain ⟨hterm, hlow, -⟩ := (Terminal.touch_inBounds ..).mp hcell.1
    exact ⟨⟨hterm, hcell.2⟩, fun _ _ => by omega⟩

theorem inBounds_of_key {t : Terminal} {k : Key}
    (h : (t.onNewCharRecvd k.ctrs).inBounds = true) : t.inBounds = true := by
  unfold Terminal.onNewCharRecvd at h
  split at h
  · split at h
    · exact h
    · exact ((Terminal.touch_inBounds ..).mp h).1
  · split at h
    · exact ((Terminal.touch_inBounds ..).mp h).1
    · exact ((Terminal.touch_inBounds ..).mp h).1

theorem inBounds_of_press {k : Key} (h : (r.press k).InBounds) : r.InBounds := by
  obtain ⟨⟨hterm, hbuf⟩, -⟩ := inBounds_of_poll h
  exact ⟨inBounds_of_key hterm, hbuf⟩

theorem start_tracks (t : Terminal) (ht : t.inBounds = true) {buf : Int → Byte}
    (hbuf : ∀ i < 256, buf (i : Nat) = 0) (hlen : 0 < len) : Tracks len [] (start t buf len) := by
  have hstart : start t buf len = { terminal := t.resetTermInpBuffer, len, buf } := by
    rw [start, if_neg (by omega)]
  rw [hstart]
  refine ⟨rfl, rfl, rfl, rfl, ⟨ht, rfl⟩, fun i h => absurd h (by simp),
    fun i h => absurd h (by simp), fun i hi => ?_⟩
  simp [hbuf i hi]

theorem stale_concat {k : Key} {i : Nat} :
    (∃ pre, pre <+: keys ++ [k] ∧ i < (editLine pre).length)
      ↔ i < (editLine (keys ++ [k])).length ∨ ∃ pre, pre <+: keys ∧ i < (editLine pre).length := by
  constructor
  · rintro ⟨pre, hpre, hi⟩
    rcases List.prefix_concat_iff.mp hpre with rfl | hpre
    · exact Or.inl hi
    · exact Or.inr ⟨pre, hpre, hi⟩
  · rintro (hi | ⟨pre, hpre, hi⟩)
    · exact ⟨_, List.prefix_refl _, hi⟩
    · exact ⟨pre, hpre.trans (List.prefix_append ..), hi⟩

theorem Tracks.char (h : Tracks len keys r) {c : Byte} (hc : (Key.char c).Edits)
    (hlen : (editLine keys).length + 1 < len) (hmax : len ≤ 256) :
    Tracks len (keys ++ [.char c]) (r.press (.char c)) := by
  have hline : editLine (keys ++ [.char c]) = editLine keys ++ [c] := editLine_concat ..
  have hnl : c ≠ ascii '\n' := by
    rintro rfl
    exact absurd hc.1 (by decide)
  have hzero : c ≠ 0#8 := by
    rintro rfl
    exact absurd hc.1 (by decide)
  have hpress := press_copy (Terminal.onNewCharRecvd_char c h.index (by omega)) rfl h.ret
    (by rw [h.lastIndex]; omega) (by simpa [Terminal.put] using hnl) (by rw [h.len]; omega)
  rw [hpress]
  refine ⟨h.ret, h.len, ?_, ?_, ⟨?_, ?_⟩, fun i hi => ?_, fun i hi => ?_, fun i hi => ?_⟩
  · simp [hline]
  · simp [hline]
  · simp [h.inBounds.1, termBufSize]
    omega
  · simp [h.inBounds.2, h.len]
    omega
  · simp only [hline] at hi ⊢
    by_cases heq : i = (editLine keys).length
    · simp [heq]
    · have hlt : i < (editLine keys).length := by simp at hi; omega
      simpa [update_cell _ heq, hlt] using h.termBuf i hlt
  · simp only [hline] at hi ⊢
    by_cases heq : i = (editLine keys).length
    · simp [heq]
    · have hlt : i < (editLine keys).length := by simp at hi; omega
      simpa [update_cell _ heq, hlt] using h.buf i hlt
  · rw [stale_concat, hline, ← h.stale i hi, List.length_append, List.length_singleton]
    show Function.update r.buf _ _ _ ≠ 0 ↔ _
    by_cases heq : i = (editLine keys).length
    · simp [heq, hzero]
    · have hold : i < (editLine keys).length → r.buf i ≠ 0 := fun hlt =>
        (h.stale i hi).mpr ⟨keys, List.prefix_refl _, hlt⟩
      rw [update_cell _ heq]
      constructor
      · exact Or.inr
      · exact fun hor => hor.elim (fun hlt => hold (by omega)) id

/-- A backspace on a line of two characters or more: the last one is gone
from the line, its copy in the caller's buffer stays. -/
theorem Tracks.backspace (h : Tracks len keys r) (htwo : 2 ≤ (editLine keys).length)
    (hprint : ∀ c ∈ editLine keys, c ≠ ascii '\n') (hlen : (editLine keys).length < len)
    (hmax : len ≤ 256) : Tracks len (keys ++ [.backspace]) (r.press .backspace) := by
  have hline : editLine (keys ++ [.backspace]) = (editLine keys).dropLast := editLine_concat ..
  obtain ⟨n, hn⟩ : ∃ n, (editLine keys).length = n + 2 := ⟨_, (Nat.sub_add_cancel htwo).symm⟩
  have hterm : r.terminal.onNewCharRecvd Key.backspace.ctrs
      = { r.terminal.put ((n + 2 : Nat) : Int) 0 with index := n + 1 } := by
    rw [Terminal.onNewCharRecvd_backspace (h.index.trans hn), if_neg (by omega)]
    rfl
  have hchar : Function.update r.terminal.termBuf ((n + 2 : Nat) : Int) 0 (n : Nat)
      = (editLine keys)[n] := by
    rw [update_cell _ (by omega), h.termBuf n (by omega)]
  have hpress := press_copy hterm rfl h.ret (by rw [h.lastIndex]; omega)
    (by rw [Terminal.put_termBuf, hchar]; exact hprint _ (List.getElem_mem _))
    (by rw [h.len]; omega)
  rw [Terminal.put_termBuf, hchar] at hpress
  have hshort : ∀ {i}, i < (editLine keys).dropLast.length → i ≤ n := fun hi => by
    rw [List.length_dropLast, hn] at hi
    omega
  rw [hpress]
  refine ⟨h.ret, h.len, ?_, ?_, ⟨?_, ?_⟩, fun i hi => ?_, fun i hi => ?_, fun i hi => ?_⟩
  · simp [hline, hn]
  · simp [hline, hn]
  · simp [h.inBounds.1, termBufSize]
    omega
  · simp [h.inBounds.2, h.len]
    omega
  · simp only [hline] at hi ⊢
    have := hshort hi
    have hcell := update_cell r.terminal.termBuf (show i ≠ n + 2 by omega) 0
    exact hcell.trans ((h.termBuf i (by omega)).trans (by simp))
  · simp only [hline] at hi ⊢
    have := hshort hi
    by_cases heq : i = n
    · simp [heq]
    · simpa [update_cell _ heq] using h.buf i (by omega)
  · rw [stale_concat, hline, ← h.stale i hi]
    have hold : i < (editLine keys).length → r.buf i ≠ 0 := fun hlt =>
      (h.stale i hi).mpr ⟨keys, List.prefix_refl _, hlt⟩
    show Function.update r.buf _ _ _ ≠ 0 ↔ _
    have hsame : Function.update r.buf (n : Nat) (editLine keys)[n] i = r.buf i := by
      by_cases heq : i = n
      · rw [heq, Function.update_self, h.buf n (by omega)]
      · exact update_cell _ heq _
    rw [hsame]
    constructor
    · exact Or.inr
    · exact fun hor => hor.elim (fun hlt => hold (by have := hshort hlt; omega)) id

/-- A backspace on an empty line does nothing. -/
theorem Tracks.backspace_nil (h : Tracks len keys r) (hnil : editLine keys = []) :
    Tracks len (keys ++ [.backspace]) (r.press .backspace) := by
  have hline : editLine (keys ++ [.backspace]) = editLine keys := by
    rw [editLine_concat, hnil]
    rfl
  have hindex : r.terminal.index = 0 := by rw [h.index, hnil]; rfl
  have hidle : r.lastIndex = r.terminal.index := h.lastIndex.trans h.index.symm
  have hpress : r.press .backspace = r := by
    rw [press, Terminal.onNewCharRecvd_backspace hindex, if_pos rfl]
    exact poll_idle hidle
  rw [hpress]
  refine ⟨h.ret, h.len, hline ▸ h.index, hline ▸ h.lastIndex, h.inBounds, ?_, ?_, fun i hi => ?_⟩
  · simpa only [hline] using h.termBuf
  · simpa only [hline] using h.buf
  · rw [stale_concat, hline, hnil, h.stale i hi]
    simp

/-- After the deletion of the only character the poll looks at cell -1. -/
theorem Tracks.emptied (h : Tracks len keys r) (hone : (editLine keys).length = 1) :
    ¬ (r.press .backspace).InBounds := by
  intro hin
  rw [press, Terminal.onNewCharRecvd_backspace (h.index.trans hone), if_neg Nat.one_ne_zero] at hin
  have hpos := (inBounds_of_poll hin).2 h.ret (by rw [h.lastIndex, hone]; exact Nat.one_ne_zero)
  exact Nat.lt_irrefl 0 hpos

/-! ## Whole lines -/

theorem type_concat (r : Reading) (keys : List Key) (k : Key) :
    r.type (keys ++ [k]) = (r.type keys).press k := by
  simp [type]

/-- A line of editing keys consists of printable characters. -/
theorem printable_editLine (hkeys : ∀ k ∈ keys, k.Edits) :
    ∀ c ∈ editLine keys, 0x20 ≤ c.toNat := by
  induction keys using List.reverseRecOn with
  | nil => simp
  | append_singleton keys k ih =>
      have ih := ih fun k hk => hkeys k (List.mem_append_left _ hk)
      have hk := hkeys k (by simp)
      rw [editLine_concat]
      cases k with
      | char c =>
          intro d hd
          rcases List.mem_append.mp hd with hd | hd
          · exact ih d hd
          · rw [List.mem_singleton.mp hd]
            exact hk.1
      | backspace => exact fun d hd => ih d (List.mem_of_mem_dropLast hd)
      | enter => exact hk.elim

/-- The reader keeps track of the line until the line is emptied; from
then on an array has been left. -/
theorem type_tracks {t : Terminal} (ht : t.inBounds = true) {buf : Int → Byte}
    (hbuf : ∀ i < 256, buf (i : Nat) = 0) (hmax : len ≤ 256) :
    ∀ {keys : List Key}, (∀ k ∈ keys, k.Edits) →
      (∀ pre, pre <+: keys → (editLine pre).length < len) →
      NeverEmptied keys ∧ Tracks len keys ((start t buf len).type keys) ∨
        ¬ NeverEmptied keys ∧ ¬ ((start t buf len).type keys).InBounds := by
  intro keys
  induction keys using List.reverseRecOn with
  | nil =>
      intro _ hlen
      refine Or.inl ⟨fun pre hpre => ?_, start_tracks t ht hbuf (hlen [] (List.prefix_refl _))⟩
      simp at hpre
  | append_singleton keys k ih =>
      intro hkeys hlen
      have hkeys' : ∀ k ∈ keys, k.Edits := fun k hk => hkeys k (List.mem_append_left _ hk)
      have hk := hkeys k (by simp)
      rw [type_concat, NeverEmptied.concat_iff]
      rcases ih hkeys' (fun pre hpre => hlen pre (hpre.trans (List.prefix_append ..)))
        with ⟨hnever, htrack⟩ | ⟨hempty, hout⟩
      swap
      · exact Or.inr ⟨fun h => hempty h.1, fun h => hout (inBounds_of_press h)⟩
      have hlast := hlen (keys ++ [k]) (List.prefix_refl _)
      have hfits := hlen keys (List.prefix_append ..)
      rw [editLine_concat] at hlast
      cases k with
      | enter => exact hk.elim
      | char c =>
          have hroom : (editLine keys).length + 1 < len := by simpa [editKey] using hlast
          exact Or.inl ⟨⟨hnever, nofun⟩, htrack.char hk hroom hmax⟩
      | backspace =>
          by_cases hone : (editLine keys).length = 1
          · exact Or.inr ⟨fun h => h.2 rfl hone, htrack.emptied hone⟩
          refine Or.inl ⟨⟨hnever, fun _ => hone⟩, ?_⟩
          by_cases hnil : editLine keys = []
          · exact htrack.backspace_nil hnil
          · have hpos := List.length_pos_iff.mpr hnil
            refine htrack.backspace (by omega) (fun c hc heq => ?_) hfits hmax
            have := printable_editLine hkeys' c hc
            rw [heq] at this
            exact absurd this (by decide)

theorem Tracks.enter (h : Tracks len keys r) (hlen : (editLine keys).length < len)
    (hmax : len ≤ 256) : (r.press .enter).ret = some ((editLine keys).length : Int) ∧
      (r.press .enter).buf = r.buf ∧ (r.press .enter).InBounds := by
  have hterm := Terminal.onNewCharRecvd_enter h.index (by omega)
  have hpress : r.press .enter = finish { r with
      lastIndex := (editLine keys).length + 1
      terminal := Terminal.touch { r.terminal.put (editLine keys).length (ascii '\n') with
        index := (editLine keys).length + 1 } (editLine keys).length } (editLine keys).length := by
    rw [press, hterm]
    refine poll_newline rfl h.ret ?_ ?_
    · simp [h.lastIndex]
    · simp
  rw [hpress]
  refine ⟨rfl, rfl, ?_, h.inBounds.2⟩
  simp [finish, Terminal.resetTermInpBuffer, h.inBounds.1, termBufSize]
  omega

end Reading

theorem cStringIn_eq_iff {buf : Int → Byte} {line : List Byte} {n : Nat} (hn : line.length < n)
    (hbuf : ∀ i (h : i < line.length), buf i = (line)[i]) (hline : ∀ c ∈ line, c ≠ 0) :
    cStringIn buf n = line ↔ buf line.length = 0 := by
  obtain ⟨k, rfl⟩ := Nat.exists_eq_add_of_lt hn
  have hfront : (List.range line.length).map (fun i => buf (i : Nat)) = line :=
    List.ext_getElem (by simp) fun i h₁ h₂ => by simpa using hbuf i h₂
  have hcells : (List.range (line.length + k + 1)).map (fun i => buf (i : Nat))
      = line ++ buf line.length :: (List.range k).map fun i => buf ((line.length + 1 + i : Nat)) := by
    rw [Nat.add_assoc, List.range_add, List.map_append, hfront, List.range_succ_eq_map]
    simp [Function.comp_def, Nat.add_assoc, Nat.add_comm 1]
  rw [cStringIn, hcells, List.takeWhile_append_of_pos (by simpa using hline),
    List.append_right_eq_self, List.takeWhile_cons]
  by_cases hzero : buf line.length = 0
  · simp [hzero]
  · simp

/-! ## Line editing -/

/-- The caller of `terminal_read` gets the line: its length is returned,
it is the string at the start of the buffer, and no access left an
array. -/
structure ReadsLine (line : List Byte) (r : Reading) : Prop where
  ret : r.ret = some (line.length : Int)
  string : cStringIn r.buf 256 = line
  inBounds : r.InBounds

/-- **Line editing end to end.** Into a zero-filled buffer of 256 bytes,
from any state of the terminal, a sequence of printable characters and
backspaces ended by Enter is read as the line it stands for exactly if no
backspace deletes the only character of the line and the line is never
longer than it is at the end. -/
theorem line_edit {t : Terminal} (ht : t.inBounds = true) {buf : Int → Byte}
    (hbuf : ∀ i < 256, buf (i : Nat) = 0) {len : Nat} (hmax : len ≤ 256) {keys : List Key}
    (hkeys : ∀ k ∈ keys, k.Edits)
    (hlen : ∀ pre, pre <+: keys → (editLine pre).length < len) :
    ReadsLine (editLine keys) ((Reading.start t buf len).type (keys ++ [.enter]))
      ↔ NeverEmptied keys ∧ EndsLongest keys := by
  rw [Reading.type_concat]
  rcases Reading.type_tracks ht hbuf hmax hkeys hlen with ⟨hnever, htrack⟩ | ⟨hempty, hout⟩
  swap
  · exact ⟨fun h => absurd (Reading.inBounds_of_press h.inBounds) hout, fun h => absurd h.1 hempty⟩
  have hfits := hlen keys (List.prefix_refl _)
  obtain ⟨hret, hsame, hin⟩ := htrack.enter hfits hmax
  have hnul : ∀ c ∈ editLine keys, c ≠ 0 := by
    intro c hc heq
    have := Reading.printable_editLine hkeys c hc
    rw [heq] at this
    exact absurd this (by decide)
  have hstring := cStringIn_eq_iff (show (editLine keys).length < 256 by omega) htrack.buf hnul
  have hcell := htrack.stale (editLine keys).length (by omega)
  rw [← not_iff_not, not_not] at hcell
  constructor
  · intro h
    have hzero := hstring.mp (hsame ▸ h.string)
    refine ⟨hnever, fun pre hpre => Nat.le_of_not_lt fun hlt => hcell.mp hzero ⟨pre, hpre, hlt⟩⟩
  · rintro ⟨-, hlongest⟩
    refine ⟨hret, ?_, hin⟩
    rw [hsame, hstring, hcell]
    rintro ⟨pre, hpre, hlt⟩
    exact absurd (hlongest pre hpre) (Nat.not_le.mpr hlt)

def bootTerminal : Terminal := { termBuf := fun _ => 0, index := 0 }

def lsKeys : List Key := [.char (ascii 'l'), .char (ascii 'a'), .backspace, .char (ascii 's')]

def aKeys : List Key := [.char (ascii 'a'), .char (ascii 'b'), .backspace]

theorem prefix_cases {α : Type} {l : List α} {P : List α → Prop} (h : ∀ pre ∈ l.inits, P pre) :
    ∀ pre, pre <+: l → P pre := fun pre hpre => h pre ((List.mem_inits _ _).mpr hpre)

theorem line_edit_ls :
    ReadsLine (editLine lsKeys)
      ((Reading.start bootTerminal (fun _ => 0) 256).type (lsKeys ++ [.enter])) := by
  have hkeys : ∀ k ∈ lsKeys, k.Edits := by decide
  have hlen : ∀ pre, pre <+: lsKeys → (editLine pre).length < 256 := prefix_cases (by decide)
  have hnever : ∀ pre, pre <+: lsKeys → pre.getLast? = some .backspace →
      (editLine pre.dropLast).length ≠ 1 := prefix_cases (by decide)
  have hlongest : EndsLongest lsKeys := prefix_cases (by decide)
  refine (line_edit (t := bootTerminal) rfl (fun _ _ => rfl) (Nat.le_refl 256) hkeys hlen).mpr
    ⟨fun pre hpre => ?_, hlongest⟩
  simpa using hnever _ hpre (by simp)

/-- A character typed and deleted is still there when the line is used. -/
theorem deleted_char_seen :
    (∀ k ∈ aKeys, k.Edits) ∧ (∀ pre, pre <+: aKeys → (editLine pre).length < 256) ∧
      editLine aKeys = [ascii 'a'] ∧
      cStringIn ((Reading.start bootTerminal (fun _ => 0) 256).type (aKeys ++ [.enter])).buf 256
        = [ascii 'a', ascii 'b'] ∧
      ¬ ReadsLine [ascii 'a']
        ((Reading.start bootTerminal (fun _ => 0) 256).type (aKeys ++ [.enter])) := by
  have hseen : cStringIn ((Reading.start bootTerminal (fun _ => 0) 256).type
      (aKeys ++ [.enter])).buf 256 = [ascii 'a', ascii 'b'] := by decide +kernel
  refine ⟨by decide, prefix_cases (by decide), by decide, hseen, fun h => ?_⟩
  have := h.string.symm.trans hseen
  exact absurd this (by decide)

end SnowOs
