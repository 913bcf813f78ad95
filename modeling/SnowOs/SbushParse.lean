import Mathlib.Data.List.DropRight
import SnowOs.Sbush

/-!
# What `parse_split` makes of a line

The loop is followed one character at a time: `splitFrom` is the rest of
`parse_split` from a state of the loop on, and the text of that state is
the piece begun, which has no delimiter in it, in front of the characters
to come (`splitFrom_spec`). Each pass of `remove_white_spaces` stays in
its own piece, because the character in front of a piece is the NUL put
over the delimiter. Only in front of the first piece there is none: if it
is blank, the spaces before the line are overwritten as well, down to the
first other character (`Splits.below`).
-/

namespace SnowOs.Sbush

open Cells

def trim (s : List Byte) : List Byte := (s.dropWhile isSpace).rdropWhile isSpace

/-! ## Strings -/

section Strings

variable {c c' : Chars} {p : Int} {s : List Byte}

theorem isChar_iff {b : Byte} : isChar b = true ↔ b ≠ 0#8 := by simp [isChar]

theorem zero_notMem_cstr (c : Chars) (p : Int) : 0#8 ∉ cstr c p :=
  fun h => isChar_iff.mp (mem_read _ h) rfl

/-- A C string ends with a NUL. -/
theorem stored_cstr (c : Chars) (p : Int) : Stored c.mem p (cstr c p ++ [0#8]) := by
  obtain ⟨a, ha, hpa⟩ := read_stored (p := isChar) c p rfl
  have hzero : a = 0#8 := by simpa [isChar] using hpa
  rwa [hzero] at ha

theorem cstr_eq (h : Stored c.mem p (s ++ [0#8])) (hs : 0#8 ∉ s) : cstr c p = s :=
  read_eq h rfl (fun _ hx => isChar_iff.mpr (ne_of_mem_of_not_mem hx hs)) rfl

theorem cstr_congr (h : ∀ j, p ≤ j → j ≤ p + (cstr c p).length → c'.mem j = c.mem j) :
    cstr c' p = cstr c p := by
  refine cstr_eq ((stored_cstr c p).congr fun j hj hlt => h j hj ?_) (zero_notMem_cstr c p)
  rw [List.length_append, List.length_singleton] at hlt
  omega

theorem mem_end (c : Chars) (p : Int) : c.mem (p + (cstr c p).length) = 0#8 :=
  (stored_append.mp (stored_cstr c p)).2.1

@[simp] theorem strlen_fst (c : Chars) (p : Int) : (strlen c p).1 = (cstr c p).length := by
  simp [strlen, scan_fst, cstr]

@[simp] theorem strlen_mem (c : Chars) (p : Int) : (strlen c p).2.mem = c.mem := scan_mem ..

end Strings

/-! ## Spaces -/

section Spaces

variable {c : Chars} {i src : Int}

/-- The spaces in front of `i` are overwritten, down to the first other
character. -/
theorem trimEnd_spec {rounds : Nat} (h : ∃ k < rounds, isSpace (c.mem (i - (k : Nat))) = false) :
    ∃ e ≤ i + 1, isSpace (c.mem (e - 1)) = false ∧
      (∀ j, e ≤ j → j ≤ i → isSpace (c.mem j) = true) ∧
      (∀ j, (trimEnd rounds c i).mem j = if e ≤ j ∧ j ≤ i then 0#8 else c.mem j) ∧
      (trimEnd rounds c i).low = min c.low (e - 1) ∧
      (trimEnd rounds c i).high = max c.high i := by
  induction rounds generalizing c i with
  | zero =>
      obtain ⟨k, hk, -⟩ := h
      exact absurd hk (Nat.not_lt_zero k)
  | succ rounds ih =>
      rw [trimEnd]
      split
      · next hsp =>
          obtain ⟨k, hk, hstop⟩ := h
          have hk0 : k ≠ 0 := by
            rintro rfl
            simp [hsp] at hstop
          have hlow : ∀ j, j ≠ i → (c.put i 0#8).mem j = c.mem j :=
            fun j hj => Function.update_of_ne hj ..
          have hpos : i - 1 - ((k - 1 : Nat) : Int) = i - k := by omega
          obtain ⟨e, he, hbefore, hspaces, hmem, hfrom, hto⟩ := ih (c := c.put i 0#8) (i := i - 1)
            ⟨k - 1, by omega, by rw [hpos, hlow _ (by omega)]; exact hstop⟩
          rw [hlow _ (by omega)] at hbefore
          refine ⟨e, by omega, hbefore, fun j hej hji => ?_, fun j => ?_, ?_, ?_⟩
          · rcases eq_or_ne j i with rfl | hne
            · exact hsp
            · rw [← hlow j hne]
              exact hspaces j hej (by omega)
          · rw [hmem]
            rcases eq_or_ne j i with rfl | hne
            · rw [if_neg (by omega), if_pos ⟨by omega, le_rfl⟩]
              exact Function.update_self ..
            · rw [hlow j hne]
              refine if_congr ?_ rfl rfl
              omega
          · rw [hfrom]
            simp only [put]
            omega
          · rw [hto]
            simp only [put]
            omega
      · next hsp =>
          refine ⟨i + 1, le_rfl, ?_, fun j hj hji => absurd hj (by omega), fun j => ?_, ?_, rfl⟩
          · rw [Int.add_sub_cancel]
            simpa using hsp
          · rw [if_neg (by omega)]
            rfl
          · rw [Int.add_sub_cancel]
            rfl

/-- What `remove_white_spaces` does to the string at `src`: the pointer
and the memory it leaves. -/
structure Trims (c : Chars) (src : Int) (r : Int × Chars) : Prop where
  start : src ≤ r.1
  stop : r.1 + (trim (cstr c src)).length ≤ src + (cstr c src).length
  text : cstr r.2 r.1 = trim (cstr c src)
  above : ∀ j, src + (cstr c src).length ≤ j → r.2.mem j = c.mem j
  below : isSpace (c.mem (src - 1)) = false → ∀ j < src, r.2.mem j = c.mem j

/-- The first loop stops at the first character that is not a space, or
at the end. -/
theorem read_isSpace (c : Chars) (src : Int) :
    read isSpace c src = (cstr c src).takeWhile isSpace :=
  read_eq_takeWhile (stored_cstr c src) rfl rfl

/-- A text is its trimmed text between the spaces around it. -/
theorem trim_parts (s : List Byte) :
    s.takeWhile isSpace ++ (trim s ++ (s.dropWhile isSpace).rtakeWhile isSpace) = s := by
  rw [trim, List.rdropWhile_append_rtakeWhile, List.takeWhile_append_dropWhile]

/-- Nothing but spaces is left of a text only if there is nothing else in
it. -/
theorem dropWhile_eq_nil_of_trim {s : List Byte} (h : trim s = []) : s.dropWhile isSpace = [] := by
  by_contra hne
  have hall := List.rdropWhile_eq_nil_iff.mp h
  have hhead := List.head_dropWhile_not isSpace hne
  rw [hall _ (List.head_mem hne)] at hhead
  exact absurd hhead (by simp)

theorem trim_concat {s : List Byte} (h : trim s ≠ []) :
    ∃ init a, trim s = init ++ [a] ∧ isSpace a = false := by
  refine ⟨(trim s).dropLast, (trim s).getLast h, (List.dropLast_append_getLast h).symm, ?_⟩
  exact Bool.eq_false_iff.mpr (List.rdropWhile_last_not isSpace _ h)

/-- The second loop on a text with spaces behind it: the text keeps its
cells and ends with a NUL. -/
theorem trimEnd_text {q : Int} {text trail : List Byte} (htext : Stored c.mem q text)
    (htail : Stored c.mem (q + text.length) (trail ++ [0#8]))
    (hspaces : ∀ a ∈ trail, isSpace a = true)
    (hlast : text ≠ [] → ∃ init a, text = init ++ [a] ∧ isSpace a = false)
    (hnil : text = [] → trail = []) :
    Stored (trimEnd c.span c (q + text.length + trail.length - 1)).mem q (text ++ [0#8]) := by
  obtain ⟨k, hk, hblank⟩ := c.exists_blank_below (q + text.length + trail.length - 1)
  obtain ⟨e, he, hstop, hall, hmem, -⟩ := trimEnd_spec ⟨k, hk, by rw [hblank]; rfl⟩
  have htrail := (stored_append.mp htail).1.forall (P := (isSpace · = true)) hspaces
  have hnul : c.mem (q + text.length + trail.length) = 0#8 := (stored_append.mp htail).2.1
  rcases eq_or_ne text [] with rfl | hne
  · obtain rfl := hnil rfl
    simp only [List.length_nil] at hmem
    have hq : c.mem q = 0#8 := by simpa using hnul
    refine ⟨?_, trivial⟩
    simp only [List.length_nil]
    rw [hmem, if_neg (by omega), hq]
  · obtain ⟨init, a, rfl, ha⟩ := hlast hne
    have hcell : isSpace (c.mem (q + init.length)) = false := by
      rw [(stored_append.mp htext).2.1]
      exact ha
    rw [List.length_append, List.length_singleton] at *
    have hgt : q + init.length < e := by
      by_contra hle
      have hsp := hall (q + init.length) (by omega) (by omega)
      rw [hcell] at hsp
      exact absurd hsp (by simp)
    have hle : e ≤ q + init.length + 1 := by
      by_contra hlt
      have hsp := htrail (e - 1) (by omega) (by omega)
      rw [hstop] at hsp
      exact absurd hsp (by simp)
    refine stored_append.mpr ⟨htext.congr fun j hj hlt => ?_, ?_, trivial⟩
    · rw [List.length_append, List.length_singleton] at hlt
      rw [hmem, if_neg (by omega)]
    · rw [List.length_append, List.length_singleton, hmem]
      split
      · rfl
      · have hpos : q + ((init.length + 1 : Nat) : Int)
            = q + ((init.length + 1 : Nat) : Int) + trail.length := by omega
        rw [hpos, hnul]

/-- The second loop stays behind a character that is not a space, and in
front of where it starts. -/
theorem trimEnd_frame {j : Int}
    (hj : i < j ∨ ∃ a, j < a ∧ a ≤ i + 1 ∧ isSpace (c.mem (a - 1)) = false) :
    (trimEnd c.span c i).mem j = c.mem j := by
  obtain ⟨k, hk, hblank⟩ := c.exists_blank_below i
  obtain ⟨e, -, -, hall, hmem, -⟩ := trimEnd_spec ⟨k, hk, by rw [hblank]; rfl⟩
  rw [hmem]
  refine if_neg fun ⟨hej, hji⟩ => ?_
  rcases hj with hlt | ⟨a, hja, hai, hstop⟩
  · omega
  · rw [hall (a - 1) (by omega) (by omega)] at hstop
    exact absurd hstop (by simp)

/-- The two scans of `remove_white_spaces` find the first character that is
not a space and the end, and change nothing. -/
theorem removeWhiteSpaces_eq (c : Chars) (src : Int) :
    ∃ c₁ : Chars, c₁.mem = c.mem ∧ c₁.low = min c.low src ∧
      c₁.high = max c.high (src + (cstr c src).length) ∧
      removeWhiteSpaces c src = (src + ((cstr c src).takeWhile isSpace).length,
        trimEnd c₁.span c₁ (src + (cstr c src).length - 1)) := by
  have hparts := List.takeWhile_append_dropWhile (p := isSpace) (l := cstr c src)
  have hst := stored_cstr c src
  have hread := read_isSpace c src
  generalize hlead : (cstr c src).takeWhile isSpace = lead at hparts hread
  generalize (cstr c src).dropWhile isSpace = rest at hparts
  rw [← hparts, List.append_assoc, stored_append] at hst
  have hfst : (scan isSpace c src).1 = src + lead.length := by rw [scan_fst, hread]
  have hrest : cstr (scan isSpace c src).2 (src + lead.length) = rest := by
    refine cstr_eq ?_ fun h => zero_notMem_cstr c src (hparts ▸ List.mem_append_right _ h)
    rw [scan_mem]
    exact hst.2
  have hlen : (cstr c src).length = lead.length + rest.length := by
    rw [← hparts, List.length_append]
  obtain ⟨hlow, hhigh⟩ := scan_range (p := isSpace) c src rfl
  obtain ⟨hlow', hhigh'⟩ := scan_range (p := isChar) (scan isSpace c src).2 (src + lead.length) rfl
  have hchars : read isChar (scan isSpace c src).2 (src + lead.length) = rest := hrest
  rw [hlow] at hlow'
  rw [hhigh, hread, hchars] at hhigh'
  refine ⟨(strlen (scan isSpace c src).2 (src + lead.length)).2, by simp, ?_, ?_, ?_⟩
  · refine hlow'.trans ?_
    omega
  · refine hhigh'.trans ?_
    omega
  · have hend : src + lead.length + (rest.length : Int) - 1
        = src + ((lead.length + rest.length : Nat) : Int) - 1 := by omega
    simp only [removeWhiteSpaces, hfst, strlen_fst, hrest, hlen, hend]

theorem removeWhiteSpaces_spec (c : Chars) (src : Int) : Trims c src (removeWhiteSpaces c src) := by
  obtain ⟨c₁, hmem, -, -, heq⟩ := removeWhiteSpaces_eq c src
  have hparts := trim_parts (cstr c src)
  have hspaces : ∀ a ∈ ((cstr c src).dropWhile isSpace).rtakeWhile isSpace, isSpace a = true :=
    fun a ha => List.mem_rtakeWhile_imp ha
  have hnil : trim (cstr c src) = [] →
      ((cstr c src).dropWhile isSpace).rtakeWhile isSpace = [] := by
    intro h
    rw [dropWhile_eq_nil_of_trim h, List.rtakeWhile_nil]
  generalize (cstr c src).takeWhile isSpace = lead at hparts heq
  generalize ((cstr c src).dropWhile isSpace).rtakeWhile isSpace = trail at hparts hspaces hnil
  have hlen : lead.length + ((trim (cstr c src)).length + trail.length) = (cstr c src).length := by
    rw [← List.length_append, ← List.length_append, hparts]
  have hst := stored_cstr c src
  rw [← hparts, List.append_assoc, stored_append, List.append_assoc, stored_append] at hst
  obtain ⟨-, htext, htail⟩ := hst
  have hi : src + ((cstr c src).length : Int) - 1
      = src + lead.length + (trim (cstr c src)).length + trail.length - 1 := by omega
  rw [hi] at heq
  rw [heq]
  constructor
  · simp only
    omega
  · simp only
    omega
  · refine cstr_eq ?_ fun h => zero_notMem_cstr c src ?_
    · rw [← hmem] at htext htail
      exact trimEnd_text htext htail hspaces trim_concat hnil
    · rw [← hparts]
      exact List.mem_append_right _ (List.mem_append_left _ h)
  · intro j hj
    rw [← hmem]
    exact trimEnd_frame (.inl (by omega))
  · intro hsp j hj
    rw [← hmem] at hsp ⊢
    exact trimEnd_frame (.inr ⟨src, hj, by omega, hsp⟩)

/-! ### What is accessed -/

theorem trim_eq_nil_iff {s : List Byte} : trim s = [] ↔ ∀ b ∈ s, isSpace b = true := by
  constructor
  · exact fun h => List.dropWhile_eq_nil_iff.mp (dropWhile_eq_nil_of_trim h)
  · intro h
    rw [trim, List.dropWhile_eq_nil_iff.mpr h, List.rdropWhile_nil]

/-- The cells accessed while a text of `len` characters at `p` is worked
on, the first piece of which is `first`: nothing behind its NUL; nothing
in front of it, if the first piece is not blank; and at most the cell in
front of it, if that is not a space. -/
structure Stays (c : Chars) (p : Int) (len : Nat) (first : List Byte) (c' : Chars) : Prop where
  high : c'.high ≤ max c.high (p + len)
  low_le : c'.low ≤ c.low
  text : trim first ≠ [] → min c.low p ≤ c'.low
  blank : trim first = [] → c'.low < p
  behind : isSpace (c.mem (p - 1)) = false → min c.low (p - 1) ≤ c'.low

theorem removeWhiteSpaces_stays (c : Chars) (src : Int) :
    Stays c src (cstr c src).length (cstr c src) (removeWhiteSpaces c src).2 := by
  obtain ⟨c₁, hmem, hlow, hhigh, heq⟩ := removeWhiteSpaces_eq c src
  obtain ⟨k, hk, hblank⟩ := c₁.exists_blank_below (src + (cstr c src).length - 1)
  obtain ⟨e, he, hstop, hall, -, hfrom, hto⟩ := trimEnd_spec ⟨k, hk, by rw [hblank]; rfl⟩
  have hst := (stored_append.mp (stored_cstr c src)).1
  rw [hmem] at hstop hall
  rw [heq]
  refine ⟨?_, ?_, fun htext => ?_, fun hnil => ?_, fun hsp => ?_⟩
  · rw [hto, hhigh]
    omega
  · rw [hfrom, hlow]
    omega
  · have hgt : src < e := by
      by_contra hle
      refine htext (trim_eq_nil_iff.mpr (hst.of_cells fun j hj hlt => hall j ?_ ?_))
      · omega
      · omega
    rw [hfrom, hlow]
    omega
  · have hle : e ≤ src := by
      by_contra hgt
      have hspace := hst.forall (P := (isSpace · = true)) (trim_eq_nil_iff.mp hnil) (e - 1)
        (by omega) (by omega)
      rw [hstop] at hspace
      exact absurd hspace (by simp)
    rw [hfrom, hlow]
    omega
  · have hge : src ≤ e := by
      by_contra hlt
      rw [hall (src - 1) (by omega) (by omega)] at hsp
      exact absurd hsp (by simp)
    rw [hfrom, hlow]
    omega

end Spaces

/-! ## Pieces -/

section Pieces

variable {c : Chars} {d : Byte} {cur rest : List Byte} {rounds : Nat}

/-- What is left of `parse_split` from a state of its loop on. -/
def splitFrom (d : Byte) (rounds : Nat) (c : Chars) (i last : Int) (commands : List Int) :
    List Int × Chars :=
  let r := splitLoop d rounds c i last commands
  let w := removeWhiteSpaces r.2.2 (r.2.1 + 1)
  (r.1 ++ [w.1], w.2)

/-- Pointers to the given texts, stored in the memory of a line of `len`
characters at `p`. -/
structure Splits (c : Chars) (p : Int) (len : Nat) (texts : List (List Byte))
    (pointers : List Int) (c' : Chars) : Prop where
  texts : pointers.map (cstr c') = texts
  range : ∀ q ∈ pointers, p ≤ q ∧ q + (cstr c' q).length ≤ p + len
  ordered : pointers.Pairwise fun q q' => q + (cstr c' q).length < q'
  above : ∀ j, p + len ≤ j → c'.mem j = c.mem j
  below : isSpace (c.mem (p - 1)) = false → ∀ j < p, c'.mem j = c.mem j

theorem Trims.splits {p : Int} {r : Int × Chars} (h : Trims c p r) :
    Splits c p (cstr c p).length [trim (cstr c p)] [r.1] r.2 where
  texts := by rw [List.map_singleton, h.text]
  range q hq := by
    rw [List.mem_singleton.mp hq, h.text]
    exact ⟨h.start, h.stop⟩
  ordered := List.pairwise_singleton ..
  above := h.above
  below := h.below

/-- A piece that ends with a delimiter, in front of the pieces behind. -/
theorem Splits.cons {p : Int} {len : Nat} {texts : List (List Byte)} {pointers : List Int}
    {r : Int × Chars} {c' : Chars}
    (hr : Trims (c.put (p + cur.length) 0#8) p r)
    (hcur : cstr (c.put (p + cur.length) 0#8) p = cur)
    (h : Splits r.2 (p + cur.length + 1) len texts pointers c') :
    Splits c p (cur.length + 1 + len) (trim cur :: texts) (r.1 :: pointers) c' := by
  have hother : ∀ j, j ≠ p + cur.length → (c.put (p + cur.length) 0#8).mem j = c.mem j :=
    fun j hj => Function.update_of_ne hj ..
  have hstop := hr.stop
  have habove := hr.above
  rw [hcur] at hstop habove
  -- the NUL over the delimiter keeps the later pieces away
  have hnul : isSpace (r.2.mem (p + cur.length + 1 - 1)) = false := by
    rw [Int.add_sub_cancel, habove _ le_rfl, put_mem, Function.update_self]
    rfl
  have hfirst : cstr c' r.1 = trim cur := by
    rw [← hcur, ← hr.text]
    refine cstr_congr fun j hj hle => h.below hnul j ?_
    rw [hr.text, hcur] at hle
    omega
  refine ⟨?_, fun q hq => ?_, ?_, fun j hj => ?_, fun hsp j hj => ?_⟩
  · rw [List.map_cons, hfirst, h.texts]
  · rcases List.mem_cons.mp hq with rfl | hq
    · rw [hfirst]
      exact ⟨hr.start, by omega⟩
    · have := h.range q hq
      omega
  · refine List.pairwise_cons.mpr ⟨fun q hq => ?_, h.ordered⟩
    have := h.range q hq
    rw [hfirst]
    omega
  · rw [h.above j (by omega), habove j (by omega), hother j (by omega)]
  · rw [h.below hnul j (by omega), hr.below (by rwa [hother _ (by omega)]) j hj,
      hother j (by omega)]

/-- The accesses to a piece that ends with a delimiter, and to the pieces
behind. -/
theorem Stays.cons {p : Int} {len : Nat} {first : List Byte} {r : Int × Chars} {c' : Chars}
    (hr : Stays (c.put (p + cur.length) 0#8) p cur.length cur r.2)
    (hnul : isSpace (r.2.mem (p + cur.length)) = false)
    (h : Stays r.2 (p + cur.length + 1) len first c') :
    Stays c p (cur.length + 1 + len) cur c' := by
  have hbehind := h.behind (by rwa [Int.add_sub_cancel])
  have hhigh := h.high
  have hhigh' := hr.high
  have hle := h.low_le
  have hle' := hr.low_le
  simp only [put] at hhigh' hle'
  refine ⟨?_, ?_, fun htext => ?_, fun hnil => ?_, fun hsp => ?_⟩
  · omega
  · omega
  · have hlow := hr.text htext
    simp only [put] at hlow
    omega
  · have hlow := hr.blank hnil
    omega
  · have hother : (c.put (p + cur.length) 0#8).mem (p - 1) = c.mem (p - 1) :=
      Function.update_of_ne (by omega) ..
    have hlow := hr.behind (by rwa [hother])
    simp only [put] at hlow
    omega

theorem Stays.look {p i : Int} {len : Nat} {first : List Byte} {c' : Chars} (hp : p ≤ i)
    (hi : i ≤ p + len) (h : Stays (c.look i) p len first c') : Stays c p len first c' := by
  have hhigh := h.high
  have hle := h.low_le
  simp only [Cells.look] at hhigh hle
  refine ⟨?_, ?_, fun htext => ?_, h.blank, fun hsp => ?_⟩
  · omega
  · omega
  · have hlow := h.text htext
    simp only [Cells.look] at hlow
    omega
  · have hlow := h.behind hsp
    simp only [Cells.look] at hlow
    omega

theorem length_splitOn (s : List Byte) : (s.splitOn d).length = s.count d + 1 := by
  induction s with
  | nil => simp
  | cons a s ih =>
      rw [List.splitOn_cons_eq_if_modifyHead]
      by_cases h : a = d <;> simp [h, ih]

theorem takeWhile_piece (hcur : d ∉ cur) (l : List Byte) :
    (cur ++ l).takeWhile (· ≠ d) = cur ++ l.takeWhile (· ≠ d) :=
  List.takeWhile_append_of_pos fun _ hx => decide_eq_true (ne_of_mem_of_not_mem hx hcur)

/-- The loop from the state in which the piece `cur` is begun and `rest`
is to come. -/
theorem splitFrom_spec (cur : List Byte) (last : Int)
    (hst : Stored c.mem (last + 1) (cur ++ rest ++ [0#8])) (hzero : 0#8 ∉ cur ++ rest)
    (hcur : d ∉ cur) (hrounds : rest.length < rounds) (commands : List Int) :
    ∃ pointers c',
      splitFrom d rounds c (last + 1 + cur.length) last commands = (commands ++ pointers, c') ∧
      Splits c (last + 1) (cur ++ rest).length (((cur ++ rest).splitOn d).map trim) pointers c' ∧
      Stays c (last + 1) (cur ++ rest).length ((cur ++ rest).takeWhile (· ≠ d)) c' := by
  induction rest generalizing c last cur rounds commands with
  | nil =>
      obtain ⟨rounds, rfl⟩ := Nat.exists_eq_add_one_of_ne_zero (Nat.ne_of_gt hrounds)
      rw [takeWhile_piece hcur, List.takeWhile_nil]
      rw [List.append_nil] at hst hzero ⊢
      have hi : c.mem (last + 1 + cur.length) = 0#8 := (stored_append.mp hst).2.1
      have htext : cstr (c.look (last + 1 + cur.length)) (last + 1) = cur := cstr_eq hst hzero
      have htrim := removeWhiteSpaces_spec (c.look (last + 1 + cur.length)) (last + 1)
      have hstays := removeWhiteSpaces_stays (c.look (last + 1 + cur.length)) (last + 1)
      refine ⟨_, _, by rw [splitFrom, splitLoop, if_pos hi], ?_, ?_⟩
      · rw [List.splitOn_eq_singleton hcur]
        have hsplits := htrim.splits
        rw [htext] at hsplits
        exact ⟨hsplits.texts, hsplits.range, hsplits.ordered, hsplits.above, hsplits.below⟩
      · rw [htext] at hstays
        exact hstays.look (by omega) le_rfl
  | cons b rest ih =>
      obtain ⟨rounds, rfl⟩ :=
        Nat.exists_eq_add_one_of_ne_zero (Nat.ne_of_gt (Nat.zero_lt_of_lt hrounds))
      have hstb := hst
      rw [List.append_assoc, stored_append] at hstb
      obtain ⟨hstcur, hb, hstrest⟩ := hstb
      have hb0 : b ≠ 0#8 := by
        rintro rfl
        exact hzero (by simp)
      have hfuel : rest.length < rounds := Nat.lt_of_succ_lt_succ hrounds
      by_cases hbd : b = d
      · subst hbd
        have htext : cstr (c.put (last + 1 + cur.length) 0#8) (last + 1) = cur := by
          refine cstr_eq (stored_append.mpr ⟨hstcur.congr fun j hj hlt => ?_, ?_, trivial⟩)
            fun h => hzero (List.mem_append_left _ h)
          · exact Function.update_of_ne (by omega) ..
          · exact Function.update_self ..
        have htrim := removeWhiteSpaces_spec (c.put (last + 1 + cur.length) 0#8) (last + 1)
        have hstays := removeWhiteSpaces_stays (c.put (last + 1 + cur.length) 0#8) (last + 1)
        rw [htext] at hstays
        generalize hr : removeWhiteSpaces (c.put (last + 1 + cur.length) 0#8) (last + 1) = r
          at htrim hstays
        have hnext : Stored r.2.mem (last + 1 + cur.length + 1) ([] ++ rest ++ [0#8]) := by
          refine hstrest.congr fun j hj _ => ?_
          rw [htrim.above j (by rw [htext]; omega)]
          exact Function.update_of_ne (by omega) ..
        have hnul : isSpace (r.2.mem (last + 1 + cur.length)) = false := by
          rw [htrim.above _ (by rw [htext]), put_mem, Function.update_self]
          rfl
        obtain ⟨pointers, c', hsplit, hspec, hrest⟩ := ih [] _ hnext
          (fun h => hzero (List.mem_append_right _ (List.mem_cons_of_mem _ h))) (by simp) hfuel
          (commands ++ [r.1])
        have hlen : (cur ++ b :: rest).length = cur.length + 1 + ([] ++ rest).length := by
          simp only [List.length_append, List.length_cons, List.nil_append]
          omega
        refine ⟨r.1 :: pointers, c', ?_, ?_, ?_⟩
        · rw [splitFrom, splitLoop, if_neg (by rw [hb]; exact hb0), if_pos hb, hr]
          simpa [splitFrom] using hsplit
        · have hpieces : (cur ++ b :: rest).splitOn b = cur :: rest.splitOn b :=
            List.splitOnP_append_cons_of_forall_mem
              (fun x hx => beq_eq_false_iff_ne.mpr (ne_of_mem_of_not_mem hx hcur)) b
              (beq_self_eq_true b) rest
          rw [hpieces, List.map_cons, hlen]
          exact hspec.cons htrim htext
        · rw [takeWhile_piece hcur, List.takeWhile_cons_of_neg (by simp), List.append_nil, hlen]
          exact hstays.cons hnul hrest
      · have hgrown : cur ++ [b] ++ rest = cur ++ b :: rest := by simp
        have hpos : last + 1 + ((cur ++ [b]).length : Int) = last + 1 + cur.length + 1 := by
          rw [List.length_append, List.length_singleton]
          omega
        obtain ⟨pointers, c', hsplit, hspec, hstays⟩ := ih (c := c.look (last + 1 + cur.length))
          (cur ++ [b]) last (by rwa [hgrown]) (by rwa [hgrown])
          (by simp [hcur, Ne.symm hbd]) hfuel commands
        rw [hpos] at hsplit
        rw [hgrown] at hspec hstays
        refine ⟨pointers, c', ?_, ?_, hstays.look (by omega) ?_⟩
        · rw [splitFrom, splitLoop, if_neg (by rw [hb]; exact hb0), if_neg (by rw [hb]; exact hbd)]
          exact hsplit
        · exact ⟨hspec.texts, hspec.range, hspec.ordered, hspec.above, hspec.below⟩
        · rw [List.length_append]
          omega

theorem parseSplit_both (c : Chars) (input : Int) (d : Byte) :
    Splits c input (cstr c input).length (((cstr c input).splitOn d).map trim)
      (parseSplit c input d).1 (parseSplit c input d).2 ∧
    Stays c input (cstr c input).length ((cstr c input).takeWhile (· ≠ d))
      (parseSplit c input d).2 := by
  have hst := stored_cstr c input
  have hinput : input - 1 + 1 = input := Int.sub_add_cancel ..
  have hspan : (cstr c input).length < c.span := read_length_lt c input rfl
  obtain ⟨pointers, c', hsplit, hspec⟩ := splitFrom_spec (c := c) (d := d) [] (input - 1)
    (by rwa [hinput]) (zero_notMem_cstr c input) (by simp) hspan []
  have hparse : parseSplit c input d = (pointers, c') := by
    simpa [splitFrom, parseSplit, hinput] using hsplit
  rw [hparse]
  rwa [hinput] at hspec

/-- The tokens of `parse_split` are the pieces between the delimiters
without the spaces around them. -/
theorem parseSplit_spec (c : Chars) (input : Int) (d : Byte) :
    Splits c input (cstr c input).length (((cstr c input).splitOn d).map trim)
      (parseSplit c input d).1 (parseSplit c input d).2 :=
  (parseSplit_both c input d).1

theorem parseSplit_stays (c : Chars) (input : Int) (d : Byte) :
    Stays c input (cstr c input).length ((cstr c input).takeWhile (· ≠ d))
      (parseSplit c input d).2 :=
  (parseSplit_both c input d).2

end Pieces

end SnowOs.Sbush
