import Mathlib.Data.Int.Order.Basic
import Mathlib.Logic.Function.Basic

/-!
# Cells around a pointer

A pointer into an array can be moved and dereferenced in both directions,
past either end. `Cells` are the cells by their distance from the start of
the array, together with the lowest and the highest one that was accessed.
Only finitely many of them are not blank, so a loop that stops at a blank
cell ends, whichever way it goes.

`Stored` says that a list lies at a position. A scan finds the list that
is stored there (`read_stored`, `read_eq`), and a list stays stored as
long as nothing is written to its own cells (`Stored.congr`).
-/

namespace SnowOs

/-- Cells by position, with the range of the positions accessed. -/
structure Cells (α : Type) (blank : α) where
  mem : Int → α
  bound : Nat
  mem_blank : ∀ i : Int, bound ≤ i.natAbs → mem i = blank
  low : Int := 0
  high : Int := 0

namespace Cells

variable {α : Type} {blank : α}

def clear : Cells α blank := { mem := fun _ => blank, bound := 0, mem_blank := fun _ _ => rfl }

def look (c : Cells α blank) (i : Int) : Cells α blank :=
  { c with low := min c.low i, high := max c.high i }

def put (c : Cells α blank) (i : Int) (a : α) : Cells α blank where
  mem := Function.update c.mem i a
  bound := max c.bound (i.natAbs + 1)
  mem_blank j hj := by
    have hne : j ≠ i := by
      rintro rfl
      omega
    rw [Function.update_of_ne hne]
    exact c.mem_blank j (by omega)
  low := min c.low i
  high := max c.high i

/-- The range of accesses is begun anew at `i`. -/
def watch (c : Cells α blank) (i : Int) : Cells α blank := { c with low := i, high := i }

def putAll (c : Cells α blank) (i : Int) : List α → Cells α blank
  | [] => c
  | a :: s => (c.put i a).putAll (i + 1) s

@[simp] theorem look_mem (c : Cells α blank) (i : Int) : (c.look i).mem = c.mem := rfl

@[simp] theorem put_mem (c : Cells α blank) (i : Int) (a : α) :
    (c.put i a).mem = Function.update c.mem i a := rfl

/-- More than the number of cells that are not blank. -/
def span (c : Cells α blank) : Nat := 2 * c.bound + 1

/-- Within `span` cells in either direction there is a blank one. -/
theorem exists_blank_above (c : Cells α blank) (i : Int) : ∃ k < c.span, c.mem (i + k) = blank := by
  rcases Nat.lt_or_ge i.natAbs c.bound with hlt | hge
  · refine ⟨(c.bound - i).toNat, ?_, c.mem_blank _ ?_⟩
    · unfold span
      omega
    · omega
  · refine ⟨0, Nat.succ_pos _, c.mem_blank _ ?_⟩
    simpa using hge

@[inherit_doc exists_blank_above]
theorem exists_blank_below (c : Cells α blank) (i : Int) : ∃ k < c.span, c.mem (i - k) = blank := by
  rcases Nat.lt_or_ge i.natAbs c.bound with hlt | hge
  · refine ⟨(c.bound + i).toNat, ?_, c.mem_blank _ ?_⟩
    · unfold span
      omega
    · omega
  · refine ⟨0, Nat.succ_pos _, c.mem_blank _ ?_⟩
    simpa using hge

/-! ## Scans -/

/-- The first position from `i` on whose cell does not satisfy `p`. -/
def scanFor (p : α → Bool) : Nat → Cells α blank → Int → Int × Cells α blank
  | 0, c, i => (i, c)
  | fuel + 1, c, i => if p (c.mem i) then scanFor p fuel (c.look i) (i + 1) else (i, c.look i)

@[inherit_doc scanFor]
def scan (p : α → Bool) (c : Cells α blank) (i : Int) : Int × Cells α blank := scanFor p c.span c i

/-- The cells from `i` on up to the first that does not satisfy `p`. -/
def readFor (p : α → Bool) (mem : Int → α) : Nat → Int → List α
  | 0, _ => []
  | fuel + 1, i => if p (mem i) then mem i :: readFor p mem fuel (i + 1) else []

@[inherit_doc readFor]
def read (p : α → Bool) (c : Cells α blank) (i : Int) : List α := readFor p c.mem c.span i

/-- The loop that copies elements from `i` on to `j` on, while they satisfy
`p`: where it stops, and the cells. -/
def copyFor (p : α → Bool) (src : Int → α) : Nat → Cells α blank → Int → Int → Int × Cells α blank
  | 0, c, _, j => (j, c)
  | fuel + 1, c, i, j =>
      if p (src i) then copyFor p src fuel (c.put j (src i)) (i + 1) (j + 1) else (j, c)

@[inherit_doc copyFor]
def copy (p : α → Bool) (src c : Cells α blank) (i j : Int) : Int × Cells α blank :=
  copyFor p src.mem src.span c i j

theorem scanFor_mem (p : α → Bool) (fuel : Nat) (c : Cells α blank) (i : Int) :
    (scanFor p fuel c i).2.mem = c.mem := by
  induction fuel generalizing c i with
  | zero => rfl
  | succ fuel ih =>
      rw [scanFor]
      split
      · rw [ih]
        rfl
      · rfl

@[simp] theorem scan_mem (p : α → Bool) (c : Cells α blank) (i : Int) :
    (scan p c i).2.mem = c.mem :=
  scanFor_mem ..

theorem scanFor_fst (p : α → Bool) (fuel : Nat) (c : Cells α blank) (i : Int) :
    (scanFor p fuel c i).1 = i + (readFor p c.mem fuel i).length := by
  induction fuel generalizing c i with
  | zero => simp [scanFor, readFor]
  | succ fuel ih =>
      rw [scanFor, readFor]
      split
      · rw [ih, look_mem, List.length_cons]
        omega
      · simp

/-- A scan stops behind what it reads. -/
theorem scan_fst (p : α → Bool) (c : Cells α blank) (i : Int) :
    (scan p c i).1 = i + (read p c i).length :=
  scanFor_fst ..

/-- A scan that ends accesses the cells it reads and the one behind
them. -/
theorem scanFor_range {p : α → Bool} {fuel : Nat} {c : Cells α blank} {i : Int}
    (h : (readFor p c.mem fuel i).length < fuel) :
    (scanFor p fuel c i).2.low = min c.low i ∧
      (scanFor p fuel c i).2.high = max c.high (i + (readFor p c.mem fuel i).length) := by
  induction fuel generalizing c i with
  | zero => exact absurd h (Nat.not_lt_zero _)
  | succ fuel ih =>
      rw [readFor] at h
      rw [scanFor, readFor]
      by_cases hp : p (c.mem i) = true
      · rw [if_pos hp] at h
        obtain ⟨hlow, hhigh⟩ := ih (c := c.look i) (Nat.lt_of_succ_lt_succ h)
        rw [if_pos hp, if_pos hp, hlow, hhigh, look_mem, List.length_cons]
        simp only [look]
        omega
      · rw [if_neg hp, if_neg hp]
        simp [look]

/-! ## Stored lists -/

def Stored (mem : Int → α) : Int → List α → Prop
  | _, [] => True
  | i, a :: s => mem i = a ∧ Stored mem (i + 1) s

section Stored

variable {mem mem' : Int → α} {i j : Int} {s t : List α} {a b : α} {p : α → Bool}

@[simp] theorem stored_nil : Stored mem i [] := trivial

@[simp] theorem stored_cons : Stored mem i (a :: s) ↔ mem i = a ∧ Stored mem (i + 1) s := Iff.rfl

theorem stored_append : Stored mem i (s ++ t) ↔ Stored mem i s ∧ Stored mem (i + s.length) t := by
  induction s generalizing i with
  | nil => simp
  | cons a s ih =>
      have hlen : i + 1 + (s.length : Int) = i + (a :: s).length := by
        simp only [List.length_cons]
        omega
      rw [List.cons_append, stored_cons, stored_cons, ih, hlen, and_assoc]

theorem Stored.congr (h : Stored mem i s)
    (heq : ∀ j, i ≤ j → j < i + s.length → mem' j = mem j) : Stored mem' i s := by
  induction s generalizing i with
  | nil => trivial
  | cons a s ih =>
      rw [List.length_cons] at heq
      refine ⟨(heq i (by omega) (by omega)).trans h.1, ih h.2 fun j hj hlt => heq j ?_ ?_⟩
      · omega
      · omega

theorem Stored.forall {P : α → Prop} (h : Stored mem i s) (hs : ∀ x ∈ s, P x) :
    ∀ j, i ≤ j → j < i + s.length → P (mem j) := by
  induction s generalizing i with
  | nil =>
      intro j hj hlt
      rw [List.length_nil] at hlt
      omega
  | cons a s ih =>
      intro j hj hlt
      rw [List.length_cons] at hlt
      rcases eq_or_ne j i with rfl | hne
      · rw [h.1]
        exact hs a (List.mem_cons_self ..)
      · exact ih h.2 (fun x hx => hs x (List.mem_cons_of_mem _ hx)) j (by omega) (by omega)

theorem Stored.of_cells {P : α → Prop} (h : Stored mem i s)
    (hcells : ∀ j, i ≤ j → j < i + s.length → P (mem j)) : ∀ x ∈ s, P x := by
  induction s generalizing i with
  | nil => simp
  | cons a s ih =>
      rw [List.length_cons] at hcells
      refine List.forall_mem_cons.mpr ⟨?_, ih h.2 fun j hj hlt => hcells j ?_ ?_⟩
      · rw [← h.1]
        exact hcells i le_rfl (by omega)
      · omega
      · omega

/-- At most one list of elements that satisfy `p` lies at a position with
an element behind it that does not. -/
theorem Stored.unique (hs : Stored mem i (s ++ [a])) (ht : Stored mem i (t ++ [b]))
    (hps : ∀ x ∈ s, p x = true) (hpt : ∀ x ∈ t, p x = true) (hpa : p a = false)
    (hpb : p b = false) : s = t := by
  induction s generalizing i t with
  | nil =>
      cases t with
      | nil => rfl
      | cons y t =>
          have hy : y = a := ht.1.symm.trans hs.1
          rw [← hy, hpt y (List.mem_cons_self ..)] at hpa
          exact absurd hpa (by simp)
  | cons x s ih =>
      have hpx := hps x (List.mem_cons_self ..)
      cases t with
      | nil =>
          have hx : x = b := hs.1.symm.trans ht.1
          rw [← hx, hpx] at hpb
          exact absurd hpb (by simp)
      | cons y t =>
          have hxy : x = y := hs.1.symm.trans ht.1
          rw [hxy, ih hs.2 ht.2 (fun z hz => hps z (List.mem_cons_of_mem _ hz))
            fun z hz => hpt z (List.mem_cons_of_mem _ hz)]

theorem readFor_stored {fuel : Nat} (h : ∃ k < fuel, p (mem (i + k)) = false) :
    (∃ a, Stored mem i (readFor p mem fuel i ++ [a]) ∧ p a = false) ∧
      (readFor p mem fuel i).length < fuel := by
  induction fuel generalizing i with
  | zero =>
      obtain ⟨k, hk, -⟩ := h
      exact absurd hk (Nat.not_lt_zero k)
  | succ fuel ih =>
      rw [readFor]
      split
      · next hp =>
          obtain ⟨k, hk, hpk⟩ := h
          cases k with
          | zero => simp [hp] at hpk
          | succ k =>
              have hnext : i + ((k + 1 : Nat) : Int) = i + 1 + k := by omega
              obtain ⟨⟨a, ha, hpa⟩, hlt⟩ := ih ⟨k, Nat.lt_of_succ_lt_succ hk, hnext ▸ hpk⟩
              exact ⟨⟨a, ⟨rfl, ha⟩, hpa⟩, Nat.succ_lt_succ hlt⟩
      · next hp => exact ⟨⟨mem i, ⟨rfl, trivial⟩, by simpa using hp⟩, Nat.succ_pos fuel⟩

theorem readFor_mem {fuel : Nat} : ∀ x ∈ readFor p mem fuel i, p x = true := by
  induction fuel generalizing i with
  | zero => simp [readFor]
  | succ fuel ih =>
      rw [readFor]
      split
      · next hp =>
          intro x hx
          rcases List.mem_cons.mp hx with rfl | hx
          · exact hp
          · exact ih x hx
      · simp

end Stored

/-! ## Writing a list -/

section Write

variable {c : Cells α blank} {n : Nat}

/-- A list that is written is stored, and the other cells stay. -/
theorem putAll_mem (c : Cells α blank) (i : Int) (s : List α) :
    Stored (c.putAll i s).mem i s ∧
      ∀ j, j < i ∨ i + s.length ≤ j → (c.putAll i s).mem j = c.mem j := by
  induction s generalizing c i with
  | nil => exact ⟨trivial, fun j _ => rfl⟩
  | cons a s ih =>
      obtain ⟨hst, hframe⟩ := ih (c.put i a) (i + 1)
      rw [putAll]
      refine ⟨⟨?_, hst⟩, fun j hj => ?_⟩
      · rw [hframe i (by omega)]
        exact Function.update_self ..
      · rw [List.length_cons] at hj
        rw [hframe j (by omega)]
        exact Function.update_of_ne (by omega) ..

theorem putAll_concat (c : Cells α blank) (i : Int) (s : List α) (a : α) :
    (c.putAll i s).put (i + s.length) a = c.putAll i (s ++ [a]) := by
  induction s generalizing c i with
  | nil => simp [putAll]
  | cons b s ih =>
      have hlen : i + ((b :: s).length : Int) = i + 1 + s.length := by
        rw [List.length_cons]
        omega
      rw [putAll, hlen, ih]
      rfl

theorem copyFor_eq (p : α → Bool) (src : Int → α) (fuel : Nat) (c : Cells α blank) (i j : Int) :
    copyFor p src fuel c i j
      = (j + (readFor p src fuel i).length, c.putAll j (readFor p src fuel i)) := by
  induction fuel generalizing c i j with
  | zero => simp [copyFor, readFor, putAll]
  | succ fuel ih =>
      rw [copyFor, readFor]
      by_cases hp : p (src i) = true
      · have hlen : j + ((src i :: readFor p src fuel (i + 1)).length : Int)
            = j + 1 + (readFor p src fuel (i + 1)).length := by
          rw [List.length_cons]
          omega
        rw [if_pos hp, if_pos hp, ih, hlen, putAll]
      · rw [if_neg hp, if_neg hp]
        simp [putAll]

theorem copy_eq (p : α → Bool) (src c : Cells α blank) (i j : Int) :
    copy p src c i j = (j + (read p src i).length, c.putAll j (read p src i)) :=
  copyFor_eq ..

def Within (c : Cells α blank) (n : Nat) : Prop := 0 ≤ c.low ∧ c.high < n

theorem watch_within {i : Int} : (c.watch i).Within n ↔ 0 ≤ i ∧ i < n := Iff.rfl

theorem put_within {i : Int} {a : α} : (c.put i a).Within n ↔ c.Within n ∧ 0 ≤ i ∧ i < n := by
  simp only [Within, put]
  omega

theorem look_within {i : Int} : (c.look i).Within n ↔ c.Within n ∧ 0 ≤ i ∧ i < n := by
  simp only [Within, look]
  omega

/-- A loop stays within the first cells if its rounds do. -/
theorem foldl_within {β : Type} {f : Cells α blank → β → Cells α blank} {l : List β}
    (h : ∀ c : Cells α blank, ∀ x ∈ l, c.Within n → (f c x).Within n) (hc : c.Within n) :
    (l.foldl f c).Within n := by
  induction l generalizing c with
  | nil => exact hc
  | cons x l ih =>
      obtain ⟨hx, hl⟩ : (∀ c : Cells α blank, c.Within n → (f c x).Within n) ∧
          ∀ c : Cells α blank, ∀ y ∈ l, c.Within n → (f c y).Within n :=
        ⟨fun c => h c x (List.mem_cons_self ..),
          fun c y hy => h c y (List.mem_cons_of_mem _ hy)⟩
      exact ih hl (hx c hc)

/-- A nonempty list is written within the first cells exactly if it ends
there. -/
theorem putAll_within (s : List α) (a : α) {i : Int} :
    (c.putAll i (s ++ [a])).Within n ↔ c.Within n ∧ 0 ≤ i ∧ i + s.length < n := by
  induction s generalizing c i with
  | nil => simpa [putAll] using put_within
  | cons b s ih =>
      have hlen : i + 1 + (s.length : Int) = i + (b :: s).length := by
        rw [List.length_cons]
        omega
      rw [List.cons_append, putAll, ih, put_within, hlen, List.length_cons, and_assoc]
      refine and_congr_right fun _ => ?_
      omega

end Write

section Read

variable {c c' : Cells α blank} {i : Int} {s : List α} {a : α} {p : α → Bool}

/-- What is read lies there, with an element behind it that does not
satisfy `p`. -/
theorem read_stored (c : Cells α blank) (i : Int) (hp : p blank = false) :
    ∃ a, Stored c.mem i (read p c i ++ [a]) ∧ p a = false := by
  obtain ⟨k, hk, hblank⟩ := c.exists_blank_above i
  exact (readFor_stored ⟨k, hk, by rw [hblank, hp]⟩).1

theorem read_length_lt (c : Cells α blank) (i : Int) (hp : p blank = false) :
    (read p c i).length < c.span := by
  obtain ⟨k, hk, hblank⟩ := c.exists_blank_above i
  exact (readFor_stored ⟨k, hk, by rw [hblank, hp]⟩).2

theorem scan_range (c : Cells α blank) (i : Int) (hp : p blank = false) :
    (scan p c i).2.low = min c.low i ∧
      (scan p c i).2.high = max c.high (i + (read p c i).length) :=
  scanFor_range (read_length_lt c i hp)

theorem mem_read : ∀ x ∈ read p c i, p x = true := readFor_mem

/-- The list that lies there is what is read. -/
theorem read_eq (h : Stored c.mem i (s ++ [a])) (hp : p blank = false)
    (hs : ∀ x ∈ s, p x = true) (ha : p a = false) : read p c i = s := by
  obtain ⟨b, hb, hpb⟩ := read_stored c i hp
  exact hb.unique h mem_read hs hpb ha

/-- A scan over what lies there reads up to the first element that does not
satisfy `p`. -/
theorem read_eq_takeWhile (h : Stored c.mem i (s ++ [a])) (hp : p blank = false)
    (ha : p a = false) : read p c i = s.takeWhile p := by
  rw [← List.takeWhile_append_dropWhile (p := p) (l := s), List.append_assoc] at h
  have hall : ∀ x ∈ s.takeWhile p, p x = true := List.all_eq_true.mp List.all_takeWhile
  cases hdrop : s.dropWhile p with
  | nil =>
      rw [hdrop, List.nil_append] at h
      exact read_eq h hp hall ha
  | cons b rest =>
      rw [hdrop] at h
      have hcell : Stored c.mem i (s.takeWhile p ++ [b]) := by
        rw [stored_append] at h ⊢
        exact ⟨h.1, h.2.1, trivial⟩
      have hb : p b = false := by
        have hne : s.dropWhile p ≠ [] := by simp [hdrop]
        have := List.head_dropWhile_not p hne
        simpa [hdrop] using this
      exact read_eq hcell hp hall hb

theorem scan_within (hp : p blank = false) {n : Nat} :
    (scan p c i).2.Within n ↔ c.Within n ∧ 0 ≤ i ∧ i + (read p c i).length < n := by
  obtain ⟨hlow, hhigh⟩ := scan_range c i hp
  rw [Within, Within, hlow, hhigh]
  omega

end Read

end Cells

end SnowOs
