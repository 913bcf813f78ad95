import Mathlib.Data.Nat.Digits.Lemmas
import SnowOs.Cells

/-!
# Texts written backwards

A number is turned into text from its last digit on, so the text is written
from the end of a buffer towards its start: `buf[i--] = c`. A `Writer` is
the place of the next element with the cells.

`Writes` says that a text was put in front of what was there: where it
lies, that nothing else changed, and which cells were accessed. Writings
one after the other are one writing (`Writes.trans`), so the text of a
sequence of them is read off its parts; the digits of a number are one part
(`pushDigits_writes`). They are the numeral of the number, without leading
zeros (`numeral_isNumeral`), and reading them gives the number back
(`foldl_digits`).
-/

namespace SnowOs

/-- The place of the next element, and the cells. -/
structure Writer (α : Type) (blank : α) where
  i : Int
  cells : Cells α blank

def numeral (base n : Nat) : List Nat := if n = 0 then [0] else (Nat.digits base n).reverse

/-- Digits that are the numeral of `n`: no digit but a single one leads with
zero. -/
structure IsNumeral (base n : Nat) (ds : List Nat) : Prop where
  ne_nil : ds ≠ []
  lt : ∀ d ∈ ds, d < base
  leading : ds.head? = some 0 → ds = [0]
  value : Nat.ofDigits base ds.reverse = n

namespace Writer

open Cells

variable {α : Type} {blank : α}

/-- `buf[i--] = a`. -/
def push (w : Writer α blank) (a : α) : Writer α blank := ⟨w.i - 1, w.cells.put w.i a⟩

/-- The rounds of the loop over the digits of a number. -/
def pushDigitsFor (digit : Nat → α) (base : Nat) : Nat → Writer α blank → Nat → Writer α blank
  | 0, w, _ => w
  | fuel + 1, w, n =>
      let w := w.push (digit (n % base))
      if n / base = 0 then w else pushDigitsFor digit base fuel w (n / base)

/-- The loop over the digits of a number, one digit at least. -/
def pushDigits (digit : Nat → α) (base : Nat) (w : Writer α blank) (n : Nat) : Writer α blank :=
  pushDigitsFor digit base (n + 1) w n

/-- The text was written from the place of `w` down to that of `w'`. -/
structure Writes (w : Writer α blank) (text : List α) (w' : Writer α blank) : Prop where
  place : w'.i + text.length = w.i
  stored : Stored w'.cells.mem (w'.i + 1) text
  frame : ∀ j, j ≤ w'.i ∨ w.i < j → w'.cells.mem j = w.cells.mem j
  within : ∀ n, w'.cells.Within n ↔
    w.cells.Within n ∧ (text ≠ [] → 0 ≤ w'.i + 1 ∧ w.i < n)

section Writes

variable {w w₁ w₂ : Writer α blank} {text text₁ text₂ : List α}

theorem push_writes (w : Writer α blank) (a : α) : Writes w [a] (w.push a) where
  place := by simp [push]
  stored := by
    have hplace : w.i - 1 + 1 = w.i := Int.sub_add_cancel ..
    refine ⟨?_, trivial⟩
    simp only [push, hplace, put_mem, Function.update_self]
  frame j hj := by
    simp only [push] at hj
    exact Function.update_of_ne (by omega) ..
  within n := by
    have hplace : w.i - 1 + 1 = w.i := Int.sub_add_cancel ..
    simp only [push, put_within, hplace]
    simp

/-- Writings one after the other: the later text stands in front. -/
theorem Writes.trans (h₁ : Writes w text₁ w₁) (h₂ : Writes w₁ text₂ w₂) :
    Writes w (text₂ ++ text₁) w₂ := by
  have hp₁ := h₁.place
  have hp₂ := h₂.place
  refine ⟨?_, ?_, fun j hj => ?_, fun n => ?_⟩
  · rw [List.length_append]
    omega
  · refine stored_append.mpr ⟨h₂.stored, ?_⟩
    have hnext : w₂.i + 1 + (text₂.length : Int) = w₁.i + 1 := by omega
    rw [hnext]
    exact h₁.stored.congr fun j hj _ => h₂.frame j (.inr (by omega))
  · rw [h₂.frame j (by omega), h₁.frame j (by omega)]
  · rw [h₂.within, h₁.within, and_assoc]
    refine and_congr_right fun _ => ?_
    rcases eq_or_ne text₁ [] with rfl | hne₁
    · rw [List.length_nil] at hp₁
      have hi : w₁.i = w.i := by omega
      simp [hi]
    · rcases eq_or_ne text₂ [] with rfl | hne₂
      · rw [List.length_nil] at hp₂
        have hi : w₂.i = w₁.i := by omega
        simp [hi]
      · have hne : text₂ ++ text₁ ≠ [] := by simp [hne₁]
        have hlen₁ := List.length_pos_of_ne_nil hne₁
        have hlen₂ := List.length_pos_of_ne_nil hne₂
        constructor
        · rintro ⟨hlast, hfront⟩ -
          exact ⟨(hfront hne₂).1, (hlast hne₁).2⟩
        · intro hall
          obtain ⟨hlow, hhigh⟩ := hall hne
          refine ⟨fun _ => ⟨?_, hhigh⟩, fun _ => ⟨hlow, ?_⟩⟩ <;> omega

/-- A text that was written in front of a blank cell is what is read. -/
theorem Writes.read {p : α → Bool} (h : Writes w (text ++ [blank]) w₁) (hp : p blank = false)
    (htext : ∀ a ∈ text, p a = true) : w₁.cells.read p (w₁.i + 1) = text :=
  read_eq h.stored hp htext hp

end Writes

/-! ## Digits -/

/-- The last digit, behind those of the quotient. -/
theorem numeral_eq {base : Nat} (hbase : 1 < base) (n : Nat) :
    numeral base n = (if n / base = 0 then [] else numeral base (n / base)) ++ [n % base] := by
  unfold numeral
  rcases Nat.eq_zero_or_pos n with rfl | hpos
  · simp
  · rw [if_neg (Nat.ne_of_gt hpos), Nat.digits_def' hbase hpos, List.reverse_cons]
    by_cases hdiv : n / base = 0
    · rw [if_pos hdiv, hdiv, Nat.digits_zero, List.reverse_nil]
    · rw [if_neg hdiv, if_neg hdiv]

theorem pushDigitsFor_writes (digit : Nat → α) {base : Nat} (hbase : 1 < base) {fuel n : Nat}
    (hfuel : n < fuel) (w : Writer α blank) :
    Writes w ((numeral base n).map digit) (pushDigitsFor digit base fuel w n) := by
  induction fuel generalizing n w with
  | zero => exact absurd hfuel (Nat.not_lt_zero n)
  | succ fuel ih =>
      have hlast := w.push_writes (digit (n % base))
      rw [pushDigitsFor, numeral_eq hbase, List.map_append, List.map_singleton]
      by_cases hdiv : n / base = 0
      · rw [if_pos hdiv, if_pos hdiv]
        exact hlast
      · have hn : 0 < n := Nat.pos_of_ne_zero fun h => hdiv (by rw [h, Nat.zero_div])
        have hless : n / base < fuel :=
          Nat.lt_of_lt_of_le (Nat.div_lt_self hn hbase) (Nat.le_of_lt_succ hfuel)
        rw [if_neg hdiv, if_neg hdiv]
        exact hlast.trans (ih hless _)

theorem pushDigits_writes (digit : Nat → α) {base : Nat} (hbase : 1 < base) (w : Writer α blank)
    (n : Nat) : Writes w ((numeral base n).map digit) (pushDigits digit base w n) :=
  pushDigitsFor_writes digit hbase (Nat.lt_succ_self n) w

end Writer

theorem numeral_lt {base : Nat} (hbase : 1 < base) {n d : Nat} (hd : d ∈ numeral base n) :
    d < base := by
  unfold numeral at hd
  split at hd
  · rw [List.mem_singleton.mp hd]
    exact Nat.lt_of_succ_lt hbase
  · exact Nat.digits_lt_base hbase (List.mem_reverse.mp hd)

theorem numeral_isNumeral {base : Nat} (hbase : 1 < base) (n : Nat) :
    IsNumeral base n (numeral base n) := by
  refine ⟨?_, fun d hd => numeral_lt hbase hd, ?_, ?_⟩
  · rw [Writer.numeral_eq hbase]
    exact List.append_ne_nil_of_right_ne_nil _ (List.cons_ne_nil _ _)
  · unfold numeral
    split
    · exact fun _ => rfl
    · next hn =>
        intro hhead
        have hne : Nat.digits base n ≠ [] := Nat.digits_ne_nil_iff_ne_zero.mpr hn
        rw [List.head?_reverse, List.getLast?_eq_some_getLast hne] at hhead
        exact absurd (Option.some.inj hhead) (Nat.getLast_digit_ne_zero base hn)
  · unfold numeral
    split
    · next hn => rw [List.reverse_singleton, Nat.ofDigits_singleton, hn]
    · rw [List.reverse_reverse, Nat.ofDigits_digits]

/-- Characters are read from the left, each a digit behind the number so
far. -/
theorem foldl_digits {α : Type} {base : Nat} {digit : Nat → α} {digitOf : α → Nat}
    (hdigit : ∀ d < base, digitOf (digit d) = d) {ds : List Nat} (hds : ∀ d ∈ ds, d < base) :
    (ds.map digit).foldl (fun v c => v * base + digitOf c) 0 = Nat.ofDigits base ds.reverse := by
  induction ds using List.reverseRecOn with
  | nil => rfl
  | append_singleton ds d ih =>
      have hlast : digitOf (digit d) = d :=
        hdigit d (hds d (List.mem_append_right _ (List.mem_singleton_self d)))
      rw [List.map_append, List.foldl_append, ih fun e he => hds e (List.mem_append_left _ he),
        List.map_singleton, List.foldl_cons, List.foldl_nil, hlast, List.reverse_append,
        List.reverse_singleton, List.singleton_append, Nat.ofDigits_cons, Nat.mul_comm,
        Nat.add_comm]

/-- Digits of one base, read in another: leading zeros do not matter. -/
theorem ofDigits_digits_ofDigits {b : Nat} (c : Nat) (hb : 1 < b) {l : List Nat}
    (hl : ∀ d ∈ l, d < b) :
    Nat.ofDigits c (Nat.digits b (Nat.ofDigits b l)) = Nat.ofDigits c l := by
  induction l with
  | nil => simp
  | cons d l ih =>
      obtain ⟨hd, hl⟩ := List.forall_mem_cons.mp hl
      rw [Nat.ofDigits_cons, Nat.ofDigits_cons, ← ih hl]
      by_cases hzero : d ≠ 0 ∨ Nat.ofDigits b l ≠ 0
      · rw [Nat.digits_add b hb _ _ hd hzero, Nat.ofDigits_cons]
      · rw [not_or, not_ne_iff, not_ne_iff] at hzero
        simp [hzero.1, hzero.2]

theorem length_numeral_le {base : Nat} (hbase : 1 < base) {n k : Nat} (hk : 0 < k)
    (hn : n < base ^ k) : (numeral base n).length ≤ k := by
  unfold numeral
  split
  · exact hk
  · rw [List.length_reverse]
    exact (Nat.digits_length_le_iff hbase n).mpr hn

end SnowOs
