import SnowOs.CString
import SnowOs.Digits

/-!
# Sizes in octal, read in decimal (`atoi` and `o_to_d`)

`atoi` and `o_to_d` once more, with every operation on `int`s partial: there
is a result only if it fits (`fit`). Where there is one it is that of the
functions that wrap around (`atoi_of_fit`, `oToD_of_fit`), so these find the
right number and no operation overflows on the way.

`o_to_d` takes the decimal digits of its argument for octal ones, and never
overflows (`oToDFit_eq`). `atoi` takes the octal digits of a size for decimal
ones; together that is the size, as long as the decimal number fits, which
it does for a size below `2 ^ 28` (`octalField_decoded`).
-/

namespace SnowOs

/-! ## Operations that fit -/

/-- The result of an operation, if an `int` holds it. -/
def fit (x : Int) : Option Int := if -2 ^ 31 ≤ x ∧ x < 2 ^ 31 then some x else none

/-- The loop of `atoi`, and its product with the sign. -/
def atoiFitFrom (sign : Int) : List Byte → Int → Option Int
  | [], ans => fit (ans * sign)
  | c :: str, ans =>
      if c = 0#8 then fit (ans * sign)
      else if 48 ≤ c.toInt ∧ c.toInt ≤ 57 then do
        let product ← fit (ans * 10)
        let sum ← fit (product + c.toInt)
        let ans ← fit (sum - 48)
        atoiFitFrom sign str ans
      else some 0

def atoiFit (str : List Byte) : Option Int :=
  if str.headD 0#8 = ascii '-' then atoiFitFrom (-1) str.tail 0
  else if str.headD 0#8 = ascii '+' then atoiFitFrom 1 str.tail 0
  else atoiFitFrom 1 str 0

/-- The loop of `o_to_d`. The sum is made in a `uint64_t` and stored in an
`int`. -/
def oToDFitFrom : Nat → Nat → Nat → Int → Option Int
  | 0, _, _, ans => some ans
  | fuel + 1, n, i, ans =>
      if n = 0 then some ans
      else do
        let ans ← fit (ans + (n % 10 * pow 8 i : Nat))
        oToDFitFrom fuel (n / 10) (i + 1) ans

def oToDFit (n : Int) : Option Int := oToDFitFrom n.toNat n.toNat 0 0

section Fit

variable {x y v : Int}

theorem fit_eq_some : fit x = some y ↔ (-2 ^ 31 ≤ x ∧ x < 2 ^ 31) ∧ x = y := by
  rw [fit]
  by_cases h : -2 ^ 31 ≤ x ∧ x < 2 ^ 31
  · rw [if_pos h, Option.some_inj, and_iff_right h]
  · rw [if_neg h]
    constructor
    · intro hnone
      cases hnone
    · rintro ⟨hfits, -⟩
      exact absurd hfits h

theorem fit_of_nat {n : Nat} (h : n < 2 ^ 31) : fit n = some (n : Int) :=
  fit_eq_some.mpr ⟨⟨by omega, by omega⟩, rfl⟩

theorem fit_bind {β : Type} {f : Int → Option β} (h : fit x = some y) :
    (fit x >>= f) = f y := by
  rw [h]
  rfl

/-- What fits does not wrap around. -/
theorem int32_of_fit (h : fit x = some y) : int32 x = y := by
  obtain ⟨⟨hlow, hhigh⟩, rfl⟩ := fit_eq_some.mp h
  exact Int.bmod_eq_of_le (by omega) (by omega)

theorem atoiFrom_of_fit {sign : Int} {str : List Byte} {ans : Int}
    (h : atoiFitFrom sign str ans = some v) :
    (atoiFrom str ans).elim 0 (fun ans => int32 (ans * sign)) = v := by
  induction str generalizing ans with
  | nil => exact int32_of_fit h
  | cons c str ih =>
      rw [atoiFitFrom] at h
      rw [atoiFrom]
      by_cases hnul : c = 0#8
      · rw [if_pos hnul] at h ⊢
        exact int32_of_fit h
      · rw [if_neg hnul] at h ⊢
        by_cases hdigit : 48 ≤ c.toInt ∧ c.toInt ≤ 57
        · rw [if_pos hdigit] at h ⊢
          obtain ⟨product, hproduct, h⟩ := Option.bind_eq_some_iff.mp h
          obtain ⟨sum, hsum, h⟩ := Option.bind_eq_some_iff.mp h
          obtain ⟨-, rfl⟩ := fit_eq_some.mp hproduct
          obtain ⟨-, rfl⟩ := fit_eq_some.mp hsum
          obtain ⟨next, hnext, h⟩ := Option.bind_eq_some_iff.mp h
          rw [int32_of_fit hnext]
          exact ih h
        · rw [if_neg hdigit] at h ⊢
          exact Option.some.inj h

theorem atoi_of_fit {str : List Byte} (h : atoiFit str = some v) : atoi str = v := by
  rw [atoiFit] at h
  rw [atoi]
  by_cases hminus : str.headD 0#8 = ascii '-'
  · rw [if_pos hminus] at h ⊢
    exact atoiFrom_of_fit h
  · rw [if_neg hminus] at h ⊢
    by_cases hplus : str.headD 0#8 = ascii '+'
    · rw [if_pos hplus] at h ⊢
      exact atoiFrom_of_fit h
    · rw [if_neg hplus] at h ⊢
      exact atoiFrom_of_fit h

theorem oToDFrom_of_fit {fuel n i : Nat} {ans : Int} (h : oToDFitFrom fuel n i ans = some v) :
    oToDFrom fuel n i ans = v := by
  induction fuel generalizing n i ans with
  | zero => exact Option.some.inj h
  | succ fuel ih =>
      rw [oToDFitFrom] at h
      rw [oToDFrom]
      by_cases hn : n = 0
      · rw [if_pos hn] at h ⊢
        exact Option.some.inj h
      · rw [if_neg hn] at h ⊢
        obtain ⟨next, hnext, h⟩ := Option.bind_eq_some_iff.mp h
        rw [int32_of_fit hnext]
        exact ih h

theorem oToD_of_fit {n : Int} (h : oToDFit n = some v) : oToD n = v := oToDFrom_of_fit h

end Fit

/-! ## What `o_to_d` computes -/

/-- The decimal digits of a number, taken for octal ones. -/
def octalWeight (n : Nat) : Nat := Nat.ofDigits 8 (Nat.digits 10 n)

theorem octalWeight_eq {n : Nat} (hn : 0 < n) :
    octalWeight n = n % 10 + 8 * octalWeight (n / 10) := by
  rw [octalWeight, Nat.digits_def' (Nat.one_lt_succ_succ 8) hn, Nat.ofDigits_cons, octalWeight]

theorem octalWeight_le (n : Nat) : octalWeight n ≤ n := by
  have hmono := Nat.ofDigits_monotone (Nat.digits 10 n) (show 8 ≤ 10 by decide)
  rwa [Nat.ofDigits_digits] at hmono

theorem oToDFitFrom_eq {fuel n i ans : Nat} (hfuel : n ≤ fuel)
    (hi : i + (Nat.digits 10 n).length ≤ 21) (hlt : ans + 8 ^ i * octalWeight n < 2 ^ 31) :
    oToDFitFrom fuel n i ans = some ((ans + 8 ^ i * octalWeight n : Nat) : Int) := by
  induction fuel generalizing n i ans with
  | zero =>
      rw [Nat.le_zero.mp hfuel, oToDFitFrom]
      simp [octalWeight]
  | succ fuel ih =>
      rw [oToDFitFrom]
      rcases Nat.eq_zero_or_pos n with rfl | hpos
      · simp [octalWeight]
      · have hten : 1 < 10 := Nat.one_lt_succ_succ 8
        rw [Nat.digits_def' hten hpos, List.length_cons] at hi
        have hsum : ans + 8 ^ i * octalWeight n
            = ans + n % 10 * 8 ^ i + 8 ^ (i + 1) * octalWeight (n / 10) := by
          rw [octalWeight_eq hpos, Nat.mul_add, Nat.mul_comm (8 ^ i) (n % 10), ← Nat.mul_assoc,
            ← Nat.pow_succ, Nat.add_assoc]
        have hcast : (ans : Int) + (n % 10 * 8 ^ i : Nat) = (ans + n % 10 * 8 ^ i : Nat) := by
          push_cast
          rfl
        rw [hsum] at hlt ⊢
        rw [if_neg hpos.ne', pow_eight (by omega), hcast, fit_of_nat (by omega)]
        exact ih (by omega) (by omega) hlt

/-- `o_to_d` overflows for no `int`. -/
theorem oToDFit_eq {n : Nat} (hn : n < 2 ^ 31) : oToDFit n = some (octalWeight n : Int) := by
  have hlength : (Nat.digits 10 n).length ≤ 10 :=
    (Nat.digits_length_le_iff (Nat.one_lt_succ_succ 8) n).mpr
      (Nat.lt_trans hn (show 2 ^ 31 < 10 ^ 10 by decide))
  have hweight := octalWeight_le n
  have hloop : oToDFitFrom n n 0 (0 : Nat) = some ((0 + 8 ^ 0 * octalWeight n : Nat) : Int) :=
    oToDFitFrom_eq le_rfl (by omega) (by omega)
  rw [pow_zero, Nat.one_mul, Nat.zero_add] at hloop
  exact hloop

theorem int32_lt (x : Int) : int32 x < 2 ^ 31 :=
  Int.bmod_lt (Nat.two_pow_pos 32)

theorem atoi_lt (str : List Byte) : atoi str < 2 ^ 31 := by
  have helim : ∀ (ans : Option Int) (sign : Int),
      ans.elim 0 (fun ans => int32 (ans * sign)) < 2 ^ 31 := by
    intro ans sign
    cases ans with
    | none => exact Int.pow_pos (by decide)
    | some ans => exact int32_lt _
  rw [atoi]
  split
  · exact helim _ _
  · split
    · exact helim _ _
    · exact helim _ _

/-- The size of a header, whatever its field holds: no digit counts for more
than 9, and all but the last for less than in decimal. -/
theorem oToD_atoi_range (str : List Byte) :
    0 ≤ oToD (atoi str) ∧ oToD (atoi str) ≤ 1717986921 := by
  have hlt := atoi_lt str
  rcases Int.lt_or_le 0 (atoi str) with hpos | hneg
  · obtain ⟨n, hn⟩ := Int.eq_ofNat_of_zero_le (Int.le_of_lt hpos)
    rw [hn] at hlt hpos ⊢
    have hsplit := octalWeight_eq (n := n) (by omega)
    have hrest := octalWeight_le (n / 10)
    rw [oToD_of_fit (oToDFit_eq (by omega))]
    omega
  · rw [oToD, Int.toNat_of_nonpos hneg, oToDFrom]
    exact ⟨le_rfl, by decide⟩

/-! ## Size fields -/

/-- The number with these digits, the most significant first. -/
def readAs (base : Nat) (digits : List (Fin 8)) : Nat :=
  Nat.ofDigits base (digits.map Fin.val).reverse

def octalField (digits : List (Fin 8)) : List Byte :=
  digits.map fun d => BitVec.ofNat 8 (48 + d.val)

section Fields

variable {digits : List (Fin 8)}

theorem toInt_octalDigit (d : Fin 8) :
    (BitVec.ofNat 8 (48 + d.val) : Byte).toInt = 48 + (d : Nat) := by
  revert d
  decide

theorem le_foldl_digits (digits : List (Fin 8)) (v : Nat) :
    v ≤ digits.foldl (fun v (d : Fin 8) => v * 10 + d.val) v := by
  induction digits generalizing v with
  | nil => exact le_rfl
  | cons d digits ih =>
      have hstep : v ≤ v * 10 + d.val := by omega
      exact le_trans hstep (ih _)

/-- One round of `atoi`. The character is added before 48 is taken off, so
the sum has to fit with that. -/
theorem atoiFitFrom_digit {v : Nat} (d : Fin 8) (str : List Byte)
    (hlt : v * 10 + d.val + 48 < 2 ^ 31) :
    atoiFitFrom 1 (BitVec.ofNat 8 (48 + d.val) :: str) v
      = atoiFitFrom 1 str ((v * 10 + d.val : Nat) : Int) := by
  have hd := d.isLt
  have hc := toInt_octalDigit d
  have hnul : (BitVec.ofNat 8 (48 + d.val) : Byte) ≠ 0#8 := by
    rw [Ne, ← toInt_eq_zero_iff, hc]
    omega
  have hproduct : fit ((v : Int) * 10) = some ((v * 10 : Nat) : Int) :=
    fit_eq_some.mpr ⟨⟨by omega, by omega⟩, by omega⟩
  have hsum : fit (((v * 10 : Nat) : Int) + (48 + (d.val : Int)))
      = some ((v * 10 + (48 + d.val) : Nat) : Int) :=
    fit_eq_some.mpr ⟨⟨by omega, by omega⟩, by omega⟩
  have hnext : fit (((v * 10 + (48 + d.val) : Nat) : Int) - 48)
      = some ((v * 10 + d.val : Nat) : Int) :=
    fit_eq_some.mpr ⟨⟨by omega, by omega⟩, by omega⟩
  rw [atoiFitFrom, if_neg hnul, if_pos (by rw [hc]; omega), hc, fit_bind hproduct, fit_bind hsum,
    fit_bind hnext]

/-- `atoi` on octal digits, behind a number. The value only grows, so the
last one bounds them all. -/
theorem atoiFitFrom_octalField {v : Nat} (rest : List Byte)
    (hlt : digits.foldl (fun v (d : Fin 8) => v * 10 + d.val) v + 48 < 2 ^ 31) :
    atoiFitFrom 1 (octalField digits ++ 0#8 :: rest) v
      = some ((digits.foldl (fun v (d : Fin 8) => v * 10 + d.val) v : Nat) : Int) := by
  induction digits generalizing v with
  | nil =>
      have hv : v < 2 ^ 31 := Nat.lt_of_le_of_lt (Nat.le_add_right v 48) hlt
      rw [octalField, List.map_nil, List.nil_append, atoiFitFrom, if_pos rfl, Int.mul_one,
        List.foldl_nil]
      exact fit_of_nat hv
  | cons d digits ih =>
      have hle := Nat.add_le_add_right (le_foldl_digits digits (v * 10 + d.val)) 48
      have hstep := atoiFitFrom_digit d (octalField digits ++ 0#8 :: rest)
        (Nat.lt_of_le_of_lt hle hlt)
      exact hstep.trans (ih hlt)

theorem foldl_eq_readAs (digits : List (Fin 8)) :
    digits.foldl (fun v (d : Fin 8) => v * 10 + d.val) 0 = readAs 10 digits := by
  have hlt : ∀ d ∈ digits.map Fin.val, d < 10 := by
    intro d hd
    obtain ⟨e, -, rfl⟩ := List.mem_map.mp hd
    exact Nat.lt_trans e.isLt (by decide)
  have hread := foldl_digits (fun d _ => id_eq (id d)) hlt
  rw [List.map_id, List.foldl_map] at hread
  exact hread

/-- Eleven octal digits below `2 ^ 28`, taken for decimal ones: the leading
two make at most 1. -/
theorem readAs_ten_lt (hlength : digits.length = 11) (hvalue : readAs 8 digits < 2 ^ 28) :
    readAs 10 digits < 2 * 10 ^ 9 := by
  have hall : ∀ d ∈ (digits.map Fin.val).reverse, d < 8 := by
    intro d hd
    obtain ⟨e, -, rfl⟩ := List.mem_map.mp (List.mem_reverse.mp hd)
    exact e.isLt
  have hlen : (digits.map Fin.val).reverse.length = 11 := by simp [hlength]
  rw [readAs] at hvalue ⊢
  generalize (digits.map Fin.val).reverse = l at hall hlen hvalue ⊢
  obtain ⟨low, high, rfl, hlow, hhigh⟩ : ∃ low high, l = low ++ high ∧ low.length = 9 ∧
      high.length = 2 :=
    ⟨l.take 9, l.drop 9, (List.take_append_drop ..).symm, by simp [hlen], by simp [hlen]⟩
  obtain ⟨a, b, rfl⟩ := List.length_eq_two.mp hhigh
  have hlt : Nat.ofDigits 10 low < 10 ^ 9 := hlow ▸ Nat.ofDigits_lt_base_pow_length
    (Nat.one_lt_succ_succ 8) fun d hd =>
      Nat.lt_trans (hall d (List.mem_append_left _ hd)) (by decide)
  rw [Nat.ofDigits_append, hlow, Nat.ofDigits_cons, Nat.ofDigits_singleton] at hvalue ⊢
  omega

theorem atoiFit_octalField (hlength : digits.length = 11) (hvalue : readAs 8 digits < 2 ^ 28)
    (rest : List Byte) :
    atoiFit (octalField digits ++ 0#8 :: rest) = some (readAs 10 digits : Int) := by
  have hlt := readAs_ten_lt hlength hvalue
  have hhead : ∀ b : Byte, b.toInt < 48 → (octalField digits ++ 0#8 :: rest).headD 0#8 ≠ b := by
    intro b hb
    obtain ⟨d, digits, rfl⟩ := List.exists_cons_of_length_pos (by omega : 0 < digits.length)
    rw [octalField, List.map_cons, List.cons_append, List.headD_cons]
    rintro rfl
    rw [toInt_octalDigit] at hb
    omega
  rw [atoiFit, if_neg (hhead _ (by decide)), if_neg (hhead _ (by decide))]
  have hfold := foldl_eq_readAs digits
  have hloop := atoiFitFrom_octalField (v := 0) rest
    (show digits.foldl (fun v (d : Fin 8) => v * 10 + d.val) 0 + 48 < 2 ^ 31 by omega)
  rwa [hfold] at hloop

theorem octalWeight_readAs (digits : List (Fin 8)) :
    octalWeight (readAs 10 digits) = readAs 8 digits := by
  refine ofDigits_digits_ofDigits 8 (Nat.one_lt_succ_succ 8) fun d hd => ?_
  obtain ⟨e, -, rfl⟩ := List.mem_map.mp (List.mem_reverse.mp hd)
  exact Nat.lt_trans e.isLt (by decide)

end Fields

/-- **Sizes are decoded.** Eleven octal digits with a value below `2 ^ 28`
are read as the decimal number with these digits, and that is weighed as the
octal one; no operation overflows. -/
theorem octalField_decoded (digits : List (Fin 8)) (hlength : digits.length = 11)
    (hvalue : readAs 8 digits < 2 ^ 28) (rest : List Byte) :
    atoiFit (octalField digits ++ 0#8 :: rest) = some (readAs 10 digits : Int) ∧
      oToDFit (readAs 10 digits) = some (readAs 8 digits : Int) ∧
      oToD (atoi (octalField digits ++ 0#8 :: rest)) = readAs 8 digits := by
  have hlt := readAs_ten_lt hlength hvalue
  have hatoi := atoiFit_octalField hlength hvalue rest
  have hweigh := oToDFit_eq (n := readAs 10 digits) (by omega)
  rw [octalWeight_readAs] at hweigh
  refine ⟨hatoi, hweigh, ?_⟩
  rw [atoi_of_fit hatoi, oToD_of_fit hweigh]

/-- A size of 512 bytes. -/
theorem octalField_decoded_block :
    readAs 8 [0, 0, 0, 0, 0, 0, 0, 1, 0, 0, 0] = 512 ∧
      oToD (atoi (octalField [0, 0, 0, 0, 0, 0, 0, 1, 0, 0, 0] ++ [0#8])) = 512 := by
  have hvalue : readAs 8 [0, 0, 0, 0, 0, 0, 0, 1, 0, 0, 0] = 512 := by decide
  have hdecoded := (octalField_decoded [0, 0, 0, 0, 0, 0, 0, 1, 0, 0, 0] rfl (by decide) []).2.2
  exact ⟨hvalue, hdecoded.trans (congrArg Nat.cast hvalue)⟩

end SnowOs
