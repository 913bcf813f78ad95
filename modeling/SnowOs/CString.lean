import SnowOs.Paging

/-!
# Strings and numbers (`sys/string.c`)

A C string is the list of bytes from its pointer on. It ends at the first
NUL; where the list itself ends the memory is taken to hold a NUL. An
`int` is an `Int` reduced to 32 bits where the source could overflow.

The archive writes sizes in octal, and the kernel reads them in two
steps: `atoi` takes the digits for decimal ones, `o_to_d` takes the
decimal number apart again and weighs its digits by powers of eight. The
way through a decimal `int` is right for sizes below `2 ^ 28`
(`oToD_atoi_octal`), whose octal digits still make an `int`.
-/

namespace SnowOs

def ascii (c : Char) : Byte := BitVec.ofNat 8 c.toNat

/-- A number stored in an `int`. -/
def int32 (x : Int) : Int := Int.bmod x (2 ^ 32)

theorem int32_of_nat {n : Nat} (h : n < 2 ^ 31) : int32 n = n :=
  Int.bmod_eq_of_le (by omega) (by omega)

/-! ## Comparing -/

def cString (s : List Byte) : List Byte := s.takeWhile (· ≠ 0#8)

def kstrcmp : List Byte → List Byte → Int
  | [], [] => 0
  | [], b :: _ => 0 - b.toInt
  | a :: _, [] => a.toInt - 0
  | a :: s1, b :: s2 =>
      if a ≠ 0#8 ∧ b ≠ 0#8 ∧ a = b then kstrcmp s1 s2 else a.toInt - b.toInt

/-- `substr`: one string is a beginning of the other. -/
def substr : List Byte → List Byte → Bool
  | a :: s1, b :: s2 =>
      if a ≠ 0#8 ∧ b ≠ 0#8 then if a ≠ b then false else substr s1 s2 else true
  | _, _ => true

@[simp] theorem cString_nil : cString [] = [] := rfl

@[simp] theorem cString_cons (a : Byte) (s : List Byte) :
    cString (a :: s) = if a = 0#8 then [] else a :: cString s := by
  by_cases h : a = 0#8 <;> simp [cString, h]

theorem zero_notMem_cString (s : List Byte) : 0#8 ∉ cString s := by
  induction s with
  | nil => simp
  | cons a s ih =>
      rw [cString_cons]
      split
      · simp
      · next ha => simp [ih, Ne.symm ha]

theorem cString_append_of_notMem {s : List Byte} (h : 0#8 ∉ s) (t : List Byte) :
    cString (s ++ t) = s ++ cString t := by
  induction s with
  | nil => rfl
  | cons a s ih =>
      have ha : a ≠ 0#8 := fun ha => h (by simp [ha])
      rw [List.cons_append, cString_cons, if_neg ha, ih fun hs => h (List.mem_cons_of_mem _ hs)]
      rfl

theorem cString_eq_self {s : List Byte} (h : 0#8 ∉ s) : cString s = s := by
  simpa using cString_append_of_notMem h []

/-- A string does not run past its NUL. -/
theorem cString_append {s : List Byte} (h : 0#8 ∈ s) (t : List Byte) :
    cString (s ++ t) = cString s := by
  induction s with
  | nil => cases h
  | cons a s ih =>
      by_cases ha : a = 0#8
      · simp [ha]
      · have hs : 0#8 ∈ s := (List.mem_cons.mp h).resolve_left (Ne.symm ha)
        simp [ha, ih hs]

/-- A string with a NUL in its first `k` bytes is shorter than that. -/
theorem length_cString_lt {s : List Byte} {k : Nat} (h : 0#8 ∈ s.take k) :
    (cString s).length < k := by
  have hlt : (cString (s.take k)).length < (s.take k).length := by
    refine Nat.lt_of_le_of_ne (List.takeWhile_sublist _).length_le fun heq => ?_
    have hall := (List.takeWhile_sublist _).eq_of_length heq
    exact zero_notMem_cString _ (hall ▸ h)
  rw [← List.take_append_drop k s, cString_append h]
  exact hlt.trans_le (List.length_take_le ..)

theorem toInt_eq_zero_iff (a : Byte) : a.toInt = 0 ↔ a = 0#8 := by
  rw [← BitVec.toInt_inj]
  rfl

/-- `kstrcmp` tells equal strings. -/
theorem kstrcmp_eq_zero_iff (s t : List Byte) : kstrcmp s t = 0 ↔ cString s = cString t := by
  induction s generalizing t with
  | nil =>
      cases t with
      | nil => simp [kstrcmp]
      | cons b t => simp [kstrcmp, toInt_eq_zero_iff]
  | cons a s ih =>
      cases t with
      | nil => simp [kstrcmp, toInt_eq_zero_iff]
      | cons b t =>
          rw [kstrcmp]
          by_cases hgo : a ≠ 0#8 ∧ b ≠ 0#8 ∧ a = b
          · obtain ⟨ha, hb, rfl⟩ := hgo
            simp [ha, ih]
          · rw [if_neg hgo, Int.sub_eq_zero, BitVec.toInt_inj, cString_cons, cString_cons]
            by_cases ha : a = 0#8
            · by_cases hb : b = 0#8
              · simp [ha, hb]
              · simp [ha, hb, Ne.symm hb]
            · by_cases hb : b = 0#8
              · simp [ha, hb]
              · have hne : a ≠ b := fun h => hgo ⟨ha, hb, h⟩
                simp [ha, hb, hne]

/-! ## Reading numbers -/

/-- The loop of `atoi`; `none` is its `return 0` at a byte that is no
digit. -/
def atoiFrom : List Byte → Int → Option Int
  | [], ans => some ans
  | c :: str, ans =>
      if c = 0#8 then some ans
      else if 48 ≤ c.toInt ∧ c.toInt ≤ 57 then atoiFrom str (int32 (ans * 10 + c.toInt - 48))
      else none

def atoi (str : List Byte) : Int :=
  if str.headD 0#8 = ascii '-' then (atoiFrom str.tail 0).elim 0 fun ans => int32 (ans * -1)
  else if str.headD 0#8 = ascii '+' then (atoiFrom str.tail 0).elim 0 fun ans => int32 (ans * 1)
  else (atoiFrom str 0).elim 0 fun ans => int32 (ans * 1)

/-- `pow`, in a `uint64_t`. -/
def pow (a : Nat) : Nat → Nat
  | 0 => 1
  | b + 1 => pow a b * a % 2 ^ 64

/-- The loop of `o_to_d`; it divides `n` by ten each round, so `n` rounds
are enough. -/
def oToDFrom : Nat → Nat → Nat → Int → Int
  | 0, _, _, ans => ans
  | fuel + 1, n, i, ans =>
      if n = 0 then ans
      else oToDFrom fuel (n / 10) (i + 1) (int32 (ans + (n % 10 * pow 8 i : Nat)))

def oToD (n : Int) : Int := oToDFrom n.toNat n.toNat 0 0

/-! ## Octal numbers -/

/-- `n` in `k` octal digits. -/
def octal : Nat → Nat → List Byte
  | 0, _ => []
  | k + 1, n => octal k (n / 8) ++ [BitVec.ofNat 8 (48 + n % 8)]

def asDecimal : Nat → Nat → Nat
  | 0, _ => 0
  | k + 1, n => asDecimal k (n / 8) * 10 + n % 8

theorem octalDigit_toInt (d : Nat) :
    (BitVec.ofNat 8 (48 + d % 8) : Byte).toInt = 48 + (d % 8 : Nat) := by
  have h : d % 8 < 8 := Nat.mod_lt _ (by decide)
  generalize d % 8 = e at h ⊢
  revert e
  decide

theorem atoiFrom_octal {k n : Nat} (h : asDecimal k n < 2 ^ 31) (s : List Byte) :
    atoiFrom (octal k n ++ s) 0 = atoiFrom s (asDecimal k n) := by
  induction k generalizing n s with
  | zero => rfl
  | succ k ih =>
      have hdigit := octalDigit_toInt n
      have hne : (BitVec.ofNat 8 (48 + n % 8) : Byte) ≠ 0#8 := by
        rw [Ne, ← toInt_eq_zero_iff, hdigit]
        omega
      have hstep : ((asDecimal k (n / 8) : Nat) : Int) * 10 + (48 + (n % 8 : Nat)) - 48
          = ((asDecimal k (n / 8) * 10 + n % 8 : Nat) : Int) := by
        push_cast
        omega
      rw [asDecimal] at h ⊢
      rw [octal, List.append_assoc, ih (by omega), List.singleton_append, atoiFrom, if_neg hne,
        if_pos (by rw [hdigit]; omega), hdigit, hstep, int32_of_nat h]

theorem asDecimal_lt {c : Nat} (hc : c ≤ 8) : ∀ {j k n : Nat}, n < c * 8 ^ j →
    asDecimal k n < c * 10 ^ j
  | 0, k, n, h => by
      have hn : n < c := by simpa using h
      have hzero : ∀ k, asDecimal k 0 = 0 := fun k => by
        induction k with
        | zero => rfl
        | succ k ih => simp [asDecimal, ih]
      cases k with
      | zero => simpa [asDecimal] using Nat.lt_of_le_of_lt (Nat.zero_le n) hn
      | succ k =>
          rw [asDecimal, Nat.div_eq_of_lt (by omega), hzero]
          simp
          omega
  | j + 1, 0, n, h => by
      have : 0 < c := Nat.pos_of_ne_zero fun hz => by simp [hz] at h
      exact Nat.mul_pos this (Nat.pow_pos (by decide))
  | j + 1, k + 1, n, h => by
      have hdiv : n / 8 < c * 8 ^ j := by
        rw [pow_succ, ← Nat.mul_assoc] at h
        exact Nat.div_lt_of_lt_mul (by omega)
      have ih := asDecimal_lt hc (k := k) hdiv
      rw [asDecimal, pow_succ, ← Nat.mul_assoc]
      omega

theorem pow_eight {i : Nat} (h : i ≤ 21) : pow 8 i = 8 ^ i := by
  induction i with
  | zero => rfl
  | succ i ih =>
      have hle : 8 ^ (i + 1) ≤ 8 ^ 21 := Nat.pow_le_pow_right (by decide) h
      rw [pow, ih (by omega), ← Nat.pow_succ]
      exact Nat.mod_eq_of_lt (by omega)

theorem oToDFrom_asDecimal {k n fuel i ans : Nat} (hn : n < 8 ^ k) (hfuel : asDecimal k n ≤ fuel)
    (hi : i + k ≤ 21) (hlt : ans + n * 8 ^ i < 2 ^ 31) :
    oToDFrom fuel (asDecimal k n) i ans = (ans + n * 8 ^ i : Nat) := by
  induction k generalizing n fuel i ans with
  | zero =>
      have hn : n = 0 := by simpa using hn
      cases fuel with
      | zero => simp [oToDFrom, hn]
      | succ fuel => simp [oToDFrom, asDecimal, hn]
  | succ k ih =>
      have hdiv : n / 8 < 8 ^ k := Nat.div_lt_of_lt_mul (by rwa [Nat.pow_succ, Nat.mul_comm] at hn)
      have hsum : n * 8 ^ i = n % 8 * 8 ^ i + n / 8 * 8 ^ (i + 1) := by
        rw [Nat.pow_succ, Nat.mul_comm (8 ^ i) 8, ← Nat.mul_assoc, ← Nat.add_mul]
        congr 1
        omega
      rw [asDecimal] at hfuel ⊢
      by_cases hzero : asDecimal k (n / 8) * 10 + n % 8 = 0
      · have hrest := ih (n := n / 8) hdiv (Nat.le_refl _) (show i + 1 + k ≤ 21 by omega)
          (show ans + n / 8 * 8 ^ (i + 1) < 2 ^ 31 by omega)
        have hdec : asDecimal k (n / 8) = 0 := by omega
        have hmod : n % 8 = 0 := by omega
        rw [hdec, oToDFrom] at hrest
        simp only [hsum, hmod, hdec, Nat.zero_mul, Nat.zero_add]
        rw [← hrest]
        cases fuel <;> rfl
      · obtain ⟨fuel, rfl⟩ := Nat.exists_eq_add_one_of_ne_zero (show fuel ≠ 0 by omega)
        have hten : (asDecimal k (n / 8) * 10 + n % 8) / 10 = asDecimal k (n / 8) := by omega
        have hone : (asDecimal k (n / 8) * 10 + n % 8) % 10 = n % 8 := by omega
        have hans : (ans : Int) + (n % 8 * 8 ^ i : Nat) = (ans + n % 8 * 8 ^ i : Nat) := by
          push_cast
          rfl
        rw [oToDFrom, if_neg hzero, hten, hone, pow_eight (by omega), hans,
          int32_of_nat (by omega), ih hdiv (by omega) (by omega) (by omega), hsum]
        congr 1
        omega

theorem headD_octal (k n : Nat) (s : List Byte) :
    48 ≤ ((octal (k + 1) n ++ s).headD 0#8).toInt := by
  induction k generalizing n s with
  | zero =>
      have := octalDigit_toInt n
      simp only [octal, List.nil_append, List.singleton_append, List.headD_cons]
      omega
  | succ k ih =>
      rw [octal, List.append_assoc]
      exact ih (n / 8) _

/-- **Sizes are read back.** The octal digits of a number below `2 ^ 28`
go through `atoi` and `o_to_d` unharmed. -/
theorem oToD_atoi_octal {n : Nat} (h : n < 2 ^ 28) (s : List Byte) :
    oToD (atoi (octal 11 n ++ 0#8 :: s)) = n := by
  have hdec : asDecimal 11 n < 2 ^ 31 := by
    have hlt : n < 2 * 8 ^ 9 := by omega
    have := @asDecimal_lt 2 (by decide) 9 11 n hlt
    omega
  have hhead := headD_octal 10 n (0#8 :: s)
  have hminus : (octal 11 n ++ 0#8 :: s).headD 0#8 ≠ ascii '-' := fun heq => by
    rw [heq] at hhead
    exact absurd hhead (by decide)
  have hplus : (octal 11 n ++ 0#8 :: s).headD 0#8 ≠ ascii '+' := fun heq => by
    rw [heq] at hhead
    exact absurd hhead (by decide)
  have hatoi : atoi (octal 11 n ++ 0#8 :: s) = asDecimal 11 n := by
    rw [atoi, if_neg hminus, if_neg hplus, atoiFrom_octal hdec, atoiFrom, if_pos rfl,
      Option.elim_some, Int.mul_one, int32_of_nat hdec]
  have hread : oToDFrom (asDecimal 11 n) (asDecimal 11 n) 0 (0 : Nat) = (0 + n * 8 ^ 0 : Nat) :=
    oToDFrom_asDecimal (by omega) (Nat.le_refl _) (by decide) (by omega)
  rw [hatoi, oToD, Int.toNat_natCast]
  simpa using hread

end SnowOs
