import SnowOs.Digits
import SnowOs.TarHeader

/-!
# Numbers as text (`itoa` and `atoi`)

`itoa` counts the digits of a number first and then writes them from the
last one on, so the count decides where the text begins. The smallest
number has no negative in its type; modulo `2 ^ 64` the negation gives it
back, and as a `uint64_t` that is its magnitude after all.

`ShowsInt` is what a decimal text owes to its number: the sign, the digits
without leading zeros, and that it can be read back. The text `itoa`
writes is such a one, for every 64-bit number, and fills the first bytes of
the buffer exactly; `atoi` reads it back for every 32-bit number
(`itoa_atoi`). The library's copies differ in what `atoi` returns for a text
that is not a number.
-/

namespace SnowOs

/-! ## Decimal texts -/

def decimalDigit (d : Nat) : Byte := BitVec.ofNat 8 (48 + d)

def decimalText (n : Nat) : List Byte := (numeral 10 n).map decimalDigit

def signText (v : Int) : List Byte := if v < 0 then [ascii '-'] else []

/-- The number a decimal text stands for. -/
def readInt (text : List Byte) : Int :=
  if text.head? = some (ascii '-') then -(decimal 0 text.tail : Nat) else (decimal 0 text : Nat)

/-- The text is the canonical decimal of the number. -/
structure ShowsInt (v : Int) (text : List Byte) : Prop where
  canonical : ∃ ds, IsNumeral 10 v.natAbs ds ∧ text = signText v ++ ds.map decimalDigit
  readBack : readInt text = v

section Text

variable {n d : Nat} {c : Byte}

theorem toNat_decimalDigit (hd : d < 10) : (decimalDigit d).toNat = 48 + d := by
  rw [decimalDigit, BitVec.toNat_ofNat]
  omega

theorem isDigit_decimalDigit (hd : d < 10) : isDigit (decimalDigit d) = true := by
  rw [isDigit, decide_eq_true_iff, toNat_decimalDigit hd]
  omega

theorem isDigit_of_mem_decimalText (hc : c ∈ decimalText n) : isDigit c = true := by
  obtain ⟨d, hd, rfl⟩ := List.mem_map.mp hc
  exact isDigit_decimalDigit (numeral_lt (Nat.one_lt_succ_succ 8) hd)

theorem ne_of_isDigit (hc : isDigit c = true) {b : Byte} (hb : b.toNat < 48) : c ≠ b := by
  rintro rfl
  rw [isDigit, decide_eq_true_iff] at hc
  exact absurd hc.1 (Nat.not_le_of_lt hb)

theorem mem_decimalText_ne (hc : c ∈ decimalText n) : c ≠ 0#8 :=
  ne_of_isDigit (isDigit_of_mem_decimalText hc) (Nat.succ_pos 47)

theorem decimalText_ne_nil (n : Nat) : decimalText n ≠ [] := fun h =>
  (numeral_isNumeral (Nat.one_lt_succ_succ 8) n).ne_nil (List.map_eq_nil_iff.mp h)

/-- A decimal text begins with a digit. -/
theorem head_decimalText (n : Nat) :
    ∃ c text, decimalText n = c :: text ∧ isDigit c = true := by
  obtain ⟨c, text, htext⟩ := List.exists_cons_of_ne_nil (decimalText_ne_nil n)
  exact ⟨c, text, htext, isDigit_of_mem_decimalText (htext ▸ List.mem_cons_self ..)⟩

theorem decimal_decimalText (n : Nat) : decimal 0 (decimalText n) = n := by
  have hnum := numeral_isNumeral (Nat.one_lt_succ_succ 8) n
  have hdigit : ∀ d < 10, (fun c : Byte => c.toNat - 48) (decimalDigit d) = d := by
    intro d hd
    simp only [toNat_decimalDigit hd, Nat.add_sub_cancel_left]
  exact (foldl_digits hdigit hnum.lt).trans hnum.value

/-- The decimal text of a number, with its sign. -/
def signedText (v : Int) : List Byte := signText v ++ decimalText v.natAbs

theorem readInt_signedText (v : Int) : readInt (signedText v) = v := by
  obtain ⟨c, text, htext, hc⟩ := head_decimalText v.natAbs
  have hvalue := decimal_decimalText v.natAbs
  rw [signedText, signText]
  by_cases hv : v < 0
  · rw [if_pos hv, List.singleton_append, readInt, List.head?_cons, if_pos rfl, List.tail_cons,
      hvalue]
    omega
  · have hhead : (decimalText v.natAbs).head? ≠ some (ascii '-') := by
      rw [htext, List.head?_cons]
      exact fun h => ne_of_isDigit hc (by decide) (Option.some.inj h)
    rw [if_neg hv, List.nil_append, readInt, if_neg hhead, hvalue]
    omega

theorem signedText_shows (v : Int) : ShowsInt v (signedText v) where
  canonical := ⟨numeral 10 v.natAbs, numeral_isNumeral (Nat.one_lt_succ_succ 8) _, rfl⟩
  readBack := readInt_signedText v

theorem signedText_ne {v : Int} (hc : c ∈ signedText v) : c ≠ 0#8 := by
  rcases List.mem_append.mp hc with hsign | hdigit
  · rw [signText] at hsign
    split at hsign
    · rw [List.mem_singleton.mp hsign]
      decide
    · cases hsign
  · exact mem_decimalText_ne hdigit

end Text

/-! ## The code -/

/-- The loop that counts the digits; it divides by ten each round, so `bkup`
rounds are enough. -/
def countDigits : Nat → Nat → Nat
  | 0, _ => 0
  | fuel + 1, bkup => if bkup = 0 then 0 else countDigits fuel (bkup / 10) + 1

def magnitude (val : Word) : Word := if 0 ≤ val.toInt then val else -val

def itoa (buf : Cells Byte 0#8) (val : Word) : Cells Byte 0#8 :=
  if val = 0 then (buf.put 0 (ascii '0')).put 1 0#8
  else
    let bkup := (magnitude val).toNat
    let nDigits := countDigits bkup bkup
    let i := if val.toInt < 0 then nDigits + 1 else nDigits
    let w : Writer Byte 0#8 := ⟨i, buf⟩
    let w := w.push 0#8
    let w := w.pushDigits decimalDigit 10 (magnitude val).toNat
    if val.toInt < 0 then w.cells.put w.i (ascii '-') else w.cells

/-- The two `atoi`s, which return `e` for a text that is not a number. -/
def atoiOr (e : Int) (str : List Byte) : Int :=
  if str.headD 0#8 = ascii '-' then (atoiFrom str.tail 0).elim e fun ans => int32 (ans * -1)
  else if str.headD 0#8 = ascii '+' then (atoiFrom str.tail 0).elim e fun ans => int32 (ans * 1)
  else (atoiFrom str 0).elim e fun ans => int32 (ans * 1)

namespace Libc

def itoaCl (buf : Cells Byte 0#8) (val : Word) : Cells Byte 0#8 := itoa buf val

def atoi (str : List Byte) : Int := atoiOr (-1) str

end Libc

def stringAt (c : Cells Byte 0#8) : List Byte := c.read (· ≠ 0#8) 0

/-- A function for `itoa` stores the canonical decimal with its NUL, and
accesses no byte before or behind it. -/
def StoresInt (f : Cells Byte 0#8 → Word → Cells Byte 0#8) (buf : Cells Byte 0#8) (val : Word) :
    Prop :=
  ∃ text, ShowsInt val.toInt text ∧ Cells.Stored (f (buf.watch 0) val).mem 0 (text ++ [0#8]) ∧
    (f (buf.watch 0) val).Within (text.length + 1)

/-! ## What is written -/

section Itoa

open Writer Cells

theorem countDigits_eq {fuel n : Nat} (hfuel : n ≤ fuel) :
    countDigits fuel n = (Nat.digits 10 n).length := by
  induction fuel generalizing n with
  | zero => rw [Nat.le_zero.mp hfuel, countDigits, Nat.digits_zero, List.length_nil]
  | succ fuel ih =>
      rw [countDigits]
      rcases Nat.eq_zero_or_pos n with rfl | hpos
      · rw [if_pos rfl, Nat.digits_zero, List.length_nil]
      · rw [if_neg hpos.ne', Nat.digits_def' (Nat.one_lt_succ_succ 8) hpos, List.length_cons,
          ih (by omega)]

theorem countDigits_eq_length {n : Nat} (hn : n ≠ 0) :
    countDigits n n = (decimalText n).length := by
  rw [countDigits_eq le_rfl, decimalText, List.length_map, numeral, if_neg hn, List.length_reverse]

theorem toNat_magnitude (val : Word) : (magnitude val).toNat = val.toInt.natAbs := by
  have hlt := val.isLt
  rw [magnitude, BitVec.toInt_eq_toNat_cond]
  by_cases hpos : 2 * val.toNat < 2 ^ 64
  · rw [if_pos hpos, if_pos (Int.natCast_nonneg _), Int.natAbs_natCast]
  · have hneg : ¬ (0 : Int) ≤ val.toNat - (2 ^ 64 : Nat) := by omega
    rw [if_neg hpos, if_neg hneg, BitVec.toNat_neg]
    omega

theorem itoa_writes {val : Word} (hval : val ≠ 0) (buf : Cells Byte 0#8) :
    Writes ⟨(signedText val.toInt).length, buf⟩ (signedText val.toInt ++ [0#8])
      ⟨-1, itoa buf val⟩ := by
  have habs : val.toInt.natAbs ≠ 0 := by
    rw [Int.natAbs_ne_zero]
    exact fun h => hval (BitVec.eq_of_toInt_eq (h.trans rfl))
  have hdigits : ∀ w : Writer Byte 0#8, Writes w (decimalText val.toInt.natAbs ++ [0#8])
      ((w.push 0#8).pushDigits decimalDigit 10 val.toInt.natAbs) := fun w =>
    (push_writes w 0#8).trans (pushDigits_writes decimalDigit (Nat.one_lt_succ_succ 8) _ _)
  rw [itoa, if_neg hval, toNat_magnitude, signedText, signText]
  simp only [countDigits_eq_length habs]
  by_cases hneg : val.toInt < 0
  · have hwrites := hdigits ⟨((decimalText val.toInt.natAbs).length + 1 : Nat), buf⟩
    have hsign := hwrites.trans (push_writes _ (ascii '-'))
    have hplace := hwrites.place
    rw [List.length_append, List.length_singleton] at hplace
    simp only [if_pos hneg]
    generalize Writer.pushDigits _ _ _ _ = w at hsign hplace ⊢
    have hw : w.push (ascii '-') = ⟨-1, w.cells.put w.i (ascii '-')⟩ := by
      rw [push, show w.i - 1 = -1 by simp only at hplace; omega]
    rw [hw] at hsign
    rwa [List.length_append, List.length_singleton, Nat.add_comm]
  · have hwrites := hdigits ⟨(decimalText val.toInt.natAbs).length, buf⟩
    have hplace := hwrites.place
    rw [List.length_append, List.length_singleton] at hplace
    simp only [if_neg hneg, List.nil_append]
    generalize Writer.pushDigits _ _ _ _ = w at hwrites hplace ⊢
    have hw : w = ⟨-1, w.cells⟩ := by
      rw [← show w.i = -1 by simp only at hplace; omega]
    rwa [← hw]

theorem itoa_stored (buf : Cells Byte 0#8) (val : Word) :
    Stored (itoa buf val).mem 0 (signedText val.toInt ++ [0#8]) := by
  by_cases hval : val = 0
  · rw [itoa, if_pos hval, hval]
    exact ⟨rfl, rfl, trivial⟩
  · exact (itoa_writes hval buf).stored

theorem itoa_within (buf : Cells Byte 0#8) (val : Word) :
    (itoa (buf.watch 0) val).Within ((signedText val.toInt).length + 1) := by
  by_cases hval : val = 0
  · have hlen : (signedText (BitVec.toInt (0 : Word))).length = 1 := by decide
    rw [itoa, if_pos hval, hval, hlen]
    exact put_within.mpr ⟨put_within.mpr ⟨watch_within.mpr (by decide), by decide⟩, by decide⟩
  · refine ((itoa_writes hval _).within _).mpr ⟨watch_within.mpr ⟨le_rfl, ?_⟩, fun _ => ⟨?_, ?_⟩⟩
    · exact Int.natCast_pos.mpr (Nat.succ_pos _)
    · exact le_rfl
    · exact Int.ofNat_lt.mpr (Nat.lt_succ_self _)

theorem itoa_storesInt (buf : Cells Byte 0#8) (val : Word) : StoresInt itoa buf val :=
  ⟨_, signedText_shows _, itoa_stored _ val, itoa_within buf val⟩

theorem stringAt_itoa (buf : Cells Byte 0#8) (val : Word) :
    stringAt (itoa buf val) = signedText val.toInt :=
  read_eq (itoa_stored buf val) (by decide) (fun c hc => decide_eq_true (signedText_ne hc))
    (by decide)

end Itoa

/-! ## What is read back -/

section Atoi

theorem atoiFrom_decimalText (n : Nat) : atoiFrom (decimalText n) 0 = some (int32 n) := by
  have hzero : 0#8 ∉ decimalText n := fun h => mem_decimalText_ne h rfl
  have hall : (decimalText n).all isDigit = true :=
    List.all_eq_true.mpr fun c hc => isDigit_of_mem_decimalText hc
  have hloop := atoiFrom_eq (decimalText n) 0
  rwa [cString_eq_self hzero, if_pos hall, decimal_decimalText] at hloop

/-- Either `atoi` reads a decimal text modulo `2 ^ 32`. -/
theorem atoiOr_signedText (e v : Int) : atoiOr e (signedText v) = int32 v := by
  rw [signedText, signText, atoiOr]
  by_cases hv : v < 0
  · have habs : (v.natAbs : Int) * -1 = v := by omega
    rw [if_pos hv, List.singleton_append, List.headD_cons, if_pos rfl, List.tail_cons,
      atoiFrom_decimalText, Option.elim_some, int32, int32, Int.bmod_mul_bmod, habs]
    rfl
  · have habs : (v.natAbs : Int) * 1 = v := by omega
    obtain ⟨c, text, htext, hc⟩ := head_decimalText v.natAbs
    have hhead : ∀ b : Byte, b.toNat < 48 → (decimalText v.natAbs).headD 0#8 ≠ b := by
      intro b hb
      rw [htext, List.headD_cons]
      exact ne_of_isDigit hc hb
    rw [if_neg hv, List.nil_append, if_neg (hhead _ (by decide)), if_neg (hhead _ (by decide)),
      atoiFrom_decimalText, Option.elim_some, int32, int32, Int.bmod_mul_bmod, habs]
    rfl

theorem int32_toInt (v : BitVec 32) : int32 v.toInt = v.toInt := by
  rw [int32, BitVec.toInt_eq_toNat_bmod, Int.bmod_bmod]

theorem toInt_signExtend (v : BitVec 32) : (v.signExtend 64).toInt = v.toInt :=
  BitVec.toInt_signExtend_of_le (by decide)

end Atoi

/-- **`itoa` and `atoi`.** Each `atoi` reads back what the `itoa` beside it
writes for a 32-bit number. For a 64-bit number that is its canonical
decimal, from the first byte of the buffer to the NUL behind it. -/
theorem itoa_atoi (buf : Cells Byte 0#8) :
    (∀ v : BitVec 32, atoi (stringAt (itoa buf (v.signExtend 64))) = v.toInt ∧
      Libc.atoi (stringAt (Libc.itoaCl buf (v.signExtend 64))) = v.toInt) ∧
    ∀ val : Word, StoresInt itoa buf val ∧ StoresInt Libc.itoaCl buf val := by
  refine ⟨fun v => ?_, fun val => ⟨itoa_storesInt buf val, itoa_storesInt buf val⟩⟩
  have hread : ∀ e, atoiOr e (stringAt (itoa buf (v.signExtend 64))) = v.toInt := by
    intro e
    rw [stringAt_itoa, atoiOr_signedText, toInt_signExtend, int32_toInt]
  exact ⟨hread 0, hread (-1)⟩

end SnowOs
