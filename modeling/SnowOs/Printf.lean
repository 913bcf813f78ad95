import SnowOs.StatusLine

/-!
# Formatted output (`sys/kprintf.c`, `libc/printf.c`)

The kernel and the library have the same code for formatted output, over
different output functions: the kernel prints on the console, the library
writes to descriptor 1. A `Printer` is such a pair of functions, and either
prints the text of its format (`format_eq`), character by character.

Numbers pass through a `uint64_t`. For the hexadecimal ones that is right:
sixteen digits, the two characters in front and the NUL are the 19 bytes of
`buf` (`printHex_shows`). The decimal ones are an `int` that is
extended to 64 bits, and the test for a sign is made on the unsigned number;
it never holds, so a negative number is printed as the large one it has
become (`printsInt_iff`).
-/

namespace SnowOs

/-! ## The code -/

/-- `format_type`. -/
inductive FormatType where
  | string
  | int
  | hex
  | void
  | char
deriving DecidableEq, Repr

def formatType (c : Byte) : Option FormatType :=
  if c = ascii 'c' then some .char
  else if c = ascii 's' then some .string
  else if c = ascii 'd' then some .int
  else if c = ascii 'x' then some .hex
  else if c = ascii 'p' then some .void
  else none

/-- The arguments, one in each slot of eight bytes, and the strings in
memory. -/
structure VaList where
  slot : Nat → Word
  strings : Word → List Byte

def VaList.int (va : VaList) (argNumber : Nat) : BitVec 32 := (va.slot argNumber).setWidth 32

def mod (x : Word) : Word := if x > 0 then x else -x

def hexDigit (remain : Nat) : Byte :=
  if remain < 10 then BitVec.ofNat 8 (48 + remain) else BitVec.ofNat 8 (65 + (remain - 10))

/-- The functions the output goes through. -/
structure Printer (σ : Type) where
  printChar : σ → Byte → σ
  printString : σ → List Byte → σ
  printString_eq : ∀ s c, printString s c = (cString c).foldl printChar s

namespace Printer

variable {σ : Type} (P : Printer σ)

/-- `printLong`, with the stack around `buf`. -/
def printLong (s : σ) (x : Word) (stack : Cells Byte 0#8) : σ × Cells Byte 0#8 :=
  let w : Writer Byte 0#8 := ⟨65, stack.watch 65⟩
  let w := w.push 0#8
  let numCopy := mod x
  let w := w.pushDigits decimalDigit 10 numCopy.toNat
  if x < 0 then
    let buf := w.cells.put w.i (ascii '-')
    (P.printString s (buf.read (· ≠ 0#8) w.i), buf)
  else (P.printString s (w.cells.read (· ≠ 0#8) (w.i + 1)), w.cells)

/-- `printHex`, with the stack around `buf`. A shift by four bits is a
division by 16. -/
def printHex (s : σ) (x : Word) (includePrefix : Int) (stack : Cells Byte 0#8) :
    σ × Cells Byte 0#8 :=
  let w : Writer Byte 0#8 := ⟨18, stack.watch 18⟩
  let w := w.push 0#8
  let numCopy := mod x
  let w := w.pushDigits hexDigit 16 numCopy.toNat
  if includePrefix = 0 then (P.printString s (w.cells.read (· ≠ 0#8) (w.i + 1)), w.cells)
  else
    let w := w.push (ascii 'x')
    let buf := w.cells.put w.i (ascii '0')
    (P.printString s (buf.read (· ≠ 0#8) w.i), buf)

def printSpecial (va : VaList) (stack : Cells Byte 0#8) (s : σ) (argNumber : Nat) :
    FormatType → σ
  | .string => P.printString s (va.strings (va.slot argNumber))
  | .int => (P.printLong s ((va.int argNumber).signExtend 64) stack).1
  | .hex => (P.printHex s (va.slot argNumber) 0 stack).1
  | .void => (P.printHex s (va.slot argNumber) 1 stack).1
  | .char => P.printChar s ((va.slot argNumber).setWidth 8)

/-- The loop over the format. A `%` without a conversion is skipped. -/
def format (va : VaList) (stack : Cells Byte 0#8) : List Byte → Nat → σ → σ
  | [], _, s => s
  | [c], _, s => if c = 0#8 ∨ c = ascii '%' then s else P.printChar s c
  | c :: d :: fmt, argNumber, s =>
      if c = 0#8 then s
      else if c = ascii '%' then
        match formatType d with
        | some ft =>
            format va stack fmt (argNumber + 1) (P.printSpecial va stack s argNumber ft)
        | none => format va stack (d :: fmt) argNumber s
      else format va stack (d :: fmt) argNumber (P.printChar s c)

end Printer

/-- The output of the kernel: the console, and the characters printed on it
so far. -/
def kernelPrinter : Printer (Console × List Byte) where
  printChar s c := (s.1.printChar c, s.2 ++ [c])
  printString s c := (cString c).foldl (fun s c => (s.1.printChar c, s.2 ++ [c])) s
  printString_eq _ _ := rfl

/-- `printLong` of the kernel. -/
def printLong := kernelPrinter.printLong

/-- `printHex` of the kernel. -/
def printHex := kernelPrinter.printHex

def kprintf (fmt : List Byte) (va : VaList) (stack : Cells Byte 0#8) :
    Console × List Byte → Console × List Byte :=
  kernelPrinter.format va stack fmt 0

theorem foldl_append_singleton {α : Type} (s l : List α) :
    l.foldl (fun s c => s ++ [c]) s = s ++ l := by
  induction l generalizing s with
  | nil => simp
  | cons c l ih => simp [ih]

namespace Libc

def strlen (s : List Byte) : Nat := (cString s).length

/-- `puts`, on the bytes written to descriptor 1 so far. -/
def puts (out s : List Byte) : List Byte := out ++ s.take (strlen s)

/-- `putchar`, on the bytes written to descriptor 1 so far. -/
def putchar (out : List Byte) (c : Byte) : List Byte := out ++ [c]

theorem take_strlen (s : List Byte) : s.take (strlen s) = cString s :=
  (List.prefix_iff_eq_take.mp (List.takeWhile_prefix _)).symm

/-- The output of the library. -/
def printer : Printer (List Byte) where
  printChar := putchar
  printString := puts
  printString_eq out s := by
    rw [puts, take_strlen]
    exact (foldl_append_singleton out _).symm

/-- `printLong` of the library. -/
def printLong := printer.printLong

/-- `printHex` of the library. -/
def printHex := printer.printHex

def printf (fmt : List Byte) (va : VaList) (stack : Cells Byte 0#8) : List Byte → List Byte :=
  printer.format va stack fmt 0

end Libc

/-! ## What is printed -/

def hexAlphabet : List Byte := "0123456789ABCDEF".toList.map ascii

def hexText (n : Nat) : List Byte := (numeral 16 n).map hexDigit

/-- The number a hexadecimal text stands for. -/
def readHex (text : List Byte) : Nat :=
  text.foldl (fun v c => v * 16 + if c.toNat ≤ 57 then c.toNat - 48 else c.toNat - 55) 0

def hexPrefix (includePrefix : Int) : List Byte :=
  if includePrefix = 0 then [] else [ascii '0', ascii 'x']

/-- The text is the canonical hexadecimal of the number, in upper case. -/
structure ShowsHex (x : Word) (includePrefix : Int) (text : List Byte) : Prop where
  canonical : ∃ ds, IsNumeral 16 x.toNat ds ∧
    text = hexPrefix includePrefix ++ ds.map fun d => hexAlphabet.getD d 0#8
  readBack : readHex (text.drop (hexPrefix includePrefix).length) = x.toNat

def specialText (va : VaList) (argNumber : Nat) : FormatType → List Byte
  | .string => cString (va.strings (va.slot argNumber))
  | .int => decimalText ((va.int argNumber).signExtend 64).toNat
  | .hex => hexText (va.slot argNumber).toNat
  | .void => hexPrefix 1 ++ hexText (va.slot argNumber).toNat
  | .char => [(va.slot argNumber).setWidth 8]

def formatText (va : VaList) : List Byte → Nat → List Byte
  | [], _ => []
  | [c], _ => if c = 0#8 ∨ c = ascii '%' then [] else [c]
  | c :: d :: fmt, argNumber =>
      if c = 0#8 then []
      else if c = ascii '%' then
        match formatType d with
        | some ft => specialText va argNumber ft ++ formatText va fmt (argNumber + 1)
        | none => formatText va (d :: fmt) argNumber
      else c :: formatText va (d :: fmt) argNumber

section Numbers

open Writer Cells

variable {σ : Type} {P : Printer σ} {s : σ} {x : Word}

/-- The odd helper changes nothing: the one number that is not positive is
its own negative. -/
theorem mod_eq (x : Word) : mod x = x := by
  rw [mod]
  split
  · rfl
  · next h =>
      have hzero : x = 0 := BitVec.eq_of_toNat_eq (Nat.le_zero.mp (Nat.le_of_not_lt h))
      rw [hzero]
      rfl

theorem toNat_hexDigit {d : Nat} (hd : d < 16) :
    (hexDigit d).toNat = if d < 10 then 48 + d else 55 + d := by
  rw [hexDigit]
  split
  · rw [BitVec.toNat_ofNat]
    omega
  · rw [BitVec.toNat_ofNat]
    omega

theorem hexText_ne {n : Nat} {c : Byte} (hc : c ∈ hexText n) : c ≠ 0#8 := by
  obtain ⟨d, hd, rfl⟩ := List.mem_map.mp hc
  have hd := toNat_hexDigit (numeral_lt (Nat.one_lt_succ_succ 14) hd)
  intro hzero
  rw [hzero] at hd
  split at hd
  · exact absurd hd (by rw [BitVec.toNat_ofNat]; omega)
  · exact absurd hd (by rw [BitVec.toNat_ofNat]; omega)

theorem hexPrefix_ne {includePrefix : Int} {c : Byte} (hc : c ∈ hexPrefix includePrefix) :
    c ≠ 0#8 := by
  rw [hexPrefix] at hc
  split at hc
  · cases hc
  · rcases List.mem_cons.mp hc with rfl | hc
    · decide
    · rw [List.mem_singleton.mp hc]
      decide

theorem readHex_hexText (n : Nat) : readHex (hexText n) = n := by
  have hnum := numeral_isNumeral (Nat.one_lt_succ_succ 14) n
  refine (foldl_digits (fun d hd => ?_) hnum.lt).trans hnum.value
  have htoNat := toNat_hexDigit hd
  rw [htoNat]
  split
  · rw [if_pos (by omega), Nat.add_sub_cancel_left]
  · rw [if_neg (by omega), Nat.add_sub_cancel_left]

theorem hexDigit_eq : ∀ d < 16, hexDigit d = hexAlphabet.getD d 0#8 := by decide

theorem hexText_shows (x : Word) (includePrefix : Int) :
    ShowsHex x includePrefix (hexPrefix includePrefix ++ hexText x.toNat) := by
  have hnum := numeral_isNumeral (Nat.one_lt_succ_succ 14) x.toNat
  refine ⟨⟨numeral 16 x.toNat, hnum, ?_⟩, ?_⟩
  · rw [hexText, List.map_congr_left fun d hd => hexDigit_eq d (hnum.lt d hd)]
  · rw [List.drop_left, readHex_hexText]

theorem printString_text (P : Printer σ) (s : σ) {text : List Byte} (htext : ∀ c ∈ text, c ≠ 0#8) :
    P.printString s text = text.foldl P.printChar s := by
  rw [P.printString_eq, cString_eq_self fun h => htext _ h rfl]

/-- The stores of `printLong`, of which the sign is never one. -/
theorem printLong_writes (P : Printer σ) (s : σ) (x : Word) (stack : Cells Byte 0#8) :
    ∃ w, Writes (⟨65, stack.watch 65⟩ : Writer Byte 0#8) (decimalText x.toNat ++ [0#8]) w ∧
      P.printLong s x stack = (P.printString s (w.cells.read (· ≠ 0#8) (w.i + 1)), w.cells) := by
  have hwrites : Writes (⟨65, stack.watch 65⟩ : Writer Byte 0#8) (decimalText x.toNat ++ [0#8]) _ :=
    (push_writes _ 0#8).trans (pushDigits_writes decimalDigit (Nat.one_lt_succ_succ 8) _ _)
  have hsign : ¬ x < 0 := Nat.not_lt_zero x.toNat
  rw [Printer.printLong, mod_eq]
  simp only [if_neg hsign]
  exact ⟨_, hwrites, rfl⟩

theorem printLong_text (P : Printer σ) (s : σ) (x : Word) (stack : Cells Byte 0#8) :
    (P.printLong s x stack).1 = (decimalText x.toNat).foldl P.printChar s := by
  obtain ⟨w, hwrites, hprint⟩ := printLong_writes P s x stack
  have hread := hwrites.read (p := (· ≠ 0#8)) (by decide)
    fun c hc => decide_eq_true (mem_decimalText_ne hc)
  rw [hprint, hread, printString_text P s fun c hc => mem_decimalText_ne hc]

theorem printHex_writes (P : Printer σ) (s : σ) (x : Word) (includePrefix : Int)
    (stack : Cells Byte 0#8) : ∃ w, Writes (⟨18, stack.watch 18⟩ : Writer Byte 0#8)
        (hexPrefix includePrefix ++ hexText x.toNat ++ [0#8]) w ∧
      P.printHex s x includePrefix stack
        = (P.printString s (w.cells.read (· ≠ 0#8) (w.i + 1)), w.cells) := by
  have hwrites : Writes (⟨18, stack.watch 18⟩ : Writer Byte 0#8) (hexText x.toNat ++ [0#8]) _ :=
    (push_writes _ 0#8).trans (pushDigits_writes hexDigit (Nat.one_lt_succ_succ 14) _ _)
  rw [Printer.printHex, mod_eq, hexPrefix]
  by_cases hinclude : includePrefix = 0
  · rw [if_pos hinclude, if_pos hinclude]
    exact ⟨_, hwrites, rfl⟩
  · have hboth := (hwrites.trans (push_writes _ (ascii 'x'))).trans (push_writes _ (ascii '0'))
    rw [if_neg hinclude, if_neg hinclude]
    refine ⟨_, hboth, ?_⟩
    simp only [push, Int.sub_add_cancel]

theorem printHex_text (P : Printer σ) (s : σ) (x : Word) (includePrefix : Int)
    (stack : Cells Byte 0#8) : (P.printHex s x includePrefix stack).1
      = (hexPrefix includePrefix ++ hexText x.toNat).foldl P.printChar s := by
  obtain ⟨w, hwrites, hprint⟩ := printHex_writes P s x includePrefix stack
  have hne : ∀ c ∈ hexPrefix includePrefix ++ hexText x.toNat, c ≠ 0#8 := by
    intro c hc
    rcases List.mem_append.mp hc with hc | hc
    · exact hexPrefix_ne hc
    · exact hexText_ne hc
  have hread := hwrites.read (p := (· ≠ 0#8)) (by decide) fun c hc => decide_eq_true (hne c hc)
  rw [hprint, hread, printString_text P s hne]

/-- Sixteen digits, the characters in front and the NUL fill the buffer. -/
theorem printHex_within (P : Printer σ) (s : σ) (x : Word) (includePrefix : Int)
    (stack : Cells Byte 0#8) : (P.printHex s x includePrefix stack).2.Within 19 := by
  obtain ⟨w, hwrites, hprint⟩ := printHex_writes P s x includePrefix stack
  have hdigits : (hexText x.toNat).length ≤ 16 := by
    rw [hexText, List.length_map]
    exact length_numeral_le (Nat.one_lt_succ_succ 14) (Nat.succ_pos 15) x.isLt
  have hinclude : (hexPrefix includePrefix).length ≤ 2 := by
    rw [hexPrefix]
    split
    · exact Nat.zero_le 2
    · exact le_rfl
  have hplace := hwrites.place
  rw [List.length_append, List.length_append, List.length_singleton] at hplace
  simp only at hplace
  rw [hprint]
  refine (hwrites.within 19).mpr ⟨watch_within.mpr (by decide), fun _ => ⟨?_, ?_⟩⟩
  · omega
  · exact Int.lt_succ 18

end Numbers

theorem printSpecial_eq {σ : Type} (P : Printer σ) (va : VaList) (stack : Cells Byte 0#8) (s : σ)
    (argNumber : Nat) (ft : FormatType) : P.printSpecial va stack s argNumber ft
      = (specialText va argNumber ft).foldl P.printChar s := by
  cases ft with
  | string => exact P.printString_eq ..
  | int => exact printLong_text ..
  | hex => exact printHex_text ..
  | void => exact printHex_text ..
  | char => rfl

/-- **What is printed** is the text of the format, whatever the output goes
through. -/
theorem Printer.format_eq {σ : Type} (P : Printer σ) (va : VaList) (stack : Cells Byte 0#8) :
    ∀ (fmt : List Byte) (argNumber : Nat) (s : σ), P.format va stack fmt argNumber s
      = (formatText va fmt argNumber).foldl P.printChar s
  | [], _, _ => rfl
  | [c], _, s => by
      rw [format, formatText]
      split
      · rfl
      · rfl
  | c :: d :: fmt, argNumber, s => by
      rw [format, formatText]
      by_cases hnul : c = 0#8
      · rw [if_pos hnul, if_pos hnul]
        rfl
      · rw [if_neg hnul, if_neg hnul]
        by_cases hpercent : c = ascii '%'
        · rw [if_pos hpercent, if_pos hpercent]
          cases formatType d with
          | some ft =>
              simp only
              rw [format_eq P va stack fmt, printSpecial_eq, List.foldl_append]
          | none => exact format_eq P va stack (d :: fmt) argNumber s
        · rw [if_neg hpercent, if_neg hpercent, format_eq P va stack (d :: fmt), List.foldl_cons]

theorem foldl_kernel (text : List Byte) (s : Console × List Byte) :
    text.foldl kernelPrinter.printChar s = (text.foldl Console.printChar s.1, s.2 ++ text) := by
  induction text generalizing s with
  | nil => simp
  | cons c text ih =>
      rw [List.foldl_cons, ih, List.foldl_cons]
      simp [kernelPrinter]

theorem foldl_library (text out : List Byte) :
    text.foldl Libc.printer.printChar out = out ++ text :=
  foldl_append_singleton out text

/-- **Hexadecimal output**, in both copies: what is printed is the canonical
text of the number, and all stores are in `buf`. -/
theorem printHex_shows (x : Word) (includePrefix : Int) (stack : Cells Byte 0#8)
    (s : Console × List Byte) (out : List Byte) :
    ∃ text, ShowsHex x includePrefix text ∧
      (printHex s x includePrefix stack).1 = (text.foldl Console.printChar s.1, s.2 ++ text) ∧
      (printHex s x includePrefix stack).2.Within 19 ∧
      (Libc.printHex out x includePrefix stack).1 = out ++ text ∧
      (Libc.printHex out x includePrefix stack).2.Within 19 := by
  refine ⟨_, hexText_shows x includePrefix, ?_, printHex_within .., ?_, printHex_within ..⟩
  · exact (printHex_text ..).trans (foldl_kernel ..)
  · exact (printHex_text ..).trans (foldl_library ..)

/-! ## Decimal output -/

def percentD : List Byte := "%d".toList.map ascii

section Decimal

variable {v : Int}

theorem ShowsInt.nonneg {n : Nat} (h : ShowsInt v (decimalText n)) : 0 ≤ v := by
  by_contra hneg
  obtain ⟨ds, -, htext⟩ := h.canonical
  obtain ⟨c, text, hhead, hc⟩ := head_decimalText n
  rw [hhead, signText, if_pos (Int.not_le.mp hneg), List.singleton_append] at htext
  exact ne_of_isDigit hc (by decide) (List.cons.inj htext).1

theorem toNat_of_toInt_nonneg {x : Word} (h : 0 ≤ x.toInt) : x.toNat = x.toInt.natAbs := by
  have hmagnitude := toNat_magnitude x
  rwa [magnitude, if_pos h] at hmagnitude

/-- The extended number has the decimal of the `int` exactly if that is not
negative. -/
theorem showsInt_signExtend_iff (v : BitVec 32) :
    ShowsInt v.toInt (decimalText (v.signExtend 64).toNat) ↔ 0 ≤ v.toInt := by
  refine ⟨ShowsInt.nonneg, fun h => ?_⟩
  have hshows := signedText_shows v.toInt
  rw [signedText, signText, if_neg (Int.not_lt.mpr h), List.nil_append] at hshows
  rwa [toNat_of_toInt_nonneg (by rwa [toInt_signExtend]), toInt_signExtend]

end Decimal

theorem formatText_percentD (va : VaList) :
    formatText va percentD 0 = decimalText ((va.int 0).signExtend 64).toNat := by
  have hfmt : percentD = [ascii '%', ascii 'd'] := rfl
  have hpercent : ascii '%' ≠ 0#8 := by decide
  have hint : formatType (ascii 'd') = some .int := by decide
  rw [hfmt, formatText, if_neg hpercent, if_pos rfl, hint]
  exact List.append_nil _

theorem kprintf_percentD (va : VaList) (stack : Cells Byte 0#8) (s : Console) :
    (kprintf percentD va stack (s, [])).2 = decimalText ((va.int 0).signExtend 64).toNat := by
  rw [kprintf, Printer.format_eq, foldl_kernel, formatText_percentD, List.nil_append]

theorem printf_percentD (va : VaList) (stack : Cells Byte 0#8) :
    Libc.printf percentD va stack [] = decimalText ((va.int 0).signExtend 64).toNat := by
  rw [Libc.printf, Printer.format_eq, foldl_library, formatText_percentD, List.nil_append]

/-- **Decimal output**: `%d` prints the canonical decimal of its argument
exactly if that is not negative, in both copies. -/
theorem printsInt_iff (va : VaList) (stack : Cells Byte 0#8) (s : Console) :
    (ShowsInt (va.int 0).toInt (kprintf percentD va stack (s, [])).2 ↔ 0 ≤ (va.int 0).toInt) ∧
      (ShowsInt (va.int 0).toInt (Libc.printf percentD va stack []) ↔ 0 ≤ (va.int 0).toInt) := by
  rw [kprintf_percentD, printf_percentD]
  exact ⟨showsInt_signExtend_iff _, showsInt_signExtend_iff _⟩

def minusOne : VaList := { slot := fun _ => 0xFFFFFFFF, strings := fun _ => [] }

theorem printf_minusOne :
    (minusOne.int 0).toInt = -1 ∧
      (kprintf percentD minusOne Cells.clear ({ video := Cells.clear }, [])).2
        = "18446744073709551615".toList.map ascii ∧
      Libc.printf percentD minusOne Cells.clear [] = "18446744073709551615".toList.map ascii ∧
      ¬ ShowsInt (-1) ("18446744073709551615".toList.map ascii) := by
  have htext : decimalText ((minusOne.int 0).signExtend 64).toNat
      = "18446744073709551615".toList.map ascii := by
    decide +kernel
  refine ⟨by decide, ?_, ?_, ?_⟩
  · rw [kprintf_percentD, htext]
  · rw [printf_percentD, htext]
  · rw [← htext]
    exact fun h => absurd h.nonneg (by decide)

end SnowOs
