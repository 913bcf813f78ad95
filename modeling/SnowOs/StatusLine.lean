import SnowOs.Console
import SnowOs.Itoa

/-!
# The time since boot (`printTime` of `sys/kprintf.c`)

Each tick of the timer rewrites the right half of the status row. The text
is built from its last character on, in the 24 bytes of `buf`, with an index
that only decreases; but the index begins at 0, so all of the text lies in
front of the buffer (`writeTime_writes`), at every tick
(`printTime_never_confined`).
-/

namespace SnowOs

/-! ## A field of the screen -/

/-- The loop that blanks `n` characters from an address on. -/
def Video.blankField (v : Video) (address : Int) (n : Nat) (color : Byte) : Video :=
  (List.range n).foldl (fun v k => Video.store v (address + 2 * (k : Nat)) (ascii ' ') color) v

/-- The loop that stores a text from an address on, without its colors. -/
def Video.putText (v : Video) (address : Int) : List Byte → Video
  | [] => v
  | c :: text => Video.putText (v.put address c) (address + 2) text

/-! ## `printTime` -/

/-- A number of the time, with its unit behind it. -/
def pushUnit (w : Writer Byte 0#8) (unit : Char) (n : Nat) : Writer Byte 0#8 :=
  (w.push (ascii unit)).pushDigits decimalDigit 10 n

/-- What separates two numbers of the time. -/
def pushColon (w : Writer Byte 0#8) : Writer Byte 0#8 :=
  ((w.push (ascii ' ')).push (ascii ':')).push (ascii ' ')

/-- The stores to `buf`, `x` in seconds. The hours are an `int`, which is
exact below `2 ^ 31` of them. -/
def writeTime (x : Nat) (buf : Cells Byte 0#8) : Writer Byte 0#8 :=
  let hh := x / 3600
  let mm := x / 60 % 60
  let ss := x % 60
  let w : Writer Byte 0#8 := ⟨0, buf⟩
  let w := w.push 0#8
  let w := pushUnit w 's' ss
  let w := pushColon w
  let w := pushUnit w 'm' mm
  let w := pushColon w
  pushUnit w 'h' hh

def timeLabel : List Byte := "Time since boot: ".toList.map ascii

def timeAddress : Int := getAddress videoMemRows (videoMemColumns - 40)

/-- `printTime`, with the stack around `buf`. A store outside of the array has
no meaning in C: there is no result then. -/
def printTime (x : Nat) (v : Video) (stack : Cells Byte 0#8) : Option Video :=
  let x := x / 100
  let v := Video.blankField v timeAddress 40 7#8
  -- `buf[0]` is the first byte that is accessed
  let w := writeTime x (stack.watch 0)
  if 0 ≤ w.cells.low ∧ w.cells.high < 24 then
    let c := w.i + 1
    let v := Video.putText v timeAddress timeLabel
    some (Video.putText v (timeAddress + 2 * timeLabel.length) (w.cells.read (· ≠ 0#8) c))
  else
    none

/-! ## What it is to show -/

def timeText (x : Nat) : List Byte :=
  decimalText (x / 3600) ++ "h : ".toList.map ascii ++
    (decimalText (x / 60 % 60) ++ "m : ".toList.map ascii ++
      (decimalText (x % 60) ++ "s".toList.map ascii))

def Video.timeField (v : Video) : List Byte :=
  (Video.row v videoMemRows).drop (videoMemColumns - 40)

/-- The field has the time of `x` ticks, and nothing behind it. -/
def TimeShown (x : Nat) (v : Video) : Prop :=
  ∃ spaces, Video.timeField v
    = timeLabel ++ timeText (x / 100) ++ List.replicate spaces (ascii ' ')

/-- What is expected of `printTime` at `x` ticks: it keeps to `buf`, the time
is on the screen, and the last character is in the status row. -/
def ShowsTime (x : Nat) (v : Video) (stack : Cells Byte 0#8) : Prop :=
  ∃ v', printTime x (v.watch timeAddress) stack = some v' ∧ TimeShown x v' ∧ v'.Within screenSize

section Text

open Writer

variable {x : Nat}

theorem pushUnit_writes (w : Writer Byte 0#8) (unit : Char) (n : Nat) :
    Writes w (decimalText n ++ [ascii unit]) (pushUnit w unit n) :=
  (push_writes w (ascii unit)).trans
    (pushDigits_writes decimalDigit (Nat.one_lt_succ_succ 8) _ n)

theorem pushColon_writes (w : Writer Byte 0#8) :
    Writes w [ascii ' ', ascii ':', ascii ' '] (pushColon w) :=
  ((push_writes w _).trans (push_writes _ _)).trans (push_writes _ _)

/-- The text lies in front of what was at the index, with its NUL. -/
theorem writeTime_writes (x : Nat) (buf : Cells Byte 0#8) :
    Writes ⟨0, buf⟩ (timeText x ++ [0#8]) (writeTime x buf) := by
  have hnul := push_writes (⟨0, buf⟩ : Writer Byte 0#8) 0#8
  have hss := hnul.trans (pushUnit_writes _ 's' (x % 60))
  have hmm := (hss.trans (pushColon_writes _)).trans (pushUnit_writes _ 'm' (x / 60 % 60))
  have hhh := (hmm.trans (pushColon_writes _)).trans (pushUnit_writes _ 'h' (x / 3600))
  have htext : timeText x ++ [0#8]
      = (decimalText (x / 3600) ++ [ascii 'h']) ++ ([ascii ' ', ascii ':', ascii ' '] ++
        ((decimalText (x / 60 % 60) ++ [ascii 'm']) ++ ([ascii ' ', ascii ':', ascii ' '] ++
          ((decimalText (x % 60) ++ [ascii 's']) ++ [0#8])))) := by
    simp [timeText]
  rw [htext]
  exact hhh

end Text

/-- The text takes more than the one byte from its end to the start of
`buf`. -/
theorem printTime_eq_none (x : Nat) (v : Video) (stack : Cells Byte 0#8) :
    printTime x v stack = none := by
  have hwrites := writeTime_writes (x / 100) (stack.watch 0)
  have hplace := hwrites.place
  have hlen : 0 < (timeText (x / 100)).length := by
    simp [timeText]
  rw [printTime, if_neg]
  intro hwithin
  have hlow := (((hwrites.within 24).mp hwithin).2 (by simp)).1
  rw [List.length_append, List.length_singleton] at hplace
  simp only at hplace
  omega

/-- At no tick does `printTime` keep to its buffer. -/
theorem printTime_never_confined (x : Nat) (_hx : x < 2 ^ 31 * 360000) (v : Video)
    (stack : Cells Byte 0#8) : ¬ ShowsTime x v stack := by
  rintro ⟨v', hreturns, -⟩
  rw [printTime_eq_none] at hreturns
  exact absurd hreturns (by simp)

theorem printTime_first_tick :
    1 < 2 ^ 31 * 360000 ∧ ¬ ShowsTime 1 Cells.clear Cells.clear := by
  have hx : 1 < 2 ^ 31 * 360000 := by decide
  exact ⟨hx, printTime_never_confined 1 hx Cells.clear Cells.clear⟩

/-- The first tick: the NUL is stored at `buf[0]`, the other twelve
characters are stored in front of it. -/
theorem printTime_overruns_buf :
    (writeTime (1 / 100) (Cells.clear.watch 0)).cells.low = -12 ∧
      (writeTime (1 / 100) (Cells.clear.watch 0)).cells.high = 0 ∧
      ¬ ShowsTime 1 Cells.clear Cells.clear := by
  refine ⟨by decide +kernel, by decide +kernel, ?_⟩
  rintro ⟨v', hreturns, -⟩
  have hnone : printTime 1 (Cells.clear.watch timeAddress) Cells.clear = none := by
    decide +kernel
  rw [hnone] at hreturns
  exact absurd hreturns (by simp)

end SnowOs
