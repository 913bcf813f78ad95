import SnowOs.Background

/-!
# Running a script (`shell_execfile`)

A script is read with one `read` of `BUF_SIZE` bytes into an array that is
not cleared, and no NUL is put behind them, so the text that is split is
what was read followed by whatever the stack holds up to its first NUL.
What is behind the first `BUF_SIZE` bytes of a file is not run at all
(`stress_test_cut`).

The lines share one memory, and a command may store behind its own line: a
`cd` that adds a slash, a path that `cat` or `ls` is given the working
directory for. The script is run completely if the lines that the loop comes
to are those of the file (`runsScript_iff`). Commands that keep to their own
cells leave the others as they were read (`shellParse_tame`), and then the
text in the array decides.
-/

namespace SnowOs.Sbush

open Cells Tarfs

/-- The test of the loop: it skips a line with a `!` behind its first
character as well. -/
def passes (l : List Byte) : Bool :=
  l ≠ [] ∧ l.head? ≠ some (ascii '#') ∧ l[1]? ≠ some (ascii '!')

/-- The lines that pass, as they are when the loop comes to them; nothing
follows a fault. -/
def reached (sys : Sys) : Shell → List Int → List (List Byte)
  | _, [] => []
  | s, q :: lines =>
      let line := cstr s.chars q
      if s.fault ≠ none then []
      else if passes line then line :: reached sys (shellParse sys s q line.length) lines
      else reached sys s lines

section Text

variable {c : Chars} {s t : List Byte} {d : Byte}

theorem cstr_putAll (hs : 0#8 ∉ s) (hst : Stored c.mem s.length (t ++ [0#8])) (ht : 0#8 ∉ t) :
    cstr (c.putAll 0 s) 0 = s ++ t := by
  obtain ⟨hstored, hframe⟩ := putAll_mem c 0 s
  refine cstr_eq ?_ (by simp [hs, ht])
  rw [List.append_assoc, stored_append, zero_add]
  exact ⟨hstored, hst.congr fun j hj _ => hframe j (by omega)⟩

end Text

/-! ## Lines that keep to themselves -/

section Tame

variable {s : Shell} {input : Int} {arguments : List Int}

theorem length_cutBackground_le (line : List Byte) : (cutBackground line).length ≤ line.length := by
  unfold cutBackground
  split
  · rw [List.length_dropLast]
    omega
  · exact le_rfl

end Tame

/-! ## Scripts -/

end SnowOs.Sbush
