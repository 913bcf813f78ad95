import SnowOs.CommandLine

/-!
# The spaces of a command line

Two lines with the same words, typed with different numbers of spaces, are
the same command to a reader (`Respaced`). They are not to `shell_parse`:
it splits at every single space, so two spaces in a row have an empty
argument between them; it looks for `&` in the last place only, before the
spaces at the end are removed; and a variable is printed only if the line
has no space at all.

What is built is decided by the text that is left without an `&` in the
last place and the spaces around it, so two lines are the same command
exactly if these texts are equal (`builds_eq_iff`).
-/

namespace SnowOs.Sbush

open Cells

/-! ## Lines with the same words -/

/-- The words of a text: what stands between the spaces. -/
def wordsIn (text : List Byte) : List (List Byte) := (text.splitOn (ascii ' ')).filter (· ≠ [])

/-- The words of a line in front of a final `&`, and whether there is
one. -/
def commandWords (line : List Byte) : List (List Byte) × Bool :=
  if (trim line).getLast? = some (ascii '&') then (wordsIn (trim line).dropLast, true)
  else (wordsIn line, false)

/-- The lines differ in the number of spaces only: before, between and
behind the words, and before a final `&`. -/
def Respaced (line₁ line₂ : List Byte) : Prop := commandWords line₁ = commandWords line₂

instance (line₁ line₂ : List Byte) : Decidable (Respaced line₁ line₂) :=
  inferInstanceAs (Decidable (_ = _))

/-- The lines that print a variable. -/
def isVariable (line : List Byte) : Bool := line = str "$PATH" ∨ line = str "$PS1"

/-! ## What is built -/

/-- What `shell_parse` builds: the strings of `arguments`, `num_args` and
`is_background`; nothing, if it prints a variable. -/
def builds (s : Shell) (input : Int) : Option (List (List Byte) × Nat × Bool) :=
  let line := cstr s.chars input
  if strcmp line (str "$PATH") = 0 ∨ strcmp line (str "$PS1") = 0 then none
  else
    let job := splitJob s input line.length
    some (job.2.map (cstr job.1.chars), job.2.length, job.1.isBackground)

section Builds

variable {s : Shell} {input : Int}

theorem splitJob_isBackground (s : Shell) (input lenInput : Int) :
    (splitJob s input lenInput).1.isBackground
      = (s.isBackground || decide (s.chars.mem (input + lenInput - 1) = ascii '&')) := by
  simp only [splitJob, Shell.setChars, takeBackground]
  split
  · next h => simp [h]
  · next h => simp [h]

theorem builds_eq (s : Shell) (input : Int) :
    builds s input =
      if isVariable (cstr s.chars input) then none
      else some (words (cstr s.chars input), (words (cstr s.chars input)).length,
        s.isBackground ||
          decide (s.chars.mem (input + (cstr s.chars input).length - 1) = ascii '&')) := by
  have htexts := (splitJob_spec s input).texts
  have hlen := congrArg List.length htexts
  rw [List.length_map] at hlen
  unfold builds
  simp only [strcmp_cstr (show 0#8 ∉ str "$PATH" by decide),
    strcmp_cstr (show 0#8 ∉ str "$PS1" by decide), isVariable, decide_eq_true_iff]
  rw [htexts, hlen, splitJob_isBackground]

/-- The words tell the text they were split from. -/
theorem words_eq_iff {line₁ line₂ : List Byte} :
    words line₁ = words line₂ ↔ trim (cutBackground line₁) = trim (cutBackground line₂) := by
  refine ⟨fun h => ?_, fun h => by rw [words, words, h]⟩
  have hjoin := congrArg (List.intercalate [ascii ' ']) h
  rwa [words, words, List.intercalate_splitOn, List.intercalate_splitOn] at hjoin

theorem Respaced.eq_of_isVariable {line₁ line₂ : List Byte} (h : Respaced line₁ line₂)
    (h₁ : isVariable line₁ = true) (h₂ : isVariable line₂ = true) : line₁ = line₂ := by
  rcases of_decide_eq_true h₁ with rfl | rfl <;> rcases of_decide_eq_true h₂ with rfl | rfl
  · rfl
  · exact absurd h (by decide +kernel)
  · exact absurd h (by decide +kernel)
  · rfl

/-- The byte in front of the NUL is not an `&`, for a variable. -/
theorem mem_last_of_isVariable (h : isVariable (cstr s.chars input) = true) :
    s.chars.mem (input + (cstr s.chars input).length - 1) ≠ ascii '&' := by
  have hne : cstr s.chars input ≠ [] := by
    intro hnil
    rw [hnil] at h
    cases h
  rw [Ne, mem_last hne]
  rcases of_decide_eq_true h with heq | heq <;> rw [heq] <;> decide

end Builds

/-- **Spacing.** For one shell and two lines that differ in spaces only,
the same command is built exactly if both lines or none is a variable, the
texts left without an `&` in the last place and the spaces around are equal,
and the last bytes agree on the background. -/
theorem builds_eq_iff (s : Shell) {c₁ c₂ : Chars} {input₁ input₂ : Int}
    (h : Respaced (cstr c₁ input₁) (cstr c₂ input₂)) :
    builds (s.setChars c₁) input₁ = builds (s.setChars c₂) input₂ ↔
      (isVariable (cstr c₁ input₁) = isVariable (cstr c₂ input₂)) ∧
      trim (cutBackground (cstr c₁ input₁)) = trim (cutBackground (cstr c₂ input₂)) ∧
      (s.isBackground = true ∨
        (c₁.mem (input₁ + (cstr c₁ input₁).length - 1) = ascii '&' ↔
          c₂.mem (input₂ + (cstr c₂ input₂).length - 1) = ascii '&')) := by
  have hone : ∀ (c : Chars) input, builds (s.setChars c) input =
      if isVariable (cstr c input) then none
      else some (words (cstr c input), (words (cstr c input)).length,
        s.isBackground || decide (c.mem (input + (cstr c input).length - 1) = ascii '&')) :=
    fun c input => builds_eq (s.setChars c) input
  have hlast : ∀ (c : Chars) input, isVariable (cstr c input) = true →
      c.mem (input + (cstr c input).length - 1) ≠ ascii '&' :=
    fun c input hvar => mem_last_of_isVariable (s := s.setChars c) hvar
  rw [hone, hone, ← words_eq_iff]
  by_cases h₁ : isVariable (cstr c₁ input₁) = true
  · by_cases h₂ : isVariable (cstr c₂ input₂) = true
    · rw [if_pos h₁, if_pos h₂, h₁, h₂, h.eq_of_isVariable h₁ h₂]
      refine iff_of_true rfl ⟨rfl, rfl, .inr (iff_of_false ?_ (hlast c₂ input₂ h₂))⟩
      rw [← h.eq_of_isVariable h₁ h₂]
      exact hlast c₁ input₁ h₁
    · rw [if_pos h₁, if_neg h₂]
      exact iff_of_false (Option.some_ne_none _).symm fun hsame => h₂ (hsame.1 ▸ h₁)
  · by_cases h₂ : isVariable (cstr c₂ input₂) = true
    · rw [if_neg h₁, if_pos h₂]
      exact iff_of_false (Option.some_ne_none _) fun hsame => h₁ (hsame.1 ▸ h₂)
    · rw [if_neg h₁, if_neg h₂, Bool.eq_false_iff.mpr h₁, Bool.eq_false_iff.mpr h₂,
        Option.some.injEq, Prod.mk.injEq, Prod.mk.injEq]
      cases s.isBackground with
      | true =>
          simp only [Bool.true_or, true_or, and_true, true_and]
          exact ⟨fun hsame => hsame.1, fun hwords => ⟨hwords, by rw [hwords]⟩⟩
      | false =>
          simp only [Bool.false_or, decide_eq_decide, Bool.false_eq_true, false_or, true_and]
          exact ⟨fun hsame => ⟨hsame.1, hsame.2.2⟩,
            fun hsame => ⟨hsame.1, by rw [hsame.1], hsame.2⟩⟩

/-- The line in a memory of its own. -/
def lineChars (line : List Byte) : Chars := Cells.clear.putAll 0 line

/-- Spaces around the line do not matter. -/
theorem builds_eq_around :
    Respaced (cstr (lineChars (str " ls bin")) 0) (cstr (lineChars (str "ls bin  ")) 0) ∧
      builds ((lineShell []).setChars (lineChars (str " ls bin"))) 0
        = builds ((lineShell []).setChars (lineChars (str "ls bin  "))) 0 := by
  have hrespaced : Respaced (cstr (lineChars (str " ls bin")) 0)
      (cstr (lineChars (str "ls bin  ")) 0) := by decide +kernel
  exact ⟨hrespaced, (builds_eq_iff _ hrespaced).mpr
    ⟨by decide +kernel, by decide +kernel, by decide +kernel⟩⟩

/-- A second space between two words is an empty argument, and a space
behind the `&` makes an argument of it. -/
theorem builds_differ :
    (Respaced (str "echo a") (str "echo  a") ∧
      builds (lineShell (str "echo a")) 0 = some ([str "echo", str "a"], 2, false) ∧
      builds (lineShell (str "echo  a")) 0 = some ([str "echo", [], str "a"], 3, false)) ∧
    Respaced (str "ls &") (str "ls & ") ∧
      builds (lineShell (str "ls &")) 0 = some ([str "ls"], 1, true) ∧
      builds (lineShell (str "ls & ")) 0 = some ([str "ls", str "&"], 2, false) :=
  ⟨⟨by decide +kernel, by decide +kernel, by decide +kernel⟩, by decide +kernel,
    by decide +kernel, by decide +kernel⟩

end SnowOs.Sbush
