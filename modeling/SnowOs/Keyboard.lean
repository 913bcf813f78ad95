import SnowOs.CString
import SnowOs.History

/-!
# The keyboard (`sys/keyboard.c`)

`printAscii` is fed the scan codes. Codes of modifiers change the byte
`specialChars`; other codes are looked up in one switch, here a table of
what each case does with the modifiers.

The modifiers follow the history of the codes (`specialChars_history`):
the bit of Caps Lock tells whether its presses are odd in number, the bits
of the Shift keys whether they are held. `shouldCapitalizeLetters` however
combines them with a bitwise exclusive or of different bits, which is zero
only if both are: with Caps Lock on and a Shift held, letters come out in
upper case. And the two characters of the quote key are the wrong way
round. Everything else is as it should be (`modifiers_iff`).
-/

namespace SnowOs.Keyboard

/-! ## Modifiers -/

/-- `special_key`. -/
inductive SpecialKey where
  | caps
  | lshift
  | rshift
  | lcntrl
  | rcntrl
  | numlock
deriving DecidableEq, Repr

def getBitmask : SpecialKey → Byte
  | .caps => 0b1
  | .lshift => 0b10
  | .rshift => 0b100
  | .lcntrl => 0b1000
  | .rcntrl => 0b10000
  | .numlock => 0b100000

/-- `clearKey`, on the value of `specialChars`. -/
def clearKey (specialChars : Byte) (sk : SpecialKey) : Byte := specialChars &&& ~~~ getBitmask sk

def setKey (specialChars : Byte) (sk : SpecialKey) : Byte := specialChars ||| getBitmask sk

/-- `isKey`: the bit in its place. -/
def isKey (specialChars : Byte) (sk : SpecialKey) : Byte := specialChars &&& getBitmask sk

def isShiftEnabled (specialChars : Byte) : Byte :=
  isKey specialChars .lshift ||| isKey specialChars .rshift

def shouldCapitalizeLetters (specialChars : Byte) : Byte :=
  isKey specialChars .caps ^^^ isShiftEnabled specialChars

/-! ## Characters -/

/-- What a case of the switch in `handleNormalScanCodes` does. -/
inductive Case where
  /-- The character is `isShiftEnabled() ? shifted : plain`. -/
  | shift (shifted plain : Byte)
  /-- The character is `shouldCapitalizeLetters() ? upper : lower`. -/
  | letter (upper lower : Byte)
  /-- The character with Num Lock, and a NUL without. -/
  | keypad (c : Byte)
  /-- The values of `c`, `p` and `pp` themselves. -/
  | fixed (c p pp : Byte)
deriving DecidableEq, Repr

def cases : List (Byte × Case) :=
  [(0x02#8, .shift (ascii '!') (ascii '1')), (0x03#8, .shift (ascii '@') (ascii '2')),
    (0x04#8, .shift (ascii '#') (ascii '3')), (0x05#8, .shift (ascii '$') (ascii '4')),
    (0x06#8, .shift (ascii '%') (ascii '5')), (0x07#8, .shift (ascii '^') (ascii '6')),
    (0x08#8, .shift (ascii '&') (ascii '7')), (0x09#8, .shift (ascii '*') (ascii '8')),
    (0x0A#8, .shift (ascii '(') (ascii '9')), (0x0B#8, .shift (ascii ')') (ascii '0')),
    (0x0C#8, .shift (ascii '_') (ascii '-')), (0x0D#8, .shift (ascii '+') (ascii '=')),
    (0x0E#8, .fixed (ascii 'H') (ascii '^') 0), (0x0F#8, .fixed (ascii 't') (ascii '\\') 0),
    (0x10#8, .letter (ascii 'Q') (ascii 'q')), (0x11#8, .letter (ascii 'W') (ascii 'w')),
    (0x12#8, .letter (ascii 'E') (ascii 'e')), (0x13#8, .letter (ascii 'R') (ascii 'r')),
    (0x14#8, .letter (ascii 'T') (ascii 't')), (0x15#8, .letter (ascii 'Y') (ascii 'y')),
    (0x16#8, .letter (ascii 'U') (ascii 'u')), (0x17#8, .letter (ascii 'I') (ascii 'i')),
    (0x18#8, .letter (ascii 'O') (ascii 'o')), (0x19#8, .letter (ascii 'P') (ascii 'p')),
    (0x1A#8, .shift 0x7B#8 0x5B#8), (0x1B#8, .shift 0x7D#8 0x5D#8),
    (0x1C#8, .fixed (ascii 'r') (ascii '\\') 0),
    (0x1E#8, .letter (ascii 'A') (ascii 'a')), (0x1F#8, .letter (ascii 'S') (ascii 's')),
    (0x20#8, .letter (ascii 'D') (ascii 'd')), (0x21#8, .letter (ascii 'F') (ascii 'f')),
    (0x22#8, .letter (ascii 'G') (ascii 'g')), (0x23#8, .letter (ascii 'H') (ascii 'h')),
    (0x24#8, .letter (ascii 'J') (ascii 'j')), (0x25#8, .letter (ascii 'K') (ascii 'k')),
    (0x26#8, .letter (ascii 'L') (ascii 'l')), (0x27#8, .shift (ascii ':') (ascii ';')),
    -- the quote, and the double quote without Shift
    (0x28#8, .shift 0x27#8 0x22#8),
    -- the tilde and the grave accent
    (0x29#8, .shift (ascii '~') 0x60#8),
    (0x2B#8, .shift (ascii '|') (ascii '\\')),
    (0x2C#8, .letter (ascii 'Z') (ascii 'z')), (0x2D#8, .letter (ascii 'X') (ascii 'x')),
    (0x2E#8, .letter (ascii 'C') (ascii 'c')), (0x2F#8, .letter (ascii 'V') (ascii 'v')),
    (0x30#8, .letter (ascii 'B') (ascii 'b')), (0x31#8, .letter (ascii 'N') (ascii 'n')),
    (0x32#8, .letter (ascii 'M') (ascii 'm')), (0x33#8, .shift (ascii '<') (ascii ',')),
    (0x34#8, .shift (ascii '>') (ascii '.')), (0x35#8, .shift (ascii '?') (ascii '/')),
    (0x37#8, .keypad (ascii '*')), (0x39#8, .fixed (ascii ' ') 0 0),
    (0x3B#8, .fixed (ascii '1') (ascii 'F') 0), (0x3C#8, .fixed (ascii '2') (ascii 'F') 0),
    (0x3D#8, .fixed (ascii '3') (ascii 'F') 0), (0x3E#8, .fixed (ascii '4') (ascii 'F') 0),
    (0x3F#8, .fixed (ascii '5') (ascii 'F') 0), (0x40#8, .fixed (ascii '6') (ascii 'F') 0),
    (0x41#8, .fixed (ascii '7') (ascii 'F') 0), (0x42#8, .fixed (ascii '8') (ascii 'F') 0),
    (0x43#8, .fixed (ascii '9') (ascii 'F') 0), (0x44#8, .fixed (ascii '0') (ascii '1') (ascii 'F')),
    (0x47#8, .keypad (ascii '7')), (0x48#8, .keypad (ascii '8')), (0x49#8, .keypad (ascii '9')),
    (0x4A#8, .keypad (ascii '-')), (0x4B#8, .keypad (ascii '4')), (0x4C#8, .keypad (ascii '5')),
    (0x4D#8, .keypad (ascii '6')), (0x4E#8, .keypad (ascii '+')), (0x4F#8, .keypad (ascii '1')),
    (0x50#8, .keypad (ascii '2')), (0x51#8, .keypad (ascii '3')), (0x52#8, .keypad (ascii '0')),
    (0x53#8, .keypad (ascii '.')), (0x57#8, .fixed (ascii '1') (ascii '1') (ascii 'F')),
    (0x58#8, .fixed (ascii '2') (ascii '1') (ascii 'F'))]

def Case.chars (specialChars : Byte) : Case → Byte × Byte × Byte
  | .shift shifted plain => (if isShiftEnabled specialChars ≠ 0 then shifted else plain, 0, 0)
  | .letter upper lower => (if shouldCapitalizeLetters specialChars ≠ 0 then upper else lower, 0, 0)
  | .keypad c => (if isKey specialChars .numlock ≠ 0 then c else 0, 0, 0)
  | .fixed c p pp => (c, p, pp)

/-- What `handleNormalScanCodes` makes of `c`, `p` and `pp` and passes to
`printInputChar`, if anything. -/
def inputText (specialChars c p pp : Byte) : Option (List Byte) :=
  if c = 0 then none
  else
    let str := (if pp ≠ 0 then [pp] else []) ++ (if p ≠ 0 then [p] else []) ++ [c]
    if isKey specialChars .rcntrl ||| isKey specialChars .lcntrl ≠ 0 ∧ str.head? ≠ some (ascii '^')
    then some (ascii '^' :: str)
    else some str

def handleNormalScanCodes (specialChars sc : Byte) : Option (List Byte) :=
  match cases.lookup sc with
  | some case =>
      let chars := case.chars specialChars
      inputText specialChars chars.1 chars.2.1 chars.2.2
  | none => inputText specialChars 0 0 0

/-- `printAscii`: `specialChars` after a scan code, and what is printed. -/
def printAscii (specialChars sc : Byte) : Byte × Option (List Byte) :=
  if sc = 0x2A#8 then (setKey specialChars .lshift, none)
  else if sc = 0xAA#8 then (clearKey specialChars .lshift, none)
  else if sc = 0x36#8 then (setKey specialChars .rshift, none)
  else if sc = 0xB6#8 then (clearKey specialChars .rshift, none)
  else if sc = 0x1D#8 then (setKey (setKey specialChars .lcntrl) .rcntrl, none)
  else if sc = 0x9D#8 then (clearKey (clearKey specialChars .lcntrl) .rcntrl, none)
  else if sc = 0x3A#8 then
    (if isKey specialChars .caps ≠ 0 then clearKey specialChars .caps
      else setKey specialChars .caps, none)
  else if sc = 0x45#8 then
    (if isKey specialChars .numlock ≠ 0 then clearKey specialChars .numlock
      else setKey specialChars .numlock, none)
  else (specialChars, handleNormalScanCodes specialChars sc)

def specialChars (codes : List Byte) : Byte := codes.foldl (fun v sc => (printAscii v sc).1) 0

/-- What is printed for a scan code after others. -/
def printed (before : List Byte) (sc : Byte) : Option (List Byte) :=
  (printAscii (specialChars before) sc).2

/-! ## What the keys are for -/

/-- The characters on a key: a letter, or a digit or punctuation with the
symbol that Shift gives. -/
inductive Legend where
  | letter (upper lower : Byte)
  | symbol (shifted plain : Byte)
deriving DecidableEq, Repr

def quoteKey : Byte := 0x28#8

/-- The letters, digits and punctuation of the keyboard. -/
def legends : List (Byte × Legend) :=
  [(0x02#8, .symbol (ascii '!') (ascii '1')), (0x03#8, .symbol (ascii '@') (ascii '2')),
    (0x04#8, .symbol (ascii '#') (ascii '3')), (0x05#8, .symbol (ascii '$') (ascii '4')),
    (0x06#8, .symbol (ascii '%') (ascii '5')), (0x07#8, .symbol (ascii '^') (ascii '6')),
    (0x08#8, .symbol (ascii '&') (ascii '7')), (0x09#8, .symbol (ascii '*') (ascii '8')),
    (0x0A#8, .symbol (ascii '(') (ascii '9')), (0x0B#8, .symbol (ascii ')') (ascii '0')),
    (0x0C#8, .symbol (ascii '_') (ascii '-')), (0x0D#8, .symbol (ascii '+') (ascii '=')),
    (0x10#8, .letter (ascii 'Q') (ascii 'q')), (0x11#8, .letter (ascii 'W') (ascii 'w')),
    (0x12#8, .letter (ascii 'E') (ascii 'e')), (0x13#8, .letter (ascii 'R') (ascii 'r')),
    (0x14#8, .letter (ascii 'T') (ascii 't')), (0x15#8, .letter (ascii 'Y') (ascii 'y')),
    (0x16#8, .letter (ascii 'U') (ascii 'u')), (0x17#8, .letter (ascii 'I') (ascii 'i')),
    (0x18#8, .letter (ascii 'O') (ascii 'o')), (0x19#8, .letter (ascii 'P') (ascii 'p')),
    (0x1A#8, .symbol 0x7B#8 0x5B#8), (0x1B#8, .symbol 0x7D#8 0x5D#8),
    (0x1E#8, .letter (ascii 'A') (ascii 'a')), (0x1F#8, .letter (ascii 'S') (ascii 's')),
    (0x20#8, .letter (ascii 'D') (ascii 'd')), (0x21#8, .letter (ascii 'F') (ascii 'f')),
    (0x22#8, .letter (ascii 'G') (ascii 'g')), (0x23#8, .letter (ascii 'H') (ascii 'h')),
    (0x24#8, .letter (ascii 'J') (ascii 'j')), (0x25#8, .letter (ascii 'K') (ascii 'k')),
    (0x26#8, .letter (ascii 'L') (ascii 'l')), (0x27#8, .symbol (ascii ':') (ascii ';')),
    -- the double quote with Shift, and the quote
    (quoteKey, .symbol 0x22#8 0x27#8),
    (0x29#8, .symbol (ascii '~') 0x60#8), (0x2B#8, .symbol (ascii '|') (ascii '\\')),
    (0x2C#8, .letter (ascii 'Z') (ascii 'z')), (0x2D#8, .letter (ascii 'X') (ascii 'x')),
    (0x2E#8, .letter (ascii 'C') (ascii 'c')), (0x2F#8, .letter (ascii 'V') (ascii 'v')),
    (0x30#8, .letter (ascii 'B') (ascii 'b')), (0x31#8, .letter (ascii 'N') (ascii 'n')),
    (0x32#8, .letter (ascii 'M') (ascii 'm')), (0x33#8, .symbol (ascii '<') (ascii ',')),
    (0x34#8, .symbol (ascii '>') (ascii '.')), (0x35#8, .symbol (ascii '?') (ascii '/'))]

def capsOdd (before : List Byte) : Bool := before.count 0x3A#8 % 2 = 1

def held (press release : Byte) (before : List Byte) : Bool :=
  (before.filter fun sc => sc = press ∨ sc = release).getLast? = some press

def shiftHeld (before : List Byte) : Bool := held 0x2A#8 0xAA#8 before || held 0x36#8 0xB6#8 before

/-- The character meant. -/
def Legend.char (before : List Byte) : Legend → Byte
  | .letter upper lower => if capsOdd before ≠ shiftHeld before then upper else lower
  | .symbol shifted plain => if shiftHeld before then shifted else plain

/-- The character of a text that is printed, behind an inserted `^`. -/
def lastChar (text : Option (List Byte)) : Option Byte := text.bind List.getLast?

def Prints (before : List Byte) (sc : Byte) : Prop :=
  ∀ legend, legends.lookup sc = some legend →
    lastChar (printed before sc) = some (legend.char before)

/-- A letter under Caps Lock and Shift, or the key with the quotes. -/
def Misprinted (before : List Byte) (sc : Byte) : Prop :=
  (∃ upper lower, legends.lookup sc = some (.letter upper lower)) ∧ capsOdd before = true ∧
    shiftHeld before = true ∨ sc = quoteKey

/-! ## Modifiers follow the codes -/

section History

variable {v sc : Byte} {before : List Byte}

/-- The bit of a key. -/
def SpecialKey.index : SpecialKey → Nat
  | caps => 0
  | lshift => 1
  | rshift => 2
  | lcntrl => 3
  | rcntrl => 4
  | numlock => 5

theorem SpecialKey.index_lt (sk : SpecialKey) : sk.index < 8 := by cases sk <;> decide

theorem SpecialKey.index_inj {sk sk' : SpecialKey} : sk.index = sk'.index ↔ sk = sk' := by
  cases sk <;> cases sk' <;> decide

theorem getBitmask_eq (sk : SpecialKey) : getBitmask sk = BitVec.twoPow 8 sk.index := by
  cases sk <;> rfl

def keyOn (v : Byte) (sk : SpecialKey) : Bool := v.getLsbD sk.index

theorem isKey_eq (v : Byte) (sk : SpecialKey) :
    isKey v sk = if keyOn v sk then getBitmask sk else 0 := by
  rw [isKey, getBitmask_eq, BitVec.and_twoPow]
  rfl

theorem isKey_ne_zero (v : Byte) (sk : SpecialKey) : isKey v sk ≠ 0 ↔ keyOn v sk = true := by
  rw [isKey_eq]
  cases keyOn v sk with
  | false => simp
  | true => cases sk <;> decide

theorem keyOn_setKey (v : Byte) (sk sk' : SpecialKey) :
    keyOn (setKey v sk) sk' = (keyOn v sk' || decide (sk' = sk)) := by
  simp [keyOn, setKey, getBitmask_eq, SpecialKey.index_inj, SpecialKey.index_lt]

theorem keyOn_clearKey (v : Byte) (sk sk' : SpecialKey) :
    keyOn (clearKey v sk) sk' = (keyOn v sk' && !decide (sk' = sk)) := by
  simp [keyOn, clearKey, getBitmask_eq, SpecialKey.index_inj, SpecialKey.index_lt]

theorem isShiftEnabled_ne_zero (v : Byte) :
    isShiftEnabled v ≠ 0 ↔ (keyOn v .lshift || keyOn v .rshift) = true := by
  rw [isShiftEnabled, isKey_eq, isKey_eq]
  cases keyOn v .lshift <;> cases keyOn v .rshift <;> decide

/-- The exclusive or is of bits in different places. -/
theorem shouldCapitalizeLetters_ne_zero (v : Byte) : shouldCapitalizeLetters v ≠ 0 ↔
    (keyOn v .caps || (keyOn v .lshift || keyOn v .rshift)) = true := by
  rw [shouldCapitalizeLetters, isShiftEnabled, isKey_eq, isKey_eq, isKey_eq]
  cases keyOn v .caps <;> cases keyOn v .lshift <;> cases keyOn v .rshift <;> decide

theorem held_concat (press release : Byte) (before : List Byte) (sc : Byte) :
    held press release (before ++ [sc]) = if sc = press then true
      else if sc = release then false else held press release before := by
  by_cases hpress : sc = press
  · simp [held, hpress]
  · by_cases hrelease : sc = release
    · simp [held, hrelease]
    · simp [held, hpress, hrelease]

theorem capsOdd_concat (before : List Byte) (sc : Byte) :
    capsOdd (before ++ [sc]) = if sc = 0x3A#8 then !capsOdd before else capsOdd before := by
  by_cases hsc : sc = 0x3A#8
  · simp only [capsOdd, hsc, List.count_append, List.count_singleton_self, if_pos]
    rw [← decide_not]
    refine decide_eq_decide.mpr ?_
    omega
  · simp [capsOdd, List.count_append, hsc]

theorem specialChars_concat (before : List Byte) (sc : Byte) :
    specialChars (before ++ [sc]) = (printAscii (specialChars before) sc).1 := by
  simp [specialChars]

theorem printAscii_keyOn (v sc : Byte) :
    keyOn (printAscii v sc).1 .caps = (if sc = 0x3A#8 then !keyOn v .caps else keyOn v .caps) ∧
      keyOn (printAscii v sc).1 .lshift = (if sc = 0x2A#8 then true
        else if sc = 0xAA#8 then false else keyOn v .lshift) ∧
      keyOn (printAscii v sc).1 .rshift = (if sc = 0x36#8 then true
        else if sc = 0xB6#8 then false else keyOn v .rshift) := by
  unfold printAscii
  split
  · next h => simp [h, keyOn_setKey]
  split
  · next h => simp [h, keyOn_clearKey]
  split
  · next h => simp [h, keyOn_setKey]
  split
  · next h => simp [h, keyOn_clearKey]
  split
  · next h => simp [h, keyOn_setKey]
  split
  · next h => simp [h, keyOn_clearKey]
  split
  · simp only [isKey_ne_zero]
    cases hcaps : keyOn v .caps <;> simp [hcaps, keyOn_setKey, keyOn_clearKey]
  split
  · simp only [isKey_ne_zero]
    cases keyOn v .numlock <;> simp [keyOn_setKey, keyOn_clearKey]
  · simp only [*, and_self]

/-- The bits tell what the history of the codes tells. -/
theorem specialChars_history (before : List Byte) :
    keyOn (specialChars before) .caps = capsOdd before ∧
      keyOn (specialChars before) .lshift = held 0x2A#8 0xAA#8 before ∧
      keyOn (specialChars before) .rshift = held 0x36#8 0xB6#8 before := by
  induction before using List.reverseRecOn with
  | nil => decide
  | append_singleton before sc ih =>
      obtain ⟨hcaps, hlshift, hrshift⟩ := ih
      rw [specialChars_concat, capsOdd_concat, held_concat, held_concat, ← hcaps, ← hlshift,
        ← hrshift]
      exact printAscii_keyOn (specialChars before) sc

end History

/-! ## What is printed -/

/-- The case of the switch for a key with characters: the two characters
of the quote key are exchanged. -/
def Legend.toCase (sc : Byte) : Legend → Case
  | .letter upper lower => .letter upper lower
  | .symbol shifted plain => if sc = quoteKey then .shift plain shifted else .shift shifted plain

def Legend.Distinct : Legend → Prop
  | .letter upper lower => upper ≠ 0 ∧ lower ≠ 0 ∧ upper ≠ lower
  | .symbol shifted plain => shifted ≠ 0 ∧ plain ≠ 0 ∧ shifted ≠ plain

instance (legend : Legend) : Decidable legend.Distinct := by
  cases legend <;> exact inferInstanceAs (Decidable (_ ∧ _))

/-- The switch has a case for each key with characters, none of them is a
modifier, and the two characters of a key differ. -/
theorem legends_cases : ∀ e ∈ legends, cases.lookup e.1 = some (e.2.toCase e.1) ∧
    e.1 ∉ [0x2A#8, 0xAA#8, 0x36#8, 0xB6#8, 0x1D#8, 0x9D#8, 0x3A#8, 0x45#8] ∧ e.2.Distinct := by
  decide +kernel

section Printed

variable {v sc : Byte} {before : List Byte} {legend : Legend}

/-- The character is the last one printed, whatever is put in front of
it. -/
theorem lastChar_inputText {c : Byte} (hc : c ≠ 0) (p pp : Byte) :
    lastChar (inputText v c p pp) = some c := by
  unfold inputText
  rw [if_neg hc]
  generalize (if pp ≠ 0 then [pp] else []) ++ (if p ≠ 0 then [p] else []) = front
  dsimp only
  split
  · rw [← List.cons_append, lastChar, Option.bind_some, List.getLast?_concat]
  · exact List.getLast?_concat

theorem mem_of_lookup (h : legends.lookup sc = some legend) : (sc, legend) ∈ legends := by
  obtain ⟨front, rest, heq, -⟩ := List.lookup_eq_some_iff.mp h
  rw [heq]
  exact List.mem_append_right _ (List.mem_cons_self ..)

theorem toCase_chars (legend : Legend) (sc : Byte) (before : List Byte) :
    ((legend.toCase sc).chars (specialChars before)).1 = match legend with
      | .letter upper lower => if capsOdd before || shiftHeld before then upper else lower
      | .symbol shifted plain =>
          if shiftHeld before = decide (sc ≠ quoteKey) then shifted else plain := by
  obtain ⟨hcaps, hlshift, hrshift⟩ := specialChars_history before
  have hshift : isShiftEnabled (specialChars before) ≠ 0 ↔ shiftHeld before = true := by
    rw [isShiftEnabled_ne_zero, hlshift, hrshift, shiftHeld]
  have hupper : shouldCapitalizeLetters (specialChars before) ≠ 0 ↔
      (capsOdd before || shiftHeld before) = true := by
    rw [shouldCapitalizeLetters_ne_zero, hcaps, hlshift, hrshift, shiftHeld]
  cases legend with
  | letter upper lower => exact if_congr hupper rfl rfl
  | symbol shifted plain =>
      rw [Legend.toCase]
      split
      · next hquote =>
          refine (if_congr hshift rfl rfl).trans ?_
          cases shiftHeld before <;> simp [hquote]
      · next hquote =>
          refine (if_congr hshift rfl rfl).trans ?_
          simp [hquote]

theorem lastChar_printed (h : legends.lookup sc = some legend) :
    lastChar (printed before sc) = some ((legend.toCase sc).chars (specialChars before)).1 := by
  obtain ⟨hcase, hmodifier, hdistinct⟩ := legends_cases _ (mem_of_lookup h)
  have hprint : printed before sc = handleNormalScanCodes (specialChars before) sc := by
    simp only [List.mem_cons, List.not_mem_nil, or_false, not_or] at hmodifier
    simp only [printed, printAscii, hmodifier, if_false]
  rw [hprint, handleNormalScanCodes, hcase]
  refine lastChar_inputText ?_ _ _
  rw [toCase_chars]
  cases legend with
  | letter upper lower =>
      dsimp only
      split
      · exact hdistinct.1
      · exact hdistinct.2.1
  | symbol shifted plain =>
      dsimp only
      split
      · exact hdistinct.1
      · exact hdistinct.2.1

theorem lookup_quoteKey : legends.lookup quoteKey = some (.symbol 0x22#8 0x27#8) := by
  decide +kernel

theorem prints_iff : Prints before sc ↔ ¬ Misprinted before sc := by
  unfold Prints Misprinted
  cases h : legends.lookup sc with
  | none =>
      have hquote : sc ≠ quoteKey := by
        rintro rfl
        rw [lookup_quoteKey] at h
        cases h
      simp [hquote]
  | some legend =>
      obtain ⟨-, -, hdistinct⟩ := legends_cases _ (mem_of_lookup h)
      simp only [Option.some.injEq, forall_eq']
      rw [lastChar_printed h, toCase_chars, Option.some.injEq]
      cases legend with
      | letter upper lower =>
          have hquote : sc ≠ quoteKey := by
            rintro rfl
            rw [lookup_quoteKey] at h
            cases h
          have hne : upper ≠ lower := hdistinct.2.2
          cases hcaps : capsOdd before <;> cases hshift : shiftHeld before <;>
            simp [Legend.char, hcaps, hshift, hquote, hne]
      | symbol shifted plain =>
          have hne : shifted ≠ plain := hdistinct.2.2
          by_cases hquote : sc = quoteKey <;> cases hshift : shiftHeld before <;>
            simp [Legend.char, hshift, hquote, hne, hne.symm]

end Printed

/-- For every sequence of scan codes: all letters, digits and punctuation
come out as meant exactly if no letter is typed under Caps Lock with a
Shift held, and the key with the quotes is not used. -/
theorem modifiers_iff (codes : List Byte) :
    Each Prints codes ↔ Each (fun before sc => ¬ Misprinted before sc) codes :=
  each_congr fun _ _ => prints_iff

/-- Caps Lock, Shift and the key of the letter give an upper case letter. -/
theorem caps_shift_upper :
    printed [0x3A#8, 0x2A#8] 0x1E#8 = some [ascii 'A'] ∧
      ¬ Each Prints [0x3A#8, 0x2A#8, 0x1E#8] := by
  refine ⟨by decide +kernel, fun h => ?_⟩
  have hprints := h [0x3A#8, 0x2A#8] 0x1E#8 [] rfl (.letter (ascii 'A') (ascii 'a'))
    (by decide +kernel)
  exact absurd hprints (by decide +kernel)

end SnowOs.Keyboard
