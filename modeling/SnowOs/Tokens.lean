import SnowOs.SbushParse

/-!
# The table of `parse_split`

`parse_split` numbers the tokens with `n`, stores each in `commands[n]` and
closes the table with a null pointer. `parseSplit` keeps the list of the
pointers instead; `parseSplitTable_eq` shows that the table holds them.

The tokens are always the trimmed pieces. The accesses are not always
inside the string: the second loop of `remove_white_spaces` has no lower
bound, and what stops it in front of a blank piece is the NUL put over the
delimiter before. In front of the first piece there is none, so if that is
blank the byte before the string is read, and overwritten if it is a space
(`tokensOf_iff`).
-/

namespace SnowOs.Sbush

open Cells

/-- `commands[]`; `none` is the null pointer. -/
abbrev Table := Nat → Option Int

/-- The loop of `parse_split`: `n`, the table, `last` and the memory at the
end. -/
def tableLoop (delimiter : Byte) :
    Nat → Chars → Int → Int → Nat → Table → Nat × Table × Int × Chars
  | 0, c, _, last, n, commands => (n, commands, last, c)
  | rounds + 1, c, i, last, n, commands =>
      if c.mem i = 0#8 then (n, commands, last, c.look i)
      else if c.mem i = delimiter then
        let r := removeWhiteSpaces (c.put i 0#8) (last + 1)
        tableLoop delimiter rounds r.2 (i + 1) i (n + 1) (Function.update commands n (some r.1))
      else tableLoop delimiter rounds (c.look i) (i + 1) last n commands

/-- `parse_split`: the number returned, the table and the memory. -/
def parseSplitTable (c : Chars) (input : Int) (delimiter : Byte) (commands : Table) :
    Nat × Table × Chars :=
  let (n, commands, last, c) := tableLoop delimiter c.span c input (input - 1) 0 commands
  let w := removeWhiteSpaces c (last + 1)
  (n + 1, Function.update (Function.update commands n (some w.1)) (n + 1) none, w.2)

/-- What `parse_split` owes for a text: one token more than there are
delimiters, which are the pieces in their order without the spaces around
them, a null pointer behind them, and no access outside the string. -/
structure TokensOf (text : List Byte) (input : Int) (d : Byte) (r : Nat × Table × Chars) :
    Prop where
  returned : r.1 = text.count d + 1
  tokens : ∀ k < r.1, (r.2.1 k).map (cstr r.2.2) = ((text.splitOn d).map trim)[k]?
  closed : r.2.1 r.1 = none
  inside : input ≤ r.2.2.low ∧ r.2.2.high ≤ input + text.length

/-! ## The table holds the list -/

section Table

variable {l : List Int} {commands : Table}

/-- The table with a list of pointers at its beginning. -/
def filled (l : List Int) (commands : Table) : Table :=
  fun k => if k < l.length then l[k]? else commands k

theorem filled_nil (commands : Table) : filled [] commands = commands := rfl

theorem filled_concat (l : List Int) (p : Int) (commands : Table) :
    Function.update (filled l commands) l.length (some p) = filled (l ++ [p]) commands := by
  funext k
  rw [filled, List.length_append, List.length_singleton]
  rcases Nat.lt_trichotomy k l.length with hlt | rfl | hgt
  · rw [Function.update_of_ne (Nat.ne_of_lt hlt), filled, if_pos hlt,
      if_pos (Nat.lt_succ_of_lt hlt), List.getElem?_append_left hlt]
  · rw [Function.update_self, if_pos (Nat.lt_succ_self _), List.getElem?_concat_length]
  · rw [Function.update_of_ne (Nat.ne_of_gt hgt), filled, if_neg (Nat.lt_asymm hgt),
      if_neg (Nat.not_lt.mpr hgt)]

/-- One table and one list, filled by the same rounds. -/
theorem tableLoop_eq (d : Byte) (rounds : Nat) (c : Chars) (i last : Int) (l : List Int)
    (commands : Table) :
    tableLoop d rounds c i last l.length (filled l commands)
      = ((splitLoop d rounds c i last l).1.length,
          filled (splitLoop d rounds c i last l).1 commands,
          (splitLoop d rounds c i last l).2) := by
  induction rounds generalizing c i last l with
  | zero => rfl
  | succ rounds ih =>
      rw [tableLoop, splitLoop]
      by_cases hzero : c.mem i = 0#8
      · rw [if_pos hzero, if_pos hzero]
      · rw [if_neg hzero, if_neg hzero]
        by_cases hd : c.mem i = d
        · rw [if_pos hd, if_pos hd]
          dsimp only
          rw [filled_concat, ← ih, List.length_append, List.length_singleton]
        · rw [if_neg hd, if_neg hd]
          exact ih ..

/-- **The table of `parse_split`.** -/
theorem parseSplitTable_eq (c : Chars) (input : Int) (d : Byte) (commands : Table) :
    parseSplitTable c input d commands
      = ((parseSplit c input d).1.length,
          Function.update (filled (parseSplit c input d).1 commands)
            (parseSplit c input d).1.length none,
          (parseSplit c input d).2) := by
  have hloop := tableLoop_eq d c.span c input (input - 1) [] commands
  rw [filled_nil, List.length_nil] at hloop
  rw [parseSplitTable, parseSplit, hloop]
  dsimp only
  rw [filled_concat, List.length_append, List.length_singleton]

end Table

/-! ## Tokens -/

section Tokens

variable {c : Chars} {input : Int} {d : Byte}

theorem trim_ne_nil_iff {s : List Byte} : trim s ≠ [] ↔ ∃ b ∈ s, b ≠ ascii ' ' := by
  rw [Ne, trim_eq_nil_iff]
  simp [isSpace]

theorem tokens_table (c : Chars) (input : Int) (d : Byte) (commands : Table) :
    let r := parseSplitTable c input d commands
    r.1 = (cstr c input).count d + 1 ∧
      (∀ k < r.1, (r.2.1 k).map (cstr r.2.2) = (((cstr c input).splitOn d).map trim)[k]?) ∧
      r.2.1 r.1 = none := by
  have htexts := (parseSplit_spec c input d).texts
  have hlen := congrArg List.length htexts
  rw [List.length_map, List.length_map, length_splitOn] at hlen
  rw [parseSplitTable_eq]
  refine ⟨hlen, fun k hk => ?_, Function.update_self ..⟩
  dsimp only at hk ⊢
  rw [Function.update_of_ne (Nat.ne_of_lt hk), filled, if_pos hk, ← htexts, List.getElem?_map]

end Tokens

/-- **Tokenising.** For every string and every delimiter, a table that is
large enough receives the trimmed pieces, and no byte outside the string is
accessed exactly if there is a character other than a space in front of the
first delimiter. -/
theorem tokensOf_iff (c : Chars) (input : Int) (d : Byte) (commands : Table) :
    TokensOf (cstr c input) input d (parseSplitTable (c.watch input) input d commands) ↔
      ∃ b ∈ (cstr c input).takeWhile (· ≠ d), b ≠ ascii ' ' := by
  have hstays := parseSplit_stays (c.watch input) input d
  rw [← trim_ne_nil_iff]
  constructor
  · rintro ⟨-, -, -, hlow, -⟩ hnil
    rw [parseSplitTable_eq] at hlow
    exact absurd (hstays.blank hnil) (Int.not_lt.mpr hlow)
  · intro htext
    obtain ⟨hreturned, htokens, hclosed⟩ := tokens_table (c.watch input) input d commands
    refine ⟨hreturned, htokens, hclosed, ?_⟩
    rw [parseSplitTable_eq]
    have hlow := hstays.text htext
    have hhigh := hstays.high
    simp only [watch] at hlow hhigh
    refine ⟨?_, ?_⟩
    · exact (min_self input).symm.le.trans hlow
    · exact hhigh.trans (max_le (by omega) le_rfl)

def emptyFirst : Chars := Cells.clear.putAll 0 (str "\nls")

/-- The byte in front of the buffer is read. -/
theorem parseSplit_reads_before :
    cstr emptyFirst 0 = str "\nls" ∧
      (parseSplitTable (emptyFirst.watch 0) 0 (ascii '\n') fun _ => none).2.2.low < 0 ∧
      ¬ TokensOf (cstr emptyFirst 0) 0 (ascii '\n')
        (parseSplitTable (emptyFirst.watch 0) 0 (ascii '\n') fun _ => none) := by
  have htext : cstr emptyFirst 0 = str "\nls" := by decide +kernel
  have hstays := parseSplit_stays (emptyFirst.watch 0) 0 (ascii '\n')
  have hwatch : cstr (emptyFirst.watch 0) 0 = str "\nls" := htext
  rw [hwatch] at hstays
  have hlow : (parseSplitTable (emptyFirst.watch 0) 0 (ascii '\n') fun _ => none).2.2.low < 0 := by
    rw [parseSplitTable_eq]
    exact hstays.blank (by decide +kernel)
  exact ⟨htext, hlow, fun h => absurd hlow (Int.not_lt.mpr h.inside.1)⟩

end SnowOs.Sbush
