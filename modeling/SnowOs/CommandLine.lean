import Mathlib.Algebra.Order.BigOperators.Group.List
import Mathlib.Algebra.Order.Group.Nat
import SnowOs.ExecArgs
import SnowOs.Script

/-!
# The arrays a command line is copied to

The words of a line go into `arguments` of a `struct job`, are followed by
`cd`, `set_env_variables` and `exec_binary`, and reach `exec_vpe`, which
copies them into `user_stack` and the name of the file into
`filename_copy`. No step checks an index. `lineAccesses` lists the accesses
of one call of `shell_parse` up to the first element stored behind
`arguments`.

They stay within the arrays exactly for the lines of at most seven words
that give `cd` and `export` an argument, if the name of the file fits
(`lineAccesses_within_iff`). Then only the path that `exec_binary` puts in front
of the argument of `cat` and `ls` can be too long for `user_stack`. It is
written over the words behind the argument, so where these begin matters
as well (`wordStart`).
-/

namespace SnowOs.Sbush

open Cells Tarfs

/-! ## The accesses -/

/-- An element of `arguments` stored by `parse_split`, an element that is
followed, a byte of `filename_copy` or a byte of `user_stack`, counted from
its beginning. -/
inductive Access where
  | element (i : Nat)
  | follow (i : Nat)
  | filenameCopy (k : Nat)
  | userStack (x : Nat)
deriving DecidableEq, Repr

/-- The access stays within its array, or follows one of the arguments. -/
def Access.Within (numArgs : Nat) : Access → Prop
  | .element i => i < maxArgs
  | .follow i => i < numArgs
  | .filenameCopy k => k < Exec.bufSize
  | .userStack x => x < Exec.maxArgs * Exec.bufSize

def binName (path arg0 : List Byte) : List Byte :=
  path.takeWhile (· ≠ ascii '/') ++ ascii '/' :: arg0

/-- The copies of `exec_vpe`, which returns before them if there is no such
file. -/
def execVpeAccesses (image filename : List Byte) (argv : List (List Byte)) : List Access :=
  if (getFileBinary image filename).isSome then
    (List.range filename.length).map .filenameCopy ++
      (Exec.argWrites argv).map fun w => .userStack w.1
  else []

/-- The accesses of `exec_binary` and of the `exec_vpe` in the child. -/
def execBinaryAccesses (image : List Byte) (s : Shell) (arguments : List Int) : List Access :=
  let arg0 := cstr s.chars (arguments.headD 0)
  let path :=
    if (strcmp arg0 (str "cat") = 0 ∨ strcmp arg0 (str "ls") = 0) ∧ arguments[1]?.isSome then
      [.follow 1]
    else []
  .follow 0 :: path ++ execVpeAccesses image (binName s.path arg0)
    (arguments.map (cstr (relocateArgument s arguments)))

def setEnvAccesses (s : Shell) (arguments : List Int) : List Access :=
  let more :=
    match arguments[1]? with
    | none => []
    | some a =>
        if s.chars.mem a = ascii 'P' ∧ s.chars.mem (a + 1) = ascii 'S' ∧
            s.chars.mem (a + 2) = ascii '1' then
          let t := parseSplit s.chars a (ascii '=')
          if maxArgs ≤ t.1.length ∨ t.1.length < 2 then []
          else (List.range (arguments.length - 2)).map fun i => .follow (i + 2)
        else []
  .follow 1 :: more

/-- The accesses of the end of `shell_parse`, on the arguments it has
split. -/
def jobAccesses (image : List Byte) (s : Shell) (arguments : List Int) : List Access :=
  let jobname := cstr s.chars (arguments.headD 0)
  .follow 0 ::
    if strcmp jobname (str "cd") = 0 then [.follow 1]
    else if strcmp jobname (str "export") = 0 then setEnvAccesses s arguments
    else execBinaryAccesses image s arguments

/-- The state and the arguments `shell_parse` has when it has split the
line. -/
def splitJob (s : Shell) (input lenInput : Int) : Shell × List Int :=
  let s := takeBackground s input lenInput
  let w := removeWhiteSpaces s.chars input
  let t := parseSplit w.2 w.1 (ascii ' ')
  (s.setChars t.2, t.1)

def numArgs (s : Shell) (input : Int) : Nat :=
  (splitJob s input (cstr s.chars input).length).2.length

/-- The accesses of `shell_parse`: the elements of `arguments` with the null
pointer behind them, and those of the job. -/
def lineAccesses (image : List Byte) (s : Shell) (input : Int) : List Access :=
  let line := cstr s.chars input
  if strcmp line (str "$PATH") = 0 ∨ strcmp line (str "$PS1") = 0 then []
  else
    let job := splitJob s input line.length
    (List.range (job.2.length + 1)).map .element ++
      if maxArgs ≤ job.2.length then [] else jobAccesses image job.1 job.2

theorem parseJob_eq (sys : Sys) (s : Shell) (input lenInput : Int) :
    parseJob sys s input lenInput =
      if maxArgs ≤ (splitJob s input lenInput).2.length then
        (takeBackground s input lenInput).fail .tableOverrun
      else runJob sys (splitJob s input lenInput).1 (splitJob s input lenInput).2 := rfl

/-- `exec_vpe` is called with the name and the arguments of
`execBinaryAccesses`. -/
theorem execBinary_spawn (sys : Sys) (s : Shell) (arguments : List Int) :
    ∃ tail, (execBinary sys s arguments).acts = s.acts ++
      .spawn (binName s.path (cstr s.chars (arguments.headD 0)))
        (arguments.map (cstr (relocateArgument s arguments))) (!s.isBackground) :: tail := by
  unfold execBinary
  simp only
  split
  · exact ⟨_, List.append_assoc ..⟩
  · exact ⟨[], rfl⟩

/-! ## Lines that stay within -/

/-- Where a word begins, counted from the first one. -/
def wordStart (ws : List (List Byte)) (k : Nat) : Nat := ((ws.take k).map (·.length + 1)).sum

/-- The working directory fits in front of a relative path that is passed to
`cat` or `ls`, in the row of the path and in the rows of the words it is
written over. -/
def PathFits (cwd : List Byte) (ws : List (List Byte)) : Prop :=
  ws.head? = some (str "cat") ∨ ws.head? = some (str "ls") →
    ∀ w, ws[1]? = some w → w.head? ≠ some (ascii '/') → ∀ k, 1 ≤ k → k < ws.length →
      k * Exec.bufSize + cwd.length + w.length + wordStart ws 1
        ≤ Exec.maxArgs * Exec.bufSize + wordStart ws k

/-- What the words of a job have to satisfy. -/
def JobBounded (image path cwd : List Byte) (ws : List (List Byte)) : Prop :=
  if ws.head? = some (str "cd") ∨ ws.head? = some (str "export") then 2 ≤ ws.length
  else
    (getFileBinary image (binName path (ws.headD []))).isSome →
      (binName path (ws.headD [])).length ≤ Exec.bufSize ∧ PathFits cwd ws

/-- What a line has to satisfy, unless it prints a variable. -/
def LineBounded (image path cwd line : List Byte) : Prop :=
  line = str "$PATH" ∨ line = str "$PS1" ∨
    (words line).length < maxArgs ∧ JobBounded image path cwd (words line)

/-! ## Where the words are -/

section Positions

variable {len : Int → Nat} {qs : List Int} {a e : Int}

theorem sum_le_of_ordered (hord : qs.Pairwise fun q q' => q + len q < q')
    (hlow : ∀ q ∈ qs, a ≤ q) (hhigh : ∀ q ∈ qs, q + len q ≤ e) (ha : a ≤ e + 1) :
    a + ((qs.map fun q => len q + 1).sum : Nat) ≤ e + 1 := by
  induction qs generalizing a with
  | nil => simpa using ha
  | cons q qs ih =>
      obtain ⟨hhead, hord⟩ := List.pairwise_cons.mp hord
      obtain ⟨hq, hlow⟩ := List.forall_mem_cons.mp hlow
      obtain ⟨hqe, hhigh⟩ := List.forall_mem_cons.mp hhigh
      have hrest := ih (a := q + len q + 1) hord (fun q' hq' => by have := hhead q' hq'; omega)
        hhigh (by omega)
      rw [List.map_cons, List.sum_cons]
      omega

/-- Pieces that fill their range lie without gaps. -/
theorem position_of_filled (hord : qs.Pairwise fun q q' => q + len q < q')
    (hlow : ∀ q ∈ qs, a ≤ q) (hhigh : ∀ q ∈ qs, q + len q ≤ e)
    (hsum : a + ((qs.map fun q => len q + 1).sum : Nat) = e + 1) {k : Nat} {q : Int}
    (hq : qs[k]? = some q) : q = a + (((qs.take k).map fun q => len q + 1).sum : Nat) := by
  induction qs generalizing a k with
  | nil => simp at hq
  | cons p qs ih =>
      obtain ⟨hhead, hord⟩ := List.pairwise_cons.mp hord
      obtain ⟨hp, -⟩ := List.forall_mem_cons.mp hlow
      obtain ⟨hpe, hhigh⟩ := List.forall_mem_cons.mp hhigh
      have hnext : ∀ q ∈ qs, p + len p + 1 ≤ q := fun q hq => by have := hhead q hq; omega
      have hroom := sum_le_of_ordered hord hnext hhigh (by omega)
      rw [List.map_cons, List.sum_cons] at hsum
      have hpa : p = a := by omega
      subst hpa
      cases k with
      | zero => simpa using hq.symm
      | succ k =>
          have := ih hord hnext hhigh (by omega) (by simpa using hq)
          rw [List.take_succ_cons, List.map_cons, List.sum_cons]
          omega

end Positions

theorem sum_splitOn (d : Byte) (s : List Byte) :
    ((s.splitOn d).map (·.length + 1)).sum = s.length + 1 := by
  induction s with
  | nil => simp
  | cons a s ih =>
      rw [List.splitOn_cons_eq_if_modifyHead]
      split
      · simp [ih]
        omega
      · cases hs : s.splitOn d with
        | nil => exact absurd hs (List.splitOn_ne_nil d s)
        | cons b pieces =>
            rw [hs, List.map_cons, List.sum_cons] at ih
            rw [List.modifyHead_cons, List.map_cons, List.sum_cons, List.length_cons,
              List.length_cons]
            omega

/-- What `shell_parse` has when it has split a line. -/
structure JobSplit (s : Shell) (line : List Byte) (job : Shell × List Int) : Prop where
  cwd : job.1.cwd = s.cwd
  path : job.1.path = s.path
  texts : job.2.map (cstr job.1.chars) = words line
  position : ∃ a : Int, ∀ k q, job.2[k]? = some q → q = a + wordStart (words line) k

theorem takeBackground_globals (s : Shell) (input lenInput : Int) :
    (takeBackground s input lenInput).cwd = s.cwd ∧
      (takeBackground s input lenInput).path = s.path := by
  unfold takeBackground
  split <;> exact ⟨rfl, rfl⟩

/-- The line behind the test for the background, also if it is empty. -/
theorem cstr_takeBackground (s : Shell) (input : Int) :
    cstr (takeBackground s input (cstr s.chars input).length).chars input
      = cutBackground (cstr s.chars input) := by
  rcases eq_or_ne (cstr s.chars input) [] with hnil | hne
  · have hend : s.chars.mem input = 0#8 := by
      simpa [hnil] using mem_end s.chars input
    rw [hnil]
    unfold takeBackground
    split
    · refine cstr_eq ⟨?_, trivial⟩ List.not_mem_nil
      rw [put_mem, List.length_nil, Function.update_of_ne (by omega), hend]
    · exact hnil
  · exact (takeBackground_eq hne).2.2.2

theorem splitJob_spec (s : Shell) (input : Int) :
    JobSplit s (cstr s.chars input) (splitJob s input (cstr s.chars input).length) := by
  obtain ⟨hcwd, hpath⟩ := takeBackground_globals s input (cstr s.chars input).length
  have hcut := cstr_takeBackground s input
  unfold splitJob
  simp only
  generalize takeBackground s input (cstr s.chars input).length = s' at hcwd hpath hcut
  have htrim := removeWhiteSpaces_spec s'.chars input
  generalize removeWhiteSpaces s'.chars input = w at htrim
  have hsplit := parseSplit_spec w.2 w.1 (ascii ' ')
  generalize parseSplit w.2 w.1 (ascii ' ') = t at hsplit
  have htexts : t.1.map (cstr t.2) = words (cstr s.chars input) := by
    rw [hsplit.texts, map_trim_splitOn, htrim.text, hcut, words]
  refine ⟨hcwd, hpath, htexts, w.1, fun k q hq => ?_⟩
  have hlens : ∀ l : List Int, (l.map fun q => (cstr t.2 q).length + 1)
      = (l.map (cstr t.2)).map (·.length + 1) := fun l => by rw [List.map_map]; rfl
  rw [wordStart, ← htexts, ← List.map_take, ← hlens]
  refine position_of_filled hsplit.ordered (fun q hq => (hsplit.range q hq).1)
    (fun q hq => (hsplit.range q hq).2) ?_ hq
  rw [hlens, htexts, words, sum_splitOn, ← hcut, ← htrim.text]
  omega

theorem wordStart_length (line : List Byte) :
    wordStart (words line) (words line).length ≤ line.length + 1 := by
  rw [wordStart, List.take_length, words, sum_splitOn]
  have hparts := congrArg List.length (trim_parts (cutBackground line))
  rw [List.length_append, List.length_append] at hparts
  have hcut := length_cutBackground_le line
  omega

theorem length_le_of_word {ws : List (List Byte)} {k : Nat} {w : List Byte}
    (hw : ws[k]? = some w) : w.length + 1 ≤ wordStart ws ws.length := by
  rw [wordStart, List.take_length]
  exact List.le_sum_of_mem (List.mem_map_of_mem (List.mem_of_getElem? hw))

/-! ## The path of `cat` and `ls` -/

def relocated (cwd arg : List Byte) : List Byte :=
  if arg.head? = some (ascii '/') then
    (arg.drop 1).take ((BitVec.ofNat 8 arg.length).toInt.toNat - 1)
  else cwd ++ arg

theorem relocate_eq (c : Chars) (cwd : List Byte) (a : Int) :
    relocate c cwd a = c.putAll a (relocated cwd (cstr c a) ++ [0#8]) := by
  have hslash : c.mem a = ascii '/' ↔ (cstr c a).head? = some (ascii '/') := by
    have hst := stored_cstr c a
    cases hs : cstr c a with
    | nil =>
        rw [hs] at hst
        rw [hst.1]
        decide
    | cons b rest =>
        rw [hs] at hst
        rw [hst.1, List.head?_cons, Option.some.injEq]
  unfold relocate relocated
  simp only [hslash]
  split <;> rfl

theorem zero_notMem_relocated {cwd arg : List Byte} (hcwd : 0#8 ∉ cwd) (harg : 0#8 ∉ arg) :
    0#8 ∉ relocated cwd arg := by
  unfold relocated
  split
  · exact fun h => harg (List.mem_of_mem_drop (List.mem_of_mem_take h))
  · exact fun h => (List.mem_append.mp h).elim hcwd harg

section Overwritten

variable {c : Chars} {q p : Int} {new : List Byte}

theorem cstr_overwritten_of_before (h : p + (cstr c p).length < q) :
    cstr (c.putAll q (new ++ [0#8])) p = cstr c p :=
  cstr_congr fun j _ hj => (putAll_mem c q (new ++ [0#8])).2 j (.inl (by omega))

theorem cstr_overwritten_of_behind (h : q + new.length < p) :
    cstr (c.putAll q (new ++ [0#8])) p = cstr c p := by
  refine cstr_congr fun j hj _ => (putAll_mem c q (new ++ [0#8])).2 j (.inr ?_)
  rw [List.length_append, List.length_singleton]
  omega

/-- A string that begins in the text written is the rest of that text. -/
theorem cstr_overwritten (hnew : 0#8 ∉ new) {k : Nat} (hk : k ≤ new.length) :
    cstr (c.putAll q (new ++ [0#8])) (q + k) = new.drop k := by
  refine cstr_eq ?_ fun h => hnew (List.mem_of_mem_drop h)
  have hst := (putAll_mem c q (new ++ [0#8])).1
  have hsplit : new ++ [0#8] = new.take k ++ (new.drop k ++ [0#8]) := by
    rw [← List.append_assoc, List.take_append_drop]
  have hlen : (new.take k).length = k := List.length_take_of_le hk
  generalize (c.putAll q (new ++ [0#8])).mem = mem at hst
  rw [hsplit, stored_append, hlen] at hst
  exact hst.2

end Overwritten

/-! ## The rows of `user_stack` -/

/-- A string that begins in one of the rows stays within the array if its
end does. -/
theorem argWrites_within_iff {argv : List (List Byte)} (hrows : argv.length ≤ Exec.maxArgs) :
    (∀ w ∈ Exec.argWrites argv, w.1 < Exec.maxArgs * Exec.bufSize) ↔
      ∀ k text, argv[k]? = some text →
        k * Exec.bufSize + text.length ≤ Exec.maxArgs * Exec.bufSize := by
  constructor
  · intro h k text hk
    rcases Nat.eq_zero_or_pos text.length with hzero | hpos
    · have hlt := (List.getElem?_eq_some_iff.mp hk).1
      have := Nat.mul_le_mul_right Exec.bufSize (Nat.le_of_lt (Nat.lt_of_lt_of_le hlt hrows))
      omega
    · have hlast : text[text.length - 1]? = some text[text.length - 1] :=
        List.getElem?_eq_getElem _
      have := h _ (Exec.mem_argWrites.mpr ⟨k, text, _, hk, hlast, rfl⟩)
      simp only at this
      omega
  · rintro h ⟨x, b⟩ hw
    obtain ⟨k, text, j, hk, hj, rfl⟩ := Exec.mem_argWrites.mp hw
    have hlt := (List.getElem?_eq_some_iff.mp hj).1
    have := h k text hk
    simp only
    omega

section Rows

variable {ws : List (List Byte)} {c : Chars} {arguments : List Int} {a : Int}

theorem rows_of_short (hcount : ws.length < maxArgs) (hshort : wordStart ws ws.length ≤ 256)
    {k : Nat} {w : List Byte} (hw : ws[k]? = some w) :
    k * Exec.bufSize + w.length ≤ Exec.maxArgs * Exec.bufSize := by
  have hlen := length_le_of_word hw
  have hk := (List.getElem?_eq_some_iff.mp hw).1
  rw [maxArgs] at hcount
  rw [Exec.bufSize, Exec.maxArgs]
  omega

theorem wordStart_succ {k : Nat} {w : List Byte} (hw : ws[k]? = some w) :
    wordStart ws (k + 1) = wordStart ws k + (w.length + 1) := by
  rw [wordStart, wordStart, List.take_add_one, hw]
  simp

theorem wordStart_mono {k k' : Nat} (h : k ≤ k') : wordStart ws k ≤ wordStart ws k' := by
  rw [wordStart, wordStart, List.map_take, List.map_take]
  exact List.monotone_sum_take _ h

theorem length_overwritten (htexts : arguments.map (cstr c) = ws)
    (hpos : ∀ k q, arguments[k]? = some q → q = a + wordStart ws k) {new : List Byte}
    (hnew : 0#8 ∉ new) {k : Nat} {q w : _} (hk : 1 ≤ k) (hq : arguments[k]? = some q)
    (hw : ws[k]? = some w) :
    (cstr (c.putAll (a + wordStart ws 1) (new ++ [0#8])) q).length =
      if wordStart ws k ≤ wordStart ws 1 + new.length then
        new.length + wordStart ws 1 - wordStart ws k
      else w.length := by
  have hmono : wordStart ws 1 ≤ wordStart ws k := wordStart_mono hk
  have hqk := hpos k q hq
  split
  · next hin =>
      have hq' : q = a + wordStart ws 1 + (wordStart ws k - wordStart ws 1 : Nat) := by omega
      rw [hq', cstr_overwritten hnew (by omega), List.length_drop]
      omega
  · next hout =>
      rw [cstr_overwritten_of_behind (by omega)]
      rw [← htexts, List.getElem?_map, hq] at hw
      rw [← Option.some.inj hw]

/-- The rows of a line with a new path in the place of its second word. -/
theorem rows_overwritten_iff (htexts : arguments.map (cstr c) = ws)
    (hpos : ∀ k q, arguments[k]? = some q → q = a + wordStart ws k)
    (hcount : ws.length < maxArgs) (hshort : wordStart ws ws.length ≤ 256) {new : List Byte}
    (hnew : 0#8 ∉ new) :
    (∀ k text, (arguments.map
        (cstr (c.putAll (a + wordStart ws 1) (new ++ [0#8]))))[k]? = some text →
      k * Exec.bufSize + text.length ≤ Exec.maxArgs * Exec.bufSize) ↔
      ∀ k, 1 ≤ k → k < ws.length → k * Exec.bufSize + new.length + wordStart ws 1
        ≤ Exec.maxArgs * Exec.bufSize + wordStart ws k := by
  have hcount' : ws.length < 8 := hcount
  have hlen : arguments.length = ws.length := by rw [← htexts, List.length_map]
  have hrow : ∀ k, k < 8 → k * Exec.bufSize ≤ Exec.maxArgs * Exec.bufSize := fun k hk =>
    Nat.mul_le_mul_right _ (Nat.le_of_lt hk)
  constructor
  · intro h k hk hlt
    have hq := List.getElem?_eq_getElem (hlen ▸ hlt)
    have hw := List.getElem?_eq_getElem hlt
    have hrowk := hrow k (by omega)
    have := h k _ (by rw [List.getElem?_map, hq]; rfl)
    rw [length_overwritten htexts hpos hnew hk hq hw] at this
    split at this <;> omega
  · intro h k text htext
    rw [List.getElem?_map] at htext
    obtain ⟨q, hq, rfl⟩ := Option.map_eq_some_iff.mp htext
    have hlt : k < ws.length := hlen ▸ (List.getElem?_eq_some_iff.mp hq).1
    have hw := List.getElem?_eq_getElem hlt
    have hshortk := rows_of_short hcount hshort hw
    rcases Nat.eq_zero_or_pos k with rfl | hk
    · have htext0 : cstr c q = ws[0] := by
        have hmap := congrArg (·[0]?) htexts
        simp only [List.getElem?_map, hq, hw, Option.map_some] at hmap
        exact Option.some.inj hmap
      have hstart : wordStart ws 1 = 0 + (ws[0].length + 1) := wordStart_succ hw
      have hq0 : q = a + (0 : Nat) := hpos 0 q hq
      rw [cstr_overwritten_of_before (by rw [htext0]; omega), htext0]
      exact hshortk
    · have := h k hk hlt
      rw [length_overwritten htexts hpos hnew hk hq hw]
      split <;> omega

/-- A path with a slash in front only gets shorter. -/
theorem path_rows_iff (hcount : ws.length < maxArgs) (hshort : wordStart ws ws.length ≤ 256)
    {cwd w : List Byte} (hw : ws[1]? = some w) :
    (∀ k, 1 ≤ k → k < ws.length → k * Exec.bufSize + (relocated cwd w).length + wordStart ws 1
        ≤ Exec.maxArgs * Exec.bufSize + wordStart ws k) ↔
      (w.head? ≠ some (ascii '/') → ∀ k, 1 ≤ k → k < ws.length →
        k * Exec.bufSize + cwd.length + w.length + wordStart ws 1
          ≤ Exec.maxArgs * Exec.bufSize + wordStart ws k) := by
  by_cases hslash : w.head? = some (ascii '/')
  · have hlen : (relocated cwd w).length ≤ w.length := by
      rw [relocated, if_pos hslash, List.length_take, List.length_drop]
      omega
    refine iff_of_true (fun k hk hlt => ?_) fun hne => absurd hslash hne
    have hword := length_le_of_word hw
    have hmono : wordStart ws 1 ≤ wordStart ws k := wordStart_mono hk
    rw [maxArgs] at hcount
    rw [Exec.bufSize, Exec.maxArgs]
    omega
  · rw [relocated, if_neg hslash, List.length_append]
    simp only [← Nat.add_assoc]
    exact ⟨fun h _ => h, fun h => h hslash⟩

end Rows

/-- The arguments of a job and the words of its line. -/
structure Job (s : Shell) (arguments : List Int) (ws : List (List Byte)) : Prop where
  cwd : 0#8 ∉ s.cwd
  texts : arguments.map (cstr s.chars) = ws
  nonempty : ws ≠ []
  position : ∃ a : Int, ∀ k q, arguments[k]? = some q → q = a + wordStart ws k
  count : ws.length < maxArgs
  short : wordStart ws ws.length ≤ 256

namespace Job

variable {s : Shell} {arguments : List Int} {ws : List (List Byte)}

theorem length (h : Job s arguments ws) : arguments.length = ws.length := by
  rw [← h.texts, List.length_map]

theorem head (h : Job s arguments ws) : ws.head? = some (cstr s.chars (arguments.headD 0)) := by
  have hne := h.nonempty
  rw [← h.texts] at hne ⊢
  cases arguments with
  | nil => exact absurd rfl hne
  | cons p ps => rfl

theorem word (h : Job s arguments ws) {k : Nat} {q : Int} (hq : arguments[k]? = some q) :
    ws[k]? = some (cstr s.chars q) := by
  rw [← h.texts, List.getElem?_map, hq, Option.map_some]

theorem strcmp_head (h : Job s arguments ws) {name : List Byte} (hname : 0#8 ∉ name) :
    strcmp (cstr s.chars (arguments.headD 0)) name = 0 ↔ ws.head? = some name := by
  rw [strcmp_cstr hname, h.head, Option.some.injEq]

/-- The arguments as `exec_vpe` gets them stay within `user_stack`. -/
theorem rows_iff (h : Job s arguments ws) :
    (∀ w ∈ Exec.argWrites (arguments.map (cstr (relocateArgument s arguments))),
      w.1 < Exec.maxArgs * Exec.bufSize) ↔ PathFits s.cwd ws := by
  have hargs : (arguments.map (cstr (relocateArgument s arguments))).length ≤ Exec.maxArgs := by
    rw [List.length_map, h.length]
    exact Nat.le_of_lt h.count
  have hcat := h.strcmp_head (show 0#8 ∉ str "cat" by decide)
  have hls := h.strcmp_head (show 0#8 ∉ str "ls" by decide)
  have hplain : ∀ k text, (arguments.map (cstr s.chars))[k]? = some text →
      k * Exec.bufSize + text.length ≤ Exec.maxArgs * Exec.bufSize := by
    intro k text hk
    rw [h.texts] at hk
    exact rows_of_short h.count h.short hk
  rw [argWrites_within_iff hargs, relocateArgument, PathFits]
  simp only [hcat, hls]
  split
  · next hjob =>
      cases hsecond : arguments[1]? with
      | none =>
          have hnone : ws[1]? = none := by
            rw [← h.texts, List.getElem?_map, hsecond, Option.map_none]
          exact iff_of_true hplain fun _ w hw => absurd (hnone.symm.trans hw) nofun
      | some q =>
          obtain ⟨a, hpos⟩ := h.position
          have hw := h.word hsecond
          have hrel : relocate s.chars s.cwd q = s.chars.putAll (a + wordStart ws 1)
              (relocated s.cwd (cstr s.chars q) ++ [0#8]) := by
            rw [relocate_eq, ← hpos 1 q hsecond]
          simp only [hrel]
          rw [rows_overwritten_iff h.texts hpos h.count h.short
            (zero_notMem_relocated h.cwd (zero_notMem_cstr s.chars q)),
            path_rows_iff h.count h.short hw]
          refine ⟨fun hrows _ w hw' => ?_, fun hfits => hfits hjob _ hw⟩
          rw [Option.some.inj (hw'.symm.trans hw)]
          exact hrows
  · next hjob => exact iff_of_true hplain fun hc => absurd hc hjob

end Job

/-! ## Which accesses stay within -/

theorem execVpeAccesses_within_iff {image filename : List Byte} {argv : List (List Byte)}
    {n : Nat} : (∀ x ∈ execVpeAccesses image filename argv, x.Within n) ↔
      ((getFileBinary image filename).isSome → filename.length ≤ Exec.bufSize ∧
        ∀ w ∈ Exec.argWrites argv, w.1 < Exec.maxArgs * Exec.bufSize) := by
  have hname : (∀ k ∈ List.range filename.length, k < Exec.bufSize) ↔
      filename.length ≤ Exec.bufSize := by
    simp only [List.mem_range]
    refine ⟨fun h => ?_, fun h k hk => Nat.lt_of_lt_of_le hk h⟩
    by_contra hlt
    exact absurd (h Exec.bufSize (by omega)) (Nat.lt_irrefl _)
  rw [execVpeAccesses]
  split
  · next hfound =>
      rw [List.forall_mem_append, List.forall_mem_map, List.forall_mem_map,
        forall_prop_of_true hfound, ← hname]
      rfl
  · next hmissing => exact iff_of_true nofun fun h => absurd h hmissing

/-- Behind the second argument, the loop of `set_env_variables` counts. -/
theorem setEnvAccesses_within_iff (s : Shell) (arguments : List Int) :
    (∀ x ∈ setEnvAccesses s arguments, x.Within arguments.length) ↔ 2 ≤ arguments.length := by
  rw [setEnvAccesses, List.forall_mem_cons]
  refine and_iff_left_of_imp fun _ => ?_
  cases arguments[1]? with
  | none => exact nofun
  | some a =>
      simp only
      split
      · split
        · exact nofun
        · rw [List.forall_mem_map]
          intro i hi
          rw [List.mem_range] at hi
          show i + 2 < arguments.length
          omega
      · exact nofun

namespace Job

variable {s : Shell} {arguments : List Int} {ws : List (List Byte)}

theorem pos (h : Job s arguments ws) : 0 < arguments.length := by
  rw [h.length]
  exact List.length_pos_iff.mpr h.nonempty

theorem execBinaryAccesses_within_iff (h : Job s arguments ws) (image : List Byte) :
    (∀ x ∈ execBinaryAccesses image s arguments, x.Within arguments.length) ↔
      ((getFileBinary image (binName s.path (ws.headD []))).isSome →
        (binName s.path (ws.headD [])).length ≤ Exec.bufSize ∧ PathFits s.cwd ws) := by
  have hname : ws.headD [] = cstr s.chars (arguments.headD 0) := by
    rw [List.headD_eq_head?_getD, h.head, Option.getD_some]
  rw [execBinaryAccesses, List.cons_append, List.forall_mem_cons, List.forall_mem_append,
    execVpeAccesses_within_iff, h.rows_iff, hname]
  refine (and_iff_right h.pos).trans (and_iff_right ?_)
  split
  · next hpath =>
      obtain ⟨q, hq⟩ := Option.isSome_iff_exists.mp hpath.2
      rw [List.forall_mem_singleton]
      exact (List.getElem?_eq_some_iff.mp hq).1
  · exact nofun

theorem jobAccesses_within_iff (h : Job s arguments ws) (image : List Byte) :
    (∀ x ∈ jobAccesses image s arguments, x.Within arguments.length) ↔
      JobBounded image s.path s.cwd ws := by
  rw [jobAccesses, JobBounded, List.forall_mem_cons]
  refine (and_iff_right h.pos).trans ?_
  simp only [h.strcmp_head (show 0#8 ∉ str "cd" by decide),
    h.strcmp_head (show 0#8 ∉ str "export" by decide)]
  by_cases hcd : ws.head? = some (str "cd")
  · rw [if_pos hcd, if_pos (.inl hcd), List.forall_mem_singleton, ← h.length]
    rfl
  · rw [if_neg hcd]
    by_cases hexport : ws.head? = some (str "export")
    · rw [if_pos hexport, if_pos (.inr hexport), setEnvAccesses_within_iff, h.length]
    · rw [if_neg hexport, if_neg (not_or.mpr ⟨hcd, hexport⟩), h.execBinaryAccesses_within_iff]

end Job

theorem JobSplit.within_iff {s : Shell} {line : List Byte} {job : Shell × List Int}
    (h : JobSplit s line job) (hcwd : 0#8 ∉ s.cwd) (hlen : line.length ≤ 255)
    (image : List Byte) :
    (∀ x ∈ (List.range (job.2.length + 1)).map Access.element ++
        (if maxArgs ≤ job.2.length then [] else jobAccesses image job.1 job.2),
      x.Within job.2.length) ↔
      (words line).length < maxArgs ∧ JobBounded image s.path s.cwd (words line) := by
  have hcount : job.2.length = (words line).length := by rw [← h.texts, List.length_map]
  rw [List.forall_mem_append, List.forall_mem_map]
  by_cases hfits : job.2.length < maxArgs
  · have hjob : Job job.1 job.2 (words line) :=
      { cwd := by rwa [h.cwd]
        texts := h.texts
        nonempty := List.splitOn_ne_nil _ _
        position := h.position
        count := by rwa [← hcount]
        short := (wordStart_length line).trans (Nat.succ_le_succ hlen) }
    have haccesses := hjob.jobAccesses_within_iff image
    rw [h.cwd, h.path] at haccesses
    rw [if_neg (Nat.not_le.mpr hfits), haccesses, ← hcount]
    refine and_congr_left fun _ => iff_of_true (fun i hi => ?_) hfits
    rw [List.mem_range] at hi
    show i < maxArgs
    omega
  · refine iff_of_false (fun hall => hfits ?_) fun hall => hfits (by rw [hcount]; exact hall.1)
    exact hall.1 job.2.length (List.mem_range.mpr (Nat.lt_succ_self _))

theorem lineAccesses_job_iff (image : List Byte) {s : Shell} (hcwd : 0#8 ∉ s.cwd) {input : Int}
    (hlen : (cstr s.chars input).length ≤ 255)
    (hvariable : ¬ (cstr s.chars input = str "$PATH" ∨ cstr s.chars input = str "$PS1")) :
    (∀ x ∈ lineAccesses image s input, x.Within (numArgs s input)) ↔
      (words (cstr s.chars input)).length < maxArgs ∧
        JobBounded image s.path s.cwd (words (cstr s.chars input)) := by
  rw [lineAccesses]
  simp only [strcmp_cstr (show 0#8 ∉ str "$PATH" by decide),
    strcmp_cstr (show 0#8 ∉ str "$PS1" by decide)]
  rw [if_neg hvariable]
  exact (splitJob_spec s input).within_iff hcwd hlen image

/-- **The accesses of a command line stay within the arrays** exactly for the
lines that are bounded. -/
theorem lineAccesses_within_iff (image : List Byte) (s : Shell) (hcwd : 0#8 ∉ s.cwd)
    (input : Int) (hlen : (cstr s.chars input).length ≤ 255) :
    (∀ x ∈ lineAccesses image s input, x.Within (numArgs s input)) ↔
      LineBounded image s.path s.cwd (cstr s.chars input) := by
  rw [LineBounded, ← or_assoc]
  by_cases hvariable : cstr s.chars input = str "$PATH" ∨ cstr s.chars input = str "$PS1"
  · refine iff_of_true ?_ (.inl hvariable)
    rw [lineAccesses]
    simp only [strcmp_cstr (show 0#8 ∉ str "$PATH" by decide),
      strcmp_cstr (show 0#8 ∉ str "$PS1" by decide)]
    rw [if_pos hvariable]
    exact nofun
  · rw [or_iff_right hvariable]
    exact lineAccesses_job_iff image hcwd hlen hvariable

def lineShell (line : List Byte) : Shell := { chars := clearStack.putAll 0 line }

theorem cstr_lineShell {line : List Byte} (h : 0#8 ∉ line) :
    cstr (lineShell line).chars 0 = line := by
  have htext := cstr_putAll (c := clearStack) (t := []) h ⟨rfl, trivial⟩ List.not_mem_nil
  rwa [List.append_nil] at htext

def catArchive : List Byte := str "bin/cat" ++ List.replicate 505 0#8

/-- The arguments of a program that is found reach `exec_vpe`. -/
theorem lineAccesses_within_cat :
    (getFileBinary catArchive (str "bin/cat")).isSome ∧
      ∀ x ∈ lineAccesses catArchive (lineShell (str "cat notes")) 0,
        x.Within (numArgs (lineShell (str "cat notes")) 0) := by
  have hline := cstr_lineShell (show 0#8 ∉ str "cat notes" by decide)
  have hwords : words (str "cat notes") = [str "cat", str "notes"] := by decide
  refine ⟨by decide +kernel, (lineAccesses_within_iff _ _ List.not_mem_nil 0 ?_).mpr ?_⟩
  · rw [hline]
    decide
  rw [hline, LineBounded, hwords]
  refine .inr (.inr ⟨by decide, ?_⟩)
  rw [JobBounded, if_neg (by decide)]
  refine fun _ => ⟨by decide, fun _ w hw _ k hk hlt => ?_⟩
  obtain rfl : str "notes" = w := Option.some.inj hw
  obtain rfl : k = 1 := Nat.le_antisymm (Nat.le_of_lt_succ hlt) hk
  decide

/-- In a fresh shell a line with too many words, or with `cd` alone,
leaves the bounds. -/
theorem lineShell_overruns {line : List Byte} (hzero : 0#8 ∉ line) (hlen : line.length ≤ 255)
    (hvariable : ¬ (line = str "$PATH" ∨ line = str "$PS1"))
    (hshort : (words line).length < maxArgs →
      (words line).head? = some (str "cd") ∧ (words line).length < 2) :
    (cstr (lineShell line).chars 0).length ≤ 255 ∧
      ¬ ∀ x ∈ lineAccesses [] (lineShell line) 0, x.Within (numArgs (lineShell line) 0) := by
  have hline := cstr_lineShell hzero
  rw [← hline] at hlen hvariable
  refine ⟨hlen, fun hall => ?_⟩
  have hjob := (lineAccesses_job_iff [] List.not_mem_nil hlen hvariable).mp hall
  rw [hline] at hjob
  obtain ⟨hcd, hone⟩ := hshort hjob.1
  have htwo := hjob.2
  rw [JobBounded, if_pos (.inl hcd)] at htwo
  omega

/-- Eight words store a ninth element, and `cd` alone follows the null
pointer. -/
theorem short_lines_overrun :
    ((cstr (lineShell (str "echo 1 2 3 4 5 6 7")).chars 0).length ≤ 255 ∧
      ¬ ∀ x ∈ lineAccesses [] (lineShell (str "echo 1 2 3 4 5 6 7")) 0,
        x.Within (numArgs (lineShell (str "echo 1 2 3 4 5 6 7")) 0)) ∧
    (cstr (lineShell (str "cd")).chars 0).length ≤ 255 ∧
      ¬ ∀ x ∈ lineAccesses [] (lineShell (str "cd")) 0,
        x.Within (numArgs (lineShell (str "cd")) 0) :=
  ⟨lineShell_overruns (by decide) (by decide) (by decide) (by decide),
    lineShell_overruns (by decide) (by decide) (by decide) (by decide)⟩

end SnowOs.Sbush
