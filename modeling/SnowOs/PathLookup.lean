import SnowOs.CommandLine

/-!
# Looking up a command (`put_env`, `exec_binary`)

`export PATH=p` copies `p` over the global array `path`, and `exec_binary`
builds the name of a program in `bin`. Here the two arrays are modelled byte
by byte. The loop of `put_env` behind the copy does not advance, so it
clears one byte only; that is enough to end the string, and what is left of
a longer value behind it does not matter (`cstr_putEnvArray`). So `path` is
the value of the last `export`, after any commands (`commands_path`).

The name goes wrong: `exec_binary` copies `path` up to its first slash,
and nothing bounds the name in `bin`. It is the path and the command exactly
if there is no slash in the path except in its last place, and the name fits
(`namesFile_iff`).
-/

namespace SnowOs.Sbush

open Cells

/-! ## The arrays -/

/-- The last loop of `put_env`. It does not advance, so it ends after one
round. -/
def clearByte (path : Chars) (k : Int) : Chars :=
  if path.mem k ≠ 0#8 then (path.put k 0#8).look k else path.look k

/-- `put_env` on the array `path`, for the string at `newPath`. -/
def putEnvArray (path c : Chars) (newPath : Int) : Chars :=
  let r := copy isChar c path (newPath + 5) 0
  clearByte r.2 r.1

/-- `strcat`, on the string at `s1` and a string elsewhere. -/
def strcat (c c2 : Chars) (s1 s2 : Int) : Chars :=
  let r := scan isChar c s1
  let t := copy isChar c2 r.2 s2 r.1
  t.2.put t.1 0#8

/-- What the first loop of `exec_binary` copies. -/
def isDirChar (b : Byte) : Bool := b ≠ ascii '/' ∧ b ≠ 0#8

/-- `bin` in `exec_binary`. -/
def binArray (path bin c : Chars) (arg0 : Int) : Chars :=
  let r := copy isDirChar path bin 0 0
  strcat ((r.2.put r.1 (ascii '/')).put (r.1 + 1) 0#8) c 0 arg0

/-- The name a command should have. -/
def pathName (p word : List Byte) : List Byte :=
  p ++ (if p.getLast? = some (ascii '/') then [] else [ascii '/']) ++ word

/-- The name is passed to `execvpe`, and `bin` has room for it. -/
structure NamesFile (path bin c : Chars) (arg0 : Int) (p : List Byte) : Prop where
  within : (binArray path (bin.watch 0) c arg0).Within bufSize
  name : cstr (binArray path (bin.watch 0) c arg0) 0 = pathName p (cstr c arg0)

section Arrays

variable {path bin c : Chars} {newPath arg0 : Int}

@[simp] theorem clearByte_mem (path : Chars) (k : Int) :
    (clearByte path k).mem = Function.update path.mem k 0#8 := by
  unfold clearByte
  split
  · rfl
  · next h => exact (Function.update_eq_self_iff.mpr (not_not.mp h).symm).symm

/-- The string in `path` is the value, whatever was there before. -/
theorem cstr_putEnvArray (path c : Chars) (newPath : Int) :
    cstr (putEnvArray path c newPath) 0 = cstr c (newPath + 5) := by
  have hvalue : read isChar c (newPath + 5) = cstr c (newPath + 5) := rfl
  rw [putEnvArray, copy_eq, hvalue]
  obtain ⟨hst, -⟩ := putAll_mem path 0 (cstr c (newPath + 5))
  refine cstr_eq (stored_append.mpr ⟨?_, ?_, trivial⟩) (zero_notMem_cstr c _)
  · refine hst.congr fun j _ hj => ?_
    rw [clearByte_mem, Function.update_of_ne (Int.ne_of_lt hj)]
  · rw [clearByte_mem, Function.update_self]

/-- The first loop stops at a slash. -/
theorem read_isDirChar (path : Chars) :
    read isDirChar path 0 = (cstr path 0).takeWhile (· ≠ ascii '/') := by
  rw [read_eq_takeWhile (stored_cstr path 0) rfl rfl]
  have hzero := zero_notMem_cstr path 0
  generalize cstr path 0 = l at hzero
  induction l with
  | nil => rfl
  | cons b l ih =>
      obtain ⟨hb, hl⟩ := not_or.mp (mt List.mem_cons.mpr hzero)
      simp [List.takeWhile_cons, isDirChar, Ne.symm hb, ih hl]

theorem strcat_eq (bin c : Chars) (arg0 : Int) :
    strcat bin c 0 arg0
      = (scan isChar bin 0).2.putAll (cstr bin 0).length (cstr c arg0 ++ [0#8]) := by
  have hword : read isChar c arg0 = cstr c arg0 := rfl
  have hend : (scan isChar bin 0).1 = (cstr bin 0).length := by
    rw [scan_fst, zero_add]
    rfl
  rw [strcat, hend, copy_eq, hword, putAll_concat]

/-- The directory with its slash, in front of the command. -/
theorem binArray_eq (path bin c : Chars) (arg0 : Int) :
    ∃ bin', bin' = bin.putAll 0
        ((cstr path 0).takeWhile (· ≠ ascii '/') ++ [ascii '/'] ++ [0#8]) ∧
      cstr bin' 0 = (cstr path 0).takeWhile (· ≠ ascii '/') ++ [ascii '/'] ∧
      binArray path bin c arg0 = (scan isChar bin' 0).2.putAll (cstr bin' 0).length
        (cstr c arg0 ++ [0#8]) := by
  have hzero : 0#8 ∉ (cstr path 0).takeWhile (· ≠ ascii '/') ++ [ascii '/'] := by
    rw [List.mem_append, not_or]
    exact ⟨fun h => zero_notMem_cstr path 0 ((List.takeWhile_sublist _).mem h), by decide⟩
  refine ⟨_, rfl, cstr_eq (putAll_mem ..).1 hzero, ?_⟩
  rw [← strcat_eq, ← putAll_concat, ← putAll_concat]
  simp only [binArray, copy_eq, read_isDirChar, List.length_append, List.length_singleton,
    zero_add, Int.natCast_add, Int.natCast_one]

theorem cstr_binArray (path bin c : Chars) (arg0 : Int) :
    cstr (binArray path bin c arg0) 0 = binName (cstr path 0) (cstr c arg0) := by
  obtain ⟨bin', -, htext, heq⟩ := binArray_eq path bin c arg0
  obtain ⟨hst, hframe⟩ := putAll_mem (scan isChar bin' 0).2 (cstr bin' 0).length
    (cstr c arg0 ++ [0#8])
  have hname : binName (cstr path 0) (cstr c arg0) = cstr bin' 0 ++ cstr c arg0 := by
    rw [htext, binName, List.append_assoc, List.singleton_append]
  rw [heq, hname]
  refine cstr_eq ?_ fun h =>
    (List.mem_append.mp h).elim (zero_notMem_cstr bin' 0) (zero_notMem_cstr c arg0)
  rw [List.append_assoc, stored_append, zero_add]
  refine ⟨(stored_append.mp (stored_cstr bin' 0)).1.congr fun j _ hj => ?_, hst⟩
  rw [hframe j (.inl (by rwa [zero_add] at hj)), scan_mem]

theorem binArray_within_iff (path bin c : Chars) (arg0 : Int) :
    (binArray path (bin.watch 0) c arg0).Within bufSize ↔
      ((cstr path 0).takeWhile (· ≠ ascii '/')).length + 1 + (cstr c arg0).length < bufSize := by
  obtain ⟨bin', hbin, htext, heq⟩ := binArray_eq path (bin.watch 0) c arg0
  have hread : read isChar bin' 0 = cstr bin' 0 := rfl
  rw [heq, putAll_within, scan_within rfl, hread, htext, hbin, putAll_within, List.length_append,
    List.length_singleton]
  have hwatch : (bin.watch 0).Within bufSize := watch_within.mpr ⟨le_rfl, by decide⟩
  constructor
  · rintro ⟨-, -, hlt⟩
    omega
  · intro hlt
    refine ⟨⟨⟨hwatch, le_rfl, ?_⟩, le_rfl, ?_⟩, ?_, ?_⟩ <;> omega

end Arrays

/-! ## The name -/

/-- The path up to its first slash is the path, if that is the last
character or there is none. -/
theorem takeWhile_slash_iff (p word : List Byte) :
    binName p word = pathName p word ↔ ascii '/' ∉ p.dropLast := by
  have hself : ∀ l : List Byte, l.takeWhile (· ≠ ascii '/') = l ↔ ascii '/' ∉ l := by
    intro l
    rw [List.takeWhile_eq_self_iff]
    simp only [decide_eq_true_iff]
    exact ⟨fun h hmem => h _ hmem rfl, fun h x hx => ne_of_mem_of_not_mem hx h⟩
  have hname : binName p word = p.takeWhile (· ≠ ascii '/') ++ [ascii '/'] ++ word := by
    rw [binName, List.append_assoc, List.singleton_append]
  rw [hname, pathName, List.append_left_inj]
  by_cases hlast : p.getLast? = some (ascii '/')
  · obtain ⟨q, rfl⟩ := List.getLast?_eq_some_iff.mp hlast
    rw [if_pos hlast, List.append_nil, List.append_left_inj, List.dropLast_concat, ← hself]
    constructor
    · intro h
      refine (hself q).mpr fun hmem => ?_
      rw [List.takeWhile_append] at h
      split at h
      · next hlen =>
          exact (hself q).mp ((List.takeWhile_sublist _).eq_of_length hlen) hmem
      · exact (hself q).mp h hmem
    · intro h
      rw [List.takeWhile_append_of_pos (List.takeWhile_eq_self_iff.mp h),
        List.takeWhile_cons_of_neg (by simp), List.append_nil]
  · rw [if_neg hlast, List.append_left_inj, hself]
    refine not_congr ⟨fun h => ?_, List.mem_of_mem_dropLast⟩
    rcases List.eq_nil_or_concat p with rfl | ⟨q, b, rfl⟩
    · cases h
    · rw [List.concat_eq_append] at hlast h ⊢
      rw [List.getLast?_concat, Option.some.injEq] at hlast
      rw [List.dropLast_concat]
      exact (List.mem_append.mp h).resolve_right fun hb =>
        hlast (List.mem_singleton.mp hb).symm

/-! ## Commands -/

/-- A command as `shell_parse` has split it: the memory of the line and the
pointers to the words. -/
structure Command where
  chars : Chars
  arguments : List Int

namespace Command

/-- The words of the command. -/
def words (j : Command) : List (List Byte) := j.arguments.map (cstr j.chars)

/-- `export PATH=p`. -/
def Exports (j : Command) (p : List Byte) : Prop :=
  j.words.head? = some (str "export") ∧ (j.words)[1]? = some (str "PATH=" ++ p)

instance (j : Command) (p : List Byte) : Decidable (j.Exports p) :=
  inferInstanceAs (Decidable (_ ∧ _))

def run (sys : Sys) (s : Shell) (j : Command) : Shell :=
  runJob sys (s.setChars j.chars) j.arguments

end Command

/-- What `runJob` does to the array `path`. -/
def storeJob (path c : Chars) (arguments : List Int) : Chars :=
  let jobname := cstr c (arguments.headD 0)
  if strcmp jobname (str "cd") = 0 then path
  else if strcmp jobname (str "export") = 0 then
    match arguments[1]? with
    | none => path
    | some a =>
        if c.mem a = ascii 'P' ∧ c.mem (a + 1) = ascii 'S' ∧ c.mem (a + 2) = ascii '1' then path
        else putEnvArray path c a
  else path

def pathAfter (path : Chars) (commands : List Command) : Chars :=
  commands.foldl (fun path j => storeJob path j.chars j.arguments) path

section Commands

variable {path : Chars} {j : Command} {p : List Byte}

theorem cd_path (sys : Sys) (s : Shell) (arguments : List Int) :
    (cd sys s arguments).path = s.path := by
  unfold cd
  cases arguments[1]? with
  | none => rfl
  | some a =>
      simp only
      split_ifs <;> rfl

theorem execBinary_path (sys : Sys) (s : Shell) (arguments : List Int) :
    (execBinary sys s arguments).path = s.path := by
  unfold execBinary
  simp only
  split <;> rfl

/-- `path` of the shell is the string in the array. -/
theorem runJob_path (sys : Sys) (s : Shell) (arguments : List Int) (h : s.path = cstr path 0) :
    (runJob sys s arguments).path = cstr (storeJob path s.chars arguments) 0 := by
  unfold runJob storeJob
  simp only
  split
  · rw [cd_path, h]
  · split
    · unfold setEnvVariables
      cases arguments[1]? with
      | none => exact h
      | some a =>
          simp only
          split
          · rw [← h]
            split
            · rfl
            · split <;> rfl
          · exact (cstr_putEnvArray ..).symm
    · rw [execBinary_path, h]

/-- **The path of a shell**, after any commands. -/
theorem commands_path (sys : Sys) (s : Shell) (commands : List Command) (h : s.path = cstr path 0) :
    (commands.foldl (Command.run sys) s).path = cstr (pathAfter path commands) 0 := by
  induction commands generalizing s path with
  | nil => exact h
  | cons j commands ih => exact ih _ (runJob_path sys _ j.arguments h)

/-- Commands other than `export` leave the array alone. -/
theorem storeJob_other {c : Chars} {arguments : List Int}
    (h : (arguments.map (cstr c)).head? ≠ some (str "export")) :
    storeJob path c arguments = path := by
  unfold storeJob
  simp only [strcmp_cstr (show 0#8 ∉ str "cd" by decide),
    strcmp_cstr (show 0#8 ∉ str "export" by decide)]
  cases arguments with
  | nil => simp
  | cons a arguments =>
      have hname : cstr c a ≠ str "export" := fun heq => h (congrArg some heq)
      rw [List.headD_cons, if_neg hname, ite_self]

theorem Command.Exports.storeJob (h : j.Exports p) :
    cstr (storeJob path j.chars j.arguments) 0 = p := by
  obtain ⟨hhead, hvalue⟩ := h
  obtain ⟨a₀, ha₀, hname⟩ : ∃ a₀, j.arguments.headD 0 = a₀ ∧ cstr j.chars a₀ = str "export" := by
    refine ⟨_, rfl, ?_⟩
    rw [words, List.head?_map] at hhead
    obtain ⟨a, ha, hname⟩ := Option.map_eq_some_iff.mp hhead
    rwa [List.headD_eq_head?_getD, ha]
  rw [words, List.getElem?_map] at hvalue
  obtain ⟨a, ha, htext⟩ := Option.map_eq_some_iff.mp hvalue
  have hst := stored_cstr j.chars a
  rw [htext, List.append_assoc, stored_append] at hst
  have hzero : 0#8 ∉ p := fun hmem =>
    zero_notMem_cstr j.chars a (htext ▸ List.mem_append_right _ hmem)
  have hletter : ¬ j.chars.mem (a + 1) = ascii 'S' := by
    rw [hst.1.2.1]
    decide
  unfold Sbush.storeJob
  simp only [ha₀, hname, ha]
  rw [if_neg (by decide), if_pos (by decide), if_neg fun hps1 => hletter hps1.2.1,
    cstr_putEnvArray]
  exact cstr_eq hst.2 hzero

/-- The path is the value of the last `export`. -/
theorem cstr_pathAfter (path : Chars) (before : List Command) (h : j.Exports p)
    {after : List Command} (hafter : ∀ j ∈ after, j.words.head? ≠ some (str "export")) :
    cstr (pathAfter path (before ++ j :: after)) 0 = p := by
  rw [pathAfter, List.foldl_append, List.foldl_cons]
  generalize before.foldl _ path = path₁
  have hstored : cstr (storeJob path₁ j.chars j.arguments) 0 = p := h.storeJob
  generalize storeJob path₁ j.chars j.arguments = path₂ at hstored
  induction after with
  | nil => exact hstored
  | cons j' after ih =>
      obtain ⟨hj', hafter⟩ := List.forall_mem_cons.mp hafter
      rw [List.foldl_cons, storeJob_other hj']
      exact ih hafter

end Commands

/-- **Looking up a command.** After any commands, an `export PATH=p` and
commands other than `export`, the name of a command is the path and the
command exactly if there is no slash in `p` but in its last place, and the
name fits into `bin`. -/
theorem namesFile_iff (path bin : Chars) (before : List Command) {j : Command} {p : List Byte}
    (h : j.Exports p) {after : List Command}
    (hafter : ∀ j ∈ after, j.words.head? ≠ some (str "export")) (c : Chars) (arg0 : Int) :
    NamesFile (pathAfter path (before ++ j :: after)) bin c arg0 p ↔
      ascii '/' ∉ p.dropLast ∧
        (p.takeWhile (· ≠ ascii '/')).length + 1 + (cstr c arg0).length < bufSize := by
  have hpath := cstr_pathAfter path before h hafter
  generalize pathAfter path (before ++ j :: after) = path₁ at hpath
  have hname := cstr_binArray path₁ (bin.watch 0) c arg0
  have hwithin := binArray_within_iff path₁ bin c arg0
  rw [hpath] at hname hwithin
  rw [← takeWhile_slash_iff p (cstr c arg0), ← hwithin, ← hname]
  exact ⟨fun hnames => ⟨hnames.name, hnames.within⟩, fun hboth => ⟨hboth.2, hboth.1⟩⟩

def exportCommand (p : String) : Command where
  chars := (Cells.clear.putAll 0 (str "export")).putAll 7 (str ("PATH=" ++ p))
  arguments := [0, 7]

/-- With the path `usr/` a command is looked up there, -/
theorem namesFile_usr :
    (exportCommand "usr/").Exports (str "usr/") ∧
      NamesFile (pathAfter .clear [exportCommand "bin", exportCommand "usr/"]) .clear
        (Cells.clear.putAll 0 (str "ls")) 0 (str "usr/") := by
  have hexports : (exportCommand "usr/").Exports (str "usr/") := by decide +kernel
  have hnone : ∀ j ∈ ([] : List Command), j.words.head? ≠ some (str "export") := by simp
  exact ⟨hexports, (namesFile_iff .clear .clear [exportCommand "bin"] hexports hnone _ 0).mpr
    ⟨by decide, by decide +kernel⟩⟩

/-- but with `usr/bin` in `usr`. -/
theorem namesFile_nested :
    (exportCommand "usr/bin").Exports (str "usr/bin") ∧
      cstr (binArray (pathAfter .clear [exportCommand "usr/bin"]) (Cells.clear.watch 0)
        (Cells.clear.putAll 0 (str "ls")) 0) 0 = str "usr/ls" ∧
      ¬ NamesFile (pathAfter .clear [exportCommand "usr/bin"]) .clear
        (Cells.clear.putAll 0 (str "ls")) 0 (str "usr/bin") := by
  have hbin : cstr (binArray (pathAfter .clear [exportCommand "usr/bin"]) (Cells.clear.watch 0)
      (Cells.clear.putAll 0 (str "ls")) 0) 0 = str "usr/ls" := by decide +kernel
  refine ⟨by decide +kernel, hbin, fun h => ?_⟩
  have hname := hbin.symm.trans h.name
  exact absurd hname (by decide +kernel)

end SnowOs.Sbush
