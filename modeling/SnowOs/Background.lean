import SnowOs.History
import SnowOs.SbushParse

/-!
# Which commands the shell waits for

`shell_parse` sets `is_background` on a line that ends with `&`, and only
`shell_init` clears it, at a prompt. What was done is a list of acts, so
the property is read off that list: each start of a program against the
line parsed last before it (`OwnMode`). The flag always tells whether some
line since the last prompt ended with `&` (`Follows`), from which the
condition is exact (`own_mode_iff`).

On the way it is decided which lines overrun a table (`Fits`), from the
words of the line alone.
-/

namespace SnowOs.Sbush

open Cells

/-! ## What a line asks for -/

/-- The line ends with `&`. -/
def endsBackground (line : List Byte) : Bool := line.getLast? = some (ascii '&')

def cutBackground (line : List Byte) : List Byte :=
  if endsBackground line then line.dropLast else line

/-- The words of a line, as `shell_parse` splits it: two spaces in a row
have an empty word between them. -/
def words (line : List Byte) : List (List Byte) := (trim (cutBackground line)).splitOn (ascii ' ')

/-- The words are those of an `export` of `PS1`, with too many `=` for
the table of the tokens. -/
def PromptOverruns (ws : List (List Byte)) : Prop :=
  ws.head? = some (str "export") ∧
    ∃ w, ws[1]? = some w ∧ str "PS1" <+: w ∧ maxArgs ≤ (w.splitOn (ascii '=')).length

/-- The words of the line, and the parts of a `PS1` it sets, fit in the
tables they are stored in. -/
def Fits (line : List Byte) : Prop := (words line).length < maxArgs ∧ ¬ PromptOverruns (words line)

/-! ## Strings -/

section Strings

variable {c : Chars} {p : Int} {s t : List Byte}

theorem strcmp_eq_zero_iff (hs : 0#8 ∉ s) (ht : 0#8 ∉ t) : strcmp s t = 0 ↔ s = t := by
  rw [strcmp, kstrcmp_eq_zero_iff, cString_eq_self hs, cString_eq_self ht]

theorem strcmp_cstr (ht : 0#8 ∉ t) : strcmp (cstr c p) t = 0 ↔ cstr c p = t :=
  strcmp_eq_zero_iff (zero_notMem_cstr c p) ht

theorem mem_last {a : Byte} (hne : cstr c p ≠ []) :
    c.mem (p + (cstr c p).length - 1) = a ↔ (cstr c p).getLast? = some a := by
  have hst := stored_cstr c p
  obtain ⟨init, b, hs⟩ := (List.eq_nil_or_concat (cstr c p)).resolve_left hne
  rw [List.concat_eq_append] at hs
  rw [hs, List.append_assoc, stored_append] at hst
  have hcell : c.mem (p + init.length) = b := hst.2.1
  have hpos : p + ((init ++ [b]).length : Int) - 1 = p + init.length := by
    rw [List.length_append, List.length_singleton]
    omega
  rw [hs, hpos, hcell, List.getLast?_concat, Option.some.injEq]

theorem cstr_put_last (hne : cstr c p ≠ []) :
    cstr (c.put (p + (cstr c p).length - 1) 0#8) p = (cstr c p).dropLast := by
  have hst := stored_cstr c p
  have hzero := zero_notMem_cstr c p
  obtain ⟨init, b, hs⟩ := (List.eq_nil_or_concat (cstr c p)).resolve_left hne
  rw [List.concat_eq_append] at hs
  have hpos : p + ((init ++ [b]).length : Int) - 1 = p + init.length := by
    rw [List.length_append, List.length_singleton]
    omega
  rw [hs, List.append_assoc, stored_append] at hst
  rw [hs] at hzero
  rw [hs, hpos, List.dropLast_concat]
  refine cstr_eq (stored_append.mpr ⟨hst.1.congr fun j hj hlt => ?_, ?_, trivial⟩)
    fun h => hzero (List.mem_append_left _ h)
  · exact Function.update_of_ne (by omega) ..
  · exact Function.update_self ..

theorem prefix_cstr_iff (ht : 0#8 ∉ t) : t <+: cstr c p ↔ Stored c.mem p t := by
  have hst := stored_cstr c p
  have hzero := zero_notMem_cstr c p
  generalize cstr c p = s at hst hzero
  constructor
  · rintro ⟨rest, rfl⟩
    rw [List.append_assoc, stored_append] at hst
    exact hst.1
  · intro h
    induction t generalizing p s with
    | nil => exact List.nil_prefix
    | cons x t ih =>
        cases s with
        | nil => exact absurd (h.1.symm.trans hst.1) (by rintro rfl; exact ht (by simp))
        | cons y s =>
            have hxy : x = y := h.1.symm.trans hst.1
            rw [hxy, List.cons_prefix_cons]
            exact ⟨rfl, ih (fun hm => ht (List.mem_cons_of_mem _ hm)) s hst.2
              (fun hm => hzero (List.mem_cons_of_mem _ hm)) h.2⟩

theorem notMem_of_mem_splitOn {d : Byte} {piece : List Byte} (h : piece ∈ s.splitOn d) :
    d ∉ piece := by
  induction s generalizing piece with
  | nil =>
      rw [List.splitOn_nil, List.mem_singleton] at h
      simp [h]
  | cons a s ih =>
      rw [List.splitOn_cons_eq_if_modifyHead] at h
      split at h
      · rcases List.mem_cons.mp h with rfl | h
        · simp
        · exact ih h
      · next ha =>
          cases hs : s.splitOn d with
          | nil => exact absurd hs (List.splitOn_ne_nil d s)
          | cons b pieces =>
              rw [hs, List.modifyHead_cons] at h
              rw [hs] at ih
              rcases List.mem_cons.mp h with rfl | h
              · have := ih (List.mem_cons_self ..)
                simpa [this] using fun h => ha (by simp [h])
              · exact ih (List.mem_cons_of_mem _ h)

theorem trim_eq_self (h : ascii ' ' ∉ s) : trim s = s := by
  have hall : ∀ x ∈ s, ¬ isSpace x = true := fun x hx => by
    simpa [isSpace] using ne_of_mem_of_not_mem hx h
  have hfront : s.dropWhile isSpace = s := by
    cases s with
    | nil => rfl
    | cons a s => exact List.dropWhile_cons_of_neg (hall a (List.mem_cons_self ..))
  rw [trim, hfront, List.rdropWhile_eq_self_iff]
  exact fun hne => hall _ (List.getLast_mem hne)

theorem map_trim_splitOn (s : List Byte) :
    (s.splitOn (ascii ' ')).map trim = s.splitOn (ascii ' ') := by
  refine (List.map_congr_left fun piece h => ?_).trans (List.map_id _)
  exact trim_eq_self (notMem_of_mem_splitOn h)

end Strings

/-! ## What a line does -/

/-- What a job may add to the acts: programs are started as the flag
says, and no line is read. -/
def Act.Plain (background : Bool) : Act → Prop
  | .spawn _ _ waited => waited = !background
  | .job _ => True
  | .write _ => True
  | _ => False

/-- The state after a job, `overruns` telling whether it overruns a table. -/
structure JobDone (s : Shell) (overruns : Prop) (s' : Shell) : Prop where
  acts : ∃ tail, s'.acts = s.acts ++ tail ∧ ∀ a ∈ tail, a.Plain s.isBackground
  background : s'.isBackground = s.isBackground
  overrun : s'.fault = some .tableOverrun ↔ overruns

section Jobs

variable {s s' : Shell} {arguments : List Int} {ws : List (List Byte)} {overruns : Prop}

theorem JobDone.same (hacts : s'.acts = s.acts) (hbg : s'.isBackground = s.isBackground)
    (hover : s'.fault = some .tableOverrun ↔ overruns) : JobDone s overruns s' :=
  ⟨⟨[], by simp [hacts], by simp⟩, hbg, hover⟩

theorem JobDone.note {a : Act} (h : JobDone s overruns s') (ha : a.Plain s.isBackground) :
    JobDone s overruns (s'.note a) := by
  obtain ⟨tail, htail, hplain⟩ := h.acts
  refine ⟨⟨tail ++ [a], by simp [Shell.note, htail], fun b hb => ?_⟩, h.background, h.overrun⟩
  rcases List.mem_append.mp hb with hb | hb
  · exact hplain b hb
  · rwa [List.mem_singleton.mp hb]

theorem execBinary_done (sys : Sys) (arguments : List Int) (hfault : s.fault = none) :
    JobDone s False (execBinary sys s arguments) := by
  have hsame : ∀ c, JobDone s False (s.setChars c) := fun c =>
    .same rfl rfl (by simp [Shell.setChars, hfault])
  unfold execBinary
  simp only
  split
  · refine JobDone.note (.note (hsame _) ?_) ?_
    · rfl
    · trivial
  · refine .note (hsame _) ?_
    rfl

theorem cd_done (sys : Sys) (arguments : List Int) (hfault : s.fault = none) :
    JobDone s False (cd sys s arguments) := by
  unfold cd
  cases arguments[1]? with
  | none => exact .same rfl rfl (by simp [Shell.fail])
  | some a =>
      simp only
      generalize hs' : (if s.chars.mem (a + (cstr s.chars a).length - 1) ≠ ascii '/' then
        s.setChars ((s.chars.put (a + (cstr s.chars a).length) (ascii '/')).put
          (a + (cstr s.chars a).length + 1) 0#8) else s) = s'
      have hdone : JobDone s False s' := by
        rw [← hs']
        split
        · exact .same rfl rfl (by simp [Shell.setChars, hfault])
        · exact .same rfl rfl (by simp [hfault])
      generalize (if s'.chars.mem a = ascii '/' then cstr s'.chars (a + 1)
        else s'.cwd ++ cstr s'.chars a) = dir
      split
      · split
        · exact ⟨hdone.acts, hdone.background, hdone.overrun⟩
        · exact hdone.note trivial
      · exact hdone.note trivial

theorem prefix_ps1_iff {c : Chars} {a : Int} : str "PS1" <+: cstr c a ↔
    c.mem a = ascii 'P' ∧ c.mem (a + 1) = ascii 'S' ∧ c.mem (a + 2) = ascii '1' := by
  rw [prefix_cstr_iff (by decide)]
  simp [str, Stored, add_assoc]

theorem setEnvVariables_done (hfault : s.fault = none)
    (hws : arguments.map (cstr s.chars) = ws) :
    JobDone s (∃ w, ws[1]? = some w ∧ str "PS1" <+: w ∧
      maxArgs ≤ (w.splitOn (ascii '=')).length) (setEnvVariables s arguments) := by
  subst hws
  unfold setEnvVariables
  rw [List.getElem?_map]
  cases arguments[1]? with
  | none => exact .same rfl rfl (by simp [Shell.fail])
  | some a =>
      have hlen : (parseSplit s.chars a (ascii '=')).1.length
          = ((cstr s.chars a).splitOn (ascii '=')).length := by
        have htexts := (parseSplit_spec s.chars a (ascii '=')).texts
        simpa using congrArg List.length htexts
      simp only [Option.map_some, Option.some.injEq, exists_eq_left', ← prefix_ps1_iff, hlen]
      split
      · next hprefix =>
          split
          · next hle => exact .same rfl rfl (by simp [Shell.fail, hprefix, hle])
          · next hle =>
              cases (parseSplit s.chars a (ascii '=')).1[1]? with
              | none => exact .same rfl rfl (by simp [Shell.fail, hle])
              | some v => exact .same rfl rfl (by simp [hfault, hle])
      · next hprefix => exact .same rfl rfl (by simp [putEnv, hfault, hprefix])

theorem runJob_done (sys : Sys) (hfault : s.fault = none)
    (hws : arguments.map (cstr s.chars) = ws) (hne : ws ≠ []) :
    JobDone s (PromptOverruns ws) (runJob sys s arguments) := by
  obtain ⟨jobname, rest, rfl⟩ := List.exists_cons_of_ne_nil hne
  obtain ⟨a, arguments, rfl⟩ : ∃ a l, arguments = a :: l := by
    cases arguments with
    | nil => simp at hws
    | cons a l => exact ⟨a, l, rfl⟩
  have hname : cstr s.chars a = jobname := by
    rw [List.map_cons] at hws
    exact (List.cons.inj hws).1
  unfold runJob PromptOverruns
  have hcmp : ∀ t, 0#8 ∉ t → (strcmp jobname t = 0 ↔ jobname = t) := by
    intro t ht
    rw [← hname]
    exact strcmp_cstr ht
  simp only [List.headD_cons, List.head?_cons, Option.some.injEq, hname,
    hcmp (str "cd") (by decide), hcmp (str "export") (by decide)]
  split
  · next hcd =>
      have hdone := cd_done sys (a :: arguments) hfault
      have hother : str "cd" ≠ str "export" := by decide
      exact ⟨hdone.acts, hdone.background, hdone.overrun.trans (by simp [hcd, hother])⟩
  · split
    · next hexport =>
        have hdone := setEnvVariables_done hfault hws
        exact ⟨hdone.acts, hdone.background, hdone.overrun.trans (by simp [hexport])⟩
    · next hexport =>
        have hdone := execBinary_done sys (a :: arguments) hfault
        exact ⟨hdone.acts, hdone.background, hdone.overrun.trans (by simp [hexport])⟩

end Jobs

/-- The state after a line that was parsed. -/
structure LineDone (s : Shell) (line : List Byte) (s' : Shell) : Prop where
  acts : ∃ tail, s'.acts = s.acts ++ .parse line :: tail ∧ ∀ a ∈ tail, a.Plain s'.isBackground
  background : s'.isBackground = (s.isBackground || endsBackground line)
  overrun : s'.fault = some .tableOverrun ↔ ¬ Fits line

section Lines

variable {s : Shell} {input : Int}

theorem takeBackground_eq (hne : cstr s.chars input ≠ []) :
    let s' := takeBackground s input (cstr s.chars input).length
    s'.acts = s.acts ∧ s'.fault = s.fault ∧
      s'.isBackground = (s.isBackground || endsBackground (cstr s.chars input)) ∧
      cstr s'.chars input = cutBackground (cstr s.chars input) := by
  unfold takeBackground cutBackground
  simp only [mem_last hne]
  by_cases h : (cstr s.chars input).getLast? = some (ascii '&')
  · rw [if_pos h]
    simp [endsBackground, h, cstr_put_last hne]
  · rw [if_neg h]
    simp [endsBackground, h]

/-- Behind the test for the background, `shell_parse` has the words of
the line. -/
theorem parseJob_done (sys : Sys) (hfault : s.fault = none) (hne : cstr s.chars input ≠ []) :
    JobDone (takeBackground s input (cstr s.chars input).length)
      (¬ Fits (cstr s.chars input)) (parseJob sys s input (cstr s.chars input).length) := by
  obtain ⟨-, hfault', -, hcut⟩ := takeBackground_eq hne
  unfold parseJob Fits words
  rw [hfault] at hfault'
  rw [← hcut]
  generalize takeBackground s input (cstr s.chars input).length = s1 at hfault'
  simp only
  have htrim := removeWhiteSpaces_spec s1.chars input
  generalize removeWhiteSpaces s1.chars input = w at htrim
  have hsplit := parseSplit_spec w.2 w.1 (ascii ' ')
  generalize parseSplit w.2 w.1 (ascii ' ') = t at hsplit
  have htexts := hsplit.texts
  rw [map_trim_splitOn, htrim.text] at htexts
  rw [← htexts, List.length_map]
  split
  · next hle => exact .same rfl rfl (by simp [Shell.fail, hle])
  · next hlt =>
      have hwords : t.1.map (cstr t.2) ≠ [] := by
        rw [htexts]
        exact List.splitOn_ne_nil _ _
      have hjob := runJob_done (s := s1.setChars t.2) sys hfault' rfl hwords
      refine ⟨hjob.acts, hjob.background, hjob.overrun.trans ?_⟩
      simp [Shell.setChars, Nat.lt_of_not_le hlt]

theorem fits_of_words {line w : List Byte} (hwords : words line = [w]) : Fits line := by
  rw [Fits, hwords]
  refine ⟨by simp [maxArgs], ?_⟩
  rintro ⟨-, v, hv, -⟩
  simp at hv

theorem lineDone_variable {line value : List Byte} (hfault : s.fault = none)
    (hend : endsBackground line = false) (hwords : words line = [line]) :
    LineDone s line
      (((s.note (.parse line)).note (.write value)).note (.write (str "\n"))) where
  acts := ⟨[.write value, .write (str "\n")], by simp [Shell.note], by simp [Act.Plain]⟩
  background := by simp [Shell.note, hend]
  overrun := by simp [Shell.note, hfault, fits_of_words hwords]

theorem shellParse_done (sys : Sys) (hfault : s.fault = none) (hne : cstr s.chars input ≠ []) :
    LineDone s (cstr s.chars input)
      (shellParse sys s input (cstr s.chars input).length) := by
  unfold shellParse
  simp only [strcmp_cstr (t := str "$PATH") (by decide), strcmp_cstr (t := str "$PS1") (by decide)]
  split
  · next hpath =>
      rw [hpath]
      exact lineDone_variable hfault (by decide) (by decide)
  · split
    · next hps1 =>
        rw [hps1]
        exact lineDone_variable hfault (by decide) (by decide)
    · have hnote : cstr (s.note (.parse (cstr s.chars input))).chars input
          = cstr s.chars input := rfl
      have hjob := parseJob_done (s := s.note (.parse (cstr s.chars input))) sys hfault hne
      obtain ⟨hacts, -, hbg, -⟩ := takeBackground_eq (s := s.note (.parse (cstr s.chars input))) hne
      rw [hnote] at hjob hacts hbg
      obtain ⟨tail, htail, hplain⟩ := hjob.acts
      refine ⟨⟨tail, ?_, ?_⟩, hjob.background.trans hbg, hjob.overrun⟩
      · rw [htail, hacts]
        simp [Shell.note]
      · rw [hjob.background]
        exact hplain

end Lines

/-! ## Runs -/

def Act.line? : Act → Option (List Byte)
  | .parse line => some line
  | _ => none

def Act.isPrompt : Act → Bool
  | .prompt _ => true
  | _ => false

def lastLine (acts : List Act) : Option (List Byte) := (acts.filterMap Act.line?).getLast?

/-- The lines parsed since the last prompt. -/
def sincePrompt (acts : List Act) : List (List Byte) :=
  (acts.rtakeWhile fun a => !a.isPrompt).filterMap Act.line?

/-- Each start of a program, with what was done before it. -/
def EachSpawn (P : List Act → Bool → Prop) (acts : List Act) : Prop :=
  Each (fun before a => ∀ bin arguments waited,
    a = .spawn bin arguments waited → P before waited) acts

/-- A command is run without waiting for it exactly if its own line ends
with `&`. -/
def OwnMode (acts : List Act) : Prop :=
  EachSpawn (fun before waited =>
    ∃ line, lastLine before = some line ∧ (waited = false ↔ endsBackground line = true)) acts

/-- No command on a line without an `&` comes behind a line with one, with
no prompt in between. -/
def Unmixed (acts : List Act) : Prop :=
  EachSpawn (fun before _ => ∀ line, lastLine before = some line → endsBackground line = false →
    ∀ earlier ∈ sincePrompt before, endsBackground earlier = false) acts

/-- The lines parsed, and the lines of the scripts, fit in their tables. -/
def FitsTables (acts : List Act) : Prop :=
  (∀ line, .parse line ∈ acts → Fits line) ∧
    ∀ text, .script text ∈ acts → (text.splitOn (ascii '\n')).length < maxLines

section Acts

variable {acts tail : List Act} {a : Act} {P : List Act → Bool → Prop} {background : Bool}

theorem eachSpawn_concat : EachSpawn P (acts ++ [a]) ↔
    EachSpawn P acts ∧ ∀ bin arguments waited, a = .spawn bin arguments waited → P acts waited :=
  each_concat

theorem lastLine_concat : lastLine (acts ++ [a]) = a.line?.or (lastLine acts) := by
  cases h : a.line? <;> simp [lastLine, h]

theorem sincePrompt_concat : sincePrompt (acts ++ [a])
    = if a.isPrompt then [] else sincePrompt acts ++ a.line?.toList := by
  unfold sincePrompt
  rw [List.rtakeWhile_concat]
  cases a <;> simp [Act.isPrompt, Act.line?]

/-- What the flag tells, and how the programs were started. -/
structure Follows (acts : List Act) (background : Bool) : Prop where
  flag : background = (sincePrompt acts).any endsBackground
  each : EachSpawn (fun before waited => waited = !(sincePrompt before).any endsBackground ∧
    ∃ line, lastLine before = some line ∧ line ∈ sincePrompt before) acts

theorem Follows.prompt (h : Follows acts background) (text : List Byte) :
    Follows (acts ++ [.prompt text]) false where
  flag := by simp [sincePrompt_concat, Act.isPrompt]
  each := eachSpawn_concat.mpr ⟨h.each, by simp⟩

theorem Follows.parse (h : Follows acts background) (line : List Byte) :
    Follows (acts ++ [.parse line]) (background || endsBackground line) where
  flag := by simp [sincePrompt_concat, Act.isPrompt, Act.line?, h.flag]
  each := eachSpawn_concat.mpr ⟨h.each, by simp⟩

/-- An act that is neither a prompt nor a line nor the start of a
program. -/
theorem Follows.other (h : Follows acts background) (hprompt : a.isPrompt = false)
    (hline : a.line? = none) (hspawn : a.isSpawn = false) : Follows (acts ++ [a]) background where
  flag := by simp [sincePrompt_concat, hprompt, hline, h.flag]
  each := eachSpawn_concat.mpr ⟨h.each, by rintro bin arguments waited rfl; cases hspawn⟩

theorem Follows.plain (h : Follows acts background)
    (hline : ∃ line, lastLine acts = some line ∧ line ∈ sincePrompt acts)
    (hplain : ∀ a ∈ tail, a.Plain background) : Follows (acts ++ tail) background := by
  induction tail generalizing acts with
  | nil => rwa [List.append_nil]
  | cons a tail ih =>
      have ha := hplain a (List.mem_cons_self ..)
      have hkind : a.isPrompt = false ∧ a.line? = none := by
        cases a <;> first | exact ⟨rfl, rfl⟩ | cases ha
      obtain ⟨line, hlast, hmem⟩ := hline
      rw [List.append_cons]
      refine ih ⟨?_, eachSpawn_concat.mpr ⟨h.each, ?_⟩⟩ ⟨line, ?_, ?_⟩
        fun b hb => hplain b (List.mem_cons_of_mem _ hb)
      · simp [sincePrompt_concat, hkind, h.flag]
      · rintro bin arguments waited rfl
        rw [← h.flag]
        exact ⟨ha, line, hlast, hmem⟩
      · simp [lastLine_concat, hkind, hlast]
      · simpa [sincePrompt_concat, hkind] using hmem

/-- If every program was started as the flag says, each has its own mode
exactly if no line is behind one with an `&`. -/
theorem Follows.ownMode_iff (h : Follows acts background) : OwnMode acts ↔ Unmixed acts := by
  constructor
  · intro hown before a after heq bin arguments waited ha line hline hend earlier hearlier
    obtain ⟨hwaited, -⟩ := h.each before a after heq bin arguments waited ha
    obtain ⟨line', hline', hmode⟩ := hown before a after heq bin arguments waited ha
    obtain rfl : line = line' := Option.some.inj (hline.symm.trans hline')
    cases waited with
    | false => simp [hend] at hmode
    | true =>
        have hnone : (sincePrompt before).any endsBackground = false := by simpa using hwaited
        simpa using List.any_eq_false.mp hnone earlier hearlier
  · intro hmixed before a after heq bin arguments waited ha
    obtain ⟨hwaited, line, hline, hmem⟩ := h.each before a after heq bin arguments waited ha
    refine ⟨line, hline, ?_⟩
    cases hend : endsBackground line with
    | true =>
        have hany : (sincePrompt before).any endsBackground = true :=
          List.any_eq_true.mpr ⟨line, hmem, hend⟩
        simp [hwaited, hany]
    | false =>
        have hnone : (sincePrompt before).any endsBackground = false :=
          List.any_eq_false.mpr fun earlier hearlier => by
            simp [hmixed before a after heq bin arguments waited ha line hline hend earlier hearlier]
        simp [hwaited, hnone]

end Acts

/-- What every state of the shell keeps. -/
structure Kept (s : Shell) : Prop where
  follows : Follows s.acts s.isBackground
  overrun : s.fault = some .tableOverrun ↔ ¬ FitsTables s.acts

section Runs

variable {s s' : Shell} {sys : Sys}

theorem Kept.fitsTables (h : Kept s) (hfault : s.fault = none) : FitsTables s.acts := by
  by_contra hover
  rw [h.overrun.mpr hover] at hfault
  cases hfault

theorem fitsTables_append {acts tail : List Act}
    (htail : ∀ a ∈ tail, (∀ line, a ≠ .parse line) ∧ ∀ text, a ≠ .script text) :
    FitsTables (acts ++ tail) ↔ FitsTables acts := by
  have hparse : ∀ line, .parse line ∈ acts ++ tail ↔ .parse line ∈ acts := fun line =>
    ⟨fun h => (List.mem_append.mp h).resolve_right fun h => (htail _ h).1 line rfl,
      List.mem_append_left _⟩
  have hscript : ∀ text, .script text ∈ acts ++ tail ↔ .script text ∈ acts := fun text =>
    ⟨fun h => (List.mem_append.mp h).resolve_right fun h => (htail _ h).2 text rfl,
      List.mem_append_left _⟩
  simp only [FitsTables, hparse, hscript]

theorem Kept.note {a : Act} (h : Kept s) (hprompt : a.isPrompt = false) (hline : a.line? = none)
    (hspawn : a.isSpawn = false) (hscript : ∀ text, a ≠ .script text) : Kept (s.note a) where
  follows := h.follows.other hprompt hline hspawn
  overrun := by
    refine h.overrun.trans (not_congr (fitsTables_append fun b hb => ?_).symm)
    obtain rfl := List.mem_singleton.mp hb
    refine ⟨?_, hscript⟩
    rintro line rfl
    cases hline

theorem Kept.setChars (h : Kept s) (c : Chars) : Kept (s.setChars c) := ⟨h.follows, h.overrun⟩

theorem Kept.line {line : List Byte} (h : Kept s) (hfault : s.fault = none)
    (hdone : LineDone s line s') : Kept s' := by
  obtain ⟨tail, hacts, hplain⟩ := hdone.acts
  rw [List.append_cons] at hacts
  have hfits := h.fitsTables hfault
  constructor
  · rw [hacts]
    refine Follows.plain ?_ ⟨line, ?_, ?_⟩ hplain
    · rw [hdone.background]
      exact h.follows.parse line
    · simp [lastLine_concat, Act.line?]
    · simp [sincePrompt_concat, Act.line?, Act.isPrompt]
  · rw [hdone.overrun, hacts, fitsTables_append]
    · refine not_congr ⟨fun hline => ⟨?_, ?_⟩, fun hall => hall.1 line (by simp)⟩
      · intro line' hmem
        rcases List.mem_append.mp hmem with hmem | hmem
        · exact hfits.1 line' hmem
        · cases List.mem_singleton.mp hmem
          exact hline
      · intro text hmem
        rcases List.mem_append.mp hmem with hmem | hmem
        · exact hfits.2 text hmem
        · cases List.mem_singleton.mp hmem
    · intro a ha
      have hplain := hplain a ha
      constructor
      · rintro line rfl
        exact hplain
      · rintro text rfl
        exact hplain

theorem Kept.execLine (h : Kept s) (hfault : s.fault = none) (line : Int) :
    Kept (execLine sys s line) := by
  unfold Sbush.execLine
  simp only [strlen_fst]
  split
  · next htest =>
      have hne : cstr s.chars line ≠ [] := by
        intro hnil
        simp [hnil] at htest
      exact h.line hfault (shellParse_done sys hfault hne)
  · exact h

theorem Kept.execLines (h : Kept s) (lines : List Int) : Kept (execLines sys s lines) := by
  unfold Sbush.execLines
  induction lines generalizing s with
  | nil => exact h
  | cons line lines ih =>
      refine ih ?_
      dsimp only
      split
      · next hfault => exact h.execLine hfault line
      · exact h

theorem Kept.execScript (h : Kept s) (hfault : s.fault = none) (stack : Chars)
    (data : List Byte) : Kept (execScript sys stack s data) := by
  unfold Sbush.execScript
  simp only
  generalize stack.putAll 0 (Tarfs.readLoop bufSize data) = c
  have hsplit := parseSplit_spec c 0 (ascii '\n')
  have hlen : (parseSplit c 0 (ascii '\n')).1.length
      = ((cstr c 0).splitOn (ascii '\n')).length := by
    simpa using congrArg List.length hsplit.texts
  have hfollows : Follows (s.acts ++ [.script (cstr c 0)]) s.isBackground :=
    h.follows.other rfl rfl rfl
  have hfits := h.fitsTables hfault
  have hscript : FitsTables (s.acts ++ [.script (cstr c 0)]) ↔
      ((cstr c 0).splitOn (ascii '\n')).length < maxLines := by
    refine ⟨fun hall => hall.2 _ (by simp), fun hlt => ⟨fun line hmem => ?_, fun text hmem => ?_⟩⟩
    · exact hfits.1 line (by simpa using hmem)
    · rcases List.mem_append.mp hmem with hmem | hmem
      · exact hfits.2 text hmem
      · cases List.mem_singleton.mp hmem
        exact hlt
  rw [hlen]
  split
  · next hle =>
      refine ⟨hfollows, ?_⟩
      simp only [Shell.fail, Shell.note, hscript]
      simpa using hle
  · next hlt =>
      refine Kept.execLines ⟨hfollows, ?_⟩ _
      simp only [Shell.setChars, Shell.note, hfault, hscript]
      simpa using hlt

theorem Kept.shellExecfile (h : Kept s) (hfault : s.fault = none) (stack : Chars)
    (filename : List Byte) : Kept (shellExecfile sys stack s filename) := by
  unfold Sbush.shellExecfile
  simp only
  split
  · exact h.note rfl rfl rfl (by simp)
  · exact h.execScript hfault ..

theorem Kept.dispatch (h : Kept s) (hfault : s.fault = none) (stack : Chars) :
    Kept (dispatch sys stack s (cstr s.chars 0).length) := by
  unfold Sbush.dispatch
  simp only
  split
  · exact h
  · next hlen =>
      have hne : cstr s.chars 0 ≠ [] := fun hnil => hlen (by simp [hnil])
      split
      · exact h
      · split
        · exact h.shellExecfile hfault ..
        · split
          · exact h.shellExecfile hfault ..
          · exact h.line hfault (shellParse_done sys hfault hne)

theorem Kept.runInput (h : Kept s) (hfault : s.fault = none) (stack : Chars)
    (hne : cstr s.chars 0 ≠ []) : Kept (runInput sys stack s) := by
  have hcut := cstr_put_last hne
  unfold Sbush.runInput
  simp only [strlen_fst]
  rw [zero_add] at hcut
  split
  · generalize s.chars.put ((cstr s.chars 0).length - 1) 0#8 = c at hcut ⊢
    have hlen : ((cstr s.chars 0).length : Int) - 1 = (cstr c 0).length := by
      have hpos := List.length_pos_iff.mpr hne
      rw [hcut, List.length_dropLast]
      omega
    rw [hlen]
    exact (h.setChars c).dispatch hfault stack
  · exact h.dispatch hfault stack

theorem Kept.round (h : Kept s) (hfault : s.fault = none) (r : Round) : Kept (r.run sys s) := by
  unfold Round.run
  simp only
  generalize (r.around.putAll 0 (List.replicate bufSize 0#8)).putAll 0 (r.typed.take bufSize) = c
  generalize (if s.ps1Set = true then s.ps1 else s.cwd ++ str ": sbush> ") = text
  have hprompt : Kept ({ s with isBackground := false, chars := c }.note (.prompt text)) := by
    refine ⟨h.follows.prompt text, ?_⟩
    refine h.overrun.trans (not_congr (fitsTables_append fun b hb => ?_).symm)
    obtain rfl := List.mem_singleton.mp hb
    exact ⟨by simp, by simp⟩
  split
  · next hinput =>
      refine hprompt.runInput hfault _ fun hnil => hinput ?_
      have hend := mem_end c 0
      simp only [Shell.note] at hnil ⊢
      simpa [hnil] using hend
  · exact hprompt

theorem Kept.shellInit (h : Kept s) (rounds : List Round) : Kept (shellInit sys s rounds) := by
  unfold Sbush.shellInit
  induction rounds generalizing s with
  | nil => exact h
  | cons r rounds ih =>
      refine ih ?_
      dsimp only
      split
      · next hfault => exact h.round hfault r
      · exact h

theorem main_kept (sys : Sys) (argv : List (List Byte)) (env : Option (List Byte)) (stack : Chars)
    (rounds : List Round) : Kept (main sys argv env stack rounds) := by
  have hstart : ∀ path text, Kept { ({ chars := stack } : Shell).note (.write text) with path } := by
    intro path text
    refine ⟨⟨rfl, ?_⟩, ?_⟩
    · exact eachSpawn_concat.mpr ⟨each_nil, by simp⟩
    · simp [Shell.note, FitsTables]
  unfold main
  simp only
  split
  · exact (hstart _ _).shellExecfile rfl ..
  · exact hstart _ _
  · exact (hstart _ _).shellInit ..

end Runs

/-! ## Foreground and background -/

/-- The commands that the shell runs are waited for as their own lines
say, with no table overrun on the way, exactly if no command on a line
without an `&` comes behind a line with one since the last prompt, and all
lines fit in the tables. The flag is only cleared at a prompt. -/
theorem own_mode_iff (sys : Sys) (argv : List (List Byte)) (env : Option (List Byte))
    (stack : Chars) (rounds : List Round) :
    let s := main sys argv env stack rounds
    OwnMode s.acts ∧ s.fault ≠ some .tableOverrun ↔ Unmixed s.acts ∧ FitsTables s.acts := by
  have h := main_kept sys argv env stack rounds
  simp only
  rw [h.follows.ownMode_iff, ne_eq, h.overrun, not_not]

def clearStack : Chars := { mem := fun _ => 0#8, bound := 0, mem_blank := fun _ _ => rfl }

def oneFile (data : List Byte) : Sys where
  dirExists _ := false
  childPid _ := 4
  openFile _ := some data

/-- The last two kinds of lines of `stress_test.sbush`: behind `ls &` the
shell does not wait for `ps` either. -/
theorem background_kept :
    let s := main (oneFile (str "ls &\nps" ++ [0#8])) [str "sbush", str "etc/stress_test.sbush"]
      none clearStack []
    s.acts.drop 2 = [.parse (str "ls &"), .spawn (str "bin/ls") [str "ls"] false, .job 4,
      .parse (str "ps"), .spawn (str "bin/ps") [str "ps"] false, .job 4] ∧ ¬ OwnMode s.acts := by
  have hacts : (main (oneFile (str "ls &\nps" ++ [0#8]))
      [str "sbush", str "etc/stress_test.sbush"] none clearStack []).acts.drop 2
        = [.parse (str "ls &"), .spawn (str "bin/ls") [str "ls"] false, .job 4,
          .parse (str "ps"), .spawn (str "bin/ps") [str "ps"] false, .job 4] := by
    decide +kernel
  refine ⟨hacts, fun hown => ?_⟩
  generalize (main (oneFile (str "ls &\nps" ++ [0#8])) [str "sbush", str "etc/stress_test.sbush"]
    none clearStack []).acts = acts at hacts hown
  obtain ⟨line, hline, hmode⟩ := hown (acts.take 2 ++ [.parse (str "ls &"),
      .spawn (str "bin/ls") [str "ls"] false, .job 4] ++ [.parse (str "ps")])
    (.spawn (str "bin/ps") [str "ps"] false) [.job 4]
    (by simpa [hacts] using (List.take_append_drop 2 acts).symm) _ _ _ rfl
  rw [lastLine_concat] at hline
  have hps : str "ps" = line := Option.some.inj hline
  rw [← hps] at hmode
  exact absurd hmode (by decide)

end SnowOs.Sbush
