import SnowOs.Cells
import SnowOs.FileReads

/-!
# The shell (`bin/sbush/sbush.c`)

Lines are parsed in place: `parse_split` overwrites delimiters and spaces
with NULs and fills a table of pointers into the line. The model keeps the
memory around a line as `Cells`, so that a pointer may leave the line at
either end, and a table as the list of the pointers put there.

The shell ends at a null pointer that is followed. A pointer stored past
the end of a table overwrites whatever the compiler put behind it, so the
run of the model ends there as well (`Fault`).
-/

namespace SnowOs.Sbush

open Cells Tarfs

def bufSize : Nat := 256

def maxArgs : Nat := 8

def maxLines : Nat := 64

/-! ## Strings in memory -/

abbrev Chars := Cells Byte 0#8

def str (s : String) : List Byte := s.toList.map ascii

def isSpace (b : Byte) : Bool := b = ascii ' '

def isChar (b : Byte) : Bool := b ≠ 0#8

def cstr (c : Chars) (p : Int) : List Byte := read isChar c p

/-- `strcmp` of the library has the body of `kstrcmp`. -/
def strcmp (s1 s2 : List Byte) : Int := kstrcmp s1 s2

def strlen (c : Chars) (s : Int) : Int × Chars :=
  let r := scan isChar c s
  (r.1 - s, r.2)

/-- The second loop of `remove_white_spaces`, with `i` as a position. -/
def trimEnd : Nat → Chars → Int → Chars
  | 0, c, _ => c
  | rounds + 1, c, i =>
      if isSpace (c.mem i) then trimEnd rounds (c.put i 0#8) (i - 1) else c.look i

def removeWhiteSpaces (c : Chars) (src : Int) : Int × Chars :=
  let r := scan isSpace c src
  let n := strlen r.2 r.1
  (r.1, trimEnd n.2.span n.2 (r.1 + n.1 - 1))

/-- The loop of `parse_split`, with `i` and `last` as positions: the
pointers stored in `commands`, and `last` at the end. -/
def splitLoop (delimiter : Byte) :
    Nat → Chars → Int → Int → List Int → List Int × Int × Chars
  | 0, c, _, last, commands => (commands, last, c)
  | rounds + 1, c, i, last, commands =>
      if c.mem i = 0#8 then (commands, last, c.look i)
      else if c.mem i = delimiter then
        let r := removeWhiteSpaces (c.put i 0#8) (last + 1)
        splitLoop delimiter rounds r.2 (i + 1) i (commands ++ [r.1])
      else splitLoop delimiter rounds (c.look i) (i + 1) last commands

/-- `parse_split`: the pointers in front of the closing null pointer. -/
def parseSplit (c : Chars) (input : Int) (delimiter : Byte) : List Int × Chars :=
  let r := splitLoop delimiter c.span c input (input - 1) []
  let w := removeWhiteSpaces r.2.2 (r.2.1 + 1)
  (r.1 ++ [w.1], w.2)

/-! ## The shell -/

/-- What the shell does: it prompts, begins a script, parses a line,
starts a program and waits for it or not, tells the number of a job in the
background (`[1]`), or writes to the terminal. -/
inductive Act where
  | prompt (text : List Byte)
  | script (text : List Byte)
  | parse (line : List Byte)
  | spawn (bin : List Byte) (arguments : List (List Byte)) (waited : Bool)
  | job (pid : Int)
  | write (text : List Byte)
deriving DecidableEq, Repr

def Act.isSpawn : Act → Bool
  | .spawn .. => true
  | _ => false

/-- Why the run of the model ends. -/
inductive Fault where
  | nullPointer
  | tableOverrun
deriving DecidableEq, Repr

/-- The memory of the line, the globals, the working directory the kernel
keeps for the shell, and what was done so far. -/
structure Shell where
  chars : Chars
  isBackground : Bool := false
  ps1 : List Byte := str "cwd: sbush> "
  ps1Set : Bool := false
  path : List Byte := str "bin/"
  cwd : List Byte := []
  acts : List Act := []
  fault : Option Fault := none

/-- The kernel's answers: to `dir_exists`, to the `n`-th `fork`, and to
`open`, the bytes of the archive from the file's contents on. -/
structure Sys where
  dirExists : List Byte → Bool
  childPid : Nat → Int
  openFile : List Byte → Option (List Byte)

namespace Shell

def setChars (s : Shell) (c : Chars) : Shell := { s with chars := c }

def note (s : Shell) (a : Act) : Shell := { s with acts := s.acts ++ [a] }

def fail (s : Shell) (f : Fault) : Shell := { s with fault := some f }

end Shell

/-- How `exec_binary` rewrites the path passed to `cat` and `ls`, in
place: a leading slash is dropped, a relative path is put behind the
working directory. The length goes through a `char`. -/
def relocate (c : Chars) (cwd : List Byte) (a : Int) : Chars :=
  let arg := cstr c a
  if c.mem a = ascii '/' then
    let len := (BitVec.ofNat 8 arg.length).toInt.toNat
    c.putAll a ((arg.drop 1).take (len - 1) ++ [0#8])
  else c.putAll a (cwd ++ arg ++ [0#8])

@[inherit_doc relocate]
def relocateArgument (s : Shell) (arguments : List Int) : Chars :=
  let arg0 := cstr s.chars (arguments.headD 0)
  if strcmp arg0 (str "cat") = 0 ∨ strcmp arg0 (str "ls") = 0 then
    match arguments[1]? with
    | some a => relocate s.chars s.cwd a
    | none => s.chars
  else s.chars

/-- `exec_binary`, in the parent. -/
def execBinary (sys : Sys) (s : Shell) (arguments : List Int) : Shell :=
  let arg0 := cstr s.chars (arguments.headD 0)
  let bin := s.path.takeWhile (· ≠ ascii '/') ++ ascii '/' :: arg0
  let chars := relocateArgument s arguments
  let cPid := sys.childPid (s.acts.countP Act.isSpawn)
  let s := (s.setChars chars).note (.spawn bin (arguments.map (cstr chars)) !s.isBackground)
  if s.isBackground then s.note (.job cPid) else s

def putEnv (s : Shell) (newPath : Int) : Shell := { s with path := cstr s.chars (newPath + 5) }

def setEnvVariables (s : Shell) (arguments : List Int) : Shell :=
  match arguments[1]? with
  | none => s.fail .nullPointer
  | some a =>
      if s.chars.mem a = ascii 'P' ∧ s.chars.mem (a + 1) = ascii 'S' ∧
          s.chars.mem (a + 2) = ascii '1' then
        let t := parseSplit s.chars a (ascii '=')
        if maxArgs ≤ t.1.length then s.fail .tableOverrun
        else
          match t.1[1]? with
          | none => s.fail .nullPointer
          | some v =>
              let more := (arguments.drop 2).flatMap fun p => ascii ' ' :: cstr t.2 p
              { s with
                chars := t.2
                ps1 := cstr t.2 v ++ more ++ [ascii ' ']
                ps1Set := true }
      else putEnv s a

def cd (sys : Sys) (s : Shell) (arguments : List Int) : Shell :=
  match arguments[1]? with
  | none => s.fail .nullPointer
  | some a =>
      let len := (cstr s.chars a).length
      let s :=
        if s.chars.mem (a + len - 1) ≠ ascii '/' then
          s.setChars ((s.chars.put (a + len) (ascii '/')).put (a + len + 1) 0#8)
        else s
      if arguments.length = 2 then
        let dir :=
          if s.chars.mem a = ascii '/' then cstr s.chars (a + 1)
          else s.cwd ++ cstr s.chars a
        if sys.dirExists dir then { s with cwd := dir }
        else s.note (.write (str "cd: No such file or directory\n"))
      else s.note (.write (str "cd: Incorrect number of arguments\n"))

/-- The end of `shell_parse`, on the arguments it has split. -/
def runJob (sys : Sys) (s : Shell) (arguments : List Int) : Shell :=
  let jobname := cstr s.chars (arguments.headD 0)
  if strcmp jobname (str "cd") = 0 then cd sys s arguments
  else if strcmp jobname (str "export") = 0 then setEnvVariables s arguments
  else execBinary sys s arguments

/-- The test of `shell_parse` for a job in the background. -/
def takeBackground (s : Shell) (input lenInput : Int) : Shell :=
  if s.chars.mem (input + lenInput - 1) = ascii '&' then
    { s with isBackground := true, chars := s.chars.put (input + lenInput - 1) 0#8 }
  else s

/-- `shell_parse`, behind the two variables it prints. -/
def parseJob (sys : Sys) (s : Shell) (input lenInput : Int) : Shell :=
  let s := takeBackground s input lenInput
  let w := removeWhiteSpaces s.chars input
  let t := parseSplit w.2 w.1 (ascii ' ')
  if maxArgs ≤ t.1.length then s.fail .tableOverrun
  else runJob sys (s.setChars t.2) t.1

def shellParse (sys : Sys) (s : Shell) (input lenInput : Int) : Shell :=
  let line := cstr s.chars input
  let s := s.note (.parse line)
  if strcmp line (str "$PATH") = 0 then (s.note (.write s.path)).note (.write (str "\n"))
  else if strcmp line (str "$PS1") = 0 then (s.note (.write s.ps1)).note (.write (str "\n"))
  else parseJob sys s input lenInput

/-! ## Scripts and prompts -/


/-- The body of the loop of `shell_execfile`. -/
def execLine (sys : Sys) (s : Shell) (line : Int) : Shell :=
  if s.chars.mem line ≠ ascii '#' ∧ s.chars.mem (line + 1) ≠ ascii '!' ∧
      (strlen s.chars line).1 ≠ 0 then
    shellParse sys s line (strlen s.chars line).1
  else s

/-- The loop of `shell_execfile`; nothing follows a fault. -/
def execLines (sys : Sys) (s : Shell) (lines : List Int) : Shell :=
  lines.foldl (fun s line => if s.fault = none then execLine sys s line else s) s

/-- `shell_execfile`, behind `open`. `script_file` is on the stack and is
not cleared: what was there stays behind the bytes that are read. -/
def execScript (sys : Sys) (stack : Chars) (s : Shell) (data : List Byte) : Shell :=
  let chars := stack.putAll 0 (readLoop bufSize data)
  let s := s.note (.script (cstr chars 0))
  let t := parseSplit chars 0 (ascii '\n')
  if maxLines ≤ t.1.length then s.fail .tableOverrun
  else execLines sys (s.setChars t.2) t.1

def shellExecfile (sys : Sys) (stack : Chars) (s : Shell) (filename : List Byte) : Shell :=
  let filename := if filename.head? = some (ascii '/') then filename.drop 1 else filename
  match sys.openFile filename with
  | none => s.note (.write (str "File not found\n"))
  | some data => execScript sys stack s data

/-- What `shell_init` does with an input of the given length. -/
def dispatch (sys : Sys) (stack : Chars) (s : Shell) (lenInput : Int) : Shell :=
  let input := cstr s.chars 0
  if lenInput = 0 then s
  else if strcmp input (str "exit") = 0 then s
  else if s.chars.mem 0 = ascii '.' ∧ s.chars.mem 1 = ascii '/' then
    shellExecfile sys stack s (cstr s.chars 2)
  else if input.take 6 = str "sbush " then shellExecfile sys stack s (cstr s.chars 6)
  else shellParse sys s 0 lenInput

/-- The part of the loop of `shell_init` behind `read`, for input that is
not empty: a newline at its end is cut off. -/
def runInput (sys : Sys) (stack : Chars) (s : Shell) : Shell :=
  let lenInput := (strlen s.chars 0).1
  if s.chars.mem (lenInput - 1) = ascii '\n' then
    dispatch sys stack (s.setChars (s.chars.put (lenInput - 1) 0#8)) (lenInput - 1)
  else dispatch sys stack s lenInput

/-- One round of the loop of `shell_init`: what `read` stored over the
cleared input, and what is on the stack around it and below it, for
`shell_execfile`. -/
structure Round where
  typed : List Byte
  around : Chars
  stack : Chars

/-- The loop body of `shell_init`. -/
def Round.run (sys : Sys) (s : Shell) (r : Round) : Shell :=
  let chars := (r.around.putAll 0 (List.replicate bufSize 0#8)).putAll 0 (r.typed.take bufSize)
  let text := if s.ps1Set then s.ps1 else s.cwd ++ str ": sbush> "
  let s := { s with isBackground := false, chars }.note (.prompt text)
  if s.chars.mem 0 ≠ 0#8 then runInput sys r.stack s else s

/-- `shell_init`, for the rounds given; nothing follows a fault. -/
def shellInit (sys : Sys) (s : Shell) (rounds : List Round) : Shell :=
  rounds.foldl (fun s r => if s.fault = none then r.run sys s else s) s

/-- How `main` takes the path from the first variable of the environment:
the new value is copied over the old one without a NUL. -/
def pathFromEnv (path : List Byte) : Option (List Byte) → List Byte
  | some env =>
      if 0 < strcmp env (str "PATH:") then env.drop 5 ++ path.drop (env.length - 5) else path
  | none => path

/-- `main`, for the arguments and the first variable it is given, and for
what is on the stack and typed at the prompts. -/
def main (sys : Sys) (argv : List (List Byte)) (env : Option (List Byte)) (stack : Chars)
    (rounds : List Round) : Shell :=
  let s := ({ chars := stack } : Shell).note (.write (str ("Welcome to SBUNIX (SNOW OS)!\n\n" ++
    "Please use the project README file for a list of commands.\n\nA few examples are:\nls\n" ++
    "cat /etc/test.txt\nsbush /etc/test.sbush\nps\n\n")))
  let s := { s with path := pathFromEnv s.path env }
  match argv with
  | [_, filename] => shellExecfile sys stack s filename
  | [] => s
  | _ => shellInit sys s rounds

end SnowOs.Sbush
