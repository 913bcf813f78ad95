import Mathlib.Logic.Function.Basic
import SnowOs.PhysicalMemory
import SnowOs.Ring

/-!
# The processes of `sys/process.c`

A process is a `kthread_t` block; the blocks are linked into a ring through
`next`, entered at `current_process`. The blocks are kept as one map for
each field, from the address of the block to the value of the field, so a
block that was never written holds whatever the maps hold there.

What a process does between two switches is one call here: a system call
of the process that runs, or the rest of a `wait` that was switched out.
The operations that switch (`scheduler` inside `yield`, `exit`, `wait`)
end with another process in `current_process`; where the process that was
switched out continues is its `cont`.

Every `while` loop over the ring has a bound on its rounds, and an
operation is `none` if the bound was too small. `kmalloc(sizeof(kthread_t))`
is an argument, the block it returns. Page tables, open files, names and
working directories of a process play no part in the ring and are left
out, as is `kfree` of a reaped block.
-/

namespace SnowOs

open Linked Function

def maxP : Nat := 1000

inductive ProcessState
  | running
  | zombie
  | queued
deriving DecidableEq, Repr

/-- The value of the enumeration constant, as `%d` prints it. -/
def ProcessState.code : ProcessState → Nat
  | .running => 0
  | .zombie => 1
  | .queued => 2

/-- What `sys/process.c` prints. -/
inductive Message
  | noProcessFound
  | stateProblem (state : ProcessState)
  | cantReapOnly
  | cantExitOnly
  | invalidPid
  | pidOutOfRange (pid : Int)
  | cantKillIdle
  | noSuchPid (pid : Int)
  | cantKillOnly (pid : Int)
deriving DecidableEq, Repr

def Message.text : Message → String
  | .noProcessFound => "No process found for running. Restarting shell!\n"
  | .stateProblem state =>
      "Some problem with process states: " ++ toString state.code ++ "!! \n"
  | .cantReapOnly => "Can't reap the only process!\n"
  | .cantExitOnly => "Can't exit the only process!\n"
  | .invalidPid => "Invalid pid <= 0\n"
  | .pidOutOfRange pid => "Pid " ++ toString pid ++ " out of range\n"
  | .cantKillIdle => "Can't kill pid 1: kernel idle process\n"
  | .noSuchPid pid => "No process exists with pid: " ++ toString pid ++ "\n"
  | .cantKillOnly pid => "Can't kill the only process! pid: " ++ toString pid ++ "\n"

/-- The two error branches of `switch_process`. -/
def Message.IsSwitchError : Message → Prop
  | .noProcessFound => True
  | .stateProblem _ => True
  | _ => False

/-- Where a process goes on when it is switched to: in its program, or
inside `wait` (no pid) or `wait_pid`, with the two cursors of the scan. -/
inductive Cont
  | user
  | waiting (pid : Option Int) (it prev : Word)
deriving DecidableEq, Repr

/-- Which process a block belongs to: the number of the process in the order
of creation, and that of the process that forked it. Not in the code. -/
structure Birth where
  number : Nat
  maker : Option Nat
deriving DecidableEq, Repr

structure Kernel where
  /-- `current_process` -/
  current : Word
  next : Word → Word
  pid : Word → Int
  ppid : Word → Int
  numChild : Word → Int
  state : Word → ProcessState
  cont : Word → Cont
  /-- the array `processes`, and the memory before and behind it -/
  processes : Int → Int
  /-- the indices of `processes` written so far, newest first -/
  written : List Int
  /-- what was printed so far, newest first -/
  console : List Message
  birth : Word → Birth
  /-- the number of processes created so far -/
  births : Nat

namespace Kernel

/-! ## Process identifiers -/

def kprintf (k : Kernel) (m : Message) : Kernel :=
  { k with console := m :: k.console }

def setProcess (k : Kernel) (i v : Int) : Kernel :=
  { k with processes := update k.processes i v, written := i :: k.written }

def initProcesses (k : Kernel) : Kernel :=
  (List.range maxP).foldl (fun k (i : Nat) => k.setProcess i 0) k

/-- The slot the loop of `getPID` stops at. -/
def freeSlot (processes : Int → Int) : Option Nat :=
  (List.range' 1 (maxP - 1)).find? fun i => processes i = 0

def getPID (k : Kernel) : Int × Kernel :=
  match freeSlot k.processes with
  | some i => (i, k.setProcess i 1)
  | none => (-1, k)

/-! ## Creating processes -/

def initIdleProcess (idle : Word) (k : Kernel) : Kernel :=
  let (pid, k) := k.getPID
  { k with
    pid := update k.pid idle pid
    ppid := update k.ppid idle 0
    next := update k.next idle idle
    numChild := update k.numChild idle 0
    current := idle
    state := update k.state idle .running
    cont := update k.cont idle .user
    birth := update k.birth idle ⟨0, none⟩
    births := 1 }

/-- `ppid` of the new block is not assigned. -/
def createProcess (block : Word) (k : Kernel) : Kernel :=
  let (pid, k) := k.getPID
  { k with
    pid := update k.pid block pid
    numChild := update k.numChild block 0
    state := update k.state block .queued
    next := update (update k.next k.current block) block k.current
    cont := update k.cont block .user
    birth := update k.birth block ⟨k.births, none⟩
    births := k.births + 1 }

/-- `copy_process`, as far as the process fields go; the child's `next` and
`state` are left to `fork`. -/
def copyProcess (block : Word) (k : Kernel) : Kernel :=
  let (pid, k) := k.getPID
  { k with
    pid := update k.pid block pid
    ppid := update k.ppid block (k.pid k.current)
    next := update k.next block 0
    numChild := update (update k.numChild block 0) k.current (k.numChild k.current + 1)
    birth := update k.birth block ⟨k.births, some (k.birth k.current).number⟩
    births := k.births + 1 }

/-- The parent gets the pid of the child; the child will start in user
mode with 0. -/
def fork (block : Word) (k : Kernel) : Int × Kernel :=
  let k := k.copyProcess block
  let last := k.next k.current
  (k.pid block,
    { k with
      next := update (update k.next k.current block) block last
      state := update k.state block .queued
      cont := update k.cont block .user })

/-- `found` is whether the archive has the file. A call that succeeds does
not return: the new block goes on in user mode. -/
def execVpe (fuel : Nat) (block : Word) (found : Bool) (k : Kernel) :
    Option (Option Int × Kernel) :=
  if found then
    let k := { k with
      pid := update k.pid block (k.pid k.current)
      ppid := update k.ppid block (k.ppid k.current)
      next := update k.next block 0
      numChild := update k.numChild block 0 }
    (walkUntil k.next (fun c => k.next c = k.current) fuel k.current (k.next k.current)).bind
      fun r =>
        let next := update k.next r.2 block
        some (none, { k with
          next := update next block (next k.current)
          current := block
          state := update k.state block .running
          cont := update k.cont block .user
          birth := update k.birth block (k.birth k.current) })
  else some (some (-1), k)

/-! ## Reaping and switching -/

def reapProcess (fuel : Nat) (process : Word) (k : Kernel) : Option Kernel :=
  if process = k.current then some (k.kprintf .cantReapOnly)
  else
    (walkUntil k.next (fun c => c = process) fuel k.current (k.next k.current)).bind fun r =>
      let k := { k with next := update k.next r.1 (k.next process) }
      some (k.setProcess (k.pid process) 0)

/-- The loop of `wait_all`; `fuel` bounds the loop inside `reap_process`. -/
def waitAllFrom (fuel : Nat) : Nat → Word → Word → Kernel → Option Kernel
  | 0, _, _, _ => none
  | n + 1, it, prev, k =>
      if it = k.current then some k
      else if k.state it = .zombie then
        (k.reapProcess fuel it).bind fun k => waitAllFrom fuel n (k.next prev) prev k
      else waitAllFrom fuel n (k.next it) it k

def waitAll (fuel : Nat) (k : Kernel) : Option Kernel :=
  waitAllFrom fuel fuel (k.next k.current) k.current k

/-- `block` is what `kmalloc` returns should `create_process` be called. -/
def switchProcess (fuel : Nat) (block : Word) (k : Kernel) : Option Kernel :=
  if k.current = k.next k.current then some k
  else
    (walkUntil k.next (fun c => c = k.current ∨ k.state c = .queued) fuel k.current
      (k.next k.current)).bind fun r =>
        let cand := r.2
        if cand = k.current then some ((k.kprintf .noProcessFound).createProcess block)
        else if k.state k.current = .running then
          some { k with
            state := update (update k.state k.current .queued) cand .running
            current := cand }
        else if k.state k.current = .zombie then
          some { k with state := update k.state cand .running, current := cand }
        else some (k.kprintf (.stateProblem (k.state k.current)))

def scheduler (fuel : Nat) (block : Word) (k : Kernel) : Option Kernel :=
  (k.waitAll fuel).bind fun k => k.switchProcess fuel block

/-! ## Ending processes -/

/-- The loop of `kill_process` that hands the children of `cur` to pid 1. -/
def adoptFrom (cur : Word) : Nat → Word → Kernel → Option Kernel
  | 0, _, _ => none
  | n + 1, it, k =>
      if it = cur then some k
      else
        let k := if k.ppid it = k.pid cur then { k with ppid := update k.ppid it 1 } else k
        adoptFrom cur n (k.next it) k

/-- It is `current_process` that becomes a zombie, whatever the argument. -/
def killProcess (fuel : Nat) (process : Word) (k : Kernel) : Option Kernel :=
  if k.next process = process then some (k.kprintf .cantExitOnly)
  else
    (adoptFrom process fuel (k.next process) k).bind fun k =>
      some { k with state := update k.state k.current .zombie }

def killKern (fuel : Nat) (pid : Int) (k : Kernel) : Option (Int × Kernel) :=
  if pid ≤ 0 then some (-1, k.kprintf .invalidPid)
  else if maxP ≤ pid then some (-1, k.kprintf (.pidOutOfRange pid))
  else if pid = 1 then some (-1, k.kprintf .cantKillIdle)
  else if k.processes pid = 0 then some (-1, k.kprintf (.noSuchPid pid))
  else if k.current = k.next k.current ∧ k.pid k.current = pid then
    some (-1, k.kprintf (.cantKillOnly pid))
  else
    (walkUntil k.next (fun c => c = k.current ∨ k.pid c = pid) fuel k.current
      (k.next k.current)).bind fun r =>
        let it := r.2
        if it ≠ k.current then some (-1, k)
        else if k.pid it ≠ pid then some (-1, k.kprintf (.noSuchPid pid))
        else (k.killProcess fuel it).bind fun k => some (0, k)

def exitCurrentProcess (fuel : Nat) (block : Word) (k : Kernel) : Option Kernel :=
  (k.killProcess fuel k.current).bind fun k => k.scheduler fuel block

/-! ## Waiting for children -/

/-- The test of `wait` (no pid) and of `wait_pid` on a ring member. -/
def isChild (k : Kernel) (pid : Option Int) (it : Word) : Prop :=
  (∀ p ∈ pid, k.pid it = p) ∧ k.ppid it = k.pid k.current

instance (k : Kernel) (pid : Option Int) (it : Word) : Decidable (k.isChild pid it) :=
  inferInstanceAs (Decidable (_ ∧ _))

/-- How the inner loop of `wait` ends: at a zombie child, or back at
`current_process` with the flag `child_exists` and the cursors. -/
inductive Scan
  | zombie (it : Word)
  | round (childExists : Bool) (it prev : Word)

/-- The inner loop of `wait` and `wait_pid`. -/
def waitScan (k : Kernel) (pid : Option Int) : Nat → Bool → Word → Word → Option Scan
  | 0, _, _, _ => none
  | n + 1, childExists, it, prev =>
      if it = k.current then some (.round childExists it prev)
      else if k.isChild pid it then
        if k.state it = .zombie then some (.zombie it)
        else waitScan k pid n true (k.next it) it
      else waitScan k pid n childExists (k.next it) it

/-- One round of the outer loop, from the cursors the last one left: it
returns a value, or goes into `scheduler` and is to go on from there. -/
def waitRound (fuel : Nat) (block : Word) (pid : Option Int) (it prev : Word) (k : Kernel) :
    Option (Option Int × Kernel) :=
  (k.waitScan pid fuel false it prev).bind fun scan =>
    match scan with
    | .zombie it =>
        let returnPid := k.pid it
        (k.reapProcess fuel it).bind fun k =>
          some (some returnPid, { k with cont := update k.cont k.current .user })
    | .round true it prev =>
        let k := { k with cont := update k.cont k.current (.waiting pid it prev) }
        (k.scheduler fuel block).bind fun k => some (none, k)
    | .round false _ _ =>
        some (some (-1), { k with cont := update k.cont k.current .user })

/-- The cursors are set once, before the outer loop. -/
def waitFor (fuel : Nat) (block : Word) (pid : Option Int) (k : Kernel) :
    Option (Option Int × Kernel) :=
  k.waitRound fuel block pid (k.next k.current) k.current

def wait (fuel : Nat) (block : Word) (k : Kernel) : Option (Option Int × Kernel) :=
  k.waitFor fuel block none

def waitPid (fuel : Nat) (block : Word) (pid : Int) (k : Kernel) :
    Option (Option Int × Kernel) :=
  k.waitFor fuel block (some pid)

/-- `current_process` was switched to: a call it was in goes on. -/
def resume (fuel : Nat) (block : Word) (k : Kernel) : Option (Option Int × Kernel) :=
  match k.cont k.current with
  | .user => some (none, k)
  | .waiting pid it prev => k.waitRound fuel block pid it prev

/-! ## The system -/

/-- What a process asks of the kernel. -/
inductive Syscall
  | fork
  | execVpe (found : Bool)
  | exit
  | kill (pid : Int)
  | yield
  | wait
  | waitPid (pid : Int)
deriving DecidableEq, Repr

/-- The value handed to the caller, if the call has returned one. -/
def syscall (fuel : Nat) (block : Word) : Syscall → Kernel → Option (Option Int × Kernel)
  | .fork, k => let (pid, k) := k.fork block; some (some pid, k)
  | .execVpe found, k => k.execVpe fuel block found
  | .exit, k => (k.exitCurrentProcess fuel block).bind fun k => some (none, k)
  | .kill pid, k => (k.killKern fuel pid).bind fun r => some (some r.1, r.2)
  | .yield, k => (k.scheduler fuel block).bind fun k => some (none, k)
  | .wait, k => k.wait fuel block
  | .waitPid pid, k => k.waitPid fuel block pid

/-- The blocks reached from `current_process`. -/
def InRing (k : Kernel) (a : Word) : Prop :=
  ∃ n, k.next^[n] k.current = a

/-- `start` up to the first `scheduler` call of the idle process. -/
def boot (idle init : Word) (k : Kernel) : Kernel :=
  (k.initProcesses.initIdleProcess idle).createProcess init

/-- What a condition on calls can look at. -/
structure Caller where
  pid : Int
  state : ProcessState
  processes : Int → Int

def caller (k : Kernel) : Caller := ⟨k.pid k.current, k.state k.current, k.processes⟩

/-- One turn of the process that runs. The idle process only calls
`scheduler`; any other goes on with the call it was in, or makes any call
that `may` allows. A block from `kmalloc` is not one of the ring. -/
inductive Step (idle : Word) (may : Caller → Syscall → Prop) : Kernel → Kernel → Prop
  | idle {k k' : Kernel} {fuel : Nat} {block : Word} :
      k.current = idle → ¬ k.InRing block → k.scheduler fuel block = some k' →
      Step idle may k k'
  | call {k k' : Kernel} {fuel : Nat} {block : Word} {c : Syscall} {r : Option Int} :
      k.current ≠ idle → k.cont k.current = .user → ¬ k.InRing block →
      may k.caller c → k.syscall fuel block c = some (r, k') → Step idle may k k'
  | resume {k k' : Kernel} {fuel : Nat} {block : Word} {pid : Option Int} {it prev : Word}
      {r : Option Int} :
      k.current ≠ idle → k.cont k.current = .waiting pid it prev → ¬ k.InRing block →
      k.resume fuel block = some (r, k') → Step idle may k k'

/-- The states of the system that boots with `idle` and `init`. -/
inductive Reach (idle : Word) (may : Caller → Syscall → Prop) : Kernel → Prop
  | boot {k : Kernel} {init : Word} :
      k.console = [] → k.written = [] → init ≠ idle → Reach idle may (k.boot idle init)
  | step {k k' : Kernel} : Reach idle may k → Step idle may k k' → Reach idle may k'

end Kernel

end SnowOs
