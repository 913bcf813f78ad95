import Mathlib.Data.Option.Basic
import SnowOs.ContextSwitch
import SnowOs.ProcessRing

/-!
# The registers that follow `current_process`

A process runs in its own address space and enters the kernel on its own
stack only if `cr3` and `rsp0` of the TSS are those of `current_process`
whenever user code runs. They are set in four places (`switch_process`,
`fork`, `exec_vpe` through `go_to_ring3_exec`, and `create_process`, which
loads the tables of the new process and puts back what was there), and in
each of them some code runs between the change of `cr3` and that of
`current_process`.

Here the operations of `Kernel` are taken with these registers. Each does to
the processes what it does without them, and leaves them with the process it
leaves in `current_process` (`Tracks`); so they are right in every state of
every run (`Hw.Reach.own_space`). The idle process never leaves the kernel, and
`rsp0` is not set before the first switch.
-/

namespace SnowOs

open Linked Function

structure Hw where
  kernel : Kernel
  cr3 : Word
  /-- of the TSS -/
  rsp0 : Word
  /-- the field `cr3` of a block -/
  cr3Of : Word → Word

namespace Hw

/-! ## The operations -/

def setNewCr3 (h : Hw) (table : Word) : Hw := { h with cr3 := table }

def setTssRsp (h : Hw) (rsp : Word) : Hw := { h with rsp0 := rsp }

def onKernel (h : Hw) (k : Kernel) : Hw := { h with kernel := k }

@[simp] theorem onKernel_kernel (h : Hw) (k : Kernel) : (h.onKernel k).kernel = k := rfl

def stackEnd (t : Word) : Word := Kthread.kStack t (Kthread.kStackSize - 1)

/-- `table` is what `setup_user_page_tables` returns. The new tables are in
use while the file is loaded. -/
def createProcess (block table : Word) (h : Hw) : Hw :=
  let h := { h with cr3Of := update h.cr3Of block table }
  let currentCr3 := h.cr3
  let h := h.setNewCr3 (h.cr3Of block)
  let h := h.setNewCr3 currentCr3
  h.onKernel (h.kernel.createProcess block)

def initIdleProcess (idle : Word) (h : Hw) : Hw :=
  { h with kernel := h.kernel.initIdleProcess idle, cr3Of := update h.cr3Of idle h.cr3 }

/-- `table` is what `cow_page_tables` returns; `copy_process` leaves it in
`cr3`. -/
def fork (block table : Word) (h : Hw) : Int × Hw :=
  let parent := h.kernel.current
  let h := { h with cr3Of := update h.cr3Of block table }
  let h := h.setNewCr3 (h.cr3Of block)
  let h := h.setNewCr3 (h.cr3Of parent)
  ((h.kernel.fork block).1, h.onKernel (h.kernel.fork block).2)

/-- `go_to_ring3` and `go_to_ring3_exec`, as far as they are C. -/
def goToRing3 (h : Hw) : Hw :=
  (h.setTssRsp (stackEnd h.kernel.current)).setNewCr3 (h.cr3Of h.kernel.current)

def execVpe (fuel : Nat) (block table : Word) (found : Bool) (h : Hw) :
    Option (Option Int × Hw) :=
  (h.kernel.execVpe fuel block found).bind fun r =>
    if found then
      let h := { h with cr3Of := update h.cr3Of block table }
      let h := h.setNewCr3 (h.cr3Of block)
      some (r.1, (h.onKernel r.2).goToRing3)
    else some (r.1, h.onKernel r.2)

def switchProcess (fuel : Nat) (block table : Word) (h : Hw) : Option Hw :=
  let k := h.kernel
  if k.current = k.next k.current then some h
  else
    (walkUntil k.next (fun c => c = k.current ∨ k.state c = .queued) fuel k.current
      (k.next k.current)).bind fun r =>
        let cand := r.2
        if cand = k.current then
          some ((h.onKernel (k.kprintf .noProcessFound)).createProcess block table)
        else if k.state k.current = .running then
          some (((h.setNewCr3 (h.cr3Of cand)).setTssRsp (stackEnd cand)).onKernel { k with
            state := update (update k.state k.current .queued) cand .running
            current := cand })
        else if k.state k.current = .zombie then
          some (((h.setNewCr3 (h.cr3Of cand)).setTssRsp (stackEnd cand)).onKernel { k with
            state := update k.state cand .running
            current := cand })
        else some (h.onKernel (k.kprintf (.stateProblem (k.state k.current))))

def scheduler (fuel : Nat) (block table : Word) (h : Hw) : Option Hw :=
  (h.kernel.waitAll fuel).bind fun k => (h.onKernel k).switchProcess fuel block table

def exitCurrentProcess (fuel : Nat) (block table : Word) (h : Hw) : Option Hw :=
  (h.kernel.killProcess fuel h.kernel.current).bind fun k =>
    (h.onKernel k).scheduler fuel block table

def waitRound (fuel : Nat) (block table : Word) (pid : Option Int) (it prev : Word) (h : Hw) :
    Option (Option Int × Hw) :=
  (h.kernel.waitScan pid fuel false it prev).bind fun scan =>
    match scan with
    | .zombie it =>
        let returnPid := h.kernel.pid it
        (h.kernel.reapProcess fuel it).bind fun k =>
          some (some returnPid, h.onKernel { k with cont := update k.cont k.current .user })
    | .round true it prev =>
        let k := { h.kernel with
          cont := update h.kernel.cont h.kernel.current (.waiting pid it prev) }
        ((h.onKernel k).scheduler fuel block table).bind fun h => some (none, h)
    | .round false _ _ =>
        some (some (-1), h.onKernel { h.kernel with
          cont := update h.kernel.cont h.kernel.current .user })

def waitFor (fuel : Nat) (block table : Word) (pid : Option Int) (h : Hw) :
    Option (Option Int × Hw) :=
  h.waitRound fuel block table pid (h.kernel.next h.kernel.current) h.kernel.current

def resume (fuel : Nat) (block table : Word) (h : Hw) : Option (Option Int × Hw) :=
  match h.kernel.cont h.kernel.current with
  | .user => some (none, h)
  | .waiting pid it prev => h.waitRound fuel block table pid it prev

def syscall (fuel : Nat) (block table : Word) :
    Kernel.Syscall → Hw → Option (Option Int × Hw)
  | .fork, h => let (pid, h) := h.fork block table; some (some pid, h)
  | .execVpe found, h => h.execVpe fuel block table found
  | .exit, h => (h.exitCurrentProcess fuel block table).bind fun h => some (none, h)
  | .kill pid, h => (h.kernel.killKern fuel pid).bind fun r => some (some r.1, h.onKernel r.2)
  | .yield, h => (h.scheduler fuel block table).bind fun h => some (none, h)
  | .wait, h => h.waitFor fuel block table none
  | .waitPid pid, h => h.waitFor fuel block table (some pid)

def boot (idle init table : Word) (h : Hw) : Hw :=
  ((h.onKernel h.kernel.initProcesses).initIdleProcess idle).createProcess init table

/-- The turns of `Kernel.Step`. -/
inductive Step (idle : Word) (may : Kernel.Caller → Kernel.Syscall → Prop) : Hw → Hw → Prop
  | idle {h h' : Hw} {fuel : Nat} {block table : Word} :
      h.kernel.current = idle → ¬ h.kernel.InRing block →
      h.scheduler fuel block table = some h' → Step idle may h h'
  | call {h h' : Hw} {fuel : Nat} {block table : Word} {c : Kernel.Syscall} {r : Option Int} :
      h.kernel.current ≠ idle → h.kernel.cont h.kernel.current = .user →
      ¬ h.kernel.InRing block → may h.kernel.caller c →
      h.syscall fuel block table c = some (r, h') → Step idle may h h'
  | resume {h h' : Hw} {fuel : Nat} {block table : Word} {pid : Option Int} {it prev : Word}
      {r : Option Int} :
      h.kernel.current ≠ idle → h.kernel.cont h.kernel.current = .waiting pid it prev →
      ¬ h.kernel.InRing block → h.resume fuel block table = some (r, h') → Step idle may h h'

inductive Reach (idle : Word) (may : Kernel.Caller → Kernel.Syscall → Prop) : Hw → Prop
  | boot {h : Hw} {init table : Word} :
      h.kernel.console = [] → h.kernel.written = [] → init ≠ idle →
      Reach idle may (h.boot idle init table)
  | step {h h' : Hw} : Reach idle may h → Step idle may h h' → Reach idle may h'

end Hw

/-! ## What leaves `current_process` alone -/

namespace Kernel

variable {k k' : Kernel} {fuel : Nat}

theorem reapProcess_current {process : Word} (h : k.reapProcess fuel process = some k') :
    k'.current = k.current := by
  unfold reapProcess at h
  split at h
  · cases h
    rfl
  · obtain ⟨r, -, hr⟩ := Option.bind_eq_some_iff.mp h
    cases hr
    rfl

theorem waitAllFrom_current {n : Nat} {it prev : Word}
    (h : waitAllFrom fuel n it prev k = some k') : k'.current = k.current := by
  induction n generalizing it prev k with
  | zero => cases h
  | succ n ih =>
      rw [waitAllFrom] at h
      split at h
      · cases h
        rfl
      · split at h
        · obtain ⟨k₁, hreap, hrest⟩ := Option.bind_eq_some_iff.mp h
          rw [ih hrest, reapProcess_current hreap]
        · exact ih h

theorem adoptFrom_current {cur : Word} {n : Nat} {it : Word}
    (h : adoptFrom cur n it k = some k') : k'.current = k.current := by
  induction n generalizing it k with
  | zero => cases h
  | succ n ih =>
      rw [adoptFrom] at h
      split at h
      · cases h
        rfl
      · refine (ih h).trans ?_
        split <;> rfl

theorem killProcess_current {process : Word} (h : k.killProcess fuel process = some k') :
    k'.current = k.current := by
  unfold killProcess at h
  split at h
  · cases h
    rfl
  · obtain ⟨k₁, hadopt, hrest⟩ := Option.bind_eq_some_iff.mp h
    cases hrest
    have hcur := adoptFrom_current hadopt
    exact hcur

theorem killKern_current {pid : Int} {r : Int × Kernel} (h : k.killKern fuel pid = some r) :
    r.2.current = k.current := by
  unfold killKern at h
  iterate 5
    split at h
    · cases h
      rfl
  obtain ⟨c, -, hc⟩ := Option.bind_eq_some_iff.mp h
  dsimp only at hc
  split at hc
  · cases hc
    rfl
  · split at hc
    · cases hc
      rfl
    · obtain ⟨k₁, hkill, hrest⟩ := Option.bind_eq_some_iff.mp hc
      cases hrest
      exact killProcess_current hkill

theorem createProcess_current (k : Kernel) (block : Word) :
    (k.createProcess block).current = k.current :=
  k.getPID_current

theorem fork_current (k : Kernel) (block : Word) : (k.fork block).2.current = k.current :=
  k.getPID_current

end Kernel

namespace Hw

/-! ## Every operation keeps the registers right -/

/-- The registers are those of `current_process`. -/
structure Own (idle : Word) (h : Hw) : Prop where
  cr3 : h.cr3 = h.cr3Of h.kernel.current
  rsp0 : h.kernel.current ≠ idle → h.rsp0 = stackEnd h.kernel.current

/-- The operation does what the one without the registers does, and leaves
them right. -/
abbrev Tracks (idle : Word) : Option Hw → Option Kernel → Prop :=
  Option.Rel fun h k => h.kernel = k ∧ h.Own idle

/-- The same for an operation with a result. -/
abbrev TracksCall (idle : Word) : Option (Option Int × Hw) → Option (Option Int × Kernel) → Prop :=
  Option.Rel fun r q => r.1 = q.1 ∧ r.2.kernel = q.2 ∧ r.2.Own idle

section Tracks

variable {idle block table : Word} {h : Hw} {k k' : Kernel} {fuel : Nat}

theorem Own.onKernel (hown : h.Own idle) (hcur : k.current = h.kernel.current) :
    (h.onKernel k).Own idle where
  cr3 := by
    show h.cr3 = h.cr3Of k.current
    rw [hcur]
    exact hown.cr3
  rsp0 := by
    show k.current ≠ idle → h.rsp0 = stackEnd k.current
    rw [hcur]
    exact hown.rsp0

theorem createProcess_own (hown : h.Own idle) (hb : block ≠ h.kernel.current) :
    (h.createProcess block table).Own idle := by
  have hcur := h.kernel.createProcess_current block
  refine Own.onKernel (h := { h with cr3Of := update h.cr3Of block table }) ⟨?_, hown.rsp0⟩ hcur
  show h.cr3 = update h.cr3Of block table h.kernel.current
  rw [update_of_ne hb.symm]
  exact hown.cr3

theorem fork_own (hown : h.Own idle) : (h.fork block table).2.Own idle := by
  have hcur := h.kernel.fork_current block
  exact Own.onKernel (h := { h with
    cr3Of := update h.cr3Of block table
    cr3 := update h.cr3Of block table h.kernel.current }) ⟨rfl, hown.rsp0⟩ hcur

theorem execVpe_tracks (hown : h.Own idle) (found : Bool) :
    TracksCall idle (h.execVpe fuel block table found) (h.kernel.execVpe fuel block found) := by
  unfold execVpe
  cases hexec : h.kernel.execVpe fuel block found with
  | none => exact .none
  | some r =>
      cases found with
      | true => exact .some ⟨rfl, rfl, rfl, fun _ => rfl⟩
      | false =>
          obtain rfl : (some (-1), h.kernel) = r := Option.some.inj hexec
          exact .some ⟨rfl, rfl, hown⟩

/-- A switch sets both registers before it changes `current_process`. -/
theorem switchProcess_tracks (hown : h.Own idle) (hb : block ≠ h.kernel.current) :
    Tracks idle (h.switchProcess fuel block table) (h.kernel.switchProcess fuel block) := by
  unfold switchProcess Kernel.switchProcess
  dsimp only
  split
  · exact .some ⟨rfl, hown⟩
  · cases walkUntil h.kernel.next
      (fun c => c = h.kernel.current ∨ h.kernel.state c = .queued) fuel h.kernel.current
      (h.kernel.next h.kernel.current) with
    | none => exact .none
    | some r =>
        rw [Option.bind_some, Option.bind_some]
        split
        · exact .some ⟨rfl, createProcess_own (hown.onKernel rfl) hb⟩
        · split
          · exact .some ⟨rfl, rfl, fun _ => rfl⟩
          · split
            · exact .some ⟨rfl, rfl, fun _ => rfl⟩
            · exact .some ⟨rfl, hown.onKernel rfl⟩

theorem scheduler_tracks (hown : h.Own idle) (hb : block ≠ h.kernel.current) :
    Tracks idle (h.scheduler fuel block table) (h.kernel.scheduler fuel block) := by
  unfold scheduler Kernel.scheduler
  cases hwait : h.kernel.waitAll fuel with
  | none => exact .none
  | some k =>
      have hcur := Kernel.waitAllFrom_current hwait
      exact switchProcess_tracks (hown.onKernel hcur) (by rwa [onKernel, hcur])

theorem exitCurrentProcess_tracks (hown : h.Own idle) (hb : block ≠ h.kernel.current) :
    Tracks idle (h.exitCurrentProcess fuel block table)
      (h.kernel.exitCurrentProcess fuel block) := by
  unfold exitCurrentProcess Kernel.exitCurrentProcess
  cases hkill : h.kernel.killProcess fuel h.kernel.current with
  | none => exact .none
  | some k =>
      have hcur := Kernel.killProcess_current hkill
      exact scheduler_tracks (hown.onKernel hcur) (by rwa [onKernel, hcur])

theorem Tracks.call {o : Option Hw} {p : Option Kernel} (ho : Tracks idle o p) :
    TracksCall idle (o.bind fun h => some (none, h)) (p.bind fun k => some (none, k)) := by
  cases ho with
  | none => exact .none
  | some hr => exact .some ⟨rfl, hr⟩

theorem waitRound_tracks (hown : h.Own idle) (hb : block ≠ h.kernel.current) (pid : Option Int)
    (it prev : Word) :
    TracksCall idle (h.waitRound fuel block table pid it prev)
      (h.kernel.waitRound fuel block pid it prev) := by
  unfold waitRound Kernel.waitRound
  cases h.kernel.waitScan pid fuel false it prev with
  | none => exact .none
  | some scan =>
      rw [Option.bind_some, Option.bind_some]
      cases scan with
      | zombie it =>
          dsimp only
          cases hreap : h.kernel.reapProcess fuel it with
          | none => exact .none
          | some k =>
              have hcur := Kernel.reapProcess_current hreap
              exact .some ⟨rfl, rfl, hown.onKernel hcur⟩
      | round childExists it prev =>
          cases childExists with
          | true =>
              have hwaits := hown.onKernel (k := { h.kernel with
                cont := update h.kernel.cont h.kernel.current (.waiting pid it prev) }) rfl
              exact (scheduler_tracks hwaits hb).call
          | false => exact .some ⟨rfl, rfl, hown.onKernel rfl⟩

theorem resume_tracks (hown : h.Own idle) (hb : block ≠ h.kernel.current) :
    TracksCall idle (h.resume fuel block table) (h.kernel.resume fuel block) := by
  unfold resume Kernel.resume
  cases h.kernel.cont h.kernel.current with
  | user => exact .some ⟨rfl, rfl, hown⟩
  | waiting pid it prev => exact waitRound_tracks hown hb pid it prev

theorem syscall_tracks (hown : h.Own idle) (hb : block ≠ h.kernel.current) (c : Kernel.Syscall) :
    TracksCall idle (h.syscall fuel block table c) (h.kernel.syscall fuel block c) := by
  cases c with
  | fork => exact .some ⟨rfl, rfl, fork_own hown⟩
  | execVpe found => exact execVpe_tracks hown found
  | exit => exact (exitCurrentProcess_tracks hown hb).call
  | kill pid =>
      rw [syscall, Kernel.syscall]
      cases hkill : h.kernel.killKern fuel pid with
      | none => exact .none
      | some r => exact .some ⟨rfl, rfl, hown.onKernel (Kernel.killKern_current hkill)⟩
  | yield => exact (scheduler_tracks hown hb).call
  | wait => exact waitRound_tracks hown hb ..
  | waitPid pid => exact waitRound_tracks hown hb ..

end Tracks

/-! ## Runs -/

section Runs

variable {idle : Word} {may : Kernel.Caller → Kernel.Syscall → Prop} {h h' : Hw}

theorem initIdleProcess_own (idle : Word) (h : Hw) :
    (h.initIdleProcess idle).kernel.current = idle ∧ (h.initIdleProcess idle).Own idle :=
  ⟨rfl, (update_self idle h.cr3 h.cr3Of).symm, fun hne => absurd rfl hne⟩

theorem createProcess_kernel (block table : Word) (h : Hw) :
    (h.createProcess block table).kernel = h.kernel.createProcess block :=
  rfl

theorem initIdleProcess_kernel (idle : Word) (h : Hw) :
    (h.initIdleProcess idle).kernel = h.kernel.initIdleProcess idle :=
  rfl

theorem boot_own {init table : Word} (hne : init ≠ idle) :
    (h.boot idle init table).kernel = h.kernel.boot idle init ∧
      (h.boot idle init table).Own idle := by
  obtain ⟨hcur, hown⟩ := initIdleProcess_own idle (h.onKernel h.kernel.initProcesses)
  refine ⟨?_, createProcess_own hown (by rwa [hcur])⟩
  rw [boot, createProcess_kernel, initIdleProcess_kernel, onKernel_kernel, Kernel.boot]

theorem Tracks.own {o : Option Hw} {p : Option Kernel} (ho : Tracks idle o p) (heq : o = some h') :
    p = some h'.kernel ∧ h'.Own idle := by
  subst heq
  cases ho with
  | some hr => exact ⟨congrArg some hr.1.symm, hr.2⟩

theorem TracksCall.own {o : Option (Option Int × Hw)} {p : Option (Option Int × Kernel)}
    {r : Option Int} (ho : TracksCall idle o p) (heq : o = some (r, h')) :
    p = some (r, h'.kernel) ∧ h'.Own idle := by
  subst heq
  cases ho with
  | some hr =>
      obtain ⟨hval, hkernel, hown⟩ := hr
      exact ⟨congrArg some (Prod.ext hval.symm hkernel.symm), hown⟩

theorem Step.tracks (hstep : Step idle may h h') (hown : h.Own idle) :
    Kernel.Step idle may h.kernel h'.kernel ∧ h'.Own idle := by
  have hfresh : ∀ {block}, ¬ h.kernel.InRing block → block ≠ h.kernel.current :=
    fun hb heq => hb ⟨0, heq.symm⟩
  cases hstep with
  | idle hidle hb heq =>
      obtain ⟨hk, hown'⟩ := (scheduler_tracks hown (hfresh hb)).own heq
      exact ⟨.idle hidle hb hk, hown'⟩
  | call hidle huser hb hmay heq =>
      obtain ⟨hk, hown'⟩ := (syscall_tracks hown (hfresh hb) _).own heq
      exact ⟨.call hidle huser hb hmay hk, hown'⟩
  | resume hidle hwait hb heq =>
      obtain ⟨hk, hown'⟩ := (resume_tracks hown (hfresh hb)).own heq
      exact ⟨.resume hidle hwait hb hk, hown'⟩

/-- **Every process runs in its own address space.** In every state of every
run, `cr3` is that of `current_process`, and unless that is the idle process,
interrupts enter the kernel on its stack. The processes are in a state the
kernel reaches without the registers. -/
theorem Reach.own_space (hreach : Reach idle may h) :
    Kernel.Reach idle may h.kernel ∧ h.Own idle := by
  induction hreach with
  | boot hconsole hwritten hne =>
      obtain ⟨hkernel, hown⟩ := boot_own hne
      rw [hkernel]
      exact ⟨.boot hconsole hwritten hne, hown⟩
  | step _ hstep ih =>
      obtain ⟨hk, hown⟩ := hstep.tracks ih.2
      exact ⟨ih.1.step hk, hown⟩

theorem Tracks.exists_eq_some {o : Option Hw} {k : Kernel} (ho : Tracks idle o (some k)) :
    ∃ h', o = some h' ∧ h'.kernel = k := by
  cases ho with
  | some hr => exact ⟨_, rfl, hr.1⟩

theorem TracksCall.exists_eq_some {o : Option (Option Int × Hw)} {r : Option Int} {k : Kernel}
    (ho : TracksCall idle o (some (r, k))) : ∃ h', o = some (r, h') ∧ h'.kernel = k := by
  cases ho with
  | some hr =>
      obtain ⟨hval, hkernel, -⟩ := hr
      exact ⟨_, congrArg some (Prod.ext hval rfl), hkernel⟩

/-- Whatever the kernel can do, it can do with the registers. -/
theorem exists_step {k : Kernel} (hown : h.Own idle) (hstep : Kernel.Step idle may h.kernel k) :
    ∃ h', Step idle may h h' ∧ h'.kernel = k := by
  have hfresh : ∀ {block}, ¬ h.kernel.InRing block → block ≠ h.kernel.current :=
    fun hb heq => hb ⟨0, heq.symm⟩
  cases hstep with
  | @idle fuel block hidle hb heq =>
      have htracks : Tracks idle (h.scheduler fuel block 0) _ := scheduler_tracks hown (hfresh hb)
      rw [heq] at htracks
      obtain ⟨h', hrun, hk⟩ := htracks.exists_eq_some
      exact ⟨h', .idle hidle hb hrun, hk⟩
  | @call fuel block c _ hidle huser hb hmay heq =>
      have htracks : TracksCall idle (h.syscall fuel block 0 c) _ :=
        syscall_tracks hown (hfresh hb) c
      rw [heq] at htracks
      obtain ⟨h', hrun, hk⟩ := htracks.exists_eq_some
      exact ⟨h', .call hidle huser hb hmay hrun, hk⟩
  | @resume fuel block _ _ _ _ hidle hwait hb heq =>
      have htracks : TracksCall idle (h.resume fuel block 0) _ := resume_tracks hown (hfresh hb)
      rw [heq] at htracks
      obtain ⟨h', hrun, hk⟩ := htracks.exists_eq_some
      exact ⟨h', .resume hidle hwait hb hrun, hk⟩

theorem exists_reach {k : Kernel} (hreach : Kernel.Reach idle may k) :
    ∃ h, Reach idle may h ∧ h.Own idle ∧ h.kernel = k := by
  induction hreach with
  | @boot k init hconsole hwritten hne =>
      obtain ⟨hkernel, hown⟩ := boot_own (h := ⟨k, 0, 0, fun _ => 0⟩) hne
      exact ⟨Hw.boot idle init 0x2000 ⟨k, 0, 0, fun _ => 0⟩, .boot hconsole hwritten hne, hown,
        hkernel⟩
  | step _ hstep ih =>
      obtain ⟨h, hr, hown, rfl⟩ := ih
      obtain ⟨h', hstep', hk⟩ := exists_step hown hstep
      exact ⟨h', hr.step hstep', (hstep'.tracks hown).2, hk⟩

theorem Reach.own_space_fork :
    ∃ h, Reach 1 (fun _ _ => True) h ∧ h.kernel.current = 2 ∧ h.kernel.InRing 3 ∧ h.Own 1 := by
  obtain ⟨k, hk, hcur, hin, -⟩ := Kernel.Reach.exists_forked (fun _ _ => True)
    fun _ _ _ => trivial
  obtain ⟨h, hreach, -, rfl⟩ := exists_reach hk
  exact ⟨h, hreach, hcur, hin, hreach.own_space.2⟩

end Runs

end Hw

end SnowOs
