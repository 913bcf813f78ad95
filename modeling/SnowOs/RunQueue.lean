import SnowOs.WaitAll

/-!
# The ring as a queue

What the ring of `sys/process.c` is for: a queue of processes whose head
runs, together with the table of the pids in use. On the queue the
operations are a few words each (`fork` puts the child second, `exec_vpe`
replaces the head, `scheduler` drops the zombies behind the head and sends
the head to the back), with no cursor, no successor pointer and no bound on
loops.

The states of the processes follow a discipline (`Scheduled`) that every
operation keeps, so it holds in every state a run reaches
(`Reach.scheduled`), and so does what is never printed (`Reach.quiet`).
-/

namespace SnowOs

open Linked Function

/-! ## Queues of processes -/

/-- `waits`: the process is inside `wait` (no pid) or `wait_pid`. -/
structure Proc where
  addr : Word
  pid : Int
  ppid : Int
  state : ProcessState
  waits : Option (Option Int)
  birth : Birth
deriving DecidableEq, Repr

namespace Proc

/-- A process of `parent`, with the pid that is asked for, if any. -/
def IsChild (x : Proc) (pid : Option Int) (parent : Proc) : Prop :=
  (∀ p ∈ pid, x.pid = p) ∧ x.ppid = parent.pid

instance (x : Proc) (pid : Option Int) (parent : Proc) : Decidable (x.IsChild pid parent) :=
  inferInstanceAs (Decidable (_ ∧ _))

/-- What the process that runs becomes when it is switched out. -/
def suspend (x : Proc) : Proc :=
  if x.state = .running then { x with state := .queued } else x

/-- A child of `parent` goes to pid 1. -/
def adopt (parent x : Proc) : Proc :=
  if x.ppid = parent.pid then { x with ppid := 1 } else x

@[simp] theorem suspend_addr (x : Proc) : x.suspend.addr = x.addr := by
  unfold suspend; split <;> rfl

@[simp] theorem suspend_ppid (x : Proc) : x.suspend.ppid = x.ppid := by
  unfold suspend; split <;> rfl

@[simp] theorem suspend_waits (x : Proc) : x.suspend.waits = x.waits := by
  unfold suspend; split <;> rfl

@[simp] theorem suspend_birth (x : Proc) : x.suspend.birth = x.birth := by
  unfold suspend; split <;> rfl

@[simp] theorem suspend_pid (x : Proc) : x.suspend.pid = x.pid := by
  unfold suspend; split <;> rfl

@[simp] theorem adopt_addr (p x : Proc) : (adopt p x).addr = x.addr := by
  unfold adopt; split <;> rfl

@[simp] theorem adopt_pid (p x : Proc) : (adopt p x).pid = x.pid := by
  unfold adopt; split <;> rfl

@[simp] theorem adopt_state (p x : Proc) : (adopt p x).state = x.state := by
  unfold adopt; split <;> rfl

@[simp] theorem adopt_birth (p x : Proc) : (adopt p x).birth = x.birth := by
  unfold adopt; split <;> rfl

@[simp] theorem adopt_waits (p x : Proc) : (adopt p x).waits = x.waits := by
  unfold adopt; split <;> rfl

end Proc

structure RunQueue where
  head : Proc
  rest : List Proc
  slots : Int → Int
  written : List Int
  console : List Message
  births : Nat

namespace RunQueue

open Kernel (Syscall Caller freeSlot)

def procs (s : RunQueue) : List Proc := s.head :: s.rest

def say (s : RunQueue) (m : Message) : RunQueue := { s with console := m :: s.console }

def setSlot (s : RunQueue) (i v : Int) : RunQueue :=
  { s with slots := update s.slots i v, written := i :: s.written }

/-- Taking the first free pid. -/
def takePid (s : RunQueue) : Int × RunQueue :=
  match freeSlot s.slots with
  | some i => (i, s.setSlot i 1)
  | none => (-1, s)

def fork (block : Word) (s : RunQueue) : Int × RunQueue :=
  let (pid, s) := s.takePid
  (pid, { s with
    rest := ⟨block, pid, s.head.pid, .queued, none, ⟨s.births, some s.head.birth.number⟩⟩ :: s.rest
    births := s.births + 1 })

def execVpe (block : Word) (s : RunQueue) : RunQueue :=
  { s with head := { s.head with addr := block, state := .running, waits := none } }

def release (s : RunQueue) (x : Proc) : RunQueue := s.setSlot x.pid 0

def reap (x : Proc) (s : RunQueue) : RunQueue :=
  { s.release x with rest := s.rest.erase x }

def waitAll (s : RunQueue) : RunQueue :=
  (s.rest.filter (·.state = .zombie)).foldl release
    { s with rest := s.rest.filter (·.state ≠ .zombie) }

def switch (s : RunQueue) : RunQueue :=
  match s.rest with
  | [] => s
  | c :: l => { s with head := { c with state := .running }, rest := l ++ [s.head.suspend] }

def scheduler (s : RunQueue) : RunQueue := s.waitAll.switch

def killProcess (s : RunQueue) : RunQueue :=
  if s.rest = [] then s.say .cantExitOnly
  else
    { s with
      head := { s.head with state := .zombie }
      rest := s.rest.map (Proc.adopt s.head) }

def killKern (pid : Int) (s : RunQueue) : Int × RunQueue :=
  if pid ≤ 0 then (-1, s.say .invalidPid)
  else if maxP ≤ pid then (-1, s.say (.pidOutOfRange pid))
  else if pid = 1 then (-1, s.say .cantKillIdle)
  else if s.slots pid = 0 then (-1, s.say (.noSuchPid pid))
  else if s.rest = [] ∧ s.head.pid = pid then (-1, s.say (.cantKillOnly pid))
  else if ∃ x ∈ s.rest, x.pid = pid then (-1, s)
  else if s.head.pid ≠ pid then (-1, s.say (.noSuchPid pid))
  else (0, s.killProcess)

def setWaits (s : RunQueue) (w : Option (Option Int)) : RunQueue :=
  { s with head := { s.head with waits := w } }

/-- A first scan: a zombie child is reaped, a live one is waited for. -/
def waitFor (pid : Option Int) (s : RunQueue) : Option Int × RunQueue :=
  match s.rest.find? fun x => x.IsChild pid s.head ∧ x.state = .zombie with
  | some x => (some x.pid, (s.reap x).setWaits none)
  | none =>
      if ∃ x ∈ s.rest, x.IsChild pid s.head then (none, (s.setWaits (some pid)).scheduler)
      else (some (-1), s.setWaits none)

/-- What is left of a call that was switched out: the second scan starts
where the first one ended, so it sees nobody. -/
def resume (s : RunQueue) : Option Int × RunQueue :=
  match s.head.waits with
  | none => (none, s)
  | some _ => (some (-1), s.setWaits none)

def syscall (block : Word) : Syscall → RunQueue → Option Int × RunQueue
  | .fork, s => let (pid, s) := s.fork block; (some pid, s)
  | .execVpe found, s => if found then (none, s.execVpe block) else (some (-1), s)
  | .exit, s => (none, s.killProcess.scheduler)
  | .kill pid, s => let (r, s) := s.killKern pid; (some r, s)
  | .yield, s => (none, s.scheduler)
  | .wait, s => s.waitFor none
  | .waitPid pid, s => s.waitFor (some pid)

@[simp] theorem takePid_head (s : RunQueue) : s.takePid.2.head = s.head := by
  unfold takePid; split <;> rfl

@[simp] theorem takePid_rest (s : RunQueue) : s.takePid.2.rest = s.rest := by
  unfold takePid; split <;> rfl

@[simp] theorem takePid_births (s : RunQueue) : s.takePid.2.births = s.births := by
  unfold takePid; split <;> rfl

@[simp] theorem fork_head (block : Word) (s : RunQueue) : (s.fork block).2.head = s.head :=
  s.takePid_head

@[simp] theorem fork_rest (block : Word) (s : RunQueue) :
    (s.fork block).2.rest = ⟨block, s.takePid.1, s.head.pid, .queued, none,
      ⟨s.births, some s.head.birth.number⟩⟩ :: s.rest := by
  simp [fork]

/-- What a fork leaves open is the pid of the child. -/
theorem exists_fork (block : Word) (s : RunQueue) : ∃ q slots written,
    (s.fork block).2 = { s with
      rest := ⟨block, q, s.head.pid, .queued, none, ⟨s.births, some s.head.birth.number⟩⟩ :: s.rest
      slots := slots
      written := written
      births := s.births + 1 } := by
  unfold fork takePid
  cases freeSlot s.slots with
  | none => exact ⟨_, _, _, rfl⟩
  | some i => exact ⟨_, _, _, rfl⟩

theorem foldl_release (l : List Proc) (s : RunQueue) : l.foldl release s = { s with
    slots := Kernel.clearSlots (l.map Proc.pid) s.slots
    written := (l.map Proc.pid).reverse ++ s.written } := by
  induction l generalizing s with
  | nil => rfl
  | cons x l ih =>
      rw [List.foldl_cons, ih]
      simp [release, setSlot, Kernel.clearSlots]

@[simp] theorem waitAll_head (s : RunQueue) : s.waitAll.head = s.head := by
  rw [waitAll, foldl_release]

@[simp] theorem waitAll_rest (s : RunQueue) :
    s.waitAll.rest = s.rest.filter (·.state ≠ .zombie) := by
  rw [waitAll, foldl_release]

theorem zombie_of_find {s : RunQueue} {pid : Option Int} {x : Proc}
    (hf : (s.rest.find? fun x => x.IsChild pid s.head ∧ x.state = .zombie) = some x) :
    x ∈ s.rest ∧ x.IsChild pid s.head ∧ x.state = .zombie := by
  refine ⟨List.mem_of_find?_eq_some hf, ?_⟩
  have := List.find?_some hf
  simpa using this

/-! ## Runs -/

/-- What the boot leaves; the new table has the pids 1 and 2. -/
structure Booted (idle init : Word) (s : RunQueue) : Prop where
  head : s.head = ⟨idle, 1, 0, .running, none, ⟨0, none⟩⟩
  rest : ∃ ppid, s.rest = [⟨init, 2, ppid, .queued, none, ⟨1, none⟩⟩]
  slots : ∀ i : Int, 0 ≤ i → i < maxP → (s.slots i ≠ 0 ↔ i = 1 ∨ i = 2)
  written : ∀ i ∈ s.written, 0 ≤ i ∧ i < maxP
  console : s.console = []
  births : s.births = 2

def caller (s : RunQueue) : Caller := ⟨s.head.pid, s.head.state, s.slots⟩

def Fresh (s : RunQueue) (block : Word) : Prop := ∀ x ∈ s.procs, x.addr ≠ block

/-- One turn of the head of the queue. -/
inductive Turn (idle : Word) (may : Caller → Syscall → Prop) : RunQueue → RunQueue → Prop
  | idle {s : RunQueue} {block : Word} :
      s.head.addr = idle → s.Fresh block → Turn idle may s s.scheduler
  | call {s : RunQueue} {block : Word} {c : Syscall} :
      s.head.addr ≠ idle → s.head.waits = none → s.Fresh block → may s.caller c →
      Turn idle may s (s.syscall block c).2
  | resume {s : RunQueue} {block : Word} {pid : Option Int} :
      s.head.addr ≠ idle → s.head.waits = some pid → s.Fresh block → Turn idle may s s.resume.2

inductive Reach (idle : Word) (may : Caller → Syscall → Prop) : RunQueue → Prop
  | boot {s : RunQueue} {init : Word} : s.Booted idle init → Reach idle may s
  | turn {s s' : RunQueue} : Reach idle may s → Turn idle may s s' → Reach idle may s'

/-! ## Invariants, move by move

Every turn is made of a few moves: a message, a change of the head's
`waits`, a fork, an exec, a kill, the reaping of one zombie behind the head,
and a switch once no zombie is left there. A property that each move keeps
is kept by every turn. -/

structure Stable (idle : Word) (may : Caller → Syscall → Prop) (I : RunQueue → Prop) :
    Prop where
  say : ∀ {s : RunQueue} {m : Message}, ¬ m.IsSwitchError → I s → I (s.say m)
  setWaits : ∀ {s : RunQueue} (w : Option (Option Int)), I s → I (s.setWaits w)
  fork : ∀ {s : RunQueue} {block : Word}, s.head.addr ≠ idle → s.Fresh block →
    may s.caller .fork → I s → I (s.fork block).2
  execVpe : ∀ {s : RunQueue} {block : Word}, s.head.addr ≠ idle → s.Fresh block → I s →
    I (s.execVpe block)
  kill : ∀ {s : RunQueue}, s.head.addr ≠ idle → s.rest ≠ [] → I s → I s.killProcess
  reap : ∀ {s : RunQueue} {x : Proc}, x ∈ s.rest → x.state = .zombie → I s → I (s.reap x)
  switch : ∀ {s : RunQueue}, (∀ x ∈ s.rest, x.state ≠ .zombie) → I s → I s.switch

theorem foldl_erase_zombies (l : List Proc) :
    (l.filter (·.state = .zombie)).foldl List.erase l = l.filter (·.state ≠ .zombie) := by
  have hlive : ∀ (zs l : List Proc) {x : Proc}, x ∉ zs →
      zs.foldl List.erase (x :: l) = x :: zs.foldl List.erase l := by
    intro zs
    induction zs with
    | nil => intro l x _; rfl
    | cons z zs ih =>
        intro l x hx
        rw [List.mem_cons, not_or] at hx
        rw [List.foldl_cons, List.foldl_cons, List.erase_cons_tail (by simpa using hx.1)]
        exact ih _ hx.2
  induction l with
  | nil => rfl
  | cons x l ih =>
      by_cases hz : x.state = .zombie
      · simpa [hz] using ih
      · have hx : x ∉ l.filter (·.state = .zombie) := by simp [hz]
        rw [List.filter_cons_of_neg (by simpa using hz), hlive _ _ hx, ih]
        simp [hz]

/-- `wait_all` reaps one zombie after the other. -/
theorem waitAll_eq_foldl (s : RunQueue) :
    s.waitAll = (s.rest.filter (·.state = .zombie)).foldl (fun s x => s.reap x) s := by
  have hfold : ∀ (zs : List Proc) (s : RunQueue), zs.foldl (fun s x => s.reap x) s =
      zs.foldl release { s with rest := zs.foldl List.erase s.rest } := by
    intro zs
    induction zs with
    | nil => intro s; rfl
    | cons z zs ih => intro s; exact ih (s.reap z)
  rw [hfold, foldl_erase_zombies]
  rfl

namespace Stable

variable {idle : Word} {may : Caller → Syscall → Prop} {I : RunQueue → Prop} {s s' : RunQueue}

theorem waitAll (h : Stable idle may I) (hs : I s) : I s.waitAll := by
  have hfold : ∀ (zs : List Proc) (s : RunQueue), zs.Subperm s.rest →
      (∀ z ∈ zs, z.state = .zombie) → I s → I (zs.foldl (fun s x => s.reap x) s) := by
    intro zs
    induction zs with
    | nil => intro s _ _ hs; exact hs
    | cons z zs ih =>
        intro s hsub hz hs
        have hmem : z ∈ s.rest := hsub.subset (List.mem_cons_self ..)
        refine ih (s.reap z) ?_ (fun y hy => hz y (List.mem_cons_of_mem _ hy))
          (h.reap hmem (hz z (List.mem_cons_self ..)) hs)
        have := hsub.erase z
        rwa [List.erase_cons_head] at this
  rw [waitAll_eq_foldl]
  exact hfold _ s List.filter_sublist.subperm (fun z hz => by simpa using (List.mem_filter.mp hz).2)
    hs

theorem scheduler (h : Stable idle may I) (hs : I s) : I s.scheduler := by
  refine h.switch (fun x hx => ?_) (h.waitAll hs)
  rw [waitAll_rest] at hx
  simpa using (List.mem_filter.mp hx).2

theorem waitFor (h : Stable idle may I) (hs : I s) (pid : Option Int) :
    I (s.waitFor pid).2 := by
  unfold RunQueue.waitFor
  split
  next x hf =>
    obtain ⟨hx, -, hz⟩ := zombie_of_find hf
    exact h.setWaits none (h.reap hx hz hs)
  next =>
    split
    · exact h.scheduler (h.setWaits _ hs)
    · exact h.setWaits none hs

theorem killProcess (h : Stable idle may I) (hidle : s.head.addr ≠ idle) (hs : I s) :
    I s.killProcess := by
  by_cases hrest : s.rest = []
  · rw [RunQueue.killProcess, if_pos hrest]
    exact h.say id hs
  · exact h.kill hidle hrest hs

theorem killKern (h : Stable idle may I) (hidle : s.head.addr ≠ idle) (hs : I s) (pid : Int) :
    I (s.killKern pid).2 := by
  unfold RunQueue.killKern
  split_ifs
  · exact h.say id hs
  · exact h.say id hs
  · exact h.say id hs
  · exact h.say id hs
  · exact h.say id hs
  · exact hs
  · exact h.say id hs
  · exact h.killProcess hidle hs

theorem syscall (h : Stable idle may I) {block : Word} {c : Syscall}
    (hidle : s.head.addr ≠ idle) (hb : s.Fresh block) (hmay : may s.caller c) (hs : I s) :
    I (s.syscall block c).2 := by
  cases c with
  | fork => exact h.fork hidle hb hmay hs
  | execVpe found =>
      cases found with
      | false => exact hs
      | true => exact h.execVpe hidle hb hs
  | exit => exact h.scheduler (h.killProcess hidle hs)
  | kill pid => exact h.killKern hidle hs pid
  | yield => exact h.scheduler hs
  | wait => exact h.waitFor hs none
  | waitPid pid => exact h.waitFor hs (some pid)

theorem turn (h : Stable idle may I) (ht : Turn idle may s s') (hs : I s) : I s' := by
  cases ht with
  | idle _ _ => exact h.scheduler hs
  | call hidle _ hb hmay => exact h.syscall hidle hb hmay hs
  | resume _ _ _ =>
      unfold RunQueue.resume
      split
      · exact hs
      · exact h.setWaits none hs

theorem reach (h : Stable idle may I) (hboot : ∀ {s init}, s.Booted idle init → I s)
    (hs : Reach idle may s) : I s := by
  induction hs with
  | boot hs => exact hboot hs
  | turn _ ht ih => exact h.turn ht ih

theorem turns (h : Stable idle may I)
    (ht : Relation.ReflTransGen (Turn idle may) s s') (hs : I s) : I s' := by
  induction ht with
  | refl => exact hs
  | tail _ ht ih => exact h.turn ht ih

end Stable

/-! ## What `scheduler` relies on -/

/-- The states that the processes of a running system have. -/
structure Scheduled (idle : Word) (s : RunQueue) : Prop where
  head : s.head.state = .running ∨ s.head.state = .zombie
  rest : ∀ x ∈ s.rest, x.state = .queued ∨ x.state = .zombie
  idle : ∃ x ∈ s.procs, x.addr = idle ∧ x.state ≠ .zombie

namespace Scheduled

variable {idle block : Word} {s : RunQueue}

theorem rest_ne_nil (h : s.Scheduled idle) (hidle : s.head.addr ≠ idle) : s.rest ≠ [] := by
  intro hnil
  obtain ⟨x, hx, hxi, -⟩ := h.idle
  rw [procs, hnil, List.mem_singleton] at hx
  exact hidle (hx ▸ hxi)

theorem idle_rest (h : s.Scheduled idle) (hidle : s.head.addr ≠ idle) :
    ∃ x ∈ s.rest, x.addr = idle ∧ x.state ≠ .zombie := by
  obtain ⟨x, hx, hxi⟩ := h.idle
  rcases List.mem_cons.mp hx with rfl | hx
  · exact absurd hxi.1 hidle
  · exact ⟨x, hx, hxi⟩

theorem setWaits (h : s.Scheduled idle) (w : Option (Option Int)) :
    (s.setWaits w).Scheduled idle := by
  refine ⟨h.head, h.rest, ?_⟩
  obtain ⟨x, hx, hxi⟩ := h.idle
  rcases List.mem_cons.mp hx with rfl | hx
  · exact ⟨_, List.mem_cons_self .., hxi⟩
  · exact ⟨x, List.mem_cons_of_mem _ hx, hxi⟩

theorem fork (h : s.Scheduled idle) (block : Word) : (s.fork block).2.Scheduled idle := by
  refine ⟨(s.fork_head block).symm ▸ h.head, fun x hx => ?_, ?_⟩
  · rw [fork_rest] at hx
    rcases List.mem_cons.mp hx with rfl | hx
    · exact Or.inl rfl
    · exact h.rest x hx
  · obtain ⟨x, hx, hxi⟩ := h.idle
    refine ⟨x, ?_, hxi⟩
    rw [procs, fork_head, fork_rest]
    rcases List.mem_cons.mp hx with rfl | hx
    · exact List.mem_cons_self ..
    · exact List.mem_cons_of_mem _ (List.mem_cons_of_mem _ hx)

theorem execVpe (h : s.Scheduled idle) (hidle : s.head.addr ≠ idle) (block : Word) :
    (s.execVpe block).Scheduled idle := by
  obtain ⟨x, hx, hxi⟩ := h.idle_rest hidle
  exact ⟨Or.inl rfl, h.rest, x, List.mem_cons_of_mem _ hx, hxi⟩

theorem killProcess (h : s.Scheduled idle) (hidle : s.head.addr ≠ idle) :
    s.killProcess.Scheduled idle := by
  rw [RunQueue.killProcess, if_neg (h.rest_ne_nil hidle)]
  refine ⟨Or.inr rfl, fun x hx => ?_, ?_⟩
  · obtain ⟨y, hy, rfl⟩ := List.mem_map.mp hx
    rw [Proc.adopt_state]
    exact h.rest y hy
  · obtain ⟨x, hx, hxi⟩ := h.idle_rest hidle
    refine ⟨_, List.mem_cons_of_mem _ (List.mem_map_of_mem hx), ?_⟩
    rwa [Proc.adopt_addr, Proc.adopt_state]

theorem reap (h : s.Scheduled idle) {x : Proc} (hz : x.state = .zombie) :
    (s.reap x).Scheduled idle := by
  have hrest : ∀ y ∈ (s.reap x).rest, y ∈ s.rest := fun y hy => List.mem_of_mem_erase hy
  refine ⟨h.head, fun y hy => h.rest y (hrest y hy), ?_⟩
  obtain ⟨y, hy, hyi, hyz⟩ := h.idle
  refine ⟨y, ?_, hyi, hyz⟩
  rcases List.mem_cons.mp hy with rfl | hy
  · exact List.mem_cons_self ..
  · have hyx : y ≠ x := fun h' => hyz (h' ▸ hz)
    exact List.mem_cons_of_mem _ ((List.mem_erase_of_ne hyx).mpr hy)

theorem switch (h : s.Scheduled idle) : s.switch.Scheduled idle := by
  unfold RunQueue.switch
  split
  · exact h
  next c l hs =>
    have hsusp : s.head.suspend.state = .queued ∨ s.head.suspend.state = .zombie := by
      unfold Proc.suspend
      rcases h.head with hr | hz
      · rw [if_pos hr]
        exact Or.inl rfl
      · rw [if_neg (by simp [hz])]
        exact Or.inr hz
    refine ⟨Or.inl rfl, fun x hx => ?_, ?_⟩
    · rcases List.mem_append.mp hx with hx | hx
      · exact h.rest x (hs ▸ List.mem_cons_of_mem _ hx)
      · rw [List.mem_singleton.mp hx]
        exact hsusp
    · obtain ⟨x, hx, hxi, hxz⟩ := h.idle
      rcases List.mem_cons.mp hx with rfl | hx
      · refine ⟨s.head.suspend, ?_, (Proc.suspend_addr _).trans hxi, ?_⟩
        · exact List.mem_cons_of_mem _ (List.mem_append_right _ (List.mem_cons_self ..))
        · rw [Proc.suspend, if_pos (h.head.resolve_right hxz)]
          exact ProcessState.noConfusion
      · rw [hs] at hx
        rcases List.mem_cons.mp hx with rfl | hx
        · exact ⟨_, List.mem_cons_self .., hxi, ProcessState.noConfusion⟩
        · exact ⟨x, List.mem_cons_of_mem _ (List.mem_append_left _ hx), hxi, hxz⟩

end Scheduled

theorem stable_scheduled (idle : Word) (may : Caller → Syscall → Prop) :
    Stable idle may (Scheduled idle) where
  say _ hs := ⟨hs.head, hs.rest, hs.idle⟩
  setWaits w hs := hs.setWaits w
  fork _ _ _ hs := hs.fork _
  execVpe hidle _ hs := hs.execVpe hidle _
  kill hidle _ hs := hs.killProcess hidle
  reap _ hz hs := hs.reap hz
  switch _ hs := hs.switch

theorem Booted.scheduled {idle init : Word} {s : RunQueue} (h : s.Booted idle init) :
    s.Scheduled idle := by
  obtain ⟨ppid, hrest⟩ := h.rest
  refine ⟨Or.inl (by rw [h.head]), fun x hx => ?_, _, List.mem_cons_self .., by rw [h.head], ?_⟩
  · rw [hrest, List.mem_singleton] at hx
    exact Or.inl (by rw [hx])
  · rw [h.head]
    exact ProcessState.noConfusion

theorem Reach.scheduled {idle : Word} {may : Caller → Syscall → Prop} {s : RunQueue}
    (h : Reach idle may s) : s.Scheduled idle :=
  (stable_scheduled idle may).reach Booted.scheduled h

/-! ## What is printed -/

/-- Nothing from the error branches of `switch_process`. -/
def Quiet (s : RunQueue) : Prop := ∀ m ∈ s.console, ¬ m.IsSwitchError

theorem stable_quiet (idle : Word) (may : Caller → Syscall → Prop) :
    Stable idle may Quiet where
  say := by
    intro s m hm hs m' hm'
    rcases List.mem_cons.mp hm' with rfl | hm'
    · exact hm
    · exact hs m' hm'
  setWaits _ hs := hs
  fork := by
    intro s block _ _ _ hs
    have : (s.fork block).2.console = s.console := by
      simp [RunQueue.fork, takePid]
      split <;> rfl
    rwa [Quiet, this]
  execVpe _ _ hs := hs
  kill := by
    intro s _ hrest hs
    rwa [killProcess, if_neg hrest]
  reap _ _ hs := hs
  switch := by
    intro s _ hs
    unfold RunQueue.switch
    split <;> exact hs

theorem Reach.quiet {idle : Word} {may : Caller → Syscall → Prop} {s : RunQueue}
    (h : Reach idle may s) : s.Quiet := by
  refine (stable_quiet idle may).reach (fun hs => ?_) h
  simp [Quiet, hs.console]

end RunQueue

end SnowOs
