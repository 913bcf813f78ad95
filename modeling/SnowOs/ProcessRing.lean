import SnowOs.RunQueue

/-!
# The ring holds the queue

`RingHolds k s` says that the queue `s` is what the kernel state `k` holds:
the ring through `current_process` lists the blocks of the queue, and each
block holds its process. Each operation of the kernel, run on a state that
refines `s`, delivers the value and a refinement of the state that the
queue's operation gives, as soon as its loops may take more rounds than the
ring has other members (`RingHolds.syscall`, `RingHolds.resume`,
`RingHolds.scheduler`). `scheduler` needs more than the refinement: the
states of the processes must be `Scheduled`, as a process that is neither
the head nor QUEUED nor ZOMBIE would send it into an error branch.

So every state the system reaches holds a queue that the queue's own system
reaches (`Kernel.Reach.refines`), and what holds of those is read back in
the ring (`Kernel.Reach.ring`).
-/

namespace SnowOs

open Linked Function

theorem Kernel.getPID_current (k : Kernel) : k.getPID.2.current = k.current := by
  unfold getPID; split <;> rfl

/-! ## Refinement -/

/-- Where the process at `a` goes on. A process that waits has its cursor
on itself: its first scan went once round. -/
def Cont.IsAt (a : Word) : Option (Option Int) → Cont → Prop
  | none, c => c = .user
  | some pid, c => ∃ prev, c = .waiting pid a prev

/-- The block of `x` holds `x`. -/
structure Kernel.Holds (k : Kernel) (x : Proc) : Prop where
  pid : k.pid x.addr = x.pid
  ppid : k.ppid x.addr = x.ppid
  state : k.state x.addr = x.state
  cont : (k.cont x.addr).IsAt x.addr x.waits
  birth : k.birth x.addr = x.birth

theorem Kernel.Holds.congr {k k' : Kernel} {x : Proc} (h : k.Holds x)
    (hpid : k'.pid x.addr = k.pid x.addr) (hppid : k'.ppid x.addr = k.ppid x.addr)
    (hstate : k'.state x.addr = k.state x.addr) (hcont : k'.cont x.addr = k.cont x.addr)
    (hbirth : k'.birth x.addr = k.birth x.addr) : k'.Holds x :=
  ⟨hpid.trans h.pid, hppid.trans h.ppid, hstate.trans h.state, hcont ▸ h.cont,
    hbirth.trans h.birth⟩

theorem Kernel.Holds.setup {k : Kernel} {x : Proc} {block : Word} (h : k.Holds x)
    (hne : x.addr ≠ block) (current : Word) (next : Word → Word) (numChild : Word → Int)
    (pid ppid : Int) (state : ProcessState) (cont : Cont) (birth : Birth) (births : Nat) :
    Holds { k with
      current := current
      next := next
      numChild := numChild
      pid := update k.pid block pid
      ppid := update k.ppid block ppid
      state := update k.state block state
      cont := update k.cont block cont
      birth := update k.birth block birth
      births := births } x :=
  h.congr (update_of_ne hne ..) (update_of_ne hne ..) (update_of_ne hne ..) (update_of_ne hne ..)
    (update_of_ne hne ..)

/-- The kernel state holds the queue. -/
structure RingHolds (k : Kernel) (s : RunQueue) : Prop where
  current : k.current = s.head.addr
  ring : Ring k.next k.current (s.rest.map Proc.addr)
  head : k.Holds s.head
  rest : ∀ x ∈ s.rest, k.Holds x
  slots : k.processes = s.slots
  written : k.written = s.written
  console : k.console = s.console
  births : k.births = s.births

namespace RingHolds

open Kernel

variable {k : Kernel} {s : RunQueue} {idle block : Word} {fuel : Nat}

theorem holds (h : RingHolds k s) {x : Proc} (hx : x ∈ s.procs) : k.Holds x := by
  rcases List.mem_cons.mp hx with rfl | hx
  · exact h.head
  · exact h.rest x hx

/-- The blocks of the queue are the members of the ring. -/
theorem inRing_iff (h : RingHolds k s) {a : Word} :
    k.InRing a ↔ ∃ x ∈ s.procs, x.addr = a := by
  rw [InRing, ← h.ring.mem_iff_iterate, h.current, ← List.map_cons, List.mem_map]
  rfl

theorem fresh (h : RingHolds k s) (hb : ¬ k.InRing block) :
    block ∉ k.current :: s.rest.map Proc.addr :=
  fun hmem => hb (h.ring.mem_iff_iterate.mp hmem)

theorem ne_of_fresh (h : RingHolds k s) (hb : block ∉ k.current :: s.rest.map Proc.addr) :
    s.Fresh block := by
  intro x hx hxb
  rcases List.mem_cons.mp hx with rfl | hx
  · exact hb (hxb ▸ h.current ▸ List.mem_cons_self ..)
  · exact hb (hxb ▸ List.mem_cons_of_mem _ (List.mem_map_of_mem hx))

theorem addr_ne_current (h : RingHolds k s) {x : Proc} (hx : x ∈ s.rest) : x.addr ≠ k.current :=
  fun hxa => h.ring.notMem (hxa ▸ List.mem_map_of_mem hx)

theorem rest_eq_nil (h : RingHolds k s) : k.current = k.next k.current ↔ s.rest = [] := by
  rw [eq_comm, h.ring.next_eq_self, List.map_eq_nil_iff]

theorem caller (h : RingHolds k s) : k.caller = s.caller := by
  rw [Kernel.caller, RunQueue.caller, h.current, h.head.pid, h.head.state, h.slots]

theorem kprintf (h : RingHolds k s) (m : Message) : RingHolds (k.kprintf m) (s.say m) :=
  ⟨h.current, h.ring, h.head.congr rfl rfl rfl rfl rfl,
    fun x hx => (h.rest x hx).congr rfl rfl rfl rfl rfl, h.slots, h.written,
    congrArg (_ :: ·) h.console, h.births⟩

/-! ### Allocation and insertion -/

theorem getPID (h : RingHolds k s) :
    k.getPID.1 = s.takePid.1 ∧ RingHolds k.getPID.2 s.takePid.2 := by
  unfold Kernel.getPID RunQueue.takePid
  rw [h.slots]
  cases freeSlot s.slots with
  | none => exact ⟨rfl, h⟩
  | some i =>
      refine ⟨rfl, h.current, h.ring, h.head.congr rfl rfl rfl rfl rfl,
        fun x hx => (h.rest x hx).congr rfl rfl rfl rfl rfl, ?_, ?_, h.console, h.births⟩
      · exact congrArg (update · _ _) h.slots
      · exact congrArg (_ :: ·) h.written

theorem fork (h : RingHolds k s) (hb : ¬ k.InRing block) :
    (k.fork block).1 = (s.fork block).1 ∧ RingHolds (k.fork block).2 (s.fork block).2 := by
  replace hb := h.fresh hb
  obtain ⟨hpid, h⟩ := h.getPID
  rw [← s.takePid_rest, ← k.getPID_current] at hb
  unfold Kernel.fork copyProcess RunQueue.fork
  generalize k.getPID = r, s.takePid = t at *
  obtain ⟨pid, k⟩ := r
  obtain ⟨pid', s⟩ := t
  obtain rfl : pid = pid' := hpid
  replace h : RingHolds k s := h
  have hne := h.ne_of_fresh hb
  have hcur : k.current ≠ block := fun h' => hb (h' ▸ List.mem_cons_self ..)
  refine ⟨update_self .., h.current, h.ring.insert hb ?_ ?_ ?_,
    h.head.setup (hne _ (List.mem_cons_self ..)) .., fun x hx => ?_, h.slots, h.written,
    h.console, congrArg (· + 1) h.births⟩
  · exact (update_of_ne hcur ..).trans (update_self ..)
  · exact (update_self ..).trans (update_of_ne hcur ..)
  · intro a ha hab
    exact ((update_of_ne hab ..).trans (update_of_ne ha ..)).trans (update_of_ne hab ..)
  · rcases List.mem_cons.mp hx with rfl | hx
    · have hppid : k.pid k.current = s.head.pid := h.current ▸ h.head.pid
      have hbirth : k.birth k.current = s.head.birth := h.current ▸ h.head.birth
      refine ⟨update_self .., (update_self ..).trans hppid, update_self .., update_self ..,
        (update_self ..).trans ?_⟩
      rw [h.births, hbirth]
    · exact (h.rest x hx).setup (hne x (List.mem_cons_of_mem _ hx)) ..

theorem execVpe (h : RingHolds k s) (hb : ¬ k.InRing block) (hne : s.rest ≠ []) :
    Runs (fuel ≤ s.rest.length) (k.execVpe fuel block true) fun r =>
      r.1 = none ∧ RingHolds r.2 (s.execVpe block) := by
  replace hb := h.fresh hb
  have hrest : s.rest.map Proc.addr ≠ [] := by rwa [ne_eq, List.map_eq_nil_iff]
  have hring : Ring (update k.next block 0) k.current (s.rest.map Proc.addr) := by
    refine h.ring.frame fun c hc => update_of_ne ?_ ..
    rintro rfl
    exact hb hc
  unfold Kernel.execVpe
  rw [if_pos rfl]
  have hwalk := hring.walk_last hrest fuel
  rw [List.length_map] at hwalk
  refine hwalk.bind fun r hr => ?_
  have hlast : r.2 ∈ s.rest.map Proc.addr := hr ▸ getLastD_mem_of_ne_nil hrest
  have hlastCur : k.current ≠ r.2 := fun h' => h.ring.notMem (h' ▸ hlast)
  have hlastBlock : r.2 ≠ block := fun h' => hb (List.mem_cons_of_mem _ (h' ▸ hlast))
  refine ⟨rfl, rfl, hring.replace hrest hb ?_ ?_ ?_, ?_, fun x hx => ?_, h.slots, h.written,
    h.console, h.births⟩
  · rw [← hr]
    exact (update_of_ne hlastBlock ..).trans (update_self ..)
  · exact (update_self ..).trans (update_of_ne hlastCur ..)
  · intro a ha hab
    rw [← hr] at ha
    exact (update_of_ne hab ..).trans (update_of_ne ha ..)
  · have hpid : k.pid k.current = s.head.pid := h.current ▸ h.head.pid
    have hppid : k.ppid k.current = s.head.ppid := h.current ▸ h.head.ppid
    have hbirth : k.birth k.current = s.head.birth := h.current ▸ h.head.birth
    exact ⟨(update_self ..).trans hpid, (update_self ..).trans hppid, update_self ..,
      update_self .., (update_self ..).trans hbirth⟩
  · exact (h.rest x hx).setup (h.ne_of_fresh hb x (List.mem_cons_of_mem _ hx)) ..

/-! ### Reaping and switching -/

theorem swept (h : RingHolds k s) {zs xs : List Proc} {k' : Kernel} (hzs : ∀ z ∈ zs, z ∈ s.rest)
    (hxs : ∀ x ∈ xs, x ∈ s.rest) (hk' : k.Swept (zs.map Proc.addr) (xs.map Proc.addr) k') :
    RingHolds k' (zs.foldl RunQueue.release { s with rest := xs }) := by
  obtain ⟨next, hring, rfl⟩ := hk'
  have hpids : (zs.map Proc.addr).map k.pid = zs.map Proc.pid := by
    rw [List.map_map]
    exact List.map_congr_left fun z hz => (h.rest z (hzs z hz)).pid
  rw [RunQueue.foldl_release, hpids, h.slots, h.written]
  exact ⟨h.current, hring, h.head.congr rfl rfl rfl rfl rfl,
    fun x hx => (h.rest x (hxs x hx)).congr rfl rfl rfl rfl rfl, rfl, rfl, h.console, h.births⟩

theorem reapProcess (h : RingHolds k s) {l₁ l₂ : List Proc} {x : Proc}
    (hs : s.rest = l₁ ++ x :: l₂) :
    Runs (fuel ≤ s.rest.length) (k.reapProcess fuel x.addr) fun k' =>
      RingHolds k' { s.release x with rest := l₁ ++ l₂ } := by
  have hring := h.ring
  rw [hs, List.map_append, List.map_cons] at hring
  refine (reapProcess_runs hring).imp (fun hf => ?_) fun k' hk' => ?_
  · rwa [← List.map_cons, ← List.map_append, ← hs, List.length_map] at hf
  · have hdead : ∀ z ∈ [x], z ∈ s.rest := by simp [hs]
    have hlive : ∀ y ∈ l₁ ++ l₂, y ∈ s.rest := fun y hy =>
      hs ▸ ((List.sublist_cons_self x l₂).append_left l₁).subset hy
    rw [← List.map_append] at hk'
    exact h.swept hdead hlive hk'

theorem next_last (h : RingHolds k s) {l₁ l₂ : List Proc} (hs : s.rest = l₁ ++ l₂) :
    k.next ((l₁.map Proc.addr).getLastD k.current) = (l₂.map Proc.addr).headD k.current := by
  have hseg := h.ring.seg
  rw [hs, List.map_append] at hseg
  cases l₂ with
  | nil =>
      rw [List.map_nil, List.append_nil] at hseg
      exact hseg.next_last
  | cons x l₂ => exact (seg_append_cons.mp hseg).1.next_last

theorem waitAll (h : RingHolds k s) :
    Runs (fuel ≤ s.rest.length) (k.waitAll fuel) fun k' => RingHolds k' s.waitAll := by
  refine (waitAll_runs h.ring).imp (fun hf => by rwa [List.length_map] at hf) fun k' hk' => ?_
  have hdead : (s.rest.map Proc.addr).filter (k.state · = .zombie)
      = (s.rest.filter (·.state = .zombie)).map Proc.addr := by
    rw [List.filter_map]
    exact congrArg _ (List.filter_congr fun x hx => by simp [(h.rest x hx).state])
  have hlive : (s.rest.map Proc.addr).filter (k.state · ≠ .zombie)
      = (s.rest.filter (·.state ≠ .zombie)).map Proc.addr := by
    rw [List.filter_map]
    exact congrArg _ (List.filter_congr fun x hx => by simp [(h.rest x hx).state])
  rw [hdead, hlive] at hk'
  exact h.swept (fun z hz => (List.mem_filter.mp hz).1) (fun x hx => (List.mem_filter.mp hx).1) hk'

/-- The second process becomes the head, the head goes to the back. -/
theorem rotate (h : RingHolds k s) {c : Proc} {l : List Proc} (hs : s.rest = c :: l)
    {st : Word → ProcessState} (hc : st c.addr = .running)
    (hcur : st k.current = s.head.suspend.state)
    (heq : ∀ a, a ≠ c.addr → a ≠ k.current → st a = k.state a) :
    RingHolds { k with state := st, current := c.addr }
      { s with head := { c with state := .running }, rest := l ++ [s.head.suspend] } := by
  have hring := h.ring
  rw [hs, List.map_cons] at hring
  have hcmem : c ∈ s.rest := hs ▸ List.mem_cons_self ..
  have hch := h.rest c hcmem
  refine ⟨rfl, ?_, ⟨hch.pid, hch.ppid, hc, hch.cont, hch.birth⟩, fun x hx => ?_, h.slots,
    h.written, h.console, h.births⟩
  · rw [List.map_append, List.map_cons, Proc.suspend_addr, ← h.current]
    exact hring.rotate
  · rcases List.mem_append.mp hx with hx | hx
    · have hxmem : x ∈ s.rest := hs ▸ List.mem_cons_of_mem _ hx
      have hxc : x.addr ≠ c.addr := fun h' =>
        (List.nodup_cons.mp (List.nodup_cons.mp hring.nodup).2).1 (h' ▸ List.mem_map_of_mem hx)
      exact (h.rest x hxmem).congr rfl rfl (heq _ hxc (h.addr_ne_current hxmem)) rfl rfl
    · rw [List.mem_singleton] at hx
      subst hx
      rw [h.current] at hcur
      have hhead := h.head
      refine ⟨?_, ?_, ?_, ?_, ?_⟩
      all_goals rw [Proc.suspend_addr]
      · rw [Proc.suspend_pid]
        exact hhead.pid
      · rw [Proc.suspend_ppid]
        exact hhead.ppid
      · exact hcur
      · rw [Proc.suspend_waits]
        exact hhead.cont
      · rw [Proc.suspend_birth]
        exact hhead.birth

theorem switchProcess (h : RingHolds k s)
    (hhead : s.head.state = .running ∨ s.head.state = .zombie)
    (hrest : ∀ x ∈ s.rest, x.state = .queued) :
    Runs (fuel ≤ s.rest.length) (k.switchProcess fuel block) fun k' =>
      RingHolds k' s.switch := by
  unfold Kernel.switchProcess RunQueue.switch
  cases hs : s.rest with
  | nil =>
      rw [if_pos (h.rest_eq_nil.mpr hs)]
      exact h
  | cons c l =>
      have hc : c ∈ s.rest := hs ▸ List.mem_cons_self ..
      have hcq : k.state c.addr = .queued := (h.rest c hc).state.trans (hrest c hc)
      have hcur := h.addr_ne_current hc
      have hstate : k.state k.current = s.head.state := h.current ▸ h.head.state
      have hmany : k.current ≠ k.next k.current := by
        rw [ne_eq, h.rest_eq_nil, hs]
        exact List.cons_ne_nil c l
      -- nobody behind the head is skipped: the candidate is the next block
      have hfirst : ((s.rest.map Proc.addr).find? fun a => k.state a = .queued) = some c.addr := by
        rw [hs, List.map_cons]
        exact List.find?_cons_of_pos (decide_eq_true hcq)
      have hwalk := h.ring.walk_first (fun a => k.state a = .queued) fuel
      rw [hfirst, List.length_map, hs] at hwalk
      rw [if_neg hmany]
      refine hwalk.bind fun r hr => ?_
      rw [Option.getD_some] at hr
      simp only [hr]
      rw [if_neg hcur]
      rcases hhead with hrun | hz
      · rw [if_pos (hstate.trans hrun)]
        refine h.rotate hs (update_self ..) ?_ fun a ha ha' =>
          (update_of_ne ha ..).trans (update_of_ne ha' ..)
        rw [update_of_ne hcur.symm, update_self, Proc.suspend, if_pos hrun]
      · have hnot : s.head.state ≠ .running := by simp [hz]
        rw [if_neg (hstate ▸ hnot), if_pos (hstate.trans hz)]
        refine h.rotate hs (update_self ..) ?_ fun a ha _ => update_of_ne ha ..
        rw [update_of_ne hcur.symm, Proc.suspend, if_neg hnot, hstate]

theorem scheduler (h : RingHolds k s) (hs : s.Scheduled idle) :
    Runs (fuel ≤ s.rest.length) (k.scheduler fuel block) fun k' =>
      RingHolds k' s.scheduler := by
  refine h.waitAll.bind fun k' h' => ?_
  have hlive := s.waitAll_rest
  refine (h'.switchProcess (s.waitAll_head.symm ▸ hs.head) fun x hx => ?_).imp (fun hf => hf.trans ?_)
    fun k'' h'' => h''
  · rw [hlive, List.mem_filter] at hx
    exact (hs.rest x hx.1).resolve_right (of_decide_eq_true hx.2)
  · rw [hlive]
    exact List.length_filter_le ..

/-! ### Ending processes -/

theorem adopt (h : RingHolds k s) {l₁ l₂ : List Proc} {x : Proc} (hs : s.rest = l₁ ++ x :: l₂) :
    RingHolds
      (if k.ppid x.addr = k.pid k.current then { k with ppid := update k.ppid x.addr 1 } else k)
      { s with rest := l₁ ++ Proc.adopt s.head x :: l₂ } := by
  have hx : x ∈ s.rest := hs ▸ List.mem_append_right _ (List.mem_cons_self ..)
  have hpid : k.pid k.current = s.head.pid := h.current ▸ h.head.pid
  rw [(h.rest x hx).ppid, hpid, Proc.adopt]
  by_cases hc : x.ppid = s.head.pid
  · rw [if_pos hc, if_pos hc]
    have hnd := (List.nodup_cons.mp h.ring.nodup).2
    rw [hs, List.map_append, List.map_cons] at hnd
    obtain ⟨-, hnd₂, hdis⟩ := List.nodup_append.mp hnd
    have hold : ∀ y ∈ s.rest, y.addr ≠ x.addr →
        Holds { k with ppid := update k.ppid x.addr 1 } y := fun y hy hyx =>
      (h.rest y hy).congr rfl (update_of_ne hyx ..) rfl rfl rfl
    refine ⟨h.current, ?_, ?_, fun y hy => ?_, h.slots, h.written, h.console,
      h.births⟩
    · have hring := h.ring
      rw [hs, List.map_append, List.map_cons] at hring
      rw [List.map_append, List.map_cons]
      exact hring
    · exact h.head.congr rfl (update_of_ne (h.current ▸ (h.addr_ne_current hx).symm) ..) rfl rfl
        rfl
    · rcases List.mem_append.mp hy with hy | hy
      · refine hold y (hs ▸ List.mem_append_left _ hy) ?_
        exact hdis _ (List.mem_map_of_mem hy) _ (List.mem_cons_self ..)
      · rcases List.mem_cons.mp hy with rfl | hy
        · have hxh := h.rest x hx
          exact ⟨hxh.pid, update_self .., hxh.state, hxh.cont, hxh.birth⟩
        · refine hold y (hs ▸ List.mem_append_right _ (List.mem_cons_of_mem _ hy)) ?_
          exact fun h' => (List.nodup_cons.mp hnd₂).1 (h' ▸ List.mem_map_of_mem hy)
  · rw [if_neg hc, if_neg hc, ← hs]
    exact h

theorem adoptFrom : ∀ (l₁ l₂ : List Proc) {n : Nat} {k : Kernel} {s : RunQueue},
    RingHolds k s → s.rest = l₁ ++ l₂ →
      Runs (n ≤ l₂.length)
        (Kernel.adoptFrom k.current n (k.next ((l₁.map Proc.addr).getLastD k.current)) k)
        fun k' => RingHolds k' { s with rest := l₁ ++ l₂.map (Proc.adopt s.head) }
  | _, _, 0, _, _, _, _ => Nat.zero_le _
  | l₁, [], n + 1, k, s, h, hs => by
      rw [Kernel.adoptFrom, h.next_last hs, List.map_nil, List.headD_nil, if_pos rfl,
        List.map_nil, ← hs]
      exact h
  | l₁, x :: l₂, n + 1, k, s, h, hs => by
      have hx : x ∈ s.rest := hs ▸ List.mem_append_right _ (List.mem_cons_self ..)
      have hadopt := h.adopt hs
      rw [Kernel.adoptFrom, h.next_last hs, List.map_cons, List.headD_cons,
        if_neg (h.addr_ne_current hx)]
      dsimp only
      generalize hk' : (if k.ppid x.addr = k.pid k.current then _ else _ : Kernel) = k' at *
      have hcur : k'.current = k.current := hadopt.current.trans h.current.symm
      have ih := adoptFrom (l₁ ++ [Proc.adopt s.head x]) l₂ (n := n) hadopt
        (by rw [List.append_assoc]; rfl)
      rw [List.map_append, List.map_cons, List.map_nil, List.getLastD_concat, Proc.adopt_addr,
        hcur, List.append_assoc] at ih
      exact ih.imp Nat.succ_le_succ fun k'' h'' => h''

theorem killProcess (h : RingHolds k s) :
    Runs (fuel ≤ s.rest.length) (k.killProcess fuel k.current) fun k' =>
      RingHolds k' s.killProcess := by
  unfold Kernel.killProcess RunQueue.killProcess
  by_cases hs : s.rest = []
  · rw [if_pos hs, if_pos (h.rest_eq_nil.mpr hs).symm]
    exact h.kprintf _
  · rw [if_neg hs, if_neg fun h' => hs (h.rest_eq_nil.mp h'.symm)]
    refine (adoptFrom [] s.rest h rfl).bind fun k' h' => ?_
    refine ⟨h'.current, h'.ring, ?_, fun x hx => ?_, h'.slots, h'.written, h'.console,
      h'.births⟩
    · have hh := h'.head
      exact ⟨hh.pid, hh.ppid, h'.current ▸ update_self .., hh.cont, hh.birth⟩
    · exact (h'.rest x hx).congr rfl rfl (update_of_ne (h'.addr_ne_current hx) ..) rfl rfl

theorem walk_pid (h : RingHolds k s) (pid : Int) :
    Runs (fuel ≤ s.rest.length)
      (walkUntil k.next (fun c => c = k.current ∨ k.pid c = pid) fuel k.current
        (k.next k.current))
      fun r => r.2 ≠ k.current ↔ ∃ x ∈ s.rest, x.pid = pid := by
  have hwalk := h.ring.walk_first (fun a => k.pid a = pid) fuel
  rw [List.length_map] at hwalk
  refine hwalk.imp id fun r hr => ?_
  rw [hr]
  cases hf : (s.rest.map Proc.addr).find? fun a => k.pid a = pid with
  | none =>
      refine ⟨fun hne => absurd rfl hne, fun ⟨x, hx, hxp⟩ => ?_⟩
      have := List.find?_eq_none.mp hf _ (List.mem_map_of_mem hx)
      rw [(h.rest x hx).pid] at this
      exact absurd (decide_eq_true hxp) this
  | some a =>
      obtain ⟨x, hx, rfl⟩ := List.mem_map.mp (List.mem_of_find?_eq_some hf)
      have hxp : decide (k.pid x.addr = pid) = true :=
        List.find?_some (p := fun a => decide (k.pid a = pid)) hf
      rw [decide_eq_true_eq, (h.rest x hx).pid] at hxp
      exact ⟨fun _ => ⟨x, hx, hxp⟩, fun _ => h.addr_ne_current hx⟩

theorem killKern (h : RingHolds k s) (pid : Int) :
    Runs (fuel ≤ s.rest.length) (k.killKern fuel pid) fun r =>
      r.1 = (s.killKern pid).1 ∧ RingHolds r.2 (s.killKern pid).2 := by
  have hpid : k.pid k.current = s.head.pid := h.current ▸ h.head.pid
  unfold Kernel.killKern RunQueue.killKern
  simp only [h.slots, h.rest_eq_nil, hpid]
  by_cases h₁ : pid ≤ 0
  · simp only [if_pos h₁]
    exact ⟨rfl, h.kprintf _⟩
  by_cases h₂ : maxP ≤ pid
  · simp only [if_neg h₁, if_pos h₂]
    exact ⟨rfl, h.kprintf _⟩
  by_cases h₃ : pid = 1
  · simp only [if_neg h₁, if_neg h₂, if_pos h₃]
    exact ⟨rfl, h.kprintf _⟩
  by_cases h₄ : s.slots pid = 0
  · simp only [if_neg h₁, if_neg h₂, if_neg h₃, if_pos h₄]
    exact ⟨rfl, h.kprintf _⟩
  by_cases h₅ : s.rest = [] ∧ s.head.pid = pid
  · simp only [if_neg h₁, if_neg h₂, if_neg h₃, if_neg h₄, if_pos h₅]
    exact ⟨rfl, h.kprintf _⟩
  simp only [if_neg h₁, if_neg h₂, if_neg h₃, if_neg h₄, if_neg h₅]
  refine (h.walk_pid pid).bind fun r hr => ?_
  by_cases hother : ∃ x ∈ s.rest, x.pid = pid
  · simp only [if_pos (hr.mpr hother), if_pos hother]
    exact ⟨rfl, h⟩
  have hback : r.2 = k.current := not_not.mp fun h' => hother (hr.mp h')
  simp only [hback, ne_eq, not_true_eq_false, if_false, if_neg hother, hpid]
  by_cases hself : s.head.pid = pid
  · simp only [hself, not_true_eq_false, if_false]
    exact h.killProcess.bind fun k' h' => ⟨rfl, h'⟩
  · simp only [if_pos hself]
    exact ⟨rfl, h.kprintf _⟩

/-! ### Waiting for children -/

theorem isChild_iff (h : RingHolds k s) {x : Proc} (hx : x ∈ s.procs) (pid : Option Int) :
    k.isChild pid x.addr ↔ x.IsChild pid s.head := by
  have hpid : k.pid k.current = s.head.pid := h.current ▸ h.head.pid
  rw [Kernel.isChild, Proc.IsChild, (h.holds hx).pid, (h.holds hx).ppid, hpid]

theorem waitScan (h : RingHolds k s) (pid : Option Int) : ∀ (l₁ l₂ : List Proc)
    (childExists : Bool) {n : Nat}, s.rest = l₁ ++ l₂ →
      Runs (n ≤ l₂.length)
        (let prev := (l₁.map Proc.addr).getLastD k.current
         k.waitScan pid n childExists (k.next prev) prev)
        fun scan =>
          match l₂.find? fun x => x.IsChild pid s.head ∧ x.state = .zombie with
          | some x => scan = .zombie x.addr
          | none => ∃ prev,
              scan = .round (childExists || ∃ x ∈ l₂, x.IsChild pid s.head) k.current prev
  | _, _, _, 0, _ => Nat.zero_le _
  | l₁, [], childExists, n + 1, hs => by
      change Runs _ (Kernel.waitScan ..) _
      rw [Kernel.waitScan, h.next_last hs, List.map_nil, List.headD_nil, if_pos rfl]
      refine ⟨(l₁.map Proc.addr).getLastD k.current, ?_⟩
      simp
  | l₁, x :: l₂, childExists, n + 1, hs => by
      have hx : x ∈ s.rest := hs ▸ List.mem_append_right _ (List.mem_cons_self ..)
      have ih : ∀ childExists, Runs (n ≤ l₂.length)
          (k.waitScan pid n childExists (k.next x.addr) x.addr) _ := fun childExists => by
        have := waitScan h pid (l₁ ++ [x]) l₂ childExists (n := n)
          (by rw [hs, List.append_assoc]; rfl)
        rw [List.map_append, List.map_cons, List.map_nil, List.getLastD_concat] at this
        exact this
      change Runs _ (Kernel.waitScan ..) _
      rw [Kernel.waitScan, h.next_last hs, List.map_cons, List.headD_cons,
        if_neg (h.addr_ne_current hx), (h.rest x hx).state]
      by_cases hchild : k.isChild pid x.addr
      · rw [if_pos hchild]
        rw [h.isChild_iff (List.mem_cons_of_mem _ hx)] at hchild
        by_cases hz : x.state = .zombie
        · rw [if_pos hz, List.find?_cons_of_pos (by simp [hchild, hz])]
          exact rfl
        · rw [if_neg hz, List.find?_cons_of_neg (by simp [hz])]
          refine (ih true).imp Nat.succ_le_succ fun scan hscan => ?_
          simpa [hchild] using hscan
      · rw [if_neg hchild]
        rw [h.isChild_iff (List.mem_cons_of_mem _ hx)] at hchild
        rw [List.find?_cons_of_neg (by simp [hchild])]
        refine (ih childExists).imp Nat.succ_le_succ fun scan hscan => ?_
        simpa [hchild] using hscan

theorem setCont (h : RingHolds k s) {c : Cont} {w : Option (Option Int)}
    (hc : c.IsAt k.current w) :
    RingHolds { k with cont := update k.cont k.current c } (s.setWaits w) := by
  refine ⟨h.current, h.ring, ⟨h.head.pid, h.head.ppid, h.head.state, ?_, h.head.birth⟩,
    fun x hx => (h.rest x hx).congr rfl rfl rfl (update_of_ne (h.addr_ne_current hx) ..) rfl,
    h.slots, h.written, h.console, h.births⟩
  change (update k.cont k.current c s.head.addr).IsAt s.head.addr w
  rw [← h.current, update_self]
  exact hc

theorem waitFor (h : RingHolds k s) (hsch : s.Scheduled idle) (pid : Option Int) :
    Runs (fuel ≤ s.rest.length) (k.waitFor fuel block pid) fun r =>
      r.1 = (s.waitFor pid).1 ∧ RingHolds r.2 (s.waitFor pid).2 := by
  unfold Kernel.waitFor Kernel.waitRound RunQueue.waitFor
  refine (h.waitScan pid [] s.rest false rfl).bind fun scan hscan => ?_
  cases hf : s.rest.find? fun x => x.IsChild pid s.head ∧ x.state = .zombie with
  | some x =>
      rw [hf] at hscan
      obtain ⟨hpx, l₁, l₂, hs, hl₁⟩ := List.find?_eq_some_iff_append.mp hf
      have hx : x ∈ s.rest := hs ▸ List.mem_append_right _ (List.mem_cons_self ..)
      have hxl : x ∉ l₁ := fun hmem => by simpa [hpx] using hl₁ x hmem
      have herase : s.rest.erase x = l₁ ++ l₂ := by
        rw [hs, List.erase_append_right _ hxl, List.erase_cons_head]
      rw [hscan]
      dsimp only
      rw [RunQueue.reap, herase]
      refine (h.reapProcess hs).bind fun k' h' => ⟨?_, h'.setCont rfl⟩
      rw [(h.rest x hx).pid]
  | none =>
      rw [hf] at hscan
      obtain ⟨prev, rfl⟩ := hscan
      by_cases hchild : ∃ x ∈ s.rest, x.IsChild pid s.head
      · rw [if_pos hchild, decide_eq_true hchild]
        have hwait := h.setCont (c := .waiting pid k.current prev) (w := some pid) ⟨prev, rfl⟩
        exact (hwait.scheduler (hsch.setWaits _)).bind fun k' h' => ⟨rfl, h'⟩
      · rw [if_neg hchild, decide_eq_false hchild]
        exact ⟨rfl, h.setCont rfl⟩

theorem resume (h : RingHolds k s) :
    Runs (fuel ≤ s.rest.length) (k.resume fuel block) fun r =>
      r.1 = s.resume.1 ∧ RingHolds r.2 s.resume.2 := by
  have hcont := h.head.cont
  rw [← h.current] at hcont
  unfold Kernel.resume RunQueue.resume
  cases hw : s.head.waits with
  | none =>
      rw [hw] at hcont
      rw [show k.cont k.current = .user from hcont]
      exact ⟨rfl, h⟩
  | some pid =>
      rw [hw] at hcont
      obtain ⟨prev, hprev⟩ := hcont
      rw [hprev]
      cases fuel with
      | zero => exact Nat.zero_le _
      | succ fuel =>
          have hscan : k.waitScan pid (fuel + 1) false k.current prev =
              some (.round false k.current prev) := if_pos rfl
          dsimp only [Kernel.waitRound]
          rw [hscan]
          exact ⟨rfl, h.setCont rfl⟩

theorem exitCurrentProcess (h : RingHolds k s) (hsch : s.Scheduled idle)
    (hidle : s.head.addr ≠ idle) :
    Runs (fuel ≤ s.rest.length) (k.exitCurrentProcess fuel block) fun k' =>
      RingHolds k' s.killProcess.scheduler := by
  refine h.killProcess.bind fun k' h' => ?_
  refine (h'.scheduler (hsch.killProcess hidle)).imp (fun hf => ?_) fun k'' h'' => h''
  rwa [RunQueue.killProcess, if_neg (hsch.rest_ne_nil hidle), List.length_map] at hf

theorem syscall (h : RingHolds k s) (hsch : s.Scheduled idle) (hidle : k.current ≠ idle)
    (hb : ¬ k.InRing block) (c : Syscall) :
    Runs (fuel ≤ s.rest.length) (k.syscall fuel block c) fun r =>
      r.1 = (s.syscall block c).1 ∧ RingHolds r.2 (s.syscall block c).2 := by
  rw [h.current] at hidle
  cases c with
  | fork =>
      obtain ⟨hpid, h'⟩ := h.fork hb
      exact ⟨congrArg some hpid, h'⟩
  | execVpe found =>
      cases found with
      | false => exact ⟨rfl, h⟩
      | true => exact h.execVpe hb (hsch.rest_ne_nil hidle)
  | exit => exact (h.exitCurrentProcess hsch hidle).bind fun k' h' => ⟨rfl, h'⟩
  | kill pid => exact (h.killKern pid).bind fun r hr => ⟨congrArg some hr.1, hr.2⟩
  | yield => exact (h.scheduler hsch).bind fun k' h' => ⟨rfl, h'⟩
  | wait => exact h.waitFor hsch none
  | waitPid pid => exact h.waitFor hsch (some pid)

end RingHolds

/-! ## Booting -/

namespace Kernel

variable {idle init block : Word} {k k' : Kernel} {may : Caller → Syscall → Prop}

theorem foldl_setProcess_zero : ∀ (l : List Nat) (k : Kernel) (i : Int),
    ((∃ n ∈ l, (n : Int) = i) ∨ k.processes i = 0) →
      (l.foldl (fun k i => k.setProcess i 0) k).processes i = 0
  | [], _, _, h => h.resolve_left fun ⟨_, hn, _⟩ => absurd hn List.not_mem_nil
  | n :: l, k, i, h => by
      refine foldl_setProcess_zero l (k.setProcess n 0) i ?_
      by_cases hi : i = n
      · exact Or.inr (hi ▸ update_self ..)
      · rcases h with ⟨m, hm, hmi⟩ | h
        · rcases List.mem_cons.mp hm with rfl | hm
          · exact absurd hmi.symm hi
          · exact Or.inl ⟨m, hm, hmi⟩
        · exact Or.inr ((update_of_ne hi ..).trans h)

theorem foldl_setProcess_written : ∀ (l : List Nat) (k : Kernel),
    ∀ i ∈ (l.foldl (fun k i => k.setProcess i 0) k).written,
      i ∈ k.written ∨ ∃ n ∈ l, (n : Int) = i
  | [], _, _, h => Or.inl h
  | n :: l, k, i, h => by
      rcases foldl_setProcess_written l (k.setProcess n 0) i h with h | ⟨m, hm, hmi⟩
      · rcases List.mem_cons.mp h with rfl | h
        · exact Or.inr ⟨n, List.mem_cons_self .., rfl⟩
        · exact Or.inl h
      · exact Or.inr ⟨m, List.mem_cons_of_mem _ hm, hmi⟩

theorem foldl_setProcess_console (l : List Nat) (k : Kernel) :
    (l.foldl (fun k i => k.setProcess i 0) k).console = k.console := by
  induction l generalizing k with
  | nil => rfl
  | cons n l ih => exact ih _

theorem initProcesses_processes (k : Kernel) {i : Int} (h0 : 0 ≤ i) (hi : i < maxP) :
    k.initProcesses.processes i = 0 := by
  have hmem : ∃ n ∈ List.range maxP, (n : Int) = i :=
    ⟨i.toNat, List.mem_range.mpr (by omega), by omega⟩
  unfold initProcesses
  exact foldl_setProcess_zero _ k i (Or.inl hmem)

theorem initProcesses_written (k : Kernel) (hk : k.written = []) :
    ∀ i ∈ k.initProcesses.written, 0 ≤ i ∧ i < maxP := by
  intro i hi
  unfold initProcesses at hi
  rcases foldl_setProcess_written _ k i hi with h | ⟨n, hn, rfl⟩
  · rw [hk] at h
    exact absurd h List.not_mem_nil
  · have := List.mem_range.mp hn
    omega

theorem initProcesses_console (k : Kernel) : k.initProcesses.console = k.console := by
  unfold initProcesses
  exact foldl_setProcess_console ..

theorem freeSlot_one {p : Int → Int} (h : p 1 = 0) : freeSlot p = some 1 := by
  unfold freeSlot
  rw [show List.range' 1 (maxP - 1) = 1 :: List.range' 2 998 from List.range'_succ ..]
  exact List.find?_cons_of_pos (decide_eq_true h)

theorem freeSlot_two {p : Int → Int} (h₁ : p 1 ≠ 0) (h₂ : p 2 = 0) : freeSlot p = some 2 := by
  unfold freeSlot
  rw [show List.range' 1 (maxP - 1) = 1 :: 2 :: List.range' 3 997 from rfl,
    List.find?_cons_of_neg (by simpa using h₁)]
  exact List.find?_cons_of_pos (decide_eq_true h₂)

theorem boot_refines (hc : k.console = []) (hw : k.written = []) (hne : init ≠ idle) :
    ∃ s : RunQueue, s.Booted idle init ∧ RingHolds (k.boot idle init) s := by
  have hzero : ∀ i : Int, 0 ≤ i → i < maxP → k.initProcesses.processes i = 0 :=
    fun i h0 hi => k.initProcesses_processes h0 hi
  have hwritten := k.initProcesses_written hw
  have hconsole := k.initProcesses_console.trans hc
  unfold boot
  generalize k.initProcesses = k at *
  have hfirst : k.getPID = (1, k.setProcess 1 1) := by
    unfold getPID
    rw [freeSlot_one (hzero 1 (by decide) (by decide))]
    rfl
  have hidle : k.initIdleProcess idle = { k.setProcess 1 1 with
      pid := update k.pid idle 1
      ppid := update k.ppid idle 0
      next := update k.next idle idle
      numChild := update k.numChild idle 0
      current := idle
      state := update k.state idle .running
      cont := update k.cont idle .user
      birth := update k.birth idle ⟨0, none⟩
      births := 1 } := by
    unfold initIdleProcess
    rw [hfirst]
    rfl
  have hsecond : (k.initIdleProcess idle).getPID =
      (2, (k.initIdleProcess idle).setProcess 2 1) := by
    unfold getPID
    rw [freeSlot_two]
    · rfl
    · rw [hidle]
      simp [setProcess]
    · rw [hidle]
      simpa [setProcess] using hzero 2 (by decide) (by decide)
  unfold createProcess
  rw [hsecond, hidle]
  refine ⟨⟨⟨idle, 1, 0, .running, none, ⟨0, none⟩⟩,
    [⟨init, 2, k.ppid init, .queued, none, ⟨1, none⟩⟩],
    update (update k.processes 1 1) 2 1, 2 :: 1 :: k.written, k.console, 2⟩, ?_, ?_⟩
  · refine ⟨rfl, ⟨_, rfl⟩, fun i h0 hi => ?_, fun i hi => ?_, hconsole, rfl⟩
    · by_cases h2 : i = 2
      · subst h2
        simp
      · by_cases h1 : i = 1
        · subst h1
          simp
        · simp [hzero i h0 hi, h1, h2]
    · rcases List.mem_cons.mp hi with rfl | hi
      · decide
      · rcases List.mem_cons.mp hi with rfl | hi
        · decide
        · exact hwritten i hi
  · have hseg : Seg (update (update (update k.next idle idle) idle init) init idle) idle [init]
        idle := by
      refine ⟨?_, ?_⟩
      · rw [update_of_ne hne.symm, update_self]
      · rw [seg_nil, update_self]
    have hnd : [idle, init].Nodup := by simpa using hne.symm
    refine ⟨rfl, ⟨hseg, hnd⟩, ?_, ?_, rfl, rfl, rfl, rfl⟩
    · refine ⟨?_, ?_, ?_, ?_, ?_⟩
      · exact (update_of_ne hne.symm ..).trans (update_self ..)
      · exact update_self ..
      · exact (update_of_ne hne.symm ..).trans (update_self ..)
      · exact (update_of_ne hne.symm ..).trans (update_self ..)
      · exact (update_of_ne hne.symm ..).trans (update_self ..)
    · intro x hx
      rw [List.mem_singleton] at hx
      subst hx
      exact ⟨update_self .., update_of_ne hne .., update_self .., update_self .., update_self ..⟩

/-! ## Every run -/

theorem waits_of_user {a : Word} {w : Option (Option Int)}
    (h : Cont.user.IsAt a w) : w = none := by
  cases w with
  | none => rfl
  | some pid =>
      obtain ⟨prev, h⟩ := h
      cases h

/-- A turn of the system is a turn of the queue it holds. -/
theorem Step.refines (h : Step idle may k k') {s : RunQueue} (hs : RingHolds k s)
    (hsch : s.Scheduled idle) : ∃ s', RunQueue.Turn idle may s s' ∧ RingHolds k' s' := by
  have hcont := hs.head.cont
  rw [← hs.current] at hcont
  cases h with
  | idle hidle hb heq =>
      exact ⟨_, .idle (hs.current ▸ hidle) (hs.ne_of_fresh (hs.fresh hb)),
        (hs.scheduler hsch).of_eq_some heq⟩
  | call hidle huser hb hmay heq =>
      rw [huser] at hcont
      refine ⟨_, .call (hs.current ▸ hidle) ?_ (hs.ne_of_fresh (hs.fresh hb))
        (hs.caller ▸ hmay), ((hs.syscall hsch hidle hb _).of_eq_some heq).2⟩
      exact waits_of_user hcont
  | resume hidle hwait hb heq =>
      cases hw : s.head.waits with
      | none =>
          rw [hw, hwait] at hcont
          cases hcont
      | some pid =>
          exact ⟨_, .resume (hs.current ▸ hidle) hw (hs.ne_of_fresh (hs.fresh hb)),
            (hs.resume.of_eq_some heq).2⟩

theorem Reach.refines (h : Reach idle may k) :
    ∃ s, RunQueue.Reach idle may s ∧ RingHolds k s := by
  induction h with
  | boot hc hw hne =>
      obtain ⟨s, hboot, hs⟩ := boot_refines hc hw hne
      exact ⟨s, .boot hboot, hs⟩
  | step _ hstep ih =>
      obtain ⟨s, hreach, hs⟩ := ih
      obtain ⟨s', hturn, hs'⟩ := hstep.refines hs hreach.scheduled
      exact ⟨s', .turn hreach hturn, hs'⟩

end Kernel

section

open Kernel

variable {idle : Word} {k : Kernel} {may : Caller → Syscall → Prop}

/-- The system can take every turn of the queue it holds. -/
theorem RingHolds.turn {s s' : RunQueue} (hs : RingHolds k s)
    (hsch : s.Scheduled idle) (hturn : RunQueue.Turn idle may s s') :
    ∃ k', Step idle may k k' ∧ RingHolds k' s' := by
  have hfuel : ¬ s.rest.length + 1 ≤ s.rest.length := Nat.not_succ_le_self _
  have hcont := hs.head.cont
  rw [← hs.current] at hcont
  have hfresh : ∀ {block}, s.Fresh block → ¬ k.InRing block := by
    intro block hb hin
    obtain ⟨x, hx, hxb⟩ := hs.inRing_iff.mp hin
    exact hb x hx hxb
  cases hturn with
  | idle hidle hb =>
      obtain ⟨k', heq, hs'⟩ := (hs.scheduler hsch).exists_eq_some hfuel
      exact ⟨k', .idle (hs.current.trans hidle) (hfresh hb) heq, hs'⟩
  | call hidle huser hb hmay =>
      rw [← hs.current] at hidle
      obtain ⟨⟨r, k'⟩, heq, -, hs'⟩ :=
        (hs.syscall hsch hidle (hfresh hb) _).exists_eq_some hfuel
      rw [huser] at hcont
      exact ⟨k', .call hidle hcont (hfresh hb) (hs.caller.symm ▸ hmay) heq, hs'⟩
  | resume hidle hwait hb =>
      rw [← hs.current] at hidle
      obtain ⟨⟨r, k'⟩, heq, -, hs'⟩ := hs.resume.exists_eq_some hfuel
      rw [hwait] at hcont
      obtain ⟨prev, hprev⟩ := hcont
      exact ⟨k', .resume hidle hprev (hfresh hb) heq, hs'⟩

theorem RingHolds.turns {s s' : RunQueue} (hs : RingHolds k s)
    (hsch : s.Scheduled idle) (hturns : Relation.ReflTransGen (RunQueue.Turn idle may) s s') :
    ∃ k', Relation.ReflTransGen (Step idle may) k k' ∧ RingHolds k' s' := by
  induction hturns with
  | refl => exact ⟨k, .refl, hs⟩
  | tail hturns hturn ih =>
      obtain ⟨k₁, h₁, hs₁⟩ := ih
      have hsch₁ := (RunQueue.stable_scheduled idle may).turns hturns hsch
      obtain ⟨k₂, h₂, hs₂⟩ := hs₁.turn hsch₁ hturn
      exact ⟨k₂, h₁.tail h₂, hs₂⟩

end

namespace Kernel

variable {idle : Word} {k k' : Kernel} {may : Caller → Syscall → Prop}

theorem Reach.steps (h : Reach idle may k) (hsteps : Relation.ReflTransGen (Step idle may) k k') :
    Reach idle may k' := by
  induction hsteps with
  | refl => exact h
  | tail _ hstep ih => exact ih.step hstep

def powerOn : Kernel :=
  ⟨0, fun _ => 0, fun _ => 0, fun _ => 0, fun _ => 0, fun _ => .running, fun _ => .user,
    fun _ => 0, [], [], fun _ => ⟨0, none⟩, 0⟩

/-- Whatever the queue can do once `init`, with pid 2, runs after idle's first
turn, the system can do. -/
theorem Reach.of_init_runs (may : Caller → Syscall → Prop) :
    ∃ ppid slots written,
      (∀ i : Int, 0 ≤ i → i < maxP → (slots i ≠ 0 ↔ i = 1 ∨ i = 2)) ∧
      ∀ {s' : RunQueue}, Relation.ReflTransGen (RunQueue.Turn 1 may)
        ⟨⟨2, 2, ppid, .running, none, ⟨1, none⟩⟩, [⟨1, 1, 0, .queued, none, ⟨0, none⟩⟩], slots,
          written, [], 2⟩ s' →
        ∃ k, Reach 1 may k ∧ RingHolds k s' := by
  have hboot : Reach 1 may (powerOn.boot 1 2) := .boot rfl rfl (by decide)
  have hne : (2 : Word) ≠ 1 := by decide
  obtain ⟨s, hs, hholds⟩ := powerOn.boot_refines rfl rfl hne
  have hsch := hs.scheduled
  obtain ⟨head, rest, slots, written, console, births⟩ := s
  obtain ⟨rfl, ⟨ppid, rfl⟩, hslots, -, rfl, rfl⟩ := hs
  have hfirst : RunQueue.Turn 1 may ⟨⟨1, 1, 0, .running, none, ⟨0, none⟩⟩,
      [⟨2, 2, ppid, .queued, none, ⟨1, none⟩⟩], slots, written, [], 2⟩
      ⟨⟨2, 2, ppid, .running, none, ⟨1, none⟩⟩, [⟨1, 1, 0, .queued, none, ⟨0, none⟩⟩], slots,
        written, [], 2⟩ := by
    refine .idle rfl (?_ : RunQueue.Fresh _ 3)
    simp [RunQueue.Fresh, RunQueue.procs]
  refine ⟨ppid, slots, written, hslots, fun hturns => ?_⟩
  obtain ⟨k, hsteps, hk⟩ := hholds.turns hsch (.head hfirst hturns)
  exact ⟨k, hboot.steps hsteps, hk⟩

/-- `init` has been switched to, and has forked. -/
theorem Reach.exists_forked (may : Caller → Syscall → Prop)
    (hmay : ∀ pid slots, slots 3 = 0 → may ⟨pid, .running, slots⟩ .fork) :
    ∃ k, Reach 1 may k ∧ k.current = 2 ∧ k.InRing 3 ∧ (k.birth 3).maker = some 1 ∧
      k.ppid 3 = 2 := by
  obtain ⟨p, slots, w, hslots, hlift⟩ := Reach.of_init_runs may
  have hfree : slots 3 = 0 := by
    by_contra hne
    exact absurd ((hslots 3 (by decide) (by decide)).mp hne) (by decide)
  obtain ⟨q, slots', w', hfork⟩ := RunQueue.exists_fork 3 ⟨⟨2, 2, p, .running, none, ⟨1, none⟩⟩,
    [⟨1, 1, 0, .queued, none, ⟨0, none⟩⟩], slots, w, [], 2⟩
  obtain ⟨k, hk, hs⟩ := hlift (.single (.call (c := .fork) (show (2 : Word) ≠ 1 by decide) rfl
    (show RunQueue.Fresh _ 3 by simp [RunQueue.Fresh, RunQueue.procs]) (hmay _ _ hfree)))
  rw [RunQueue.syscall, hfork] at hs
  have hchild := hs.rest _ (List.mem_cons_self ..)
  have hin : k.InRing 3 :=
    hs.inRing_iff.mpr ⟨_, List.mem_cons_of_mem _ (List.mem_cons_self ..), rfl⟩
  exact ⟨k, hk, hs.current, hin, congrArg Birth.maker hchild.birth, hchild.ppid⟩

/-- What the ring of a running system looks like; `l` are the members
other than `current_process`, in the order of `next`. -/
structure OneRing (idle : Word) (k : Kernel) (l : List Word) : Prop where
  ring : Ring k.next k.current l
  idle_mem : idle ∈ k.current :: l
  others : ∀ a ∈ l, k.state a = .queued ∨ k.state a = .zombie
  current : k.state k.current = .running ∨ k.state k.current = .zombie
  idle_alive : k.state idle ≠ .zombie
  quiet : ∀ m ∈ k.console, ¬ m.IsSwitchError

/-- In every reachable state the processes form one ring with idle in it,
`switch_process` has never been in an error branch, and no operation loops
for ever: one round more than the ring has other members is enough. -/
theorem Reach.one_ring (h : Reach idle may k) :
    ∃ l, k.OneRing idle l ∧ ∀ fuel block, l.length < fuel → ¬ k.InRing block →
      (k.scheduler fuel block).isSome ∧ (k.resume fuel block).isSome ∧
      (k.current ≠ idle → ∀ c, (k.syscall fuel block c).isSome) := by
  obtain ⟨s, hreach, hs⟩ := h.refines
  have hsch := hreach.scheduled
  obtain ⟨i, hi, hidle, hlive⟩ := hsch.idle
  refine ⟨s.rest.map Proc.addr, ⟨hs.ring, ?_, ?_, ?_, ?_, ?_⟩, fun fuel block hfuel hb => ?_⟩
  · rw [hs.current, ← List.map_cons, ← hidle]
    exact List.mem_map_of_mem hi
  · intro a ha
    obtain ⟨x, hx, rfl⟩ := List.mem_map.mp ha
    rw [(hs.rest x hx).state]
    exact hsch.rest x hx
  · rw [hs.current, hs.head.state]
    exact hsch.head
  · rw [← hidle, (hs.holds hi).state]
    exact hlive
  · rw [hs.console]
    exact hreach.quiet
  · rw [List.length_map] at hfuel
    have hfuel : ¬ fuel ≤ s.rest.length := Nat.not_le.mpr hfuel
    refine ⟨(hs.scheduler hsch).isSome hfuel, hs.resume.isSome hfuel, fun hidle c => ?_⟩
    exact (hs.syscall hsch hidle hb c).isSome hfuel

theorem Reach.one_ring_fork :
    ∃ k, Reach 1 (fun _ _ => True) k ∧ k.current = 2 ∧ k.InRing 3 ∧ ∃ l, k.OneRing 1 l ∧
      ∀ fuel block, l.length < fuel → ¬ k.InRing block →
        (k.scheduler fuel block).isSome ∧ (k.resume fuel block).isSome ∧
        (k.current ≠ 1 → ∀ c, (k.syscall fuel block c).isSome) := by
  obtain ⟨k, hk, hcur, hin, -⟩ := Reach.exists_forked (fun _ _ => True) fun _ _ _ => trivial
  exact ⟨k, hk, hcur, hin, Reach.one_ring hk⟩

end Kernel

end SnowOs
