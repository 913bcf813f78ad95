import SnowOs.KernelBlocks

/-!
# Taking processes down

What gives memory back: `shallow_cleanup` when a process exits,
`clean_page_tables` and one `kfree` when it is reaped, `user_free`,
`close` and `close_dir`. All of them go through `kfree`, and `kfree` gives
back a frame only if its count is zero, which no frame that was handed out
ever has. So in a system in order all of them but `close_dir` do nothing
at all (`Space.Ok.shallowCleanup`, `Owned.cleanPageTables`,
`Space.Ok.userFree`): memory is never returned, and by the same argument
the tables that the reaper walks past, the shared kernel half among them,
are never touched.
-/

namespace SnowOs

open Radix

namespace Machine

/-- The loops of `clean_page_tables` over a table with `d` levels below
it; a table is freed behind the loop over its entries. -/
def cleanTable : Nat → Word → Machine → Machine
  | 0, table, m => m.kfree (kernelVirtualBase + table)
  | d + 1, table, m =>
      ((List.finRange 512).foldl (fun m i =>
        if present (m.mem table i) then cleanTable d (m.mem table i &&& mask) m else m) m).kfree
          (kernelVirtualBase + table)

def cleanPageTables (m : Machine) (cr3 : Word) : Machine := cleanTable 3 cr3 m

/-- The loop `while (a < end) { kfree(a); a += PAGE_SIZE; }`. -/
def freePages : Nat → Word → Word → Machine → Machine
  | 0, _, _, m => m
  | fuel + 1, a, stop, m =>
      if a < stop then freePages fuel (a + pageSize) stop (m.kfree a) else m

/-- The loop with a round for each page of the range. -/
def freeRange (m : Machine) (a stop : Word) : Machine :=
  m.freePages ((stop - a).toNat / 4096 + 1) a stop

end Machine

open Machine

namespace Space

/-- The loop of `shallow_cleanup` over the list of VMAs. -/
def freeVmas : Nat → Word → Space → Space
  | 0, _, s => s
  | fuel + 1, vMapNext, s =>
      if vMapNext ≠ 0 then
        let s := s.setMachine (s.machine.freeRange (s.vma vMapNext).start (s.vma vMapNext).stop)
        freeVmas fuel (s.vma vMapNext).next (s.setMachine (s.machine.kfree vMapNext))
      else s

def shallowCleanup (fuel : Nat) (s : Space) (process : Task) : Space :=
  let vStack := (s.mm process.processMm).vmaStack
  let s := s.freeVmas fuel (s.mm process.processMm).vmaMap
  let s := s.setMachine (s.machine.freeRange (s.vma vStack).stop (s.vma vStack).start)
  let s := s.setMachine (s.machine.kfree vStack)
  s.setMachine (s.machine.kfree process.processMm)

/-- The loop of `user_free` from the node `iter` on. -/
def userFreeFrom : Nat → Word → Word → Space → Space
  | 0, _, _, s => s
  | fuel + 1, iter, addr, s =>
      if iter ≠ 0 then
        if (s.vma iter).start = addr then
          s.setMachine (s.machine.freeRange addr (s.vma iter).stop)
        else userFreeFrom fuel (s.vma iter).next addr s
      else s

def userFree (fuel : Nat) (s : Space) (task : Task) (addr : Word) : Space :=
  s.userFreeFrom fuel (s.mm task.processMm).vmaHeap addr

end Space

/-! ## In a system in order none of this does anything -/

section InOrder

variable {roots : List Word} {m : Machine} {pdpt : Option Word} {l : List Nat} {s : Space}

theorem Machine.Ledger.length_log (h : m.Ledger l) : m.log.length ≤ maxPages := by
  have hsub : m.log ⊆ (List.range maxPages).map pageAddress := by
    intro f hf
    obtain ⟨n, hn, rfl, -⟩ := h.handed f hf
    exact List.mem_map.mpr ⟨n, List.mem_range.mpr hn, rfl⟩
  have hlen := (List.subperm_of_subset h.nodup hsub).length_le
  rwa [List.length_map, List.length_range] at hlen

/-- Ranges end in the user half. -/
theorem Machine.Ledger.limit_le (h : m.Ledger l) : limit m ≤ 2 ^ 47 := by
  have hlen := h.length_log
  rw [maxPages] at hlen
  rw [limit]
  omega

theorem Owned.freePages (h : Owned roots m pdpt) (hbooks : m.Ledger l) {stop : Word}
    (hstop : stop.toNat ≤ limit m) : ∀ (fuel : Nat) (a : Word), m.freePages fuel a stop = m
  | 0, _ => rfl
  | fuel + 1, a => by
      rw [Machine.freePages]
      split
      · rename_i hlt
        rw [BitVec.lt_def] at hlt
        have hlow := hbooks.limit_le
        rw [h.kfree_user hbooks (userPath_of_lt (by omega))]
        exact h.freePages hbooks hstop fuel _
      · rfl

theorem Owned.freeRange (h : Owned roots m pdpt) (hbooks : m.Ledger l) {stop : Word}
    (hstop : stop.toNat ≤ limit m) (a : Word) : m.freeRange a stop = m :=
  h.freePages hbooks hstop _ a

/-- Every table the reaper meets was handed out. -/
theorem Machine.Forest.cleanTable {lab : Word → Option Node} {l₀ : List Nat}
    (hF : Forest roots m lab l₀) (h : Owned roots m pdpt) (hbooks : m.Ledger l) :
    ∀ {d : Nat} {table : Word} {n : Node}, lab table = some n → Node.shape.level n = d + 1 →
      m.cleanTable d table = m
  | 0, table, n, hn, _ => h.kfree_block hbooks (Or.inr ⟨table, hF.drawn hn, rfl⟩)
  | d + 1, table, n, hn, hlev => by
      have hround : ∀ is : List (Fin 512), is.foldl (fun m i =>
          if present (m.mem table i) then Machine.cleanTable d (m.mem table i &&& mask) m
          else m) m = m := by
        intro is
        induction is with
        | nil => rfl
        | cons i is ih =>
            rw [List.foldl_cons]
            split
            · rename_i hp
              have hchild := hF.tables.edge hn (by omega) hp
              have hbelow := Node.shape.level_child n i (by omega)
              rw [entryFormat_target] at hchild
              rw [hF.cleanTable h hbooks hchild (by omega)]
              exact ih
            · exact ih
      rw [Machine.cleanTable, hround]
      exact h.kfree_block hbooks (Or.inr ⟨table, hF.drawn hn, rfl⟩)

theorem Owned.cleanPageTables (h : Owned roots m pdpt) (hbooks : m.Ledger l) {cr3 : Word}
    (hcr3 : cr3 ∈ roots) : m.cleanPageTables cr3 = m := by
  obtain ⟨lab, l₀, hF⟩ := h.sound
  exact hF.cleanTable h hbooks (hF.root cr3 hcr3) rfl

theorem Space.Ok.freeVmas (hs : s.Ok) (h : Owned roots s.machine pdpt)
    (hbooks : s.machine.Ledger l) : ∀ (fuel : Nat) {v : Word}, Block s.machine v →
      s.freeVmas fuel v = s
  | 0, _, _ => rfl
  | fuel + 1, v, hv => by
      rw [Space.freeVmas]
      split
      · rw [h.freeRange hbooks (hs.vma v).stop]
        show Space.freeVmas fuel (s.vma v).next (s.setMachine (s.machine.kfree v)) = s
        rw [h.kfree_block hbooks hv]
        exact hs.freeVmas h hbooks fuel (hs.vma v).next
      · rfl

theorem Space.Ok.shallowCleanup (hs : s.Ok) (h : Owned roots s.machine pdpt)
    (hbooks : s.machine.Ledger l) {process : Task} (hmm : Block s.machine process.processMm)
    (fuel : Nat) : s.shallowCleanup fuel process = s := by
  have hprocess := hs.mm process.processMm
  rw [Space.shallowCleanup, hs.freeVmas h hbooks fuel hprocess.vmaMap]
  show (s.setMachine (Machine.kfree (Machine.kfree (s.machine.freeRange _ _) _) _)) = s
  rw [h.freeRange hbooks (hs.vma _).start, h.kfree_block hbooks hprocess.vmaStack,
    h.kfree_block hbooks hmm]
  rfl

theorem Space.Ok.userFree (hs : s.Ok) (h : Owned roots s.machine pdpt)
    (hbooks : s.machine.Ledger l) (fuel : Nat) (task : Task) (addr : Word) :
    s.userFree fuel task addr = s := by
  have hfrom : ∀ (fuel : Nat) (iter : Word), s.userFreeFrom fuel iter addr = s := by
    intro fuel
    induction fuel with
    | zero => exact fun _ => rfl
    | succ fuel ih =>
        intro iter
        rw [Space.userFreeFrom]
        split
        · split
          · rw [h.freeRange hbooks (hs.vma iter).stop]
            rfl
          · exact ih _
        · rfl
  exact hfrom fuel _

end InOrder

end SnowOs
