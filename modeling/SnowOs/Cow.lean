import Mathlib.Data.List.FinRange
import SnowOs.Forest

/-!
# What `cow_page_tables` does to the address spaces

The nested loops walk the parent's user tables and rebuild them under a
new root. At a leaf, the entry is made read-only and marked, in the parent
and in the child alike, and a frame counted once is counted twice from
then on. `CowDone` says this for one pair of tables and a set of indices;
it composes along the indices of one loop (`CowDone.cons`) and down one
level (`cowBranch_done`), and `cowPageTables_spec` is the whole pass.
-/

namespace SnowOs

open Radix

/-! ## Entries -/

/-- A leaf entry after `cow_page_tables`. -/
def cowEntry (e : Word) : Word :=
  if present e then (e &&& turnOffRw) ||| cowFlag else e

theorem or_and_distrib (a b c : Word) : (a ||| b) &&& c = (a &&& c) ||| (b &&& c) := by
  apply BitVec.eq_of_getLsbD_eq
  intro i _
  simp only [BitVec.getLsbD_and, BitVec.getLsbD_or, Bool.and_or_distrib_right]

/-- Away from the two bits it changes, the entry is as before. -/
theorem cowEntry_and {e k : Word} (hrw : turnOffRw &&& k = k) (hcow : cowFlag &&& k = 0#64) :
    cowEntry e &&& k = e &&& k := by
  unfold cowEntry
  split
  · rw [or_and_distrib, BitVec.and_assoc, hrw, hcow, BitVec.or_zero]
  · rfl

@[simp] theorem cowEntry_frame (e : Word) : cowEntry e &&& mask = e &&& mask :=
  cowEntry_and (by decide) (by decide)

@[simp] theorem present_cowEntry (e : Word) : present (cowEntry e) = present e := by
  rw [present, cowEntry_and (by decide) (by decide), ← present]

@[simp] theorem cowEntry_zero : cowEntry 0 = 0 := rfl

theorem cowEntry_of_present {e : Word} (h : present e = true) :
    cowEntry e = (e &&& turnOffRw) ||| cowFlag := if_pos h

namespace Machine

/-! ## One entry of a leaf table -/

/-- The count of a frame that is shared once more. -/
def shareFrame (s : PhysMem) (f : Word) : PhysMem :=
  if s.getPageRefCount f = 1 then s.setPageRefCount f 2 else s

theorem cowLeaf_present {m : Machine} {parent child : Word} {i : Fin 512}
    (h : present (m.mem parent i) = true) :
    cowLeaf parent child m i =
      { m with
        mem := write (write m.mem parent i (cowEntry (m.mem parent i))) child i
          (cowEntry (m.mem parent i))
        phys := shareFrame m.phys (m.mem parent i &&& mask) } := by
  have hread : ∀ w : Word, write (write m.mem parent i w) child i w parent i = w := by
    intro w
    rw [write_apply]
    split
    · rfl
    · exact write_self ..
  rw [cowLeaf, if_pos h]
  simp only [setEntry_setEntry, setEntry_mem, write_self, setEntry_phys, hread]
  rw [← cowEntry_of_present h, cowEntry_frame]
  unfold shareFrame
  split <;> rfl

theorem shareFrame_draw (s : PhysMem) (f : Word) : PhysMem.Draw s [] (shareFrame s f) := by
  unfold shareFrame
  split
  · exact (PhysMem.Draw.refl s).adjust _ _
  · exact .refl s

theorem shareFrame_ref {s : PhysMem} {f : Word} (hf : Aligned f) {g : Word} (hg : Aligned g) :
    (shareFrame s f).getPageRefCount g = s.getPageRefCount g ∨
      s.getPageRefCount g = 1 ∧ (shareFrame s f).getPageRefCount g = 2 := by
  unfold shareFrame
  split
  · rename_i hone
    by_cases hgf : pageNumber g = pageNumber f
    · obtain rfl := pageNumber_inj hg hf hgf
      refine Or.inr ⟨hone, ?_⟩
      rw [PhysMem.getPageRefCount, PhysMem.setPageRefCount_refCount, if_pos rfl]
    · refine Or.inl ?_
      rw [PhysMem.getPageRefCount, PhysMem.setPageRefCount_refCount, if_neg hgf]
      rfl
  · exact Or.inl rfl

theorem shareFrame_ref_self (s : PhysMem) (f : Word) : (shareFrame s f).getPageRefCount f ≠ 1 := by
  unfold shareFrame
  split
  · rw [PhysMem.getPageRefCount, PhysMem.setPageRefCount_refCount, if_pos rfl]
    decide
  · assumption

/-! ## One pair of tables -/

/-- The loops may run on `parent` and `child`, tables of the trees `o` and
`c` at the same path `p`, over the indices `is`. -/
structure CowReady (d : Nat) (o c : Word) (p : List (Fin 512)) (parent child : Word)
    (is : List (Fin 512)) (m : Machine) (lab : Word → Option Node) : Prop where
  tables : Labelled entryFormat Node.shape m.mem lab
  parentLabel : lab parent = some (.user o p)
  childLabel : lab child = some (.user c p)
  depth : p.length + d = 3
  apart : o ≠ c
  user : p ≠ [] ∨ 511 ∉ is
  nodup : is.Nodup
  empty : ∀ i ∈ is, m.mem child i = 0

/-- What the loops have done. -/
structure CowDone (d : Nat) (o c : Word) (p : List (Fin 512)) (parent child : Word)
    (is : List (Fin 512)) (m : Machine) (lab : Word → Option Node) (ts : List Word)
    (m' : Machine) (lab' : Word → Option Node) : Prop where
  grows : Grows m lab ts m' lab'
  cr3 : m'.cr3 = m.cr3
  inner : ∀ {u k}, lab u = some k → 1 < Node.shape.level k → u ≠ child → m'.mem u = m.mem u
  rest : ∀ j, j ∉ is → m'.mem child j = m.mem child j
  self : ∀ i ∈ is, ∀ q, q.length = d →
    m'.entryAt parent (i :: q) = cowEntry (m.entryAt parent (i :: q))
  copy : ∀ i ∈ is, ∀ q, q.length = d → m'.entryAt child (i :: q)
    = if present (m.entryAt parent (i :: q)) then cowEntry (m.entryAt parent (i :: q)) else 0
  other : ∀ {u k q}, lab u = some k → q.length = Node.shape.level k →
    (∀ i ∈ is, ∀ r, Node.shape.walk k q ≠ .user o (p ++ i :: r) ∧
      Node.shape.walk k q ≠ .user c (p ++ i :: r)) →
    m'.entryAt u q = m.entryAt u q
  ref : ∀ g, Aligned g → g ∉ ts → m'.ref g = m.ref g ∨ m.ref g = 1 ∧ m'.ref g = 2
  shared : ∀ i ∈ is, ∀ q, q.length = d → present (m.entryAt parent (i :: q)) = true →
    m.entryAt parent (i :: q) &&& mask ∉ ts → m'.ref (m.entryAt parent (i :: q) &&& mask) ≠ 1
  owner : ∀ {u r q}, r ≠ c → (lab' u = some (.user r q) ↔ lab u = some (.user r q))

section Loops

variable {d : Nat} {o c parent child : Word} {p is : List (Fin 512)} {i : Fin 512}
  {m m' m₁ m₂ : Machine} {lab lab' lab₁ lab₂ : Word → Option Node} {ts us : List Word}

theorem CowReady.walk (h : CowReady d o c p parent child (i :: is) m lab) (r : Word)
    (q : List (Fin 512)) : Node.shape.walk (.user r p) (i :: q) = .user r (p ++ i :: q) := by
  refine Node.walk_user (h.user.imp id fun hnot hc => hnot ?_)
  rw [← Option.some.inj hc]
  exact List.mem_cons_self ..

theorem CowReady.level (h : CowReady d o c p parent child is m lab) (r : Word) :
    Node.shape.level (.user r p) = d + 1 := by
  have := h.depth
  rw [Node.shape_level_user]
  omega

theorem cowDone_nil (h : Labelled entryFormat Node.shape m.mem lab) :
    CowDone d o c p parent child [] m lab [] m lab where
  grows := ⟨.refl m, h, id, Or.inl, fun _ _ => rfl⟩
  cr3 := rfl
  inner := fun _ _ _ => rfl
  rest := fun _ _ => rfl
  self := fun _ hi => absurd hi List.not_mem_nil
  copy := fun _ hi => absurd hi List.not_mem_nil
  other := fun _ _ _ => rfl
  ref := fun _ _ _ => Or.inl rfl
  shared := fun _ hi => absurd hi List.not_mem_nil
  owner := fun _ => Iff.rfl

theorem CowDone.cons (hr : CowReady d o c p parent child (i :: is) m lab)
    (h₁ : CowDone d o c p parent child [i] m lab ts m₁ lab₁)
    (h₂ : CowDone d o c p parent child is m₁ lab₁ us m₂ lab₂) :
    CowDone d o c p parent child (i :: is) m lab (us ++ ts) m₂ lab₂ := by
  have hnot : i ∉ is := (List.nodup_cons.mp hr.nodup).1
  have hlen : ∀ {j : Fin 512} {q : List (Fin 512)} (r : Word), q.length = d →
      (j :: q).length = Node.shape.level (.user r p) :=
    fun r hq => by rw [hr.level, List.length_cons, hq]
  -- a path through index `i` is none of the paths through the other indices
  have hlater : ∀ (r : Word) (q : List (Fin 512)), ∀ j ∈ is, ∀ s : List (Fin 512), ∀ r' : Word,
      Node.shape.walk (.user r p) (i :: q) ≠ .user r' (p ++ j :: s) := by
    intro r q j hj s r' heq
    rw [hr.walk] at heq
    have hpq := List.append_cancel_left (Node.user.inj heq).2
    exact hnot (by rw [(List.cons.inj hpq).1]; exact hj)
  have hearlier : ∀ j ∈ is, ∀ (r : Word) (q s : List (Fin 512)) (r' : Word),
      Node.shape.walk (.user r p) (j :: q) ≠ .user r' (p ++ i :: s) := by
    intro j hj r q s r' heq
    have hju : p ≠ [] ∨ UserPath (j :: q) := hr.user.imp id fun hk hc => hk (by
      rw [← Option.some.inj hc]
      exact List.mem_cons_of_mem _ hj)
    rw [Node.walk_user hju] at heq
    have hpq := List.append_cancel_left (Node.user.inj heq).2
    exact hnot (by rw [← (List.cons.inj hpq).1]; exact hj)
  have hfirst : ∀ (u r : Word), lab u = some (.user r p) → ∀ j ∈ is, ∀ q, q.length = d →
      m₁.entryAt u (j :: q) = m.entryAt u (j :: q) := by
    intro u r hu j hj q hq
    refine h₁.other hu (hlen r hq) fun k hk s => ?_
    obtain rfl := List.mem_singleton.mp hk
    exact ⟨hearlier j hj r q s o, hearlier j hj r q s c⟩
  have hsecond : ∀ (u r : Word), lab u = some (.user r p) → ∀ q, q.length = d →
      m₂.entryAt u (i :: q) = m₁.entryAt u (i :: q) := by
    intro u r hu q hq
    exact h₂.other (h₁.grows.keep hu) (hlen r hq)
      fun j hj s => ⟨hlater r q j hj s o, hlater r q j hj s c⟩
  refine
    { grows := h₁.grows.trans h₂.grows, cr3 := h₂.cr3.trans h₁.cr3
      inner := fun hu hlev hne => ?_, rest := fun j hj => ?_
      self := fun j hj q hq => ?_, copy := fun j hj q hq => ?_
      other := fun hu hq hne => ?_, ref := fun g hg hts => ?_
      shared := fun j hj q hq hp hts => ?_, owner := fun hr => (h₂.owner hr).trans (h₁.owner hr) }
  · exact (h₂.inner (h₁.grows.keep hu) hlev hne).trans (h₁.inner hu hlev hne)
  · rw [List.mem_cons, not_or] at hj
    exact (h₂.rest j hj.2).trans (h₁.rest j fun hc => hj.1 (List.mem_singleton.mp hc))
  · rcases List.mem_cons.mp hj with rfl | hj
    · rw [hsecond parent o hr.parentLabel q hq]
      exact h₁.self j (List.mem_singleton_self j) q hq
    · rw [h₂.self j hj q hq, hfirst parent o hr.parentLabel j hj q hq]
  · rcases List.mem_cons.mp hj with rfl | hj
    · rw [hsecond child c hr.childLabel q hq]
      exact h₁.copy j (List.mem_singleton_self j) q hq
    · rw [h₂.copy j hj q hq, hfirst parent o hr.parentLabel j hj q hq]
  · have hmid := h₁.other hu hq fun j hj s => hne j (by
      rw [List.mem_singleton.mp hj]
      exact List.mem_cons_self ..) s
    exact (h₂.other (h₁.grows.keep hu) hq fun j hj s =>
      hne j (List.mem_cons_of_mem _ hj) s).trans hmid
  · rw [List.mem_append, not_or] at hts
    rcases h₁.ref g hg hts.2 with heq₁ | ⟨hone, htwo⟩
    · rw [← heq₁]
      exact h₂.ref g hg hts.1
    · rcases h₂.ref g hg hts.1 with heq₂ | ⟨hc, -⟩
      · exact Or.inr ⟨hone, heq₂.trans htwo⟩
      · rw [htwo] at hc
        cases hc
  · rw [List.mem_append, not_or] at hts
    rcases List.mem_cons.mp hj with rfl | hj
    · have hfirst := h₁.shared j (List.mem_singleton_self j) q hq hp hts.2
      rcases h₂.ref _ (aligned_and_mask _) hts.1 with heq | ⟨hone, -⟩
      · rw [heq]
        exact hfirst
      · exact absurd hone hfirst
    · rw [← hfirst parent o hr.parentLabel j hj q hq] at hp hts ⊢
      exact h₂.shared j hj q hq hp hts.1

theorem CowReady.parent_ne_child (hr : CowReady d o c p parent child is m lab) :
    parent ≠ child := by
  intro heq
  have hlab := hr.parentLabel
  rw [heq, hr.childLabel] at hlab
  exact hr.apart (Node.user.inj (Option.some.inj hlab)).1.symm

/-! ## An absent entry -/

theorem entryAt_absent {m : Machine} {t : Word} {i : Fin 512}
    (h : ¬ present (m.mem t i) = true) (q : List (Fin 512)) :
    m.entryAt t (i :: q) = 0 ∨ m.entryAt t (i :: q) = m.mem t i := by
  cases q with
  | nil => exact Or.inr rfl
  | cons j q => exact Or.inl (if_neg h)

theorem cowAbsent_done (hr : CowReady d o c p parent child [i] m lab)
    (h : ¬ present (m.mem parent i) = true) :
    CowDone d o c p parent child [i] m lab [] m lab := by
  have habsent : ∀ q, ¬ present (m.entryAt parent (i :: q)) = true := by
    intro q
    rcases entryAt_absent h q with heq | heq
    · rw [heq]
      decide
    · rw [heq]
      exact h
  have hdone : CowDone d o c p parent child [] m lab [] m lab := cowDone_nil hr.tables
  refine { hdone with
    rest := fun _ _ => rfl, other := fun _ _ _ => rfl, self := ?_, copy := ?_, shared := ?_ }
  · intro j hj q _
    obtain rfl := List.mem_singleton.mp hj
    exact (if_neg (habsent q)).symm
  · intro j hj q _
    obtain rfl := List.mem_singleton.mp hj
    have hzero := hr.empty j hj
    rw [if_neg (habsent q)]
    rcases entryAt_absent (by rw [hzero]; decide : ¬ present (m.mem child j) = true) q
      with heq | heq
    · exact heq
    · rw [heq, hzero]
  · intro j hj q _ hp
    obtain rfl := List.mem_singleton.mp hj
    exact absurd hp (habsent q)

/-! ## A leaf entry -/

theorem cowLeaf_done (hr : CowReady 0 o c p parent child [i] m lab)
    (hp : present (m.mem parent i) = true) :
    CowDone 0 o c p parent child [i] m lab [] (cowLeaf parent child m i) lab := by
  have hpc := hr.parent_ne_child
  have hleaf : ∀ {t r : Word}, lab t = some (.user r p) → ∀ k, lab t = some k →
      ¬ 1 < Node.shape.level k := by
    intro t r ht k hk
    rw [ht] at hk
    rw [← Option.some.inj hk, hr.level]
    exact Nat.lt_irrefl 1
  have hleafP := hleaf hr.parentLabel
  have hleafC := hleaf hr.childLabel
  have htab := hr.tables.write_leaf i (cowEntry (m.mem parent i)) hleafP
  rw [cowLeaf_present hp]
  refine
    { grows := ⟨⟨shareFrame_draw _ _, rfl⟩, htab.write_leaf i _ hleafC, id, Or.inl, ?_⟩
      cr3 := rfl, inner := ?_, rest := ?_, self := ?_, copy := ?_, other := ?_, ref := ?_
      shared := ?_, owner := fun _ => Iff.rfl }
  · intro u hu _
    have huc : u ≠ child := fun heq => by rw [heq, hr.childLabel] at hu; cases hu
    have hup : u ≠ parent := fun heq => by rw [heq, hr.parentLabel] at hu; cases hu
    show write (write m.mem parent i _) child i _ u = _
    rw [write_of_frame_ne _ huc, write_of_frame_ne _ hup]
  · intro u k hu hlev huc
    have hup : u ≠ parent := fun heq => hleafP k (heq ▸ hu) hlev
    show write (write m.mem parent i _) child i _ u = _
    rw [write_of_frame_ne _ huc, write_of_frame_ne _ hup]
  · intro j hj
    have hji : j ≠ i := fun heq => hj (List.mem_singleton.mpr heq)
    show write (write m.mem parent i _) child i _ child j = _
    rw [write_of_index_ne _ _ hji, write_of_index_ne _ _ hji]
  · intro j hj q hq
    obtain rfl := List.mem_singleton.mp hj
    obtain rfl := List.length_eq_zero_iff.mp hq
    show write (write m.mem parent j _) child j _ parent j = _
    rw [write_of_frame_ne _ hpc, write_self]
    rfl
  · intro j hj q hq
    obtain rfl := List.mem_singleton.mp hj
    obtain rfl := List.length_eq_zero_iff.mp hq
    rw [show m.entryAt parent [j] = m.mem parent j from rfl, if_pos hp]
    exact write_self ..
  · intro u k q hu hq hne
    rcases List.eq_nil_or_concat q with rfl | ⟨q', j, rfl⟩
    · rfl
    rw [List.concat_eq_append] at hq hne ⊢
    have hnode : ∀ {t r : Word}, lab t = some (.user r p) →
        Node.shape.walk k (q' ++ [j]) ≠ .user r (p ++ [i]) →
        lab t = some (Node.shape.walk k q') → j ≠ i := by
      rintro t r ht hslot hlab rfl
      rw [ht] at hlab
      rw [walk_concat, ← Option.some.inj hlab] at hslot
      exact hslot (hr.walk r [])
    obtain ⟨hneP, hneC⟩ := hne i (List.mem_singleton_self i) []
    show lookup entryFormat (write (write m.mem parent i _) child i _) u (q' ++ [j]) = _
    rw [lookup_write_leaf_of_ne htab hleafC hu hq (hnode hr.childLabel hneC),
      lookup_write_leaf_of_ne hr.tables hleafP hu hq (hnode hr.parentLabel hneP)]
  · intro g hg _
    exact shareFrame_ref (aligned_and_mask _) hg
  · intro j hj q hq _ _
    obtain rfl := List.mem_singleton.mp hj
    obtain rfl := List.length_eq_zero_iff.mp hq
    exact shareFrame_ref_self m.phys (m.mem parent j &&& mask)

/-! ## An entry above the leaves -/

/-- The child's table for entry `i` hung in: what the body of an outer loop
does before it runs the next loop. -/
def cowLink (m : Machine) (parent child : Word) (i : Fin 512) : Machine :=
  m.getFreePage.2.setEntry child i
    (m.getFreePage.1 ||| (m.getFreePage.2.mem parent i &&& flagMask))

theorem cowLink_parent {m : Machine} {parent child : Word} (h : parent ≠ child) (i : Fin 512) :
    (m.cowLink parent child i).mem parent = m.mem parent :=
  write_of_frame_ne _ h i _

theorem CowReady.link (hr : CowReady (d + 1) o c p parent child [i] m lab)
    (hp : present (m.mem parent i) = true) (hf : Blank m lab m.getFreePage.1) :
    ∃ lab₁, Extends Node.shape m.getFreePage.2 lab [m.getFreePage.1]
        (m.cowLink parent child i) lab₁ ∧
      (∀ {u r q}, r ≠ c → (lab₁ u = some (.user r q) ↔ lab u = some (.user r q))) ∧
      CowReady d o c (p ++ [i]) (m.mem parent i &&& mask) m.getFreePage.1 (List.finRange 512)
        (m.cowLink parent child i) lab₁ := by
  have hchild : ∀ r : Word, Node.shape.child (.user r p) i = .user r (p ++ [i]) :=
    fun r => hr.walk r []
  have hlev : 1 < Node.shape.level (.user c p) := by
    rw [hr.level]
    omega
  have habsent : present (m.getFreePage.2.mem child i) = false := by
    rw [getFreePage_mem, hr.empty i (List.mem_singleton_self i)]
    rfl
  have hf' : Blank m.getFreePage.2 lab m.getFreePage.1 := ⟨hf.aligned, hf.unlabelled, hf.zero⟩
  have hE := extends_link (m := m.getFreePage.2) hr.tables hr.childLabel hlev habsent hf'
    (flagWord_of_present hp)
  have hfc : m.getFreePage.1 ≠ child := by
    intro heq
    have hlab := hf.unlabelled
    rw [heq, hr.childLabel] at hlab
    cases hlab
  have hedge := hr.tables.edge hr.parentLabel (by rw [hr.level]; omega) hp
  refine ⟨_, hE, fun {u r q} hrc => ?_,
    ⟨hE.tables, ?_, ?_, ?_, hr.apart, Or.inl (by simp), List.nodup_finRange 512, ?_⟩⟩
  · by_cases huf : u = m.getFreePage.1
    · rw [huf, Function.update_self, hf.unlabelled, hchild]
      simp [Ne.symm hrc]
    · rw [Function.update_of_ne huf]
  · rw [hchild] at hedge
    exact hE.keep hedge
  · rw [Function.update_self, hchild]
  · have := hr.depth
    rw [List.length_append, List.length_singleton]
    omega
  · intro j _
    show write _ child i _ _ j = 0
    rw [write_of_frame_ne _ hfc]
    exact hf.zero j

theorem cowBranch_done (hr : CowReady (d + 1) o c p parent child [i] m lab)
    (hp : present (m.mem parent i) = true) (hf : Blank m lab m.getFreePage.1)
    (hE : Extends Node.shape m.getFreePage.2 lab [m.getFreePage.1]
      (m.cowLink parent child i) lab₁)
    (howner : ∀ {u r q}, r ≠ c → (lab₁ u = some (.user r q) ↔ lab u = some (.user r q)))
    (h : CowDone d o c (p ++ [i]) (m.mem parent i &&& mask) m.getFreePage.1 (List.finRange 512)
      (m.cowLink parent child i) lab₁ us m₂ lab₂) :
    CowDone (d + 1) o c p parent child [i] m lab (us ++ [m.getFreePage.1]) m₂ lab₂ := by
  have hpc := hr.parent_ne_child
  have hlink : Grows m lab [m.getFreePage.1] (m.cowLink parent child i) lab₁ :=
    ⟨(getFreePage_draws m).setEntry .., hE.tables, hE.keep, hE.new, hE.others⟩
  have hnew : ∀ {u k}, lab u = some k → u ≠ m.getFreePage.1 := by
    intro u k hu heq
    rw [heq, hf.unlabelled] at hu
    cases hu
  have hlev : ∀ r : Word, 1 < Node.shape.level (.user r p) := by
    intro r
    rw [hr.level]
    omega
  have hinner : ∀ {u k}, lab u = some k → 1 < Node.shape.level k →
      m₂.mem u = (m.cowLink parent child i).mem u :=
    fun hu hk => h.inner (hE.keep hu) hk (hnew hu)
  have hmemP : m₂.mem parent = m.mem parent :=
    (hinner hr.parentLabel (hlev o)).trans (cowLink_parent hpc i)
  have hmemC : m₂.mem child i = m.getFreePage.1 ||| (m.mem parent i &&& flagMask) := by
    rw [hinner hr.childLabel (hlev c)]
    exact write_self ..
  have hflags := flagWord_of_present hp
  have htarget := frame_or hf.aligned hflags.small
  have hpresC := present_or hf.aligned hflags
  have hsub : ∀ q, q.length = d + 1 → (m.cowLink parent child i).entryAt
      (m.mem parent i &&& mask) q = m.entryAt (m.mem parent i &&& mask) q := by
    intro q hq
    have hedge := hr.tables.edge hr.parentLabel (hlev o) hp
    have hl := Node.shape.level_child (.user o p) i (hlev o)
    rw [hr.level] at hl
    exact hE.lookup_eq hedge (by omega)
  have hdown : ∀ {m' : Machine} {t u : Word} {q : List (Fin 512)},
      present (m'.mem t i) = true → m'.mem t i &&& mask = u → q.length = d + 1 →
      m'.entryAt t (i :: q) = m'.entryAt u q := by
    intro m' t u q hpres htar hq
    obtain ⟨j, q, rfl⟩ := List.exists_cons_of_length_eq_add_one hq
    rw [entryAt, lookup_cons_cons, if_pos (show entryFormat.present _ = true from hpres),
      entryFormat_target, htar]
  have hself : ∀ q, q.length = d + 1 → m₂.entryAt (m.mem parent i &&& mask) q
      = cowEntry (m.entryAt (m.mem parent i &&& mask) q) := by
    intro q hq
    obtain ⟨j, q', rfl⟩ := List.exists_cons_of_length_eq_add_one hq
    rw [h.self j (List.mem_finRange j) q' (Nat.succ.inj hq), hsub _ hq]
  refine
    { grows := hlink.trans h.grows, cr3 := h.cr3, inner := ?_, rest := ?_, self := ?_, copy := ?_
      other := ?_, ref := ?_, shared := ?_, owner := fun hr => (h.owner hr).trans (howner hr) }
  · intro u k hu hk huc
    rw [hinner hu hk]
    exact write_of_frame_ne _ huc i _
  · intro j hj
    rw [hinner hr.childLabel (hlev c)]
    exact write_of_index_ne _ _ (fun heq => hj (List.mem_singleton.mpr heq)) _
  · intro j hj q hq
    obtain rfl := List.mem_singleton.mp hj
    rw [hdown (by rw [hmemP]; exact hp) (by rw [hmemP]) hq, hself q hq, hdown hp rfl hq]
  · intro j hj q hq
    obtain rfl := List.mem_singleton.mp hj
    rw [hdown (by rw [hmemC]; exact hpresC) (by rw [hmemC, htarget]) hq, hdown hp rfl hq]
    obtain ⟨k, q', rfl⟩ := List.exists_cons_of_length_eq_add_one hq
    rw [h.copy k (List.mem_finRange k) q' (Nat.succ.inj hq), hsub _ hq]
  · intro u k q hu hq hne
    rw [h.other (hE.keep hu) hq, show (m.cowLink parent child i).entryAt u q = m.entryAt u q
      from hE.lookup_eq hu hq]
    intro j _ r
    have hslot := hne i (List.mem_singleton_self i) (j :: r)
    rw [List.append_assoc, List.singleton_append]
    exact hslot
  · intro g hg hts
    rw [List.mem_append, not_or, List.mem_singleton] at hts
    have href : (m.cowLink parent child i).ref g = m.ref g :=
      PhysMem.getFreePage_getPageRefCount fun heq => hts.2 (pageNumber_inj hg hf.aligned heq)
    rw [← href]
    exact h.ref g hg hts.1
  · intro j hj q hq hpres hts
    obtain rfl := List.mem_singleton.mp hj
    rw [List.mem_append, not_or] at hts
    rw [hdown hp rfl hq] at hpres hts ⊢
    rw [← hsub q hq] at hpres hts ⊢
    obtain ⟨k, q', rfl⟩ := List.exists_cons_of_length_eq_add_one hq
    exact h.shared k (List.mem_finRange k) q' (Nat.succ.inj hq) hpres hts.1

/-! ## The whole loops -/

theorem cowTable_cons (d : Nat) (parent child : Word) (i : Fin 512) (is : List (Fin 512))
    (m : Machine) : cowTable d parent child (i :: is) m
      = cowTable d parent child is (cowTable d parent child [i] m) := by
  cases d <;> rfl

theorem cowTable_branch {m : Machine} {parent child : Word} {i : Fin 512} (d : Nat)
    (hpc : parent ≠ child) (h : present (m.mem parent i) = true) :
    cowTable (d + 1) parent child [i] m = cowTable d (m.mem parent i &&& mask) m.getFreePage.1
      (List.finRange 512) (m.cowLink parent child i) := by
  rw [cowTable, List.foldl_cons, List.foldl_nil, if_pos h]
  show cowTable d ((m.cowLink parent child i).mem parent i &&& mask) _ _ _ = _
  rw [cowLink_parent hpc]
  rfl

theorem cowTable_absent {m : Machine} {parent child : Word} {i : Fin 512} (d : Nat)
    (h : ¬ present (m.mem parent i) = true) : cowTable d parent child [i] m = m := by
  cases d with
  | zero => exact if_neg h
  | succ d => exact if_neg h

theorem cowLeaf_draws (parent child : Word) (m : Machine) (i : Fin 512) :
    m.Draws [] (cowLeaf parent child m i) := by
  by_cases hp : present (m.mem parent i) = true
  · rw [cowLeaf_present hp]
    exact ⟨shareFrame_draw _ _, rfl⟩
  · rw [show cowLeaf parent child m i = m from if_neg hp]
    exact .refl m

theorem cowTable_draws (d : Nat) (parent child : Word) (is : List (Fin 512)) (m : Machine) :
    ∃ ts, m.Draws ts (cowTable d parent child is m) := by
  induction d generalizing parent child is m with
  | zero =>
      induction is generalizing m with
      | nil => exact ⟨[], .refl m⟩
      | cons i is ih =>
          obtain ⟨ts, hts⟩ := ih (cowLeaf parent child m i)
          exact ⟨_, (cowLeaf_draws parent child m i).trans hts⟩
  | succ d ihd =>
      induction is generalizing m with
      | nil => exact ⟨[], .refl m⟩
      | cons i is ih =>
          obtain ⟨ts, hts⟩ := ih (cowTable (d + 1) parent child [i] m)
          rw [cowTable_cons]
          by_cases hp : present (m.mem parent i) = true
          · obtain ⟨us, hus⟩ := ihd ((m.cowLink parent child i).mem parent i &&& mask)
              m.getFreePage.1 (List.finRange 512) (m.cowLink parent child i)
            have hlink : m.Draws [m.getFreePage.1] (m.cowLink parent child i) :=
              (getFreePage_draws m).setEntry ..
            have hone : m.Draws (us ++ [m.getFreePage.1])
                (cowTable (d + 1) parent child [i] m) := by
              rw [cowTable, List.foldl_cons, List.foldl_nil, if_pos hp]
              exact hlink.trans hus
            exact ⟨_, hone.trans hts⟩
          · rw [cowTable_absent _ hp] at hts ⊢
            exact ⟨ts, hts⟩

theorem CowReady.tail (hr : CowReady d o c p parent child (i :: is) m lab)
    (h : CowDone d o c p parent child [i] m lab ts m₁ lab₁) :
    CowReady d o c p parent child is m₁ lab₁ where
  tables := h.grows.tables
  parentLabel := h.grows.keep hr.parentLabel
  childLabel := h.grows.keep hr.childLabel
  depth := hr.depth
  apart := hr.apart
  user := hr.user.imp id fun hnot hmem => hnot (List.mem_cons_of_mem _ hmem)
  nodup := (List.nodup_cons.mp hr.nodup).2
  empty := fun j hj => by
    have hji : j ∉ [i] := fun hc => (List.nodup_cons.mp hr.nodup).1 (List.mem_singleton.mp hc ▸ hj)
    rw [h.rest j hji]
    exact hr.empty j (List.mem_cons_of_mem _ hj)

theorem CowReady.head (hr : CowReady d o c p parent child (i :: is) m lab) :
    CowReady d o c p parent child [i] m lab :=
  { hr with
    user := hr.user.imp id fun hnot hmem => hnot (List.mem_singleton.mp hmem ▸ List.mem_cons_self ..)
    nodup := List.nodup_singleton i
    empty := fun j hj => hr.empty j (List.mem_singleton.mp hj ▸ List.mem_cons_self ..) }

theorem cowTable_rounds
    (hround : ∀ {i : Fin 512} {m : Machine} {lab : Word → Option Node} {ts : List Word},
      CowReady d o c p parent child [i] m lab → m.Draws ts (cowTable d parent child [i] m) →
      Usable m lab ts →
      ∃ lab', CowDone d o c p parent child [i] m lab ts (cowTable d parent child [i] m) lab') :
    ∀ {is : List (Fin 512)} {m : Machine} {lab : Word → Option Node} {ts : List Word},
      CowReady d o c p parent child is m lab → m.Draws ts (cowTable d parent child is m) →
      Usable m lab ts →
      ∃ lab', CowDone d o c p parent child is m lab ts (cowTable d parent child is m) lab'
  | [], m, lab, ts, hr, hd, _ => by
      have hnil : cowTable d parent child [] m = m := by cases d <;> rfl
      rw [hnil] at hd ⊢
      obtain rfl : ts = [] := List.self_eq_append_left.mp hd.log
      exact ⟨lab, cowDone_nil hr.tables⟩
  | i :: is, m, lab, ts, hr, hd, hus => by
      rw [cowTable_cons] at hd ⊢
      obtain ⟨ts₁, hd₁⟩ := cowTable_draws d parent child [i] m
      obtain ⟨ts₂, hd₂⟩ := cowTable_draws d parent child is (cowTable d parent child [i] m)
      obtain rfl : ts = ts₂ ++ ts₁ :=
        List.append_cancel_right (hd.log.symm.trans (hd₁.trans hd₂).log)
      obtain ⟨lab₁, h₁⟩ := hround hr.head hd₁ hus.first
      obtain ⟨lab₂, h₂⟩ := cowTable_rounds hround (hr.tail h₁) hd₂ (hus.grows h₁.grows)
      exact ⟨lab₂, h₁.cons hr h₂⟩

/-- The loops of `cow_page_tables`, if the frames they draw can be used. The
induction is on the number of levels below the pair of tables. -/
theorem cowTable_usable : ∀ {d : Nat} {o c parent child : Word} {p is : List (Fin 512)}
    {m : Machine} {lab : Word → Option Node} {ts : List Word},
    CowReady d o c p parent child is m lab → m.Draws ts (cowTable d parent child is m) →
    Usable m lab ts →
    ∃ lab', CowDone d o c p parent child is m lab ts (cowTable d parent child is m) lab'
  | 0, o, c, parent, child, p, is, m, lab, ts, hr, hd, hus => by
      refine cowTable_rounds (fun {i m lab ts} hr hd _ => ⟨lab, ?_⟩) hr hd hus
      obtain rfl : ts = [] :=
        List.append_cancel_right (hd.log.symm.trans (cowLeaf_draws parent child m i).log)
      by_cases hp : present (m.mem parent i) = true
      · exact cowLeaf_done hr hp
      · rw [cowTable_absent 0 hp]
        exact cowAbsent_done hr hp
  | d + 1, o, c, parent, child, p, is, m, lab, ts, hr, hd, hus => by
      refine cowTable_rounds (fun {i m lab ts} hr hd hus => ?_) hr hd hus
      by_cases hp : present (m.mem parent i) = true
      swap
      · rw [cowTable_absent (d + 1) hp] at hd ⊢
        obtain rfl : ts = [] := List.self_eq_append_left.mp hd.log
        exact ⟨lab, cowAbsent_done hr hp⟩
      rw [cowTable_branch d hr.parent_ne_child hp] at hd ⊢
      obtain ⟨us, hd₂⟩ := cowTable_draws d (m.mem parent i &&& mask) m.getFreePage.1
        (List.finRange 512) (m.cowLink parent child i)
      have hlink : m.Draws [m.getFreePage.1] (m.cowLink parent child i) :=
        (getFreePage_draws m).setEntry ..
      obtain rfl : ts = us ++ [m.getFreePage.1] :=
        List.append_cancel_right (hd.log.symm.trans (hlink.trans hd₂).log)
      have hf := hus.blank _ (List.mem_append_right _ (List.mem_singleton_self _))
      obtain ⟨lab₁, hE, howner, hready⟩ := hr.link hp hf
      have hgrows : Grows m lab [m.getFreePage.1] (m.cowLink parent child i) lab₁ :=
        ⟨hlink, hE.tables, hE.keep, hE.new, hE.others⟩
      obtain ⟨lab₂, h₂⟩ := cowTable_usable hready hd₂ (hus.grows hgrows)
      exact ⟨lab₂, cowBranch_done hr hp hf hE howner h₂⟩

theorem cowTable_done {l : List Nat} (hr : CowReady d o c p parent child is m lab)
    (hpool : Pool m lab l) (hlog : (0 : Word) ∉ (cowTable d parent child is m).log) :
    ∃ ts lab', CowDone d o c p parent child is m lab ts (cowTable d parent child is m) lab' := by
  obtain ⟨ts, hd⟩ := cowTable_draws d parent child is m
  obtain ⟨l', hdrawn⟩ := hpool.draws hd hlog
  exact ⟨ts, cowTable_usable hr hd hdrawn.usable⟩

end Loops

/-! ## The whole pass -/

theorem mem_userIndices (i : Fin 512) : i ∈ userIndices ↔ i ≠ 511 := by
  constructor
  · intro hi heq
    obtain ⟨j, -, hj⟩ := List.mem_map.mp hi
    have hval := congrArg Fin.val hj
    rw [heq] at hval
    have := j.isLt
    simp at hval
    omega
  · intro hi
    have hlt : i.val < 511 := by
      have hne : i.val ≠ 511 := fun h => hi (Fin.ext h)
      omega
    exact List.mem_map.mpr ⟨⟨i.val, hlt⟩, List.mem_finRange _, rfl⟩

theorem nodup_userIndices : userIndices.Nodup :=
  (List.nodup_finRange 511).map (Fin.castSucc_injective 511)

section Pass

variable {roots : List Word} {m : Machine} {lab lab' : Word → Option Node} {l l' : List Nat}

theorem LeafOk.cowEntry {q : List (Fin 512)} {e : Word} (h : LeafOk lab l q e) :
    LeafOk lab l q (cowEntry e) := by
  rcases h with rfl | ⟨hp, hne, hheld⟩
  · exact Or.inl cowEntry_zero
  · refine Or.inr ⟨?_, ?_, ?_⟩
    · rw [present_cowEntry]
      exact hp
    · rw [cowEntry_frame]
      exact hne
    · rw [cowEntry_frame]
      exact hheld

/-- In a well-formed leaf the child's copy is the parent's new entry. -/
theorem LeafOk.copy_eq {q : List (Fin 512)} {e : Word} (h : LeafOk lab l q e) :
    (if present e then SnowOs.cowEntry e else 0) = SnowOs.cowEntry e := by
  rcases h with rfl | ⟨hp, -, -⟩
  · rfl
  · exact if_pos hp

/-- The machine with the child's root in place, before the loops. -/
def cowRoot (m : Machine) : Machine :=
  m.getFreePage.2.setEntry m.getFreePage.1 511 (m.mem m.cr3 511)

theorem cowPageTables_eq (m : Machine) : m.cowPageTables
    = (m.getFreePage.1, cowTable 3 m.cr3 m.getFreePage.1 userIndices m.cowRoot) := by
  unfold cowPageTables
  rfl

theorem cowRoot_draws (m : Machine) : m.Draws [m.getFreePage.1] m.cowRoot :=
  (getFreePage_draws m).setEntry ..

theorem cowPageTables_log_suffix (m : Machine) : m.log <:+ m.cowPageTables.2.log := by
  obtain ⟨ts, hts⟩ := cowTable_draws 3 m.cr3 m.getFreePage.1 userIndices m.cowRoot
  rw [cowPageTables_eq]
  exact ⟨_, (m.cowRoot_draws.trans hts).log.symm⟩

/-- What the pass does to the address spaces. -/
structure Cowed (roots : List Word) (m : Machine) (lab : Word → Option Node) (l : List Nat)
    (c : Word) (m' : Machine) (lab' : Word → Option Node) (l' : List Nat) : Prop where
  forest : Forest (c :: roots) m' lab' l'
  new : c ∉ roots
  cr3 : m'.cr3 = m.cr3
  held : ∀ {g}, Held lab l g → Held lab' l' g
  mem : ∀ {g}, Held lab l g → m'.mem g = m.mem g
  ref : ∀ {g}, Held lab l g → m'.ref g = m.ref g ∨ m.ref g = 1 ∧ m'.ref g = 2
  shared : ∀ q, q.length = 4 → UserPath q → present (m.entryAt m.cr3 q) = true →
    m'.ref (m.entryAt m.cr3 q &&& mask) ≠ 1
  parent : ∀ q, q.length = 4 → UserPath q →
    m'.entryAt m.cr3 q = cowEntry (m.entryAt m.cr3 q)
  child : ∀ q, q.length = 4 → UserPath q → m'.entryAt c q = cowEntry (m.entryAt m.cr3 q)
  other : ∀ r ∈ roots, r ≠ m.cr3 → ∀ q, q.length = 4 → UserPath q →
    m'.entryAt r q = m.entryAt r q

theorem cowRoot_ready (h : Labelled entryFormat Node.shape m.mem lab)
    (hcur : lab m.cr3 = some (.user m.cr3 [])) (hf : Blank m lab m.getFreePage.1) :
    ∃ lab₁, Grows m lab [m.getFreePage.1] m.cowRoot lab₁ ∧
      CowReady 3 m.cr3 m.getFreePage.1 [] m.cr3 m.getFreePage.1 userIndices m.cowRoot lab₁ := by
  have hne : ∀ {u k}, lab u = some k → u ≠ m.getFreePage.1 := by
    intro u k hu heq
    rw [heq, hf.unlabelled] at hu
    cases hu
  have hshared : entryFormat.present (m.mem m.cr3 511) = true →
      lab (entryFormat.target (m.mem m.cr3 511))
        = some (Node.shape.child (.user m.getFreePage.1 []) 511) := by
    intro hp
    have hlev : 1 < Node.shape.level (.user m.cr3 []) := show 1 < 4 by decide
    have hedge := h.edge hcur hlev hp
    exact hedge
  have hroot := h.write_root hf.unlabelled hf.zero hshared
  refine ⟨_, ⟨m.cowRoot_draws, hroot, ?_, ?_, ?_⟩, ⟨hroot, ?_, ?_, rfl,
    hne hcur, Or.inr fun hc => (mem_userIndices 511).mp hc rfl, nodup_userIndices, ?_⟩⟩
  · intro u k hu
    rw [Function.update_of_ne (hne hu), hu]
  · intro u k hu
    by_cases huf : u = m.getFreePage.1
    · exact Or.inr (List.mem_singleton.mpr huf)
    · rw [Function.update_of_ne huf] at hu
      exact Or.inl hu
  · intro u _ hts
    exact write_of_frame_ne _ (fun heq => hts (List.mem_singleton.mpr heq)) _ _
  · rw [Function.update_of_ne (hne hcur), hcur]
  · rw [Function.update_self]
  · intro i hi
    show write m.mem _ 511 _ _ i = 0
    rw [write_of_index_ne _ _ ((mem_userIndices i).mp hi)]
    exact hf.zero i

theorem Forest.cowRoot_ready (h : Forest roots m lab l) (hf : Blank m lab m.getFreePage.1) :
    ∃ lab₁, Grows m lab [m.getFreePage.1] m.cowRoot lab₁ ∧
      CowReady 3 m.cr3 m.getFreePage.1 [] m.cr3 m.getFreePage.1 userIndices m.cowRoot lab₁ :=
  Machine.cowRoot_ready h.tables (h.root _ h.current) hf

theorem entryAt_cowRoot (h : Forest roots m lab l) (hf : lab m.getFreePage.1 = none) {r : Word}
    (hr : r ∈ roots) {q : List (Fin 512)} (hq : q.length = 4) :
    m.cowRoot.entryAt r q = m.entryAt r q := by
  refine h.entryAt_congr (fun {u k} hu => write_of_frame_ne _ (fun heq => ?_) _ _) hr hq
  rw [heq, hf] at hu
  cases hu

/-- The new root shares the kernel half and maps nothing else. -/
theorem Forest.entryAt_cowRoot_new (h : Forest roots m lab l)
    (hf : Blank m lab m.getFreePage.1) {q : List (Fin 512)} (hq : q.length = 4) :
    m.cowRoot.entryAt m.getFreePage.1 q = if UserPath q then 0 else m.entryAt m.cr3 q := by
  obtain ⟨lab₁, -, hready⟩ := h.cowRoot_ready hf
  obtain ⟨i, q', rfl⟩ := List.exists_cons_of_length_eq_add_one hq
  by_cases hi : i = 511
  · have hne := hready.parent_ne_child
    have hentry : m.cowRoot.mem m.getFreePage.1 511 = m.cowRoot.mem m.cr3 511 := by
      refine Eq.trans (write_self ..) ?_
      exact (congrFun (write_of_frame_ne _ hne _ _) _).symm
    obtain ⟨j, q'', rfl⟩ := List.exists_cons_of_length_eq_add_one (Nat.succ.inj hq)
    have hkernel : ¬ UserPath (i :: j :: q'') := fun hu => hu (by rw [hi]; rfl)
    rw [if_neg hkernel, ← entryAt_cowRoot h hf.unlabelled h.current hq, hi, entryAt, entryAt,
      lookup_cons_cons, lookup_cons_cons, hentry]
  · have huser : UserPath (i :: q') := fun hc => hi (Option.some.inj hc)
    have hzero := hready.empty i ((mem_userIndices i).mpr hi)
    rw [if_pos huser]
    rcases entryAt_absent (by rw [hzero]; decide :
      ¬ present (m.cowRoot.mem m.getFreePage.1 i) = true) q' with heq | heq
    · exact heq
    · rw [heq, hzero]

section Loops

variable {ts : List Word} {m' : Machine} {lab₁ : Word → Option Node} (h : Forest roots m lab l)
  (hf : lab m.getFreePage.1 = none) (hg₁ : Grows m lab [m.getFreePage.1] m.cowRoot lab₁)
  (hC : CowDone 3 m.cr3 m.getFreePage.1 [] m.cr3 m.getFreePage.1 userIndices m.cowRoot lab₁ ts m'
    lab')

include h hf hg₁ hC

theorem Forest.cowed_entries :
    (∀ q, q.length = 4 → UserPath q → m'.entryAt m.cr3 q = cowEntry (m.entryAt m.cr3 q) ∧
        m'.entryAt m.getFreePage.1 q = cowEntry (m.entryAt m.cr3 q)) ∧
      ∀ r ∈ roots, ∀ q, q.length = 4 → r ≠ m.cr3 ∨ ¬ UserPath q →
        m'.entryAt r q = m.entryAt r q := by
  have hbefore : ∀ r ∈ roots, ∀ q, q.length = 4 → m.cowRoot.entryAt r q = m.entryAt r q :=
    fun r hr q hq => entryAt_cowRoot h hf hr hq
  refine ⟨fun q hq hu => ?_, fun r hr q hq hne => ?_⟩
  · obtain ⟨i, q', rfl⟩ := List.exists_cons_of_length_eq_add_one hq
    have hi : i ∈ userIndices := (mem_userIndices i).mpr fun hi => hu (by rw [hi]; rfl)
    have hq' := Nat.succ.inj hq
    rw [hC.self i hi q' hq', hC.copy i hi q' hq', hbefore _ h.current _ hq]
    exact ⟨rfl, (h.leaf _ h.current _ hq).copy_eq⟩
  · rw [hC.other (hg₁.keep (h.root r hr)) hq, hbefore r hr q hq]
    intro i hi s
    have hiu : UserPath (i :: s) := fun hc => (mem_userIndices i).mp hi (Option.some.inj hc)
    have hslot : ∀ t : Word, t ≠ r ∨ ¬ UserPath q →
        Node.shape.walk (.user r []) q ≠ .user t ([] ++ i :: s) := by
      intro t ht heq
      rw [← Node.walk_user (Or.inr hiu)] at heq
      obtain ⟨htr, hqs⟩ := Node.walk_inj_user hiu heq.symm
      rcases ht with ht | ht
      · exact ht htr
      · exact ht (hqs ▸ hiu)
    refine ⟨hslot _ (hne.imp Ne.symm id), hslot _ (Or.inl fun heq => ?_)⟩
    have hlab := h.root r hr
    rw [← heq, hf] at hlab
    cases hlab

/-- The kernel half of the child is the parent's. -/
theorem Forest.cowed_kernel {q : List (Fin 512)} (hq : q.length = 4) (hu : ¬ UserPath q) :
    m'.entryAt m.getFreePage.1 q = m'.entryAt m.cr3 q := by
  obtain ⟨i, q', rfl⟩ := List.exists_cons_of_length_eq_add_one hq
  obtain ⟨j, q'', rfl⟩ := List.exists_cons_of_length_eq_add_one (Nat.succ.inj hq)
  obtain rfl : i = 511 := by
    by_contra hi
    exact hu fun hc => hi (Option.some.inj hc)
  have hcur := h.root _ h.current
  have hne : m.cr3 ≠ m.getFreePage.1 := by
    intro heq
    rw [heq, hf] at hcur
    cases hcur
  have hchild : m'.mem m.getFreePage.1 511 = m.mem m.cr3 511 := by
    rw [hC.rest 511 fun hc => (mem_userIndices 511).mp hc rfl]
    exact write_self ..
  have hlev : 1 < Node.shape.level (.user m.cr3 []) := show 1 < 4 by decide
  have hparent : m'.mem m.cr3 = m.mem m.cr3 :=
    (hC.inner (hg₁.keep hcur) hlev hne).trans (write_of_frame_ne _ hne _ _)
  rw [entryAt, entryAt, lookup_cons_cons, lookup_cons_cons, hchild, hparent]

end Loops

theorem Forest.cowPass (h : Forest roots m lab l)
    (hlog : (0 : Word) ∉ m.cowPageTables.2.log) :
    ∃ lab₁ ts lab', Blank m lab m.getFreePage.1 ∧
      Grows m lab [m.getFreePage.1] m.cowRoot lab₁ ∧
      CowReady 3 m.cr3 m.getFreePage.1 [] m.cr3 m.getFreePage.1 userIndices m.cowRoot lab₁ ∧
      CowDone 3 m.cr3 m.getFreePage.1 [] m.cr3 m.getFreePage.1 userIndices m.cowRoot lab₁ ts
        m.cowPageTables.2 lab' := by
  rw [cowPageTables_eq] at hlog ⊢
  obtain ⟨vs, hvs⟩ := cowTable_draws 3 m.cr3 m.getFreePage.1 userIndices m.cowRoot
  have hlog₁ : (0 : Word) ∉ m.cowRoot.log :=
    fun hmem => hlog (hvs.log ▸ List.mem_append_right _ hmem)
  obtain ⟨l₁, hd₁⟩ := h.pool.draws m.cowRoot_draws hlog₁
  have hf := hd₁.blank _ (List.mem_singleton_self _)
  obtain ⟨lab₁, hg₁, hready⟩ := h.cowRoot_ready hf
  obtain ⟨ts, lab', hC⟩ := cowTable_done hready (h.pool.grows hg₁ hd₁) hlog
  generalize cowTable 3 m.cr3 m.getFreePage.1 userIndices m.cowRoot = m' at hC ⊢
  exact ⟨lab₁, ts, lab', hf, hg₁, hready, hC⟩

theorem cowPageTables_fst (m : Machine) : m.cowPageTables.1 = m.getFreePage.1 := by
  rw [cowPageTables_eq]

theorem Forest.cowPageTables (h : Forest roots m lab l)
    (hlog : (0 : Word) ∉ m.cowPageTables.2.log) :
    ∃ lab' l', Cowed roots m lab l m.cowPageTables.1 m.cowPageTables.2 lab' l' := by
  obtain ⟨lab₁, ts, lab', hf, hg₁, hready, hC⟩ := h.cowPass hlog
  rw [cowPageTables_fst]
  generalize m.cowPageTables.2 = m' at hlog hC ⊢
  have hg := hg₁.trans hC.grows
  obtain ⟨l', hd⟩ := h.pool.draws hg.draws hlog
  obtain ⟨huser, hother⟩ := h.cowed_entries hf.unlabelled hg₁ hC
  have hleaf : ∀ r ∈ roots, ∀ q, q.length = 4 → LeafOk lab' l' q (m.entryAt r q) :=
    fun r hr q hq => (h.leaf r hr q hq).grows hg hd
  have hforest : ∀ r ∈ roots, ∀ q, q.length = 4 → LeafOk lab' l' q (m'.entryAt r q) := by
    intro r hr q hq
    by_cases hcase : r ≠ m.cr3 ∨ ¬ UserPath q
    · rw [hother r hr q hq hcase]
      exact hleaf r hr q hq
    · rw [not_or, not_not, not_not] at hcase
      rw [hcase.1, (huser q hq hcase.2).1]
      exact (hleaf _ h.current q hq).cowEntry
  have hF := h.grow hg hd hC.cr3 hforest
  refine ⟨lab', l', ⟨⟨hF.pool, hF.tables, ?_, List.mem_cons_of_mem _ hF.current, hF.zero,
    hF.drawn, ?_⟩, ?_, hC.cr3, fun hh => hh.grows hg hd,
    fun hh => hg.others hh.unlabelled (hh.notMem hd), ?_, fun q hq hu hp => ?_,
    fun q hq hu => (huser q hq hu).1, fun q hq hu => (huser q hq hu).2,
    fun r hr hne q hq _ => hother r hr q hq (Or.inl hne)⟩⟩
  · intro r hr
    rcases List.mem_cons.mp hr with rfl | hr
    · exact hC.grows.keep hready.childLabel
    · exact hF.root r hr
  · intro r hr q hq
    rcases List.mem_cons.mp hr with rfl | hr
    · by_cases hu : UserPath q
      · rw [(huser q hq hu).2]
        exact (hleaf _ h.current q hq).cowEntry
      · rw [h.cowed_kernel hf.unlabelled hg₁ hC hq hu]
        exact hforest _ h.current q hq
    · exact hforest r hr q hq
  · intro hmem
    have hlab := h.root _ hmem
    rw [hf.unlabelled] at hlab
    cases hlab
  · intro g hh
    have hts := hh.notMem hd
    rw [List.mem_append, not_or] at hts
    have href : m.cowRoot.ref g = m.ref g := PhysMem.getFreePage_getPageRefCount fun heq =>
      hts.2 (List.mem_singleton.mpr (pageNumber_inj hh.aligned hf.aligned heq))
    rw [← href]
    exact hC.ref g hh.aligned hts.1
  · have hheld : Held lab l (m.entryAt m.cr3 q &&& mask) := by
      rcases h.leaf _ h.current q hq with hzero | ⟨-, -, hheld⟩
      · rw [hzero] at hp
        cases hp
      · exact hheld hu
    have hts := hheld.notMem hd
    rw [List.mem_append, not_or] at hts
    obtain ⟨i, q', rfl⟩ := List.exists_cons_of_length_eq_add_one hq
    have hi : i ∈ userIndices := (mem_userIndices i).mpr fun hi => hu (by rw [hi]; rfl)
    rw [← entryAt_cowRoot h hf.unlabelled h.current hq] at hp hts ⊢
    exact hC.shared i hi q' (Nat.succ.inj hq) hp hts.1

end Pass

end Machine

end SnowOs
