import SnowOs.Paging

/-!
# What building a mapping does to the tables

`update_page_tables` walks down three levels, and at each level it either
rewrites an entry without changing the table it names or hangs a new,
empty table off it. Neither is visible to any lookup. This file says so
once, for any family of trees that a labelling keeps apart
(`Machine.Extends`), and then adds the one visible write, the leaf
(`mapPage_spec`).

The labelling is a parameter: the single tree of the current process and
the forest of all processes around a shared kernel half are both
instances. What a caller has to supply is that the frames drawn on the
way are `Blank` - aligned, zeroed and not yet part of any table.
-/

namespace SnowOs

open Radix

namespace Machine

/-! ## Frames drawn from the allocator -/

/-- From `m` to `m'` the allocator is only drawn from; `ts` are the frames
it gave, newest first. -/
structure Draws (m : Machine) (ts : List Word) (m' : Machine) : Prop where
  phys : PhysMem.Draw m.phys ts m'.phys
  log : m'.log = ts ++ m.log

theorem Draws.refl (m : Machine) : m.Draws [] m := ⟨.refl _, rfl⟩

theorem Draws.trans {m₁ m₂ m₃ : Machine} {ts us : List Word} (h₁ : m₁.Draws ts m₂)
    (h₂ : m₂.Draws us m₃) : m₁.Draws (us ++ ts) m₃ :=
  ⟨h₁.phys.trans h₂.phys, by rw [h₂.log, h₁.log, List.append_assoc]⟩

theorem Draws.setEntry {m m' : Machine} {ts : List Word} (h : m.Draws ts m') (t : Word)
    (i : Fin 512) (w : Word) : m.Draws ts (m'.setEntry t i w) :=
  ⟨h.phys, h.log⟩

theorem getFreePage_draws (m : Machine) : m.Draws [m.getFreePage.1] m.getFreePage.2 :=
  ⟨.take (.refl _), rfl⟩

theorem aligned_getFreePage (s : PhysMem) : Aligned s.getFreePage.1 := by
  have hzero : Aligned (0 : Word) := rfl
  unfold PhysMem.getFreePage
  split
  · exact hzero
  · split
    · exact hzero
    · show Aligned (_ * pageSize)
      rw [Aligned, BitVec.toNat_mul, pageSize_toNat]
      omega

theorem Draws.aligned {m m' : Machine} {ts : List Word} (h : m.Draws ts m') :
    ∀ f ∈ ts, Aligned f := by
  have hdraw : ∀ {s s' : PhysMem} {ts : List Word}, PhysMem.Draw s ts s' →
      ∀ f ∈ ts, Aligned f := by
    intro s s' ts hd
    induction hd with
    | refl => exact fun f hf => absurd hf List.not_mem_nil
    | take _ ih => exact List.forall_mem_cons.mpr ⟨aligned_getFreePage _, ih⟩
    | adjust _ _ _ ih => exact ih
  exact hdraw h.phys

/-- The frames one level of `update_page_tables` takes. -/
def taken (m : Machine) (t : Word) (i : Fin 512) : List Word :=
  if present (m.mem t i) then [] else [m.getFreePage.1]

theorem descend_draws (m : Machine) (t : Word) (i : Fin 512) (flags : Word) :
    m.Draws (m.taken t i) (m.descend t i flags).2 := by
  unfold taken descend
  split
  · exact (Draws.refl m).setEntry ..
  · exact (getFreePage_draws m).setEntry ..

/-- The frames `update_page_tables` takes, newest first. -/
def mapTaken (m : Machine) (root v flags : Word) : List Word :=
  let pdpe := m.descend root (offsetPml4 v) flags
  let pde := pdpe.2.descend pdpe.1 (offsetPdpe v) flags
  pde.2.taken pde.1 (offsetPde v) ++
    (pdpe.2.taken pdpe.1 (offsetPdpe v) ++ m.taken root (offsetPml4 v))

theorem mapPage_draws (m : Machine) (root v p flags : Word) :
    m.Draws (m.mapTaken root v flags) (m.mapPage root v p flags) := by
  have h₁ := m.descend_draws root (offsetPml4 v) flags
  have h₂ := (m.descend root (offsetPml4 v) flags).2.descend_draws
    (m.descend root (offsetPml4 v) flags).1 (offsetPdpe v) flags
  exact ((h₁.trans h₂).trans (descend_draws ..)).setEntry ..

def ref (m : Machine) (f : Word) : Nat := m.phys.getPageRefCount f

theorem descend_ref {m : Machine} {t : Word} {i : Fin 512} {flags g : Word}
    (h : ∀ f ∈ m.taken t i, pageNumber g ≠ pageNumber f) :
    (m.descend t i flags).2.ref g = m.ref g := by
  unfold taken at h
  unfold descend
  by_cases hp : present (m.mem t i) = true
  · rw [if_pos hp]
    rfl
  · rw [if_neg hp] at h ⊢
    exact PhysMem.getFreePage_getPageRefCount (h _ (List.mem_singleton_self _))

theorem mapPage_ref {m : Machine} {root v p flags g : Word}
    (h : ∀ f ∈ m.mapTaken root v flags, pageNumber g ≠ pageNumber f) :
    (m.mapPage root v p flags).ref g = m.ref g := by
  simp only [mapTaken, List.mem_append] at h
  have h₁ := @descend_ref _ _ _ flags _ fun f hf => h f (Or.inr (Or.inr hf))
  have h₂ := @descend_ref _ _ _ flags _ fun f hf => h f (Or.inr (Or.inl hf))
  have h₃ := @descend_ref _ _ _ flags _ fun f hf => h f (Or.inl hf)
  exact h₃.trans (h₂.trans h₁)

@[simp] theorem descend_cr3 (m : Machine) (t : Word) (i : Fin 512) (flags : Word) :
    (m.descend t i flags).2.cr3 = m.cr3 := by
  unfold descend
  split <;> rfl

@[simp] theorem mapPage_cr3 (m : Machine) (root v p flags : Word) :
    (m.mapPage root v p flags).cr3 = m.cr3 := by
  simp [mapPage]

@[simp] theorem updatePageTables_cr3 (m : Machine) (v p flags : Word) :
    (m.updatePageTables v p flags).cr3 = m.cr3 := mapPage_cr3 ..

/-! ## Invisible growth -/

variable {N : Type} {shape : Shape N (Fin 512)}

/-- A frame that can serve as an empty table. -/
structure Blank (m : Machine) (lab : Word → Option N) (f : Word) : Prop where
  aligned : Aligned f
  unlabelled : lab f = none
  zero : ∀ i, m.mem f i = 0

/-- The tables of `m'` are those of `m` and some of the frames `ts`, and no
lookup can tell the difference. -/
structure Extends (shape : Shape N (Fin 512)) (m : Machine) (lab : Word → Option N)
    (ts : List Word) (m' : Machine) (lab' : Word → Option N) : Prop where
  tables : Labelled entryFormat shape m'.mem lab'
  keep : ∀ {u n}, lab u = some n → lab' u = some n
  new : ∀ {u n}, lab' u = some n → lab u = some n ∨ u ∈ ts
  lookup_eq : ∀ {u n p}, lab u = some n → p.length = shape.level n →
    lookup entryFormat m'.mem u p = lookup entryFormat m.mem u p
  follow_eq : ∀ {u n p t}, lab u = some n → p.length < shape.level n →
    follow entryFormat m.mem u p = some t → follow entryFormat m'.mem u p = some t
  others : ∀ {u}, lab u = none → u ∉ ts → m'.mem u = m.mem u
  entry : ∀ u i, m'.mem u i = m.mem u i ∨ present (m'.mem u i) = true

section Growth

variable {m m₁ m₂ : Machine} {lab lab₁ lab₂ : Word → Option N} {ts us : List Word}

theorem Extends.unlabelled (h : Extends shape m lab ts m₁ lab₁) {f : Word}
    (hf : lab f = none) (hts : f ∉ ts) : lab₁ f = none := by
  cases hlab : lab₁ f with
  | none => rfl
  | some n =>
      rcases h.new hlab with hold | hmem
      · rw [hf] at hold
        cases hold
      · exact absurd hmem hts

theorem Extends.blank (h : Extends shape m lab ts m₁ lab₁) {f : Word}
    (hf : Blank m lab f) (hts : f ∉ ts) : Blank m₁ lab₁ f where
  aligned := hf.aligned
  unlabelled := h.unlabelled hf.unlabelled hts
  zero := fun i => by rw [h.others hf.unlabelled hts]; exact hf.zero i

theorem Extends.trans (h₁ : Extends shape m lab ts m₁ lab₁)
    (h₂ : Extends shape m₁ lab₁ us m₂ lab₂) : Extends shape m lab (us ++ ts) m₂ lab₂ where
  tables := h₂.tables
  keep := fun hu => h₂.keep (h₁.keep hu)
  new := fun hu => by
    rcases h₂.new hu with h | h
    · exact (h₁.new h).imp id (List.mem_append_right _)
    · exact Or.inr (List.mem_append_left _ h)
  lookup_eq := fun hu hp => (h₂.lookup_eq (h₁.keep hu) hp).trans (h₁.lookup_eq hu hp)
  follow_eq := fun hu hp hf => h₂.follow_eq (h₁.keep hu) hp (h₁.follow_eq hu hp hf)
  others := fun hu hts => by
    rw [List.mem_append, not_or] at hts
    rw [h₂.others (h₁.unlabelled hu hts.2) hts.1, h₁.others hu hts.2]
  entry := fun u i => by
    rcases h₂.entry u i with h | h
    · rw [h]
      exact h₁.entry u i
    · exact Or.inr h

end Growth

/-! ## Flags on the way to a page -/

section Flags

variable {m : Machine} {t : Word} {i : Fin 512} {flags : Word}

/-- The entries the processor reads on its way through the tables. -/
def walkEntries (m : Machine) : Word → List (Fin 512) → List Word
  | _, [] => []
  | t, i :: q => m.mem t i :: m.walkEntries (m.mem t i &&& mask) q

theorem or_and_self (x flags : Word) : (x ||| flags) &&& flags = flags := by
  ext k hk
  simpa using fun h => Or.inr h

theorem setEntry_flagged (h : m.mem t i &&& flags = flags) (t' : Word) (i' : Fin 512)
    (x : Word) : (m.setEntry t' i' (x ||| flags)).mem t i &&& flags = flags := by
  rw [setEntry_mem, write_apply]
  split
  · exact or_and_self ..
  · exact h

theorem descend_flagged (h : m.mem t i &&& flags = flags) (t' : Word) (i' : Fin 512) :
    (m.descend t' i' flags).2.mem t i &&& flags = flags := by
  rw [descend]
  split
  · exact setEntry_flagged h ..
  · exact setEntry_flagged (m := m.getFreePage.2) h ..

theorem descend_flagged_self (m : Machine) (t : Word) (i : Fin 512) (flags : Word) :
    (m.descend t i flags).2.mem t i &&& flags = flags := by
  rw [descend, setEntry_mem, write_self]
  exact or_and_self ..

end Flags

/-! ## One level of the descent -/

section Level

variable {m : Machine} {lab : Word → Option N} {t : Word} {n : N} {i : Fin 512}
  {flags : Word}

theorem extends_rewrite (hL : Labelled entryFormat shape m.mem lab)
    (ht : lab t = some n) (hlev : 1 < shape.level n) (hp : present (m.mem t i) = true)
    (hflags : FlagWord flags) :
    Extends shape m lab [] (m.setEntry t i (m.mem t i &&& mask ||| flags)) lab := by
  have halign := aligned_and_mask (m.mem t i)
  have hframe := frame_or halign hflags.small
  have hpres := present_or halign hflags
  have hsim : Sim entryFormat m.mem
      (write m.mem t i (m.mem t i &&& mask ||| flags)) t i := by
    refine Or.inl ⟨hp, ?_, ?_⟩
    · rw [write_self]
      exact hpres
    · rw [write_self]
      exact hframe
  refine
    { tables := hL.write_same hp hframe, keep := id, new := Or.inl
      lookup_eq := fun hu hlen => lookup_write_inner hL ht hlev hsim hu hlen
      follow_eq := fun hu hlen hf => follow_write_inner hL hsim hu hlen hf
      others := fun {u} hu _ => ?_, entry := fun u j => ?_ }
  · exact write_of_frame_ne m.mem (fun heq => by rw [heq, ht] at hu; cases hu) i _
  · rw [setEntry_mem, write_apply]
    split
    · exact Or.inr hpres
    · exact Or.inl rfl

theorem extends_link (hL : Labelled entryFormat shape m.mem lab)
    (ht : lab t = some n) (hlev : 1 < shape.level n) (hp : present (m.mem t i) = false)
    {f : Word} (hf : Blank m lab f) (hflags : FlagWord flags) :
    Extends shape m lab [f] (m.setEntry t i (f ||| flags))
      (Function.update lab f (some (shape.child n i))) := by
  have hframe := frame_or hf.aligned hflags.small
  have hpres := present_or hf.aligned hflags
  have hft : f ≠ t := by
    intro heq
    have := hf.unlabelled
    rw [heq, ht] at this
    cases this
  have hsim : Sim entryFormat m.mem (write m.mem t i (f ||| flags)) t i := by
    refine Or.inr ⟨hp, fun _ j => ?_⟩
    rw [write_self, entryFormat_target, hframe, write_of_frame_ne m.mem hft]
    exact hf.zero j
  refine
    { tables := hL.write_fresh ht hf.unlabelled hf.zero hframe
      keep := fun {u k} hu => ?_, new := fun {u k} hu => ?_
      lookup_eq := fun hu hlen => lookup_write_inner hL ht hlev hsim hu hlen
      follow_eq := fun hu hlen hf => follow_write_inner hL hsim hu hlen hf
      others := fun {u} hu _ => ?_, entry := fun u j => ?_ }
  · rw [Function.update_of_ne, hu]
    intro heq
    rw [heq, hf.unlabelled] at hu
    cases hu
  · by_cases huf : u = f
    · exact Or.inr (List.mem_singleton.mpr huf)
    · rw [Function.update_of_ne huf] at hu
      exact Or.inl hu
  · exact write_of_frame_ne m.mem (fun heq => by rw [heq, ht] at hu; cases hu) i _
  · rw [setEntry_mem, write_apply]
    split
    · exact Or.inr hpres
    · exact Or.inl rfl

theorem descend_spec (hL : Labelled entryFormat shape m.mem lab)
    (ht : lab t = some n) (hlev : 1 < shape.level n) (hflags : FlagWord flags)
    (hblank : ∀ f ∈ m.taken t i, Blank m lab f) :
    ∃ lab', Extends shape m lab (m.taken t i) (m.descend t i flags).2 lab' ∧
      lab' (m.descend t i flags).1 = some (shape.child n i) ∧
      follow entryFormat (m.descend t i flags).2.mem t [i] = some (m.descend t i flags).1 := by
  have hwalk : ∀ {mem : Word → Fin 512 → Word} {f : Word}, Aligned f →
      follow entryFormat (write mem t i (f ||| flags)) t [i] = some f := by
    intro mem f hf
    have hpres : entryFormat.present (f ||| flags) = true := present_or hf hflags
    rw [follow, write_self, if_pos hpres, entryFormat_target, frame_or hf hflags.small]
    rfl
  by_cases hp : present (m.mem t i) = true
  · have hnone : m.taken t i = [] := if_pos hp
    have heq : m.descend t i flags
        = (m.mem t i &&& mask, m.setEntry t i (m.mem t i &&& mask ||| flags)) := by
      rw [descend, if_pos hp]
    rw [hnone, heq]
    exact ⟨lab, extends_rewrite hL ht hlev hp hflags, hL.edge ht hlev hp,
      hwalk (aligned_and_mask _)⟩
  · have hone : m.taken t i = [m.getFreePage.1] := if_neg hp
    have heq : m.descend t i flags
        = (m.getFreePage.1, m.getFreePage.2.setEntry t i (m.getFreePage.1 ||| flags)) := by
      rw [descend, if_neg hp]
    rw [hone] at hblank
    have hf := hblank _ (List.mem_singleton_self _)
    have hf' : Blank m.getFreePage.2 lab m.getFreePage.1 := ⟨hf.aligned, hf.unlabelled, hf.zero⟩
    have hE := extends_link (m := m.getFreePage.2) hL ht hlev (by simpa using hp) hf' hflags
    rw [hone, heq]
    refine ⟨_, ⟨hE.tables, hE.keep, hE.new, hE.lookup_eq, hE.follow_eq, hE.others,
      hE.entry⟩, Function.update_self .., hwalk hf.aligned⟩

end Level

/-! ## The whole descent, and the leaf -/

/-- The node of the page table covering `v` in the tree at node `n`. -/
def leafNode (shape : Shape N (Fin 512)) (n : N) (v : Word) : N :=
  shape.walk n [offsetPml4 v, offsetPdpe v, offsetPde v]

theorem level_leafNode {n : N} (hlev : shape.level n = 4) (v : Word) :
    shape.level (leafNode shape n v) = 1 := by
  have h := shape.level_walk (p := [offsetPml4 v, offsetPdpe v, offsetPde v]) (n := n)
    (by rw [hlev]; exact Nat.le_refl 4)
  rw [hlev] at h
  exact Nat.add_right_cancel h

theorem not_inner_leafNode {lab : Word → Option N} {n : N} {v pt : Word}
    (hlev : shape.level n = 4) (hpt : lab pt = some (leafNode shape n v)) :
    ∀ k, lab pt = some k → ¬ 1 < shape.level k := by
  intro k hk
  rw [hpt] at hk
  rw [← Option.some.inj hk, level_leafNode hlev]
  exact Nat.lt_irrefl 1

section Map

variable {m : Machine} {lab : Word → Option N} {root v p flags : Word} {n : N}
  (hL : Labelled entryFormat shape m.mem lab) (hroot : lab root = some n)
  (hlev : shape.level n = 4) (hflags : FlagWord flags) (hnodup : (m.mapTaken root v flags).Nodup)
  (hblank : ∀ f ∈ m.mapTaken root v flags, Blank m lab f)

include hL hroot hlev hflags hnodup hblank

/-- The three levels of the descent of `update_page_tables`: it only grows
the tables, and each level's link survives the writes of the deeper ones. -/
theorem mapPage_levels :
    ∃ pdpe pde pte lab₁, pdpe = m.descend root (offsetPml4 v) flags ∧
      pde = pdpe.2.descend pdpe.1 (offsetPdpe v) flags ∧
      pte = pde.2.descend pde.1 (offsetPde v) flags ∧
      Extends shape m lab (m.mapTaken root v flags) pte.2 lab₁ ∧
      lab₁ pdpe.1 = some (shape.child n (offsetPml4 v)) ∧
      lab₁ pde.1 = some (shape.child (shape.child n (offsetPml4 v)) (offsetPdpe v)) ∧
      lab₁ pte.1 = some (leafNode shape n v) ∧
      follow entryFormat pte.2.mem root [offsetPml4 v] = some pdpe.1 ∧
      follow entryFormat pte.2.mem pdpe.1 [offsetPdpe v] = some pde.1 ∧
      follow entryFormat pte.2.mem pde.1 [offsetPde v] = some pte.1 := by
  simp only [mapTaken, List.nodup_append, List.mem_append] at hnodup hblank
  obtain ⟨-, ⟨-, -, hdis₂⟩, hdis₃⟩ := hnodup
  obtain ⟨lab₄, hE₄, hl₄, hf₄⟩ := descend_spec hL hroot (by omega) hflags
    (fun f hf => hblank f (Or.inr (Or.inr hf)))
  have hlev₄ := shape.level_child n (offsetPml4 v) (by omega)
  obtain ⟨lab₃, hE₃, hl₃, hf₃⟩ := descend_spec hE₄.tables hl₄ (by omega) hflags
    (fun f hf => hE₄.blank (hblank f (Or.inr (Or.inl hf)))
      (fun hmem => hdis₂ f hf f hmem rfl))
  have hlev₃ := shape.level_child (shape.child n (offsetPml4 v)) (offsetPdpe v) (by omega)
  have hE₃₄ := hE₄.trans hE₃
  obtain ⟨lab₂, hE₂, hl₂, hf₂⟩ := descend_spec hE₃.tables hl₃ (by omega) hflags
    (fun f hf => hE₃₄.blank (hblank f (Or.inl hf))
      (fun hmem => hdis₃ f hf f (List.mem_append.mp hmem) rfl))
  have hlink₄ := (hE₃.trans hE₂).follow_eq (hE₄.keep hroot)
    (by rw [hlev]; exact Nat.le_add_left 2 2) hf₄
  have hlink₃ := hE₂.follow_eq (hE₃.keep hl₄) (by rw [List.length_singleton]; omega) hf₃
  exact ⟨_, _, _, lab₂, rfl, rfl, rfl, hE₃₄.trans hE₂, hE₂.keep (hE₃.keep hl₄), hE₂.keep hl₃,
    hl₂, hlink₄, hlink₃, hf₂⟩

theorem mapPage_descent :
    ∃ m₁ lab₁ pt, Extends shape m lab (m.mapTaken root v flags) m₁ lab₁ ∧
      lab₁ pt = some (leafNode shape n v) ∧
      follow entryFormat m₁.mem root [offsetPml4 v, offsetPdpe v, offsetPde v] = some pt ∧
      m.mapPage root v p flags = m₁.setEntry pt (offsetPte v) (p ||| flags) := by
  obtain ⟨pdpe, pde, pte, lab₁, rfl, rfl, rfl, hE, -, -, hpt, hlink₄, hlink₃, hlink₂⟩ :=
    mapPage_levels hL hroot hlev hflags hnodup hblank
  refine ⟨_, lab₁, _, hE, hpt, ?_, rfl⟩
  show follow _ _ _ ([offsetPml4 v] ++ ([offsetPdpe v] ++ [offsetPde v])) = _
  rw [follow_append, hlink₄, Option.bind_some, follow_append, hlink₃, Option.bind_some]
  exact hlink₂

/-- What mapping `v` changes: the entry for `v` is `w`, and every lookup
that does not end in that entry is as before. -/
structure Maps (shape : Shape N (Fin 512)) (m : Machine) (lab : Word → Option N)
    (root v w : Word) (n : N) (ts : List Word) (m' : Machine) (lab' : Word → Option N) :
    Prop where
  tables : Labelled entryFormat shape m'.mem lab'
  keep : ∀ {u k}, lab u = some k → lab' u = some k
  new : ∀ {u k}, lab' u = some k → lab u = some k ∨ u ∈ ts
  self : lookup entryFormat m'.mem root (path v) = w
  other : ∀ {u k q j}, lab u = some k → (q ++ [j]).length = shape.level k →
    (leafNode shape n v = shape.walk k q → j ≠ offsetPte v) →
    lookup entryFormat m'.mem u (q ++ [j]) = lookup entryFormat m.mem u (q ++ [j])
  either : ∀ {u k q j}, lab u = some k → (q ++ [j]).length = shape.level k →
    lookup entryFormat m'.mem u (q ++ [j]) = lookup entryFormat m.mem u (q ++ [j]) ∨
      lookup entryFormat m'.mem u (q ++ [j]) = w
  others : ∀ {u}, lab u = none → u ∉ ts → m'.mem u = m.mem u
  entry : ∀ u i, m'.mem u i = m.mem u i ∨ present (m'.mem u i) = true ∨ m'.mem u i = w

/-- **`update_page_tables`.** -/
theorem mapPage_spec :
    ∃ lab', Maps shape m lab root v (p ||| flags) n (m.mapTaken root v flags)
      (m.mapPage root v p flags) lab' := by
  obtain ⟨m₁, lab₁, pt, hE, hpt, hf, heq⟩ :=
    mapPage_descent (p := p) hL hroot hlev hflags hnodup hblank
  have hleaf := not_inner_leafNode hlev hpt
  rw [heq]
  refine ⟨lab₁,
    { tables := hE.tables.write_leaf _ _ hleaf, keep := hE.keep, new := hE.new
      self := ?_, other := ?_, either := ?_, others := ?_, entry := ?_ }⟩
  · exact lookup_write_leaf_self hE.tables hleaf (hE.keep hroot)
      (by rw [hlev]; exact Nat.le_refl 4) hf
  · intro u k q j hu hlen hne
    rw [← hE.lookup_eq hu hlen]
    refine lookup_write_leaf_of_ne hE.tables hleaf (hE.keep hu) hlen fun hlab => hne ?_
    exact Option.some.inj (hpt.symm.trans hlab)
  · intro u k q j hu hlen
    rw [← hE.lookup_eq hu hlen]
    exact lookup_write_leaf_or hE.tables hleaf (hE.keep hu) hlen
  · intro u hu hts
    have hne : u ≠ pt := by
      intro hupt
      rw [← hupt, hE.unlabelled hu hts] at hpt
      cases hpt
    rw [setEntry_mem, write_of_frame_ne _ hne, hE.others hu hts]
  · intro u i
    rw [setEntry_mem, write_apply]
    split
    · exact Or.inr (Or.inr rfl)
    · exact (hE.entry u i).imp id Or.inl

/-- Every entry on the way to a page that was just mapped has the flags it
was mapped with. -/
theorem mapPage_walkEntries :
    ∀ e ∈ (m.mapPage root v p flags).walkEntries root (path v), e &&& flags = flags := by
  obtain ⟨pdpe, pde, pte, lab₁, hpdpe, hpde, hpte, hE, hl₄, hl₃, hl₂, hf₄, hf₃, hf₂⟩ :=
    mapPage_levels hL hroot hlev hflags hnodup hblank
  have hmap : m.mapPage root v p flags = pte.2.setEntry pte.1 (offsetPte v) (p ||| flags) := by
    rw [hpte, hpde, hpdpe]
    rfl
  have hleaf := not_inner_leafNode hlev hl₂
  have hlev₄ := shape.level_child n (offsetPml4 v) (by omega)
  have hlev₃ := shape.level_child (shape.child n (offsetPml4 v)) (offsetPdpe v) (by omega)
  have hlink : ∀ {t u : Word} {i : Fin 512} {k : N}, lab₁ t = some k → 1 < shape.level k →
      follow entryFormat pte.2.mem t [i] = some u →
      (m.mapPage root v p flags).mem t i &&& mask = u := by
    intro t u i k ht hk hf
    have hlen : [i].length < shape.level k := hk
    rw [← follow_write_leaf (i := offsetPte v) (w := p ||| flags) hE.tables hleaf ht hlen,
      follow_singleton, Option.ite_none_right_eq_some] at hf
    rw [hmap]
    exact Option.some.inj hf.2
  have h₄ : pdpe.2.mem root (offsetPml4 v) &&& flags = flags := by
    rw [hpdpe]
    exact descend_flagged_self ..
  have h₃ : pde.2.mem pdpe.1 (offsetPdpe v) &&& flags = flags := by
    rw [hpde]
    exact descend_flagged_self ..
  have h₂ : pte.2.mem pde.1 (offsetPde v) &&& flags = flags := by
    rw [hpte]
    exact descend_flagged_self ..
  have h₄' : pte.2.mem root (offsetPml4 v) &&& flags = flags := by
    rw [hpte]
    refine descend_flagged ?_ ..
    rw [hpde]
    exact descend_flagged h₄ ..
  have h₃' : pte.2.mem pdpe.1 (offsetPdpe v) &&& flags = flags := by
    rw [hpte]
    exact descend_flagged h₃ ..
  intro e he
  rw [path, walkEntries, walkEntries, walkEntries, walkEntries, walkEntries,
    hlink (hE.keep hroot) (by omega) hf₄, hlink hl₄ (by omega) hf₃,
    hlink hl₃ (by omega) hf₂, hmap] at he
  simp only [List.mem_cons, List.not_mem_nil, or_false] at he
  rcases he with rfl | rfl | rfl | rfl
  · exact setEntry_flagged h₄' ..
  · exact setEntry_flagged h₃' ..
  · exact setEntry_flagged h₂ ..
  · rw [setEntry_mem, write_self]
    exact or_and_self ..

/-- Mapping a page moves no table that is there. -/
theorem mapPage_follow {u t : Word} {k : N} {q : List (Fin 512)} (hu : lab u = some k)
    (hlen : q.length < shape.level k) (hf : follow entryFormat m.mem u q = some t) :
    follow entryFormat (m.mapPage root v p flags).mem u q = some t := by
  obtain ⟨m₁, lab₁, pt, hE, hpt, -, heq⟩ :=
    mapPage_descent (p := p) hL hroot hlev hflags hnodup hblank
  rw [heq, setEntry_mem, follow_write_leaf hE.tables (not_inner_leafNode hlev hpt) (hE.keep hu)
    hlen]
  exact hE.follow_eq hu hlen hf

end Map

/-! ## Entries that are there already

What follows asks nothing of the tables: they may be shared, or name
themselves. -/

section Entries

variable {m : Machine} {t u root v p flags g : Word} {i j : Fin 512}

theorem nextTable_setEntry_of_ne (h : m.nextTable t i = some g) (w : Word)
    (hne : ¬ (t = u ∧ i = j)) : (m.setEntry u j w).nextTable t i = some g := by
  rw [nextTable, setEntry_mem, write_apply, if_neg hne]
  exact h

theorem nextTable_setEntry_self (hp : Aligned p) (hflags : FlagWord flags) :
    (m.setEntry t i (p ||| flags)).nextTable t i = some p := by
  have hentry : (m.setEntry t i (p ||| flags)).mem t i = p ||| flags := by
    rw [setEntry_mem, write_apply, if_pos ⟨rfl, rfl⟩]
  rw [nextTable, hentry, if_pos (present_or hp hflags), frame_or hp hflags.small]

theorem descend_fst_of_nextTable (h : m.nextTable t i = some g) (flags : Word) :
    (m.descend t i flags).1 = g := by
  rw [nextTable, Option.ite_none_right_eq_some] at h
  rw [descend, if_pos h.1]
  exact Option.some.inj h.2

theorem nextTable_descend (h : m.nextTable t i = some g) (hflags : FlagWord flags) :
    (m.descend u j flags).2.nextTable t i = some g := by
  by_cases hsame : t = u ∧ i = j
  · obtain ⟨rfl, rfl⟩ := hsame
    have hg : Aligned g := by
      rw [nextTable, Option.ite_none_right_eq_some] at h
      exact Option.some.inj h.2 ▸ aligned_and_mask _
    have hfst : (m.descend t i flags).1 = g := descend_fst_of_nextTable h flags
    rw [← hfst] at hg ⊢
    exact nextTable_setEntry_self hg hflags
  · rw [descend]
    refine nextTable_setEntry_of_ne ?_ _ hsame
    split
    · exact h
    · exact h

theorem mapPage_of_nextTable {pdpe pde pte : Word} (hflags : FlagWord flags)
    (h₁ : m.nextTable root (offsetPml4 v) = some pdpe)
    (h₂ : m.nextTable pdpe (offsetPdpe v) = some pde)
    (h₃ : m.nextTable pde (offsetPde v) = some pte) :
    ∃ m' : Machine, m.mapPage root v p flags = m'.setEntry pte (offsetPte v) (p ||| flags) ∧
      ∀ t i g, m.nextTable t i = some g → m'.nextTable t i = some g := by
  have e₁ : (m.descend root (offsetPml4 v) flags).1 = pdpe := descend_fst_of_nextTable h₁ flags
  have k₂ := nextTable_descend (u := root) (j := offsetPml4 v) h₂ hflags
  have e₂ := descend_fst_of_nextTable k₂ flags
  have k₃ := nextTable_descend (u := pdpe) (j := offsetPdpe v)
    (nextTable_descend (u := root) (j := offsetPml4 v) h₃ hflags) hflags
  have e₃ := descend_fst_of_nextTable k₃ flags
  refine ⟨_, ?_, fun t i g h =>
    nextTable_descend (u := pde) (j := offsetPde v) (nextTable_descend (u := pdpe)
      (j := offsetPdpe v) (nextTable_descend (u := root) (j := offsetPml4 v) h hflags) hflags)
      hflags⟩
  simp only [mapPage, e₁, e₂, e₃]

/-- Mapping a page keeps the target of every present entry, except where
the leaf goes. -/
theorem nextTable_mapPage (h : m.nextTable t i = some g) (hflags : FlagWord flags)
    (hne : offsetPte v ≠ i) : (m.mapPage root v p flags).nextTable t i = some g :=
  nextTable_setEntry_of_ne
    (nextTable_descend (nextTable_descend (nextTable_descend h hflags) hflags) hflags) _
    fun hc => hne hc.2.symm

end Entries

end Machine

end SnowOs
