import Mathlib.Data.List.Nodup
import SnowOs.MapPage

/-!
# Page tables refine a map

The tables under CR3 are a radix tree: every table frame stands for one
path of indices. Over a run of `update_page_tables` and
`remove_page_table_mapping` the tree grows by the frames drawn from the
allocator, and the entry found for an address is the one written by the
last operation on its page number - the tables are a map from page
numbers to entries, and the four separately written descents agree on
it.

The labelling needed by `mapPage_spec` is read off the tree itself
(`treeLabel`): the label of a table frame is the path that leads to it,
which is unique exactly because no table is reachable twice.
-/

namespace SnowOs

open Radix

namespace Machine

/-! ## The shape of the tables -/

def IsTable (m : Machine) (t : Word) : Prop :=
  ∃ p : List (Fin 512), p.length ≤ 3 ∧ follow entryFormat m.mem m.cr3 p = some t

/-- No table frame is reachable twice, and every entry of a table is zero
or present. -/
structure TableTree (m : Machine) : Prop where
  once : ∀ {p q : List (Fin 512)} {t : Word}, p.length ≤ 3 → q.length ≤ 3 →
    follow entryFormat m.mem m.cr3 p = some t →
    follow entryFormat m.mem m.cr3 q = some t → p = q
  entries : ∀ t, m.IsTable t → ∀ i, m.mem t i = 0 ∨ present (m.mem t i) = true

/-- No leaf maps a table frame. -/
def LeavesApart (m : Machine) : Prop :=
  ∀ v, present (m.leaf m.cr3 v) = true → ¬ m.IsTable (m.walkPageTable v)

/-- Nodes are paths from the root. -/
def pathShape : Shape (List (Fin 512)) (Fin 512) where
  child := fun p i => p ++ [i]
  level := fun p => 4 - p.length
  level_child := fun p i h => by
    rw [List.length_append, List.length_singleton]
    omega

theorem pathShape_walk (p q : List (Fin 512)) : pathShape.walk p q = p ++ q := by
  induction q generalizing p with
  | nil => simp
  | cons i q ih =>
      rw [Shape.walk_cons, ih]
      simp [pathShape]

open Classical in
/-- The path that leads to a table frame. -/
noncomputable def treeLabel (m : Machine) (t : Word) : Option (List (Fin 512)) :=
  if h : m.IsTable t then some h.choose else none

theorem treeLabel_spec {m : Machine} {t : Word} {p : List (Fin 512)}
    (h : m.treeLabel t = some p) :
    p.length ≤ 3 ∧ follow entryFormat m.mem m.cr3 p = some t := by
  unfold treeLabel at h
  split at h
  · rename_i hex
    obtain rfl := Option.some.inj h
    exact hex.choose_spec
  · cases h

theorem TableTree.treeLabel_eq {m : Machine} (h : m.TableTree) {t : Word}
    {p : List (Fin 512)} (hp : p.length ≤ 3)
    (hf : follow entryFormat m.mem m.cr3 p = some t) : m.treeLabel t = some p := by
  have hex : m.IsTable t := ⟨p, hp, hf⟩
  rw [treeLabel, dif_pos hex, Option.some.injEq]
  exact h.once hex.choose_spec.1 hp hex.choose_spec.2 hf

theorem treeLabel_eq_none {m : Machine} {t : Word} (h : ¬ m.IsTable t) :
    m.treeLabel t = none := by
  rw [treeLabel, dif_neg h]

/-! ## The invariant of a run -/

/-- The tables under CR3, labelled by their paths. -/
structure Tree (m : Machine) (lab : Word → Option (List (Fin 512))) : Prop where
  tables : Labelled entryFormat pathShape m.mem lab
  root : lab m.cr3 = some []
  entries : ∀ {t p}, lab t = some p → ∀ i, m.mem t i = 0 ∨ present (m.mem t i) = true

theorem TableTree.tree {m : Machine} (h : m.TableTree) : m.Tree m.treeLabel where
  tables := by
    refine ⟨fun {t p i} hlab hlev hpres => ?_⟩
    obtain ⟨hlen, hf⟩ := treeLabel_spec hlab
    have hlev' : 1 < 4 - p.length := hlev
    refine h.treeLabel_eq (p := p ++ [i]) ?_ ?_
    · rw [List.length_append, List.length_singleton]
      omega
    · rw [follow_append, hf, Option.bind_some, follow, if_pos hpres]
      rfl
  root := h.treeLabel_eq (Nat.zero_le _) rfl
  entries := fun hlab => h.entries _ ⟨_, (treeLabel_spec hlab)⟩

theorem Tree.follow_label {m : Machine} {lab : Word → Option (List (Fin 512))}
    (h : m.Tree lab) {p : List (Fin 512)} {t : Word} (hp : p.length ≤ 3)
    (hf : follow entryFormat m.mem m.cr3 p = some t) : lab t = some p := by
  have hlab := h.tables.follow_label h.root (Nat.lt_succ_of_le hp) hf
  rwa [pathShape_walk] at hlab

theorem Tree.tableTree {m : Machine} {lab : Word → Option (List (Fin 512))}
    (h : m.Tree lab) : m.TableTree where
  once := fun hp hq hf hg =>
    Option.some.inj ((h.follow_label hp hf).symm.trans (h.follow_label hq hg))
  entries := fun _ ⟨_, hp, hf⟩ i => h.entries (h.follow_label hp hf) i

theorem leafNode_pathShape (v : Word) :
    leafNode pathShape [] v = [offsetPml4 v, offsetPdpe v, offsetPde v] := rfl

/-- `path v` splits into the node of its page table and its last index. -/
theorem path_ne_of_pageIndex_ne {v v' : Word} (h : pageIndex v' ≠ pageIndex v)
    (hnode : leafNode pathShape [] v
      = pathShape.walk [] [offsetPml4 v', offsetPdpe v', offsetPde v']) :
    offsetPte v' ≠ offsetPte v := by
  intro hpte
  refine h ((path_eq_iff v' v).mp ?_)
  rw [leafNode_pathShape, pathShape_walk, List.nil_append] at hnode
  simp only [List.cons.injEq, and_true] at hnode
  simp only [path, hnode, hpte]

/-! ## Operations -/

/-- An operation on the tables under CR3. -/
inductive MapOp where
  | update (virtAddr physicalAddr flags : Word)
  | remove (virtAddr : Word)

namespace MapOp

def addr : MapOp → Word
  | update v _ _ => v
  | remove v => v

def entry : MapOp → Word
  | update _ p flags => p ||| flags
  | remove _ => 0

def run (m : Machine) : MapOp → Machine
  | update v p flags => m.updatePageTables v p flags
  | remove v => m.removePageTableMapping v

/-- Arguments as the callers pass them: a page-aligned frame, a flag word
below `0x1000` with the present bit. -/
def Valid : MapOp → Prop
  | update _ p flags => Aligned p ∧ FlagWord flags
  | remove _ => True

/-- The frames the operation draws, newest first. -/
def taken (m : Machine) : MapOp → List Word
  | update v _ flags => m.mapTaken m.cr3 v flags
  | remove _ => []

end MapOp

theorem removePageTableMapping_draws (m : Machine) (v : Word) :
    m.Draws [] (m.removePageTableMapping v) := by
  unfold removePageTableMapping
  split
  · exact (Draws.refl m).setEntry ..
  · exact Draws.refl m

theorem MapOp.run_draws (m : Machine) (op : MapOp) : m.Draws (op.taken m) (op.run m) := by
  cases op with
  | update v p flags => exact mapPage_draws ..
  | remove v => exact removePageTableMapping_draws m v

/-- One operation: the tree keeps its tables, gains only frames drawn, and
changes one entry. -/
structure Stepped (m : Machine) (lab : Word → Option (List (Fin 512))) (op : MapOp)
    (m' : Machine) (lab' : Word → Option (List (Fin 512))) : Prop where
  tree : m'.Tree lab'
  cr3 : m'.cr3 = m.cr3
  keep : ∀ {u p}, lab u = some p → lab' u = some p
  new : ∀ {u p}, lab' u = some p → lab u = some p ∨ u ∈ op.taken m
  leaf : ∀ v, m'.leaf m'.cr3 v
    = if pageIndex v = pageIndex op.addr then op.entry else m.leaf m.cr3 v
  others : ∀ {u}, lab u = none → u ∉ op.taken m → m'.mem u = m.mem u

theorem Stepped.blank {m m' : Machine} {lab lab' : Word → Option (List (Fin 512))}
    {op : MapOp} (h : Stepped m lab op m' lab') {f : Word} (hf : Blank m lab f)
    (hts : f ∉ op.taken m) : Blank m' lab' f where
  aligned := hf.aligned
  unlabelled := by
    cases hlab : lab' f with
    | none => rfl
    | some p =>
        rcases h.new hlab with hold | hmem
        · rw [hf.unlabelled] at hold
          cases hold
        · exact absurd hmem hts
  zero := fun i => by rw [h.others hf.unlabelled hts]; exact hf.zero i

theorem Tree.update {m : Machine} {lab : Word → Option (List (Fin 512))} (h : m.Tree lab)
    {v p flags : Word} (hp : Aligned p) (hflags : FlagWord flags)
    (hnodup : (m.mapTaken m.cr3 v flags).Nodup)
    (hblank : ∀ f ∈ m.mapTaken m.cr3 v flags, Blank m lab f) :
    ∃ lab', Stepped m lab (.update v p flags) (m.updatePageTables v p flags) lab' := by
  obtain ⟨lab', hM⟩ := mapPage_spec (p := p) h.tables h.root rfl hflags hnodup hblank
  refine ⟨lab', ⟨⟨hM.tables, ?_, ?_⟩, mapPage_cr3 .., hM.keep, hM.new, ?_, hM.others⟩⟩
  · rw [updatePageTables_cr3]
    exact hM.keep h.root
  · intro t q hlab i
    rcases hM.entry t i with hsame | hpres | hw
    · rw [show (m.updatePageTables v p flags).mem t i = m.mem t i from hsame]
      rcases hM.new hlab with hold | hnew
      · exact h.entries hold i
      · exact Or.inl ((hblank t hnew).zero i)
    · exact Or.inr hpres
    · refine Or.inr ?_
      rw [show (m.updatePageTables v p flags).mem t i = p ||| flags from hw]
      exact present_or hp hflags
  · intro v'
    rw [updatePageTables_cr3, leaf_eq_lookup, leaf_eq_lookup]
    by_cases hv : pageIndex v' = pageIndex v
    · refine Eq.trans ?_ (if_pos hv).symm
      rw [(path_eq_iff v' v).mpr hv]
      exact hM.self
    · refine Eq.trans ?_ (if_neg hv).symm
      exact hM.other h.root rfl (path_ne_of_pageIndex_ne hv)

theorem Tree.remove {m : Machine} {lab : Word → Option (List (Fin 512))} (h : m.Tree lab)
    (v : Word) : ∃ lab', Stepped m lab (.remove v) (m.removePageTableMapping v) lab' := by
  cases hpt : m.pageTable m.cr3 v with
  | none =>
      have heq : m.removePageTableMapping v = m := by rw [removePageTableMapping, hpt]
      rw [heq]
      refine ⟨lab, ⟨h, rfl, id, Or.inl, fun v' => ?_, fun _ _ => rfl⟩⟩
      by_cases hv : pageIndex v' = pageIndex v
      · refine Eq.trans ?_ (if_pos hv).symm
        rw [leaf_eq_lookup, (path_eq_iff v' v).mpr hv, ← leaf_eq_lookup, leaf, hpt]
        rfl
      · exact (if_neg hv).symm
  | some pt =>
      have heq : m.removePageTableMapping v = m.setEntry pt (offsetPte v) 0 := by
        rw [removePageTableMapping, hpt]
      have hf := hpt
      rw [pageTable_eq_follow] at hf
      have hlab := h.follow_label (by simp) hf
      have hleaf : ∀ k, lab pt = some k → ¬ 1 < pathShape.level k := by
        intro k hk
        rw [hlab] at hk
        rw [← Option.some.inj hk]
        exact Nat.lt_irrefl 1
      rw [heq]
      refine ⟨lab, ⟨⟨h.tables.write_leaf _ _ hleaf, h.root, ?_⟩, rfl, id, Or.inl, ?_, ?_⟩⟩
      · intro t p ht i
        rw [setEntry_mem, write_apply]
        split
        · exact Or.inl rfl
        · exact h.entries ht i
      · intro v'
        rw [leaf_eq_lookup, leaf_eq_lookup]
        by_cases hv : pageIndex v' = pageIndex v
        · refine Eq.trans ?_ (if_pos hv).symm
          rw [(path_eq_iff v' v).mpr hv]
          have hlen : [offsetPml4 v, offsetPdpe v, offsetPde v].length < 4 := by simp
          exact lookup_write_leaf_self h.tables hleaf h.root hlen hf
        · refine Eq.trans ?_ (if_neg hv).symm
          refine lookup_write_leaf_of_ne (j := offsetPte v')
            (q := [offsetPml4 v', offsetPdpe v', offsetPde v']) h.tables hleaf h.root rfl
            fun hnode => ?_
          rw [hlab] at hnode
          exact path_ne_of_pageIndex_ne hv (Option.some.inj hnode)
      · intro u hu _
        have hne : u ≠ pt := by
          intro hupt
          rw [hupt, hlab] at hu
          cases hu
        rw [setEntry_mem, write_of_frame_ne _ hne]

theorem Tree.step {m : Machine} {lab : Word → Option (List (Fin 512))} (h : m.Tree lab)
    {op : MapOp} (hop : op.Valid) (hnodup : (op.taken m).Nodup)
    (hblank : ∀ f ∈ op.taken m, Blank m lab f) : ∃ lab', Stepped m lab op (op.run m) lab' := by
  cases op with
  | update v p flags => exact h.update hop.1 hop.2 hnodup hblank
  | remove v => exact h.remove v

/-! ## Runs -/

def runOps (m : Machine) (ops : List MapOp) : Machine := ops.foldl MapOp.run m

/-- The last operation on the page of `v`. -/
def lastOn (ops : List MapOp) (v : Word) : Option MapOp :=
  ops.reverse.find? fun op => pageIndex v = pageIndex op.addr

theorem lastOn_cons (op : MapOp) (ops : List MapOp) (v : Word) :
    lastOn (op :: ops) v
      = (lastOn ops v).or (if pageIndex v = pageIndex op.addr then some op else none) := by
  unfold lastOn
  rw [List.reverse_cons, List.find?_append]
  congr 1
  by_cases hv : pageIndex v = pageIndex op.addr <;> simp [hv]

def runTaken (m : Machine) : List MapOp → List Word
  | [] => []
  | op :: ops => (op.run m).runTaken ops ++ op.taken m

theorem runOps_draws : ∀ (m : Machine) (ops : List MapOp),
    m.Draws (m.runTaken ops) (m.runOps ops)
  | m, [] => Draws.refl m
  | m, op :: ops => (MapOp.run_draws m op).trans (runOps_draws (op.run m) ops)

/-- The frames drawn are not yet part of the tree, zeroed and distinct. -/
structure Supply (m : Machine) (lab : Word → Option (List (Fin 512))) (ts : List Word) :
    Prop where
  nodup : ts.Nodup
  blank : ∀ f ∈ ts, Blank m lab f

/-- A whole run: as `Stepped`, with the entry of a page given by the last
operation on it. -/
structure Ran (m : Machine) (lab : Word → Option (List (Fin 512))) (ops : List MapOp)
    (m' : Machine) (lab' : Word → Option (List (Fin 512))) : Prop where
  tree : m'.Tree lab'
  cr3 : m'.cr3 = m.cr3
  new : ∀ {u p}, lab' u = some p → lab u = some p ∨ u ∈ m.runTaken ops
  leaf : ∀ v, m'.leaf m'.cr3 v = ((lastOn ops v).map MapOp.entry).getD (m.leaf m.cr3 v)

theorem Tree.run : ∀ {ops : List MapOp} {m : Machine}
    {lab : Word → Option (List (Fin 512))}, m.Tree lab → (∀ op ∈ ops, op.Valid) →
    Supply m lab (m.runTaken ops) → ∃ lab', Ran m lab ops (m.runOps ops) lab'
  | [], m, lab, h, _, _ => ⟨lab, h, rfl, Or.inl, fun _ => rfl⟩
  | op :: ops, m, lab, h, hops, hs => by
      obtain ⟨hop, hops⟩ := List.forall_mem_cons.mp hops
      obtain ⟨hnd, hnd₁, hdisj⟩ := List.nodup_append.mp hs.nodup
      have hblank₁ : ∀ f ∈ op.taken m, Blank m lab f :=
        fun f hf => hs.blank f (List.mem_append_right _ hf)
      obtain ⟨lab₁, h₁⟩ := h.step hop hnd₁ hblank₁
      have hs₁ : Supply (op.run m) lab₁ ((op.run m).runTaken ops) :=
        ⟨hnd, fun f hf => h₁.blank (hs.blank f (List.mem_append_left _ hf))
          fun hmem => hdisj f hf f hmem rfl⟩
      obtain ⟨lab', hR⟩ := h₁.tree.run hops hs₁
      refine ⟨lab', hR.tree, hR.cr3.trans h₁.cr3, fun hlab => ?_, fun v => ?_⟩
      · rcases hR.new hlab with hmid | hmem
        · rcases h₁.new hmid with hold | hmem
          · exact Or.inl hold
          · exact Or.inr (List.mem_append_right _ hmem)
        · exact Or.inr (List.mem_append_left _ hmem)
      · refine (hR.leaf v).trans ?_
        rw [h₁.leaf, lastOn_cons]
        cases lastOn ops v with
        | none => split <;> rfl
        | some last => rfl

/-! ## The tables are a map -/

/-- What `walk_page_table` and `get_flags` answer for `v` in `m'`, given
the last operation on its page since `m`. -/
def Answers (m m' : Machine) (v : Word) : Option MapOp → Prop
  | some (.update _ p flags) => m'.walkPageTable v = p ∧ m'.getFlags v = flags
  | some (.remove _) => m'.walkPageTable v = 0 ∧ m'.getFlags v = 0
  | none => m'.walkPageTable v = m.walkPageTable v ∧ m'.getFlags v = m.getFlags v

theorem lastOn_mem {ops : List MapOp} {v : Word} {op : MapOp} (h : lastOn ops v = some op) :
    op ∈ ops :=
  List.mem_reverse.mp (List.mem_of_find?_eq_some h)

theorem Ran.answers {m m' : Machine} {lab lab' : Word → Option (List (Fin 512))}
    {ops : List MapOp} (h : Ran m lab ops m' lab') (hops : ∀ op ∈ ops, op.Valid) (v : Word) :
    Answers m m' v (lastOn ops v) := by
  have hleaf := h.leaf v
  cases hlast : lastOn ops v with
  | none =>
      rw [hlast] at hleaf
      exact ⟨by rw [walkPageTable_eq, walkPageTable_eq, hleaf]; rfl,
        by rw [getFlags_eq, getFlags_eq, hleaf]; rfl⟩
  | some op =>
      rw [hlast] at hleaf
      cases op with
      | update a p flags =>
          have hvalid : Aligned p ∧ FlagWord flags := hops _ (lastOn_mem hlast)
          have hleaf' : m'.leaf m'.cr3 v = p ||| flags := hleaf
          exact ⟨by rw [walkPageTable_eq, hleaf', frame_or hvalid.1 hvalid.2.small],
            by rw [getFlags_eq, hleaf', flags_or hvalid.1 hvalid.2.small]⟩
      | remove a =>
          have hleaf' : m'.leaf m'.cr3 v = 0 := hleaf
          exact ⟨by rw [walkPageTable_eq, hleaf']; rfl, by rw [getFlags_eq, hleaf']; rfl⟩

/-- What is asked of the frames a run draws: distinct, zeroed, and neither
tables nor mapped by the tables at the start. -/
structure FreshFrames (m : Machine) (ts : List Word) : Prop where
  nodup : ts.Nodup
  aligned : ∀ f ∈ ts, Aligned f
  zero : ∀ f ∈ ts, ∀ i, m.mem f i = 0
  notTable : ∀ f ∈ ts, ¬ m.IsTable f
  notMapped : ∀ f ∈ ts, ∀ v, present (m.leaf m.cr3 v) = true → m.walkPageTable v ≠ f

theorem FreshFrames.supply {m : Machine} {ts : List Word} (h : FreshFrames m ts) :
    Supply m m.treeLabel ts where
  nodup := h.nodup
  blank := fun f hf =>
    ⟨h.aligned f hf, treeLabel_eq_none (h.notTable f hf), h.zero f hf⟩

theorem Ran.isTable {m m' : Machine} {lab' : Word → Option (List (Fin 512))}
    {ops : List MapOp} (h : Ran m m.treeLabel ops m' lab') {t : Word} (ht : m'.IsTable t) :
    m.IsTable t ∨ t ∈ m.runTaken ops := by
  obtain ⟨p, hp, hf⟩ := ht
  rcases h.new (h.tree.follow_label hp hf) with hold | hnew
  · exact Or.inl ⟨p, treeLabel_spec hold⟩
  · exact Or.inr hnew

theorem Ran.leavesApart {m m' : Machine} {lab' : Word → Option (List (Fin 512))}
    {ops : List MapOp} (h : Ran m m.treeLabel ops m' lab') (hops : ∀ op ∈ ops, op.Valid)
    (hapart : m.LeavesApart) (hfresh : FreshFrames m (m.runTaken ops))
    (hp : ∀ v p flags, MapOp.update v p flags ∈ ops → ¬ m'.IsTable p) : m'.LeavesApart := by
  intro v hpres htab
  have hans := h.answers hops v
  have hleaf := h.leaf v
  cases hlast : lastOn ops v with
  | none =>
      rw [hlast] at hans hleaf
      rw [hans.1] at htab
      rw [hleaf] at hpres
      rcases h.isTable htab with hold | hnew
      · exact hapart v hpres hold
      · exact hfresh.notMapped _ hnew v hpres rfl
  | some op =>
      cases op with
      | update a p flags =>
          rw [hlast] at hans
          rw [hans.1] at htab
          exact hp a p flags (lastOn_mem hlast) htab
      | remove a =>
          rw [hlast] at hleaf
          rw [hleaf] at hpres
          exact absurd hpres (by decide : ¬ present 0 = true)

/-- Over any run of `update_page_tables` and `remove_page_table_mapping`
the tables stay a tree and answer every address by the last operation on
its page. That no leaf maps a table needs the frames passed to
`update_page_tables` not to be tables themselves. -/
theorem runOps_refines_map {m : Machine} {ops : List MapOp} {ts : List Word}
    (htree : m.TableTree) (hapart : m.LeavesApart) (hops : ∀ op ∈ ops, op.Valid)
    (hlog : (m.runOps ops).log = ts ++ m.log) (hfresh : FreshFrames m ts) :
    (m.runOps ops).TableTree
      ∧ ((∀ v p flags, MapOp.update v p flags ∈ ops → ¬ (m.runOps ops).IsTable p) →
          (m.runOps ops).LeavesApart)
      ∧ ∀ v, Answers m (m.runOps ops) v (lastOn ops v) := by
  obtain rfl : ts = m.runTaken ops := by
    rw [(runOps_draws m ops).log] at hlog
    exact (List.append_cancel_right hlog).symm
  obtain ⟨lab', hR⟩ := htree.tree.run hops hfresh.supply
  exact ⟨hR.tree.tableTree, hR.leavesApart hops hapart hfresh, hR.answers hops⟩

/-- Empty tables rooted at `0x1000`, with the frames from `physfree` up to
`last` free. -/
def blankMachine (physfree last : Word) : Machine where
  phys := PhysMem.initPhysicalMemory physfree 0 last
  mem := fun _ _ => 0
  cr3 := 0x1000
  log := []

theorem blankMachine_follow {a b t : Word} {p : List (Fin 512)}
    (h : follow entryFormat (blankMachine a b).mem 0x1000 p = some t) :
    p = [] ∧ t = 0x1000 := by
  cases p with
  | nil => exact ⟨rfl, (Option.some.inj h).symm⟩
  | cons i p =>
      have habsent : ¬ entryFormat.present ((blankMachine a b).mem 0x1000 i) = true :=
        Bool.eq_false_iff.mp entryFormat.absent_empty
      rw [follow, if_neg habsent] at h
      cases h

theorem blankMachine_leaf (a b v : Word) :
    ¬ present ((blankMachine a b).leaf 0x1000 v) = true := by
  have hzero : ∀ i, (blankMachine a b).mem 0x1000 i = entryFormat.empty := fun _ => rfl
  rw [leaf_eq_lookup, lookup_of_empty hzero]
  decide

theorem blankMachine_tableTree (a b : Word) : (blankMachine a b).TableTree where
  once := fun _ _ hf hg => (blankMachine_follow hf).1.trans (blankMachine_follow hg).1.symm
  entries := fun _ _ _ => Or.inl rfl

theorem blankMachine_leavesApart (a b : Word) : (blankMachine a b).LeavesApart :=
  fun v hpres => absurd hpres (blankMachine_leaf a b v)

theorem blankMachine_freshFrames {a b : Word} {ts : List Word} (hnodup : ts.Nodup)
    (haligned : ∀ f ∈ ts, Aligned f) (hroot : (0x1000 : Word) ∉ ts) :
    FreshFrames (blankMachine a b) ts where
  nodup := hnodup
  aligned := haligned
  zero := fun _ _ _ => rfl
  notTable := fun _ hf ⟨_, _, ht⟩ => hroot ((blankMachine_follow ht).2 ▸ hf)
  notMapped := fun _ _ v hpres => absurd hpres (blankMachine_leaf a b v)

theorem runOps_refines_map_two :
    ((blankMachine 0x2000 0x20000).runOps
        [.update 0x5000 0x9000 7, .remove 0x6000]).walkPageTable 0x5123 = 0x9000
      ∧ ((blankMachine 0x2000 0x20000).runOps
        [.update 0x5000 0x9000 7, .remove 0x6000]).getFlags 0x5123 = 7 := by
  have hvalid : ∀ op ∈ [MapOp.update 0x5000 0x9000 7, .remove 0x6000], op.Valid :=
    List.forall_mem_cons.mpr ⟨⟨rfl, userRwFlags_flagWord⟩, by simp [MapOp.Valid]⟩
  have hlog : ((blankMachine 0x2000 0x20000).runOps
      [.update 0x5000 0x9000 7, .remove 0x6000]).log = [0x4000, 0x3000, 0x2000] ++ [] := by
    decide +kernel
  have hfresh : FreshFrames (blankMachine 0x2000 0x20000) [0x4000, 0x3000, 0x2000] :=
    blankMachine_freshFrames (by decide) (by simp [Aligned]) (by decide)
  have hrun := runOps_refines_map (blankMachine_tableTree _ _) (blankMachine_leavesApart _ _)
    hvalid hlog hfresh
  have hlast : lastOn [.update 0x5000 0x9000 7, .remove 0x6000] 0x5123
      = some (.update 0x5000 0x9000 7) := by rfl
  have hans := hrun.2.2 0x5123
  rw [hlast] at hans
  exact hans

/-- The frame passed may itself be a table: mapping the root table at
address 0 gives a leaf on a table frame. -/
theorem updatePageTables_maps_table :
    (blankMachine 0x2000 0x20000).TableTree ∧ (blankMachine 0x2000 0x20000).LeavesApart
      ∧ (MapOp.update 0 0x1000 7).Valid
      ∧ ((blankMachine 0x2000 0x20000).runOps [.update 0 0x1000 7]).log
          = [0x4000, 0x3000, 0x2000]
      ∧ FreshFrames (blankMachine 0x2000 0x20000) [0x4000, 0x3000, 0x2000]
      ∧ ¬ ((blankMachine 0x2000 0x20000).runOps [.update 0 0x1000 7]).LeavesApart := by
  refine ⟨blankMachine_tableTree _ _, blankMachine_leavesApart _ _,
    ⟨rfl, userRwFlags_flagWord⟩, by decide +kernel,
    blankMachine_freshFrames (by decide) (by simp [Aligned]) (by decide), fun h => ?_⟩
  have hpres : present (((blankMachine 0x2000 0x20000).runOps [.update 0 0x1000 7]).leaf
      ((blankMachine 0x2000 0x20000).runOps [.update 0 0x1000 7]).cr3 0) = true := by
    decide +kernel
  have hwalk : ((blankMachine 0x2000 0x20000).runOps [.update 0 0x1000 7]).walkPageTable 0
      = 0x1000 := by decide +kernel
  refine h 0 hpres ?_
  rw [hwalk]
  exact ⟨[], Nat.zero_le 3, rfl⟩

end Machine

end SnowOs
