import Mathlib.Data.List.Nodup
import SnowOs.MapPage

/-!
# The address spaces of all processes

Every process has its own tree of tables; all trees share the kernel half,
which hangs off entry 511 of each root. A node is therefore either a path
in the tree of one root or a path in the kernel half, and the shape folds
entry 511 of every root onto the same kernel node.

`Forest` is the invariant of the memory system: the tables of the given
roots are labelled and were drawn from the allocator, the free frames are
blank, and every leaf maps a frame other than frame 0 - a leaf of the user
half one that is held, neither a table nor free. Every operation draws
frames from the allocator and turns some of them into tables (`Grows`);
what it does to the leaves is stated beside it.
-/

namespace SnowOs

open Radix

/-- A table of the system: in the tree of a root, or in the kernel half. -/
inductive Node where
  | user (root : Word) (p : List (Fin 512))
  | kernel (p : List (Fin 512))
deriving DecidableEq

namespace Node

def child : Node → Fin 512 → Node
  | user r p, i => if p = [] ∧ i = 511 then kernel [511] else user r (p ++ [i])
  | kernel p, i => kernel (p ++ [i])

def level : Node → Nat
  | user _ p => 4 - p.length
  | kernel p => 4 - p.length

def shape : Shape Node (Fin 512) where
  child := child
  level := level
  level_child := fun n i h => by
    cases n with
    | user r p =>
        have hlev : 1 < 4 - p.length := h
        by_cases hp : p = [] ∧ i = 511
        · rw [child, if_pos hp, hp.1]
          rfl
        · rw [child, if_neg hp]
          simp only [level, List.length_append, List.length_singleton]
          omega
    | kernel p =>
        have hlev : 1 < 4 - p.length := h
        simp only [child, level, List.length_append, List.length_singleton]
        omega

@[simp] theorem shape_level_user (r : Word) (p : List (Fin 512)) :
    shape.level (user r p) = 4 - p.length := rfl

end Node

/-- A path that does not enter the kernel half. -/
def UserPath (q : List (Fin 512)) : Prop := q.head? ≠ some 511

instance (q : List (Fin 512)) : Decidable (UserPath q) := inferInstanceAs (Decidable (_ ≠ _))

namespace Node

theorem walk_kernel (p q : List (Fin 512)) : shape.walk (kernel p) q = kernel (p ++ q) := by
  induction q generalizing p with
  | nil => simp
  | cons i q ih =>
      rw [Shape.walk_cons]
      show shape.walk (kernel (p ++ [i])) q = _
      rw [ih, List.append_assoc, List.singleton_append]

theorem child_user {r : Word} {p : List (Fin 512)} {i : Fin 512} (h : p ≠ [] ∨ i ≠ 511) :
    shape.child (user r p) i = user r (p ++ [i]) := by
  refine if_neg fun hc => ?_
  rcases h with h | h
  · exact h hc.1
  · exact h hc.2

theorem walk_user {r : Word} {p q : List (Fin 512)} (h : p ≠ [] ∨ UserPath q) :
    shape.walk (user r p) q = user r (p ++ q) := by
  induction q generalizing p with
  | nil => simp
  | cons i q ih =>
      have hi : p ≠ [] ∨ i ≠ 511 := h.imp id fun hu hi => hu (by rw [hi]; rfl)
      rw [Shape.walk_cons, child_user hi, ih (Or.inl (by simp)), List.append_assoc,
        List.singleton_append]

theorem walk_shared (r : Word) (q : List (Fin 512)) :
    shape.walk (user r []) (511 :: q) = kernel (511 :: q) := by
  rw [Shape.walk_cons]
  show shape.walk (kernel [511]) q = _
  rw [walk_kernel, List.singleton_append]

/-- The full path of a user leaf names its root and its indices. -/
theorem walk_inj_user {r s : Word} {q q' : List (Fin 512)} (hq : UserPath q)
    (h : shape.walk (user r []) q = shape.walk (user s []) q') : r = s ∧ q = q' := by
  rw [walk_user (Or.inr hq), List.nil_append] at h
  cases q' with
  | nil =>
      simp only [Shape.walk_nil, user.injEq] at h
      exact h
  | cons i q' =>
      by_cases hi : i = 511
      · rw [hi, walk_shared] at h
        cases h
      · have hu : UserPath (i :: q') := fun hc => hi (Option.some.inj hc)
        rw [walk_user (Or.inr hu), List.nil_append] at h
        simp only [user.injEq] at h
        exact h

/-- A leaf's node names the indices that lead to it. -/
theorem walk_inj {r s : Word} {q q' : List (Fin 512)} (hq : q ≠ []) (hq' : q' ≠ [])
    (h : shape.walk (user r []) q = shape.walk (user s []) q') : q = q' := by
  by_cases hu : UserPath q
  · exact (walk_inj_user hu h).2
  by_cases hu' : UserPath q'
  · exact (walk_inj_user hu' h.symm).2.symm
  obtain ⟨i, p, rfl⟩ := List.exists_cons_of_ne_nil hq
  obtain ⟨j, p', rfl⟩ := List.exists_cons_of_ne_nil hq'
  have hi : i = 511 := Option.some.inj (not_not.mp hu)
  have hj : j = 511 := Option.some.inj (not_not.mp hu')
  rw [hi, hj, walk_shared, walk_shared] at h
  rw [hi, hj]
  exact kernel.inj h

end Node

namespace Machine

abbrev entryAt (m : Machine) (r : Word) (q : List (Fin 512)) : Word :=
  lookup entryFormat m.mem r q

theorem leaf_eq_entryAt (m : Machine) (r v : Word) : m.leaf r v = m.entryAt r (path v) :=
  leaf_eq_lookup m r v

theorem length_path (v : Word) : (path v).length = 4 := rfl

/-! ## Free frames and held frames -/

/-- The allocator's frames: listed, blank and other than frame 0. -/
structure Pool (m : Machine) (lab : Word → Option Node) (l : List Nat) : Prop where
  counted : m.phys.Counted l
  blank : ∀ n ∈ l, m.Blank lab (pageAddress n)
  positive : ∀ n ∈ l, 0 < n

/-- A frame in use that is not a table. -/
structure Held (lab : Word → Option Node) (l : List Nat) (f : Word) : Prop where
  aligned : Aligned f
  nonzero : f ≠ 0
  unlabelled : lab f = none
  notFree : ∀ n ∈ l, f ≠ pageAddress n

/-- What drawing `ts` leaves of the list. -/
structure Drawn (m : Machine) (lab : Word → Option Node) (l : List Nat) (ts : List Word)
    (m' : Machine) (l' : List Nat) : Prop where
  counted : m'.phys.Counted l'
  sub : ∀ n ∈ l', n ∈ l
  apart : ∀ n ∈ l', pageAddress n ∉ ts
  nodup : ts.Nodup
  blank : ∀ f ∈ ts, m.Blank lab f
  taken : ∀ f ∈ ts, ∃ n ∈ l, f = pageAddress n

/-- Distinct frames that can serve as empty tables. -/
structure Usable (m : Machine) (lab : Word → Option Node) (ts : List Word) : Prop where
  nodup : ts.Nodup
  blank : ∀ f ∈ ts, m.Blank lab f

theorem Drawn.usable {m m' : Machine} {lab : Word → Option Node} {l l' : List Nat}
    {ts : List Word} (h : Drawn m lab l ts m' l') : Usable m lab ts :=
  ⟨h.nodup, h.blank⟩

theorem Pool.draws {m m' : Machine} {lab : Word → Option Node} {l : List Nat}
    {ts : List Word} (h : Pool m lab l) (hd : m.Draws ts m') (hlog : (0 : Word) ∉ m'.log) :
    ∃ l', Drawn m lab l ts m' l' := by
  obtain ⟨ns, l', rfl, hc, hts⟩ := h.counted.draw hd.phys
  rw [hd.log, List.mem_append, not_or] at hlog
  obtain rfl := hts hlog.1
  have hbound := h.counted.bounded
  have hnodup := h.counted.list.nodup
  obtain ⟨hns, -, hdisj⟩ := List.nodup_append.mp hnodup
  refine ⟨l', hc, fun n hn => List.mem_append_right _ hn, fun n hn hmem => ?_, ?_, ?_, ?_⟩
  · rw [List.mem_reverse, List.mem_map] at hmem
    obtain ⟨k, hk, heq⟩ := hmem
    have hkn := pageAddress_inj (hbound k (List.mem_append_left _ hk))
      (hbound n (List.mem_append_right _ hn)) heq
    exact hdisj k hk n hn hkn
  · rw [List.nodup_reverse]
    refine hns.map_on fun a ha b hb heq => ?_
    exact pageAddress_inj (hbound a (List.mem_append_left _ ha))
      (hbound b (List.mem_append_left _ hb)) heq
  · intro f hf
    rw [List.mem_reverse, List.mem_map] at hf
    obtain ⟨n, hn, rfl⟩ := hf
    exact h.blank n (List.mem_append_left _ hn)
  · intro f hf
    rw [List.mem_reverse, List.mem_map] at hf
    obtain ⟨n, hn, rfl⟩ := hf
    exact ⟨n, List.mem_append_left _ hn, rfl⟩

/-! ## Growth -/

/-- Frames `ts` are drawn and some of them become tables; what is neither a
table nor drawn keeps its contents. -/
structure Grows (m : Machine) (lab : Word → Option Node) (ts : List Word)
    (m' : Machine) (lab' : Word → Option Node) : Prop where
  draws : m.Draws ts m'
  tables : Labelled entryFormat Node.shape m'.mem lab'
  keep : ∀ {u n}, lab u = some n → lab' u = some n
  new : ∀ {u n}, lab' u = some n → lab u = some n ∨ u ∈ ts
  others : ∀ {u}, lab u = none → u ∉ ts → m'.mem u = m.mem u

section Growth

variable {m m' m₁ m₂ : Machine} {lab lab' lab₁ lab₂ : Word → Option Node}
  {l l' : List Nat} {ts us : List Word} {f : Word}

theorem Grows.unlabelled (h : Grows m lab ts m' lab') (hf : lab f = none) (hts : f ∉ ts) :
    lab' f = none := by
  cases hlab : lab' f with
  | none => rfl
  | some n =>
      rcases h.new hlab with hold | hmem
      · rw [hf] at hold
        cases hold
      · exact absurd hmem hts

theorem Grows.drawn (h : Grows m lab ts m' lab') (hlog : ∀ {u n}, lab u = some n → u ∈ m.log)
    {u : Word} {n : Node} (hu : lab' u = some n) : u ∈ m'.log := by
  rw [h.draws.log, List.mem_append]
  exact (h.new hu).symm.imp id hlog

theorem Grows.trans (h₁ : Grows m lab ts m₁ lab₁) (h₂ : Grows m₁ lab₁ us m₂ lab₂) :
    Grows m lab (us ++ ts) m₂ lab₂ where
  draws := h₁.draws.trans h₂.draws
  tables := h₂.tables
  keep := fun hu => h₂.keep (h₁.keep hu)
  new := fun hu => by
    rcases h₂.new hu with h | h
    · exact (h₁.new h).imp id (List.mem_append_right _)
    · exact Or.inr (List.mem_append_left _ h)
  others := fun hu hts => by
    rw [List.mem_append, not_or] at hts
    rw [h₂.others (h₁.unlabelled hu hts.2) hts.1, h₁.others hu hts.2]

theorem Usable.first (h : Usable m lab (us ++ ts)) : Usable m lab ts :=
  ⟨(List.nodup_append.mp h.nodup).2.1, fun f hf => h.blank f (List.mem_append_right _ hf)⟩

/-- Growth into the first frames leaves the later ones as they were. -/
theorem Usable.grows (h : Usable m lab (us ++ ts)) (hg : Grows m lab ts m' lab') :
    Usable m' lab' us := by
  obtain ⟨hus, -, hdisj⟩ := List.nodup_append.mp h.nodup
  refine ⟨hus, fun f hf => ?_⟩
  have hb := h.blank f (List.mem_append_left _ hf)
  have hts : f ∉ ts := fun hmem => hdisj f hf f hmem rfl
  refine ⟨hb.aligned, hg.unlabelled hb.unlabelled hts, fun i => ?_⟩
  rw [hg.others hb.unlabelled hts]
  exact hb.zero i

theorem Pool.grows (h : Pool m lab l) (hg : Grows m lab ts m' lab')
    (hd : Drawn m lab l ts m' l') : Pool m' lab' l' where
  counted := hd.counted
  blank := fun n hn => by
    have hb := h.blank n (hd.sub n hn)
    have hts := hd.apart n hn
    refine ⟨hb.aligned, hg.unlabelled hb.unlabelled hts, fun i => ?_⟩
    rw [hg.others hb.unlabelled hts]
    exact hb.zero i
  positive := fun n hn => h.positive n (hd.sub n hn)

theorem Held.notMem (h : Held lab l f) (hd : Drawn m lab l ts m' l') : f ∉ ts := by
  intro hf
  obtain ⟨n, hn, heq⟩ := hd.taken f hf
  exact h.notFree n hn heq

theorem Held.grows (h : Held lab l f) (hg : Grows m lab ts m' lab')
    (hd : Drawn m lab l ts m' l') : Held lab' l' f where
  aligned := h.aligned
  nonzero := h.nonzero
  unlabelled := hg.unlabelled h.unlabelled (h.notMem hd)
  notFree := fun n hn => h.notFree n (hd.sub n hn)

end Growth

/-! ## The invariant -/

/-- A leaf entry: empty, or present and naming a frame other than frame 0,
which in the user half is held. -/
def LeafOk (lab : Word → Option Node) (l : List Nat) (q : List (Fin 512)) (e : Word) : Prop :=
  e = 0 ∨ present e = true ∧ e &&& mask ≠ 0 ∧ (UserPath q → Held lab l (e &&& mask))

/-- The memory system with the address spaces at `roots`. -/
structure Forest (roots : List Word) (m : Machine) (lab : Word → Option Node)
    (l : List Nat) : Prop where
  pool : Pool m lab l
  tables : Labelled entryFormat Node.shape m.mem lab
  root : ∀ r ∈ roots, lab r = some (.user r [])
  current : m.cr3 ∈ roots
  zero : lab 0 = none
  drawn : ∀ {u n}, lab u = some n → u ∈ m.log
  leaf : ∀ r ∈ roots, ∀ q, q.length = 4 → LeafOk lab l q (m.entryAt r q)

section Invariant

variable {m m' : Machine} {lab lab' : Word → Option Node} {l l' : List Nat}
  {ts roots : List Word} {q : List (Fin 512)} {e f r v flags : Word}

theorem LeafOk.grows (h : LeafOk lab l q e) (hg : Grows m lab ts m' lab')
    (hd : Drawn m lab l ts m' l') : LeafOk lab' l' q e :=
  h.imp id fun ⟨hp, hne, hheld⟩ => ⟨hp, hne, fun hq => (hheld hq).grows hg hd⟩

theorem Forest.mono (h : Forest roots m lab l) {roots' : List Word} (hsub : roots' ⊆ roots)
    (hcur : m.cr3 ∈ roots') : Forest roots' m lab l :=
  { h with
    root := fun r hr => h.root r (hsub hr)
    current := hcur
    leaf := fun r hr => h.leaf r (hsub hr) }

/-- A frame that may be mapped at `v`: other than frame 0, and held if `v`
lies in the user half. -/
structure Mappable (lab : Word → Option Node) (l : List Nat) (v f : Word) : Prop where
  aligned : Aligned f
  nonzero : f ≠ 0
  held : UserPath (path v) → Held lab l f

theorem Held.mappable (h : Held lab l f) (v : Word) : Mappable lab l v f :=
  ⟨h.aligned, h.nonzero, fun _ => h⟩

theorem Mappable.grows (h : Mappable lab l v f) (hg : Grows m lab ts m' lab')
    (hd : Drawn m lab l ts m' l') : Mappable lab' l' v f :=
  ⟨h.aligned, h.nonzero, fun hv => (h.held hv).grows hg hd⟩

theorem Mappable.leafOk (h : Mappable lab l v f) (hflags : FlagWord flags)
    (hq : UserPath q → UserPath (path v)) : LeafOk lab l q (f ||| flags) := by
  have hframe := frame_or h.aligned hflags.small
  refine Or.inr ⟨present_or h.aligned hflags, ?_, fun hu => ?_⟩
  · rw [hframe]
    exact h.nonzero
  · rw [hframe]
    exact h.held (hq hu)

theorem Forest.leafAt (h : Forest roots m lab l) (hr : r ∈ roots) (v : Word) :
    LeafOk lab l (path v) (m.leaf r v) := by
  rw [leaf_eq_entryAt]
  exact h.leaf r hr (path v) (length_path v)

theorem Pool.zero_notMem (h : Pool m lab l) (hd : Drawn m lab l ts m' l') :
    (0 : Word) ∉ ts := by
  intro hf
  obtain ⟨n, hn, heq⟩ := hd.taken 0 hf
  exact pageAddress_ne_zero (h.counted.bounded n hn) (h.positive n hn) heq.symm

theorem Forest.grow (h : Forest roots m lab l) (hg : Grows m lab ts m' lab')
    (hd : Drawn m lab l ts m' l') (hcr3 : m'.cr3 = m.cr3)
    (hleaf : ∀ r ∈ roots, ∀ q, q.length = 4 → LeafOk lab' l' q (m'.entryAt r q)) :
    Forest roots m' lab' l' where
  pool := h.pool.grows hg hd
  tables := hg.tables
  root := fun r hr => hg.keep (h.root r hr)
  current := hcr3 ▸ h.current
  zero := hg.unlabelled h.zero (h.pool.zero_notMem hd)
  drawn := hg.drawn h.drawn
  leaf := hleaf

theorem Forest.setNewCr3 (h : Forest roots m lab l) (hr : r ∈ roots) :
    Forest roots (m.setNewCr3 r) lab l :=
  ⟨⟨h.pool.counted, fun n hn => ⟨(h.pool.blank n hn).aligned, (h.pool.blank n hn).unlabelled,
    (h.pool.blank n hn).zero⟩, h.pool.positive⟩, h.tables, h.root, hr, h.zero, h.drawn,
    h.leaf⟩

/-! ## One empty root -/

def rootLabel (root : Word) : Word → Option Node :=
  Function.update (fun _ => none) root (some (.user root []))

theorem rootLabel_of_ne {root u : Word} (h : u ≠ root) : rootLabel root u = none :=
  Function.update_of_ne h ..

theorem rootLabel_some {root u : Word} {n : Node} (h : rootLabel root u = some n) : u = root := by
  by_contra hne
  rw [rootLabel_of_ne hne] at h
  cases h

theorem forest_root (hc : m.phys.Counted l) (hpos : ∀ n ∈ l, 0 < n)
    (hfree : ∀ n ∈ l, pageAddress n ≠ m.cr3 ∧ ∀ i, m.mem (pageAddress n) i = 0)
    (hroot : ∀ i, m.mem m.cr3 i = 0) (hne : m.cr3 ≠ 0) (hlog : m.cr3 ∈ m.log) :
    Forest [m.cr3] m (rootLabel m.cr3) l where
  pool :=
    { counted := hc
      blank := fun n hn => ⟨aligned_pageAddress (hc.bounded n hn), rootLabel_of_ne (hfree n hn).1,
        (hfree n hn).2⟩
      positive := hpos }
  tables := ⟨fun {t n i} ht _ hp => by
    have hempty : entryFormat.present (m.mem t i) = false := by
      rw [rootLabel_some ht, hroot]
      exact entryFormat.absent_empty
    rw [hempty] at hp
    cases hp⟩
  root := fun r hr => by
    rw [List.mem_singleton.mp hr]
    exact Function.update_self ..
  current := List.mem_singleton_self _
  zero := rootLabel_of_ne hne.symm
  drawn := fun hu => by
    rw [rootLabel_some hu]
    exact hlog
  leaf := fun r hr q _ => by
    rw [List.mem_singleton.mp hr]
    exact Or.inl (lookup_of_empty hroot q)

/-! ## Writing to a held frame -/

/-- Leaves depend on the tables only. -/
theorem entryAt_congr (h : Labelled entryFormat Node.shape m.mem lab)
    (hmem : ∀ {u k}, lab u = some k → m'.mem u = m.mem u) {k : Node}
    (hr : lab r = some k) (hq : q.length = Node.shape.level k) :
    m'.entryAt r q = m.entryAt r q :=
  lookup_congr h hr hq (fun _ _ _ _ _ _ hu => sim_of_eq (congrFun (hmem hu) _))
    (fun _ _ _ _ hu => congrFun (hmem hu) _)

theorem Forest.entryAt_congr (h : Forest roots m lab l)
    (hmem : ∀ {u k}, lab u = some k → m'.mem u = m.mem u) (hr : r ∈ roots)
    (hq : q.length = 4) : m'.entryAt r q = m.entryAt r q :=
  Machine.entryAt_congr h.tables hmem (h.root r hr) hq

theorem Forest.setHeld (h : Forest roots m lab l) (hf : Held lab l f)
    (hmem : ∀ u, u ≠ f → m'.mem u = m.mem u) (hphys : m'.phys = m.phys)
    (hcr3 : m'.cr3 = m.cr3) (hlog : m'.log = m.log) : Forest roots m' lab l := by
  have htab : ∀ {u k}, lab u = some k → m'.mem u = m.mem u := by
    intro u k hu
    refine hmem u fun heq => ?_
    rw [heq, hf.unlabelled] at hu
    cases hu
  refine ⟨⟨?_, fun n hn => ?_, h.pool.positive⟩, ⟨fun {t k i} ht hlev hp => ?_⟩, h.root, ?_,
    h.zero, hlog ▸ h.drawn, fun r hr q hq => ?_⟩
  · rw [hphys]
    exact h.pool.counted
  · have hb := h.pool.blank n hn
    refine ⟨hb.aligned, hb.unlabelled, fun i => ?_⟩
    rw [hmem _ fun heq => hf.notFree n hn heq.symm]
    exact hb.zero i
  · rw [htab ht] at hp ⊢
    exact h.tables.edge ht hlev hp
  · rw [hcr3]
    exact h.current
  · rw [h.entryAt_congr htab hr hq]
    exact h.leaf r hr q hq

/-! ## Drawing a frame for data -/

theorem grows_getFreePage (h : Labelled entryFormat Node.shape m.mem lab) :
    Grows m lab [m.getFreePage.1] m.getFreePage.2 lab where
  draws := getFreePage_draws m
  tables := h
  keep := id
  new := Or.inl
  others := fun _ _ => rfl

theorem Forest.getFreePage (h : Forest roots m lab l)
    (hlog : (0 : Word) ∉ m.getFreePage.2.log) :
    ∃ l', Forest roots m.getFreePage.2 lab l' ∧
      Drawn m lab l [m.getFreePage.1] m.getFreePage.2 l' ∧ Held lab l' m.getFreePage.1 := by
  obtain ⟨l', hd⟩ := h.pool.draws (getFreePage_draws m) hlog
  have hg := grows_getFreePage h.tables
  have hb := hd.blank _ (List.mem_singleton_self _)
  refine ⟨l', h.grow hg hd rfl fun r hr q hq => (h.leaf r hr q hq).grows hg hd, hd, ?_⟩
  refine ⟨hb.aligned, fun heq => ?_, hb.unlabelled, fun n hn heq => ?_⟩
  · rw [getFreePage_log, heq] at hlog
    exact hlog (List.mem_cons_self ..)
  · exact hd.apart n hn (List.mem_singleton.mpr heq.symm)

/-! ## Mapping a frame -/

theorem exists_concat {q : List (Fin 512)} (h : q.length = 4) : ∃ q' j, q = q' ++ [j] := by
  rcases List.eq_nil_or_concat q with rfl | ⟨q', j, rfl⟩
  · cases h
  · exact ⟨q', j, List.concat_eq_append ..⟩

theorem walk_concat (n : Node) (q : List (Fin 512)) (j : Fin 512) :
    Node.shape.walk n (q ++ [j]) = Node.shape.child (Node.shape.walk n q) j := by
  simp [Shape.walk]

/-- What `update_page_tables(v, _, _)` does to the address spaces: the leaf
for `v` in the current one is `w`; a mapping of the user half is seen
nowhere else, one of the kernel half in no user half. -/
structure Mapped (roots : List Word) (m : Machine) (lab : Word → Option Node) (l : List Nat)
    (v w : Word) (ts : List Word) (m' : Machine) (lab' : Word → Option Node)
    (l' : List Nat) : Prop where
  forest : Forest roots m' lab' l'
  grows : Grows m lab ts m' lab'
  drawn : Drawn m lab l ts m' l'
  cr3 : m'.cr3 = m.cr3
  self : m'.entryAt m.cr3 (path v) = w
  other : ∀ r ∈ roots, ∀ q, q.length = 4 → UserPath q ∨ UserPath (path v) →
    ¬ (r = m.cr3 ∧ q = path v) → m'.entryAt r q = m.entryAt r q
  ref : ∀ g, Aligned g → g ∉ ts → m'.ref g = m.ref g

theorem Forest.updatePageTables (h : Forest roots m lab l) (hf : Mappable lab l v f)
    (hflags : FlagWord flags) (hlog : (0 : Word) ∉ (m.updatePageTables v f flags).log) :
    ∃ lab' l', Mapped roots m lab l v (f ||| flags) (m.mapTaken m.cr3 v flags)
      (m.updatePageTables v f flags) lab' l' := by
  have hdraws := mapPage_draws m m.cr3 v f flags
  obtain ⟨l', hd⟩ := h.pool.draws hdraws hlog
  have hroot := h.root _ h.current
  obtain ⟨lab', hM⟩ := mapPage_spec (p := f) h.tables hroot rfl hflags hd.nodup hd.blank
  have hg : Grows m lab (m.mapTaken m.cr3 v flags) (m.updatePageTables v f flags) lab' :=
    ⟨hdraws, hM.tables, hM.keep, hM.new, hM.others⟩
  have hmem : (m.updatePageTables v f flags).mem = (m.mapPage m.cr3 v f flags).mem := rfl
  have hother : ∀ r ∈ roots, ∀ q, q.length = 4 → UserPath q ∨ UserPath (path v) →
      ¬ (r = m.cr3 ∧ q = path v) →
      (m.updatePageTables v f flags).entryAt r q = m.entryAt r q := by
    intro r hr q hq huser hne
    obtain ⟨q', j, rfl⟩ := exists_concat hq
    refine hM.other (h.root r hr) hq fun hnode hj => hne ?_
    have hwalk : Node.shape.walk (.user m.cr3 []) (path v)
        = Node.shape.walk (.user r []) (q' ++ [j]) := by
      rw [walk_concat, ← hnode, hj]
      rfl
    rcases huser with hu | hu
    · obtain ⟨hr', hq'⟩ := Node.walk_inj_user hu hwalk.symm
      exact ⟨hr', hq'⟩
    · obtain ⟨hr', hq'⟩ := Node.walk_inj_user hu hwalk
      exact ⟨hr'.symm, hq'.symm⟩
  refine ⟨lab', l', ⟨h.grow hg hd (mapPage_cr3 ..) ?_, hg, hd, mapPage_cr3 .., hM.self, hother,
    fun g hg hts => ?_⟩⟩
  · intro r hr q hq
    by_cases hcross : UserPath q ∧ ¬ UserPath (path v)
    · rw [hother r hr q hq (Or.inl hcross.1) fun hc => hcross.2 (hc.2 ▸ hcross.1)]
      exact (h.leaf r hr q hq).grows hg hd
    · rw [not_and, not_not] at hcross
      obtain ⟨q', j, rfl⟩ := exists_concat hq
      rcases hM.either (h.root r hr) hq with heq | heq
      · rw [entryAt, hmem, heq]
        exact (h.leaf r hr _ hq).grows hg hd
      · rw [entryAt, hmem, heq]
        exact (hf.grows hg hd).leafOk hflags hcross
  · refine mapPage_ref fun t ht heq => hts ?_
    rw [pageNumber_inj hg (hd.blank t ht).aligned heq]
    exact ht

/-- The paths that see the new entry, and the tables that stay where they
are. -/
theorem Forest.updatePageTables_paths (h : Forest roots m lab l) (hflags : FlagWord flags)
    (hlog : (0 : Word) ∉ (m.updatePageTables v f flags).log) (hr : r ∈ roots) :
    (∀ q, q.length = 4 → (m.updatePageTables v f flags).entryAt r q = m.entryAt r q ∨
        q = path v ∧ (m.updatePageTables v f flags).entryAt r q = f ||| flags) ∧
      ∀ {q t}, q.length < 4 → follow entryFormat m.mem r q = some t →
        follow entryFormat (m.updatePageTables v f flags).mem r q = some t := by
  obtain ⟨l', hd⟩ := h.pool.draws (mapPage_draws m m.cr3 v f flags) hlog
  have hroot := h.root _ h.current
  obtain ⟨lab', hM⟩ := mapPage_spec (p := f) h.tables hroot rfl hflags hd.nodup hd.blank
  refine ⟨fun q hq => ?_, fun hq hf =>
    mapPage_follow h.tables hroot rfl hflags hd.nodup hd.blank (h.root r hr) hq hf⟩
  by_cases hpath : q = path v
  · obtain ⟨q', j, rfl⟩ := exists_concat hq
    exact (hM.either (h.root r hr) hq).imp id fun heq => ⟨hpath, heq⟩
  · refine Or.inl ?_
    obtain ⟨q', j, rfl⟩ := exists_concat hq
    refine hM.other (h.root r hr) hq fun hnode hj => hpath ?_
    have hwalk : Node.shape.walk (.user r []) (q' ++ [j])
        = Node.shape.walk (.user m.cr3 []) (path v) := by
      rw [walk_concat, ← hnode, hj]
      rfl
    exact Node.walk_inj (by simp) (by simp [path]) hwalk

/-! ## Held frames stay as they are -/

/-- Frames in use are neither taken, nor written, nor recounted. -/
structure Keeps (m : Machine) (lab : Word → Option Node) (l : List Nat)
    (m' : Machine) (lab' : Word → Option Node) (l' : List Nat) : Prop where
  held : ∀ {g}, Held lab l g → Held lab' l' g
  mem : ∀ {g}, Held lab l g → m'.mem g = m.mem g
  ref : ∀ {g}, Held lab l g → m'.ref g = m.ref g

theorem Keeps.refl (m : Machine) (lab : Word → Option Node) (l : List Nat) :
    Keeps m lab l m lab l := ⟨id, fun _ => rfl, fun _ => rfl⟩

theorem Keeps.trans {m₁ m₂ : Machine} {lab₁ lab₂ : Word → Option Node} {l₁ l₂ : List Nat}
    (h₁ : Keeps m lab l m₁ lab₁ l₁) (h₂ : Keeps m₁ lab₁ l₁ m₂ lab₂ l₂) :
    Keeps m lab l m₂ lab₂ l₂ where
  held := fun hg => h₂.held (h₁.held hg)
  mem := fun hg => (h₂.mem (h₁.held hg)).trans (h₁.mem hg)
  ref := fun hg => (h₂.ref (h₁.held hg)).trans (h₁.ref hg)

theorem Grows.keeps (hg : Grows m lab ts m' lab') (hd : Drawn m lab l ts m' l')
    (href : ∀ g, Aligned g → g ∉ ts → m'.ref g = m.ref g) : Keeps m lab l m' lab' l' where
  held := fun hf => hf.grows hg hd
  mem := fun hf => hg.others hf.unlabelled (hf.notMem hd)
  ref := fun hf => href _ hf.aligned (hf.notMem hd)

/-! ## Mapping a fresh frame -/

/-- `update_page_tables(v, get_free_page(), flags)`. -/
def mapFresh (m : Machine) (v flags : Word) : Machine :=
  m.getFreePage.2.updatePageTables v m.getFreePage.1 flags

/-- What mapping a fresh frame at `v` does. -/
structure MapsFresh (roots : List Word) (m : Machine) (lab : Word → Option Node)
    (l : List Nat) (v flags : Word) (m' : Machine) (lab' : Word → Option Node)
    (l' : List Nat) : Prop where
  forest : Forest roots m' lab' l'
  keeps : Keeps m lab l m' lab' l'
  cr3 : m'.cr3 = m.cr3
  fresh : Held lab' l' m.getFreePage.1
  low : m.getFreePage.1.toNat < maxPages * 4096
  distinct : ∀ {g}, Held lab l g → g ≠ m.getFreePage.1
  ref : m'.ref m.getFreePage.1 = 1
  zero : ∀ i, m'.mem m.getFreePage.1 i = 0
  self : m'.entryAt m.cr3 (path v) = m.getFreePage.1 ||| flags
  other : ∀ r ∈ roots, ∀ q, q.length = 4 → UserPath q ∨ UserPath (path v) →
    ¬ (r = m.cr3 ∧ q = path v) → m'.entryAt r q = m.entryAt r q

theorem mapFresh_drawn_suffix (m : Machine) (v flags : Word) :
    m.getFreePage.2.log <:+ (m.mapFresh v flags).log :=
  ⟨_, (mapPage_draws ..).log.symm⟩

theorem mapFresh_log_suffix (m : Machine) (v flags : Word) :
    m.log <:+ (m.mapFresh v flags).log :=
  (List.suffix_cons ..).trans (mapFresh_drawn_suffix m v flags)

theorem Forest.mapFresh (h : Forest roots m lab l) (hflags : FlagWord flags)
    (hlog : (0 : Word) ∉ (m.mapFresh v flags).log) :
    ∃ lab' l', MapsFresh roots m lab l v flags (m.mapFresh v flags) lab' l' := by
  have hlog₁ : (0 : Word) ∉ m.getFreePage.2.log :=
    fun hmem => hlog ((mapFresh_drawn_suffix ..).subset hmem)
  obtain ⟨l₁, h₁, hd₁, hheld⟩ := h.getFreePage hlog₁
  obtain ⟨lab', l', hM⟩ := h₁.updatePageTables (hheld.mappable v) hflags hlog
  have hdistinct : ∀ {g}, Held lab l g → g ≠ m.getFreePage.1 :=
    fun hg heq => hg.notMem hd₁ (List.mem_singleton.mpr heq)
  have hkeeps₁ : Keeps m lab l m.getFreePage.2 lab l₁ := by
    refine (grows_getFreePage h.tables).keeps hd₁ fun g hg hts => ?_
    refine PhysMem.getFreePage_getPageRefCount fun heq => hts (List.mem_singleton.mpr ?_)
    exact pageNumber_inj hg hheld.aligned heq
  have hkeeps₂ := hM.grows.keeps hM.drawn hM.ref
  refine ⟨lab', l', ⟨hM.forest, hkeeps₁.trans hkeeps₂, hM.cr3, hkeeps₂.held hheld, ?_, hdistinct,
    ?_, fun i => ?_, hM.self, hM.other⟩⟩
  · obtain ⟨n, hn, heq⟩ := hd₁.taken _ (List.mem_singleton_self _)
    have hbound := h.pool.counted.bounded n hn
    rw [heq, pageAddress_toNat hbound]
    omega
  · rw [Machine.mapFresh, hkeeps₂.ref hheld]
    exact PhysMem.getFreePage_getPageRefCount_self hheld.nonzero
  · rw [Machine.mapFresh, hkeeps₂.mem hheld]
    exact (hd₁.blank _ (List.mem_singleton_self _)).zero i

/-! ## The kernel heap -/

/-- A stretch of kernel work no user half can see. -/
structure Quiet (roots : List Word) (m : Machine) (lab : Word → Option Node) (l : List Nat)
    (m' : Machine) (lab' : Word → Option Node) (l' : List Nat) : Prop where
  forest : Forest roots m' lab' l'
  keeps : Keeps m lab l m' lab' l'
  cr3 : m'.cr3 = m.cr3
  user : ∀ r ∈ roots, ∀ q, q.length = 4 → UserPath q → m'.entryAt r q = m.entryAt r q

theorem Quiet.refl (h : Forest roots m lab l) : Quiet roots m lab l m lab l :=
  ⟨h, .refl .., rfl, fun _ _ _ _ _ => rfl⟩

theorem Quiet.trans {m₁ m₂ : Machine} {lab₁ lab₂ : Word → Option Node} {l₁ l₂ : List Nat}
    (h₁ : Quiet roots m lab l m₁ lab₁ l₁) (h₂ : Quiet roots m₁ lab₁ l₁ m₂ lab₂ l₂) :
    Quiet roots m lab l m₂ lab₂ l₂ where
  forest := h₂.forest
  keeps := h₁.keeps.trans h₂.keeps
  cr3 := h₂.cr3.trans h₁.cr3
  user := fun r hr q hq hu => (h₂.user r hr q hq hu).trans (h₁.user r hr q hq hu)

theorem MapsFresh.quiet (h : MapsFresh roots m lab l v flags m' lab' l')
    (hv : ¬ UserPath (path v)) : Quiet roots m lab l m' lab' l' where
  forest := h.forest
  keeps := h.keeps
  cr3 := h.cr3
  user := fun r hr q hq hu => by
    refine h.other r hr q hq (Or.inl hu) fun hc => hv ?_
    rw [← hc.2]
    exact hu

/-- One round of `kmalloc`'s loop maps a fresh frame. -/
theorem kmallocPage_snd (r : Word × Machine) (i : Nat) :
    (kmallocPage r i).2 = r.2.mapFresh (kernelVirtualBase
      + (kmallocPage r i).1 + BitVec.ofNat 64 (i * 4096)) kernelRwFlags := rfl

/-- Addresses of the kernel heap lie in the kernel half: the frames are few
enough for `kernel_virtual_base` plus an offset not to wrap. -/
theorem not_userPath_kernel {a : Word} {i : Nat} (ha : a.toNat < maxPages * 4096)
    (hi : i < maxPages) :
    ¬ UserPath (path (kernelVirtualBase + a + BitVec.ofNat 64 (i * 4096))) := by
  have hbase : kernelVirtualBase.toNat = 0xffffffff80000000 := rfl
  have hpml4 : offsetPml4 (kernelVirtualBase + a + BitVec.ofNat 64 (i * 4096)) = 511 := by
    apply Fin.ext
    rw [offsetPml4, offset_val, BitVec.toNat_add, BitVec.toNat_add, BitVec.toNat_ofNat, hbase]
    rw [maxPages] at ha hi
    show _ = 511
    omega
  intro hu
  exact hu (by rw [path, hpml4]; rfl)

theorem userPath_of_lt {v : Word} (h : v.toNat < 2 ^ 47) : UserPath (path v) := by
  intro hc
  have hindex : offsetPml4 v = 511 := Option.some.inj hc
  have hval := congrArg Fin.val hindex
  rw [offsetPml4, offset_val] at hval
  have : (511 : Fin 512).val = 511 := rfl
  omega

theorem kmallocPages_log_suffix (is : List Nat) (r : Word × Machine) :
    r.2.log <:+ (is.foldl kmallocPage r).2.log := by
  induction is generalizing r with
  | nil => exact List.suffix_refl _
  | cons i is ih =>
      refine .trans ?_ (ih (kmallocPage r i))
      rw [kmallocPage_snd]
      exact mapFresh_log_suffix ..

/-- The rounds of `kmalloc`, which are quiet as long as the block does not
run past the end of the address space. -/
theorem Forest.kmallocPages : ∀ {is : List Nat} {r : Word × Machine}
    {lab : Word → Option Node} {l : List Nat}, Forest roots r.2 lab l →
    (0 : Word) ∉ (is.foldl kmallocPage r).2.log →
    ∃ lab' l', Forest roots (is.foldl kmallocPage r).2 lab' l' ∧
      ((∀ i ∈ is, i < maxPages) → r.1.toNat < maxPages * 4096 →
        Quiet roots r.2 lab l (is.foldl kmallocPage r).2 lab' l')
  | [], r, lab, l, h, _ => ⟨lab, l, h, fun _ _ => .refl h⟩
  | i :: is, r, lab, l, h, hlog => by
      rw [List.foldl_cons] at hlog ⊢
      have hlog₁ : (0 : Word) ∉ (kmallocPage r i).2.log :=
        fun hmem => hlog ((kmallocPages_log_suffix is _).subset hmem)
      rw [kmallocPage_snd] at hlog₁
      obtain ⟨lab₁, l₁, h₁⟩ := h.mapFresh kernelRwFlags_flagWord hlog₁
      rw [← kmallocPage_snd] at h₁
      obtain ⟨lab', l', h', hq⟩ := h₁.forest.kmallocPages hlog
      refine ⟨lab', l', h', fun his hlow => ?_⟩
      have hlow₁ : (kmallocPage r i).1.toNat < maxPages * 4096 := by
        show (if i = 0 then r.2.getFreePage.1 else r.1).toNat < maxPages * 4096
        split
        · exact h₁.low
        · exact hlow
      have hkernel := not_userPath_kernel hlow₁ (his i (List.mem_cons_self ..))
      exact (h₁.quiet hkernel).trans
        (hq (fun j hj => his j (List.mem_cons_of_mem _ hj)) hlow₁)

theorem kmalloc_log_suffix (m : Machine) (n : BitVec 32) : m.log <:+ (m.kmalloc n).2.log :=
  kmallocPages_log_suffix _ (0, m)

theorem Forest.kmalloc (h : Forest roots m lab l) {n : BitVec 32}
    (hlog : (0 : Word) ∉ (m.kmalloc n).2.log) :
    ∃ lab' l', Forest roots (m.kmalloc n).2 lab' l' ∧
      (noOfPages n ≤ maxPages → Quiet roots m lab l (m.kmalloc n).2 lab' l') := by
  obtain ⟨lab', l', h', hq⟩ := Forest.kmallocPages (r := (0, m)) h hlog
  refine ⟨lab', l', h', fun hn => hq (fun i hi => ?_) (show 0 < maxPages * 4096 by decide)⟩
  exact Nat.lt_of_lt_of_le (List.mem_range.mp hi) hn

theorem kmalloc_onePage (m : Machine) {n : BitVec 32} (hn : noOfPages n = 1) :
    m.kmalloc n = (kernelVirtualBase + m.getFreePage.1,
      m.mapFresh (kernelVirtualBase + m.getFreePage.1) kernelRwFlags) := by
  have hrange : List.range (noOfPages n) = [0] := by
    rw [hn]
    rfl
  have hzero : BitVec.ofNat 64 (0 * 4096) = 0#64 := rfl
  rw [kmalloc, hrange, List.foldl_cons, List.foldl_nil, kmallocPage_snd, hzero,
    BitVec.add_zero]
  rfl

theorem kmalloc_page (m : Machine) :
    m.kmalloc 4096 = (kernelVirtualBase + m.getFreePage.1,
      m.mapFresh (kernelVirtualBase + m.getFreePage.1) kernelRwFlags) :=
  m.kmalloc_onePage rfl

end Invariant

end Machine

end SnowOs
