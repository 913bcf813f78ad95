import SnowOs.ForkRuns

/-!
# `cow_page_tables` clones the user half

What the pass does to any tree of user tables, whatever hangs off entry
511 of the root: the loops never look at that entry, so it may be taken
out before the pass and put back behind it (`cowTable_shareKernel`), and
what is left is a tree that can be labelled (`userLabel`).

`ParentTree` and `NewFrames` are what the pass needs, `Clones` is what
it does (`cowPageTables_clones`). In the states of the memory system both
hold (`Forest.parentTree`, `Forest.newFrames`).
-/

namespace SnowOs

open Radix

namespace Machine

/-! ## The user tables -/

/-- `t` is the table that the indices `p` lead to in the user half of the
tree at `root`; the root is one of them. -/
structure UserTable (m : Machine) (root : Word) (p : List (Fin 512)) (t : Word) : Prop where
  user : UserPath p
  short : p.length < 4
  follow : Radix.follow entryFormat m.mem root p = some t

/-- The user half of the current address space is a tree, and its leaf
entries are zero or present. -/
structure ParentTree (m : Machine) : Prop where
  tree : ∀ {p q t}, m.UserTable m.cr3 p t → m.UserTable m.cr3 q t → p = q
  leaf : ∀ q, q.length = 4 → UserPath q →
    m.entryAt m.cr3 q = 0 ∨ present (m.entryAt m.cr3 q) = true

/-- The frames `ts` are distinct, zeroed and not in the user half of the
current address space, neither as a table nor under a leaf. -/
structure NewFrames (m : Machine) (ts : List Word) : Prop where
  nodup : ts.Nodup
  zero : ∀ f ∈ ts, ∀ i, m.mem f i = 0
  noTable : ∀ f ∈ ts, ∀ p, ¬ m.UserTable m.cr3 p f
  noLeaf : ∀ f ∈ ts, ∀ q, q.length = 4 → UserPath q →
    present (m.entryAt m.cr3 q) = true → m.entryAt m.cr3 q &&& mask ≠ f

/-- The tree at `c` is a copy-on-write clone of the current one. -/
structure Clones (m : Machine) (c : Word) (m' : Machine) : Prop where
  cr3 : m'.cr3 = m.cr3
  leaf : ∀ v, UserPath (path v) → m'.leaf c v = m'.leaf m.cr3 v
  frame : ∀ v, UserPath (path v) → m'.leaf m.cr3 v &&& mask = m.leaf m.cr3 v &&& mask
  readOnly : ∀ v, UserPath (path v) → present (m'.leaf m.cr3 v) = true →
    m'.leaf m.cr3 v &&& ~~~turnOffRw = 0
  marked : ∀ v, UserPath (path v) → present (m'.leaf m.cr3 v) = true →
    m'.leaf m.cr3 v &&& cowFlag = cowFlag
  flags : ∀ v, UserPath (path v) → m'.leaf m.cr3 v &&& (turnOffRw &&& ~~~cowFlag)
    = m.leaf m.cr3 v &&& (turnOffRw &&& ~~~cowFlag)
  shared : m'.mem c 511 = m.mem m.cr3 511 ∧ m'.mem m.cr3 511 = m.mem m.cr3 511
  apart : ∀ {p q t}, m'.UserTable m.cr3 p t → ¬ m'.UserTable c q t
  ref : ∀ v, UserPath (path v) → present (m.leaf m.cr3 v) = true →
    m.ref (m.leaf m.cr3 v &&& mask) = 1 → m'.ref (m.leaf m.cr3 v &&& mask) = 2

/-! ## Reading along user paths -/

section Reading

variable {m m' : Machine} {lab : Word → Option Node} {r : Word} {p q : List (Fin 512)}

def AgreesBelow (lab : Word → Option Node) (r : Word) (m m' : Machine) : Prop :=
  ∀ u q i, lab u = some (.user r q) → q ≠ [] ∨ i ≠ 511 → m'.mem u i = m.mem u i

theorem AgreesBelow.along (h : AgreesBelow lab r m m') (hp : UserPath p) :
    ∀ q i s, p = q ++ i :: s → ∀ u, lab u = some (Node.shape.walk (.user r []) q) →
      m'.mem u i = m.mem u i := by
  rintro q i s rfl u hu
  have hq : UserPath q ∧ (q ≠ [] ∨ i ≠ 511) := by
    cases q with
    | nil => exact ⟨fun hc => (by cases hc), Or.inr fun hi => hp (by rw [hi]; rfl)⟩
    | cons j q => exact ⟨hp, Or.inl (List.cons_ne_nil j q)⟩
  rw [Node.walk_user (Or.inr hq.1)] at hu
  exact h u q i hu hq.2

theorem AgreesBelow.entryAt (h : AgreesBelow lab r m m')
    (htab : Labelled entryFormat Node.shape m.mem lab) (hr : lab r = some (.user r []))
    (hlen : q.length = 4) (hq : UserPath q) : m'.entryAt r q = m.entryAt r q :=
  lookup_congr htab hr hlen
    (fun p i s hp _ u hu => sim_of_eq (h.along hq p i s hp u hu))
    fun p i hp u hu => h.along hq p i [] hp u hu

theorem AgreesBelow.follow (h : AgreesBelow lab r m m')
    (htab : Labelled entryFormat Node.shape m.mem lab) (hr : lab r = some (.user r []))
    (hlen : p.length < 4) (hp : UserPath p) :
    Radix.follow entryFormat m'.mem r p = Radix.follow entryFormat m.mem r p :=
  follow_eq_of_agree htab hr hlen (h.along hp)

/-- A user table carries the label of its path. -/
theorem UserTable.label {t : Word} (h : m'.UserTable r p t) (hagree : AgreesBelow lab r m m')
    (htab : Labelled entryFormat Node.shape m.mem lab) (hr : lab r = some (.user r [])) :
    lab t = some (.user r p) := by
  have hf := h.follow
  rw [hagree.follow htab hr h.short h.user] at hf
  have hlab := htab.follow_label hr h.short hf
  rwa [Node.walk_user (Or.inr h.user)] at hlab

end Reading

/-! ## The labels of a tree -/

section Label

variable {m : Machine}

open Classical in
/-- Every user table of the current address space under its path. -/
noncomputable def userLabel (m : Machine) (u : Word) : Option Node :=
  if h : ∃ p, m.UserTable m.cr3 p u then some (.user m.cr3 h.choose) else none

theorem ParentTree.userLabel_eq (h : m.ParentTree) {p : List (Fin 512)} {u : Word}
    (hu : m.UserTable m.cr3 p u) : m.userLabel u = some (.user m.cr3 p) := by
  have hex : ∃ p, m.UserTable m.cr3 p u := ⟨p, hu⟩
  rw [userLabel, dif_pos hex, h.tree hex.choose_spec hu]

theorem exists_of_userLabel {u : Word} {n : Node} (h : m.userLabel u = some n) :
    ∃ p, n = .user m.cr3 p ∧ m.UserTable m.cr3 p u := by
  unfold userLabel at h
  split at h
  · next hex => exact ⟨_, (Option.some.inj h).symm, hex.choose_spec⟩
  · cases h

theorem userLabel_eq_none {u : Word} (h : ∀ p, ¬ m.UserTable m.cr3 p u) :
    m.userLabel u = none :=
  dif_neg fun ⟨p, hp⟩ => h p hp

theorem userTable_root (m : Machine) (r : Word) : m.UserTable r [] r :=
  ⟨(fun hc => nomatch hc), by decide, rfl⟩

theorem ParentTree.root (h : m.ParentTree) : m.userLabel m.cr3 = some (.user m.cr3 []) :=
  h.userLabel_eq (m.userTable_root m.cr3)

/-- A present entry of a user table above the leaves names the next one. -/
theorem UserTable.next {r t : Word} {p : List (Fin 512)} {i : Fin 512} (h : m.UserTable r p t)
    (hlen : p.length + 1 < 4) (hi : p ≠ [] ∨ i ≠ 511) (hp : present (m.mem t i) = true) :
    m.UserTable r (p ++ [i]) (m.mem t i &&& mask) := by
  refine ⟨?_, by rw [List.length_append]; exact hlen, ?_⟩
  · cases p with
    | nil => exact fun hc => hi.resolve_left (fun h => h rfl) (Option.some.inj hc)
    | cons j p => exact h.user
  · rw [follow_append, h.follow, Option.bind_some, follow_singleton]
    exact if_pos hp

/-- The machine with nothing in entry 511 of the current root. -/
def dropKernel (m : Machine) : Machine := m.setEntry m.cr3 511 0

theorem ParentTree.dropKernel_mem (h : m.ParentTree) {p : List (Fin 512)} {t : Word}
    {i : Fin 512} (ht : m.UserTable m.cr3 p t) (hi : p ≠ [] ∨ i ≠ 511) :
    m.dropKernel.mem t i = m.mem t i := by
  refine (write_apply ..).trans (if_neg fun hc => ?_)
  have hroot : p = [] := h.tree ht (hc.1 ▸ m.userTable_root m.cr3)
  exact hi.elim (fun hne => hne hroot) fun hne => hne hc.2

theorem ParentTree.labelled (h : m.ParentTree) :
    Labelled entryFormat Node.shape m.dropKernel.mem m.userLabel := by
  refine ⟨fun {t n i} ht hlev hp => ?_⟩
  obtain ⟨p, rfl, hu⟩ := exists_of_userLabel ht
  have hi : p ≠ [] ∨ i ≠ 511 := by
    by_contra hc
    rw [not_or, not_not, not_not] at hc
    obtain ⟨rfl, rfl⟩ := hc
    have hzero : m.dropKernel.mem t 511 = 0 := by
      obtain rfl : m.cr3 = t := Option.some.inj hu.follow
      exact write_self ..
    rw [hzero] at hp
    cases hp
  rw [h.dropKernel_mem hu hi] at hp ⊢
  rw [Node.child_user hi]
  rw [Node.shape_level_user] at hlev
  exact h.userLabel_eq (hu.next (by omega) hi hp)

end Label

/-! ## Entry 511 plays no part -/

section Kernel

variable {d : Nat} {o c parent child t e : Word} {p is : List (Fin 512)} {i : Fin 512}
  {m : Machine} {lab : Word → Option Node} {ts : List Word}

def shareKernel (o c e : Word) (m : Machine) : Machine :=
  { m with mem := fun t i => if (t = o ∨ t = c) ∧ i = 511 then e else m.mem t i }

theorem shareKernel_mem (h : ¬ ((t = o ∨ t = c) ∧ i = 511)) :
    (m.shareKernel o c e).mem t i = m.mem t i :=
  if_neg h

theorem shareKernel_setEntry (h : ¬ ((t = o ∨ t = c) ∧ i = 511)) (w : Word) :
    (m.shareKernel o c e).setEntry t i w = (m.setEntry t i w).shareKernel o c e := by
  refine congrArg (fun mem => { m with mem := mem }) (funext fun u => funext fun j => ?_)
  show write _ t i w u j = if _ then e else write _ t i w u j
  rw [write_apply, write_apply]
  by_cases hhit : u = t ∧ j = i
  · obtain ⟨rfl, rfl⟩ := hhit
    rw [if_pos ⟨rfl, rfl⟩, if_neg h, if_pos ⟨rfl, rfl⟩]
  · rw [if_neg hhit, if_neg hhit]
    rfl

/-- A table that the loops work on is not a root, or entry 511 is not one of
theirs. -/
theorem CowReady.off (hr : CowReady d o c p parent child [i] m lab)
    (ho : lab o = some (.user o [])) (hc : lab c = some (.user c [])) {r : Word}
    (ht : lab t = some (.user r p)) : ¬ ((t = o ∨ t = c) ∧ i = 511) := by
  rintro ⟨htop, rfl⟩
  have hp : p = [] := by
    rcases htop with rfl | rfl
    · exact (Node.user.inj (Option.some.inj (ht.symm.trans ho))).2
    · exact (Node.user.inj (Option.some.inj (ht.symm.trans hc))).2
  exact hr.user.elim (fun hne => hne hp) fun hnot => hnot (List.mem_singleton_self _)

theorem CowReady.cowLeaf_shareKernel (hr : CowReady 0 o c p parent child [i] m lab)
    (ho : lab o = some (.user o [])) (hc : lab c = some (.user c [])) (e : Word) :
    cowLeaf parent child (m.shareKernel o c e) i
      = (cowLeaf parent child m i).shareKernel o c e := by
  have hparent := hr.off ho hc hr.parentLabel
  have hchild := hr.off ho hc hr.childLabel
  have hentry : (m.shareKernel o c e).mem parent i = m.mem parent i := shareKernel_mem hparent
  by_cases hp : present (m.mem parent i) = true
  · rw [cowLeaf_present (hentry ▸ hp), cowLeaf_present hp, hentry]
    have hwrites : ∀ w, ((m.shareKernel o c e).setEntry parent i w).setEntry child i w
        = ((m.setEntry parent i w).setEntry child i w).shareKernel o c e := by
      intro w
      rw [shareKernel_setEntry hparent, shareKernel_setEntry hchild]
    have hmem := congrArg Machine.mem (hwrites (cowEntry (m.mem parent i)))
    exact congrArg (fun mem => ({ m with
      mem := mem, phys := shareFrame m.phys (m.mem parent i &&& mask) } : Machine)) hmem
  · rw [cowLeaf, if_neg (hentry ▸ hp), cowLeaf, if_neg hp]

theorem CowReady.cowLink_shareKernel (hr : CowReady (d + 1) o c p parent child [i] m lab)
    (ho : lab o = some (.user o [])) (hc : lab c = some (.user c [])) (e : Word) :
    (m.shareKernel o c e).cowLink parent child i
      = (m.cowLink parent child i).shareKernel o c e := by
  have hentry : (m.shareKernel o c e).getFreePage.2.mem parent i = m.mem parent i :=
    shareKernel_mem (hr.off ho hc hr.parentLabel)
  unfold cowLink
  rw [hentry]
  exact shareKernel_setEntry (m := m.getFreePage.2) (hr.off ho hc hr.childLabel) _

theorem Draws.of_shareKernel {m' : Machine}
    (h : (m.shareKernel o c e).Draws ts (m'.shareKernel o c e)) : m.Draws ts m' :=
  ⟨h.phys, h.log⟩

theorem cowTable_shareKernel_rounds
    (hround : ∀ {i : Fin 512} {m : Machine} {lab : Word → Option Node} {ts : List Word},
      CowReady d o c p parent child [i] m lab →
      (m.shareKernel o c e).Draws ts (cowTable d parent child [i] (m.shareKernel o c e)) →
      Usable m lab ts → lab o = some (.user o []) → lab c = some (.user c []) →
      cowTable d parent child [i] (m.shareKernel o c e)
        = (cowTable d parent child [i] m).shareKernel o c e) :
    ∀ {is : List (Fin 512)} {m : Machine} {lab : Word → Option Node} {ts : List Word},
      CowReady d o c p parent child is m lab →
      (m.shareKernel o c e).Draws ts (cowTable d parent child is (m.shareKernel o c e)) →
      Usable m lab ts → lab o = some (.user o []) → lab c = some (.user c []) →
      cowTable d parent child is (m.shareKernel o c e)
        = (cowTable d parent child is m).shareKernel o c e
  | [], m, lab, ts, _, _, _, _, _ => by cases d <;> rfl
  | i :: is, m, lab, ts, hr, hd, hus, ho, hc => by
      rw [cowTable_cons] at hd ⊢
      rw [cowTable_cons d parent child i is m]
      obtain ⟨ts₁, hd₁⟩ := cowTable_draws d parent child [i] (m.shareKernel o c e)
      obtain ⟨ts₂, hd₂⟩ := cowTable_draws d parent child is
        (cowTable d parent child [i] (m.shareKernel o c e))
      obtain rfl : ts = ts₂ ++ ts₁ :=
        List.append_cancel_right (hd.log.symm.trans (hd₁.trans hd₂).log)
      have hfirst := hround hr.head hd₁ hus.first ho hc
      rw [hfirst] at hd₁ hd₂ ⊢
      obtain ⟨lab₁, h₁⟩ := cowTable_usable hr.head hd₁.of_shareKernel hus.first
      exact cowTable_shareKernel_rounds hround (hr.tail h₁) hd₂ (hus.grows h₁.grows)
        (h₁.grows.keep ho) (h₁.grows.keep hc)

/-- The loops do the same whatever entry 511 of the two roots holds. -/
theorem cowTable_shareKernel : ∀ {d : Nat} {o c parent child e : Word}
    {p is : List (Fin 512)} {m : Machine} {lab : Word → Option Node} {ts : List Word},
    CowReady d o c p parent child is m lab →
    (m.shareKernel o c e).Draws ts (cowTable d parent child is (m.shareKernel o c e)) →
    Usable m lab ts → lab o = some (.user o []) → lab c = some (.user c []) →
    cowTable d parent child is (m.shareKernel o c e)
      = (cowTable d parent child is m).shareKernel o c e
  | 0, o, c, parent, child, e, p, is, m, lab, ts, hr, hd, hus, ho, hc =>
      cowTable_shareKernel_rounds
        (fun hr _ _ ho hc => hr.cowLeaf_shareKernel ho hc e) hr hd hus ho hc
  | d + 1, o, c, parent, child, e, p, is, m, lab, ts, hr, hd, hus, ho, hc => by
      refine cowTable_shareKernel_rounds (fun {i m lab ts} hr hd hus ho hc => ?_)
        hr hd hus ho hc
      have hentry : (m.shareKernel o c e).mem parent i = m.mem parent i :=
        shareKernel_mem (hr.off ho hc hr.parentLabel)
      by_cases hp : present (m.mem parent i) = true
      swap
      · rw [cowTable_absent (d + 1) hp, cowTable_absent (d + 1) (hentry ▸ hp)]
      rw [cowTable_branch d hr.parent_ne_child hp]
      rw [cowTable_branch d hr.parent_ne_child (hentry ▸ hp), hentry,
        hr.cowLink_shareKernel ho hc] at hd ⊢
      obtain ⟨us, hd₂⟩ := cowTable_draws d (m.mem parent i &&& mask) m.getFreePage.1
        (List.finRange 512) ((m.cowLink parent child i).shareKernel o c e)
      have hlink : m.Draws [m.getFreePage.1] (m.cowLink parent child i) :=
        (getFreePage_draws m).setEntry ..
      obtain rfl : ts = us ++ [m.getFreePage.1] := by
        refine List.append_cancel_right (hd.log.symm.trans (hd₂.log.trans ?_))
        rw [List.append_assoc]
        exact congrArg (us ++ ·) hlink.log
      have hf := hus.blank _ (List.mem_append_right _ (List.mem_singleton_self _))
      obtain ⟨lab₁, hE, -, hready⟩ := hr.link hp hf
      have hgrows : Grows m lab [m.getFreePage.1] (m.cowLink parent child i) lab₁ :=
        ⟨hlink, hE.tables, hE.keep, hE.new, hE.others⟩
      exact cowTable_shareKernel hready hd₂ (hus.grows hgrows) (hE.keep ho) (hE.keep hc)

theorem agreesBelow_shareKernel (ho : lab o = some (.user o []))
    (hc : lab c = some (.user c [])) (r : Word) :
    AgreesBelow lab r m (m.shareKernel o c e) := by
  rintro u q i hu hq
  refine shareKernel_mem fun ⟨htop, hi⟩ => ?_
  have hnil : q = [] := by
    rcases htop with rfl | rfl
    · exact (Node.user.inj (Option.some.inj (hu.symm.trans ho))).2
    · exact (Node.user.inj (Option.some.inj (hu.symm.trans hc))).2
  exact hq.elim (fun hne => hne hnil) fun hne => hne hi

/-- The new root is the one of the machine without the kernel half, with
the kernel half put back. -/
theorem cowRoot_dropKernel (m : Machine) :
    m.cowRoot = m.dropKernel.cowRoot.shareKernel m.cr3 m.getFreePage.1 (m.mem m.cr3 511) := by
  refine congrArg (fun mem => { m.getFreePage.2 with mem := mem })
    (funext fun t => funext fun i => ?_)
  show write m.mem m.getFreePage.1 511 _ t i
    = if _ then _ else write (write m.mem m.cr3 511 0) m.getFreePage.1 511 _ t i
  rw [write_apply, write_apply, write_apply]
  by_cases hi : i = 511
  · by_cases hc : t = m.getFreePage.1
    · rw [if_pos ⟨hc, hi⟩, if_pos ⟨Or.inr hc, hi⟩]
    · rw [if_neg fun hx => hc hx.1]
      by_cases ho : t = m.cr3
      · rw [if_pos ⟨Or.inl ho, hi⟩, ho, hi]
      · rw [if_neg fun hx => hx.1.elim ho hc, if_neg fun hx => hc hx.1, if_neg fun hx => ho hx.1]
  · rw [if_neg fun hx => hi hx.2, if_neg fun hx => hi hx.2, if_neg fun hx => hi hx.2,
      if_neg fun hx => hi hx.2]

end Kernel

/-! ## The clone -/

section Clone

variable {m : Machine} {ts : List Word}

theorem NewFrames.usable (h : m.NewFrames ts) (haligned : ∀ f ∈ ts, Aligned f) :
    Usable m.dropKernel m.userLabel ts := by
  refine ⟨h.nodup, fun f hf => ⟨haligned f hf, userLabel_eq_none (h.noTable f hf), fun i => ?_⟩⟩
  show write m.mem m.cr3 511 0 f i = 0
  rw [write_apply, h.zero f hf i, ite_self]

/-- The loops as they run without the kernel half, and the kernel half put
back. -/
theorem ParentTree.cowPass (h : m.ParentTree) (hlog : m.cowPageTables.2.log = ts ++ m.log)
    (hnew : m.NewFrames ts) :
    ∃ lab₁ us lab' m', ts = us ++ [m.getFreePage.1] ∧
      Grows m.dropKernel m.userLabel [m.getFreePage.1] m.dropKernel.cowRoot lab₁ ∧
      CowReady 3 m.cr3 m.getFreePage.1 [] m.cr3 m.getFreePage.1 userIndices
        m.dropKernel.cowRoot lab₁ ∧
      CowDone 3 m.cr3 m.getFreePage.1 [] m.cr3 m.getFreePage.1 userIndices
        m.dropKernel.cowRoot lab₁ us m' lab' ∧
      m.cowPageTables.2 = m'.shareKernel m.cr3 m.getFreePage.1 (m.mem m.cr3 511) := by
  rw [cowPageTables_eq] at hlog ⊢
  dsimp only at hlog ⊢
  obtain ⟨us, hd⟩ := cowTable_draws 3 m.cr3 m.getFreePage.1 userIndices m.cowRoot
  have hdraws := m.cowRoot_draws.trans hd
  obtain rfl : ts = us ++ [m.getFreePage.1] :=
    List.append_cancel_right (hlog.symm.trans hdraws.log)
  have hus := hnew.usable hdraws.aligned
  have hf := hus.blank _ (List.mem_append_right _ (List.mem_singleton_self _))
  have hroot : ∃ lab₁,
      Grows m.dropKernel m.userLabel [m.getFreePage.1] m.dropKernel.cowRoot lab₁ ∧
        CowReady 3 m.cr3 m.getFreePage.1 [] m.cr3 m.getFreePage.1 userIndices
          m.dropKernel.cowRoot lab₁ := cowRoot_ready h.labelled h.root hf
  obtain ⟨lab₁, hg, hready⟩ := hroot
  have hloops := hus.grows hg
  rw [m.cowRoot_dropKernel] at hd
  have hshare := cowTable_shareKernel hready hd hloops hready.parentLabel hready.childLabel
  rw [hshare] at hd
  rw [← m.cowRoot_dropKernel] at hshare
  obtain ⟨lab', hC⟩ := cowTable_usable hready hd.of_shareKernel hloops
  rw [hshare]
  generalize cowTable 3 m.cr3 m.getFreePage.1 userIndices m.dropKernel.cowRoot = m' at hC ⊢
  exact ⟨lab₁, us, lab', m', rfl, hg, hready, hC, rfl⟩

theorem ParentTree.agreesBelow_cowRoot (h : m.ParentTree) {lab₁ : Word → Option Node}
    (hg : Grows m.dropKernel m.userLabel [m.getFreePage.1] m.dropKernel.cowRoot lab₁)
    (hready : CowReady 3 m.cr3 m.getFreePage.1 [] m.cr3 m.getFreePage.1 userIndices
      m.dropKernel.cowRoot lab₁) : AgreesBelow lab₁ m.cr3 m.dropKernel.cowRoot m := by
  intro u q i hu hq
  have hne : u ≠ m.getFreePage.1 := by
    rintro rfl
    exact hready.apart (Node.user.inj (Option.some.inj (hu.symm.trans hready.childLabel))).1
  have hold := (hg.new hu).resolve_right fun hmem => hne (List.mem_singleton.mp hmem)
  obtain ⟨p, hp, htable⟩ := exists_of_userLabel hold
  obtain rfl := (Node.user.inj hp).2
  rw [← h.dropKernel_mem htable hq]
  exact (congrFun (write_of_frame_ne _ hne _ _) i).symm

theorem cowEntry_readOnly {e : Word} (h : present e = true) :
    cowEntry e &&& ~~~turnOffRw = 0 := by
  rw [cowEntry_of_present h, or_and_distrib, BitVec.and_assoc]
  have hrw : turnOffRw &&& ~~~turnOffRw = 0#64 := by decide
  have hcow : cowFlag &&& ~~~turnOffRw = 0#64 := by decide
  rw [hrw, hcow, BitVec.and_zero, BitVec.or_zero]
  rfl

theorem cowEntry_marked {e : Word} (h : present e = true) :
    cowEntry e &&& cowFlag = cowFlag := by
  rw [cowEntry_of_present h]
  apply BitVec.eq_of_getLsbD_eq
  intro i _
  rw [BitVec.getLsbD_and, BitVec.getLsbD_or, Bool.and_comm, Bool.and_or_distrib_left,
    Bool.and_self, Bool.or_comm]
  cases cowFlag.getLsbD i <;> rfl

/-- `cow_page_tables` clones the user half of the current address space. -/
theorem cowPageTables_clones (hparent : m.ParentTree)
    (hlog : m.cowPageTables.2.log = ts ++ m.log) (hnew : m.NewFrames ts) :
    m.Clones m.cowPageTables.1 m.cowPageTables.2 := by
  obtain ⟨lab₁, us, lab', m', rfl, hg, hready, hC, heq⟩ := hparent.cowPass hlog hnew
  rw [cowPageTables_fst, heq]
  clear heq hlog
  have ho := hC.grows.keep hready.parentLabel
  have hc := hC.grows.keep hready.childLabel
  have hagree := agreesBelow_shareKernel (m := m') (e := m.mem m.cr3 511) ho hc
  have hbefore := hparent.agreesBelow_cowRoot hg hready
  have hold : ∀ q, q.length = 4 → UserPath q →
      m.dropKernel.cowRoot.entryAt m.cr3 q = m.entryAt m.cr3 q := fun q hq hu =>
    (hbefore.entryAt hready.tables hready.parentLabel hq hu).symm
  have hself : ∀ v, UserPath (path v) → (m'.shareKernel m.cr3 m.getFreePage.1
      (m.mem m.cr3 511)).leaf m.cr3 v = cowEntry (m.leaf m.cr3 v) := by
    intro v hv
    have hi : offsetPml4 v ∈ userIndices := (mem_userIndices _).mpr fun hi => hv (by
      rw [path, hi]; rfl)
    rw [leaf_eq_entryAt, leaf_eq_entryAt, (hagree _).entryAt hC.grows.tables ho rfl hv,
      ← hold _ rfl hv]
    exact hC.self _ hi _ rfl
  have hcopy : ∀ v, UserPath (path v) → (m'.shareKernel m.cr3 m.getFreePage.1
      (m.mem m.cr3 511)).leaf m.getFreePage.1 v = cowEntry (m.leaf m.cr3 v) := by
    intro v hv
    have hi : offsetPml4 v ∈ userIndices := (mem_userIndices _).mpr fun hi => hv (by
      rw [path, hi]; rfl)
    rw [leaf_eq_entryAt, leaf_eq_entryAt, (hagree _).entryAt hC.grows.tables hc rfl hv]
    have hentry := hC.copy _ hi [offsetPdpe v, offsetPde v, offsetPte v] rfl
    rw [show offsetPml4 v :: [offsetPdpe v, offsetPde v, offsetPte v] = path v from rfl,
      hold _ rfl hv] at hentry
    rw [hentry]
    rcases hparent.leaf _ rfl hv with hz | hp
    · rw [hz]
      rfl
    · exact if_pos hp
  have hpresent : ∀ v, UserPath (path v) → present ((m'.shareKernel m.cr3 m.getFreePage.1
      (m.mem m.cr3 511)).leaf m.cr3 v) = present (m.leaf m.cr3 v) := by
    intro v hv
    rw [hself v hv, present_cowEntry]
  refine
    { cr3 := hC.cr3, leaf := fun v hv => (hcopy v hv).trans (hself v hv).symm
      frame := fun v hv => by rw [hself v hv, cowEntry_frame]
      readOnly := fun v hv hp => ?_, marked := fun v hv hp => ?_
      flags := fun v hv => by rw [hself v hv]; exact cowEntry_and (by decide) (by decide)
      shared := ⟨if_pos ⟨Or.inr rfl, rfl⟩, if_pos ⟨Or.inl rfl, rfl⟩⟩
      apart := fun {p q t} hp hq => ?_, ref := fun v hv hp hone => ?_ }
  · rw [hself v hv]
    exact cowEntry_readOnly (by rwa [hpresent v hv] at hp)
  · rw [hself v hv]
    exact cowEntry_marked (by rwa [hpresent v hv] at hp)
  · have hlab := (hp.label (hagree _) hC.grows.tables ho).symm.trans
      (hq.label (hagree _) hC.grows.tables hc)
    exact hready.apart (Node.user.inj (Option.some.inj hlab)).1
  · -- the frame is none of those drawn, so its count is the one before the loops
    rw [leaf_eq_entryAt] at hp hone ⊢
    have hfresh : m.entryAt m.cr3 (path v) &&& mask ∉ us ++ [m.getFreePage.1] :=
      fun hmem => hnew.noLeaf _ hmem _ rfl hv hp rfl
    rw [List.mem_append, not_or, List.mem_singleton] at hfresh
    have hi : offsetPml4 v ∈ userIndices := (mem_userIndices _).mpr fun hi => hv (by
      rw [path, hi]; rfl)
    have hcount : m.dropKernel.cowRoot.ref (m.entryAt m.cr3 (path v) &&& mask) = 1 := by
      refine Eq.trans (PhysMem.getFreePage_getPageRefCount fun hn => hfresh.2 ?_) hone
      exact pageNumber_inj (aligned_and_mask _) (aligned_getFreePage _) hn
    have hshared := hC.shared _ hi [offsetPdpe v, offsetPde v, offsetPte v] rfl
    rw [show offsetPml4 v :: [offsetPdpe v, offsetPde v, offsetPte v] = path v from rfl,
      hold _ rfl hv] at hshared
    rcases hC.ref _ (aligned_and_mask _) hfresh.1 with hsame | ⟨-, htwo⟩
    · exact absurd (hsame.trans hcount) (hshared hp hfresh.1)
    · exact htwo

/-! ### In the states of the memory system -/

variable {roots : List Word} {lab : Word → Option Node} {l : List Nat}

theorem Forest.parentTree (h : Forest roots m lab l) : m.ParentTree := by
  have hroot := h.root _ h.current
  have hagree : AgreesBelow lab m.cr3 m m := fun _ _ _ _ _ => rfl
  refine ⟨fun {p q t} hp hq => ?_, fun q hq _ => ?_⟩
  · have hlab := (hp.label hagree h.tables hroot).symm.trans (hq.label hagree h.tables hroot)
    exact (Node.user.inj (Option.some.inj hlab)).2
  · exact (h.leaf _ h.current q hq).imp id And.left

theorem Forest.newFrames (h : Forest roots m lab l) {m' : Machine} (hd : m.Draws ts m')
    (hlog : (0 : Word) ∉ m'.log) : m.NewFrames ts := by
  obtain ⟨l', hdrawn⟩ := h.pool.draws hd hlog
  refine ⟨hdrawn.nodup, fun f hf => (hdrawn.blank f hf).zero, fun f hf p hp => ?_,
    fun f hf q hq hu hpres => ?_⟩
  · have hlab := hp.label (fun _ _ _ _ _ => rfl) h.tables (h.root _ h.current)
    rw [(hdrawn.blank f hf).unlabelled] at hlab
    cases hlab
  · rintro rfl
    rcases h.leaf _ h.current q hq with hz | ⟨-, -, hheld⟩
    · rw [hz] at hpres
      cases hpres
    · exact (hheld hu).notMem hdrawn hf

end Clone

end Machine

/-- The first process, with its one page. -/
theorem Machine.cowPageTables_clones_oneProcess :
    UserPath (path 0x400000) ∧
      present (oneProcess.space.machine.leaf 0x1000 0x400000) = true ∧
      oneProcess.space.machine.Clones oneProcess.space.machine.cowPageTables.1
        oneProcess.space.machine.cowPageTables.2 := by
  obtain ⟨lab, l, hM⟩ := oneProcess_leaf
  have hacc := hM.forest.cowPageTables_account oneProcess_account (by decide)
  have hp := present_of_flags oneProcess_flags
  generalize oneProcess.space.machine = m at hM hacc hp
  obtain ⟨us, hd⟩ := cowTable_draws 3 m.cr3 m.getFreePage.1 userIndices m.cowRoot
  have hdraws := m.cowRoot_draws.trans hd
  have hlog : m.cowPageTables.2.log = (us ++ [m.getFreePage.1]) ++ m.log := by
    rw [cowPageTables_eq]
    exact hdraws.log
  refine ⟨userAddr_page.userPath, hp,
    cowPageTables_clones hM.forest.parentTree hlog (hM.forest.newFrames hdraws ?_)⟩
  have hzero := hacc.log
  rwa [cowPageTables_eq] at hzero

end SnowOs
