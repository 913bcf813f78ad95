import Mathlib.Logic.Function.Basic
import Mathlib.Data.List.Basic

/-!
# Radix trees laid out in a store

A multi-level table is a store `mem : F → I → W`: frame, index, entry. An
entry is read by a `Format` - is it present, and which frame does it name
- and a path of indices is resolved from a root frame, one table per
index (`follow`), down to the entry its last index selects (`lookup`).

What makes such a structure hard to reason about is aliasing: one frame
could be a table of two paths, or of two trees, and a write through one
would show through the other. Instead of a separation argument per write
we keep a *labelling* `lab : F → Option N`, giving each table frame the
one node it stands for. `Labelled` is local - the frame an entry names
carries the label of the corresponding child - so every write is checked
against one entry, and yet no frame can be met at two nodes
(`Labelled.follow_label`).

The two facts the clients need:

- `Labelled.write_fresh`, `Labelled.write_same`, `Labelled.write_leaf`:
  the three kinds of write that maintain a labelling;
- `lookup_congr`: which entries a lookup can see. Hanging an empty table
  off an absent entry and rewriting an entry without changing the frame it
  names are both invisible (`Sim`).
-/

namespace SnowOs.Radix

/-- How table entries are read. -/
structure Format (F W : Type) where
  present : W → Bool
  target : W → F
  empty : W
  absent_empty : present empty = false

/-- The nodes of the intended trees: the child along an index, and the
number of indices still to be resolved at a node. -/
structure Shape (N I : Type) where
  child : N → I → N
  level : N → Nat
  level_child : ∀ n i, 1 < level n → level (child n i) + 1 = level n

variable {F I W N : Type}

section Write

variable [DecidableEq F] [DecidableEq I]

def write (mem : F → I → W) (t : F) (i : I) (w : W) : F → I → W :=
  Function.update mem t (Function.update (mem t) i w)

@[simp] theorem write_self (mem : F → I → W) (t : F) (i : I) (w : W) :
    write mem t i w t i = w := by
  simp [write]

theorem write_of_frame_ne (mem : F → I → W) {t t' : F} (h : t' ≠ t) (i : I) (w : W) :
    write mem t i w t' = mem t' := by
  simp [write, h]

theorem write_of_index_ne (mem : F → I → W) (t : F) {t' : F} {i j : I} (h : j ≠ i) (w : W) :
    write mem t i w t' j = mem t' j := by
  by_cases ht : t' = t
  · subst ht
    simp [write, h]
  · rw [write_of_frame_ne mem ht]

@[simp] theorem write_write (mem : F → I → W) (t : F) (i : I) (w w' : W) :
    write (write mem t i w) t i w' = write mem t i w' := by
  simp [write]

theorem write_apply (mem : F → I → W) (t t' : F) (i j : I) (w : W) :
    write mem t i w t' j = if t' = t ∧ j = i then w else mem t' j := by
  by_cases ht : t' = t
  · subst ht
    by_cases hj : j = i
    · subst hj
      simp
    · rw [write_of_index_ne mem t' hj, if_neg fun h => hj h.2]
  · rw [write_of_frame_ne mem ht, if_neg fun h => ht h.1]

end Write

/-! ## Resolving a path -/

/-- The table a path of indices leads to. -/
def follow (fmt : Format F W) (mem : F → I → W) : F → List I → Option F
  | t, [] => some t
  | t, i :: is =>
      if fmt.present (mem t i) then follow fmt mem (fmt.target (mem t i)) is else none

/-- The entry a path of indices selects; `empty` when a table on the way
is missing. -/
def lookup (fmt : Format F W) (mem : F → I → W) : F → List I → W
  | _, [] => fmt.empty
  | t, [i] => mem t i
  | t, i :: j :: is =>
      if fmt.present (mem t i) then lookup fmt mem (fmt.target (mem t i)) (j :: is)
      else fmt.empty

variable {fmt : Format F W} {shape : Shape N I} {mem mem' : F → I → W}

theorem lookup_cons_cons {t : F} {i j : I} {p : List I} :
    lookup fmt mem t (i :: j :: p)
      = if fmt.present (mem t i) then lookup fmt mem (fmt.target (mem t i)) (j :: p)
        else fmt.empty := rfl

/-- A table without entries resolves every path to the empty entry. -/
theorem lookup_of_empty {t : F} (h : ∀ i, mem t i = fmt.empty) :
    ∀ p : List I, lookup fmt mem t p = fmt.empty
  | [] => rfl
  | [i] => h i
  | i :: j :: is => by
      rw [lookup, h i, fmt.absent_empty]
      rfl

/-- A lookup is a walk to the last table and one read there. -/
theorem lookup_eq_follow : ∀ (p : List I) (t : F) (i : I),
    lookup fmt mem t (p ++ [i]) = match follow fmt mem t p with
      | some u => mem u i
      | none => fmt.empty
  | [], t, i => rfl
  | [j], t, i => by
      rw [List.singleton_append, lookup_cons_cons, follow]
      split <;> rfl
  | j :: k :: p, t, i => by
      rw [List.cons_append, List.cons_append, lookup_cons_cons, follow]
      split
      · exact lookup_eq_follow (k :: p) _ i
      · rfl

theorem follow_singleton (t : F) (i : I) : follow fmt mem t [i]
    = if fmt.present (mem t i) then some (fmt.target (mem t i)) else none := rfl

theorem follow_append : ∀ (p q : List I) (t : F),
    follow fmt mem t (p ++ q) = (follow fmt mem t p).bind fun u => follow fmt mem u q
  | [], q, t => rfl
  | i :: p, q, t => by
      rw [List.cons_append, follow, follow]
      split
      · exact follow_append p q _
      · rfl

/-! ## Labellings -/

/-- Every present entry of an inner table names the frame of the
corresponding child node. -/
structure Labelled (fmt : Format F W) (shape : Shape N I) (mem : F → I → W)
    (lab : F → Option N) : Prop where
  edge : ∀ {t n i}, lab t = some n → 1 < shape.level n → fmt.present (mem t i) = true →
    lab (fmt.target (mem t i)) = some (shape.child n i)

variable {lab : F → Option N}

/-- The node a path leads to. -/
def Shape.walk (shape : Shape N I) (n : N) (p : List I) : N := p.foldl shape.child n

@[simp] theorem Shape.walk_nil (n : N) : shape.walk n [] = n := rfl

@[simp] theorem Shape.walk_cons (n : N) (i : I) (p : List I) :
    shape.walk n (i :: p) = shape.walk (shape.child n i) p := rfl

/-- Walking down lowers the level by one per index, down to the leaf
tables. -/
theorem Shape.level_walk (shape : Shape N I) : ∀ {p : List I} {n : N},
    p.length < shape.level n → shape.level (shape.walk n p) + p.length = shape.level n
  | [], _, _ => rfl
  | i :: p, n, hp => by
      rw [List.length_cons] at hp
      have hc := shape.level_child n i (by omega)
      have ih := shape.level_walk (p := p) (n := shape.child n i) (by omega)
      rw [Shape.walk_cons, List.length_cons]
      omega

theorem Shape.level_last (shape : Shape N I) {p q : List I} {i : I} {n : N}
    (hlen : p.length = shape.level n) (hp : p = q ++ [i]) :
    shape.level (shape.walk n q) = 1 := by
  rw [hp, List.length_append, List.length_singleton] at hlen
  have h := shape.level_walk (p := q) (n := n) (by omega)
  omega

/-- The frame a path leads to carries the label of the node it leads to:
no frame can be met at two different nodes. -/
theorem Labelled.follow_label (h : Labelled fmt shape mem lab) :
    ∀ {p : List I} {t u : F} {n : N}, lab t = some n → p.length < shape.level n →
      follow fmt mem t p = some u → lab u = some (shape.walk n p)
  | [], t, u, n, hl, _, hf => by
      obtain rfl : t = u := Option.some.inj hf
      exact hl
  | i :: p, t, u, n, hl, hlen, hf => by
      rw [List.length_cons] at hlen
      rw [follow] at hf
      split at hf
      · rename_i hpres
        have hchild := h.edge hl (by omega) hpres
        have hlev := shape.level_child n i (by omega)
        rw [Shape.walk_cons]
        exact h.follow_label hchild (by omega) hf
      · cases hf

section Maintain

variable [DecidableEq F] [DecidableEq I]

/-- Hanging an empty, unlabelled frame off an entry that was absent. -/
theorem Labelled.write_fresh (h : Labelled fmt shape mem lab) {t f : F} {n : N}
    {i : I} {w : W} (hl : lab t = some n) (hfresh : lab f = none)
    (hempty : ∀ j, mem f j = fmt.empty) (htarget : fmt.target w = f) :
    Labelled fmt shape (write mem t i w)
      (Function.update lab f (some (shape.child n i))) := by
  have hft : f ≠ t := fun heq => by rw [heq, hl] at hfresh; cases hfresh
  refine ⟨fun {u k j} hu hlev hpres => ?_⟩
  by_cases huf : u = f
  · subst huf
    rw [write_of_frame_ne mem hft, hempty, fmt.absent_empty] at hpres
    cases hpres
  · rw [Function.update_of_ne huf] at hu
    rw [write_apply] at hpres ⊢
    by_cases hhit : u = t ∧ j = i
    · obtain ⟨rfl, rfl⟩ := hhit
      obtain rfl : n = k := Option.some.inj (hl.symm.trans hu)
      rw [if_pos ⟨rfl, rfl⟩, htarget, Function.update_self]
    · rw [if_neg hhit] at hpres ⊢
      have hold := h.edge hu hlev hpres
      have hne : fmt.target (mem u j) ≠ f := fun heq => by
        rw [heq, hfresh] at hold
        cases hold
      rw [Function.update_of_ne hne]
      exact hold

/-- An empty, unlabelled frame made the root of a new tree, which may share
a table with an old one. -/
theorem Labelled.write_root (h : Labelled fmt shape mem lab) {f : F} {n : N}
    {i : I} {w : W} (hfresh : lab f = none) (hempty : ∀ j, mem f j = fmt.empty)
    (hshared : fmt.present w = true → lab (fmt.target w) = some (shape.child n i)) :
    Labelled fmt shape (write mem f i w) (Function.update lab f (some n)) := by
  have hkeep : ∀ {u k}, lab u = some k → Function.update lab f (some n) u = some k := by
    intro u k hu
    rw [Function.update_of_ne, hu]
    intro heq
    rw [heq, hfresh] at hu
    cases hu
  refine ⟨fun {u k j} hu hlev hpres => ?_⟩
  by_cases huf : u = f
  · subst huf
    rw [Function.update_self] at hu
    obtain rfl := Option.some.inj hu
    rw [write_apply] at hpres ⊢
    by_cases hj : j = i
    · subst hj
      rw [if_pos ⟨rfl, rfl⟩] at hpres ⊢
      exact hkeep (hshared hpres)
    · rw [if_neg fun hc => hj hc.2, hempty, fmt.absent_empty] at hpres
      cases hpres
  · rw [Function.update_of_ne huf] at hu
    rw [write_of_frame_ne mem huf] at hpres ⊢
    exact hkeep (h.edge hu hlev hpres)

/-- Rewriting an entry without changing the frame it names. -/
theorem Labelled.write_same (h : Labelled fmt shape mem lab) {t : F} {i : I} {w : W}
    (hp : fmt.present (mem t i) = true) (htarget : fmt.target w = fmt.target (mem t i)) :
    Labelled fmt shape (write mem t i w) lab := by
  refine ⟨fun {u k j} hu hlev hpres => ?_⟩
  rw [write_apply] at hpres ⊢
  by_cases hhit : u = t ∧ j = i
  · obtain ⟨rfl, rfl⟩ := hhit
    rw [if_pos ⟨rfl, rfl⟩, htarget]
    exact h.edge hu hlev hp
  · rw [if_neg hhit] at hpres ⊢
    exact h.edge hu hlev hpres

theorem Labelled.write_leaf (h : Labelled fmt shape mem lab) {t : F} (i : I) (w : W)
    (hl : ∀ n, lab t = some n → ¬ 1 < shape.level n) :
    Labelled fmt shape (write mem t i w) lab := by
  refine ⟨fun {u k j} hu hlev hpres => ?_⟩
  have hne : u ≠ t := fun heq => hl k (heq ▸ hu) hlev
  rw [write_of_frame_ne mem hne] at hpres ⊢
  exact h.edge hu hlev hpres

end Maintain

/-! ## What a lookup can see -/

/-- Entry `i` of table `t` reads the same in both stores, except that an
absent entry may now name a table without entries. -/
def Sim (fmt : Format F W) (mem mem' : F → I → W) (t : F) (i : I) : Prop :=
  (fmt.present (mem t i) = true ∧ fmt.present (mem' t i) = true ∧
    fmt.target (mem' t i) = fmt.target (mem t i)) ∨
  (fmt.present (mem t i) = false ∧ (fmt.present (mem' t i) = true →
    ∀ j, mem' (fmt.target (mem' t i)) j = fmt.empty))

theorem sim_of_eq {t : F} {i : I} (h : mem' t i = mem t i) : Sim fmt mem mem' t i := by
  rw [Sim, h]
  cases hp : fmt.present (mem t i) with
  | true => exact Or.inl ⟨rfl, rfl, rfl⟩
  | false => exact Or.inr ⟨rfl, fun hc => by cases hc⟩

/-- Two stores that are similar on the inner entries of a path and equal
on its last entry resolve it alike. The induction is on the path; the
labelling carries the level from table to table. -/
theorem lookup_congr (h : Labelled fmt shape mem lab) :
    ∀ {p : List I} {t : F} {n : N}, lab t = some n → p.length = shape.level n →
      (∀ q i r, p = q ++ i :: r → r ≠ [] → ∀ u, lab u = some (shape.walk n q) →
        Sim fmt mem mem' u i) →
      (∀ q i, p = q ++ [i] → ∀ u, lab u = some (shape.walk n q) → mem' u i = mem u i) →
      lookup fmt mem' t p = lookup fmt mem t p
  | [], _, _, _, _, _, _ => rfl
  | [i], t, n, hl, _, _, hlast => hlast [] i rfl t hl
  | i :: j :: p, t, n, hl, hlen, hinner, hlast => by
      rw [List.length_cons] at hlen
      have hinn : 1 < shape.level n := by rw [← hlen, List.length_cons]; omega
      have hlev := shape.level_child n i hinn
      have hsim := hinner [] i (j :: p) rfl (by simp) t hl
      rw [lookup_cons_cons, lookup_cons_cons]
      rcases hsim with ⟨hp, hp', ht⟩ | ⟨hp, hnew⟩
      · rw [if_pos hp, if_pos hp', ht]
        have hchild := h.edge hl hinn hp
        refine lookup_congr h hchild (by omega)
          (fun q k r hq hr u hu => ?_) (fun q k hq u hu => ?_)
        · exact hinner (i :: q) k r (by rw [hq, List.cons_append]) hr u hu
        · exact hlast (i :: q) k (by rw [hq, List.cons_append]) u hu
      · rw [hp, if_neg Bool.false_ne_true]
        split
        · rename_i hp'
          exact lookup_of_empty (hnew hp') _
        · rfl

/-- Following existing tables is not affected by similar entries. -/
theorem follow_congr (h : Labelled fmt shape mem lab) :
    ∀ {p : List I} {t u : F} {n : N}, lab t = some n → p.length < shape.level n →
      (∀ q i r, p = q ++ i :: r → ∀ v, lab v = some (shape.walk n q) →
        Sim fmt mem mem' v i) →
      follow fmt mem t p = some u → follow fmt mem' t p = some u
  | [], _, _, _, _, _, _, hf => hf
  | i :: p, t, u, n, hl, hlen, hsim, hf => by
      rw [List.length_cons] at hlen
      have hlev := shape.level_child n i (by omega)
      rw [follow] at hf ⊢
      split at hf
      · rename_i hp
        rcases hsim [] i p rfl t hl with ⟨-, hp', ht⟩ | ⟨hp', -⟩
        · rw [if_pos hp', ht]
          exact follow_congr h (h.edge hl (by omega) hp) (by omega)
            (fun q k r hq v hv => hsim (i :: q) k r (by rw [hq, List.cons_append]) v hv) hf
        · rw [hp] at hp'
          cases hp'
      · cases hf

/-- Stores that agree on the entries of a path lead to the same table. -/
theorem follow_eq_of_agree (h : Labelled fmt shape mem lab) :
    ∀ {p : List I} {t : F} {n : N}, lab t = some n → p.length < shape.level n →
      (∀ q i r, p = q ++ i :: r → ∀ u, lab u = some (shape.walk n q) → mem' u i = mem u i) →
      follow fmt mem' t p = follow fmt mem t p
  | [], _, _, _, _, _ => rfl
  | i :: p, t, n, hl, hlen, heq => by
      rw [List.length_cons] at hlen
      have hlev := shape.level_child n i (by omega)
      rw [follow, follow, heq [] i p rfl t hl]
      split
      · rename_i hp
        exact follow_eq_of_agree h (h.edge hl (by omega) hp) (by omega)
          fun q k r hq u hu => heq (i :: q) k r (by rw [hq, List.cons_append]) u hu
      · rfl

theorem follow_eq_of_inner (h : Labelled fmt shape mem lab)
    (heq : ∀ {x k}, lab x = some k → 1 < shape.level k → mem' x = mem x)
    {p : List I} {t : F} {n : N} (hl : lab t = some n) (hlen : p.length < shape.level n) :
    follow fmt mem' t p = follow fmt mem t p := by
  refine follow_eq_of_agree h hl hlen fun q i r hq u hu => ?_
  rw [hq, List.length_append, List.length_cons] at hlen
  have hlev := shape.level_walk (p := q) (n := n) (by omega)
  exact congrFun (heq hu (by omega)) i

/-- A frame that is none of the tables on the way is not read: changing it
leaves the lookup as it was. -/
theorem lookup_congr_off {f : F} (hoff : ∀ u, u ≠ f → mem' u = mem u) :
    ∀ {p : List I} {t : F}, (∀ q i r, p = q ++ i :: r → follow fmt mem t q ≠ some f) →
      lookup fmt mem' t p = lookup fmt mem t p
  | [], _, _ => rfl
  | [i], t, hway => by
      have ht : t ≠ f := fun heq => hway [] i [] rfl (congrArg some heq)
      exact congrFun (hoff t ht) i
  | i :: j :: p, t, hway => by
      have ht : t ≠ f := fun heq => hway [] i (j :: p) rfl (congrArg some heq)
      rw [lookup_cons_cons, lookup_cons_cons, hoff t ht]
      split
      · rename_i hp
        refine lookup_congr_off hoff fun q k r hq hf => ?_
        refine hway (i :: q) k r (by rw [hq, List.cons_append]) ?_
        rw [follow, if_pos hp]
        exact hf
      · rfl

section Write

variable [DecidableEq F] [DecidableEq I] {t : F} {i : I} {w : W} {n : N}

theorem sim_write (hsim : Sim fmt mem (write mem t i w) t i) (u : F) (j : I) :
    Sim fmt mem (write mem t i w) u j := by
  by_cases hhit : u = t ∧ j = i
  · obtain ⟨rfl, rfl⟩ := hhit
    exact hsim
  · exact sim_of_eq (by rw [write_apply, if_neg hhit])

/-- A similar entry written into an inner table is invisible to lookups:
the last table of a path has level one, so its entries are not touched. -/
theorem lookup_write_inner (h : Labelled fmt shape mem lab) (ht : lab t = some n)
    (hlev : 1 < shape.level n) (hsim : Sim fmt mem (write mem t i w) t i) {p : List I}
    {u : F} {k : N} (hu : lab u = some k) (hlen : p.length = shape.level k) :
    lookup fmt (write mem t i w) u p = lookup fmt mem u p := by
  refine lookup_congr h hu hlen (fun _ j _ _ _ v _ => sim_write hsim v j) ?_
  intro q j hq v hv
  have hone := shape.level_last hlen hq
  have hne : v ≠ t := by
    intro heq
    rw [heq, ht] at hv
    rw [← Option.some.inj hv] at hone
    omega
  rw [write_of_frame_ne mem hne]

theorem follow_write_inner (h : Labelled fmt shape mem lab)
    (hsim : Sim fmt mem (write mem t i w) t i) {p : List I} {u v : F} {k : N}
    (hu : lab u = some k) (hlen : p.length < shape.level k)
    (hf : follow fmt mem u p = some v) : follow fmt (write mem t i w) u p = some v :=
  follow_congr h hu hlen (fun _ j _ _ x _ => sim_write hsim x j) hf

/-- A write to a leaf table moves no table, -/
theorem follow_write_leaf (h : Labelled fmt shape mem lab)
    (ht : ∀ k, lab t = some k → ¬ 1 < shape.level k) {p : List I} {u : F} {k : N}
    (hu : lab u = some k) (hlen : p.length < shape.level k) :
    follow fmt (write mem t i w) u p = follow fmt mem u p :=
  follow_eq_of_inner h
    (fun hx hlev => write_of_frame_ne mem (fun heq => ht _ (heq ▸ hx) hlev) i w) hu hlen

/-- and is seen by exactly the paths that end in the entry written. -/
theorem lookup_write_leaf_of_ne (h : Labelled fmt shape mem lab)
    (ht : ∀ k, lab t = some k → ¬ 1 < shape.level k) {q : List I} {u : F} {k : N} {j : I}
    (hu : lab u = some k) (hlen : (q ++ [j]).length = shape.level k)
    (hne : lab t = some (shape.walk k q) → j ≠ i) :
    lookup fmt (write mem t i w) u (q ++ [j]) = lookup fmt mem u (q ++ [j]) := by
  refine lookup_congr h hu hlen (fun q' j' r hq hr x hx => ?_) (fun q' j' hq x hx => ?_)
  · refine sim_of_eq ?_
    have hlen' := congrArg List.length hq
    have hpos := List.length_pos_iff.mpr hr
    rw [hlen, List.length_append, List.length_cons] at hlen'
    have hl := shape.level_walk (p := q') (n := k) (by omega)
    rw [write_of_frame_ne mem (fun heq => ht _ (heq ▸ hx) (by omega))]
  · obtain ⟨rfl, hj⟩ := List.append_inj' hq rfl
    obtain rfl : j = j' := by simpa using hj
    rw [write_apply, if_neg]
    rintro ⟨rfl, hji⟩
    exact hne hx hji

theorem lookup_write_leaf_self (h : Labelled fmt shape mem lab)
    (ht : ∀ k, lab t = some k → ¬ 1 < shape.level k) {q : List I} {u : F} {k : N}
    (hu : lab u = some k) (hlen : q.length < shape.level k)
    (hf : follow fmt mem u q = some t) :
    lookup fmt (write mem t i w) u (q ++ [i]) = w := by
  rw [lookup_eq_follow, follow_write_leaf h ht hu hlen, hf]
  exact write_self mem t i w

theorem lookup_write_leaf_or (h : Labelled fmt shape mem lab)
    (ht : ∀ k, lab t = some k → ¬ 1 < shape.level k) {q : List I} {u : F} {k : N} {j : I}
    (hu : lab u = some k) (hlen : (q ++ [j]).length = shape.level k) :
    lookup fmt (write mem t i w) u (q ++ [j]) = lookup fmt mem u (q ++ [j]) ∨
      lookup fmt (write mem t i w) u (q ++ [j]) = w := by
  rw [List.length_append, List.length_singleton] at hlen
  rw [lookup_eq_follow, lookup_eq_follow, follow_write_leaf h ht hu (by omega)]
  cases follow fmt mem u q with
  | none => exact Or.inl rfl
  | some x =>
      show write mem t i w x j = mem x j ∨ write mem t i w x j = w
      rw [write_apply]
      split
      · exact Or.inr rfl
      · exact Or.inl rfl

end Write

end SnowOs.Radix
