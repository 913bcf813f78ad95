import Mathlib.Data.List.Nodup
import Mathlib.Data.List.Infix

/-!
# Linked structures read through a `next` function

Singly linked structures in a flat store are a *successor function*
together with an entry pointer. Two shapes are enough here:

- `Chain nxt h l`: following `nxt` from the (possibly null) head `h`
  visits exactly the cells of `l` and then meets the null pointer;
- `Seg nxt a l b`: the cells strictly between `a` and the first arrival
  at `b` are exactly `l`. A ring through `a` is `Seg nxt a l a`.

Both determine their list (`Chain.unique`, `Seg.unique_of_notMem`), so a
null-terminated chain can never repeat a cell (`Chain.nodup`). What an
operation has to supply is only *which successor it rewrote*: chains and
segments that avoid the rewritten cell survive (`Chain.frame`,
`Seg.frame`).
-/

namespace SnowOs.Linked

variable {α : Type}

/-! ## Null-terminated chains -/

/-- Following `nxt` from `h` visits exactly `l`, then stops. -/
def Chain (nxt : α → Option α) : Option α → List α → Prop
  | h, [] => h = none
  | h, a :: l => h = some a ∧ Chain nxt (nxt a) l

instance Chain.decidable [DecidableEq α] (nxt : α → Option α) :
    ∀ (h : Option α) (l : List α), Decidable (Chain nxt h l)
  | h, [] => inferInstanceAs (Decidable (h = none))
  | h, a :: l =>
      have := Chain.decidable nxt (nxt a) l
      inferInstanceAs (Decidable (h = some a ∧ Chain nxt (nxt a) l))

@[simp] theorem chain_nil {nxt : α → Option α} {h : Option α} :
    Chain nxt h [] ↔ h = none := Iff.rfl

@[simp] theorem chain_cons {nxt : α → Option α} {h : Option α} {a : α}
    {l : List α} : Chain nxt h (a :: l) ↔ h = some a ∧ Chain nxt (nxt a) l :=
  Iff.rfl

/-- A head pointer determines the chain hanging off it. -/
theorem Chain.unique {nxt : α → Option α} : ∀ {l l' : List α} {h : Option α},
    Chain nxt h l → Chain nxt h l' → l = l'
  | [], [], _, _, _ => rfl
  | [], b :: l', h, h1, h2 => by
      rw [chain_nil] at h1
      rw [chain_cons, h1] at h2
      exact absurd h2.1 (by simp)
  | a :: l, [], h, h1, h2 => by
      rw [chain_nil] at h2
      rw [chain_cons, h2] at h1
      exact absurd h1.1 (by simp)
  | a :: l, b :: l', h, h1, h2 => by
      obtain rfl : a = b := Option.some.inj (h1.1.symm.trans h2.1)
      rw [h1.2.unique h2.2]

/-- The part of a chain from one of its cells on is a chain of its own. -/
theorem Chain.of_append_cons {nxt : α → Option α} : ∀ {l₁ l₂ : List α}
    {h : Option α} {a : α}, Chain nxt h (l₁ ++ a :: l₂) →
      Chain nxt (some a) (a :: l₂)
  | [], _, _, _, hc => ⟨rfl, hc.2⟩
  | _ :: _, _, _, _, hc => hc.2.of_append_cons

/-- A null-terminated chain never revisits a cell: a second visit would
have to be followed by the same cells as the first, forever. -/
theorem Chain.nodup {nxt : α → Option α} : ∀ {l : List α} {h : Option α},
    Chain nxt h l → l.Nodup
  | [], _, _ => List.nodup_nil
  | a :: l, h, hc => by
      refine List.nodup_cons.mpr ⟨fun hmem => ?_, hc.2.nodup⟩
      obtain ⟨l₁, l₂, rfl⟩ := List.append_of_mem hmem
      have hlong : Chain nxt (some a) (a :: (l₁ ++ a :: l₂)) := ⟨rfl, hc.2⟩
      have hshort : Chain nxt (some a) (a :: l₂) := hc.2.of_append_cons
      have hlen := congrArg List.length (hlong.unique hshort)
      simp at hlen
      omega

/-- A chain only depends on the successors of its own cells. -/
theorem Chain.frame {nxt nxt' : α → Option α} : ∀ {l : List α} {h : Option α},
    Chain nxt h l → (∀ a ∈ l, nxt' a = nxt a) → Chain nxt' h l
  | [], _, hc, _ => hc
  | a :: l, h, hc, heq => by
      refine ⟨hc.1, ?_⟩
      rw [heq a (List.mem_cons_self ..)]
      exact hc.2.frame fun b hb => heq b (List.mem_cons_of_mem _ hb)

theorem Chain.push {nxt nxt' : α → Option α} {l : List α} {h : Option α}
    {a : α} (hc : Chain nxt h l) (hself : nxt' a = h)
    (heq : ∀ b ∈ l, nxt' b = nxt b) : Chain nxt' (some a) (a :: l) :=
  ⟨rfl, by rw [hself]; exact hc.frame heq⟩

theorem Chain.concat {nxt nxt' : α → Option α} {a b : α} : ∀ {l : List α} {h : Option α},
    Chain nxt h (l ++ [b]) → nxt' b = some a → nxt' a = none →
      (∀ c ∈ l, nxt' c = nxt c) → Chain nxt' h (l ++ [b] ++ [a])
  | [], _, hc, hlink, hend, _ => ⟨hc.1, hlink, hend⟩
  | d :: l, _, hc, hlink, hend, heq => by
      refine ⟨hc.1, ?_⟩
      rw [heq d (List.mem_cons_self ..)]
      exact Chain.concat hc.2 hlink hend fun c hcl => heq c (List.mem_cons_of_mem _ hcl)

/-- A cell of the chain is redirected to a chain that avoids what is in
front of it. -/
theorem Chain.redirect {nxt nxt' : α → Option α} {a : α} {r t : List α} :
    ∀ {l : List α} {h : Option α}, Chain nxt h (l ++ a :: r) → Chain nxt' (nxt' a) t →
      (∀ b ∈ l, nxt' b = nxt b) → Chain nxt' h (l ++ a :: t)
  | [], _, hc, ht, _ => ⟨hc.1, ht⟩
  | d :: l, _, hc, ht, heq => by
      refine ⟨hc.1, ?_⟩
      rw [heq d (List.mem_cons_self ..)]
      exact Chain.redirect hc.2 ht fun b hb => heq b (List.mem_cons_of_mem _ hb)

/-- Redirecting `a` only changes what comes after `a`. -/
theorem Chain.mem_of_redirect {nxt nxt' : α → Option α} {a : α}
    (heq : ∀ b, b ≠ a → nxt' b = nxt b) : ∀ {l l' : List α} {h : Option α},
    Chain nxt h l → Chain nxt' h l' → a ∈ l → a ∈ l'
  | b :: l, [], h, hc, hc', _ => by
      rw [chain_nil] at hc'
      rw [chain_cons, hc'] at hc
      exact absurd hc.1 (by simp)
  | b :: l, b' :: l', h, hc, hc', hmem => by
      obtain rfl : b = b' := Option.some.inj (hc.1.symm.trans hc'.1)
      by_cases hab : b = a
      · rw [hab]
        exact List.mem_cons_self ..
      · have hrest := hc'.2
        rw [heq b hab] at hrest
        have hmem' := (List.mem_cons.mp hmem).resolve_left fun h => hab h.symm
        exact List.mem_cons_of_mem _ (hc.2.mem_of_redirect heq hrest hmem')

/-- Pushing a cell that is already on the chain closes a cycle. -/
theorem Chain.not_chain_push {nxt nxt' : α → Option α} {l l' : List α} {h : Option α}
    {a : α} (hc : Chain nxt h l) (hself : nxt' a = h)
    (heq : ∀ b, b ≠ a → nxt' b = nxt b) (hmem : a ∈ l) : ¬ Chain nxt' (some a) l' := by
  intro hc'
  cases l' with
  | nil => cases hc'
  | cons b l' =>
      obtain rfl : a = b := Option.some.inj hc'.1
      have hrest := hc'.2
      rw [hself] at hrest
      exact (List.nodup_cons.mp hc'.nodup).1 (hc.mem_of_redirect heq hrest hmem)

theorem Chain.head_ne_none {nxt : α → Option α} {l : List α} {h : Option α}
    (hc : Chain nxt h l) (hpos : 0 < l.length) : ∃ a t, l = a :: t ∧ h = some a := by
  cases l with
  | nil => simp at hpos
  | cons a t => exact ⟨a, t, rfl, hc.1⟩

/-! ## Reachable cells

Following `nxt` may never end; what it meets is still well defined, and is
the chain wherever there is one. -/

/-- Following `nxt` from `h` meets the cell. -/
inductive Reached (nxt : α → Option α) (h : Option α) : α → Prop
  | head {a : α} : h = some a → Reached nxt h a
  | next {a b : α} : Reached nxt h a → nxt a = some b → Reached nxt h b

theorem Reached.of_tail {nxt : α → Option α} {a b : α} (hr : Reached nxt (nxt a) b) :
    Reached nxt (some a) b := by
  induction hr with
  | head hb => exact (Reached.head rfl).next hb
  | next _ hc ih => exact ih.next hc

theorem Reached.head_or_tail {nxt : α → Option α} {a b : α} (hr : Reached nxt (some a) b) :
    b = a ∨ Reached nxt (nxt a) b := by
  induction hr with
  | head hb => exact Or.inl (Option.some.inj hb).symm
  | next _ hc ih =>
      rcases ih with rfl | ih
      · exact Or.inr (.head hc)
      · exact Or.inr (ih.next hc)

theorem Chain.reached_iff {nxt : α → Option α} : ∀ {l : List α} {h : Option α} {a : α},
    Chain nxt h l → (Reached nxt h a ↔ a ∈ l)
  | [], _, a, rfl => by
      refine iff_of_false (fun hr => ?_) List.not_mem_nil
      induction hr with
      | head ha => cases ha
      | next _ _ ih => exact ih
  | b :: l, _, a, ⟨rfl, hc⟩ => by
      rw [List.mem_cons, ← hc.reached_iff]
      constructor
      · exact Reached.head_or_tail
      · rintro (rfl | hr)
        · exact .head rfl
        · exact hr.of_tail

theorem Reached.of_push {nxt nxt' : α → Option α} {h : Option α} {a b : α}
    (hself : nxt' a = h) (heq : ∀ c, c ≠ a → nxt' c = nxt c)
    (hr : Reached nxt' (some a) b) : b = a ∨ Reached nxt h b := by
  induction hr with
  | head hb => exact Or.inl (Option.some.inj hb).symm
  | @next c d _ hd ih =>
      by_cases hca : c = a
      · rw [hca, hself] at hd
        exact Or.inr (.head hd)
      · rw [heq c hca] at hd
        exact Or.inr ((ih.resolve_left hca).next hd)

/-! ## Segments and rings -/

/-- The cells strictly between `a` and the first arrival at `b`. -/
def Seg (nxt : α → α) : α → List α → α → Prop
  | a, [], b => nxt a = b
  | a, c :: l, b => nxt a = c ∧ Seg nxt c l b

instance Seg.decidable [DecidableEq α] (nxt : α → α) :
    ∀ (a : α) (l : List α) (b : α), Decidable (Seg nxt a l b)
  | a, [], b => inferInstanceAs (Decidable (nxt a = b))
  | a, c :: l, b =>
      have := Seg.decidable nxt c l b
      inferInstanceAs (Decidable (nxt a = c ∧ Seg nxt c l b))

@[simp] theorem seg_nil {nxt : α → α} {a b : α} :
    Seg nxt a [] b ↔ nxt a = b := Iff.rfl

@[simp] theorem seg_cons {nxt : α → α} {a b c : α} {l : List α} :
    Seg nxt a (c :: l) b ↔ nxt a = c ∧ Seg nxt c l b := Iff.rfl

theorem seg_append_cons {nxt : α → α} : ∀ {l₁ l₂ : List α} {a b c : α},
    Seg nxt a (l₁ ++ c :: l₂) b ↔ Seg nxt a l₁ c ∧ Seg nxt c l₂ b
  | [], _, _, _, _ => Iff.rfl
  | d :: l₁, l₂, a, b, c => by
      rw [List.cons_append, seg_cons, seg_cons, seg_append_cons, and_assoc]

/-- A segment only depends on the successors of its start and cells. -/
theorem Seg.frame {nxt nxt' : α → α} : ∀ {l : List α} {a b : α},
    Seg nxt a l b → (∀ c ∈ a :: l, nxt' c = nxt c) → Seg nxt' a l b
  | [], a, b, hs, heq => by
      rw [seg_nil, heq a (List.mem_cons_self ..)]; exact hs
  | c :: l, a, b, hs, heq => by
      refine ⟨(heq a (List.mem_cons_self ..)).trans hs.1, ?_⟩
      exact hs.2.frame fun d hd => heq d (List.mem_cons_of_mem _ hd)

/-- Two segments from the same cell that both stop at their first arrival
at `b` are the same. -/
theorem Seg.unique_of_notMem {nxt : α → α} : ∀ {l l' : List α} {a b : α},
    Seg nxt a l b → b ∉ l → Seg nxt a l' b → b ∉ l' → l = l'
  | [], [], _, _, _, _, _, _ => rfl
  | [], c :: l', a, b, h1, _, h2, hb => by
      have hcb : c = b := h2.1.symm.trans h1
      exact absurd (hcb ▸ List.mem_cons_self ..) hb
  | c :: l, [], a, b, h1, hb, h2, _ => by
      have hcb : c = b := h1.1.symm.trans h2
      exact absurd (hcb ▸ List.mem_cons_self ..) hb
  | c :: l, d :: l', a, b, h1, hb1, h2, hb2 => by
      obtain rfl : c = d := h1.1.symm.trans h2.1
      rw [List.mem_cons, not_or] at hb1 hb2
      rw [h1.2.unique_of_notMem hb1.2 h2.2 hb2.2]

end SnowOs.Linked
