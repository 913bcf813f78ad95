import Mathlib.Logic.Function.Iterate
import SnowOs.Linked

/-!
# Rings of cells and the loops that walk them

A circular singly linked list is a successor function and an entry cell:
`Ring nxt a l` says that following `nxt` from `a` visits the cells of `l`,
each once, and comes back to `a`. The surgery of such a list (rotating the
entry, inserting behind it, unlinking a cell, replacing the entry) is
stated on the list of cells.

The loops that walk a ring have no bound of their own. They are written
with a number of iterations they may take, and `Runs starved x P` is the
judgement about such a computation: `x` delivers a value with `P`, or it
ran out of iterations and then `starved` holds. It composes along `bind`,
so a caller learns at once what the result is and how many iterations are
enough for one.
-/

namespace SnowOs.Linked

variable {α β γ : Type}

/-! ## Computations with a bounded number of iterations -/

/-- `x` delivers a value with `P`, or was `starved`. -/
def Runs (starved : Prop) (x : Option β) (P : β → Prop) : Prop :=
  match x with
  | some b => P b
  | none => starved

@[simp] theorem runs_some {s : Prop} {b : β} {P : β → Prop} : Runs s (some b) P ↔ P b :=
  Iff.rfl

theorem Runs.bind {s : Prop} {x : Option β} {f : β → Option γ} {P : β → Prop}
    {Q : γ → Prop} (h : Runs s x P) (hf : ∀ b, P b → Runs s (f b) Q) :
    Runs s (x.bind f) Q := by
  cases x with
  | none => exact h
  | some b => exact hf b h

theorem Runs.imp {s s' : Prop} {x : Option β} {P Q : β → Prop} (h : Runs s x P)
    (hs : s → s') (hPQ : ∀ b, P b → Q b) : Runs s' x Q := by
  cases x with
  | none => exact hs h
  | some b => exact hPQ b h

theorem Runs.of_eq_some {s : Prop} {x : Option β} {b : β} {P : β → Prop}
    (h : Runs s x P) (hx : x = some b) : P b := by
  rw [hx] at h
  exact h

theorem Runs.exists_eq_some {s : Prop} {x : Option β} {P : β → Prop}
    (h : Runs s x P) (hs : ¬ s) : ∃ b, x = some b ∧ P b := by
  cases x with
  | none => exact absurd h hs
  | some b => exact ⟨b, rfl, h⟩

theorem Runs.isSome {s : Prop} {x : Option β} {P : β → Prop} (h : Runs s x P) (hs : ¬ s) :
    x.isSome := by
  obtain ⟨b, rfl, -⟩ := h.exists_eq_some hs
  rfl

/-- `x`, given enough iterations, delivers a value with `P`; it delivers no
other however many it is given. -/
def Delivers (x : Nat → Option β) (P : β → Prop) : Prop :=
  ∃ n, ∀ fuel, Runs (fuel ≤ n) (x fuel) P

/-! ## Walking to the first cell with a property -/

/-- `while (!p(it)) { prev = it; it = it->next; }`, at most `n` rounds;
delivers `prev` and `it`. -/
def walkUntil (nxt : α → α) (p : α → Prop) [DecidablePred p] :
    Nat → α → α → Option (α × α)
  | 0, _, _ => none
  | n + 1, prev, it => if p it then some (prev, it) else walkUntil nxt p n it (nxt it)

theorem walkUntil_runs {nxt : α → α} (p : α → Prop) [DecidablePred p] {c : α} (hc : p c) :
    ∀ {l : List α} {a : α} {n : Nat}, Seg nxt a l c → (∀ b ∈ l, ¬ p b) →
      Runs (n ≤ l.length) (walkUntil nxt p n a (nxt a)) fun r => r = (l.getLastD a, c)
  | l, a, 0, _, _ => Nat.zero_le _
  | [], a, n + 1, hs, _ => by
      rw [seg_nil] at hs
      rw [walkUntil, hs, if_pos hc]
      exact rfl
  | b :: l, a, n + 1, hs, hl => by
      obtain ⟨hb, hs⟩ := hs
      rw [walkUntil, hb, if_neg (hl b (List.mem_cons_self ..))]
      refine (walkUntil_runs p hc hs fun d hd => hl d (List.mem_cons_of_mem _ hd)).imp
        (fun h => Nat.succ_le_succ h) fun r hr => ?_
      rw [hr, List.getLastD_cons]

/-! ## Redirecting the end of a segment -/

theorem getLastD_mem_of_ne_nil {l : List α} {a : α} (h : l ≠ []) : l.getLastD a ∈ l := by
  cases l with
  | nil => exact absurd rfl h
  | cons b l =>
      rw [List.getLastD_cons]
      exact List.getLastD_mem_cons

theorem Seg.next_last {nxt : α → α} : ∀ {l : List α} {a b : α},
    Seg nxt a l b → nxt (l.getLastD a) = b
  | [], _, _, hs => hs
  | c :: l, a, b, hs => by
      rw [List.getLastD_cons]
      exact hs.2.next_last

theorem Seg.redirect {nxt nxt' : α → α} {c : α} : ∀ {l : List α} {a b : α},
    Seg nxt a l b → (a :: l).Nodup → nxt' (l.getLastD a) = c →
      (∀ x ∈ a :: l, x ≠ l.getLastD a → nxt' x = nxt x) → Seg nxt' a l c
  | [], _, _, _, _, hc, _ => hc
  | d :: l, a, b, hs, hnd, hc, heq => by
      rw [List.getLastD_cons] at hc heq
      have hlast : a ≠ l.getLastD d := fun h =>
        (List.nodup_cons.mp hnd).1 (h ▸ List.getLastD_mem_cons)
      refine ⟨(heq a (List.mem_cons_self ..) hlast).trans hs.1, ?_⟩
      exact hs.2.redirect (List.nodup_cons.mp hnd).2 hc
        fun x hx => heq x (List.mem_cons_of_mem _ hx)

/-- The successor of a cell before the last one is again a cell. -/
theorem Seg.next_mem {nxt : α → α} {c b : α} : ∀ {l : List α} {a x : α},
    Seg nxt a (l ++ [c]) b → x ∈ a :: l → nxt x ∈ l ++ [c]
  | [], a, x, hs, hx => by
      rw [List.mem_singleton] at hx
      rw [hx, hs.1]
      exact List.mem_cons_self ..
  | d :: l, a, x, hs, hx => by
      rcases List.mem_cons.mp hx with rfl | hx
      · rw [hs.1]
        exact List.mem_cons_self ..
      · exact List.mem_cons_of_mem _ (hs.2.next_mem hx)

/-! ## Rings -/

/-- Following `nxt` from `a` visits `l`, each cell once, and returns to `a`. -/
structure Ring (nxt : α → α) (a : α) (l : List α) : Prop where
  seg : Seg nxt a l a
  nodup : (a :: l).Nodup

namespace Ring

variable {nxt nxt' : α → α} {a b : α} {l l₁ l₂ : List α}

theorem notMem (h : Ring nxt a l) : a ∉ l :=
  (List.nodup_cons.mp h.nodup).1

theorem unique (h : Ring nxt a l₁) (h' : Ring nxt a l₂) : l₁ = l₂ :=
  h.seg.unique_of_notMem h.notMem h'.seg h'.notMem

theorem frame (h : Ring nxt a l) (heq : ∀ c ∈ a :: l, nxt' c = nxt c) : Ring nxt' a l :=
  ⟨h.seg.frame heq, h.nodup⟩

theorem next_eq_self (h : Ring nxt a l) : nxt a = a ↔ l = [] := by
  cases l with
  | nil => exact ⟨fun _ => rfl, fun _ => h.seg⟩
  | cons b l =>
      refine ⟨fun hself => ?_, fun hnil => by cases hnil⟩
      have hab : a = b := hself.symm.trans h.seg.1
      exact absurd (hab ▸ List.mem_cons_self ..) h.notMem

theorem next_mem (h : Ring nxt a l) {x : α} (hx : x ∈ a :: l) : nxt x ∈ a :: l := by
  have hs : Seg nxt a (l ++ [a]) (nxt a) := seg_append_cons.mpr ⟨h.seg, rfl⟩
  have := hs.next_mem hx
  rw [List.mem_append, List.mem_singleton] at this
  rcases this with hl | rfl
  · exact List.mem_cons_of_mem _ hl
  · exact List.mem_cons_self ..

/-- The cells of a ring are those reached from its entry. -/
theorem mem_iff_iterate (h : Ring nxt a l) : b ∈ a :: l ↔ ∃ n, nxt^[n] a = b := by
  constructor
  · intro hb
    have reach : ∀ {l : List α} {x e : α}, Seg nxt x l e → b ∈ x :: l → ∃ n, nxt^[n] x = b := by
      intro l
      induction l with
      | nil =>
          intro x e _ hb
          exact ⟨0, (List.mem_singleton.mp hb).symm⟩
      | cons d l ih =>
          intro x e hs hb
          rcases List.mem_cons.mp hb with rfl | hb
          · exact ⟨0, rfl⟩
          · obtain ⟨n, hn⟩ := ih hs.2 hb
            refine ⟨n + 1, ?_⟩
            rw [Function.iterate_succ_apply, hs.1, hn]
    exact reach h.seg hb
  · rintro ⟨n, rfl⟩
    induction n with
    | zero => exact List.mem_cons_self ..
    | succ n ih =>
        rw [Function.iterate_succ_apply']
        exact h.next_mem ih

theorem rotate (h : Ring nxt a (b :: l)) : Ring nxt b (l ++ [a]) := by
  refine ⟨seg_append_cons.mpr ⟨h.seg.2, h.seg.1⟩, ?_⟩
  have hperm : (b :: (l ++ [a])).Perm (a :: b :: l) := List.perm_append_singleton a (b :: l)
  exact hperm.nodup_iff.mpr h.nodup

theorem insert (h : Ring nxt a l) (hb : b ∉ a :: l) (hab : nxt' a = b)
    (hbn : nxt' b = nxt a) (heq : ∀ x, x ≠ a → x ≠ b → nxt' x = nxt x) :
    Ring nxt' a (b :: l) := by
  rw [List.mem_cons, not_or] at hb
  have hl : ∀ c ∈ l, nxt' c = nxt c := fun c hc =>
    heq c (fun h' => h.notMem (h' ▸ hc)) fun h' => hb.2 (h' ▸ hc)
  constructor
  · refine ⟨hab, ?_⟩
    -- from `b` on, the segment is the one that used to leave `a`
    cases l with
    | nil => exact hbn.trans h.seg
    | cons d l => exact ⟨hbn.trans h.seg.1, h.seg.2.frame hl⟩
  · refine List.nodup_cons.mpr ⟨?_, List.nodup_cons.mpr ⟨hb.2, (List.nodup_cons.mp h.nodup).2⟩⟩
    rw [List.mem_cons, not_or]
    exact ⟨fun h' => hb.1 h'.symm, h.notMem⟩

/-- Unlinking a cell other than the entry: its predecessor skips it. -/
theorem unlink (h : Ring nxt a (l₁ ++ b :: l₂)) (hprev : nxt' (l₁.getLastD a) = nxt b)
    (heq : ∀ x, x ≠ l₁.getLastD a → nxt' x = nxt x) : Ring nxt' a (l₁ ++ l₂) := by
  obtain ⟨hs₁, hs₂⟩ := seg_append_cons.mp h.seg
  have hnd : ((a :: l₁) ++ (b :: l₂)).Nodup := h.nodup
  obtain ⟨hnd₁, hnd₂, hdis⟩ := List.nodup_append.mp hnd
  have hlast : l₁.getLastD a ∈ a :: l₁ := List.getLastD_mem_cons
  constructor
  · have hs := hs₁.redirect hnd₁ hprev fun x _ hx => heq x hx
    cases l₂ with
    | nil =>
        rw [seg_nil.mp hs₂] at hs
        rw [List.append_nil]
        exact hs
    | cons c l₂ =>
        rw [hs₂.1] at hs
        refine seg_append_cons.mpr ⟨hs, hs₂.2.frame fun x hx => heq x ?_⟩
        exact fun h' => hdis _ hlast _ (List.mem_cons_of_mem _ (h' ▸ hx)) rfl
  · exact hnd.sublist ((List.sublist_cons_self b l₂).append_left (a :: l₁))

theorem replace (h : Ring nxt a l) (hne : l ≠ []) (hb : b ∉ a :: l)
    (hlast : nxt' (l.getLastD a) = b) (hbn : nxt' b = nxt a)
    (heq : ∀ x, x ≠ l.getLastD a → x ≠ b → nxt' x = nxt x) : Ring nxt' b l := by
  rw [List.mem_cons, not_or] at hb
  refine ⟨?_, List.nodup_cons.mpr ⟨hb.2, (List.nodup_cons.mp h.nodup).2⟩⟩
  cases l with
  | nil => exact absurd rfl hne
  | cons d l =>
      rw [List.getLastD_cons] at hlast heq
      refine ⟨hbn.trans h.seg.1, h.seg.2.redirect (List.nodup_cons.mp h.nodup).2 hlast ?_⟩
      exact fun x hx hx' => heq x hx' fun h' => hb.2 (h' ▸ hx)

/-- The cell whose successor is the entry is the last one of the list. -/
theorem walk_last [DecidableEq α] (h : Ring nxt a l) (hne : l ≠ []) (n : Nat) :
    Runs (n ≤ l.length) (walkUntil nxt (fun c => nxt c = a) n a (nxt a))
      fun r => r.2 = l.getLastD a := by
  obtain ⟨l', c, rfl⟩ := (List.eq_nil_or_concat' l).resolve_left hne
  obtain ⟨hs, hlast⟩ := seg_append_cons.mp h.seg
  have hbefore : ∀ x ∈ l', nxt x ≠ a := fun x hx h' =>
    h.notMem (h' ▸ h.seg.next_mem (List.mem_cons_of_mem _ hx))
  refine (walkUntil_runs (fun c => nxt c = a) (seg_nil.mp hlast) hs hbefore).imp ?_ fun r hr => ?_
  · intro hn
    rw [List.length_append]
    omega
  · rw [hr, List.getLastD_concat]

/-- Walking to a given cell of the ring also delivers its predecessor. -/
theorem walk_to [DecidableEq α] (h : Ring nxt a (l₁ ++ b :: l₂)) (n : Nat) :
    Runs (n ≤ (l₁ ++ b :: l₂).length) (walkUntil nxt (fun c => c = b) n a (nxt a))
      fun r => r = (l₁.getLastD a, b) := by
  have hnd : ((a :: l₁) ++ (b :: l₂)).Nodup := h.nodup
  have hbefore : ∀ x ∈ l₁, x ≠ b := fun x hx =>
    (List.nodup_append.mp hnd).2.2 x (List.mem_cons_of_mem _ hx) b (List.mem_cons_self ..)
  refine (walkUntil_runs (fun c => c = b) rfl (seg_append_cons.mp h.seg).1 hbefore).imp
    (fun hn => ?_) fun r hr => hr
  rw [List.length_append]
  omega

/-- Walking to the first cell with `q`, or once round to the entry. -/
theorem walk_first [DecidableEq α] (q : α → Prop) [DecidablePred q] (h : Ring nxt a l)
    (n : Nat) :
    Runs (n ≤ l.length) (walkUntil nxt (fun c => c = a ∨ q c) n a (nxt a))
      fun r => r.2 = (l.find? fun c => decide (q c)).getD a := by
  cases hf : l.find? fun c => decide (q c) with
  | none =>
      refine (walkUntil_runs (fun c => c = a ∨ q c) (Or.inl rfl) h.seg ?_).imp id
        fun r hr => by rw [hr, Option.getD_none]
      rintro b hb (rfl | hq)
      · exact h.notMem hb
      · exact List.find?_eq_none.mp hf b hb (decide_eq_true hq)
  | some c =>
      obtain ⟨hqc, l₁, l₂, rfl, hl₁⟩ := List.find?_eq_some_iff_append.mp hf
      refine (walkUntil_runs (fun c => c = a ∨ q c) (Or.inr (of_decide_eq_true hqc))
        (seg_append_cons.mp h.seg).1 ?_).imp (fun hn => ?_)
        fun r hr => by rw [hr, Option.getD_some]
      · rintro b hb (rfl | hq)
        · exact h.notMem (List.mem_append_left _ hb)
        · have := hl₁ b hb
          rw [decide_eq_true hq] at this
          cases this
      · rw [List.length_append]
        omega

end Ring

end SnowOs.Linked
