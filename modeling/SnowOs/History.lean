import Mathlib.Data.List.Basic

/-!
# Properties of histories

A history is the list of what happened, oldest first. A property of each
element against what happened before it is checked by appending the
elements one at a time (`each_concat`).
-/

namespace SnowOs

/-- Each element of the history satisfies `P` with what is before it. -/
def Each {α : Type} (P : List α → α → Prop) (l : List α) : Prop :=
  ∀ before a after, l = before ++ a :: after → P before a

theorem each_nil {α : Type} {P : List α → α → Prop} : Each P [] :=
  fun before a after h => absurd h (by simp)

theorem each_concat {α : Type} {P : List α → α → Prop} {l : List α} {a : α} :
    Each P (l ++ [a]) ↔ Each P l ∧ P l a := by
  constructor
  · intro h
    refine ⟨fun before b after heq => ?_, h l a [] rfl⟩
    exact h before b (after ++ [a]) (by simp [heq])
  · rintro ⟨hl, ha⟩ before b after heq
    rcases List.eq_nil_or_concat after with rfl | ⟨init, c, rfl⟩
    · obtain ⟨rfl, hb⟩ := List.append_inj' heq rfl
      rwa [← (List.cons.inj hb).1]
    · rw [List.concat_eq_append, ← List.cons_append, ← List.append_assoc] at heq
      exact hl before b init (List.append_inj' heq rfl).1

theorem each_congr {α : Type} {P Q : List α → α → Prop} (h : ∀ before a, P before a ↔ Q before a)
    {l : List α} : Each P l ↔ Each Q l := by
  simp only [Each, h]

end SnowOs
