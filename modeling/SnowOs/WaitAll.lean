import SnowOs.Process

/-!
# `wait_all` reaps the zombies

The loop of `wait_all` unlinks blocks from the ring it walks, through
`reap_process`, which looks for the predecessor anew from `current_process`.
Behind the blocks `l₁` that it has passed, all of them live, the loop stands
at the first block of what is left (`waitAllFrom_runs`): a zombie is
unlinked and `prev` stays, a live block joins `l₁`. What comes out is the
ring without its zombies, whatever their number and wherever they stand; a
`current_process` that is a zombie itself is the entry and stays.
-/

namespace SnowOs.Kernel

open Linked Function

/-- The slots `is` of `processes` set to 0, one after the other. -/
def clearSlots (is : List Int) (processes : Int → Int) : Int → Int :=
  is.foldl (fun p i => update p i 0) processes

theorem clearSlots_apply (is : List Int) (p : Int → Int) (i : Int) :
    clearSlots is p i = if i ∈ is then 0 else p i := by
  induction is generalizing p with
  | nil => rfl
  | cons j is ih =>
      rw [clearSlots, List.foldl_cons, ← clearSlots, ih]
      by_cases hi : i ∈ is
      · rw [if_pos hi, if_pos (List.mem_cons_of_mem _ hi)]
      · by_cases hj : i = j
        · rw [if_neg hi, hj, update_self, if_pos (List.mem_cons_self ..)]
        · rw [if_neg hi, update_of_ne hj, if_neg fun hmem => (List.mem_cons.mp hmem).elim hj hi]

/-- `k'` is `k` with the ring `l` and the slots of the blocks `zs` set to 0. -/
def Swept (k : Kernel) (zs l : List Word) (k' : Kernel) : Prop :=
  ∃ next, Ring next k.current l ∧ k' = { k with
    next := next
    processes := clearSlots (zs.map k.pid) k.processes
    written := (zs.map k.pid).reverse ++ k.written }

section

variable {k : Kernel} {zs l : List Word}

/-- One block swept, and then the others. -/
theorem Swept.cons {k' k'' : Kernel} {a : Word} {l' : List Word} (h : k.Swept [a] l' k')
    (h' : k'.Swept zs l k'') : k.Swept (a :: zs) l k'' := by
  obtain ⟨next, -, rfl⟩ := h
  obtain ⟨next', hring, rfl⟩ := h'
  have hwritten : ((a :: zs).map k.pid).reverse ++ k.written
      = (zs.map k.pid).reverse ++ k.pid a :: k.written := by simp
  refine ⟨next', hring, ?_⟩
  rw [hwritten]
  rfl

/-! ## The loop -/

theorem reapProcess_runs {fuel : Nat} {l₁ l₂ : List Word} {b : Word}
    (hring : Ring k.next k.current (l₁ ++ b :: l₂)) :
    Runs (fuel ≤ (l₁ ++ b :: l₂).length) (k.reapProcess fuel b) (k.Swept [b] (l₁ ++ l₂)) := by
  have hb : b ≠ k.current := fun h =>
    hring.notMem (h ▸ List.mem_append_right _ (List.mem_cons_self ..))
  unfold reapProcess
  rw [if_neg hb]
  refine (hring.walk_to fuel).bind fun r hr => ?_
  subst hr
  exact ⟨_, hring.unlink (update_self ..) fun x hx => update_of_ne hx .., rfl⟩

theorem waitAllFrom_runs (fuel : Nat) : ∀ (l₁ l₂ : List Word) {n : Nat} {k : Kernel},
    Ring k.next k.current (l₁ ++ l₂) →
      Runs (n ≤ l₂.length ∨ fuel ≤ (l₁ ++ l₂).length)
        (waitAllFrom fuel n (k.next (l₁.getLastD k.current)) (l₁.getLastD k.current) k)
        (k.Swept (l₂.filter (k.state · = .zombie)) (l₁ ++ l₂.filter (k.state · ≠ .zombie)))
  | _, _, 0, _, _ => Or.inl (Nat.zero_le _)
  | l₁, [], n + 1, k, h => by
      rw [List.append_nil] at h
      rw [waitAllFrom, h.seg.next_last, if_pos rfl]
      exact ⟨k.next, by simpa using h, rfl⟩
  | l₁, b :: l₂, n + 1, k, h => by
      obtain ⟨hs, -⟩ := seg_append_cons.mp h.seg
      have hb : b ≠ k.current := fun hc =>
        h.notMem (hc ▸ List.mem_append_right _ (List.mem_cons_self ..))
      rw [waitAllFrom, hs.next_last, if_neg hb]
      by_cases hz : k.state b = .zombie
      · rw [if_pos hz]
        refine ((reapProcess_runs h).imp Or.inr fun k' h' => h').bind ?_
        intro k' h'
        obtain ⟨next, hring, hk'⟩ := id h'
        have hstate : k'.state = k.state := by rw [hk']
        have hcur : k'.current = k.current := by rw [hk']
        have ih := waitAllFrom_runs fuel l₁ l₂ (n := n) (k := k') (by rw [hcur, hk']; exact hring)
        rw [hcur, hstate] at ih
        refine ih.imp ?_ fun k'' h'' => ?_
        · rintro (hn | hf)
          · exact Or.inl (Nat.succ_le_succ hn)
          · rw [List.length_append] at hf ⊢
            exact Or.inr (hf.trans (Nat.add_le_add_left (Nat.le_succ _) _))
        · have hdead : (b :: l₂).filter (k.state · = .zombie)
              = b :: l₂.filter (k.state · = .zombie) := by simp [hz]
          have hlive : (b :: l₂).filter (k.state · ≠ .zombie)
              = l₂.filter (k.state · ≠ .zombie) := by simp [hz]
          rw [hdead, hlive]
          exact h'.cons h''
      · rw [if_neg hz]
        have hlast : (l₁ ++ [b]).getLastD k.current = b := List.getLastD_concat ..
        have ih := waitAllFrom_runs fuel (l₁ ++ [b]) l₂ (n := n) (k := k) (by simpa using h)
        rw [hlast] at ih
        refine ih.imp ?_ ?_
        · rintro (hn | hf)
          · exact Or.inl (Nat.succ_le_succ hn)
          · exact Or.inr (by simpa using hf)
        · rintro k' ⟨next, hring, rfl⟩
          exact ⟨next, by simpa [hz] using hring, by simp [hz]⟩

theorem waitAll_runs {fuel : Nat} (hring : Ring k.next k.current l) :
    Runs (fuel ≤ l.length) (k.waitAll fuel)
      (k.Swept (l.filter (k.state · = .zombie)) (l.filter (k.state · ≠ .zombie))) :=
  (waitAllFrom_runs fuel [] l hring).imp (fun h => h.elim id id) fun _ h => h

end

/-! ## What is reaped -/

/-- From the ring `l` behind `current_process` exactly the zombies are gone:
the others follow each other as before, no field but `next` is written, and
of `processes` exactly the slots of the zombies, which are now 0. -/
structure ReapsZombies (k : Kernel) (l : List Word) (k' : Kernel) : Prop where
  current : k'.current = k.current
  ring : Ring k'.next k'.current (l.filter (k.state · ≠ .zombie))
  pid : k'.pid = k.pid
  ppid : k'.ppid = k.ppid
  numChild : k'.numChild = k.numChild
  state : k'.state = k.state
  cont : k'.cont = k.cont
  birth : k'.birth = k.birth
  cleared : ∀ a ∈ l, k.state a = .zombie → k'.processes (k.pid a) = 0
  slots : ∀ i, (∀ a ∈ l, k.state a = .zombie → k.pid a ≠ i) → k'.processes i = k.processes i
  members : ∀ a ∈ k'.current :: l.filter (k.state · ≠ .zombie),
    k'.processes (k.pid a) = k.processes (k.pid a)
  written : k'.written = ((l.filter (k.state · = .zombie)).map k.pid).reverse ++ k.written
  inside : ∀ i ∈ k'.written, i ∈ k.written ∨ 1 ≤ i ∧ i < maxP

/-- `wait_all` comes to an end and reaps exactly the zombies. -/
theorem waitAll_reaps (k : Kernel) (l : List Word) (hring : Ring k.next k.current l)
    (hpids : ((k.current :: l).map k.pid).Nodup)
    (hrange : ∀ a ∈ k.current :: l, 1 ≤ k.pid a ∧ k.pid a < maxP) (fuel : Nat)
    (hfuel : l.length < fuel) : ∃ k', k.waitAll fuel = some k' ∧ k.ReapsZombies l k' := by
  obtain ⟨k', hk', next, hnext, rfl⟩ :=
    (waitAll_runs hring).exists_eq_some (Nat.not_le.mpr hfuel)
  refine ⟨_, hk', ?_⟩
  have hzombie : ∀ {a}, a ∈ l.filter (k.state · = .zombie) ↔ a ∈ l ∧ k.state a = .zombie := by
    simp
  have hslots : ∀ i, (∀ a ∈ l, k.state a = .zombie → k.pid a ≠ i) →
      clearSlots ((l.filter (k.state · = .zombie)).map k.pid) k.processes i = k.processes i := by
    intro i hi
    rw [clearSlots_apply, if_neg]
    rintro hmem
    obtain ⟨z, hz, rfl⟩ := List.mem_map.mp hmem
    exact hi z (hzombie.mp hz).1 (hzombie.mp hz).2 rfl
  refine ⟨rfl, hnext, rfl, rfl, rfl, rfl, rfl, rfl, fun a ha hz => ?_, hslots, fun a ha => ?_, rfl,
    fun i hi => ?_⟩
  · exact (clearSlots_apply ..).trans (if_pos (List.mem_map_of_mem (hzombie.mpr ⟨ha, hz⟩)))
  · refine hslots _ fun z hz hzz heq => ?_
    have hmem : a ∈ k.current :: l := by
      rcases List.mem_cons.mp ha with rfl | ha
      · exact List.mem_cons_self ..
      · exact List.mem_cons_of_mem _ (List.mem_filter.mp ha).1
    obtain rfl := List.inj_on_of_nodup_map hpids (List.mem_cons_of_mem _ hz) hmem heq
    rcases List.mem_cons.mp ha with rfl | ha
    · exact hring.notMem hz
    · simp [hzz] at ha
  · rcases List.mem_append.mp hi with hi | hi
    · obtain ⟨z, hz, rfl⟩ := List.mem_map.mp (List.mem_reverse.mp hi)
      exact Or.inr (hrange z (List.mem_cons_of_mem _ (hzombie.mp hz).1))
    · exact Or.inl hi

/-- A ring of four, two zombies in a row behind `current_process`. -/
def twoZombies : Kernel where
  current := 1
  next a := if a = 4 then 1 else a + 1
  pid a := a.toNat
  ppid _ := 1
  numChild _ := 0
  state a := if a = 1 then .running else if a = 4 then .queued else .zombie
  cont _ := .user
  processes i := if 1 ≤ i ∧ i ≤ 4 then 1 else 0
  written := []
  console := []
  birth _ := ⟨0, none⟩
  births := 4

theorem waitAll_reaps_twoZombies :
    ∃ k', twoZombies.waitAll 4 = some k' ∧ twoZombies.ReapsZombies [2, 3, 4] k' := by
  have hring : Ring twoZombies.next twoZombies.current [2, 3, 4] :=
    ⟨⟨rfl, rfl, rfl, rfl⟩, by decide⟩
  have hpids : ([1, 2, 3, 4] : List Word).map twoZombies.pid = [1, 2, 3, 4] := rfl
  refine waitAll_reaps twoZombies [2, 3, 4] hring (hpids ▸ by decide) (fun a ha => ?_) 4 (by simp)
  have hpid : twoZombies.pid a ∈ ([1, 2, 3, 4] : List Int) := hpids ▸ List.mem_map_of_mem ha
  simp only [List.mem_cons, List.not_mem_nil, or_false] at hpid
  rw [maxP]
  omega

end SnowOs.Kernel
