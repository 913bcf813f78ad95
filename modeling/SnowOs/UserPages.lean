import SnowOs.CowIsolation

/-!
# User memory as a process sees it

The abstract view of the user half of the current address space is a
partial map from addresses to bytes. Two things happen to it: a fresh page
appears, all zero (`zeroPage`), and a byte of a page that is there is
replaced (`putByte`).

`Shows roots base m μ K` says that the machine `m` holds the bytes of `μ`, in
pages of their own: each page of `μ` has its own frame, which is neither a
table nor free. `K` are blocks of the kernel heap in use; a block that
`kmalloc` returns later is none of them (`Shows.kmalloc_new`). `Shows` is
kept by what the kernel does on its own account, by mapping a fresh frame
(`Shows.mapFresh`) and by a store (`Shows.writeByte`), each with its
counterpart on `μ`; and what it shows is what the processor reads
(`Shows.readByte`). Pages that are not in `μ` are mapped as `base` says.

What mapping fresh frames does to pages that are mapped already is
`Forest.mapAll`, on the leaves of all address spaces.
-/

namespace SnowOs

open Radix

/-! ## The abstract memory -/

/-- The bytes of user memory that are there. -/
abbrev UserMem := Nat → Option Byte

namespace UserMem

/-- Page `p` appears, all zero. -/
def zeroPage (μ : UserMem) (p : Nat) : UserMem :=
  fun a => if a / 4096 = p then some 0 else μ a

def putByte (μ : UserMem) (a : Nat) (b : Byte) : UserMem :=
  fun x => if x = a then (μ a).map fun _ => b else μ x

/-- The pages `p`, ..., `p + n - 1` appear. -/
def zeroPages (μ : UserMem) (p : Nat) : Nat → UserMem
  | 0 => μ
  | n + 1 => (zeroPage μ p).zeroPages (p + 1) n

def putBytes (μ : UserMem) (a : Nat) : List Byte → UserMem
  | [] => μ
  | b :: bs => (putByte μ a b).putBytes (a + 1) bs

theorem zeroPages_apply (n p : Nat) (μ : UserMem) (a : Nat) :
    μ.zeroPages p n a = if p ≤ a / 4096 ∧ a / 4096 < p + n then some 0 else μ a := by
  induction n generalizing p μ with
  | zero => exact (if_neg (by omega)).symm
  | succ n ih =>
      rw [zeroPages, ih, zeroPage]
      by_cases hfirst : a / 4096 = p
      · rw [if_neg (by omega), if_pos hfirst, if_pos (by omega)]
      · rw [if_neg hfirst]
        by_cases hrest : p + 1 ≤ a / 4096 ∧ a / 4096 < p + 1 + n
        · rw [if_pos hrest, if_pos (by omega)]
        · rw [if_neg hrest, if_neg (by omega)]

theorem putByte_isSome (μ : UserMem) (a x : Nat) (b : Byte) :
    (μ.putByte a b x).isSome = (μ x).isSome := by
  rw [putByte]
  split
  · rename_i heq
    rw [heq, Option.isSome_map]
  · rfl

/-- What is read behind a store. -/
theorem putBytes_apply (bs : List Byte) (μ : UserMem) (a : Nat)
    (hμ : ∀ i < bs.length, (μ (a + i)).isSome) (x : Nat) :
    μ.putBytes a bs x = if a ≤ x ∧ x < a + bs.length then bs[x - a]? else μ x := by
  induction bs generalizing μ a with
  | nil => exact (if_neg (by simp)).symm
  | cons b bs ih =>
      have hrest : ∀ i < bs.length, (μ.putByte a b (a + 1 + i)).isSome := by
        intro i hi
        rw [putByte_isSome, Nat.add_assoc, Nat.add_comm 1]
        exact hμ (i + 1) (Nat.succ_lt_succ hi)
      have hfirst := hμ 0 (Nat.zero_lt_succ _)
      rw [putBytes, ih _ _ hrest, List.length_cons]
      by_cases hx : x = a
      · rw [if_neg (by omega), if_pos (by omega), hx, Nat.sub_self, putByte, if_pos rfl]
        obtain ⟨c, hc⟩ := Option.isSome_iff_exists.mp hfirst
        rw [Nat.add_zero] at hc
        rw [hc]
        rfl
      · by_cases hin : a + 1 ≤ x ∧ x < a + 1 + bs.length
        · rw [if_pos hin, if_pos (by omega), show x - a = x - (a + 1) + 1 by omega,
            List.getElem?_cons_succ]
        · rw [if_neg hin, if_neg (by omega), putByte, if_neg hx]

end UserMem

namespace Machine

/-! ## Addresses -/

/-- The part of an address that the processor translates. -/
def virtual (v : Word) : Nat := v.toNat % 2 ^ 48

theorem virtual_page (v : Word) : virtual v / 4096 = pageIndex v := by
  rw [virtual, pageIndex]
  omega

theorem virtual_offset (v : Word) : virtual v % 4096 = pageOffset v := by
  rw [virtual, pageOffset]
  omega

/-- Below the middle of the address space an address is all of itself. -/
theorem virtual_of_lt {v : Word} (h : v.toNat < 2 ^ 48) : virtual v = v.toNat :=
  Nat.mod_eq_of_lt h

/-! ## The machine shows the memory -/

/-- The pages in the domain of `φ` are mapped, each to its own frame, the
other pages have the leaves of `base`, and the frames of the blocks `K` are
in use. -/
structure Owns (roots : List Word) (base : List (Fin 512) → Word) (m : Machine)
    (lab : Word → Option Node) (l : List Nat) (φ : Nat → Option Word) (K : List Word) : Prop where
  forest : Forest roots m lab l
  held : ∀ {p f}, φ p = some f → Held lab l f
  leaf : ∀ {v f}, φ (pageIndex v) = some f → m.entryAt m.cr3 (path v) = f ||| userRwFlags
  user : ∀ {v f}, φ (pageIndex v) = some f → UserPath (path v)
  inj : ∀ {p q f}, φ p = some f → φ q = some f → p = q
  rest : ∀ {v}, φ (pageIndex v) = none → UserPath (path v) →
    m.entryAt m.cr3 (path v) = base (path v)
  block : ∀ a ∈ K, ∃ f, Held lab l f ∧ a = kernelVirtualBase + f

/-- The bytes of the pages that `φ` places. -/
def view (m : Machine) (φ : Nat → Option Word) : UserMem :=
  fun a => (φ (a / 4096)).map fun f => m.byteAt f (a % 4096)

/-- The machine holds the bytes of `μ` in the user half of the current
address space, and the blocks `K` in the kernel heap. -/
def Shows (roots : List Word) (base : List (Fin 512) → Word) (m : Machine) (μ : UserMem)
    (K : List Word) : Prop :=
  ∃ lab l φ, Owns roots base m lab l φ K ∧ m.view φ = μ

section Shows

variable {roots : List Word} {base : List (Fin 512) → Word} {m m' : Machine}
  {lab lab' : Word → Option Node} {l l' : List Nat} {φ : Nat → Option Word} {μ : UserMem}
  {K : List Word} {v : Word}

theorem Shows.forest (h : Shows roots base m μ K) : ∃ lab l, Forest roots m lab l := by
  obtain ⟨lab, l, φ, hO, -⟩ := h
  exact ⟨lab, l, hO.forest⟩

theorem byteAt_of_mem {f : Word} (h : m'.mem f = m.mem f) (k : Nat) :
    m'.byteAt f k = m.byteAt f k := by
  rw [byteAt, byteAt, h]

theorem Owns.translate (h : Owns roots base m lab l φ K) {f : Word}
    (hf : φ (pageIndex v) = some f) : m.translate m.cr3 v = some f := by
  have hheld := h.held hf
  rw [translate_eq, h.leaf hf, if_pos (present_or hheld.aligned userRwFlags_flagWord),
    frame_or hheld.aligned userRwFlags_flagWord.small]

/-- What is shown is what the processor reads. -/
theorem Shows.readByte (h : Shows roots base m μ K) {b : Byte} (hb : μ (virtual v) = some b) :
    m.readByte m.cr3 v = some b := by
  obtain ⟨lab, l, φ, hO, rfl⟩ := h
  rw [view, virtual_page, virtual_offset] at hb
  obtain ⟨f, hf, rfl⟩ := Option.map_eq_some_iff.mp hb
  rw [readByte_eq, hO.translate hf, Option.map_some]

theorem Shows.translate (h : Shows roots base m μ K) (hv : (μ (virtual v)).isSome) :
    ∃ f, m.translate m.cr3 v = some f := by
  obtain ⟨lab, l, φ, hO, rfl⟩ := h
  rw [view, Option.isSome_map, virtual_page] at hv
  obtain ⟨f, hf⟩ := Option.isSome_iff_exists.mp hv
  exact ⟨f, hO.translate hf⟩

theorem Owns.blocks (h : Owns roots base m lab l φ K) (hk : Keeps m lab l m' lab' l') :
    ∀ a ∈ K, ∃ f, Held lab' l' f ∧ a = kernelVirtualBase + f := by
  intro a ha
  obtain ⟨f, hf, heq⟩ := h.block a ha
  exact ⟨f, hk.held hf, heq⟩

theorem Owns.quiet (h : Owns roots base m lab l φ K) (hq : Quiet roots m lab l m' lab' l') :
    Owns roots base m' lab' l' φ K ∧ m'.view φ = m.view φ := by
  refine ⟨⟨hq.forest, fun hf => hq.keeps.held (h.held hf), fun {v f} hf => ?_, h.user, h.inj,
    fun {v} hf hv => ?_, h.blocks hq.keeps⟩, funext fun a => ?_⟩
  · rw [hq.cr3, hq.user _ h.forest.current _ (length_path v) (h.user hf)]
    exact h.leaf hf
  · rw [hq.cr3, hq.user _ h.forest.current _ (length_path v) hv]
    exact h.rest hf hv
  · rw [view, view]
    cases hf : φ (a / 4096) with
    | none => rfl
    | some f => exact congrArg some (byteAt_of_mem (hq.keeps.mem (h.held hf)) _)

theorem Shows.kmalloc_new (h : Shows roots base m μ K) {n : BitVec 32} (hn : noOfPages n = 1)
    (hlog : (0 : Word) ∉ (m.kmalloc n).2.log) :
    (m.kmalloc n).1 ∉ K ∧ (m.kmalloc n).1 ≠ 0 ∧
      Shows roots base (m.kmalloc n).2 μ ((m.kmalloc n).1 :: K) := by
  obtain ⟨lab, l, φ, hO, rfl⟩ := h
  rw [kmalloc_onePage m hn] at hlog ⊢
  obtain ⟨lab', l', hM⟩ := hO.forest.mapFresh kernelRwFlags_flagWord hlog
  have hkernel : ¬ UserPath (path (kernelVirtualBase + m.getFreePage.1)) := by
    have := not_userPath_kernel hM.low (show 0 < maxPages by decide)
    rwa [Nat.zero_mul, BitVec.add_zero] at this
  have hq := hM.quiet hkernel
  obtain ⟨hO', hview⟩ := hO.quiet hq
  refine ⟨fun hmem => ?_, fun hzero => hkernel ?_, lab', l', φ, ⟨hO'.forest, hO'.held, hO'.leaf,
    hO'.user, hO'.inj, hO'.rest, fun a ha => ?_⟩, hview⟩
  · obtain ⟨f, hf, heq⟩ := hO.block _ hmem
    have hsame : m.getFreePage.1 = f := (BitVec.add_right_inj kernelVirtualBase).mp heq
    exact hM.distinct hf hsame.symm
  · rw [show kernelVirtualBase + m.getFreePage.1 = 0 from hzero]
    decide
  · rcases List.mem_cons.mp ha with rfl | ha
    · exact ⟨_, hM.fresh, rfl⟩
    · exact hO'.block a ha

theorem Shows.mapFresh (h : Shows roots base m μ K) (hv : UserPath (path v))
    (hlog : (0 : Word) ∉ (m.mapFresh v userRwFlags).log) :
    Shows roots base (m.mapFresh v userRwFlags) (μ.zeroPage (pageIndex v)) K := by
  obtain ⟨lab, l, φ, hO, rfl⟩ := h
  obtain ⟨lab', l', hM⟩ := hO.forest.mapFresh userRwFlags_flagWord hlog
  have hzero := hM.zero
  generalize m.mapFresh v userRwFlags = m' at hM hzero
  have hfresh : ∀ {p f}, φ p = some f → f ≠ m.getFreePage.1 := fun hf => hM.distinct (hO.held hf)
  refine ⟨lab', l', Function.update φ (pageIndex v) (some m.getFreePage.1),
    ⟨hM.forest, fun {p f} hf => ?_, fun {u f} hf => ?_, fun {u f} hf => ?_,
      fun {p q f} hp hq => ?_, fun {u} hf hu => ?_, hO.blocks hM.keeps⟩, funext fun a => ?_⟩
  · rw [Function.update_apply] at hf
    split at hf
    · rw [← Option.some.inj hf]
      exact hM.fresh
    · exact hM.keeps.held (hO.held hf)
  · rw [Function.update_apply] at hf
    split at hf
    · rename_i hpage
      rw [(path_eq_iff u v).mpr hpage, hM.cr3, hM.self, Option.some.inj hf]
    · rename_i hpage
      rw [hM.cr3, hM.other _ hO.forest.current _ (length_path u) (Or.inr hv)
        fun hc => hpage ((path_eq_iff u v).mp hc.2)]
      exact hO.leaf hf
  · rw [Function.update_apply] at hf
    split at hf
    · rename_i hpage
      rw [(path_eq_iff u v).mpr hpage]
      exact hv
    · exact hO.user hf
  · rw [Function.update_apply] at hp hq
    split at hp <;> split at hq
    · rename_i hpv hqv
      exact hpv.trans hqv.symm
    · exact absurd (Option.some.inj hp).symm (hfresh hq)
    · exact absurd (Option.some.inj hq).symm (hfresh hp)
    · exact hO.inj hp hq
  · rw [Function.update_apply] at hf
    split at hf
    · cases hf
    · rename_i hpage
      rw [hM.cr3, hM.other _ hO.forest.current _ (length_path u) (Or.inr hv)
        fun hc => hpage ((path_eq_iff u v).mp hc.2)]
      exact hO.rest hf hu
  · rw [view, UserMem.zeroPage, Function.update_apply]
    split
    · rw [Option.map_some, byteAt, hzero]
      exact congrArg some (BitVec.eq_of_toNat_eq (by simp [loadByte]))
    · rw [view]
      cases hf : φ (a / 4096) with
      | none => rfl
      | some f => exact congrArg some (byteAt_of_mem (hM.keeps.mem (hO.held hf)) _)

theorem Shows.writeByte (h : Shows roots base m μ K) (hv : (μ (virtual v)).isSome) (b : Byte) :
    Shows roots base (m.writeByte m.cr3 v b) (μ.putByte (virtual v) b) K := by
  obtain ⟨lab, l, φ, hO, rfl⟩ := h
  rw [view, Option.isSome_map, virtual_page] at hv
  obtain ⟨f, hf⟩ := Option.isSome_iff_exists.mp hv
  have hheld := hO.held hf
  have hwrite : m.writeByte m.cr3 v b = m.setByte f (pageOffset v) b := by
    rw [writeByte_eq, hO.translate hf]
  have hmem : ∀ u, u ≠ f → (m.setByte f (pageOffset v) b).mem u = m.mem u :=
    fun u hu => write_of_frame_ne _ hu _ _
  have hbyte := fun g {j : Nat} (hj : j < 4096) =>
    byteAt_setByte m f g (pageOffset_lt v) hj b
  have hcr3 : (m.setByte f (pageOffset v) b).cr3 = m.cr3 := rfl
  have hF := hO.forest.setHeld hheld hmem rfl rfl rfl
  have htable : ∀ {u k}, lab u = some k → (m.setByte f (pageOffset v) b).mem u = m.mem u := by
    intro u k hu
    refine hmem u fun heq => ?_
    rw [heq, hheld.unlabelled] at hu
    cases hu
  rw [hwrite]
  refine ⟨lab, l, φ, ⟨hF, hO.held, fun {u g} hg => ?_, hO.user, hO.inj, fun {u} hg hu => ?_,
    hO.block⟩, funext fun a => ?_⟩
  · rw [hcr3, hO.forest.entryAt_congr htable hO.forest.current (length_path u)]
    exact hO.leaf hg
  · rw [hcr3, hO.forest.entryAt_congr htable hO.forest.current (length_path u)]
    exact hO.rest hg hu
  · rw [view, UserMem.putByte]
    by_cases ha : a = virtual v
    · rw [if_pos ha, ha, view, virtual_page, virtual_offset, hf, Option.map_some, Option.map_some,
        Option.map_some, hbyte f (pageOffset_lt v), if_pos ⟨rfl, rfl⟩]
    · rw [if_neg ha, view]
      cases hg : φ (a / 4096) with
      | none => rfl
      | some g =>
          have hmiss : ¬ (g = f ∧ a % 4096 = pageOffset v) := by
            rintro ⟨rfl, hoff⟩
            have hpage := hO.inj hg hf
            rw [← virtual_page] at hpage
            rw [← virtual_offset] at hoff
            omega
          rw [Option.map_some, Option.map_some, hbyte g (Nat.mod_lt _ (by decide)), if_neg hmiss]

end Shows

/-! ## Many fresh frames -/

/-- Fresh frames mapped at the addresses `vs`, one after the other. -/
def mapAll (m : Machine) (vs : List Word) : Machine :=
  vs.foldl (fun m v => m.mapFresh v userRwFlags) m

/-- What mapping fresh frames at user addresses does: their leaves in the
current address space name frames that were not in use, and no other leaf
changes. -/
structure MapsAll (roots : List Word) (m : Machine) (lab : Word → Option Node) (l : List Nat)
    (vs : List Word) (m' : Machine) (lab' : Word → Option Node) (l' : List Nat) : Prop where
  forest : Forest roots m' lab' l'
  keeps : Keeps m lab l m' lab' l'
  cr3 : m'.cr3 = m.cr3
  fresh : ∀ v ∈ vs, ∃ f, Held lab' l' f ∧ (∀ {g}, Held lab l g → g ≠ f) ∧
    m'.entryAt m.cr3 (path v) = f ||| userRwFlags
  other : ∀ r ∈ roots, ∀ q, q.length = 4 → ¬ (r = m.cr3 ∧ ∃ v ∈ vs, q = path v) →
    m'.entryAt r q = m.entryAt r q

section MapAll

variable {roots : List Word} {base : List (Fin 512) → Word} {m : Machine}
  {lab : Word → Option Node} {l : List Nat}

theorem mapAll_cons (m : Machine) (v : Word) (vs : List Word) :
    m.mapAll (v :: vs) = (m.mapFresh v userRwFlags).mapAll vs := rfl

theorem mapAll_log_suffix (vs : List Word) (m : Machine) : m.log <:+ (m.mapAll vs).log := by
  induction vs generalizing m with
  | nil => exact List.suffix_refl _
  | cons v vs ih => exact (mapFresh_log_suffix m v userRwFlags).trans (ih _)

theorem Forest.mapAll {vs : List Word} (h : Forest roots m lab l)
    (hvs : ∀ v ∈ vs, UserPath (path v)) (hlog : (0 : Word) ∉ (m.mapAll vs).log) :
    ∃ lab' l', MapsAll roots m lab l vs (m.mapAll vs) lab' l' := by
  induction vs generalizing m lab l with
  | nil =>
      exact ⟨lab, l, h, .refl .., rfl, fun v hv => absurd hv List.not_mem_nil,
        fun _ _ _ _ _ => rfl⟩
  | cons v vs ih =>
      rw [mapAll_cons] at hlog ⊢
      have hlog₁ : (0 : Word) ∉ (m.mapFresh v userRwFlags).log :=
        fun hmem => hlog ((mapAll_log_suffix vs _).subset hmem)
      obtain ⟨lab₁, l₁, h₁⟩ := h.mapFresh userRwFlags_flagWord hlog₁
      obtain ⟨lab₂, l₂, h₂⟩ := ih h₁.forest (fun u hu => hvs u (List.mem_cons_of_mem _ hu)) hlog
      have hv := hvs v (List.mem_cons_self ..)
      refine ⟨lab₂, l₂, h₂.forest, h₁.keeps.trans h₂.keeps, h₂.cr3.trans h₁.cr3, fun u hu => ?_,
        fun r hr q hq hne => ?_⟩
      · by_cases hlater : ∃ w ∈ vs, path u = path w
        · obtain ⟨w, hw, hpath⟩ := hlater
          obtain ⟨f, hf, hnew, hentry⟩ := h₂.fresh w hw
          refine ⟨f, hf, fun hg => hnew (h₁.keeps.held hg), ?_⟩
          rw [hpath, ← h₁.cr3]
          exact hentry
        · have huv : u = v := by
            rcases List.mem_cons.mp hu with heq | hmem
            · exact heq
            · exact absurd ⟨u, hmem, rfl⟩ hlater
          rw [huv] at hlater ⊢
          refine ⟨m.getFreePage.1, h₂.keeps.held h₁.fresh, h₁.distinct, ?_⟩
          rw [h₂.other _ h.current _ (length_path v) fun hc => hlater hc.2, h₁.self]
      · rw [h₂.other r hr q hq fun hc => hne ⟨hc.1.trans h₁.cr3, ?_⟩,
          h₁.other r hr q hq (Or.inr hv) fun hc => hne ⟨hc.1, v, List.mem_cons_self .., hc.2⟩]
        obtain ⟨w, hw, hpath⟩ := hc.2
        exact ⟨w, List.mem_cons_of_mem _ hw, hpath⟩

/-- A page that is none of those mapped is translated as before. -/
theorem MapsAll.translate {vs : List Word} {m' : Machine} {lab' : Word → Option Node}
    {l' : List Nat} (h : Forest roots m lab l) (hM : MapsAll roots m lab l vs m' lab' l')
    {v : Word} (hv : ∀ w ∈ vs, path v ≠ path w) : m'.translate m.cr3 v = m.translate m.cr3 v := by
  rw [translate_eq, translate_eq, hM.other _ h.current _ (length_path v)]
  rintro ⟨-, w, hw, heq⟩
  exact hv w hw heq

/-- A page that is mapped once more loses its frame. -/
theorem MapsAll.translate_ne {vs : List Word} {m' : Machine} {lab' : Word → Option Node}
    {l' : List Nat} (h : Forest roots m lab l) (hM : MapsAll roots m lab l vs m' lab' l')
    {v f : Word} (hv : v ∈ vs) (huser : UserPath (path v)) (hf : m.translate m.cr3 v = some f) :
    m'.translate m.cr3 v ≠ some f := by
  obtain ⟨g, hg, hnew, hentry⟩ := hM.fresh v hv
  rw [translate_eq] at hf ⊢
  rw [hentry, if_pos (present_or hg.aligned userRwFlags_flagWord),
    frame_or hg.aligned userRwFlags_flagWord.small]
  split at hf
  · rename_i hp
    rcases h.leaf _ h.current _ (length_path v) with hzero | ⟨-, -, hheld⟩
    · rw [hzero] at hp
      cases hp
    · rw [← Option.some.inj hf]
      exact fun heq => hnew (hheld huser) (Option.some.inj heq).symm
  · cases hf

/-- Mapping leaves the translations alone exactly if it finds its pages free. -/
theorem Forest.mapAll_keeps_iff {vs : List Word} (h : Forest roots m lab l)
    (hvs : ∀ v ∈ vs, UserPath (path v)) (hlog : (0 : Word) ∉ (m.mapAll vs).log) :
    (∀ v f, m.translate m.cr3 v = some f → (m.mapAll vs).translate m.cr3 v = some f) ↔
      ∀ v ∈ vs, m.translate m.cr3 v = none := by
  obtain ⟨lab', l', hM⟩ := h.mapAll hvs hlog
  constructor
  · intro hkeep v hv
    cases hf : m.translate m.cr3 v with
    | none => rfl
    | some f => exact absurd (hkeep v f hf) (hM.translate_ne h hv (hvs v hv) hf)
  · intro hfree v f hf
    rw [hM.translate h fun w hw heq => ?_, hf]
    have hnone := hfree w hw
    rw [translate_eq, ← heq, ← translate_eq, hf] at hnone
    cases hnone

/-- The pages from `v` on. -/
def pagesFrom (v : Word) : Nat → List Word
  | 0 => []
  | n + 1 => v :: pagesFrom (v + pageSize) n

theorem mapPages_eq_mapAll (n : Nat) (v : Word) (m : Machine) :
    m.mapPages n v = m.mapAll (pagesFrom v n) := by
  induction n generalizing v m with
  | zero => rfl
  | succ n ih => exact ih (v + pageSize) (m.mapFresh v userRwFlags)

theorem pageIndex_add_pageSize {v : Word} (h : v.toNat + 4096 < 2 ^ 48) :
    pageIndex (v + pageSize) = pageIndex v + 1 := by
  rw [pageIndex, pageIndex, BitVec.toNat_add, pageSize_toNat]
  omega

theorem Shows.mapPages {μ : UserMem} {K : List Word} {n : Nat} {v : Word}
    (h : Shows roots base m μ K) (hv : v.toNat + n * 4096 ≤ 2 ^ 47)
    (hlog : (0 : Word) ∉ (m.mapPages n v).log) :
    Shows roots base (m.mapPages n v) (μ.zeroPages (pageIndex v) n) K := by
  induction n generalizing v m μ with
  | zero => exact h
  | succ n ih =>
      have hlog' := hlog
      rw [mapPages_eq_mapAll, pagesFrom, mapAll_cons] at hlog'
      have hfirst : (0 : Word) ∉ (m.mapFresh v userRwFlags).log :=
        fun hmem => hlog' ((mapAll_log_suffix _ _).subset hmem)
      have hshow := h.mapFresh (userPath_of_lt (by omega)) hfirst
      have hnext : (v + pageSize).toNat = v.toNat + 4096 := by
        rw [BitVec.toNat_add, pageSize_toNat]
        omega
      have hrest := ih hshow (by omega) hlog
      rwa [pageIndex_add_pageSize (by omega)] at hrest

theorem Shows.storeBytes {μ : UserMem} {K : List Word} {bs : List Byte} {v : Word}
    (h : Shows roots base m μ K) (hv : v.toNat + bs.length ≤ 2 ^ 47)
    (hμ : ∀ i < bs.length, (μ (v.toNat + i)).isSome) :
    Shows roots base (m.storeBytes v bs) (μ.putBytes v.toNat bs) K := by
  induction bs generalizing v m μ with
  | nil => exact h
  | cons b bs ih =>
      rw [List.length_cons] at hv
      have hvirt : virtual v = v.toNat := virtual_of_lt (by omega)
      have hstore := h.writeByte (v := v)
        (by rw [hvirt]; exact hμ 0 (Nat.zero_lt_succ _)) b
      rw [hvirt] at hstore
      have hnext : (v + 1).toNat = v.toNat + 1 := by
        rw [BitVec.toNat_add, show (1 : Word).toNat = 1 from rfl]
        exact Nat.mod_eq_of_lt (by omega)
      have hrest : ∀ i < bs.length, (μ.putByte v.toNat b ((v + 1).toNat + i)).isSome := by
        intro i hi
        rw [hnext, UserMem.putByte_isSome, Nat.add_assoc, Nat.add_comm 1]
        exact hμ (i + 1) (Nat.succ_lt_succ hi)
      have hshow := ih hstore (by rw [hnext]; omega) hrest
      rwa [hnext] at hshow

theorem Shows.sub {μ : UserMem} {K K' : List Word} (h : Shows roots base m μ K)
    (hK : ∀ a ∈ K', a ∈ K) : Shows roots base m μ K' := by
  obtain ⟨lab, l, φ, hO, hview⟩ := h
  exact ⟨lab, l, φ, ⟨hO.forest, hO.held, hO.leaf, hO.user, hO.inj, hO.rest,
    fun a ha => hO.block a (hK a ha)⟩, hview⟩

theorem Shows.rebase {base' : List (Fin 512) → Word} {μ : UserMem} {K : List Word}
    (h : Shows roots base m μ K)
    (hbase : ∀ v, UserPath (path v) → base (path v) = base' (path v)) :
    Shows roots base' m μ K := by
  obtain ⟨lab, l, φ, hO, hview⟩ := h
  refine ⟨lab, l, φ, ⟨hO.forest, hO.held, hO.leaf, hO.user, hO.inj, fun {v} hf hv => ?_,
    hO.block⟩, hview⟩
  rw [hO.rest hf hv, hbase v hv]

/-- A page that is not shown has the leaf it had to begin with. -/
theorem Shows.leaf_rest {μ : UserMem} {K : List Word} {v : Word} (h : Shows roots base m μ K)
    (hv : UserPath (path v)) (hμ : μ (virtual v) = none) : m.leaf m.cr3 v = base (path v) := by
  obtain ⟨lab, l, φ, hO, rfl⟩ := h
  rw [view, Option.map_eq_none_iff, virtual_page] at hμ
  rw [leaf_eq_entryAt, hO.rest hμ hv]

end MapAll

/-! ## Blocks in use -/

/-- The blocks `K` of the kernel heap are in use. -/
def InUse (roots : List Word) (m : Machine) (K : List Word) : Prop :=
  ∃ lab l, Forest roots m lab l ∧ ∀ a ∈ K, ∃ f, Held lab l f ∧ a = kernelVirtualBase + f

section InUse

variable {roots K : List Word} {base : List (Fin 512) → Word} {m : Machine} {μ : UserMem}

theorem Shows.inUse (h : Shows roots base m μ K) : InUse roots m K := by
  obtain ⟨lab, l, φ, hO, -⟩ := h
  exact ⟨lab, l, hO.forest, hO.block⟩

theorem InUse.shows (h : InUse roots m K) :
    Shows roots (m.entryAt m.cr3) m (fun _ => none) K := by
  obtain ⟨lab, l, hF, hK⟩ := h
  refine ⟨lab, l, fun _ => none, ⟨hF, ?_, ?_, ?_, ?_, fun _ _ => rfl, hK⟩, rfl⟩
  · exact fun hf => nomatch hf
  · exact fun hf => nomatch hf
  · exact fun hf => nomatch hf
  · exact fun hf => nomatch hf

theorem Forest.inUse {lab : Word → Option Node} {l : List Nat} (h : Forest roots m lab l) :
    InUse roots m [] :=
  ⟨lab, l, h, fun _ ha => absurd ha List.not_mem_nil⟩

end InUse

end Machine

end SnowOs
