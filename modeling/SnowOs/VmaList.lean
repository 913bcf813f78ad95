import SnowOs.AddressSpace
import SnowOs.Linked

/-!
# Lists of memory areas

The areas of a process hang off `vma_map` and end in NULL; `vma_map_iter`
is the last of them. `load_file` and `user_malloc` grow the list in the
same way: a node with `next` cleared is hung behind the last one, or
becomes the first (`VmaList.append`). What the list says is the sequence
of its areas, without the pointers.
-/

namespace SnowOs

open Linked

/-- What a VMA says: all of it but `next`. -/
structure VmaArea where
  start : Word
  stop : Word
  type : Word
  flags : Word
deriving Repr, DecidableEq

def VmaStruct.area (v : VmaStruct) : VmaArea :=
  { start := v.start, stop := v.stop, type := v.type, flags := v.flags }

namespace VmaArea

/-- The lowest address; the stack has its `start` on top. -/
def low (v : VmaArea) : Nat := min v.start.toNat v.stop.toNat

/-- The address behind the highest. -/
def high (v : VmaArea) : Nat := max v.start.toNat v.stop.toNat

def Apart (v w : VmaArea) : Prop := v.high ≤ w.low ∨ w.high ≤ v.low

instance (v w : VmaArea) : Decidable (v.Apart w) := inferInstanceAs (Decidable (_ ∨ _))

end VmaArea

/-- A pointer to a VMA, or NULL. -/
def vmaPtr (p : Word) : Option Word := if p = 0 then none else some p

theorem vmaPtr_eq_none {p : Word} : vmaPtr p = none ↔ p = 0 := by
  rw [vmaPtr]
  split
  · rename_i hp
    exact iff_of_true rfl hp
  · rename_i hp
    exact iff_of_false nofun hp

theorem vmaPtr_eq_some {p a : Word} : vmaPtr p = some a ↔ p = a ∧ a ≠ 0 := by
  rw [vmaPtr]
  split
  · rename_i hp
    exact ⟨nofun, fun h => absurd (h.1.symm.trans hp) h.2⟩
  · rename_i hp
    rw [Option.some.injEq]
    exact ⟨fun h => ⟨h, h ▸ hp⟩, fun h => h.1⟩

theorem vmaPtr_of_ne {p : Word} (h : p ≠ 0) : vmaPtr p = some p := if_neg h

/-- The areas from `first` on, in order. -/
def VmaChain (vma : Word → VmaStruct) (first : Word) (nodes : List Word) : Prop :=
  Chain (fun a => vmaPtr (vma a).next) (vmaPtr first) nodes

/-- The areas from `first` on, with `last` the last of them. -/
structure VmaList (vma : Word → VmaStruct) (first last : Word) (nodes : List Word) : Prop where
  chain : VmaChain vma first nodes
  last : nodes.getLast? = vmaPtr last

def areas (vma : Word → VmaStruct) (nodes : List Word) : List VmaArea :=
  nodes.map fun a => (vma a).area

section VmaList

variable {vma vma' : Word → VmaStruct} {first last a : Word} {nodes : List Word} {v : VmaStruct}

theorem vmaChain_nil : VmaChain vma first [] ↔ first = 0 := vmaPtr_eq_none

theorem vmaChain_cons : VmaChain vma first (a :: nodes) ↔
    first = a ∧ a ≠ 0 ∧ VmaChain vma (vma a).next nodes := by
  rw [VmaChain, chain_cons, vmaPtr_eq_some, and_assoc, VmaChain]

theorem VmaChain.frame (h : VmaChain vma first nodes) (heq : ∀ b ∈ nodes, vma' b = vma b) :
    VmaChain vma' first nodes :=
  Chain.frame h fun b hb => by rw [heq b hb]

theorem VmaChain.nodup (h : VmaChain vma first nodes) : nodes.Nodup := Chain.nodup h

theorem areas_congr (heq : ∀ b ∈ nodes, (vma' b).area = (vma b).area) :
    areas vma' nodes = areas vma nodes :=
  List.map_congr_left heq

theorem VmaList.frame (h : VmaList vma first last nodes) (heq : ∀ b ∈ nodes, vma' b = vma b) :
    VmaList vma' first last nodes ∧ areas vma' nodes = areas vma nodes :=
  ⟨⟨h.chain.frame heq, h.last⟩, areas_congr fun b hb => by rw [heq b hb]⟩

/-- A list has a last node or is empty. -/
theorem VmaList.cases (h : VmaList vma first last nodes) :
    nodes = [] ∧ first = 0 ∧ last = 0 ∨ last ≠ 0 ∧ ∃ l, nodes = l ++ [last] := by
  rcases List.eq_nil_or_concat nodes with rfl | ⟨l, b, rfl⟩
  · exact Or.inl ⟨rfl, vmaChain_nil.mp h.chain, vmaPtr_eq_none.mp h.last.symm⟩
  · have hlast := h.last
    rw [List.concat_eq_append, List.getLast?_append, List.getLast?_singleton, Option.some_or,
      eq_comm, vmaPtr_eq_some] at hlast
    obtain ⟨rfl, hne⟩ := hlast
    exact Or.inr ⟨hne, l, List.concat_eq_append ..⟩

theorem VmaList.last_mem (h : VmaList vma first last nodes) (hlast : last ≠ 0) : last ∈ nodes := by
  obtain ⟨-, -, hzero⟩ | ⟨-, l, rfl⟩ := h.cases
  · exact absurd hzero hlast
  · exact List.mem_append_right _ (List.mem_singleton_self _)

theorem VmaList.append (h : VmaList vma first last nodes) (hlast : last ≠ 0) (ha : a ≠ 0)
    (hnext : v.next = 0) (hself : vma' a = v)
    (hlink : vma' last = { vma last with next := a })
    (heq : ∀ b ∈ nodes, b ≠ last → vma' b = vma b) :
    VmaList vma' first a (nodes ++ [a]) ∧
      areas vma' (nodes ++ [a]) = areas vma nodes ++ [v.area] := by
  obtain ⟨-, -, hzero⟩ | ⟨-, l, rfl⟩ := h.cases
  · exact absurd hzero hlast
  have hnodup := List.nodup_append.mp h.chain.nodup
  have hfront : ∀ b ∈ l, vma' b = vma b := fun b hb =>
    heq b (List.mem_append_left _ hb) (hnodup.2.2 b hb last (List.mem_singleton_self _))
  have hnext' : vmaPtr (vma' a).next = none := by rw [hself, hnext, vmaPtr_eq_none]
  have hlink' : vmaPtr (vma' last).next = some a := by rw [hlink, vmaPtr_of_ne ha]
  have hchain : VmaChain vma' first (l ++ [last] ++ [a]) :=
    Chain.concat h.chain hlink' hnext' fun b hb => by rw [hfront b hb]
  refine ⟨⟨hchain, ?_⟩, ?_⟩
  · rw [List.getLast?_append, List.getLast?_singleton, Option.some_or, vmaPtr_of_ne ha]
  · rw [areas, List.map_append, ← areas, List.map_singleton, hself]
    congr 1
    refine areas_congr fun b hb => ?_
    rcases List.mem_append.mp hb with hb | hb
    · rw [hfront b hb]
    · rw [List.mem_singleton.mp hb, hlink]
      rfl

theorem vmaList_singleton (ha : a ≠ 0) (hnext : v.next = 0) (hself : vma a = v) :
    VmaList vma a a [a] ∧ areas vma [a] = [v.area] := by
  refine ⟨⟨vmaChain_cons.mpr ⟨rfl, ha, vmaChain_nil.mpr (by rw [hself, hnext])⟩, ?_⟩, ?_⟩
  · rw [List.getLast?_singleton, vmaPtr_of_ne ha]
  · rw [areas, List.map_singleton, hself]

theorem VmaList.last_area (h : VmaList vma first last nodes) {as : List VmaArea} {v : VmaArea}
    (has : areas vma nodes = as ++ [v]) : last ≠ 0 ∧ (vma last).area = v := by
  rcases h.cases with ⟨rfl, -, -⟩ | ⟨hlast, l, rfl⟩
  · exact absurd has.symm (List.append_ne_nil_of_right_ne_nil _ (List.cons_ne_nil _ _))
  · rw [areas, List.map_append, List.map_singleton] at has
    exact ⟨hlast, List.singleton_inj.mp (List.append_inj_right' has rfl)⟩

/-- The node `a` with the record `v` hung behind `last`, if there is one. -/
def linkVma (vma : Word → VmaStruct) (last a : Word) (v : VmaStruct) : Word → VmaStruct :=
  let vma := Function.update vma a v
  if last ≠ 0 then Function.update vma last { vma last with next := a } else vma

theorem VmaList.link (h : VmaList vma first last nodes) (ha : a ≠ 0) (hnew : a ∉ nodes)
    (hnext : v.next = 0) :
    VmaList (linkVma vma last a v) (if last ≠ 0 then first else a) a (nodes ++ [a]) ∧
      areas (linkVma vma last a v) (nodes ++ [a]) = areas vma nodes ++ [v.area] := by
  have hold : ∀ b ∈ nodes, Function.update vma a v b = vma b :=
    fun b hb => Function.update_of_ne (ne_of_mem_of_not_mem hb hnew) _ _
  rcases h.cases with ⟨rfl, -, rfl⟩ | ⟨hlast, l, hl⟩
  · rw [linkVma, if_neg (not_not.mpr rfl), if_neg (not_not.mpr rfl)]
    exact vmaList_singleton ha hnext (Function.update_self ..)
  · have hmem : last ∈ nodes := hl ▸ List.mem_append_right _ (List.mem_singleton_self _)
    have hne : a ≠ last := (ne_of_mem_of_not_mem hmem hnew).symm
    rw [linkVma, if_pos hlast, if_pos hlast]
    refine h.append hlast ha hnext ?_ ?_ fun b hb hbl => ?_
    · rw [Function.update_of_ne hne, Function.update_self]
    · rw [Function.update_self, hold last hmem]
    · rw [Function.update_of_ne hbl, hold b hb]

end VmaList

end SnowOs
