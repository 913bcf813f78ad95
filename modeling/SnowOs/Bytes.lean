import SnowOs.Forest

/-!
# Bytes of a frame

A frame holds 512 words; the processor addresses its 4096 bytes. `byteAt`
is the byte view of a frame, and a store through an address space is one
byte of the frame the address translates to (`byteAt_writeByte`). Stores
to frames that are not tables move no translation (`writeByte_entryAt`),
which is what lets a page copy be followed byte by byte (`memcpy_page`).
-/

namespace SnowOs

open Radix

namespace Machine

/-! ## Bytes of a word -/

theorem getLsbD_loadByte (w : Word) (k i : Nat) :
    (loadByte w k).getLsbD i = (decide (i < 8) && w.getLsbD (8 * k + i)) := by
  rw [loadByte, BitVec.getLsbD_setWidth, BitVec.getLsbD_ushiftRight]

theorem getLsbD_ff (i : Nat) : (0xFF : Word).getLsbD i = decide (i < 8) := by
  by_cases hi : i < 64
  · revert i
    decide
  · rw [BitVec.getLsbD_of_ge _ _ (Nat.le_of_not_lt hi)]
    simp
    omega

theorem getLsbD_storeByte (w : Word) (k : Nat) (b : Byte) {j : Nat} (hj : j < 64) :
    (storeByte w k b).getLsbD j
      = if 8 * k ≤ j ∧ j < 8 * k + 8 then b.getLsbD (j - 8 * k) else w.getLsbD j := by
  simp only [storeByte, BitVec.getLsbD_or, BitVec.getLsbD_and, BitVec.getLsbD_not,
    BitVec.getLsbD_shiftLeft, BitVec.getLsbD_setWidth, getLsbD_ff, hj, decide_true,
    Bool.true_and]
  by_cases hlo : j < 8 * k
  · have hout : ¬ (8 * k ≤ j ∧ j < 8 * k + 8) := by omega
    rw [if_neg hout]
    simp [hlo]
  · by_cases hhi : j - 8 * k < 8
    · have hin : 8 * k ≤ j ∧ j < 8 * k + 8 := by omega
      have hsmall : j - 8 * k < 64 := by omega
      rw [if_pos hin]
      simp [hlo, hhi, hsmall]
    · have hout : ¬ (8 * k ≤ j ∧ j < 8 * k + 8) := by omega
      have hb : b.getLsbD (j - 8 * k) = false := BitVec.getLsbD_of_ge _ _ (Nat.le_of_not_lt hhi)
      rw [if_neg hout, hb]
      simp [hlo, hhi]

theorem loadByte_storeByte (w : Word) {k k' : Nat} (hk' : k' < 8) (b : Byte) :
    loadByte (storeByte w k b) k' = if k' = k then b else loadByte w k' := by
  apply BitVec.eq_of_getLsbD_eq
  intro i hi
  have hlt : 8 * k' + i < 64 := by omega
  rw [getLsbD_loadByte, getLsbD_storeByte _ _ _ hlt]
  by_cases hkk : k' = k
  · subst hkk
    rw [if_pos rfl, if_pos (by omega), Nat.add_sub_cancel_left]
    simp [hi]
  · rw [if_neg hkk, if_neg (by omega), getLsbD_loadByte]

/-! ## Bytes of a frame -/

def byteAt (m : Machine) (f : Word) (k : Nat) : Byte :=
  loadByte (m.mem f (Fin.ofNat 512 (k / 8))) (k % 8)

/-- The offset of an address in its page. -/
def pageOffset (v : Word) : Nat := v.toNat % 4096

theorem wordIndex_eq (v : Word) : wordIndex v = Fin.ofNat 512 (pageOffset v / 8) := by
  apply Fin.ext
  rw [wordIndex, offset_val, pageOffset, Fin.val_ofNat]
  omega

theorem byteIndex_eq (v : Word) : byteIndex v = pageOffset v % 8 := by
  rw [byteIndex, pageOffset]
  omega

theorem readByte_eq (m : Machine) (r v : Word) :
    m.readByte r v = (m.translate r v).map fun f => m.byteAt f (pageOffset v) := by
  rw [readByte, wordIndex_eq, byteIndex_eq]
  rfl

def setByte (m : Machine) (f : Word) (k : Nat) (b : Byte) : Machine :=
  m.setEntry f (Fin.ofNat 512 (k / 8)) (storeByte (m.mem f (Fin.ofNat 512 (k / 8))) (k % 8) b)

theorem byteAt_setByte (m : Machine) (f g : Word) {k j : Nat} (hk : k < 4096) (hj : j < 4096)
    (b : Byte) : (m.setByte f k b).byteAt g j = if g = f ∧ j = k then b else m.byteAt g j := by
  rw [byteAt, setByte, setEntry_mem, write_apply]
  by_cases hhit : g = f ∧ Fin.ofNat 512 (j / 8) = Fin.ofNat 512 (k / 8)
  · obtain ⟨rfl, hword⟩ := hhit
    have hval := congrArg Fin.val hword
    rw [Fin.val_ofNat, Fin.val_ofNat] at hval
    rw [if_pos ⟨rfl, hword⟩, loadByte_storeByte _ (Nat.mod_lt _ (by decide)), ← hword]
    by_cases hjk : j = k
    · rw [if_pos (by rw [hjk]), if_pos ⟨rfl, hjk⟩]
    · rw [if_neg (by omega), if_neg fun h => hjk h.2]
      rfl
  · rw [if_neg hhit, if_neg]
    · rfl
    · rintro ⟨rfl, rfl⟩
      exact hhit ⟨rfl, rfl⟩

theorem writeByte_eq (m : Machine) (r v : Word) (b : Byte) :
    m.writeByte r v b = match m.translate r v with
      | some f => m.setByte f (pageOffset v) b
      | none => m := by
  rw [writeByte, wordIndex_eq, byteIndex_eq]
  rfl

theorem pageOffset_lt (v : Word) : pageOffset v < 4096 := Nat.mod_lt _ (by decide)

/-! ## Copying a page -/

theorem add_offset_toNat {v : Word} {i : Nat} (hv : Aligned v) (hi : i < 4096) :
    (v + BitVec.ofNat 64 i).toNat = v.toNat + i := by
  have := v.isLt
  rw [Aligned] at hv
  rw [BitVec.toNat_add, BitVec.toNat_ofNat]
  omega

theorem path_add {v : Word} {i : Nat} (hv : Aligned v) (hi : i < 4096) :
    path (v + BitVec.ofNat 64 i) = path v := by
  rw [path_eq_iff, pageIndex, pageIndex, add_offset_toNat hv hi]
  rw [Aligned] at hv
  omega

theorem pageOffset_add {v : Word} {i : Nat} (hv : Aligned v) (hi : i < 4096) :
    pageOffset (v + BitVec.ofNat 64 i) = i := by
  rw [pageOffset, add_offset_toNat hv hi]
  rw [Aligned] at hv
  omega

theorem translate_eq (m : Machine) (r v : Word) : m.translate r v =
    if present (m.entryAt r (path v)) then some (m.entryAt r (path v) &&& mask) else none := by
  rw [translate, leaf_eq_entryAt]

theorem translate_add {m : Machine} {r v : Word} {i : Nat} (hv : Aligned v) (hi : i < 4096) :
    m.translate r (v + BitVec.ofNat 64 i) = m.translate r v := by
  rw [translate_eq, translate_eq, path_add hv hi]

/-- The first `k` bytes of `g` copied to `f`. -/
structure Copied (m : Machine) (f g : Word) (k : Nat) (m' : Machine) : Prop where
  mem : ∀ u, u ≠ f → m'.mem u = m.mem u
  phys : m'.phys = m.phys
  cr3 : m'.cr3 = m.cr3
  log : m'.log = m.log
  byte : ∀ j < 4096, m'.byteAt f j = if j < k then m.byteAt g j else m.byteAt f j

theorem memcpy_succ (m : Machine) (dest src : Word) (k : Nat) :
    m.memcpy dest src (k + 1) =
      match (m.memcpy dest src k).readByte (m.memcpy dest src k).cr3 (src + BitVec.ofNat 64 k) with
      | some b => (m.memcpy dest src k).writeByte (m.memcpy dest src k).cr3
          (dest + BitVec.ofNat 64 k) b
      | none => m.memcpy dest src k := by
  rw [memcpy, List.range_succ, List.foldl_append]
  rfl

theorem memcpy_page {roots : List Word} {m : Machine} {lab : Word → Option Node}
    {l : List Nat} (h : Forest roots m lab l) {dest src f g : Word} (hdest : Aligned dest)
    (hsrc : Aligned src) (hf : m.translate m.cr3 dest = some f)
    (hg : m.translate m.cr3 src = some g) (hfree : lab f = none) (hne : g ≠ f) :
    ∀ k ≤ 4096, Copied m f g k (m.memcpy dest src k) := by
  intro k
  induction k with
  | zero => exact fun _ => ⟨fun _ _ => rfl, rfl, rfl, rfl, fun _ _ => rfl⟩
  | succ k ih =>
      intro hk
      have hc := ih (by omega)
      have hsame : ∀ v, (m.memcpy dest src k).translate m.cr3 v = m.translate m.cr3 v := by
        intro v
        rw [translate_eq, translate_eq, h.entryAt_congr (fun {u n} hu => hc.mem u ?_) h.current
          (length_path v)]
        intro heq
        rw [heq, hfree] at hu
        cases hu
      have hread : (m.memcpy dest src k).byteAt g k = m.byteAt g k := by
        rw [byteAt, hc.mem g hne]
        rfl
      have hstep : m.memcpy dest src (k + 1)
          = (m.memcpy dest src k).setByte f k (m.byteAt g k) := by
        rw [memcpy_succ, readByte_eq, hc.cr3, hsame, translate_add hsrc (by omega), hg,
          Option.map_some, pageOffset_add hsrc (by omega), hread]
        show writeByte _ _ _ _ = _
        rw [writeByte_eq, hsame, translate_add hdest (by omega), hf,
          pageOffset_add hdest (by omega)]
      rw [hstep]
      refine ⟨fun u hu => ?_, hc.phys, hc.cr3, hc.log, fun j hj => ?_⟩
      · rw [← hc.mem u hu]
        exact write_of_frame_ne _ hu _ _
      · rw [byteAt_setByte _ _ _ (by omega) hj, hc.byte j hj]
        by_cases hjk : j = k
        · rw [if_pos ⟨rfl, hjk⟩, if_pos (by omega), hjk]
        · rw [if_neg fun hcon => hjk hcon.2]
          by_cases hlt : j < k
          · rw [if_pos hlt, if_pos (by omega)]
          · rw [if_neg hlt, if_neg (by omega)]

end Machine

end SnowOs
