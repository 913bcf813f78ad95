import Mathlib.Data.Fin.Basic
import Mathlib.Data.Nat.Bitwise
import SnowOs.PhysicalMemory
import SnowOs.Radix

/-!
# Page-table entries and the four index fields

The bit arithmetic of `sys/paging.c`, once. An entry is a frame address
`or` a flag word below `0x1000`; the source takes it apart with `MASK`,
`GET_FLAGS` and the present bit. The lemmas here turn these masks into
`/` and `%` on the numeric value, after which `omega` decides everything
an address computation needs; no later file looks at a bit again.

`path v` is the list of the four nine-bit fields of an address, root
first. Two addresses select the same leaf entry exactly when they agree
on bits 12..47 (`path_eq_iff`).
-/

namespace SnowOs

/-! ## Masks and flags -/

def mask : Word := 0xFFFFFFFFFFFFF000

/-- `GET_FLAGS`. -/
def flagMask : Word := 0x0000000000000FFF

def cowFlag : Word := 0x0000000000000200

def turnOffRw : Word := 0xFFFFFFFFFFFFFFFD

/-- `PAGING_KERNEL_R_W_FLAGS`. -/
def kernelRwFlags : Word := 0x3

/-- `PAGING_USER_R_W_FLAGS`. -/
def userRwFlags : Word := 0x7

/-- The present bit, tested as `(entry & 1UL) == 1UL`. -/
def present (e : Word) : Bool := e &&& 1 = 1

def Aligned (f : Word) : Prop := f.toNat % 4096 = 0

/-- A flag argument as the callers pass it: below `0x1000`, present bit
set. -/
structure FlagWord (flags : Word) : Prop where
  small : flags.toNat < 4096
  present : flags.toNat % 2 = 1

instance (f : Word) : Decidable (Aligned f) := inferInstanceAs (Decidable (_ = _))

theorem mask_bit : ∀ i < 64, mask.getLsbD i = decide (12 ≤ i) := by decide

theorem and_mask_toNat (e : Word) : (e &&& mask).toNat = e.toNat / 4096 * 4096 := by
  have h : e &&& mask = (e >>> 12) <<< 12 := by
    apply BitVec.eq_of_getLsbD_eq
    intro i hi
    rw [BitVec.getLsbD_and, mask_bit i hi, BitVec.getLsbD_shiftLeft, BitVec.getLsbD_ushiftRight]
    by_cases h12 : 12 ≤ i
    · simp [h12, hi, Nat.not_lt.mpr h12, Nat.add_sub_cancel' h12]
    · simp [h12, Nat.lt_of_not_le h12]
  have := e.isLt
  rw [h, BitVec.toNat_shiftLeft, BitVec.toNat_ushiftRight]
  omega

theorem and_flagMask_toNat (e : Word) : (e &&& flagMask).toNat = e.toNat % 4096 := by
  rw [BitVec.toNat_and]
  exact Nat.and_two_pow_sub_one_eq_mod e.toNat 12

theorem present_iff (e : Word) : present e = true ↔ e.toNat % 2 = 1 := by
  have h : (e &&& 1).toNat = e.toNat % 2 := by
    rw [BitVec.toNat_and]
    exact Nat.and_two_pow_sub_one_eq_mod e.toNat 1
  rw [present, decide_eq_true_iff, ← BitVec.toNat_inj, h]
  rfl

theorem or_toNat {f flags : Word} (hf : Aligned f) (hs : flags.toNat < 4096) :
    (f ||| flags).toNat = f.toNat + flags.toNat := by
  have hs' : flags.toNat < 2 ^ 12 := hs
  have h := Nat.two_pow_add_eq_or_of_lt hs' (f.toNat / 4096)
  have hq : 2 ^ 12 * (f.toNat / 4096) = f.toNat := by
    rw [Aligned] at hf
    omega
  rw [BitVec.toNat_or]
  rw [hq] at h
  exact h.symm

theorem aligned_and_mask (e : Word) : Aligned (e &&& mask) := by
  rw [Aligned, and_mask_toNat]
  omega

theorem aligned_pageAddress {n : Nat} (hn : n < maxPages) : Aligned (pageAddress n) := by
  rw [Aligned, pageAddress_toNat hn]
  omega

theorem pageNumber_inj {f g : Word} (hf : Aligned f) (hg : Aligned g)
    (h : pageNumber f = pageNumber g) : f = g := by
  rw [pageNumber, pageNumber, BitVec.toNat_udiv, BitVec.toNat_udiv, pageSize_toNat] at h
  rw [Aligned] at hf hg
  apply BitVec.eq_of_toNat_eq
  omega

/-- The frame of an entry is the frame it was made from. -/
theorem frame_or {f flags : Word} (hf : Aligned f) (hs : flags.toNat < 4096) :
    (f ||| flags) &&& mask = f := by
  apply BitVec.eq_of_toNat_eq
  rw [and_mask_toNat, or_toNat hf hs]
  rw [Aligned] at hf
  omega

theorem flags_or {f flags : Word} (hf : Aligned f) (hs : flags.toNat < 4096) :
    (f ||| flags) &&& flagMask = flags := by
  apply BitVec.eq_of_toNat_eq
  rw [and_flagMask_toNat, or_toNat hf hs]
  rw [Aligned] at hf
  omega

theorem present_or {f flags : Word} (hf : Aligned f) (h : FlagWord flags) :
    present (f ||| flags) = true := by
  have hodd := h.present
  rw [present_iff, or_toNat hf h.small]
  rw [Aligned] at hf
  omega

@[simp] theorem present_zero : present 0 = false := rfl

theorem kernelRwFlags_flagWord : FlagWord kernelRwFlags := ⟨by decide, by decide⟩

theorem userRwFlags_flagWord : FlagWord userRwFlags := ⟨by decide, by decide⟩

/-- A present entry's flags are again a flag argument. -/
theorem flagWord_of_present {e : Word} (h : present e = true) : FlagWord (e &&& flagMask) := by
  rw [present_iff] at h
  constructor <;> rw [and_flagMask_toNat] <;> omega

/-! ## Index fields -/

/-- A table has entries: an index may be written as a numeral. -/
instance instNeZeroEntries : NeZero 512 := ⟨by decide⟩

/-- `0x1FF & (virt_addr >> shift)`. -/
def offset (shift : Nat) (virtAddr : Word) : Fin 512 :=
  ⟨((virtAddr >>> shift) &&& 0x1FF).toNat, by
    rw [BitVec.toNat_and]
    exact Nat.lt_of_le_of_lt Nat.and_le_right (by decide)⟩

def offsetPte (v : Word) : Fin 512 := offset 12 v

def offsetPde (v : Word) : Fin 512 := offset 21 v

def offsetPdpe (v : Word) : Fin 512 := offset 30 v

def offsetPml4 (v : Word) : Fin 512 := offset 39 v

def path (v : Word) : List (Fin 512) := [offsetPml4 v, offsetPdpe v, offsetPde v, offsetPte v]

theorem offset_val (k : Nat) (v : Word) : (offset k v).val = v.toNat / 2 ^ k % 512 := by
  show ((v >>> k) &&& 0x1FF).toNat = _
  rw [BitVec.toNat_and, BitVec.toNat_ushiftRight, Nat.shiftRight_eq_div_pow]
  exact Nat.and_two_pow_sub_one_eq_mod _ 9

theorem offset_eq_iff (k : Nat) (v v' : Word) :
    offset k v = offset k v' ↔ v.toNat / 2 ^ k % 512 = v'.toNat / 2 ^ k % 512 := by
  rw [← Fin.val_inj, offset_val, offset_val]

/-- The page number: bits 12..47. -/
def pageIndex (v : Word) : Nat := v.toNat / 4096 % 2 ^ 36

/-- Two addresses have the same index fields exactly when they agree on
bits 12..47. -/
theorem path_eq_iff (v v' : Word) : path v = path v' ↔ pageIndex v = pageIndex v' := by
  simp only [path, offsetPml4, offsetPdpe, offsetPde, offsetPte, List.cons.injEq,
    and_true, offset_eq_iff, pageIndex]
  omega

/-! ## The entry format as a radix-tree format -/

def entryFormat : Radix.Format Word Word where
  present := present
  target := fun e => e &&& mask
  empty := 0
  absent_empty := rfl

@[simp] theorem entryFormat_present (e : Word) : entryFormat.present e = present e := rfl

@[simp] theorem entryFormat_target (e : Word) : entryFormat.target e = e &&& mask := rfl

@[simp] theorem entryFormat_empty : entryFormat.empty = 0 := rfl

end SnowOs
