import Mathlib.Data.Nat.ModEq
import Mathlib.Logic.Function.Basic

/-!
# Byte-addressed memory

A memory maps addresses of `w` bits to bytes; numbers are stored in
little-endian order. `load` and `store` take a width in bytes and move
numbers; what they touch is the span of addresses from the first one on,
which may wrap around. Everything about loads after stores follows from
two facts: a load depends on its span only (`load_congr`), and a store
changes its span only (`store_apply`). Two spans that share no address
are `Apart`.
-/

namespace SnowOs.ByteMemory

variable {w : Nat}

abbrev Memory (w : Nat) := BitVec w → BitVec 8

/-- The `n` addresses from `a` on. -/
def InSpan (a : BitVec w) (n : Nat) (x : BitVec w) : Prop := ∃ i < n, x = a + BitVec.ofNat w i

def load (m : Memory w) (a : BitVec w) : Nat → Nat
  | 0 => 0
  | n + 1 => (m a).toNat + 256 * load m (a + 1) n

def store (m : Memory w) (a : BitVec w) : Nat → Nat → Memory w
  | 0, _ => m
  | n + 1, v => Function.update (store m (a + 1) n (v / 256)) a (BitVec.ofNat 8 v)

def bytes (m : Memory w) (a : BitVec w) (n : Nat) : List (BitVec 8) :=
  (List.range n).map fun i => m (a + BitVec.ofNat w i)

def putBytes (m : Memory w) (a : BitVec w) : List (BitVec 8) → Memory w
  | [] => m
  | b :: l => putBytes (Function.update m a b) (a + 1) l

/-! ## Spans -/

theorem add_one_ofNat (a : BitVec w) (i : Nat) :
    a + 1 + BitVec.ofNat w i = a + BitVec.ofNat w (i + 1) := by
  rw [Nat.add_comm i 1, BitVec.ofNat_add, BitVec.add_assoc]
  rfl

theorem inSpan_succ {a x : BitVec w} {n : Nat} :
    InSpan a (n + 1) x ↔ x = a ∨ InSpan (a + 1) n x := by
  constructor
  · rintro ⟨i, hi, rfl⟩
    cases i with
    | zero => exact Or.inl (by simp)
    | succ i => exact Or.inr ⟨i, by omega, (add_one_ofNat a i).symm⟩
  · rintro (rfl | ⟨i, hi, rfl⟩)
    · exact ⟨0, by omega, by simp⟩
    · exact ⟨i + 1, by omega, add_one_ofNat a i⟩

theorem InSpan.sub {a x : BitVec w} {k n i : Nat} (h : InSpan (a + BitVec.ofNat w i) k x)
    (hle : i + k ≤ n) : InSpan a n x := by
  obtain ⟨j, hj, rfl⟩ := h
  exact ⟨i + j, by omega, by rw [BitVec.ofNat_add, BitVec.add_assoc]⟩

theorem InSpan.bounds {a x : BitVec w} {n : Nat} (h : InSpan a n x) (ha : a.toNat + n ≤ 2 ^ w) :
    a.toNat ≤ x.toNat ∧ x.toNat < a.toNat + n := by
  obtain ⟨i, hi, rfl⟩ := h
  have hsum : (a + BitVec.ofNat w i).toNat = a.toNat + i := by
    rw [BitVec.toNat_add, BitVec.toNat_ofNat, Nat.mod_eq_of_lt (by omega : i < 2 ^ w),
      Nat.mod_eq_of_lt (by omega)]
  omega

def Apart (a : BitVec w) (n : Nat) (b : BitVec w) (k : Nat) : Prop :=
  ∀ x, InSpan a n x → ¬ InSpan b k x

theorem Apart.symm {a b : BitVec w} {n k : Nat} (h : Apart a n b k) : Apart b k a n :=
  fun x hb ha => h x ha hb

/-- Offsets below `2 ^ w` tell addresses apart. -/
theorem offset_inj {a : BitVec w} {i j : Nat} (hi : i < 2 ^ w) (hj : j < 2 ^ w)
    (h : a + BitVec.ofNat w i = a + BitVec.ofNat w j) : i = j := by
  have := congrArg BitVec.toNat ((BitVec.add_right_inj a).mp h)
  rwa [BitVec.toNat_ofNat, BitVec.toNat_ofNat, Nat.mod_eq_of_lt hi, Nat.mod_eq_of_lt hj] at this

theorem apart_fields (a : BitVec w) {i n j k : Nat} (hij : i + n ≤ j) (hjk : j + k ≤ 2 ^ w) :
    Apart (a + BitVec.ofNat w i) n (a + BitVec.ofNat w j) k := by
  rintro x ⟨p, hp, rfl⟩ ⟨q, hq, heq⟩
  rw [BitVec.add_assoc, BitVec.add_assoc, ← BitVec.ofNat_add, ← BitVec.ofNat_add] at heq
  have := offset_inj (by omega) (by omega) heq
  omega

/-! ## Loads and stores -/

theorem store_apply {m : Memory w} {a x : BitVec w} {n v : Nat} (h : ¬ InSpan a n x) :
    store m a n v x = m x := by
  induction n generalizing a v with
  | zero => rfl
  | succ n ih =>
      rw [inSpan_succ, not_or] at h
      rw [store, Function.update_of_ne h.1, ih h.2]

theorem load_congr {m m' : Memory w} {a : BitVec w} {n : Nat}
    (h : ∀ x, InSpan a n x → m x = m' x) : load m a n = load m' a n := by
  induction n generalizing a with
  | zero => rfl
  | succ n ih =>
      rw [load, load, h a (inSpan_succ.mpr (Or.inl rfl)),
        ih fun x hx => h x (inSpan_succ.mpr (Or.inr hx))]

theorem bytes_congr {m m' : Memory w} {a : BitVec w} {n : Nat}
    (h : ∀ x, InSpan a n x → m x = m' x) : bytes m a n = bytes m' a n := by
  refine List.map_congr_left fun i hi => h _ ⟨i, List.mem_range.mp hi, rfl⟩

theorem load_store_apart {m : Memory w} {a b : BitVec w} {n k v : Nat} (h : Apart a n b k) :
    load (store m a n v) b k = load m b k :=
  load_congr fun x hx => store_apply fun ha => h x ha hx

theorem load_store {m : Memory w} {a : BitVec w} {n v : Nat} (hn : n ≤ 2 ^ w) :
    load (store m a n v) a n = v % 256 ^ n := by
  induction n generalizing a v with
  | zero => simp [load, Nat.mod_one]
  | succ n ih =>
      have htail : ∀ x, InSpan (a + 1) n x →
          store m a (n + 1) v x = store m (a + 1) n (v / 256) x := by
        rintro x ⟨i, hi, rfl⟩
        rw [store, Function.update_of_ne]
        rw [add_one_ofNat]
        intro heq
        have hzero : a + BitVec.ofNat w (i + 1) = a + BitVec.ofNat w 0 := by simpa using heq
        have := offset_inj (by omega) (by omega) hzero
        omega
      have hhead : store m a (n + 1) v a = BitVec.ofNat 8 v := by rw [store, Function.update_self]
      rw [load, hhead, load_congr htail, ih (by omega), BitVec.toNat_ofNat,
        show 256 ^ (n + 1) = 256 * 256 ^ n from Nat.pow_succ', Nat.mod_mul]

theorem load_store_of_lt {m : Memory w} {a : BitVec w} {n v : Nat} (hn : n ≤ 2 ^ w)
    (hv : v < 256 ^ n) : load (store m a n v) a n = v := by
  rw [load_store hn, Nat.mod_eq_of_lt hv]

/-! ## Bytes -/

theorem bytes_succ (m : Memory w) (a : BitVec w) (n : Nat) :
    bytes m a (n + 1) = m a :: bytes m (a + 1) n := by
  rw [bytes, bytes, List.range_succ_eq_map, List.map_cons, List.map_map]
  refine congrArg₂ _ (by simp) (List.map_congr_left fun i _ => ?_)
  rw [add_one_ofNat]
  rfl

theorem bytes_add (m : Memory w) (a : BitVec w) (n k : Nat) :
    bytes m a (n + k) = bytes m a n ++ bytes m (a + BitVec.ofNat w n) k := by
  simp [bytes, List.range_add, Function.comp_def, BitVec.ofNat_add, BitVec.add_assoc]

theorem putBytes_apply {m : Memory w} {a x : BitVec w} {l : List (BitVec 8)}
    (h : ¬ InSpan a l.length x) : putBytes m a l x = m x := by
  induction l generalizing m a with
  | nil => rfl
  | cons b l ih =>
      rw [List.length_cons, inSpan_succ, not_or] at h
      rw [putBytes, ih h.2, Function.update_of_ne h.1]

theorem bytes_putBytes {m : Memory w} {a : BitVec w} {l : List (BitVec 8)}
    (hl : l.length ≤ 2 ^ w) : bytes (putBytes m a l) a l.length = l := by
  induction l generalizing m a with
  | nil => rfl
  | cons b l ih =>
      rw [List.length_cons] at hl
      have hfirst : ¬ InSpan (a + 1) l.length a := by
        rintro ⟨i, hi, heq⟩
        rw [add_one_ofNat] at heq
        have hzero : a + BitVec.ofNat w 0 = a + BitVec.ofNat w (i + 1) := by simpa using heq
        have := offset_inj (by omega) (by omega) hzero
        omega
      rw [List.length_cons, bytes_succ, putBytes, ih (by omega), putBytes_apply hfirst,
        Function.update_self]

/-! ## Memories that agree outside a set of addresses -/

/-- What changed from one memory to the other lies in `S`. -/
def ChangedIn (S : BitVec w → Prop) (m m' : Memory w) : Prop := ∀ x, ¬ S x → m' x = m x

theorem ChangedIn.refl (S : BitVec w → Prop) (m : Memory w) : ChangedIn S m m := fun _ _ => rfl

theorem ChangedIn.trans {S : BitVec w → Prop} {m m' m'' : Memory w} (h : ChangedIn S m m')
    (h' : ChangedIn S m' m'') : ChangedIn S m m'' :=
  fun x hx => (h' x hx).trans (h x hx)

theorem ChangedIn.mono {S T : BitVec w → Prop} {m m' : Memory w} (h : ChangedIn S m m')
    (hST : ∀ x, S x → T x) : ChangedIn T m m' :=
  fun x hx => h x fun hS => hx (hST x hS)

theorem changedIn_store (m : Memory w) (a : BitVec w) {i k n : Nat} (v : Nat) (h : i + k ≤ n) :
    ChangedIn (InSpan a n) m (store m (a + BitVec.ofNat w i) k v) :=
  fun _ hx => store_apply fun hs => hx (hs.sub h)

theorem changedIn_update {S : BitVec w → Prop} (m : Memory w) {a : BitVec w} (h : S a)
    (b : BitVec 8) : ChangedIn S m (Function.update m a b) := by
  intro x hx
  rw [Function.update_of_ne]
  rintro rfl
  exact hx h

theorem load_changedIn {S : BitVec w → Prop} {m m' : Memory w} (h : ChangedIn S m m')
    {a : BitVec w} {n : Nat} (ha : ∀ x, InSpan a n x → ¬ S x) : load m' a n = load m a n :=
  load_congr fun x hx => h x (ha x hx)

end SnowOs.ByteMemory
