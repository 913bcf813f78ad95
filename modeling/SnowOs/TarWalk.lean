import SnowOs.OctalSize
import SnowOs.Tarfs

/-!
# The walk over any archive (`sys/tarfs.c`)

The loop of the lookups again, over an image that need not be an archive:
`examine` is `scan` with a record of the blocks whose headers it looks at.
The memory goes on behind the image, so a field without a terminator is read
on into what lies there; the end of the walk is still that of the image.

Each round moves on, whatever size the header states, and the walk goes on
only before the end of the image. So it ends after `k` rounds at most, and
the blocks ascend below `k` (`examine_terminates`, `lookups_terminate`).

The source walks with a pointer. `follow` is the loop over addresses. A step
is bounded (`advance_le`), so with room behind the image no address wraps
around, and the loop is the one over blocks (`follow_eq`).
-/

namespace SnowOs

namespace Tarfs

/-- The loop of the lookups, with the blocks it examined. -/
def examine {σ ρ : Type} (image beyond : List Byte) (body : σ → Nat → σ ⊕ ρ) : Nat → Nat → σ →
    Option (List Nat × (σ ⊕ ρ))
  | 0, _, _ => none
  | fuel + 1, s, st =>
      if (name (image ++ beyond) s).headD 0#8 = 0#8 then some ([s], .inl st)
      else
        match body st s with
        | .inr r => some ([s], .inr r)
        | .inl st =>
            if 512 * advance (image ++ beyond) s < image.length then
              (examine image beyond body fuel (advance (image ++ beyond) s) st).map
                fun p => (s :: p.1, p.2)
            else some ([s], .inl st)

/-- Blocks one after the other, from `s` on and before `k`. -/
structure Ascends (s k : Nat) (blocks : List Nat) : Prop where
  increasing : blocks.Pairwise (· < ·)
  within : ∀ b ∈ blocks, s ≤ b ∧ b < k

/-- The loop ends, however many rounds it is given from `k` on, and the
blocks it examined ascend. -/
def Terminates {σ ρ : Type} (image beyond : List Byte) (k : Nat) (body : σ → Nat → σ ⊕ ρ)
    (st : σ) : Prop :=
  ∃ blocks result, (∀ fuel, k ≤ fuel → examine image beyond body fuel 0 st
    = some (blocks, result)) ∧ Ascends 0 k blocks

section Examine

variable {σ ρ : Type} {image beyond : List Byte} {body : σ → Nat → σ ⊕ ρ} {s t k : Nat}

theorem Ascends.single (hs : s < k) : Ascends s k [s] where
  increasing := List.pairwise_singleton ..
  within b hb := by
    rw [List.mem_singleton.mp hb]
    exact ⟨le_rfl, hs⟩

theorem Ascends.cons {blocks : List Nat} (hs : s < k) (hlt : s < t) (h : Ascends t k blocks) :
    Ascends s k (s :: blocks) where
  increasing := List.pairwise_cons.mpr
    ⟨fun b hb => Nat.lt_of_lt_of_le hlt (h.within b hb).1, h.increasing⟩
  within b hb := by
    rcases List.mem_cons.mp hb with rfl | hb
    · exact ⟨le_rfl, hs⟩
    · obtain ⟨hle, hbk⟩ := h.within b hb
      exact ⟨Nat.le_trans (Nat.le_of_lt hlt) hle, hbk⟩

/-- `examine` is the loop of the lookups, where the image ends the memory. -/
theorem scan_eq_examine (fuel s : Nat) (st : σ) :
    scan image body fuel s st = (examine image [] body fuel s st).map Prod.snd := by
  induction fuel generalizing s st with
  | zero => rfl
  | succ fuel ih =>
      rw [scan, examine, List.append_nil]
      split
      · rfl
      · cases body st s with
        | inr r => rfl
        | inl st =>
            dsimp only
            split
            · rw [ih, Option.map_map]
              rfl
            · rfl

/-- A walk from a block of the image. The induction is on the blocks that
are left: a step leaves fewer. -/
theorem examine_terminates (himage : image.length = 512 * k) (hs : s < k) (st : σ) :
    ∃ blocks result, (∀ fuel, k ≤ fuel + s →
      examine image beyond body fuel s st = some (blocks, result)) ∧ Ascends s k blocks := by
  induction hleft : k - s using Nat.strong_induction_on generalizing s st with
  | _ left ih =>
      have hround : ∀ {fuel}, k ≤ fuel + s → ∃ more, fuel = more + 1 := fun hfuel =>
        Nat.exists_eq_add_one_of_ne_zero (by omega)
      by_cases hname : (name (image ++ beyond) s).headD 0#8 = 0#8
      · refine ⟨[s], .inl st, fun fuel hfuel => ?_, .single hs⟩
        obtain ⟨more, rfl⟩ := hround hfuel
        rw [examine, if_pos hname]
      · cases hbody : body st s with
        | inr r =>
            refine ⟨[s], .inr r, fun fuel hfuel => ?_, .single hs⟩
            obtain ⟨more, rfl⟩ := hround hfuel
            rw [examine, if_neg hname, hbody]
        | inl st' =>
            have hlt := lt_advance (image ++ beyond) s
            by_cases hmore : 512 * advance (image ++ beyond) s < image.length
            · have hnext : advance (image ++ beyond) s < k := by omega
              obtain ⟨blocks, result, hrun, hblocks⟩ :=
                ih (k - advance (image ++ beyond) s) (by omega) hnext st' rfl
              refine ⟨s :: blocks, result, fun fuel hfuel => ?_, hblocks.cons hs hlt⟩
              obtain ⟨more, rfl⟩ := hround hfuel
              simp only [examine, if_neg hname, hbody, if_pos hmore, hrun more (by omega),
                Option.map_some]
            · refine ⟨[s], .inl st', fun fuel hfuel => ?_, .single hs⟩
              obtain ⟨more, rfl⟩ := hround hfuel
              simp only [examine, if_neg hname, hbody, if_neg hmore]

theorem terminates_of_blocks (himage : image.length = 512 * k) (hk : 0 < k) (st : σ) :
    Terminates image beyond k body st :=
  examine_terminates himage hk st

end Examine

/-! ## The lookups -/

theorem search_eq_examine (image : List Byte) (accept : Nat → Bool) :
    search image accept
      = match (examine image [] (searchBody accept) (image.length + 1) 0 ()).map Prod.snd with
        | some (.inr file) => some file
        | _ => none := by
  rw [← scan_eq_examine]
  rfl

theorem getFileBinary_eq_examine (image filename : List Byte) :
    getFileBinary image filename
      = match (examine image [] (searchBody (headerTest 0 image filename))
          (image.length + 1) 0 ()).map Prod.snd with
        | some (.inr file) => some file
        | _ => none :=
  search_eq_examine image (headerTest 0 image filename)

theorem dirExists_eq_examine (image filename : List Byte) :
    dirExists image filename
      = match (examine image [] (searchBody (headerTest 5 image filename))
          (image.length + 1) 0 ()).map Prod.snd with
        | some (.inr _) => 0
        | _ => -1 := by
  have hsearch := search_eq_examine image (headerTest 5 image filename)
  rw [dirExists, hsearch]
  rcases (examine image [] (searchBody (headerTest 5 image filename))
    (image.length + 1) 0 ()).map Prod.snd with _ | _ | file
  · rfl
  · rfl
  · rfl

theorem getFolder_eq_examine (image dir : List Byte) :
    getFolder image dir
      = match (examine image [] (folderBody image dir) (image.length + 1) 0 {}).map Prod.snd with
        | some (.inl d) => some d
        | _ => none := by
  rw [← scan_eq_examine]
  rfl

/-- **The walk ends on any image.** Over `k` blocks of any bytes, with any
memory behind them, the loops of `get_file_binary`, `dir_exists` and
`get_folder` end, the last also if an overrun of `tmp_copy` does not stop it,
and the headers they examine are those of ascending blocks before `k`. -/
theorem lookups_terminate (image beyond : List Byte) (k : Nat) (hk : 0 < k)
    (himage : image.length = 512 * k) (filename dir : List Byte) :
    Terminates image beyond k (searchBody (headerTest 0 (image ++ beyond) filename)) () ∧
      Terminates image beyond k (searchBody (headerTest 5 (image ++ beyond) filename)) () ∧
      Terminates (ρ := Empty) image beyond k
        (fun d s => .inl (folderRound (image ++ beyond) dir d s)) {} ∧
      Terminates image beyond k (folderBody (image ++ beyond) dir) {} :=
  ⟨terminates_of_blocks himage hk (), terminates_of_blocks himage hk (),
    terminates_of_blocks himage hk _, terminates_of_blocks himage hk _⟩

/-- A block of nines: no field ends, and the size overflows an `int`. -/
theorem lookups_terminate_nines :
    Terminates (List.replicate 512 (ascii '9')) [] 1
      (searchBody (headerTest 0 (List.replicate 512 (ascii '9') ++ []) [])) () :=
  (lookups_terminate (List.replicate 512 (ascii '9')) [] 1 Nat.one_pos List.length_replicate
    [] []).1

/-! ## Pointers -/

/-- The header behind the one at `s`. -/
def nextHeader (bytes : Word → List Byte) (s : Word) : Word :=
  let fileSize := oToD (atoi (bytes (s + 124)))
  if 0 < fileSize then s + 512 * (BitVec.ofInt 64 fileSize / 512 + 2) else s + 512

/-- The loop of the lookups over addresses; `bytes` are those from an address
on. -/
def follow {σ ρ : Type} (bytes : Word → List Byte) (tarfsEnd : Word) (body : σ → Word → σ ⊕ ρ) :
    Nat → Word → σ → Option (List Word × (σ ⊕ ρ))
  | 0, _, _ => none
  | fuel + 1, s, st =>
      if s = 0 ∨ (bytes s).headD 0#8 = 0#8 then some ([s], .inl st)
      else
        match body st s with
        | .inr r => some ([s], .inr r)
        | .inl st =>
            if nextHeader bytes s < tarfsEnd then
              (follow bytes tarfsEnd body fuel (nextHeader bytes s) st).map
                fun p => (s :: p.1, p.2)
            else some ([s], .inl st)

def blockAt (tarfsStart : Word) (s : Nat) : Word := tarfsStart + BitVec.ofNat 64 (512 * s)

/-- The image lies in memory, with room for a step behind it. The kernel is
linked at `0xffffffff80200000`, nearly 2 GiB below the end. -/
structure Placed (bytes : Word → List Byte) (tarfsStart : Word) (image beyond : List Byte)
    (k : Nat) : Prop where
  start : 0 < tarfsStart.toNat
  room : tarfsStart.toNat + 512 * k + 1717987945 ≤ 2 ^ 64
  length : image.length = 512 * k
  holds : ∀ i < 512 * k, bytes (tarfsStart + BitVec.ofNat 64 i) = (image ++ beyond).drop i

/-- A step is no longer than the largest size there is. -/
theorem advance_le (mem : List Byte) (s : Nat) : 512 * advance mem s ≤ 512 * s + 1717987945 := by
  have hrange := oToD_atoi_range (size mem s)
  unfold advance fileSize
  split <;> omega

section Pointers

variable {σ ρ : Type} {bytes : Word → List Byte} {tarfsStart : Word} {image beyond : List Byte}
  {k s : Nat}

theorem toNat_blockAt (h : tarfsStart.toNat + 512 * s < 2 ^ 64) :
    (blockAt tarfsStart s).toNat = tarfsStart.toNat + 512 * s := by
  rw [blockAt, BitVec.toNat_add, BitVec.toNat_ofNat, Nat.add_mod_mod, Nat.mod_eq_of_lt h]

theorem blockAt_add (s n : Nat) :
    blockAt tarfsStart (s + n) = blockAt tarfsStart s + 512 * BitVec.ofNat 64 n := by
  rw [blockAt, blockAt, Nat.mul_add, BitVec.ofNat_add, BitVec.ofNat_mul 512 n, BitVec.add_assoc]
  rfl

theorem ofInt_div (n : Nat) (hn : n < 2 ^ 64) :
    BitVec.ofInt 64 n / 512 + 2 = BitVec.ofNat 64 (n / 512 + 2) := by
  refine BitVec.eq_of_toNat_eq ?_
  rw [BitVec.ofInt_natCast, BitVec.toNat_add, BitVec.toNat_udiv, BitVec.toNat_ofNat,
    BitVec.toNat_ofNat, Nat.mod_eq_of_lt hn]
  rfl

namespace Placed

theorem field_eq (h : Placed bytes tarfsStart image beyond k) (hs : s < k) {offset : Nat}
    (hoffset : offset < 512) :
    bytes (blockAt tarfsStart s + BitVec.ofNat 64 offset) = field (image ++ beyond) s offset := by
  rw [blockAt, BitVec.add_assoc, ← BitVec.ofNat_add]
  exact h.holds _ (by omega)

theorem nextHeader_eq (h : Placed bytes tarfsStart image beyond k) (hs : s < k) :
    nextHeader bytes (blockAt tarfsStart s) = blockAt tarfsStart (advance (image ++ beyond) s) := by
  have hsize : bytes (blockAt tarfsStart s + 124) = size (image ++ beyond) s :=
    h.field_eq hs (Nat.lt_of_sub_pos (Nat.succ_pos 387))
  obtain ⟨hlow, hhigh⟩ := oToD_atoi_range (size (image ++ beyond) s)
  obtain ⟨n, hn⟩ := Int.eq_ofNat_of_zero_le hlow
  simp only [nextHeader, advance, fileSize, hsize, hn, Int.toNat_natCast]
  split
  · rw [blockAt_add, ofInt_div n (by omega)]
  · rw [blockAt_add]
    rfl

/-- The addresses do not wrap around, so they compare as the blocks do. -/
theorem lt_end_iff (h : Placed bytes tarfsStart image beyond k) (hs : s < k) :
    blockAt tarfsStart (advance (image ++ beyond) s) < blockAt tarfsStart k
      ↔ 512 * advance (image ++ beyond) s < image.length := by
  have hroom := h.room
  have hstep := advance_le (image ++ beyond) s
  rw [BitVec.lt_def, toNat_blockAt (by omega), toNat_blockAt (by omega), h.length]
  omega

theorem blockAt_ne_zero (h : Placed bytes tarfsStart image beyond k) (hs : s < k) :
    blockAt tarfsStart s ≠ 0 := by
  have hroom := h.room
  have hstart := h.start
  intro hzero
  have hnat := congrArg BitVec.toNat hzero
  rw [toNat_blockAt (by omega)] at hnat
  have hnull : (0 : Word).toNat = 0 := rfl
  omega

/-- **The walk over addresses is that over blocks.** -/
theorem follow_eq {bodyAt : σ → Word → σ ⊕ ρ} {body : σ → Nat → σ ⊕ ρ}
    (h : Placed bytes tarfsStart image beyond k)
    (hbody : ∀ st, ∀ s < k, bodyAt st (blockAt tarfsStart s) = body st s) (fuel : Nat) (hs : s < k)
    (st : σ) :
    follow bytes (blockAt tarfsStart k) bodyAt fuel (blockAt tarfsStart s) st
      = (examine image beyond body fuel s st).map
          fun p => (p.1.map (blockAt tarfsStart), p.2) := by
  induction fuel generalizing s st with
  | zero => rfl
  | succ fuel ih =>
      have hname : bytes (blockAt tarfsStart s) = name (image ++ beyond) s := by
        have hfield := h.field_eq hs (Nat.succ_pos 511)
        rwa [BitVec.add_zero] at hfield
      rw [follow, examine, hname, hbody st s hs, h.nextHeader_eq hs]
      by_cases hempty : (name (image ++ beyond) s).headD 0#8 = 0#8
      · rw [if_pos (Or.inr hempty), if_pos hempty]
        rfl
      · rw [if_neg (not_or.mpr ⟨h.blockAt_ne_zero hs, hempty⟩), if_neg hempty]
        cases body st s with
        | inr r => rfl
        | inl st =>
            dsimp only
            by_cases hmore : 512 * advance (image ++ beyond) s < image.length
            · have hlength := h.length
              rw [if_pos hmore, if_pos ((h.lt_end_iff hs).mpr hmore), ih (by omega),
                Option.map_map, Option.map_map]
              rfl
            · rw [if_neg hmore, if_neg (mt (h.lt_end_iff hs).mp hmore)]
              rfl

end Placed

end Pointers

end Tarfs

end SnowOs
