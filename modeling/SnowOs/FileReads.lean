import SnowOs.Tarfs

/-!
# Reading a file (`tarfs_read`, and `SYSCALL_READ` around it)

`tarfs_read` is given a pointer to the data and an offset, not the size:
it ends a read at a byte that is NUL or `EOF`, and `EOF`, an `int` of -1,
is what a `char` of 0xFF compares equal to. A file is therefore read back
exactly if it contains neither byte and the byte that happens to follow
it in the archive is one of them - the padding, if the data does not fill
its last block, or the first byte of whatever comes next
(`reads_file_iff`).
-/

namespace SnowOs

namespace Tarfs

def eof : Int := -1

/-- The bytes at which `tarfs_read` returns. -/
def isEof (c : Byte) : Bool := c = 0#8 ∨ c.toInt = eof

/-- The loop of `tarfs_read`: what it stores in at most `n` rounds. -/
def readLoop : Nat → List Byte → List Byte
  | 0, _ => []
  | _ + 1, [] => []
  | n + 1, c :: file => if isEof c then [] else c :: readLoop n file

/-- `tarfs_read`: its result, and what it has stored in the buffer. -/
def tarfsRead (len : Int) (file : List Byte) (offset : Nat) : Int × List Byte :=
  let buf := readLoop len.toNat (file.drop offset)
  (if len ≤ 0 then len else buf.length, buf)

/-- One `SYSCALL_READ` on a descriptor of a file. -/
structure ReadCall where
  len : Int
  offset : Nat
  result : Int
  bytes : List Byte
deriving DecidableEq, Repr

def readCall (file : List Byte) (offset : Nat) (len : Int) : ReadCall :=
  { len, offset, result := (tarfsRead len file offset).1, bytes := (tarfsRead len file offset).2 }

/-- The offset of the descriptor after a call, a `uint32_t`. -/
def ReadCall.next (c : ReadCall) : Nat :=
  if 0 < c.result then (c.offset + c.result.toNat) % 2 ^ 32 else c.offset

def readCalls (file : List Byte) : Nat → List Int → List ReadCall
  | _, [] => []
  | offset, len :: lens =>
      readCall file offset len :: readCalls file (readCall file offset len).next lens

/-- The calls read the data from an offset on: what they deliver is a
beginning of it, a call is short only if it reaches the end, and at the
end there is nothing more. -/
structure ReadsFrom (data : List Byte) (offset : Nat) (calls : List ReadCall) : Prop where
  delivered : calls.flatMap ReadCall.bytes <+: data.drop offset
  short : ∀ c ∈ calls, c.result < c.len → c.offset + c.bytes.length = data.length
  after : ∀ c ∈ calls, data.length ≤ c.offset → c.result = 0

/-! ## The loop -/

section Loop

variable {data rest : List Byte}

theorem readLoop_eq_take (hdata : ∀ c ∈ data, isEof c = false)
    (hrest : isEof (rest.headD 0#8) = true) (n : Nat) :
    readLoop n (data ++ rest) = data.take n := by
  induction data generalizing n with
  | nil =>
      cases n with
      | zero => rfl
      | succ n =>
          cases rest with
          | nil => rfl
          | cons b rest => simp_all [readLoop]
  | cons c data ih =>
      cases n with
      | zero => rfl
      | succ n =>
          have hc := hdata c (List.mem_cons_self ..)
          have hdata' := fun d hd => hdata d (List.mem_cons_of_mem _ hd)
          simp [readLoop, hc, ih hdata']

/-- A byte that ends the read cuts it short. -/
theorem readLoop_length_lt {c : Byte} (hc : c ∈ data) (heof : isEof c = true) (rest : List Byte)
    (n : Nat) :
    (readLoop n (data ++ rest)).length < data.length := by
  induction data generalizing n with
  | nil => cases hc
  | cons d data ih =>
      cases n with
      | zero => exact Nat.zero_lt_succ _
      | succ n =>
          by_cases hd : isEof d = true
          · simp [readLoop, hd]
          · have hmem : c ∈ data := by
              rcases List.mem_cons.mp hc with rfl | hmem
              · exact absurd heof hd
              · exact hmem
            simpa [readLoop, hd] using ih hmem n

theorem readLoop_past {b : Byte} (hdata : ∀ c ∈ data, isEof c = false) (hb : isEof b = false)
    (rest : List Byte) :
    readLoop (data.length + 1) (data ++ b :: rest) = data ++ [b] := by
  induction data with
  | nil => simp [readLoop, hb]
  | cons c data ih =>
      have hc := hdata c (List.mem_cons_self ..)
      have hdata' := fun d hd => hdata d (List.mem_cons_of_mem _ hd)
      simp [readLoop, hc, ih hdata']

end Loop

/-! ## Sequences of calls -/

section Calls

variable {data rest : List Byte}

/-- The lengths `read` can be called with here: positive `int`s. -/
def PositiveLens (lens : List Int) : Prop := ∀ n ∈ lens, 0 < n ∧ n < 2 ^ 31

theorem readCall_eq {offset : Nat} (hdata : ∀ c ∈ data, isEof c = false)
    (hrest : isEof (rest.headD 0#8) = true) (hoff : offset ≤ data.length) {len : Int}
    (hlen : 0 < len) :
    readCall (data ++ rest) offset len
      = { len, offset, result := ((data.drop offset).take len.toNat).length,
          bytes := (data.drop offset).take len.toNat } := by
  have hread : readLoop len.toNat ((data ++ rest).drop offset)
      = (data.drop offset).take len.toNat := by
    rw [List.drop_append_of_le_length hoff]
    exact readLoop_eq_take (fun c hc => hdata c (List.mem_of_mem_drop hc)) hrest _
  rw [readCall, tarfsRead, hread]
  simp [Int.not_le.mpr hlen]

theorem ReadsFrom.cons {offset : Nat} {c : ReadCall} {calls : List ReadCall}
    (h : ReadsFrom data (offset + c.bytes.length) calls) (hoff : c.offset = offset)
    (hbytes : c.bytes <+: data.drop offset)
    (hshort : c.result < c.len → offset + c.bytes.length = data.length)
    (hafter : data.length ≤ offset → c.result = 0) : ReadsFrom data offset (c :: calls) where
  delivered := by
    obtain ⟨more, hmore⟩ := hbytes
    obtain ⟨last, hlast⟩ := h.delivered
    refine ⟨last, ?_⟩
    have hrest : data.drop (offset + c.bytes.length) = more := by
      rw [← List.drop_drop, ← hmore, List.drop_left]
    rw [List.flatMap_cons, List.append_assoc, hlast, hrest, hmore]
  short := List.forall_mem_cons.mpr ⟨hoff ▸ hshort, h.short⟩
  after := List.forall_mem_cons.mpr ⟨hoff ▸ hafter, h.after⟩

theorem readCalls_readsFrom (hdata : ∀ c ∈ data, isEof c = false)
    (hrest : isEof (rest.headD 0#8) = true) (hsize : data.length < 2 ^ 28) {lens : List Int}
    (hlens : PositiveLens lens) {offset : Nat} (hoff : offset ≤ data.length) :
    ReadsFrom data offset (readCalls (data ++ rest) offset lens) := by
  induction lens generalizing offset with
  | nil => exact ⟨List.nil_prefix, nofun, nofun⟩
  | cons len lens ih =>
      have hlen := (hlens len (List.mem_cons_self ..)).1
      have hlens' : PositiveLens lens := fun n hn => hlens n (List.mem_cons_of_mem _ hn)
      have hcall := readCall_eq hdata hrest hoff hlen
      have hcount : ((data.drop offset).take len.toNat).length
          = min len.toNat (data.length - offset) := by simp
      have hnext : (readCall (data ++ rest) offset len).next
          = offset + ((data.drop offset).take len.toNat).length := by
        rw [hcall, ReadCall.next]
        simp only [hcount]
        split <;> omega
      have hrun := ih hlens' (show offset + ((data.drop offset).take len.toNat).length
        ≤ data.length by rw [hcount]; omega)
      rw [readCalls, hnext, hcall]
      refine ReadsFrom.cons hrun rfl (List.take_prefix ..) (fun hlt => ?_) fun hend => ?_
      · simp only [hcount] at hlt ⊢
        omega
      · simp only [hcount]
        omega

theorem readCalls_one (file : List Byte) {n : Nat} (hn : 0 < n) :
    readCalls file 0 [(n : Int)]
      = [{ len := n, offset := 0, result := (readLoop n file).length, bytes := readLoop n file }] := by
  have hpos : ¬ (n : Int) ≤ 0 := by omega
  simp only [readCalls, readCall, tarfsRead, if_neg hpos, Int.toNat_natCast, List.drop_zero]

/-- A pointer to data followed by `rest` reads the data, whatever the
lengths asked for, exactly if no byte of the data ends a read and the
next one does. -/
theorem readsFrom_iff (hsize : data.length < 2 ^ 28) :
    (∀ lens, PositiveLens lens → ReadsFrom data 0 (readCalls (data ++ rest) 0 lens))
      ↔ (∀ c ∈ data, isEof c = false) ∧ isEof (rest.headD 0#8) = true := by
  constructor
  · intro h
    have hone : ∀ n : Nat, 0 < n → n ≤ data.length + 1 → ReadsFrom data 0
        [{ len := n, offset := 0, result := (readLoop n (data ++ rest)).length,
           bytes := readLoop n (data ++ rest) }] := by
      intro n hpos hle
      rw [← readCalls_one _ hpos]
      refine h _ fun k hk => ?_
      rw [List.mem_singleton.mp hk]
      omega
    have hdata : ∀ c ∈ data, isEof c = false := by
      intro c hc
      by_contra heof
      have hlt := readLoop_length_lt hc (Bool.eq_true_of_not_eq_false heof) rest data.length
      have hshort := (hone data.length (List.length_pos_of_mem hc) (Nat.le_succ _)).short _
        (List.mem_singleton_self _)
      simp only [Nat.zero_add] at hshort
      omega
    refine ⟨hdata, ?_⟩
    cases rest with
    | nil => rfl
    | cons b rest =>
        by_contra hb
        rw [List.headD_cons] at hb
        have hpast := readLoop_past hdata (Bool.eq_false_of_not_eq_true hb) rest
        have hle := (hone (data.length + 1) (Nat.succ_pos _) (Nat.le_refl _)).delivered.length_le
        simp only [hpast, List.flatMap_cons, List.flatMap_nil, List.append_nil, List.drop_zero,
          List.length_append, List.length_singleton] at hle
        omega
  · rintro ⟨hdata, hrest⟩ lens hlens
    exact readCalls_readsFrom hdata hrest hsize hlens (Nat.zero_le _)

end Calls

/-! ## Files of an archive -/

/-- The block of the header that follows the entries given. -/
def blockAfter (entries : List Entry) : Nat := (entries.map Entry.blocks).sum

/-- The byte after the data ends a read: it is padding, or the entry is the
last one, or the name of the next entry begins with such a byte. -/
def Delimited (e : Entry) (following : List Entry) : Prop :=
  e.data.length % 512 ≠ 0 ∨ ∀ e' ∈ following.head?, isEof (e'.header.headD 0#8) = true

theorem length_flatMap_bytes (entries : List Entry) :
    (entries.flatMap Entry.bytes).length = 512 * blockAfter entries := by
  induction entries with
  | nil => rfl
  | cons e es ih =>
      simp only [List.flatMap_cons, List.length_append, ih, e.length_bytes, blockAfter,
        List.map_cons, List.sum_cons]
      omega

theorem drop_archive (before : List Entry) (e : Entry) (following : List Entry) (z : Nat) :
    (archive (before ++ e :: following) z).drop (512 * (blockAfter before + 1))
      = e.data ++ (List.replicate (512 * (e.blocks - 1) - e.data.length) 0#8
          ++ archive following z) := by
  have hlen := length_flatMap_bytes before
  have hhead := e.length_header
  rw [archive, List.flatMap_append, List.flatMap_cons, List.append_assoc, List.append_assoc,
    ← archive, Nat.mul_add, ← hlen, List.drop_append, List.drop_of_length_le (Nat.le_add_right ..),
    List.nil_append, Nat.add_sub_cancel_left, Entry.bytes, List.append_assoc, List.drop_append,
    List.drop_of_length_le (by omega), hhead]
  simp

theorem isEof_next_iff (e : Entry) (following : List Entry) {z : Nat} (hz : 1 ≤ z) :
    isEof ((List.replicate (512 * (e.blocks - 1) - e.data.length) 0#8
        ++ archive following z).headD 0#8) = true ↔ Delimited e following := by
  by_cases hpad : e.data.length % 512 ≠ 0
  · obtain ⟨k, hk⟩ := Nat.exists_eq_add_one_of_ne_zero
      (show 512 * (e.blocks - 1) - e.data.length ≠ 0 by rw [Entry.blocks]; omega)
    rw [hk, List.replicate_succ]
    exact iff_of_true rfl (Or.inl hpad)
  · have hnone : 512 * (e.blocks - 1) - e.data.length = 0 := by rw [Entry.blocks]; omega
    rw [hnone, List.replicate_zero, List.nil_append, Delimited, or_iff_right hpad]
    cases following with
    | nil =>
        obtain ⟨k, hk⟩ := Nat.exists_eq_add_one_of_ne_zero (show 512 * z ≠ 0 by omega)
        rw [archive, hk]
        exact iff_of_true rfl fun e' he' => absurd he' (Option.not_mem_none e')
    | cons e' es =>
        have hhead : (archive (e' :: es) z).headD 0#8 = e'.header.headD 0#8 := by
          have hlen := e'.length_header
          rw [archive, List.flatMap_cons, Entry.bytes]
          cases hheader : e'.header with
          | nil => simp [hheader] at hlen
          | cons b header => rfl
        rw [hhead]
        simp

/-- **Reading a file.** For every entry of an archive, and every sequence
of reads with positive lengths from offset 0 on: the reads return the
file if and only if it contains no byte NUL or 0xFF and is delimited by
one. -/
theorem reads_file_iff (before : List Entry) (e : Entry) (following : List Entry) {z : Nat}
    (hz : 1 ≤ z) :
    (∀ lens, PositiveLens lens → ReadsFrom e.data 0 (readCalls
      ((archive (before ++ e :: following) z).drop (512 * (blockAfter before + 1))) 0 lens))
      ↔ (∀ c ∈ e.data, isEof c = false) ∧ Delimited e following := by
  rw [drop_archive, readsFrom_iff e.size_lt, isEof_next_iff e following hz]

theorem reads_file_iff_b :
    ((∀ c ∈ fileB.data, isEof c = false) ∧ Delimited fileB []) ∧
      ∀ lens, PositiveLens lens → ReadsFrom fileB.data 0 (readCalls
        ((archive ([fileA] ++ fileB :: []) 2).drop (512 * (blockAfter [fileA] + 1))) 0 lens) := by
  have hb : (∀ c ∈ fileB.data, isEof c = false) ∧ Delimited fileB [] :=
    ⟨by decide, Or.inl (by decide)⟩
  exact ⟨hb, (reads_file_iff [fileA] fileB [] (by decide)).mpr hb⟩

/-- A file that fills its block, followed by `b`: a read of 600 bytes runs
on into the header of `b`. -/
theorem read_runs_on :
    (readCall ((archive ([] ++ fileA :: [fileB]) 2).drop (512 * (blockAfter [] + 1))) 0 600).result
        = 513 ∧ fileA.data.length = 512 ∧
      ¬ ∀ lens, PositiveLens lens → ReadsFrom fileA.data 0 (readCalls
        ((archive ([] ++ fileA :: [fileB]) 2).drop (512 * (blockAfter [] + 1))) 0 lens) := by
  have hread : (readCall ((archive ([] ++ fileA :: [fileB]) 2).drop
      (512 * (blockAfter [] + 1))) 0 600).result = 513 := by decide +kernel
  refine ⟨hread, by decide +kernel, fun h => ?_⟩
  have hshort := (h [600] (by simp [PositiveLens])).short _ (List.mem_cons_self ..)
  have hbytes : (readCall ((archive ([] ++ fileA :: [fileB]) 2).drop
      (512 * (blockAfter [] + 1))) 0 600).bytes.length = 513 := by decide +kernel
  have hend := hshort (by rw [hread]; decide)
  rw [hbytes] at hend
  exact absurd hend (by decide +kernel)

end Tarfs

end SnowOs
