import SnowOs.Tarfs

/-!
# The tests on a header

`get_file_binary` and `dir_exists` accept a header by its name and the
number in its type flag. Both are read as C strings from fields that need
not end with a NUL: a name of 100 characters goes on into `mode`, and the
flag, which is one character, always goes on into `linkname`. `atoi` answers
0 for a text that is not a number, which is the code of a regular file.

So a header with an empty `linkname` and a shorter name is matched as it
should be, and it is decided which others are (`matches_iff`). A link of any
kind passes for a file as soon as its target is not a number.
-/

namespace SnowOs

/-! ## Numbers with a digit in front -/

def isDigit (c : Byte) : Bool := 48 ≤ c.toNat ∧ c.toNat ≤ 57

def decimal (v : Nat) (digits : List Byte) : Nat :=
  digits.foldl (fun v c => v * 10 + (c.toNat - 48)) v

theorem isDigit_iff (c : Byte) : (48 ≤ c.toInt ∧ c.toInt ≤ 57) ↔ isDigit c = true := by
  rw [isDigit, decide_eq_true_iff, BitVec.toInt_eq_toNat_cond]
  split <;> omega

theorem toInt_of_isDigit {c : Byte} (h : isDigit c = true) : c.toInt = (c.toNat : Int) := by
  rw [isDigit, decide_eq_true_iff] at h
  rw [BitVec.toInt_eq_toNat_cond, if_pos (by omega)]

/-- An `int` is the number modulo `2 ^ 32`, at every digit. -/
theorem int32_digit (v : Nat) {c : Byte} (h : isDigit c = true) :
    int32 (int32 v * 10 + c.toInt - 48) = int32 (v * 10 + (c.toNat - 48) : Nat) := by
  have hc := h
  rw [isDigit, decide_eq_true_iff] at hc
  have hv : ((v * 10 + (c.toNat - 48) : Nat) : Int) = v * 10 + ((c.toNat : Int) - 48) := by omega
  rw [toInt_of_isDigit h, hv, Int.add_sub_assoc, int32, int32, int32, ← Int.bmod_add_bmod,
    Int.bmod_mul_bmod, Int.bmod_add_bmod]

theorem atoiFrom_eq (s : List Byte) (v : Nat) :
    atoiFrom s (int32 v) =
      if (cString s).all isDigit then some (int32 (decimal v (cString s))) else none := by
  induction s generalizing v with
  | nil => rfl
  | cons c s ih =>
      rw [atoiFrom, cString_cons]
      by_cases hc : c = 0#8
      · rw [if_pos hc, if_pos hc]
        rfl
      · rw [if_neg hc, if_neg hc, List.all_cons]
        by_cases hdigit : isDigit c = true
        · rw [if_pos ((isDigit_iff c).mpr hdigit), int32_digit v hdigit, ih, hdigit, Bool.true_and]
          rfl
        · rw [if_neg fun h => hdigit ((isDigit_iff c).mp h), if_neg fun h => hdigit ?_]
          exact (Bool.and_eq_true_iff.mp h).1

theorem int32_eq_iff {v k : Nat} (hk : k < 2 ^ 31) : int32 v = k ↔ v % 2 ^ 32 = k := by
  rw [int32, Int.bmod]
  split <;> omega

theorem atoi_digit {t : Nat} (ht : t < 10) (s : List Byte) :
    atoi (BitVec.ofNat 8 (48 + t) :: s) =
      if (cString s).all isDigit then int32 (decimal t (cString s)) else 0 := by
  have htoNat : (BitVec.ofNat 8 (48 + t)).toNat = 48 + t := by
    rw [BitVec.toNat_ofNat]
    omega
  have hne : ∀ c : Byte, c.toNat < 48 → BitVec.ofNat 8 (48 + t) ≠ c := by
    rintro c hc rfl
    omega
  have hdigit : isDigit (BitVec.ofNat 8 (48 + t)) = true := by
    rw [isDigit, decide_eq_true_iff, htoNat]
    omega
  have hvalue : decimal 0 (BitVec.ofNat 8 (48 + t) :: cString s) = decimal t (cString s) := by
    rw [decimal, List.foldl_cons, htoNat, Nat.zero_mul, Nat.zero_add, Nat.add_sub_cancel_left]
    rfl
  have hloop := atoiFrom_eq (BitVec.ofNat 8 (48 + t) :: s) 0
  rw [cString_cons, if_neg (hne 0#8 (by decide)), List.all_cons, hdigit, Bool.true_and, hvalue,
    show int32 (0 : Nat) = 0 from rfl] at hloop
  rw [atoi, List.headD_cons, if_neg (hne _ (by decide)), if_neg (hne _ (by decide)), hloop]
  split
  · rw [Option.elim_some, Int.mul_one, int32, int32, Int.bmod_bmod]
  · rfl

/-! ## Header blocks -/

/-- A ustar header, with the fields the tests do not read taken together:
`mode` to `checksum`, and `magic` to `pad`. The name may fill its field. -/
structure UstarHeader where
  name : List Byte
  fields : List Byte
  typeflag : Fin 8
  linkname : List Byte
  rest : List Byte
  name_ne_nil : name ≠ []
  length_name : name.length ≤ 100
  zero_notMem_name : 0#8 ∉ name
  length_fields : fields.length = 56
  length_linkname : linkname.length = 100
  length_rest : rest.length = 255

namespace UstarHeader

def flag (h : UstarHeader) : Byte := BitVec.ofNat 8 (48 + h.typeflag)

def bytes (h : UstarHeader) : List Byte :=
  h.name ++ List.replicate (100 - h.name.length) 0#8 ++ h.fields ++
    h.flag :: (h.linkname ++ h.rest)

theorem length_bytes (h : UstarHeader) : h.bytes.length = 512 := by
  have := h.length_name
  simp only [bytes, List.length_append, List.length_cons, List.length_replicate, h.length_fields,
    h.length_linkname, h.length_rest]
  omega

/-- The text `atoi` finds behind the flag, in a block that `next` follows. -/
def linkText (h : UstarHeader) (next : List Byte) : List Byte :=
  cString (h.linkname ++ (h.rest ++ next))

end UstarHeader

namespace Tarfs

/-- The two tests tell the name and the type of a header. -/
structure Matches (h : UstarHeader) (image : List Byte) (s : Nat) : Prop where
  file : ∀ f, headerTest 0 image f s = true ↔ cString f = h.name ∧ h.typeflag = 0
  directory : ∀ f, headerTest 5 image f s = true ↔ cString f = h.name ∧ h.typeflag = 5

/-- The name ends where its field does, at the latest. -/
def NameEnds (h : UstarHeader) : Prop := h.name.length < 100 ∨ h.fields.head? = some 0#8

/-- The number in the flag, with the link text behind it, tells files and
directories. -/
def TypeRead (t : Nat) (link : List Byte) : Prop :=
  if link.all isDigit then
    (decimal t link % 2 ^ 32 = 0 ↔ t = 0) ∧ (decimal t link % 2 ^ 32 = 5 ↔ t = 5)
  else t = 0

section Header

variable {h : UstarHeader} {image before next : List Byte} {s : Nat}

theorem field_ustar (himage : image = before ++ (h.bytes ++ next)) (hs : before.length = 512 * s)
    {k : Nat} (hk : k ≤ 512) : field image s k = h.bytes.drop k ++ next := by
  have hlen := h.length_bytes
  rw [field, himage, ← hs, List.drop_append, List.drop_of_length_le (by omega), List.nil_append,
    Nat.add_sub_cancel_left, List.drop_append, show k - h.bytes.length = 0 by omega,
    List.drop_zero]

theorem typeflag_ustar (himage : image = before ++ (h.bytes ++ next))
    (hs : before.length = 512 * s) :
    typeflag image s = h.flag :: (h.linkname ++ (h.rest ++ next)) := by
  have hfront : (h.name ++ List.replicate (100 - h.name.length) 0#8 ++ h.fields).length = 156 := by
    have := h.length_name
    simp only [List.length_append, List.length_replicate, h.length_fields]
    omega
  rw [typeflag, field_ustar himage hs (by decide), UstarHeader.bytes, ← hfront, List.drop_left,
    List.cons_append, List.append_assoc]

theorem cString_name_ustar (himage : image = before ++ (h.bytes ++ next))
    (hs : before.length = 512 * s) : cString (name image s) = h.name ↔ NameEnds h := by
  have hbytes : name image s = h.name ++ (List.replicate (100 - h.name.length) 0#8 ++
      (h.fields ++ (h.flag :: (h.linkname ++ h.rest) ++ next))) := by
    rw [name, field_ustar himage hs (Nat.zero_le _), List.drop_zero, UstarHeader.bytes]
    simp only [List.append_assoc]
  rw [hbytes, cString_append_of_notMem h.zero_notMem_name, NameEnds, List.append_right_eq_self]
  obtain ⟨b, fields, hfields⟩ : ∃ b fields, h.fields = b :: fields :=
    List.exists_cons_of_length_pos (by rw [h.length_fields]; decide)
  rcases Nat.lt_or_eq_of_le h.length_name with hlt | hfull
  · obtain ⟨k, hk⟩ : ∃ k, 100 - h.name.length = k + 1 := ⟨99 - h.name.length, by omega⟩
    rw [hk, List.replicate_succ, List.cons_append, cString_cons, if_pos rfl]
    exact iff_of_true rfl (.inl hlt)
  · rw [hfull, hfields, Nat.sub_self, List.replicate_zero, List.nil_append, List.cons_append,
      cString_cons, List.head?_cons, Option.some.injEq]
    split
    · next hb => exact iff_of_true rfl (.inr hb)
    · next hb =>
        exact iff_of_false (List.cons_ne_nil _ _) fun hor => hb (hor.resolve_left (by decide))

/-- `atoi` tells files and directories. -/
theorem atoi_typeflag_iff (himage : image = before ++ (h.bytes ++ next))
    (hs : before.length = 512 * s) :
    ((atoi (typeflag image s) = 0 ↔ h.typeflag = 0) ∧
      (atoi (typeflag image s) = 5 ↔ h.typeflag = 5)) ↔
      TypeRead h.typeflag (h.linkText next) := by
  have hflag : ∀ k : Fin 8, h.typeflag = k ↔ (h.typeflag : Nat) = k := fun k => Fin.ext_iff
  have ht : (h.typeflag : Nat) < 10 := Nat.lt_of_lt_of_le h.typeflag.isLt (by decide)
  rw [typeflag_ustar himage hs, UstarHeader.flag, atoi_digit ht, TypeRead, UstarHeader.linkText,
    hflag 0, hflag 5]
  generalize cString (h.linkname ++ (h.rest ++ next)) = link
  split
  · exact and_congr (iff_congr (int32_eq_iff (k := 0) (by decide)) Iff.rfl)
      (iff_congr (int32_eq_iff (k := 5) (by decide)) Iff.rfl)
  · constructor
    · rintro ⟨hzero, -⟩
      exact hzero.mp rfl
    · intro hzero
      refine ⟨iff_of_true rfl hzero, iff_of_false (by decide) ?_⟩
      rw [hzero]
      decide

theorem headerTest_iff {code : Int} {f : List Byte} : headerTest code image f s = true ↔
    cString f = cString (name image s) ∧ atoi (typeflag image s) = code := by
  rw [headerTest, decide_eq_true_iff, kstrcmp_eq_zero_iff]

/-- A test by a name and a property against the name and the property it
should go by. -/
theorem forall_test_iff {n m : List Byte} (hn : 0#8 ∉ n) (hm : 0#8 ∉ m) {p q : Prop} :
    (∀ f, cString f = n ∧ p ↔ cString f = m ∧ q) ↔ (p ↔ q) ∧ (n = m ∨ ¬ q) := by
  constructor
  · intro h
    have hatn := h n
    have hatm := h m
    rw [cString_eq_self hn, and_iff_right rfl] at hatn
    rw [cString_eq_self hm, and_iff_right (a := m = m) rfl] at hatm
    by_cases hnm : n = m
    · rw [and_iff_right hnm] at hatn
      exact ⟨hatn, .inl hnm⟩
    · have hp : ¬ p := fun hp => hnm (hatn.mp hp).1
      have hq : ¬ q := fun hq => hnm (hatm.mpr hq).1.symm
      exact ⟨iff_of_false hp hq, .inr hq⟩
  · rintro ⟨hpq, hor⟩ f
    rcases hor with rfl | hq
    · exact and_congr_right fun _ => hpq
    · exact iff_of_false (fun h => hq (hpq.mp h.2)) fun h => hq h.2

/-- **The tests match a header** exactly if its type flag is read right and
its name ends with the field, or the name does not matter. -/
theorem matches_iff (h : UstarHeader) {before : List Byte} (next : List Byte) {s : Nat}
    (hs : before.length = 512 * s) :
    Matches h (before ++ (h.bytes ++ next)) s ↔
      TypeRead h.typeflag (h.linkText next) ∧
        (NameEnds h ∨ h.typeflag ≠ 0 ∧ h.typeflag ≠ 5) := by
  have htest : ∀ (code : Int) (k : Fin 8),
      (∀ f, headerTest code (before ++ (h.bytes ++ next)) f s = true ↔
        cString f = h.name ∧ h.typeflag = k) ↔
      (atoi (typeflag (before ++ (h.bytes ++ next)) s) = code ↔ h.typeflag = k) ∧
        (NameEnds h ∨ h.typeflag ≠ k) := by
    intro code k
    rw [← cString_name_ustar rfl hs, ← forall_test_iff (zero_notMem_cString _) h.zero_notMem_name]
    exact forall_congr' fun f => iff_congr headerTest_iff Iff.rfl
  rw [← atoi_typeflag_iff rfl hs, or_and_left, and_and_and_comm, ← htest 0 0, ← htest 5 5]
  exact ⟨fun hm => ⟨hm.file, hm.directory⟩, fun hm => ⟨hm.1, hm.2⟩⟩

end Header

/-- A header with a short name, and the given flag and link. -/
def plainHeader (typeflag : Fin 8) (link : Byte) : UstarHeader where
  name := [ascii 'a']
  fields := List.replicate 56 0#8
  typeflag := typeflag
  linkname := link :: List.replicate 99 0#8
  rest := List.replicate 255 0#8
  name_ne_nil := by decide
  length_name := by decide
  zero_notMem_name := by decide
  length_fields := List.length_replicate
  length_linkname := by rw [List.length_cons, List.length_replicate]
  length_rest := List.length_replicate

/-- A directory without a link. -/
theorem matches_iff_directory :
    Matches (plainHeader 5 0#8) ([] ++ ((plainHeader 5 0#8).bytes ++ [])) 0 := by
  have hlink : (plainHeader 5 0#8).linkText [] = [] := by decide +kernel
  refine (matches_iff (plainHeader 5 0#8) [] rfl).mpr ⟨?_, .inl (.inl (by decide))⟩
  rw [hlink, TypeRead, if_pos List.all_nil]
  decide

/-- A symbolic link to `b` passes for a file. -/
theorem link_passes_for_file :
    headerTest 0 (plainHeader 2 (ascii 'b')).bytes [ascii 'a'] 0 = true ∧
      ¬ Matches (plainHeader 2 (ascii 'b')) (plainHeader 2 (ascii 'b')).bytes 0 := by
  have htest : headerTest 0 (plainHeader 2 (ascii 'b')).bytes [ascii 'a'] 0 = true := by
    decide +kernel
  refine ⟨htest, fun hm => ?_⟩
  exact absurd ((hm.file _).mp htest).2 (by decide)

end Tarfs

end SnowOs
