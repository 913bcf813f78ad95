import SnowOs.ByteMemory

/-!
# A register machine with a stack

Straight-line code over a set of registers, a stack pointer and
byte-addressed memory. `step` is the effect of one instruction and `exec`
that of a sequence; a call is the effect of the function called, return
address included, since its code is not part of the sequence.

Words lie one after the other from an address on (`Words`). Pushing puts
words in front of those at the stack pointer (`pushes_pushAll`), and popping
registers off words takes them over (`exec_pop`). That is all there is to
save and restore registers: words that lie still (`Words.congr`) come back,
whatever happened to the registers and the stack pointer in between, and
in whichever order the stack pointer comes back to them. Code between
pushes and the pops that undo them is the case where the stack pointer has
not moved (`exec_bracket`), and a `Convention` is what such code may rely on
from a function it calls.
-/

namespace SnowOs.StackMachine

open ByteMemory

/-! ## Words in memory -/

def word (m : Memory 64) (a : BitVec 64) : BitVec 64 := BitVec.ofNat 64 (load m a 8)

def setWord (m : Memory 64) (a v : BitVec 64) : Memory 64 := store m a 8 v.toNat

def up (a : BitVec 64) (n : Nat) : BitVec 64 := a + BitVec.ofNat 64 (8 * n)

def down (a : BitVec 64) (n : Nat) : BitVec 64 := a - BitVec.ofNat 64 (8 * n)

/-- The words from `a` on. -/
def Words (m : Memory 64) (a : BitVec 64) : List (BitVec 64) → Prop
  | [] => True
  | v :: vs => word m a = v ∧ Words m (up a 1) vs

instance Words.decidable (m : Memory 64) (a : BitVec 64) :
    (vs : List (BitVec 64)) → Decidable (Words m a vs)
  | [] => isTrue trivial
  | v :: vs =>
      have := Words.decidable m (up a 1) vs
      inferInstanceAs (Decidable (word m a = v ∧ Words m (up a 1) vs))

section Words

variable {m m' : Memory 64} {a b v : BitVec 64} {vs us : List (BitVec 64)} {n k : Nat}

@[simp] theorem up_zero (a : BitVec 64) : up a 0 = a := by simp [up]

@[simp] theorem down_zero (a : BitVec 64) : down a 0 = a := by simp [down]

theorem up_up (a : BitVec 64) (n k : Nat) : up (up a n) k = up a (n + k) := by
  rw [up, up, up, Nat.mul_add, BitVec.ofNat_add, BitVec.add_assoc]

theorem down_down (a : BitVec 64) (n k : Nat) : down (down a n) k = down a (n + k) := by
  rw [down, down, down, Nat.mul_add, BitVec.ofNat_add, BitVec.sub_sub]

@[simp] theorem up_down (a : BitVec 64) (n : Nat) : up (down a n) n = a :=
  BitVec.sub_add_cancel ..

@[simp] theorem down_up (a : BitVec 64) (n : Nat) : down (up a n) n = a :=
  BitVec.add_sub_cancel ..

theorem up_down_add (a : BitVec 64) (n k : Nat) : up (down a (n + k)) n = down a k := by
  rw [Nat.add_comm n k, ← down_down, up_down]

/-- The bytes of a word are among those of the words around it. -/
theorem inSpan_up {x : BitVec 64} (h : InSpan (up a k) n x) {l : Nat} (hle : 8 * k + n ≤ l) :
    InSpan a l x :=
  h.sub hle

/-- The bytes of the `n` words below `a`. -/
def Below (a : BitVec 64) (n : Nat) (x : BitVec 64) : Prop := InSpan (down a n) (8 * n) x

theorem Below.mono {x : BitVec 64} (h : Below a n x) (hle : n ≤ k) : Below a k x := by
  obtain ⟨l, rfl⟩ := Nat.exists_eq_add_of_le' hle
  rw [Below, ← up_down_add a l n] at h
  exact inSpan_up h (by omega)

theorem Below.of_down {x : BitVec 64} (h : Below (down a k) n x) : Below a (k + n) x := by
  have hspan : InSpan (up (down (down a k) n) 0) (8 * n) x := by rwa [up_zero]
  rw [Below, ← down_down]
  exact inSpan_up hspan (by omega)

theorem Below.not_down {x : BitVec 64} (h : Below a k x) (hlen : 8 * (k + n) ≤ 2 ^ 64) :
    ¬ Below (down a k) n x := by
  have hlow : down (down a k) n = down a (k + n) := down_down a k n
  have hhigh : down a k = up (down a (k + n)) n := by rw [Nat.add_comm, up_down_add]
  intro hbelow
  rw [Below, hlow, ← BitVec.add_zero (down a (k + n))] at hbelow
  rw [Below, hhigh] at h
  exact apart_fields (down a (k + n)) (i := 0) (n := 8 * n) (j := 8 * n) (k := 8 * k)
    (by omega) (by omega) x hbelow h

theorem word_congr (h : ∀ x, InSpan a 8 x → m x = m' x) : word m a = word m' a := by
  rw [word, word, load_congr h]

theorem word_setWord_self (m : Memory 64) (a v : BitVec 64) : word (setWord m a v) a = v := by
  have hfit : v.toNat < 256 ^ 8 := Nat.lt_of_lt_of_eq v.isLt (by decide)
  rw [word, setWord, load_store_of_lt (by decide) hfit, BitVec.ofNat_toNat, BitVec.setWidth_eq]

theorem word_setWord_apart (h : Apart a 8 b 8) : word (setWord m a v) b = word m b := by
  rw [word, setWord, load_store_apart h, word]

theorem setWord_apply {x : BitVec 64} (h : ¬ InSpan a 8 x) : setWord m a v x = m x :=
  store_apply h

theorem Words.congr (h : Words m a vs) (heq : ∀ x, InSpan a (8 * vs.length) x → m' x = m x) :
    Words m' a vs := by
  induction vs generalizing a with
  | nil => trivial
  | cons v vs ih =>
      obtain ⟨hv, hvs⟩ := h
      rw [List.length_cons] at heq
      refine ⟨?_, ih hvs fun x hx => heq x (inSpan_up hx (by omega))⟩
      rw [← hv]
      refine word_congr fun x hx => heq x ?_
      have hzero : InSpan (up a 0) 8 x := by rwa [up_zero]
      exact inSpan_up hzero (by omega)

theorem words_append : Words m a (us ++ vs) ↔ Words m a us ∧ Words m (up a us.length) vs := by
  induction us generalizing a with
  | nil => simp [Words]
  | cons u us ih =>
      rw [List.cons_append, Words, Words, ih, and_assoc, List.length_cons, up_up,
        Nat.add_comm us.length 1]

theorem Words.setWord_front (h : Words m (up a 1) vs) (hlen : 8 * (vs.length + 1) ≤ 2 ^ 64) :
    Words (setWord m a v) a (v :: vs) := by
  refine ⟨word_setWord_self m a v, h.congr fun x hx => setWord_apply fun ha => ?_⟩
  have hapart : Apart (a + BitVec.ofNat 64 0) 8 (a + BitVec.ofNat 64 8) (8 * vs.length) :=
    apart_fields a (by omega) (by omega)
  rw [BitVec.add_zero] at hapart
  exact hapart x ha hx

end Words

/-! ## The machine -/

/-- The registers, the stack pointer apart, and the memory. -/
structure Cpu (R : Type) where
  regs : R → BitVec 64
  sp : BitVec 64
  rip : BitVec 64
  mem : Memory 64

/-- The instructions; `src` comes before `dst`. -/
inductive Instr (R : Type)
  | push (src : R)
  | pushImm (v : BitVec 64)
  | pop (dst : R)
  | mov (src dst : R)
  | load (src dst : R)
  /-- to the address `below` bytes below that in `dst` -/
  | store (src dst : R) (below : Nat)
  | storeImm (v : BitVec 64) (dst : R)
  | getSp (dst : R)
  | setSp (src : R)
  | loadSp (src : R)
  | storeSp (dst : R)
  | addSp (n : BitVec 64)
  | call (f : Cpu R → Cpu R)
  | ret

section Machine

variable {R : Type}

def Cpu.push (c : Cpu R) (v : BitVec 64) : Cpu R :=
  { c with sp := down c.sp 1, mem := setWord c.mem (down c.sp 1) v }

/-- What pushing words does to the machine `c`, with words `vs` at the stack
pointer: they lie in front of these, the last one first. -/
structure Pushes (c : Cpu R) (vs us : List (BitVec 64)) (c' : Cpu R) : Prop where
  regs : c'.regs = c.regs
  rip : c'.rip = c.rip
  sp : c'.sp = down c.sp us.length
  words : Words c'.mem c'.sp (us.reverse ++ vs)
  changed : ChangedIn (InSpan c'.sp (8 * us.length)) c.mem c'.mem

theorem Pushes.nil {c : Cpu R} {vs : List (BitVec 64)} (h : Words c.mem c.sp vs) :
    Pushes c vs [] c where
  regs := rfl
  rip := rfl
  sp := (down_zero _).symm
  words := h
  changed := ChangedIn.refl _ _

theorem Pushes.push {c c' : Cpu R} {vs us : List (BitVec 64)} (h : Pushes c vs us c')
    (hlen : 8 * (us.length + vs.length + 1) ≤ 2 ^ 64) (u : BitVec 64) :
    Pushes c vs (us ++ [u]) (c'.push u) where
  regs := h.regs
  rip := h.rip
  sp := by
    show down c'.sp 1 = _
    rw [h.sp, down_down, List.length_append, List.length_singleton]
  words := by
    rw [List.reverse_append, List.reverse_singleton, List.singleton_append, List.cons_append]
    refine Words.setWord_front ?_ ?_
    · rw [up_down]
      exact h.words
    · rw [List.length_append, List.length_reverse]
      exact hlen
  changed := by
    rw [List.length_append, List.length_singleton]
    intro x hx
    have hold : ¬ InSpan c'.sp (8 * us.length) x := fun hspan => hx <| by
      have hup : InSpan (up (down c'.sp 1) 1) (8 * us.length) x := by rwa [up_down]
      exact inSpan_up hup (by omega)
    have hnew : ¬ InSpan (down c'.sp 1) 8 x := fun hspan => hx <| by
      have hup : InSpan (up (down c'.sp 1) 0) 8 x := by rwa [up_zero]
      exact inSpan_up hup (by omega)
    exact (setWord_apply hnew).trans (h.changed x hold)

def Cpu.pushAll (c : Cpu R) (us : List (BitVec 64)) : Cpu R := us.foldl Cpu.push c

@[simp] theorem Cpu.pushAll_regs (c : Cpu R) (us : List (BitVec 64)) :
    (c.pushAll us).regs = c.regs := by
  induction us generalizing c with
  | nil => rfl
  | cons u us ih => exact ih (c.push u)

theorem Pushes.pushAll {vs : List (BitVec 64)} : ∀ {ws us : List (BitVec 64)} {c c' : Cpu R},
    Pushes c vs us c' → 8 * (us.length + ws.length + vs.length) ≤ 2 ^ 64 →
    Pushes c vs (us ++ ws) (c'.pushAll ws)
  | [], us, c, c', h, _ => by
      rw [List.append_nil]
      exact h
  | w :: ws, us, c, c', h, hlen => by
      rw [List.length_cons] at hlen
      have hrest : Pushes c vs (us ++ [w] ++ ws) ((c'.push w).pushAll ws) :=
        (h.push (by omega) w).pushAll (by
          rw [List.length_append, List.length_singleton]
          omega)
      rwa [List.append_assoc, List.singleton_append] at hrest

theorem pushes_pushAll {c : Cpu R} {vs : List (BitVec 64)} (us : List (BitVec 64))
    (h : Words c.mem c.sp vs) (hlen : 8 * (us.length + vs.length) ≤ 2 ^ 64) :
    Pushes c vs us (c.pushAll us) :=
  (Pushes.nil h).pushAll (by rwa [List.length_nil, Nat.zero_add])

/-- What a call may change: the registers that are not `kept`, the bytes in
`foot`, and `depth` words of the stack below it. -/
structure Convention (kept : List R) (foot : BitVec 64 → Prop) (depth : Nat)
    (f : Cpu R → Cpu R) : Prop where
  sp : ∀ c, (f c).sp = c.sp
  rip : ∀ c, (f c).rip = c.rip
  regs : ∀ c, ∀ r ∈ kept, (f c).regs r = c.regs r
  mem : ∀ c x, ¬ foot x → ¬ Below c.sp depth x → (f c).mem x = c.mem x

variable [DecidableEq R]

def Cpu.setReg (c : Cpu R) (r : R) (v : BitVec 64) : Cpu R :=
  { c with regs := Function.update c.regs r v }

@[simp] theorem Cpu.setReg_mem (c : Cpu R) (r : R) (v : BitVec 64) : (c.setReg r v).mem = c.mem :=
  rfl

@[simp] theorem Cpu.setReg_sp (c : Cpu R) (r : R) (v : BitVec 64) : (c.setReg r v).sp = c.sp := rfl

def Instr.step : Instr R → Cpu R → Cpu R
  | .push src, c => c.push (c.regs src)
  | .pushImm v, c => c.push v
  | .pop dst, c => { c.setReg dst (word c.mem c.sp) with sp := up c.sp 1 }
  | .mov src dst, c => c.setReg dst (c.regs src)
  | .load src dst, c => c.setReg dst (word c.mem (c.regs src))
  | .store src dst below, c =>
      { c with mem := setWord c.mem (c.regs dst - BitVec.ofNat 64 below) (c.regs src) }
  | .storeImm v dst, c => { c with mem := setWord c.mem (c.regs dst) v }
  | .getSp dst, c => c.setReg dst c.sp
  | .setSp src, c => { c with sp := c.regs src }
  | .loadSp src, c => { c with sp := word c.mem (c.regs src) }
  | .storeSp dst, c => { c with mem := setWord c.mem (c.regs dst) c.sp }
  | .addSp n, c => { c with sp := c.sp + n }
  | .call f, c => f c
  | .ret, c => { c with rip := word c.mem c.sp, sp := up c.sp 1 }

def exec (code : List (Instr R)) (c : Cpu R) : Cpu R := code.foldl (fun c i => i.step c) c

@[simp] theorem exec_nil (c : Cpu R) : exec [] c = c := rfl

@[simp] theorem exec_cons (i : Instr R) (code : List (Instr R)) (c : Cpu R) :
    exec (i :: code) c = exec code (i.step c) := rfl

theorem exec_append (code₁ code₂ : List (Instr R)) (c : Cpu R) :
    exec (code₁ ++ code₂) c = exec code₂ (exec code₁ c) :=
  List.foldl_append ..

theorem exec_push (rs : List R) (c : Cpu R) :
    exec (rs.map .push) c = c.pushAll (rs.map c.regs) := by
  induction rs generalizing c with
  | nil => rfl
  | cons r rs ih => exact ih (c.push (c.regs r))

/-- Registers popped off words that are their values: all of them have these
values then. A register may be popped more than once. -/
theorem exec_pop (f : R → BitVec 64) : ∀ {rs : List R} {c : Cpu R},
    Words c.mem c.sp (rs.map f) →
    exec (rs.map .pop) c
      = { c with regs := fun r => if r ∈ rs then f r else c.regs r, sp := up c.sp rs.length }
  | [], c, _ => by simp
  | r :: rs, c, h => by
      obtain ⟨hword, hrest⟩ := h
      have hstep : (Instr.pop r).step c
          = { c with regs := Function.update c.regs r (f r), sp := up c.sp 1 } := by
        rw [Instr.step, hword]
        rfl
      rw [List.map_cons, exec_cons, hstep, exec_pop f (by exact hrest)]
      simp only [up_up, List.length_cons, Nat.add_comm 1 rs.length]
      congr 1
      funext q
      by_cases hq : q ∈ rs
      · simp [hq]
      · by_cases hqr : q = r
        · subst hqr
          simp [hq]
        · simp [hq, hqr]

/-- Registers that are pushed, and popped after code that leaves the stack
pointer and the words on the stack alone, are what they were. -/
theorem exec_bracket {rs : List R} {body : List (Instr R)} {c c' : Cpu R}
    (hlen : 8 * rs.length ≤ 2 ^ 64) (hbody : exec body (c.pushAll (rs.map c.regs)) = c')
    (hsp : c'.sp = (c.pushAll (rs.map c.regs)).sp)
    (hmem : ∀ x, Below c.sp rs.length x → c'.mem x = (c.pushAll (rs.map c.regs)).mem x) :
    exec (rs.map .push ++ body ++ rs.reverse.map .pop) c
      = { c' with regs := fun r => if r ∈ rs then c.regs r else c'.regs r, sp := c.sp } := by
  have hpushes : Pushes c [] (rs.map c.regs) (c.pushAll (rs.map c.regs)) :=
    pushes_pushAll _ trivial (by rwa [List.length_map, List.length_nil, Nat.add_zero])
  obtain ⟨-, -, hdown, hwords, -⟩ := hpushes
  rw [List.length_map] at hdown
  rw [List.append_nil, ← List.map_reverse, hdown] at hwords
  have hwords' : Words c'.mem c'.sp (rs.reverse.map c.regs) := by
    rw [hsp, hdown]
    refine hwords.congr fun x hx => hmem x ?_
    rwa [List.length_map, List.length_reverse] at hx
  rw [exec_append, exec_append, exec_push, hbody, exec_pop c.regs hwords']
  simp only [List.mem_reverse, List.length_reverse, hsp, hdown, up_down]

end Machine

end SnowOs.StackMachine
