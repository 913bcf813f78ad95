import Mathlib.Logic.Relation
import SnowOs.Terminal

/-!
# The keyboard buffer under interleaving (`sys/terminal.c`)

`index` is advanced by the keyboard interrupt and reset by the readers, with
nothing between them but that it is `volatile`. Here `terminal_read` is cut
at each access of `index` and `term_buf`; between two of them anything can
happen: keys, the accesses of other calls, or new calls. A round of the loop
that nothing comes between is `Reading.poll` (`round_eq_poll`).

Two things lead out of the array. Nothing stops the keys at its end, so it
overruns when nobody reads. And a reader that has seen a character looks at
the cell below `index`, so it must not find `index` back at 0: not after a
backspace, and not after the reset of another reader. Where neither happens
every access is in bounds (`inBounds_of_keeps`).
-/

namespace SnowOs

/-! ## A call of `terminal_read`, access by access -/

/-- The access a call of `terminal_read` makes next. The two of
`reset_term_inp_buffer` come with what is returned after them, nothing when
the loop is still to come. -/
inductive ReadPhase where
  | memset (ret : Option Int)
  | zero (ret : Option Int)
  | enter
  | poll
  | note
  | test
  | value
  | load
  | store (c : Byte)
  | full
  | done (ret : Int)
deriving DecidableEq

/-- A call of `terminal_read`: its arguments, its local `last_index` and
where it is. -/
structure TerminalRead where
  len : Int
  buf : Int → Byte
  lastIndex : Nat := 0
  phase : ReadPhase

/-- The `memset` of `reset_term_inp_buffer`. -/
def Terminal.clearBuf (t : Terminal) : Terminal :=
  { t with termBuf := fun i => if 0 ≤ i ∧ i < termBufSize then 0 else t.termBuf i }

namespace TerminalRead

def call (len : Int) (buf : Int → Byte) : TerminalRead :=
  { len, buf, phase := if len = 0 then .done 0 else .memset none }

/-- The next access. Of the two in `buf[index - 1] = term_buf[index - 1]`
the right one is taken first. -/
def step (r : TerminalRead) (t : Terminal) : Terminal × TerminalRead :=
  match r.phase with
  | .memset ret => (t.clearBuf, { r with phase := .zero ret })
  | .zero none => ({ t with index := 0 }, { r with phase := .enter })
  | .zero (some v) => ({ t with index := 0 }, { r with phase := .done v })
  | .enter => (t, { r with lastIndex := t.index, phase := .poll })
  | .poll => (t, if r.lastIndex = t.index then r else { r with phase := .note })
  | .note => (t, { r with lastIndex := t.index, phase := .test })
  | .test =>
      (t.touch (t.index - 1),
        { r with phase := if t.termBuf (t.index - 1) = ascii '\n' then .value else .load })
  | .value => (t, { r with phase := .memset (some (t.index - 1)) })
  | .load => (t.touch (t.index - 1), { r with phase := .store (t.termBuf (t.index - 1)) })
  | .store c => (t, { r with buf := Function.update r.buf (t.index - 1) c, phase := .full })
  | .full =>
      (t, { r with phase := if (t.index : Int) = r.len then .memset (some r.len) else .poll })
  | .done _ => (t, r)

/-- The call has seen a character, and will look below `index`. -/
def Aware (r : TerminalRead) : Prop :=
  match r.phase with
  | .note | .test | .load => True
  | .poll | .store _ | .full => r.lastIndex ≠ 0
  | .memset _ | .zero _ | .enter | .value | .done _ => False

/-- The next access is `index = 0`. -/
def Zeroes (r : TerminalRead) : Prop :=
  match r.phase with
  | .zero _ => True
  | _ => False

instance : DecidablePred Aware
  | ⟨_, _, _, .note⟩ | ⟨_, _, _, .test⟩ | ⟨_, _, _, .load⟩ => inferInstanceAs (Decidable True)
  | ⟨_, _, lastIndex, .poll⟩ | ⟨_, _, lastIndex, .store _⟩ | ⟨_, _, lastIndex, .full⟩ =>
      inferInstanceAs (Decidable (lastIndex ≠ 0))
  | ⟨_, _, _, .memset _⟩ | ⟨_, _, _, .zero _⟩ | ⟨_, _, _, .enter⟩ | ⟨_, _, _, .value⟩
  | ⟨_, _, _, .done _⟩ => inferInstanceAs (Decidable False)

instance : DecidablePred Zeroes
  | ⟨_, _, _, .zero _⟩ => inferInstanceAs (Decidable True)
  | ⟨_, _, _, .memset _⟩ | ⟨_, _, _, .enter⟩ | ⟨_, _, _, .poll⟩ | ⟨_, _, _, .note⟩
  | ⟨_, _, _, .test⟩ | ⟨_, _, _, .value⟩ | ⟨_, _, _, .load⟩ | ⟨_, _, _, .store _⟩
  | ⟨_, _, _, .full⟩ | ⟨_, _, _, .done _⟩ => inferInstanceAs (Decidable False)

end TerminalRead

/-! ## Keys and calls -/

/-- The terminal, and the calls of `terminal_read` so far. -/
structure LineInput where
  terminal : Terminal
  calls : List TerminalRead

/-- The string of a backspace. -/
def IsBackspace (ctrs : Nat → Byte) : Prop := ctrs 1 = ascii 'H' ∧ ctrs 0 = ascii '^'

instance (ctrs : Nat → Byte) : Decidable (IsBackspace ctrs) := inferInstanceAs (Decidable (_ ∧ _))

namespace LineInput

/-- What can happen next: a key, a new call, or the next access of a call. -/
inductive Event where
  | key (ctrs : Nat → Byte)
  | call (len : Int) (buf : Int → Byte)
  | access (p : Nat)

def boot : LineInput := { terminal := { termBuf := fun _ => 0, index := 0 }, calls := [] }

def step (s : LineInput) : Event → LineInput
  | .key ctrs => { s with terminal := s.terminal.onNewCharRecvd ctrs }
  | .call len buf => { s with calls := s.calls ++ [TerminalRead.call len buf] }
  | .access p =>
      match s.calls[p]? with
      | none => s
      | some r =>
          { terminal := (r.step s.terminal).1, calls := s.calls.set p (r.step s.terminal).2 }

def run (s : LineInput) (events : List Event) : LineInput := events.foldl step s

/-- `index` is about to become 0. -/
def Empties (s : LineInput) : Event → Prop
  | .key ctrs => IsBackspace ctrs ∧ s.terminal.index = 1
  | .call .. => False
  | .access p => ∃ r ∈ s.calls[p]?, r.Zeroes

def Room (s : LineInput) : Event → Prop
  | .key _ => s.terminal.index < termBufSize
  | _ => True

/-- Keys come while there is room, and `index` becomes 0 only when no call
has seen a character. -/
def Allows (s : LineInput) (e : Event) : Prop :=
  s.Room e ∧ (s.Empties e → ∀ r ∈ s.calls, ¬ r.Aware)

def Keeps (s : LineInput) : List Event → Prop
  | [] => True
  | e :: events => s.Allows e ∧ (s.step e).Keeps events

instance (s : LineInput) : DecidablePred s.Empties
  | .key _ => inferInstanceAs (Decidable (_ ∧ _))
  | .call .. => inferInstanceAs (Decidable False)
  | .access p => inferInstanceAs (Decidable (∃ r ∈ s.calls[p]?, r.Zeroes))

instance (s : LineInput) : DecidablePred s.Room
  | .key _ => inferInstanceAs (Decidable (s.terminal.index < termBufSize))
  | .call .. | .access _ => inferInstanceAs (Decidable True)

instance (s : LineInput) (e : Event) : Decidable (s.Allows e) := inferInstanceAs (Decidable (_ ∧ _))

instance decidableKeeps (s : LineInput) : (events : List Event) → Decidable (s.Keeps events)
  | [] => .isTrue trivial
  | e :: events =>
      have := decidableKeeps (s.step e) events
      inferInstanceAs (Decidable (_ ∧ _))

end LineInput

/-! ## A round that nothing comes between -/

namespace TerminalRead

/-- A reader in front of its loop, as a call. -/
def ofReading (x : Reading) : TerminalRead where
  len := x.len
  buf := x.buf
  lastIndex := x.lastIndex
  phase := match x.ret with
    | none => .poll
    | some v => .done v

/-- One access of a call. -/
def Next (x y : Terminal × TerminalRead) : Prop := x.2.step x.1 = y

/-- Accesses of one call with nothing in between. -/
def Leads : Terminal × TerminalRead → Terminal × TerminalRead → Prop := Relation.ReflTransGen Next

variable {t : Terminal} {len : Int} {buf : Int → Byte} {lastIndex : Nat}

theorem touch_touch (t : Terminal) (i : Int) : (t.touch i).touch i = t.touch i := by
  simp [Terminal.touch]

theorem leads_reset (t : Terminal) (v : Int) :
    Leads (t, ⟨len, buf, lastIndex, .memset (some v)⟩)
      (t.resetTermInpBuffer, ⟨len, buf, lastIndex, .done v⟩) :=
  .tail (.single rfl) rfl

theorem leads_test (hnew : lastIndex ≠ t.index) :
    Leads (t, ⟨len, buf, lastIndex, .poll⟩) (t, ⟨len, buf, t.index, .test⟩) := by
  have hpoll : Next (t, ⟨len, buf, lastIndex, .poll⟩) (t, ⟨len, buf, lastIndex, .note⟩) :=
    Prod.ext rfl (if_neg hnew)
  exact .tail (.single hpoll) rfl

theorem leads_newline (hc : t.termBuf (t.index - 1) = ascii '\n') :
    Leads (t, ⟨len, buf, lastIndex, .test⟩)
      ((t.touch (t.index - 1)).resetTermInpBuffer, ⟨len, buf, lastIndex, .done (t.index - 1)⟩) := by
  have htest : Next (t, ⟨len, buf, lastIndex, .test⟩)
      (t.touch (t.index - 1), ⟨len, buf, lastIndex, .value⟩) := by
    simp only [Next, step, if_pos hc]
  exact (Relation.ReflTransGen.tail (.single htest) rfl).trans (leads_reset ..)

theorem leads_copy (hc : t.termBuf (t.index - 1) ≠ ascii '\n') :
    Leads (t, ⟨len, buf, lastIndex, .test⟩)
      (t.touch (t.index - 1),
        ⟨len, Function.update buf (t.index - 1) (t.termBuf (t.index - 1)), lastIndex, .full⟩) := by
  have htest : Next (t, ⟨len, buf, lastIndex, .test⟩)
      (t.touch (t.index - 1), ⟨len, buf, lastIndex, .load⟩) := by
    simp only [Next, step, if_neg hc]
  have hload : Next (t.touch (t.index - 1), ⟨len, buf, lastIndex, .load⟩)
      (t.touch (t.index - 1), ⟨len, buf, lastIndex, .store (t.termBuf (t.index - 1))⟩) := by
    simp only [Next, step, Terminal.touch_index, Terminal.touch_termBuf, touch_touch]
  exact ((Relation.ReflTransGen.single htest).tail hload).tail rfl

theorem leads_full (h : (t.index : Int) = len) :
    Leads (t, ⟨len, buf, lastIndex, .full⟩)
      (t.resetTermInpBuffer, ⟨len, buf, lastIndex, .done len⟩) := by
  have hfull : Next (t, ⟨len, buf, lastIndex, .full⟩)
      (t, ⟨len, buf, lastIndex, .memset (some len)⟩) := by
    simp only [Next, step, if_pos h]
  exact (Relation.ReflTransGen.single hfull).trans (leads_reset ..)

theorem leads_poll (h : (t.index : Int) ≠ len) :
    Leads (t, ⟨len, buf, lastIndex, .full⟩) (t, ⟨len, buf, lastIndex, .poll⟩) :=
  .single (by simp only [Next, step, if_neg h])

/-- Left alone, the accesses of a round are one poll. -/
theorem round_eq_poll (x : Reading) :
    Leads (x.terminal, ofReading x) (x.poll.terminal, ofReading x.poll) := by
  obtain ⟨t, len, buf, bufInBounds, lastIndex, ret⟩ := x
  cases ret with
  | some v => exact .refl
  | none =>
      by_cases hnew : lastIndex = t.index
      · rw [Reading.poll_idle hnew]
        exact .refl
      · refine (leads_test hnew).trans ?_
        have hgo : ¬ ((none : Option Int).isSome = true ∨ lastIndex = t.index) := by simp [hnew]
        by_cases hc : t.termBuf (t.index - 1) = ascii '\n'
        · have hpoll : Reading.poll ⟨t, len, buf, bufInBounds, lastIndex, none⟩
              = Reading.finish ⟨t.touch (t.index - 1), len, buf, bufInBounds, t.index, none⟩
                (t.index - 1) :=
            (if_neg hgo).trans (if_pos hc)
          rw [hpoll]
          exact leads_newline hc
        · refine (leads_copy hc).trans ?_
          by_cases hfull : t.index = len
          · have hpoll : Reading.poll ⟨t, len, buf, bufInBounds, lastIndex, none⟩
                = Reading.finish (Reading.put
                  ⟨t.touch (t.index - 1), len, buf, bufInBounds, t.index, none⟩
                  (t.index - 1) (t.termBuf (t.index - 1))) len :=
              (if_neg hgo).trans ((if_neg hc).trans (if_pos hfull))
            rw [hpoll]
            exact leads_full (congrArg Nat.cast hfull)
          · have hpoll : Reading.poll ⟨t, len, buf, bufInBounds, lastIndex, none⟩
                = Reading.put ⟨t.touch (t.index - 1), len, buf, bufInBounds, t.index, none⟩
                  (t.index - 1) (t.termBuf (t.index - 1)) :=
              (if_neg hgo).trans ((if_neg hc).trans (if_neg hfull))
            rw [hpoll]
            exact leads_poll fun h => hfull (Int.ofNat_inj.mp h)

end TerminalRead

/-! ## What one step does -/

namespace Terminal

theorem onNewCharRecvd_room {t : Terminal} (hroom : t.index < termBufSize)
    (hin : t.inBounds = true) (ctrs : Nat → Byte) :
    (t.onNewCharRecvd ctrs).inBounds = true ∧ (t.onNewCharRecvd ctrs).index ≤ termBufSize ∧
      (¬ (IsBackspace ctrs ∧ t.index = 1) → 0 < t.index → 0 < (t.onNewCharRecvd ctrs).index) := by
  have hput : ∀ c, (t.put t.index c).inBounds = true := fun c =>
    (touch_inBounds ..).mpr ⟨hin, Int.natCast_nonneg _, Int.ofNat_lt.mpr hroom⟩
  have hnext : (t.index + 1) % 65536 = t.index + 1 := by
    rw [termBufSize] at hroom
    omega
  unfold onNewCharRecvd
  by_cases hback : ctrs 1 = ascii 'H' ∧ ctrs 0 = ascii '^'
  · rw [if_pos hback]
    split
    · next hzero => exact ⟨hin, hroom.le, fun _ hpos => absurd hzero hpos.ne'⟩
    · refine ⟨hput 0, (Nat.sub_le ..).trans hroom.le, fun hone hpos => ?_⟩
      have hne : t.index ≠ 1 := fun h => hone ⟨hback, h⟩
      exact Nat.sub_pos_of_lt (Nat.lt_of_le_of_ne hpos hne.symm)
  · rw [if_neg hback, hnext]
    split
    · exact ⟨hput (ascii '\n'), hroom, fun _ _ => Nat.succ_pos _⟩
    · exact ⟨hput (ctrs 0), hroom, fun _ _ => Nat.succ_pos _⟩

end Terminal

namespace TerminalRead

/-- An access of a call that looks below `index` only when something is
there. -/
theorem step_sound {r : TerminalRead} {t : Terminal} (hmax : t.index ≤ termBufSize)
    (hin : t.inBounds = true) (haware : r.Aware → 0 < t.index) :
    (r.step t).1.inBounds = true ∧ ((r.step t).2.Aware → 0 < (r.step t).1.index) ∧
      ((r.step t).1.index = t.index ∨ (r.step t).1.index = 0 ∧ r.Zeroes) := by
  have htouch : 0 < t.index → (t.touch (t.index - 1)).inBounds = true := fun hpos =>
    (Terminal.touch_inBounds ..).mpr ⟨hin, by omega, by omega⟩
  obtain ⟨len, buf, lastIndex, phase⟩ := r
  cases phase with
  | memset ret => exact ⟨hin, False.elim, .inl rfl⟩
  | zero ret =>
      cases ret with
      | none => exact ⟨hin, False.elim, .inr ⟨rfl, trivial⟩⟩
      | some v => exact ⟨hin, False.elim, .inr ⟨rfl, trivial⟩⟩
  | enter => exact ⟨hin, Nat.pos_of_ne_zero, .inl rfl⟩
  | poll =>
      refine ⟨hin, fun h => ?_, .inl rfl⟩
      by_cases hnew : lastIndex = t.index
      · simp only [step, if_pos hnew] at h
        exact haware h
      · -- a reader that has seen nothing finds `index` at another value than 0
        rcases Nat.eq_zero_or_pos lastIndex with rfl | hpos
        · exact Nat.pos_of_ne_zero (Ne.symm hnew)
        · exact haware hpos.ne'
  | note => exact ⟨hin, fun _ => haware trivial, .inl rfl⟩
  | test => exact ⟨htouch (haware trivial), fun _ => haware trivial, .inl rfl⟩
  | value => exact ⟨hin, False.elim, .inl rfl⟩
  | load => exact ⟨htouch (haware trivial), fun _ => haware trivial, .inl rfl⟩
  | store c => exact ⟨hin, haware, .inl rfl⟩
  | full =>
      refine ⟨hin, fun h => ?_, .inl rfl⟩
      by_cases hfull : (t.index : Int) = len
      · simp only [step, if_pos hfull] at h
        exact absurd h id
      · simp only [step, if_neg hfull] at h
        exact haware h
  | done ret => exact ⟨hin, False.elim, .inl rfl⟩

theorem not_aware_call (len : Int) (buf : Int → Byte) : ¬ (call len buf).Aware := by
  unfold call
  split
  · exact id
  · exact id

end TerminalRead

/-! ## Every interleaving -/

namespace LineInput

/-- `index` is in the buffer, and above 0 where a call counts on that. -/
structure Sound (s : LineInput) : Prop where
  index : s.terminal.index ≤ termBufSize
  inBounds : s.terminal.inBounds = true
  aware : ∀ r ∈ s.calls, r.Aware → 0 < s.terminal.index

variable {s : LineInput} {e : Event}

theorem Sound.step (h : s.Sound) (hallow : s.Allows e) : (s.step e).Sound := by
  obtain ⟨hroom, hempty⟩ := hallow
  cases e with
  | key ctrs =>
      obtain ⟨hin, hmax, hpos⟩ := Terminal.onNewCharRecvd_room hroom h.inBounds ctrs
      refine ⟨hmax, hin, fun r hr haware => hpos (fun hone => ?_) (h.aware r hr haware)⟩
      exact hempty hone r hr haware
  | call len buf =>
      refine ⟨h.index, h.inBounds, fun r hr haware => ?_⟩
      rcases List.mem_append.mp hr with hr | hr
      · exact h.aware r hr haware
      · rw [List.mem_singleton.mp hr] at haware
        exact absurd haware (TerminalRead.not_aware_call len buf)
  | access p =>
      cases hp : s.calls[p]? with
      | none => simpa only [LineInput.step, hp] using h
      | some r =>
          obtain ⟨hin, hown, hindex⟩ :=
            TerminalRead.step_sound h.index h.inBounds (h.aware r (List.mem_of_getElem? hp))
          simp only [LineInput.step, hp]
          refine ⟨?_, hin, fun q hq haware => ?_⟩
          · rcases hindex with heq | ⟨hzero, -⟩
            · exact heq.le.trans h.index
            · exact hzero.le.trans (Nat.zero_le _)
          · rcases List.mem_or_eq_of_mem_set hq with hq | rfl
            · rcases hindex with heq | ⟨-, hzeroes⟩
              · exact heq ▸ h.aware q hq haware
              · exact absurd haware (hempty ⟨r, hp, hzeroes⟩ q hq)
            · exact hown haware

theorem Sound.run {events : List Event} (h : s.Sound) (hkeeps : s.Keeps events) :
    (s.run events).Sound := by
  induction events generalizing s with
  | nil => exact h
  | cons e events ih => exact ih (h.step hkeeps.1) hkeeps.2

theorem boot_sound : boot.Sound := ⟨Nat.zero_le _, rfl, fun r hr => absurd hr (by simp [boot])⟩

/-- Keys and calls in any order and any interleaving: as long as keys come
only while there is room, and `index` goes back to 0 only when no call has
seen a character, every access to `term_buf` is in bounds. -/
theorem inBounds_of_keeps (events : List Event) (h : boot.Keeps events) :
    (boot.run events).terminal.inBounds = true :=
  (boot_sound.run h).inBounds

/-- A line of one character, typed while a call waits for it. -/
def typedLine : List Event :=
  .call 16 (fun _ => 0) :: List.replicate 4 (.access 0) ++
    .key (Key.char (ascii 'a')).ctrs :: List.replicate 6 (.access 0) ++
    .key Key.enter.ctrs :: List.replicate 6 (.access 0)

theorem inBounds_typedLine :
    boot.Keeps typedLine ∧ (boot.run typedLine).terminal.inBounds = true ∧
      (boot.run typedLine).calls.map TerminalRead.phase = [.done 1] := by
  have hkeeps : boot.Keeps typedLine := by decide +kernel
  exact ⟨hkeeps, inBounds_of_keeps typedLine hkeeps, by decide +kernel⟩

/-- Nobody reads, and the 257th key is stored behind the array. With a
reader, one character and its deletion are enough: the reader looks in
front of the array. -/
theorem keys_overrun :
    (boot.run (List.replicate 256 (.key (Key.char (ascii 'a')).ctrs))).terminal.inBounds = true ∧
      (boot.run (List.replicate 257 (.key (Key.char (ascii 'a')).ctrs))).terminal.inBounds
        = false ∧
      (boot.run (.call 16 (fun _ => 0) :: List.replicate 4 (.access 0) ++
        .key (Key.char (ascii 'a')).ctrs :: List.replicate 6 (.access 0) ++
        .key Key.backspace.ctrs :: List.replicate 3 (.access 0))).terminal.inBounds = false := by
  refine ⟨?_, ?_, ?_⟩ <;> decide +kernel

end LineInput

end SnowOs
