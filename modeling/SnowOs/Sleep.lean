import SnowOs.CString

/-!
# Sleeping (`sys/sleep.c`, `sys/pit.c`)

`sleep` stores the number of seconds in `sleep_val` and looks at it until it
is zero. `syscall_isr` has enabled interrupts by then, so the timer comes in
at any point of the loop; its handler counts ticks since boot and takes one
off `sleep_val` whenever the count is a multiple of a hundred.

The seconds are those of the count since boot, not of the call: a call waits
for `n` multiples of a hundred, so between `100 * (n - 1) + 1` and `100 * n`
ticks, and returns at its first look from then on (`sleep_spec`).

`sleep_val` is an `int`. From `2 ^ 31` seconds on it starts out negative and
would be counted down past the least `int`; `overflow` stands for that.
-/

namespace SnowOs.Timer

/-- `time_since_boot` and `sleep_val`. -/
structure Clock where
  timeSinceBoot : BitVec 64
  sleepVal : Int
deriving DecidableEq

/-- `on_second_tick`; `none` is an overflow of `sleep_val`. -/
def onSecondTick (sleepVal : Int) : Option Int :=
  if sleepVal = 0 then some sleepVal
  else if sleepVal = -2 ^ 31 then none
  else some (sleepVal - 1)

/-- What `pit_intr_handler` does to the two counters. -/
def pitIntrHandler (c : Clock) : Option Clock :=
  let time := c.timeSinceBoot + 1
  if time % 100 = 0 then (onSecondTick c.sleepVal).map fun v => ⟨time, v⟩
  else some ⟨time, c.sleepVal⟩

/-- The timer comes, or the program gets a step further. -/
inductive Moment where
  | tick
  | step
deriving DecidableEq

/-- Where a call is after a sequence of moments. -/
inductive Outcome where
  | returned (value : BitVec 32) (c : Clock) (rest : List Moment)
  | waiting (c : Clock)
  | overflow
deriving DecidableEq

/-- The loop of `sleep`: each step is a look at `sleep_val`. -/
def sleepLoop : List Moment → Clock → Outcome
  | [], c => .waiting c
  | .tick :: rest, c => (pitIntrHandler c).elim .overflow (sleepLoop rest)
  | .step :: rest, c => if c.sleepVal = 0 then .returned 0 c rest else sleepLoop rest c

/-- `sleep`, from its store on. -/
def sleep (seconds : BitVec 32) (moments : List Moment) (c : Clock) : Outcome :=
  sleepLoop moments { c with sleepVal := int32 seconds.toNat }

/-! ## The count of seconds -/

/-- The multiples of a hundred among `ticks` ticks from `time` on. -/
def secondsIn (time ticks : Nat) : Nat := (time + ticks) / 100 - time / 100

theorem secondsIn_zero (time : Nat) : secondsIn time 0 = 0 := Nat.sub_self _

theorem secondsIn_add (time j k : Nat) :
    secondsIn time (j + k) = secondsIn time j + secondsIn (time + j) k := by
  simp only [secondsIn]
  omega

def ticks (moments : List Moment) : Nat := moments.count .tick

@[simp] theorem ticks_nil : ticks [] = 0 := rfl

@[simp] theorem ticks_tick (moments : List Moment) :
    ticks (.tick :: moments) = ticks moments + 1 := List.count_cons_self

@[simp] theorem ticks_step (moments : List Moment) : ticks (.step :: moments) = ticks moments :=
  List.count_cons_of_ne (by decide)

/-- A clock at `time` with `n` seconds to go. -/
def clockAt (time n : Nat) : Clock := ⟨BitVec.ofNat 64 time, n⟩

theorem pitIntrHandler_clockAt {time n : Nat} (htime : time + 1 < 2 ^ 64) :
    pitIntrHandler (clockAt time n) = some (clockAt (time + 1) (n - secondsIn time 1)) := by
  have hnext : (BitVec.ofNat 64 time + 1 : BitVec 64) = BitVec.ofNat 64 (time + 1) :=
    (BitVec.ofNat_add time 1).symm
  have hmod : (BitVec.ofNat 64 (time + 1) % 100 = 0) ↔ (time + 1) % 100 = 0 := by
    rw [← BitVec.toNat_inj, BitVec.toNat_umod, BitVec.toNat_ofNat, Nat.mod_eq_of_lt htime]
    rfl
  simp only [pitIntrHandler, clockAt, hnext, hmod]
  by_cases hsecond : (time + 1) % 100 = 0
  · have hone : secondsIn time 1 = 1 := by
      simp only [secondsIn]
      omega
    rw [if_pos hsecond, hone]
    cases n with
    | zero => rfl
    | succ n =>
        have hne : ((n + 1 : Nat) : Int) ≠ 0 := by omega
        have hmin : ((n + 1 : Nat) : Int) ≠ -2 ^ 31 := by omega
        rw [onSecondTick, if_neg hne, if_neg hmin, Option.map_some, Nat.add_sub_cancel]
        congr 2
        omega
  · have hnone : secondsIn time 1 = 0 := by
      simp only [secondsIn]
      omega
    rw [if_neg hsecond, hnone, Nat.sub_zero]

/-! ## A call -/

/-- No look among the moments comes after `n` seconds. -/
def NoneDue (n time : Nat) (moments : List Moment) : Prop :=
  ∀ before, before ++ [.step] <+: moments → secondsIn time (ticks before) < n

/-- What can be said of a wait for `n` seconds that began at `time`: it is
over at the first look that comes after them, with nothing left to go, and
otherwise still on. -/
def Waits (n time : Nat) (moments : List Moment) : Outcome → Prop
  | .returned value c rest => value = 0 ∧ ∃ before, moments = before ++ .step :: rest ∧
      NoneDue n time before ∧ n ≤ secondsIn time (ticks before) ∧
      c = clockAt (time + ticks before) 0
  | .waiting c => NoneDue n time moments ∧
      c = clockAt (time + ticks moments) (n - secondsIn time (ticks moments))
  | .overflow => False

variable {n time : Nat} {moments : List Moment} {o : Outcome}

theorem noneDue_nil : NoneDue n time [] := fun before h => by
  rw [List.prefix_nil] at h
  exact absurd h (List.append_ne_nil_of_right_ne_nil before (List.cons_ne_nil _ _))

theorem noneDue_tick :
    NoneDue n time (.tick :: moments) ↔ NoneDue (n - secondsIn time 1) (time + 1) moments := by
  have hsplit (before : List Moment) : secondsIn time (ticks (.tick :: before))
      = secondsIn time 1 + secondsIn (time + 1) (ticks before) := by
    rw [ticks_tick, Nat.add_comm, secondsIn_add]
  constructor
  · intro h before hbefore
    have := h (.tick :: before) (List.cons_prefix_cons.mpr ⟨rfl, hbefore⟩)
    rw [hsplit] at this
    omega
  · intro h before hbefore
    cases before with
    | nil => cases (List.cons_prefix_cons.mp hbefore).1
    | cons m before =>
        obtain ⟨rfl, hrest⟩ := List.cons_prefix_cons.mp hbefore
        have := h before hrest
        rw [hsplit]
        omega

theorem noneDue_step : NoneDue n time (.step :: moments) ↔ 0 < n ∧ NoneDue n time moments := by
  constructor
  · intro h
    refine ⟨?_, fun before hbefore => ?_⟩
    · have := h [] (List.cons_prefix_cons.mpr ⟨rfl, List.nil_prefix⟩)
      rwa [ticks_nil, secondsIn_zero] at this
    · have := h (.step :: before) (List.cons_prefix_cons.mpr ⟨rfl, hbefore⟩)
      rwa [ticks_step] at this
  · rintro ⟨hpos, h⟩ before hbefore
    cases before with
    | nil => rwa [ticks_nil, secondsIn_zero]
    | cons m before =>
        obtain ⟨rfl, hrest⟩ := List.cons_prefix_cons.mp hbefore
        rw [ticks_step]
        exact h before hrest

theorem Waits.tick (h : Waits (n - secondsIn time 1) (time + 1) moments o) :
    Waits n time (.tick :: moments) o := by
  have hsplit (k : Nat) : secondsIn time (k + 1)
      = secondsIn time 1 + secondsIn (time + 1) k := by
    rw [Nat.add_comm, secondsIn_add]
  cases o with
  | returned value c rest =>
      obtain ⟨rfl, before, rfl, hnone, hdue, rfl⟩ := h
      refine ⟨rfl, .tick :: before, rfl, noneDue_tick.mpr hnone, ?_, ?_⟩
      · rw [ticks_tick, hsplit]
        omega
      · rw [ticks_tick, Nat.add_assoc, Nat.add_comm 1]
  | waiting c =>
      obtain ⟨hnone, rfl⟩ := h
      refine ⟨noneDue_tick.mpr hnone, ?_⟩
      rw [ticks_tick, hsplit (ticks moments), Nat.sub_add_eq, Nat.add_assoc, Nat.add_comm 1]
  | overflow => exact h

theorem Waits.step (hpos : 0 < n) (h : Waits n time moments o) :
    Waits n time (.step :: moments) o := by
  cases o with
  | returned value c rest =>
      obtain ⟨rfl, before, rfl, hnone, hdue, rfl⟩ := h
      refine ⟨rfl, .step :: before, rfl, noneDue_step.mpr ⟨hpos, hnone⟩, ?_, ?_⟩
      · rwa [ticks_step]
      · rw [ticks_step]
  | waiting c =>
      obtain ⟨hnone, rfl⟩ := h
      exact ⟨noneDue_step.mpr ⟨hpos, hnone⟩, by rw [ticks_step]⟩
  | overflow => exact h

theorem sleepLoop_waits (htime : time + ticks moments < 2 ^ 64) :
    Waits n time moments (sleepLoop moments (clockAt time n)) := by
  induction moments generalizing n time with
  | nil => exact ⟨noneDue_nil, by rw [ticks_nil, secondsIn_zero]; rfl⟩
  | cons m moments ih =>
      cases m with
      | tick =>
          rw [ticks_tick] at htime
          rw [sleepLoop, pitIntrHandler_clockAt (by omega), Option.elim_some]
          exact (ih (by omega)).tick
      | step =>
          rw [ticks_step] at htime
          rw [sleepLoop]
          by_cases hzero : n = 0
          · subst hzero
            exact ⟨rfl, [], rfl, noneDue_nil, Nat.zero_le _, rfl⟩
          · have hval : (clockAt time n).sleepVal ≠ 0 := Int.natCast_ne_zero.mpr hzero
            rw [if_neg hval]
            exact (ih htime).step (Nat.pos_of_ne_zero hzero)

/-- **`sleep` waits for its seconds.** Wherever the timer comes between the
looks of the loop, the call returns at the first look that has as many
multiples of a hundred ticks before it as it was given seconds, and zero. -/
theorem sleep_spec {seconds : BitVec 32} {c : Clock} (hseconds : seconds.toNat < 2 ^ 31)
    (htime : c.timeSinceBoot.toNat + ticks moments < 2 ^ 64) :
    Waits seconds.toNat c.timeSinceBoot.toNat moments (sleep seconds moments c) := by
  have hstart : { c with sleepVal := int32 seconds.toNat }
      = clockAt c.timeSinceBoot.toNat seconds.toNat := by
    rw [clockAt, int32_of_nat hseconds, BitVec.ofNat_toNat, BitVec.setWidth_eq]
  rw [sleep, hstart]
  exact sleepLoop_waits htime

/-- A second that is almost over when the call is made. -/
theorem sleep_spec_two_ticks :
    sleep 1 [.step, .tick, .step, .tick, .step, .tick] ⟨98, 0⟩ = .returned 0 ⟨100, 0⟩ [.tick] ∧
      Waits (1 : BitVec 32).toNat (98 : BitVec 64).toNat [.step, .tick, .step, .tick, .step, .tick]
        (sleep 1 [.step, .tick, .step, .tick, .step, .tick] ⟨98, 0⟩) := by
  constructor
  · decide +kernel
  · have hseconds : (1 : BitVec 32).toNat < 2 ^ 31 := by decide
    exact sleep_spec (c := ⟨98, 0⟩) hseconds (by decide)

end SnowOs.Timer
