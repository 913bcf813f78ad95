import SnowOs.Terminal

/-!
# Keys between two polls

Keys arrive by interrupt, and `terminal_read` polls when it is scheduled,
so any number of keys may come between two rounds of its loop. A schedule
is a list of `Event`s, each a key or one round of the loop.

A round copies one character, the one just below `index`. A character is
copied only if a round falls between it and the next key (`Polled`);
otherwise the caller's buffer keeps what it held there. `keys_read` says
so for every schedule.
-/

namespace SnowOs

/-- What happens next: a key is pressed, or the loop of `terminal_read`
goes round once. -/
inductive Event where
  | key (k : Key)
  | poll
deriving DecidableEq, Repr

def keysOf (es : List Event) : List Key :=
  es.filterMap fun
    | .key k => some k
    | .poll => none

@[simp] theorem keysOf_nil : keysOf [] = [] := rfl

@[simp] theorem keysOf_append (es fs : List Event) :
    keysOf (es ++ fs) = keysOf es ++ keysOf fs := List.filterMap_append

@[simp] theorem keysOf_key (k : Key) (es : List Event) :
    keysOf (.key k :: es) = k :: keysOf es := rfl

@[simp] theorem keysOf_poll (es : List Event) : keysOf (.poll :: es) = keysOf es := rfl

/-- A round of the loop falls between key `i` and the next one. -/
def Polled (es : List Event) (i : Nat) : Prop :=
  ∃ pre post, es = pre ++ .poll :: post ∧ (keysOf pre).length = i + 1

section Polled

variable {es : List Event} {i : Nat}

@[simp] theorem not_polled_nil : ¬ Polled [] i := by
  rintro ⟨pre, post, heq, -⟩
  simp at heq

theorem polled_concat (e : Event) : Polled (es ++ [e]) i ↔
    Polled es i ∨ (e = .poll ∧ (keysOf es).length = i + 1) := by
  constructor
  · rintro ⟨pre, post, heq, hlen⟩
    rcases List.eq_nil_or_concat post with rfl | ⟨post, e', rfl⟩
    · obtain ⟨rfl, he⟩ := List.append_inj' heq rfl
      exact Or.inr ⟨List.singleton_inj.mp he, hlen⟩
    · rw [List.concat_eq_append, ← List.cons_append, ← List.append_assoc] at heq
      obtain ⟨rfl, -⟩ := List.append_inj' heq rfl
      exact Or.inl ⟨pre, post, rfl, hlen⟩
  · rintro (⟨pre, post, rfl, hlen⟩ | ⟨rfl, hlen⟩)
    · exact ⟨pre, post ++ [e], by simp, hlen⟩
    · exact ⟨es, [], rfl, hlen⟩

@[simp] theorem polled_concat_key (k : Key) : Polled (es ++ [.key k]) i ↔ Polled es i := by
  simp [polled_concat]

@[simp] theorem polled_concat_poll : Polled (es ++ [.poll]) i ↔
    Polled es i ∨ (keysOf es).length = i + 1 := by
  simp [polled_concat]

/-- Rounds in a row add nothing but one at the key before them. -/
theorem polled_append_polls (h : (keysOf es).length ≠ i + 1) :
    ∀ j, Polled (es ++ List.replicate j .poll) i ↔ Polled es i
  | 0 => by simp
  | j + 1 => by
      have hkeys : keysOf (es ++ List.replicate j .poll) = keysOf es := by simp [keysOf]
      rw [List.replicate_succ', ← List.append_assoc, polled_concat_poll, hkeys,
        polled_append_polls h j, or_iff_left h]

end Polled

/-- A character or Enter beyond the end of `term_buf`. -/
theorem Terminal.not_inBounds_of_full {t : Terminal} {k : Key} (hfull : 256 ≤ t.index)
    (hk : k ≠ .backspace) : ¬ (t.onNewCharRecvd k.ctrs).inBounds = true := by
  have hput : ∀ c, ¬ (t.put t.index c).inBounds = true := by
    intro c hin
    obtain ⟨-, -, hlt⟩ := (touch_inBounds ..).mp hin
    rw [termBufSize] at hlt
    omega
  intro hin
  rw [onNewCharRecvd] at hin
  split at hin
  · rename_i hback
    cases k with
    | backspace => exact hk rfl
    | char c => exact absurd hback.1 (show ¬ (0 : Byte) = ascii 'H' by decide)
    | enter => exact absurd hback.1 (by decide)
  · split at hin
    · exact hput (ascii '\n') hin
    · exact hput (k.ctrs 0) hin

namespace Reading

/-! ## Runs -/

def step (r : Reading) : Event → Reading
  | .key k => { r with terminal := r.terminal.onNewCharRecvd k.ctrs }
  | .poll => r.poll

def run (r : Reading) (es : List Event) : Reading := es.foldl step r

@[simp] theorem run_nil (r : Reading) : r.run [] = r := rfl

theorem run_concat (r : Reading) (es : List Event) (e : Event) :
    r.run (es ++ [e]) = (r.run es).step e := by
  simp [run]

theorem inBounds_of_step {r : Reading} {e : Event} (h : (r.step e).InBounds) : r.InBounds := by
  cases e with
  | key k => exact ⟨inBounds_of_key h.1, h.2⟩
  | poll => exact (inBounds_of_poll h).1

theorem inBounds_of_run {es : List Event} : ∀ {r : Reading}, (r.run es).InBounds → r.InBounds := by
  induction es with
  | nil => exact fun h => h
  | cons e es ih => exact fun h => inBounds_of_step (ih h)

/-! ## The reader behind the keys -/

/-- The reader during the characters `chars`: `term_buf` has them all, the
caller's buffer those that were polled. -/
structure Follows (buf : Int → Byte) (len : Nat) (chars : List Byte) (es : List Event)
    (r : Reading) : Prop where
  ret : r.ret = none
  len : r.len = len
  index : r.terminal.index = chars.length
  last : r.lastIndex ≤ chars.length
  seen : r.lastIndex = chars.length → ∀ i, i + 1 = chars.length → Polled es i
  inBounds : r.InBounds
  termBuf : ∀ i (h : i < chars.length), r.terminal.termBuf i = chars[i]
  copied : ∀ i (h : i < chars.length), Polled es i → r.buf i = chars[i]
  kept : ∀ i : Nat, ¬ Polled es i → r.buf i = buf i

variable {len : Nat} {chars : List Byte} {es : List Event} {r : Reading} {buf : Int → Byte}

theorem start_follows (t : Terminal) (ht : t.inBounds = true) (hlen : 0 < len) :
    Follows buf len [] [] (start t buf len) := by
  rw [start, if_neg (by omega)]
  exact ⟨rfl, rfl, rfl, Nat.le_refl 0, fun _ i hi => absurd hi (by simp), ⟨ht, rfl⟩,
    fun i h => absurd h (by simp), fun i h => absurd h (by simp), fun i _ => rfl⟩

theorem Follows.char (h : Follows buf len chars es r) (hkeys : keysOf es = chars.map .char)
    (c : Byte) (hmax : chars.length < 256) :
    Follows buf len (chars ++ [c]) (es ++ [.key (.char c)]) (r.step (.key (.char c))) := by
  have hcount : (keysOf es).length = chars.length := by simp [hkeys]
  have hnew : ¬ Polled es chars.length := by
    rintro ⟨pre, post, rfl, hpre⟩
    simp [hpre] at hcount
    omega
  have hstep : r.step (.key (.char c))
      = { r with terminal := { r.terminal.put chars.length c with index := chars.length + 1 } } := by
    rw [step, Terminal.onNewCharRecvd_char c h.index hmax]
  have hold : ∀ i < (chars ++ [c]).length, i ≠ chars.length → i < chars.length := by
    intro i hi hne
    rw [List.length_append, List.length_singleton] at hi
    omega
  have hlast := h.last
  rw [hstep]
  refine ⟨h.ret, h.len, by simp, by simp; omega, fun heq => ?_, ⟨?_, h.inBounds.2⟩, fun i hi => ?_,
    fun i hi hp => ?_, fun i hp => ?_⟩
  · rw [List.length_append, List.length_singleton] at heq
    exact absurd heq (by simp; omega)
  · simp [h.inBounds.1, termBufSize]
    omega
  · by_cases heq : i = chars.length
    · simp [heq]
    · have hlt := hold i hi heq
      simpa [update_cell _ heq, hlt] using h.termBuf i hlt
  · rw [polled_concat_key] at hp
    have hlt := hold i hi fun heq => hnew (heq ▸ hp)
    simpa [hlt] using h.copied i hlt hp
  · rw [polled_concat_key] at hp
    exact h.kept i hp

/-- A round that finds nothing new, or copies the last character. -/
theorem Follows.poll (h : Follows buf len chars es r) (hkeys : keysOf es = chars.map .char)
    (hprint : ∀ c ∈ chars, c ≠ ascii '\n') (hmax : chars.length ≤ 256)
    (hlen : chars.length < len) : Follows buf len chars (es ++ [.poll]) (r.step .poll) := by
  have hcount : (keysOf es).length = chars.length := by simp [hkeys]
  by_cases hidle : r.lastIndex = chars.length
  · have hpoll : r.step .poll = r := poll_idle (hidle.trans h.index.symm)
    have hsame : ∀ i, Polled (es ++ [.poll]) i ↔ Polled es i := by
      intro i
      rw [polled_concat_poll, or_iff_left_of_imp]
      exact fun heq => h.seen hidle i (heq.symm.trans hcount)
    rw [hpoll]
    refine ⟨h.ret, h.len, h.index, h.last, fun hl i hi => ?_, h.inBounds, h.termBuf,
      fun i hi hp => ?_, fun i hp => ?_⟩
    · exact (hsame i).mpr (h.seen hl i hi)
    · exact h.copied i hi ((hsame i).mp hp)
    · exact h.kept i fun hc => hp ((hsame i).mpr hc)
  · have hlast := h.last
    obtain ⟨n, hn⟩ : ∃ n, chars.length = n + 1 := ⟨chars.length - 1, by omega⟩
    have hcell := h.termBuf n (by omega)
    have hpoll := poll_copy (h.index.trans hn) h.ret (by omega)
      (by rw [hcell]; exact hprint _ (List.getElem_mem _)) (by rw [h.len]; omega)
    rw [hcell] at hpoll
    have hnow : ∀ i, Polled (es ++ [.poll]) i ↔ Polled es i ∨ i = n := by
      intro i
      rw [polled_concat_poll, hcount, hn]
      exact or_congr Iff.rfl (by omega)
    rw [step, hpoll]
    refine ⟨h.ret, h.len, h.index, ?_, fun _ i hi => (hnow i).mpr (Or.inr (by omega)), ⟨?_, ?_⟩,
      h.termBuf, fun i hi hp => ?_, fun i hp => ?_⟩
    · exact hn.ge
    · simp [h.inBounds.1, termBufSize]
      omega
    · simp [h.inBounds.2, h.len]
      omega
    · by_cases heq : i = n
      · simp [heq]
      · have hold := ((hnow i).mp hp).resolve_right heq
        simpa [update_cell _ heq] using h.copied i hi hold
    · rw [hnow, not_or] at hp
      simpa [update_cell _ hp.2] using h.kept i hp.1

/-- The reader follows the characters while `term_buf` has room for them;
from then on an array has been left. -/
theorem run_follows {t : Terminal} (ht : t.inBounds = true) (es : List Event) :
    ∀ {chars : List Byte}, keysOf es = chars.map .char → (∀ c ∈ chars, c ≠ ascii '\n') →
      chars.length < len →
      chars.length ≤ 256 ∧ Follows buf len chars es ((start t buf len).run es) ∨
        256 < chars.length ∧ ¬ ((start t buf len).run es).InBounds := by
  induction es using List.reverseRecOn with
  | nil =>
      intro chars hkeys _ hlen
      obtain rfl : chars = [] := List.map_eq_nil_iff.mp hkeys.symm
      exact Or.inl ⟨Nat.zero_le _, start_follows t ht hlen⟩
  | append_singleton es e ih =>
      intro chars hkeys hprint hlen
      rw [run_concat]
      cases e with
      | poll =>
          have hkeys : keysOf es = chars.map .char := by simpa using hkeys
          rcases ih hkeys hprint hlen with ⟨hmax, hfollows⟩ | ⟨hover, hout⟩
          · exact Or.inl ⟨hmax, hfollows.poll hkeys hprint hmax hlen⟩
          · exact Or.inr ⟨hover, fun h => hout (inBounds_of_step h)⟩
      | key k =>
          rcases List.eq_nil_or_concat chars with rfl | ⟨chars, c, rfl⟩
          · simp at hkeys
          rw [List.concat_eq_append] at hkeys hprint hlen ⊢
          rw [keysOf_append, List.map_append] at hkeys
          obtain ⟨hfirst, hk⟩ := List.append_inj' hkeys rfl
          obtain rfl : k = .char c := by simpa using hk
          have hprint := fun d hd => hprint d (List.mem_append_left _ hd)
          rw [List.length_append, List.length_singleton] at hlen ⊢
          rcases ih hfirst hprint (by omega) with ⟨hmax, hfollows⟩ | ⟨hover, hout⟩
          · by_cases hroom : chars.length < 256
            · exact Or.inl ⟨hroom, hfollows.char hfirst c hroom⟩
            · have hfull : 256 ≤ ((start t buf len).run es).terminal.index := by
                rw [hfollows.index]
                omega
              have hout := Terminal.not_inBounds_of_full (k := .char c) hfull nofun
              exact Or.inr ⟨by omega, fun h => hout h.1⟩
          · exact Or.inr ⟨by omega, fun h => hout (inBounds_of_step h)⟩

/-! ## Enter -/

theorem Follows.enter (h : Follows buf len chars es r) (hmax : chars.length < 256) :
    ((r.step (.key .enter)).step .poll).ret = some (chars.length : Int) ∧
      ((r.step (.key .enter)).step .poll).buf = r.buf ∧
      ((r.step (.key .enter)).step .poll).InBounds := by
  have hkey : r.step (.key .enter) = { r with
      terminal := { r.terminal.put chars.length (ascii '\n') with index := chars.length + 1 } } := by
    rw [step, Terminal.onNewCharRecvd_enter h.index hmax]
  have hlast := h.last
  have hpoll : (r.step (.key .enter)).step .poll = finish { r with
      lastIndex := chars.length + 1
      terminal := Terminal.touch { r.terminal.put chars.length (ascii '\n') with
        index := chars.length + 1 } chars.length } chars.length := by
    rw [hkey]
    exact poll_newline rfl h.ret (by simp; omega) (by simp)
  rw [hpoll]
  refine ⟨rfl, rfl, ?_, h.inBounds.2⟩
  simp [finish, Terminal.resetTermInpBuffer, h.inBounds.1, termBufSize]
  omega

theorem run_polls_of_ret {v : Int} (h : r.ret = some v) (j : Nat) :
    r.run (List.replicate j .poll) = r := by
  have hpoll : r.step .poll = r := by simp [step, poll, h]
  induction j with
  | zero => rfl
  | succ j ih => rw [List.replicate_succ, run, List.foldl_cons, hpoll, ← run, ih]

end Reading

/-- A schedule of keys that ends with Enter and a round behind it. -/
theorem exists_enter {es : List Event} {keys : List Key} (hkeys : keysOf es = keys ++ [.enter])
    (hlast : es.getLast? = some .poll) :
    ∃ es₀ j, es = es₀ ++ .key .enter :: List.replicate (j + 1) .poll ∧ keysOf es₀ = keys := by
  induction es using List.reverseRecOn with
  | nil => simp at hlast
  | append_singleton es e ih =>
      obtain rfl : e = .poll := by simpa using hlast
      rw [keysOf_append, keysOf_poll, keysOf_nil, List.append_nil] at hkeys
      rcases List.eq_nil_or_concat es with rfl | ⟨es, e, rfl⟩
      · simp at hkeys
      rw [List.concat_eq_append] at hkeys ih ⊢
      cases e with
      | key k =>
          rw [keysOf_append] at hkeys
          obtain ⟨hfirst, hk⟩ := List.append_inj' hkeys rfl
          obtain rfl : k = .enter := by simpa using hk
          exact ⟨es, 0, by simp, hfirst⟩
      | poll =>
          obtain ⟨es₀, j, heq, hes₀⟩ := ih hkeys (by simp)
          refine ⟨es₀, j + 1, ?_, hes₀⟩
          rw [heq, List.append_assoc, List.cons_append, ← List.replicate_succ']

/-! ## Every schedule -/

/-- The caller of `terminal_read` gets the characters typed: their number
is returned, the buffer starts with them, and no access left an array. -/
structure ReadsTyped (chars : List Byte) (r : Reading) : Prop where
  ret : r.ret = some (chars.length : Int)
  buf : ∀ i (h : i < chars.length), r.buf i = chars[i]
  inBounds : r.InBounds

/-- **Keys and polls.** For every schedule of printable characters, ended
by Enter and at least one round of the loop: the characters are read
exactly if they fit into `term_buf` and each of them was polled before the
next key, or was in the buffer already. -/
theorem keys_read {t : Terminal} (ht : t.inBounds = true) {buf : Int → Byte} {len : Nat}
    {chars : List Byte} (hchars : ∀ c ∈ chars, (Key.char c).Edits) (hlen : chars.length < len)
    {es : List Event} (hkeys : keysOf es = chars.map .char ++ [.enter])
    (hlast : es.getLast? = some .poll) :
    ReadsTyped chars ((Reading.start t buf len).run es)
      ↔ chars.length < termBufSize ∧
        ∀ i (h : i < chars.length), Polled es i ∨ buf i = chars[i] := by
  obtain ⟨es₀, j, rfl, hkeys₀⟩ := exists_enter hkeys hlast
  have hprint : ∀ c ∈ chars, c ≠ ascii '\n' := by
    rintro c hc rfl
    exact absurd (hchars _ hc).1 (by decide)
  have hrun : (Reading.start t buf len).run (es₀ ++ .key .enter :: List.replicate (j + 1) .poll)
      = ((((Reading.start t buf len).run es₀).step (.key .enter)).step .poll).run
        (List.replicate j .poll) := by
    simp [Reading.run, List.replicate_succ]
  -- the rounds behind Enter come after the next key of every character
  have hpolled : ∀ i < chars.length,
      (Polled (es₀ ++ .key .enter :: List.replicate (j + 1) .poll) i ↔ Polled es₀ i) := by
    intro i hi
    rw [List.append_cons, polled_append_polls (by simp [hkeys₀]; omega), polled_concat_key]
  rw [hrun]
  rcases @Reading.run_follows len buf t ht es₀ chars hkeys₀ hprint hlen with
    ⟨hmax, hfollows⟩ | ⟨hover, hout⟩
  · by_cases hroom : chars.length < 256
    · obtain ⟨hret, hbuf, hin⟩ := hfollows.enter hroom
      rw [Reading.run_polls_of_ret hret]
      have hcell : ∀ i (h : i < chars.length), ((Reading.start t buf len).run es₀).buf i = chars[i]
          ↔ Polled es₀ i ∨ buf i = chars[i] := by
        intro i hi
        by_cases hp : Polled es₀ i
        · simp [hp, hfollows.copied i hi hp]
        · simp [hp, hfollows.kept i hp]
      constructor
      · intro hread
        refine ⟨hroom, fun i hi => ?_⟩
        rw [hpolled i hi, ← hcell i hi, ← hbuf]
        exact hread.buf i hi
      · rintro ⟨-, hall⟩
        refine ⟨hret, fun i hi => ?_, hin⟩
        rw [hbuf, hcell i hi, ← hpolled i hi]
        exact hall i hi
    · have hfull : 256 ≤ ((Reading.start t buf len).run es₀).terminal.index := by
        rw [hfollows.index]
        omega
      have hout := Terminal.not_inBounds_of_full (k := .enter) hfull nofun
      refine iff_of_false (fun hread => hout ?_) fun hcond => hroom hcond.1
      exact (Reading.inBounds_of_step (Reading.inBounds_of_run hread.inBounds)).1
  · refine iff_of_false (fun hread => hout ?_) fun hcond => absurd hcond.1 (by rw [termBufSize]; omega)
    exact Reading.inBounds_of_step (Reading.inBounds_of_step (Reading.inBounds_of_run hread.inBounds))

def lsSchedule : List Event :=
  [.key (.char (ascii 'l')), .poll, .key (.char (ascii 's')), .poll, .key .enter, .poll]

theorem keys_read_ls : ReadsTyped [ascii 'l', ascii 's']
    ((Reading.start bootTerminal (fun _ => 0) 256).run lsSchedule) := by
  have hpolled : ∀ i < 2, Polled lsSchedule i := by
    intro i hi
    match i with
    | 0 => exact ⟨[.key (.char (ascii 'l'))], _, rfl, rfl⟩
    | 1 => exact ⟨[.key (.char (ascii 'l')), .poll, .key (.char (ascii 's'))], _, rfl, rfl⟩
  exact (keys_read rfl (by decide) (by decide) rfl rfl).mpr
    ⟨by decide, fun i hi => Or.inl (hpolled i hi)⟩

/-- Two keys before the first round: the first one is lost. -/
def fastSchedule : List Event :=
  [.key (.char (ascii 'l')), .key (.char (ascii 's')), .poll, .key .enter, .poll]

/-- The caller is told of two characters, and the first byte of its buffer
is not one of them. -/
theorem fast_keys_lost :
    keysOf fastSchedule = [ascii 'l', ascii 's'].map .char ++ [.enter] ∧
      ((Reading.start bootTerminal (fun _ => 0) 256).run fastSchedule).ret = some 2 ∧
      ((Reading.start bootTerminal (fun _ => 0) 256).run fastSchedule).buf 0 = 0 ∧
      ¬ ReadsTyped [ascii 'l', ascii 's']
        ((Reading.start bootTerminal (fun _ => 0) 256).run fastSchedule) := by
  have hfirst : ((Reading.start bootTerminal (fun _ => 0) 256).run fastSchedule).buf 0 = 0 := by
    decide
  refine ⟨rfl, by decide, hfirst, fun h => ?_⟩
  have hread := h.buf 0 (by decide)
  exact absurd (hfirst.symm.trans hread) (by decide)

end SnowOs
