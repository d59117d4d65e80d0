import Gyarados.Foundation.IntervalTimer
import Gyarados.Foundation.Run

set_option autoImplicit false

/-! # The timer and the speaker (`drivers/pit.c`, `drivers/speaker.c`)

One chip serves both: its first counter gives the clock interrupts, and its third one the tone of the
speaker, which two bits of another port let through. -/

namespace Gyarados

/-- The timer, and what the port of the speaker's gate holds. -/
structure Board where
  timer : IntervalTimer
  gate : BitVec 8

/-- `PIT_MAX_DIV` and `BASE_FREQUENCY`. -/
abbrev baseFrequency : BitVec 32 := 1193180

namespace Board

/-- `outb` -/
def outb (value : BitVec 8) (port : Nat) (b : Board) : Board :=
  if port = 0x43 then { b with timer := b.timer.control value }
  else if h : 0x40 ≤ port ∧ port < 0x43 then
    { b with timer := b.timer.data ⟨port - 0x40, by omega⟩ value }
  else if port = 0x61 then { b with gate := value }
  else b

/-- `calc_divider` -/
def calcDivider (msec : BitVec 32) : BitVec 32 := baseFrequency / msec

/-- `pit_init` -/
def pitInit (b : Board) : Board :=
  let divider := calcDivider 30
  ((b.outb 0x36 0x43).outb ((divider &&& 0xff).setWidth 8) 0x40).outb ((divider >>> 8).setWidth 8) 0x40

/-- `speaker_play_sound`, which faults at 0. -/
def speakerPlaySound (frequency : BitVec 32) (b : Board) : Option Board :=
  if frequency = 0 then none
  else
    let divider := baseFrequency / frequency
    let b := ((b.outb 0xb6 0x43).outb (divider.setWidth 8) 0x42).outb ((divider >>> 8).setWidth 8) 0x42
    let temp := b.gate
    some (if temp ≠ temp ||| 3 then b.outb (temp ||| 3) 0x61 else b)

/-- `speaker_mute` -/
def speakerMute (b : Board) : Board := b.outb (b.gate &&& 0xfc) 0x61

/-- A loop of `n` turns. -/
def turns (n : Nat) (body : Board → Option Board) (b : Board) : Option Board :=
  match n with
  | 0 => some b
  | n + 1 => (body b).bind (turns n body)

/-- `speaker_single_beep` -/
def speakerSingleBeep (b : Board) : Option Board :=
  (turns 100000 (speakerPlaySound 250) b).map speakerMute

/-- The loops of a note and of the rest behind it. -/
def note (length : Nat) (frequency : BitVec 32) (b : Board) : Option Board :=
  (turns length (speakerPlaySound frequency) b).bind (turns 450000 fun b => some b.speakerMute)

/-- `sound_bootup`, with `E3`, `C3S` and `A3` as they arrive in a `uint32_t`. -/
def soundBootup (b : Board) : Option Board :=
  (note 900000 659 b).bind fun b => (note 900000 659 b).bind fun b => (note 450000 659 b).bind fun b =>
    (note 450000 554 b).bind fun b => (turns 1800000 (speakerPlaySound 880) b).map speakerMute

/-- The speaker is let through: both bits are set. -/
def Sounds (b : Board) : Prop := b.gate &&& 3 = 3

/-- The calls of `speaker.h`. -/
inductive Call
  | playSound (frequency : BitVec 32)
  | mute
  | singleBeep
  | bootup

def call (b : Board) : Call → Option Board
  | .playSound frequency => b.speakerPlaySound frequency
  | .mute => some b.speakerMute
  | .singleBeep => b.speakerSingleBeep
  | .bootup => b.soundBootup

/-! ## One call -/

section

variable {b c : Board} {frequency : BitVec 32}

/-- The two bytes of a divider are its low sixteen bits. -/
theorem append_divider (divider : BitVec 32) :
    (divider >>> 8).setWidth 8 ++ divider.setWidth 8 = BitVec.ofNat 16 divider.toNat := by
  rw [BitVec.ofNat_toNat]
  ext i hi
  rw [BitVec.getElem_append]
  split
  · simp
  · simp [Nat.add_sub_of_le (by omega : 8 ≤ i)]

/-- `pit_init` sets up the first counter. -/
theorem pitInit_eq (b : Board) :
    b.pitInit = { b with timer := b.timer.put 0 (.squareWave (BitVec.ofNat 16 (1193180 / 30))) } :=
  congrArg (fun timer => { b with timer }) (b.timer.data_data_control 0 0x5c 0x9b)

/-- A sound sets up the third counter and opens the gate. -/
theorem speakerPlaySound_eq (hfrequency : frequency ≠ 0) (b : Board) :
    b.speakerPlaySound frequency = some
      { timer := b.timer.put 2 (.squareWave (BitVec.ofNat 16 (1193180 / frequency.toNat)))
        gate := b.gate ||| 3 } := by
  have hdivider : (baseFrequency / frequency).toNat = 1193180 / frequency.toNat := BitVec.toNat_udiv ..
  have htimer := b.timer.data_data_control 2 ((baseFrequency / frequency).setWidth 8)
    (((baseFrequency / frequency) >>> 8).setWidth 8)
  rw [append_divider, hdivider] at htimer
  have hports : ((b.outb 0xb6 0x43).outb ((baseFrequency / frequency).setWidth 8) 0x42).outb
      (((baseFrequency / frequency) >>> 8).setWidth 8) 0x42 =
        { b with timer := b.timer.put 2 (.squareWave (BitVec.ofNat 16 (1193180 / frequency.toNat))) } :=
    congrArg (fun timer => { b with timer }) htimer
  rw [speakerPlaySound, if_neg hfrequency]
  simp only [hports]
  split
  · rfl
  · rename_i hopen
    rw [← not_not.1 hopen]

/-- What a call does not touch: the other counters, and the other bits at the gate. -/
structure Keeps (b c : Board) : Prop where
  counter : ∀ ch, ch ≠ 2 → c.timer.counter ch = b.timer.counter ch
  gate : c.gate &&& 0xfc = b.gate &&& 0xfc

theorem Keeps.refl (b : Board) : Keeps b b := ⟨fun _ _ => rfl, rfl⟩

theorem Keeps.trans {a b c : Board} (h : Keeps a b) (h' : Keeps b c) : Keeps a c :=
  ⟨fun ch hch => (h'.counter ch hch).trans (h.counter ch hch), h'.gate.trans h.gate⟩

theorem keeps_speakerMute (b : Board) : Keeps b b.speakerMute where
  counter _ _ := rfl
  gate := by
    show b.gate &&& 0xfc &&& 0xfc = b.gate &&& 0xfc
    rw [BitVec.and_assoc, BitVec.and_self]

theorem not_sounds_speakerMute (b : Board) : ¬ b.speakerMute.Sounds := by
  have hgate : b.speakerMute.gate &&& 3 = 0 := by
    show b.gate &&& 0xfc &&& 3 = 0
    rw [BitVec.and_assoc]
    exact BitVec.and_zero
  rw [Sounds, hgate]
  decide

/-- A sound that is played leaves the rest of the board alone and is let through. -/
theorem of_speakerPlaySound (h : b.speakerPlaySound frequency = some c) : Keeps b c ∧ c.Sounds := by
  have hfrequency : frequency ≠ 0 := by
    rintro rfl
    exact nomatch h
  obtain rfl := Option.some.inj ((speakerPlaySound_eq hfrequency b).symm.trans h)
  refine ⟨⟨fun ch hch => IntervalTimer.counter_put_of_ne _ hch _, ?_⟩, ?_⟩
  · show (b.gate ||| 3) &&& 0xfc = b.gate &&& 0xfc
    rw [BitVec.and_or_distrib_right]
    exact BitVec.or_zero
  · show (b.gate ||| 3) &&& 3 = 3
    ext i hi
    rw [BitVec.getElem_and, BitVec.getElem_or]
    cases b.gate[i] <;> cases (3 : BitVec 8)[i] <;> rfl

theorem keeps_turns {body : Board → Option Board} (hbody : ∀ b c, body b = some c → Keeps b c) {n : Nat}
    (h : turns n body b = some c) : Keeps b c := by
  induction n generalizing b with
  | zero =>
      obtain rfl := Option.some.inj h
      exact .refl b
  | succ n ih =>
      obtain ⟨b', hb', h⟩ := Option.bind_eq_some_iff.1 h
      exact (hbody b b' hb').trans (ih h)

theorem keeps_note {length : Nat} (h : note length frequency b = some c) : Keeps b c := by
  obtain ⟨b', hb', h⟩ := Option.bind_eq_some_iff.1 h
  refine (keeps_turns (fun _ _ h => (of_speakerPlaySound h).1) hb').trans (keeps_turns ?_ h)
  intro b c h
  obtain rfl := Option.some.inj h
  exact keeps_speakerMute b

/-- The loops of `speaker_single_beep` and of the last note end with the speaker muted. -/
theorem of_turns_mute {n : Nat} (h : (turns n (speakerPlaySound frequency) b).map speakerMute = some c) :
    Keeps b c ∧ ¬ c.Sounds := by
  obtain ⟨b', hb', rfl⟩ := Option.map_eq_some_iff.1 h
  exact ⟨(keeps_turns (fun _ _ h => (of_speakerPlaySound h).1) hb').trans (keeps_speakerMute b'),
    not_sounds_speakerMute b'⟩

theorem of_soundBootup (h : b.soundBootup = some c) : Keeps b c ∧ ¬ c.Sounds := by
  obtain ⟨b₁, h₁, h⟩ := Option.bind_eq_some_iff.1 h
  obtain ⟨b₂, h₂, h⟩ := Option.bind_eq_some_iff.1 h
  obtain ⟨b₃, h₃, h⟩ := Option.bind_eq_some_iff.1 h
  obtain ⟨b₄, h₄, h⟩ := Option.bind_eq_some_iff.1 h
  obtain ⟨hkeeps, hmuted⟩ := of_turns_mute h
  exact ⟨(keeps_note h₁).trans ((keeps_note h₂).trans ((keeps_note h₃).trans
    ((keeps_note h₄).trans hkeeps))), hmuted⟩

/-- What a call does: it keeps the rest of the board, and the speaker sounds after a sound that is played
    and no other call. -/
theorem of_call {x : Call} (h : call b x = some c) :
    Keeps b c ∧ (c.Sounds ↔ ∃ frequency, x = .playSound frequency) := by
  cases x with
  | playSound frequency =>
      obtain ⟨hkeeps, hsounds⟩ := of_speakerPlaySound h
      exact ⟨hkeeps, iff_of_true hsounds ⟨frequency, rfl⟩⟩
  | mute =>
      obtain rfl := Option.some.inj h
      exact ⟨keeps_speakerMute b, iff_of_false (not_sounds_speakerMute b) (by simp)⟩
  | singleBeep =>
      rw [call, speakerSingleBeep] at h
      obtain ⟨hkeeps, hmuted⟩ := of_turns_mute h
      exact ⟨hkeeps, iff_of_false hmuted (by simp)⟩
  | bootup =>
      obtain ⟨hkeeps, hmuted⟩ := of_soundBootup h
      exact ⟨hkeeps, iff_of_false hmuted (by simp)⟩

/-- The quotient fits the counter for frequencies from 19 hertz up to the clock itself. -/
theorem tuned_speakerPlaySound_iff (h : b.speakerPlaySound frequency = some c) :
    (c.timer.counter 2).Tuned 1193180 frequency.toNat ↔
      19 ≤ frequency.toNat ∧ frequency.toNat ≤ 1193180 := by
  have hfrequency : frequency ≠ 0 := by
    rintro rfl
    exact nomatch h
  obtain rfl := Option.some.inj ((speakerPlaySound_eq hfrequency b).symm.trans h)
  have hpos : 0 < frequency.toNat :=
    Nat.pos_of_ne_zero fun hzero => hfrequency (BitVec.eq_of_toNat_eq hzero)
  rw [IntervalTimer.counter_put_self, Counter.tuned_squareWave_iff hpos, Nat.div_pos_iff]
  have hfits : 1193180 / frequency.toNat ≤ 0x10000 ↔ 1193180 < 0x10001 * frequency.toNat := by
    rw [← Nat.div_lt_iff_lt_mul hpos]
    omega
  rw [hfits]
  omega

end

/-! ## Calls after `pit_init` -/

/-- **The speaker and the clock share a chip and leave each other alone.** After `pit_init` and any calls
    of the speaker, with `last` the last one, the clock still ticks thirty times a second, and the
    remaining bits at the gate are what they were. The speaker sounds exactly when the last call plays a
    sound; the tone is right from 19 hertz up to the clock of the timer, and no other is. -/
theorem tone_of_run {b c : Board} {calls : List Call} {last : Call}
    (hrun : run call b.pitInit (calls ++ [last]) = some c) :
    (c.timer.counter 0).Tuned 1193180 30 ∧ c.timer.counter 1 = b.timer.counter 1 ∧
      c.gate &&& 0xfc = b.gate &&& 0xfc ∧
      (c.Sounds ↔ ∃ frequency, last = .playSound frequency) ∧
      ∀ frequency, last = .playSound frequency →
        ((c.timer.counter 2).Tuned 1193180 frequency.toNat ↔
          19 ≤ frequency.toNat ∧ frequency.toNat ≤ 1193180) := by
  have hkeeps : Keeps b.pitInit c :=
    run_preserves (P := Keeps b.pitInit) (fun _ _ _ h hcall => h.trans (of_call hcall).1) (.refl _) hrun
  obtain ⟨b', -, hlast⟩ := run_append_eq_some.1 hrun
  obtain ⟨c', hcall, hc⟩ := run_cons_eq_some.1 hlast
  obtain rfl := Option.some.inj hc
  have hclock : c'.timer.counter 0 = .squareWave (BitVec.ofNat 16 (1193180 / 30)) := by
    rw [hkeeps.counter 0 (by decide), pitInit_eq]
    rfl
  refine ⟨?_, ?_, ?_, (of_call hcall).2, ?_⟩
  · rw [hclock, Counter.tuned_squareWave_iff (by decide)]
    decide
  · rw [hkeeps.counter 1 (by decide), pitInit_eq]
    rfl
  · rw [hkeeps.gate, pitInit_eq]
  · rintro frequency rfl
    exact tuned_speakerPlaySound_iff hcall

/-- A board on which nothing has been set up. -/
def sampleBoard : Board := ⟨⟨fun _ => ⟨.low, 0, false, none, none⟩⟩, 0x30⟩

/-- A tone that is muted, and another one. -/
theorem tone_of_run_twoTones : ∃ c, run call sampleBoard.pitInit
    ([.playSound 440, .mute] ++ [.playSound 880]) = some c ∧
      (c.timer.counter 0).Tuned 1193180 30 ∧ (c.timer.counter 2).Tuned 1193180 880 := by
  obtain ⟨c, hc⟩ := Option.isSome_iff_exists.1 (show (run call sampleBoard.pitInit
    ([.playSound 440, .mute] ++ [.playSound 880])).isSome = true by decide)
  have htone := tone_of_run hc
  exact ⟨c, hc, htone.1, (htone.2.2.2.2 880 rfl).2 (by decide)⟩

end Board

end Gyarados
