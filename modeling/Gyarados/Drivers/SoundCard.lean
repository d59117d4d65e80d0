import Gyarados.Drivers.Dma
import Gyarados.Drivers.SoundBlaster
import Gyarados.Foundation.CommandStream
import Gyarados.Lib.Rand

set_option autoImplicit false

/-! # What the card is told (`drivers/sound_blaster_16.c`)

The card takes commands and their parameters at one port. Whatever calls of the driver are made, it reads
back the orders that the calls stand for, and nothing else; and none of these is to go on or to stop. -/

namespace Gyarados

namespace SoundBlaster

/-! ## The other calls of the driver -/

/-- `init_sound_blaster`, once the card has answered the reset. -/
def init (s : SoundBlaster) : SoundBlaster := { s with mode := 0, status := .stopped }

/-- `sound_blaster_pause`, with the value it returns. -/
def pause (s : SoundBlaster) : Int × List SbEvent :=
  if s.status ≠ .playing then (-1, [])
  else (0, [.dspWrite (if sbStatus8Bit s.mode then 0xd0 else 0xd5)])

/-- `sound_blaster_resume`, with the value it returns. -/
def resume (s : SoundBlaster) : Int × List SbEvent :=
  if s.status ≠ .paused then (-1, [])
  else (0, [.dspWrite (if sbStatus8Bit s.mode then 0xd4 else 0xd6)])

/-- `sound_blaster_set_sample_rate` -/
def setSampleRate (rate : Nat) : List SbEvent :=
  [.dspWrite 0x41, .dspWrite (rate / 0x100 % 0x100), .dspWrite (rate % 0x100)]

/-- What `sound_blaster_play_test` puts into the driver before it plays: noise, of which a byte is kept. -/
def noise (r : Rand) (s : SoundBlaster) : SoundBlaster :=
  { s with
    status := .playing
    mode := s.mode ||| 2
    dBuf := fun i =>
      if i < dmaChunk * 2 then UInt8.ofNat ((r.drawn i).toNat % 10824 + 1) else s.dBuf i }

/-- `sound_blaster_play_test`: the driver, the random numbers, the writes of `init_dma` and what the card
    is told. -/
def playTest (cmd dBufAddr : Nat) (r : Rand) (s : SoundBlaster) :
    SoundBlaster × Rand × List Outb × List SbEvent :=
  let t := s.noise r
  (t, (fun r => (Rand.rand r).2)^[dmaChunk * 2] r, (initDma 1 dBufAddr (dmaChunk * 2) 0x06).2,
    setSampleRate 22050 ++ t.play cmd dmaChunk)

end SoundBlaster

/-- The calls of `sound_blaster_16.h` that tell the card something, and its interrupt. A call that plays
    comes with what is in `cmd`, which nothing initialises. -/
inductive SbCall
  | playTest (cmd dBufAddr : Nat) (r : Rand)
  | play (cmd size : Nat)
  | pause
  | resume
  | stop
  | stopOp
  | clearMem
  | setSampleRate (rate : Nat)
  | interrupt (i : SbInterrupt)

def SbCall.exec (s : SoundBlaster) : SbCall → SoundBlaster × List SbEvent
  | .playTest cmd dBufAddr r =>
      let (t, _, _, events) := s.playTest cmd dBufAddr r
      (t, events)
  | .play cmd size => (s, s.play cmd size)
  | .pause => (s, s.pause.2)
  | .resume => (s, s.resume.2)
  | .stop => (s, s.stop.2)
  | .stopOp => (s, s.stopOp)
  | .clearMem => s.clearMem
  | .setSampleRate rate => (s, SoundBlaster.setSampleRate rate)
  | .interrupt i => s.irqHandler i

/-! ## The card -/

/-- How many parameters a command of the card has: a rate has two bytes, a transfer a mode and a length. -/
def dspArity (c : Nat) : Nat := if c = 0x41 ∨ c = 0x42 then 2 else if 0xb0 ≤ c ∧ c < 0xd0 then 3 else 0

/-- What the card is told. -/
inductive DspOrder
  | sampleRate (rate : Nat)
  /-- Transfer blocks of this length, one after the other. -/
  | transfer (command : Nat) (mono : Bool) (length : Nat)
  | pause (eight : Bool)
  /-- No more blocks after this one. -/
  | exitAuto (eight : Bool)
  deriving DecidableEq, Repr

/-- How an order is put to the card. -/
def DspOrder.command : DspOrder → Command Nat
  | .sampleRate rate => (0x41, [rate / 0x100 % 0x100, rate % 0x100])
  | .transfer command mono length =>
      (command, [if mono then 0x00 else 0x10, (length - 1) % 0x100, (length - 1) / 0x100 % 0x100])
  | .pause eight => (if eight then 0xd0 else 0xd5, [])
  | .exitAuto eight => (if eight then 0xda else 0xd9, [])

/-- The bytes that go to the card. -/
def dspBytes (events : List SbEvent) : List Nat :=
  events.filterMap fun
    | .dspWrite data => some data
    | _ => none

/-- The first byte of a transfer: what `cmd` holds goes into it. -/
def transferCommand (mode cmd : Nat) : Nat :=
  cmd ||| (if sbStatus8Bit mode then 0xc0 else 0xb0) ||| 0x06

/-- A block of no bytes is one of 65536. -/
def blockLength (size : Nat) : Nat := (size + 0xffff) % 0x10000 + 1

/-- The order that `sound_blaster_play` stands for. -/
def playOrder (mode cmd size : Nat) : DspOrder :=
  .transfer (transferCommand mode cmd) (sbStatusMono mode) (blockLength size)

/-- The orders that a call stands for: there is none to go on after a pause, nor to stop. -/
def SbCall.orders (s : SoundBlaster) : SbCall → List DspOrder
  | .playTest cmd _ _ => [.sampleRate 22050, playOrder (s.mode ||| 2) cmd dmaChunk]
  | .play cmd size => [playOrder s.mode cmd size]
  | .pause => if s.status = .playing then [.pause (sbStatus8Bit s.mode)] else []
  | .resume => []
  | .stop => []
  | .stopOp => [.exitAuto (sbStatus8Bit s.mode)]
  | .clearMem => []
  | .setSampleRate rate => [.sampleRate rate]
  | .interrupt i =>
      if s.status = .stopped then []
      else if i.failed then [playOrder s.mode i.cmd 0xffff]
      else if i.bytes = [] then []
      else if i.bytes.length < dmaChunk then
        [.exitAuto (sbStatus8Bit s.mode), playOrder s.mode i.cmd i.bytes.length]
      else [playOrder s.mode i.cmd i.bytes.length]

/-- What is in `cmd` leaves a transfer a transfer. -/
def SbCall.InStep (s : SoundBlaster) : SbCall → Prop
  | .playTest cmd _ _ => dspArity (transferCommand (s.mode ||| 2) cmd) = 3
  | .play cmd _ => dspArity (transferCommand s.mode cmd) = 3
  | .interrupt i => dspArity (transferCommand s.mode i.cmd) = 3
  | _ => True

/-- The calls, beside what the card has read so far and the orders that the calls stand for. -/
def cardStep : SoundBlaster × Decoder Nat × List DspOrder → SbCall →
    Option (SoundBlaster × Decoder Nat × List DspOrder) :=
  withGhost (fun s c => some (c.exec s).1) fun s c _ g =>
    some ((dspBytes (c.exec s).2).foldl (Decoder.feed dspArity) g.1, g.2 ++ c.orders s)

/-! ## One call -/

section

variable {s : SoundBlaster}

theorem dspBytes_append (events events' : List SbEvent) :
    dspBytes (events ++ events') = dspBytes events ++ dspBytes events' := List.filterMap_append

theorem dspBytes_play (s : SoundBlaster) (cmd size : Nat) :
    dspBytes (s.play cmd size) = encode [(playOrder s.mode cmd size).command] := by
  have hlength : blockLength size - 1 = (size % 0x10000 + 0xffff) % 0x10000 := by
    rw [blockLength]
    omega
  simp [SoundBlaster.play, dspBytes, encode, playOrder, DspOrder.command, transferCommand, hlength]

theorem whole_playOrder {mode cmd : Nat} (h : dspArity (transferCommand mode cmd) = 3) (size : Nat) :
    Whole dspArity (playOrder mode cmd size).command := h.symm

theorem dspBytes_setSampleRate (rate : Nat) :
    dspBytes (SoundBlaster.setSampleRate rate) = encode [(DspOrder.sampleRate rate).command] := rfl

theorem dspBytes_stopOp (s : SoundBlaster) :
    dspBytes s.stopOp = encode [(DspOrder.exitAuto (sbStatus8Bit s.mode)).command] := rfl

/-- `||` takes one of its sides wherever the status stands: this call is always refused. -/
theorem stop_eq (s : SoundBlaster) : s.stop = (-1, []) := by
  refine if_pos ?_
  cases s.status
  · exact .inl (by decide)
  · exact .inr (by decide)
  · exact .inl (by decide)

theorem resume_eq (h : s.status ≠ .paused) : s.resume = (-1, []) := if_pos h

/-- An interrupt puts its orders to the card. -/
theorem dspBytes_irqHandler (s : SoundBlaster) (i : SbInterrupt) :
    dspBytes (s.irqHandler i).2 =
      encode (((SbCall.interrupt i).orders s).map DspOrder.command) := by
  by_cases hstopped : s.status = .stopped
  · rw [SoundBlaster.irqHandler_stopped hstopped, SbCall.orders, if_pos hstopped]
    rfl
  rw [SbCall.orders, if_neg hstopped]
  rcases s.irqHandler_cases i hstopped with ⟨hfailed, -, heq⟩ | ⟨hfailed, -, hempty, heq⟩ |
    ⟨hfailed, hlast, hpos, heq⟩ | ⟨hfailed, hlast, hpos, heq⟩
  · rw [heq, if_pos hfailed]
    exact dspBytes_play _ _ _
  · rw [heq, if_neg (by rw [hfailed]; decide), if_pos hempty]
    rfl
  · have hshort : i.bytes.length < dmaChunk := by simpa [SbInterrupt.last, hfailed] using hlast
    rw [heq, if_neg (by rw [hfailed]; decide), if_neg (List.ne_nil_of_length_pos hpos), if_pos hshort,
      dspBytes_append, dspBytes_append, dspBytes_play, dspBytes_stopOp]
    rfl
  · have hfull : ¬ i.bytes.length < dmaChunk := by simpa [SbInterrupt.last, hfailed] using hlast
    rw [heq, if_neg (by rw [hfailed]; decide), if_neg (List.ne_nil_of_length_pos hpos), if_neg hfull]
    exact dspBytes_play _ _ _

/-- What a call sends to the card are its orders. -/
theorem dspBytes_exec (c : SbCall) (h : s.status ≠ .paused) :
    dspBytes (c.exec s).2 = encode ((c.orders s).map DspOrder.command) := by
  cases c with
  | playTest cmd dBufAddr r =>
      show dspBytes (_ ++ _) = _
      rw [dspBytes_append, dspBytes_setSampleRate, dspBytes_play]
      rfl
  | play cmd size => exact dspBytes_play _ _ _
  | pause =>
      rw [SbCall.exec, SbCall.orders, SoundBlaster.pause]
      by_cases hstatus : s.status = .playing
      · rw [if_neg (not_not.2 hstatus), if_pos hstatus]
        rfl
      · rw [if_pos hstatus, if_neg hstatus]
        rfl
  | resume =>
      rw [SbCall.exec, resume_eq h]
      rfl
  | stop =>
      rw [SbCall.exec, stop_eq]
      rfl
  | stopOp => exact dspBytes_stopOp s
  | clearMem => rfl
  | setSampleRate rate => exact dspBytes_setSampleRate rate
  | interrupt i => exact dspBytes_irqHandler s i

theorem whole_orders {c : SbCall} (h : c.InStep s) :
    ∀ x ∈ (c.orders s).map DspOrder.command, Whole dspArity x := by
  have hrate : ∀ rate, Whole dspArity (DspOrder.sampleRate rate).command := fun _ => rfl
  have hpause : ∀ eight, Whole dspArity (DspOrder.pause eight).command := by
    intro eight
    cases eight <;> rfl
  have hexit : ∀ eight, Whole dspArity (DspOrder.exitAuto eight).command := by
    intro eight
    cases eight <;> rfl
  cases c with
  | playTest cmd dBufAddr r =>
      exact List.forall_mem_cons.2 ⟨hrate _, List.forall_mem_singleton.2 (whole_playOrder h _)⟩
  | play cmd size => exact List.forall_mem_singleton.2 (whole_playOrder h _)
  | pause =>
      rw [SbCall.orders]
      split
      · exact List.forall_mem_singleton.2 (hpause _)
      · exact List.forall_mem_nil _
  | resume => exact List.forall_mem_nil _
  | stop => exact List.forall_mem_nil _
  | stopOp => exact List.forall_mem_singleton.2 (hexit _)
  | clearMem => exact List.forall_mem_nil _
  | setSampleRate rate => exact List.forall_mem_singleton.2 (hrate _)
  | interrupt i =>
      rw [SbCall.orders]
      split
      · exact List.forall_mem_nil _
      split
      · exact List.forall_mem_singleton.2 (whole_playOrder h _)
      split
      · exact List.forall_mem_nil _
      split
      · exact List.forall_mem_cons.2 ⟨hexit _, List.forall_mem_singleton.2 (whole_playOrder h _)⟩
      · exact List.forall_mem_singleton.2 (whole_playOrder h _)

/-- No call makes the driver's status that of a pause. -/
theorem status_exec (c : SbCall) (h : s.status ≠ .paused) : (c.exec s).1.status ≠ .paused := by
  cases c with
  | playTest cmd dBufAddr r =>
      show SbStatus.playing ≠ .paused
      decide
  | clearMem =>
      show SbStatus.stopped ≠ .paused
      decide
  | interrupt i =>
      show (s.irqHandler i).1.status ≠ .paused
      by_cases hstopped : s.status = .stopped
      · rwa [SoundBlaster.irqHandler_stopped hstopped]
      rcases s.irqHandler_cases i hstopped with ⟨-, -, heq⟩ | ⟨-, -, -, heq⟩ | ⟨-, -, -, heq⟩ |
        ⟨-, -, -, heq⟩ <;> rw [heq]
      · exact h
      · exact SbStatus.noConfusion
      · exact SbStatus.noConfusion
      · exact h
  | _ => exact h

end

/-! ## Runs -/

/-- The card has read what the calls stand for, and waits for a command. -/
structure InOrder (g : SoundBlaster × Decoder Nat × List DspOrder) : Prop where
  status : g.1.status ≠ .paused
  read : g.2.1 = .ready (g.2.2.map DspOrder.command)

theorem InOrder.of_step {g g' : SoundBlaster × Decoder Nat × List DspOrder} {c : SbCall} (h : InOrder g)
    (hstep : c.InStep g.1) (hcard : cardStep g c = some g') : InOrder g' := by
  obtain ⟨s, d, orders⟩ := g
  obtain ⟨s', d', orders'⟩ := g'
  obtain ⟨hs, hg⟩ := withGhost_eq_some.1 hcard
  obtain rfl := Option.some.inj hs
  obtain ⟨rfl, rfl⟩ := Prod.mk.inj (Option.some.inj hg)
  obtain rfl : d = .ready (orders.map DspOrder.command) := h.read
  refine ⟨status_exec c h.status, ?_⟩
  rw [dspBytes_exec c h.status, foldl_feed_encode _ (whole_orders hstep), List.map_append]

/-- **The card reads back what the driver means.** After any calls from `init_sound_blaster` on, if what
    happens to be in `cmd` leaves each transfer a transfer, the card has read the orders that the calls
    stand for, one for one, and waits for a command: no parameter has been taken for a command. To go on
    and to stop are no orders: both calls are refused wherever the driver has come. -/
theorem orders_of_run {s u : SoundBlaster} {d : Decoder Nat} {orders : List DspOrder}
    {calls : List SbCall}
    (hstep : AllSteps cardStep (fun g c => c.InStep g.1) (s.init, .ready [], []) calls)
    (hrun : run cardStep (s.init, .ready [], []) calls = some (u, d, orders)) :
    d = .ready (orders.map DspOrder.command) ∧ u.resume = (-1, []) ∧ u.stop = (-1, []) := by
  have h := run_invariant (P := InOrder) (fun _ _ _ h hok hcard => h.of_step hok hcard)
    ⟨by show SbStatus.stopped ≠ .paused; decide, rfl⟩ hstep hrun
  exact ⟨h.read, resume_eq h.status, stop_eq u⟩

/-- A block is played and paused, and the driver cannot go on. -/
theorem orders_of_run_paused : ∃ u d orders, run cardStep (samplePlaying.init, .ready [], [])
    [.setSampleRate 8000, .play 0 0x100, .pause, .resume] = some (u, d, orders) ∧
      d = .ready (orders.map DspOrder.command) ∧ u.resume = (-1, []) ∧ u.stop = (-1, []) := by
  obtain ⟨⟨u, d, orders⟩, hrun⟩ := Option.isSome_iff_exists.1 (show (run cardStep
    (samplePlaying.init, .ready [], []) [.setSampleRate 8000, .play 0 0x100, .pause, .resume]).isSome =
      true from rfl)
  have hstep : AllSteps cardStep (fun g c => c.InStep g.1) (samplePlaying.init, .ready [], [])
      [.setSampleRate 8000, .play 0 0x100, .pause, .resume] := by
    refine ⟨trivial, fun g hg => ⟨?_, fun _ _ => ⟨trivial, fun _ _ => ⟨trivial, fun _ _ => trivial⟩⟩⟩⟩
    rw [← Option.some.inj hg]
    rfl
  exact ⟨u, d, orders, hrun, orders_of_run hstep hrun⟩

/-- A transfer of block after block: bit 2 of the command is its auto-init bit. -/
def AutoTransfer (c : Nat) : Prop := 0xb0 ≤ c ∧ c < 0xd0 ∧ c.testBit 2 = true

/-- The card goes on from block to block: the last command it has read is such a transfer, with all its
    parameters. -/
def PlaysOn (d : Decoder Nat) : Prop :=
  d.pending = none ∧ ∃ before c, d.commands = before ++ [c] ∧ AutoTransfer c.1

/-- The last order is a transfer. -/
def EndsPlaying (orders : List DspOrder) : Prop :=
  ∃ before mode cmd size, orders = before ++ [playOrder mode cmd size] ∧
    AutoTransfer (transferCommand mode cmd)

theorem autoTransfer_of_inStep {mode cmd : Nat} (h : dspArity (transferCommand mode cmd) = 3) :
    AutoTransfer (transferCommand mode cmd) := by
  have hrange : 0xb0 ≤ transferCommand mode cmd ∧ transferCommand mode cmd < 0xd0 := by
    rw [dspArity] at h
    split at h
    · cases h
    split at h
    · assumption
    · cases h
  refine ⟨hrange.1, hrange.2, ?_⟩
  rw [transferCommand, Nat.testBit_or, show Nat.testBit 0x06 2 = true from rfl, Bool.or_true]

/-- An order to play, whatever orders came before. -/
theorem endsPlaying_playOrder (orders : List DspOrder) {mode cmd : Nat}
    (h : dspArity (transferCommand mode cmd) = 3) (size : Nat) :
    EndsPlaying (orders ++ [playOrder mode cmd size]) :=
  ⟨orders, mode, cmd, size, rfl, autoTransfer_of_inStep h⟩

theorem EndsPlaying.interrupt {orders : List DspOrder} (h : EndsPlaying orders) {s : SoundBlaster}
    {i : SbInterrupt} (hstep : (SbCall.interrupt i).InStep s) :
    EndsPlaying (orders ++ (SbCall.interrupt i).orders s) := by
  rw [SbCall.orders]
  split
  · rwa [List.append_nil]
  split
  · exact endsPlaying_playOrder _ hstep _
  split
  · rwa [List.append_nil]
  split
  · -- the order to stop has one to play behind it
    exact List.append_cons orders _ _ ▸ endsPlaying_playOrder _ hstep _
  · exact endsPlaying_playOrder _ hstep _

/-- What the card has read are the orders. -/
theorem InOrder.playsOn {g : SoundBlaster × Decoder Nat × List DspOrder} (h : InOrder g)
    (hplaying : EndsPlaying g.2.2) : PlaysOn g.2.1 := by
  obtain ⟨before, mode, cmd, size, horders, hauto⟩ := hplaying
  rw [h.read, horders, List.map_append]
  exact ⟨rfl, _, _, rfl, hauto⟩

/-- **Nothing stops the card.** When `sound_blaster_play_test` has been called, whatever calls came before
    it, the card has read an auto-init transfer last after each sound interrupt, however the reads of the
    file end and whether or not the driver still plays. As for the orders, what happens to be in `cmd`
    must leave each transfer a transfer. -/
theorem playsOn_of_run {s u : SoundBlaster} {d : Decoder Nat} {orders : List DspOrder}
    {before : List SbCall} {cmd dBufAddr : Nat} {r : Rand} {is : List SbInterrupt}
    (hstep : AllSteps cardStep (fun g c => c.InStep g.1) (s.init, .ready [], [])
      (before ++ .playTest cmd dBufAddr r :: is.map .interrupt))
    (hrun : run cardStep (s.init, .ready [], [])
      (before ++ .playTest cmd dBufAddr r :: is.map .interrupt) = some (u, d, orders)) :
    PlaysOn d := by
  have horder : InOrder (s.init, .ready [], []) := ⟨by show SbStatus.stopped ≠ .paused; decide, rfl⟩
  obtain ⟨g, hbefore, hrun⟩ := run_append_eq_some.1 hrun
  obtain ⟨hstep, hplayStep, hstep'⟩ := (AllSteps.append_iff hbefore).1 hstep
  have hg := run_invariant (P := InOrder) (fun _ _ _ h hok hcard => h.of_step hok hcard) horder hstep
    hbefore
  obtain ⟨g₁, hplay, hrun⟩ := run_cons_eq_some.1 hrun
  have hplaying : EndsPlaying g₁.2.2 := by
    obtain ⟨-, horders⟩ := withGhost_eq_some.1 hplay
    rw [← Option.some.inj horders]
    exact List.append_cons g.2.2 _ _ ▸ endsPlaying_playOrder _ hplayStep _
  have hsteps : AllSteps cardStep (fun g c => c.InStep g.1 ∧ ∃ i, c = .interrupt i) g₁
      (is.map .interrupt) := by
    refine (AllSteps.and (hstep' g₁ hplay) (.of_forall_mem fun c hc => ?_))
    obtain ⟨i, -, rfl⟩ := List.mem_map.1 hc
    exact ⟨i, rfl⟩
  have hu := run_invariant (P := fun g => InOrder g ∧ EndsPlaying g.2.2) ?_
    ⟨hg.of_step hplayStep hplay, hplaying⟩ hsteps hrun
  · exact hu.1.playsOn hu.2
  · rintro g c g₂ ⟨horder, hplaying⟩ ⟨hok, i, rfl⟩ hcard
    refine ⟨horder.of_step hok hcard, ?_⟩
    obtain ⟨-, horders⟩ := withGhost_eq_some.1 hcard
    rw [← Option.some.inj horders]
    exact hplaying.interrupt hok

/-- At the end of the file the driver stops, and the card does not. -/
theorem playsOn_of_run_endOfFile : ∃ u d orders, run cardStep (samplePlaying.init, .ready [], [])
    ([.setSampleRate 8000] ++
      .playTest 0 0x8000 Rand.boot :: [sampleInterrupt 0 0 false (by decide)].map .interrupt) =
        some (u, d, orders) ∧ u.status = .stopped ∧ PlaysOn d := by
  have hrun : (run cardStep (samplePlaying.init, .ready [], []) ([.setSampleRate 8000] ++
      .playTest 0 0x8000 Rand.boot :: [sampleInterrupt 0 0 false (by decide)].map .interrupt)).any
        (fun g => decide (g.1.status = .stopped)) = true := rfl
  have hstep : AllSteps cardStep (fun g c => c.InStep g.1) (samplePlaying.init, .ready [], [])
      ([.setSampleRate 8000] ++
        .playTest 0 0x8000 Rand.boot :: [sampleInterrupt 0 0 false (by decide)].map .interrupt) := by
    refine ⟨trivial, fun g hg => ⟨?_, fun g' hg' => ⟨?_, fun _ _ => trivial⟩⟩⟩
    · rw [← Option.some.inj hg]
      rfl
    · rw [← Option.some.inj hg] at hg'
      rw [← Option.some.inj hg']
      rfl
  obtain ⟨⟨u, d, orders⟩, hu, hstatus⟩ := (Option.any_eq_true _ _).1 hrun
  exact ⟨u, d, orders, hu, of_decide_eq_true hstatus, playsOn_of_run hstep hu⟩

end Gyarados
