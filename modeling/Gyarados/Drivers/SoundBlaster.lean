import Gyarados.Foundation.Bytes
import Gyarados.Foundation.Run

set_option autoImplicit false

/-! # Playback (`drivers/sound_blaster_16.c`)

At each interrupt the next chunk of the file is read into one half of `d_buf` and handed over to the
card, until a chunk comes out short. What is handed over is not always what was read. -/

namespace Gyarados

/-- `DMA_CHUNK` -/
abbrev dmaChunk : Nat := 32 * 1024

/-! ## The driver -/

/-- `STOPPED`, `PLAYING` and `PAUSED`. -/
inductive SbStatus
  | stopped
  | playing
  | paused
  deriving DecidableEq, Repr

/-- `fd_b_one` and `fd_b_two`, the halves of `d_buf`. -/
inductive FdB
  | one
  | two
  deriving DecidableEq, Repr

/-- Where in `d_buf` a half starts. -/
def FdB.offset : FdB → Nat
  | .one => 0
  | .two => dmaChunk

theorem FdB.offset_add_lt (half : FdB) {k : Nat} (hk : k < dmaChunk) :
    half.offset + k < dmaChunk * 2 := by
  cases half <;> simp only [offset, dmaChunk] at * <;> omega

structure SoundBlaster where
  mode : Nat
  status : SbStatus
  file : Int
  dBuf : Memory
  fdBCurrent : FdB

/-- `SB_STATUS_8BIT` and `SB_STATUS_MONO` in a mode. -/
def sbStatus8Bit (mode : Nat) : Bool := mode.testBit 1
def sbStatusMono (mode : Nat) : Bool := mode.testBit 3

/-- What the driver does outside its own memory. A call of `sound_blaster_play` is kept with what `d_buf`
    holds at that moment. -/
inductive SbEvent
  | dspWrite (data : Nat)
  | close (file : Int)
  | play (size : Nat) (dBuf : Memory)

/-- What the handler meets: the bytes that `read` stores, whether it returns -1, and what is in the `cmd`
    of `sound_blaster_play`, which nothing initialises. -/
structure SbInterrupt where
  bytes : List UInt8
  failed : Bool
  cmd : Nat
  length_le : bytes.length ≤ dmaChunk

/-- `b_read`, unsigned. -/
def SbInterrupt.bRead (i : SbInterrupt) : Nat := if i.failed then 0xffffffff else i.bytes.length

namespace SoundBlaster

/-- `sound_blaster_play`; the size goes out less 1, in 16 bits. -/
def play (cmd size : Nat) (s : SoundBlaster) : List SbEvent :=
  let sBlock := (size % 0x10000 + 0xffff) % 0x10000
  [.play size s.dBuf,
    .dspWrite (cmd ||| (if sbStatus8Bit s.mode then 0xc0 else 0xb0) ||| 0x06),
    .dspWrite (if sbStatusMono s.mode then 0x00 else 0x10),
    .dspWrite (sBlock % 0x100),
    .dspWrite (sBlock / 0x100 % 0x100)]

/-- `sound_blaster_stop_op` -/
def stopOp (s : SoundBlaster) : List SbEvent := [.dspWrite (if sbStatus8Bit s.mode then 0xda else 0xd9)]

/-- `sound_blaster_stop`, with the value it returns. -/
def stop (s : SoundBlaster) : Int × List SbEvent :=
  if s.status ≠ .playing ∨ s.status ≠ .paused then (-1, [])
  else (0, [.dspWrite (if sbStatus8Bit s.mode then 0xd0 else 0xd5)])

/-- `sound_blaster_clear_mem` -/
def clearMem (s : SoundBlaster) : SoundBlaster × List SbEvent :=
  ({ s with
      status := .stopped
      fdBCurrent := .one
      dBuf := fun i => if i < dmaChunk * 2 then 0 else s.dBuf i },
    [.close s.file])

/-- The read into the current half. -/
def read (i : SbInterrupt) (s : SoundBlaster) : SoundBlaster :=
  { s with dBuf := s.dBuf.writeBytes s.fdBCurrent.offset i.bytes }

/-- Go on to the other half. -/
def swap (s : SoundBlaster) : SoundBlaster :=
  { s with fdBCurrent := if s.fdBCurrent = .one then .two else .one }

/-- `sound_balster_irq_handler` -/
def irqHandler (i : SbInterrupt) (s : SoundBlaster) : SoundBlaster × List SbEvent :=
  if s.status = .stopped then (s, [])
  else
    let s := s.read i
    if i.bRead ≠ 0 then
      let fdBSize := i.bRead % 0x10000
      if i.bRead < dmaChunk then
        let c := s.clearMem
        (c.1.swap, s.stopOp ++ c.2 ++ c.1.swap.play i.cmd fdBSize)
      else (s.swap, s.swap.play i.cmd fdBSize)
    else
      let c := s.clearMem
      (c.1, c.2 ++ c.1.stop.2)

end SoundBlaster

/-! ## Playing what was read -/

/-- A result after which nothing more is to be played: a failure, the end of the file or a short
    chunk. -/
def SbInterrupt.last (i : SbInterrupt) : Bool := i.failed || decide (i.bytes.length < dmaChunk)

/-- A call of `sound_blaster_play` hands over the chunk just read, which is still in its half. -/
def PlaysChunk (half : FdB) (i : SbInterrupt) : SbEvent → Prop
  | .play size dBuf =>
      i.failed = false ∧ size = i.bytes.length ∧ 1 ≤ size ∧ size ≤ dmaChunk ∧
        ∀ (k : Nat) (hk : k < i.bytes.length), dBuf (half.offset + k) = i.bytes[k]
  | _ => True

/-- An interrupt, beside a note of whether the last result has been read. -/
def playbackStep : SoundBlaster × Bool → SbInterrupt → Option (SoundBlaster × Bool) :=
  withGhost (fun s i => some (s.irqHandler i).1) fun s i _ ended =>
    some (ended || (decide (s.status ≠ .stopped) && i.last))

/-- What the card is told at an interrupt is right: no more calls after the last result, and before it
    the chunk just read. -/
def PlaysRead (s : SoundBlaster × Bool) (i : SbInterrupt) : Prop :=
  ∀ e ∈ (s.1.irqHandler i).2, PlaysChunk s.1.fdBCurrent i e ∧
    (s.2 = true → ∀ size dBuf, e ≠ .play size dBuf)

/-! ## One interrupt -/

namespace SoundBlaster

variable {s : SoundBlaster} {i : SbInterrupt}

theorem dBuf_clearMem {a : Nat} (h : a < dmaChunk * 2) : s.clearMem.1.dBuf a = 0 := if_pos h

/-- What counts of a call of `sound_blaster_play` is its size and the buffer. -/
theorem forall_mem_play {P : SbEvent → Prop} (hdsp : ∀ data, P (.dspWrite data)) {cmd size : Nat} :
    (∀ e ∈ s.play cmd size, P e) ↔ P (.play size s.dBuf) := by
  simp only [play, List.forall_mem_cons, hdsp, true_and]
  exact ⟨And.left, fun h => ⟨h, by simp⟩⟩

theorem irqHandler_stopped (h : s.status = .stopped) : s.irqHandler i = (s, []) := if_pos h

theorem bRead_failed (h : i.failed = true) : i.bRead = 0xffffffff := if_pos h

theorem bRead_bytes (h : i.failed = false) : i.bRead = i.bytes.length := by
  rw [SbInterrupt.bRead, h]
  exact if_neg Bool.false_ne_true

/-- A failed read is taken for a full chunk. -/
theorem irqHandler_failed (h : s.status ≠ .stopped) (hfailed : i.failed = true) :
    s.irqHandler i = ((s.read i).swap, (s.read i).swap.play i.cmd 0xffff) := by
  have hbRead := bRead_failed hfailed
  rw [irqHandler, if_neg h]
  simp only [hbRead]
  rfl

/-- Nothing is left: the buffer is cleared. -/
theorem irqHandler_empty (h : s.status ≠ .stopped) (hfailed : i.failed = false) (hempty : i.bytes = []) :
    s.irqHandler i = ((s.read i).clearMem.1, [.close s.file]) := by
  have hbRead : i.bRead = 0 := by rw [bRead_bytes hfailed, hempty, List.length_nil]
  rw [irqHandler, if_neg h]
  simp only [hbRead]
  rfl

/-- A short chunk: it is handed over after the buffer is cleared. -/
theorem irqHandler_short (h : s.status ≠ .stopped) (hfailed : i.failed = false)
    (hpos : 0 < i.bytes.length) (hshort : i.bytes.length < dmaChunk) :
    s.irqHandler i = ((s.read i).clearMem.1.swap, (s.read i).stopOp ++ [.close s.file] ++
      (s.read i).clearMem.1.swap.play i.cmd i.bytes.length) := by
  have hbRead := bRead_bytes hfailed
  have hsize : i.bRead % 0x10000 = i.bytes.length := by
    rw [hbRead]
    exact Nat.mod_eq_of_lt (hshort.trans (by decide))
  rw [irqHandler, if_neg h]
  simp only [hsize]
  rw [if_pos (by omega), if_pos (by omega)]
  rfl

/-- A full chunk. -/
theorem irqHandler_full (h : s.status ≠ .stopped) (hfailed : i.failed = false)
    (hfull : ¬ i.bytes.length < dmaChunk) :
    s.irqHandler i = ((s.read i).swap, (s.read i).swap.play i.cmd i.bytes.length) := by
  have hbRead := bRead_bytes hfailed
  have hlength := i.length_le
  have hsize : i.bRead % 0x10000 = i.bytes.length := by
    rw [hbRead]
    exact Nat.mod_eq_of_lt (hlength.trans_lt (by decide))
  have hpos : i.bRead ≠ 0 := by
    rw [hbRead]
    exact fun hzero => hfull (hzero ▸ by decide)
  rw [irqHandler, if_neg h]
  simp only [hsize]
  rw [if_pos hpos, if_neg (by rwa [hbRead])]

/-- Everything that an interrupt can do while a file is played. -/
theorem irqHandler_cases (i : SbInterrupt) (h : s.status ≠ .stopped) :
    (i.failed = true ∧ i.last = true ∧
      s.irqHandler i = ((s.read i).swap, (s.read i).swap.play i.cmd 0xffff)) ∨
    (i.failed = false ∧ i.last = true ∧ i.bytes = [] ∧
      s.irqHandler i = ((s.read i).clearMem.1, [.close s.file])) ∨
    (i.failed = false ∧ i.last = true ∧ 0 < i.bytes.length ∧
      s.irqHandler i = ((s.read i).clearMem.1.swap, (s.read i).stopOp ++ [.close s.file] ++
        (s.read i).clearMem.1.swap.play i.cmd i.bytes.length)) ∨
    (i.failed = false ∧ i.last = false ∧ 0 < i.bytes.length ∧
      s.irqHandler i = ((s.read i).swap, (s.read i).swap.play i.cmd i.bytes.length)) := by
  cases hfailed : i.failed with
  | true =>
      have hlast : i.last = true := by rw [SbInterrupt.last, hfailed, Bool.true_or]
      exact .inl ⟨rfl, hlast, irqHandler_failed h hfailed⟩
  | false =>
      refine .inr ?_
      rcases Nat.lt_or_ge i.bytes.length dmaChunk with hshort | hfull
      · have hlast : i.last = true := by rw [SbInterrupt.last, decide_eq_true hshort, Bool.or_true]
        rcases Nat.eq_zero_or_pos i.bytes.length with hzero | hpos
        · have hempty := List.length_eq_zero_iff.1 hzero
          exact .inl ⟨rfl, hlast, hempty, irqHandler_empty h hfailed hempty⟩
        · exact .inr (.inl ⟨rfl, hlast, hpos, irqHandler_short h hfailed hpos hshort⟩)
      · have hfull := Nat.not_lt.2 hfull
        have hlast : i.last = false := by
          rw [SbInterrupt.last, hfailed, decide_eq_false hfull, Bool.or_false]
        have hpos : 0 < i.bytes.length := Nat.pos_of_ne_zero fun hzero => hfull (hzero ▸ by decide)
        exact .inr (.inr ⟨rfl, hlast, hpos, irqHandler_full h hfailed hfull⟩)

end SoundBlaster

variable {s : SoundBlaster} {i : SbInterrupt}

theorem playsRead_stopped (h : s.status = .stopped) (ended : Bool) : PlaysRead (s, ended) i := by
  intro e he
  rw [SoundBlaster.irqHandler_stopped h] at he
  cases he

/-- **One interrupt**: the last result is right when it is a chunk of zero bytes only, and not a
    failure. -/
theorem playsRead_iff (h : s.status ≠ .stopped) :
    PlaysRead (s, false) i ↔ (i.last = true → i.failed = false ∧ ∀ b ∈ i.bytes, b = 0) := by
  have hplays : PlaysRead (s, false) i ↔ ∀ e ∈ (s.irqHandler i).2, PlaysChunk s.fdBCurrent i e := by
    simp [PlaysRead]
  have hdsp : ∀ data, PlaysChunk s.fdBCurrent i (.dspWrite data) := fun _ => trivial
  rw [hplays]
  rcases s.irqHandler_cases i h with ⟨hfailed, hlast, heq⟩ | ⟨hfailed, hlast, hempty, heq⟩ |
    ⟨hfailed, hlast, hpos, heq⟩ | ⟨hfailed, hlast, hpos, heq⟩
  · rw [heq, SoundBlaster.forall_mem_play hdsp]
    refine iff_of_false (fun hplay => ?_) (fun hright => ?_)
    · exact absurd (hfailed.symm.trans hplay.1) (by decide)
    · exact absurd (hfailed.symm.trans (hright hlast).1) (by decide)
  · rw [heq]
    refine iff_of_true (List.forall_mem_singleton.2 trivial) fun _ => ⟨hfailed, ?_⟩
    rw [hempty]
    exact List.forall_mem_nil _
  · -- What is played is silence, whatever has been read.
    have hcleared : ∀ k < i.bytes.length, (s.read i).clearMem.1.dBuf (s.fdBCurrent.offset + k) = 0 :=
      fun k hk => SoundBlaster.dBuf_clearMem (FdB.offset_add_lt _ (hk.trans_le i.length_le))
    rw [heq, List.forall_mem_append, SoundBlaster.forall_mem_play hdsp]
    constructor
    · rintro ⟨-, -, -, -, -, hbytes⟩
      refine fun _ => ⟨hfailed, fun b hb => ?_⟩
      obtain ⟨k, hk, rfl⟩ := List.getElem_of_mem hb
      exact (hbytes k hk).symm.trans (hcleared k hk)
    · intro hright
      refine ⟨?_, hfailed, rfl, hpos, i.length_le, fun k hk => ?_⟩
      · simp [SoundBlaster.stopOp, PlaysChunk]
      · exact (hcleared k hk).trans ((hright hlast).2 _ (List.getElem_mem hk)).symm
  · rw [heq, SoundBlaster.forall_mem_play hdsp, hlast]
    refine iff_of_true ⟨hfailed, rfl, hpos, i.length_le, fun k hk => ?_⟩
      fun hfalse => absurd hfalse Bool.false_ne_true
    exact Memory.writeBytes_getElem i.bytes s.dBuf s.fdBCurrent.offset k hk

/-- After the last result the driver is stopped, and before it goes on as it was. -/
theorem status_irqHandler (h : s.status ≠ .stopped) (hfailed : i.failed = false) :
    (s.irqHandler i).1.status = if i.last then .stopped else s.status := by
  rcases s.irqHandler_cases i h with ⟨htrue, -⟩ | ⟨-, hlast, -, heq⟩ | ⟨-, hlast, -, heq⟩ |
    ⟨-, hlast, -, heq⟩
  · exact absurd (hfailed.symm.trans htrue) (by decide)
  all_goals
    rw [heq, hlast]
    rfl

/-- A run from where nothing is played. -/
theorem playsRead_run_stopped (h : s.status = .stopped) (ended : Bool) (is : List SbInterrupt) :
    AllSteps playbackStep PlaysRead (s, ended) is := by
  have hall : AllSteps playbackStep (fun _ _ => True) (s, ended) is := .of_forall fun _ _ => trivial
  refine AllSteps.of_invariant (P := fun sg => sg.1.status = .stopped) ?_ ?_ h hall
  · intro sg i tg hs _ hstep
    have hnext := (withGhost_eq_some.1 hstep).1
    rw [SoundBlaster.irqHandler_stopped hs] at hnext
    exact Option.some.inj hnext ▸ hs
  · intro sg i hs _
    exact playsRead_stopped hs sg.2

/-- **Playback plays what was read** exactly when the first result that is not a full chunk, if there is
    one, is a chunk of zero bytes only: a failed read is played as 0xffff bytes, and a short chunk is
    cleared before it is played. -/
theorem playsRead_run_iff (is : List SbInterrupt) {s : SoundBlaster} (h : s.status = .playing) :
    AllSteps playbackStep PlaysRead (s, false) is ↔
      ∀ i, is.find? SbInterrupt.last = some i → i.failed = false ∧ ∀ b ∈ i.bytes, b = 0 := by
  induction is generalizing s with
  | nil => exact iff_of_true trivial fun _ h => nomatch h
  | cons i is ih =>
      have hstopped : s.status ≠ .stopped := by
        rw [h]
        decide
      have hnext : playbackStep (s, false) i = some ((s.irqHandler i).1, i.last) := by
        simp [playbackStep, withGhost, hstopped]
      have hsplit : AllSteps playbackStep PlaysRead (s, false) (i :: is) ↔ PlaysRead (s, false) i ∧
          AllSteps playbackStep PlaysRead ((s.irqHandler i).1, i.last) is := by
        simp [AllSteps, hnext]
      rw [hsplit, playsRead_iff hstopped]
      cases hlast : i.last with
      | true =>
          rw [List.find?_cons_of_pos hlast]
          constructor
          · rintro ⟨hi, -⟩ j hj
            exact Option.some.inj hj ▸ hi rfl
          · intro hfirst
            have hi := hfirst i rfl
            have hstatus := status_irqHandler hstopped hi.1
            rw [hlast] at hstatus
            exact ⟨fun _ => hi, playsRead_run_stopped hstatus _ _⟩
      | false =>
          have hfailed : i.failed = false := by
            rw [SbInterrupt.last, Bool.or_eq_false_iff] at hlast
            exact hlast.1
          have hstatus := status_irqHandler hstopped hfailed
          rw [hlast] at hstatus
          rw [List.find?_cons_of_neg (by rw [hlast]; decide), ← ih (hstatus.trans h)]
          exact ⟨And.right, fun hrest => ⟨fun hfalse => absurd hfalse Bool.false_ne_true, hrest⟩⟩

/-- A chunk of one byte repeated. -/
def sampleInterrupt (n : Nat) (b : UInt8) (failed : Bool) (h : n ≤ dmaChunk) : SbInterrupt where
  bytes := List.replicate n b
  failed := failed
  cmd := 0
  length_le := by rwa [List.length_replicate]

/-- The driver when playback starts. -/
def samplePlaying : SoundBlaster where
  mode := 2
  status := .playing
  file := 2
  dBuf := fun _ => 0
  fdBCurrent := .one

/-- A full chunk, and then the end of the file. -/
theorem playsRead_run_fullChunk : AllSteps playbackStep PlaysRead (samplePlaying, false)
    [sampleInterrupt dmaChunk 7 false (by decide), sampleInterrupt 0 0 false (by decide)] := by
  refine (playsRead_run_iff _ rfl).2 fun i hi => ?_
  rw [List.find?_cons_of_neg (by simp [SbInterrupt.last, sampleInterrupt]),
    List.find?_cons_of_pos (by decide)] at hi
  obtain rfl := Option.some.inj hi
  exact ⟨rfl, by simp [sampleInterrupt]⟩

/-- A short chunk is silence by the time it is played, and a failed read is played too. -/
theorem playsRead_run_shortOrFailed :
    ¬ AllSteps playbackStep PlaysRead (samplePlaying, false) [sampleInterrupt 1 7 false (by decide)] ∧
      ¬ AllSteps playbackStep PlaysRead (samplePlaying, false)
        [sampleInterrupt 0 0 true (by decide)] := by
  have hfirst : ∀ i : SbInterrupt, i.last = true →
      AllSteps playbackStep PlaysRead (samplePlaying, false) [i] →
      i.failed = false ∧ ∀ b ∈ i.bytes, b = 0 :=
    fun i hlast h => (playsRead_iff (by decide)).1 h.1 hlast
  refine ⟨fun h => ?_, fun h => ?_⟩
  · exact absurd ((hfirst _ (by decide) h).2 7 (List.mem_singleton_self _)) (by decide)
  · exact absurd (hfirst _ (by decide) h).1 (by decide)

end Gyarados
