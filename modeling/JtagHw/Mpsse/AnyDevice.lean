import JtagHw.Mpsse.Meaning

/-!
# What no device can bring about

Whatever the device makes of the transfers, and whatever calls are made whose arguments fit
(`JtagHw.MpsseCall.Fits`): nothing outside a buffer is accessed, no loop of the layer runs on
for ever, and a call that does not return fails on an assertion, or waits for a device that
says nothing any more (`JtagHw.UsbLink.Answers`). Each flush has submitted whole commands, and
each time it has submitted its write again, what was left of them
(`JtagHw.WellFormedWrites`, `JtagHw.mpsse_any_device`).

The invariant (`JtagHw.WellQueued`) is about the buffers alone, and the record that the
context keeps of the writes.
-/

namespace JtagHw

open PackedBits Fallible

variable {δ : Type} {m n : ℕ}

/-- The device falls silent in no exchange before both transfers are done. -/
def UsbLink.Answers (L : UsbLink δ) (packetSize : ℕ) : Prop :=
  ∀ d bytes rlen, ¬ (L.exchange d bytes).1.Silent packetSize bytes.length rlen

/-- The machine of which nothing is known. -/
def anyMachine : PinMachine Unit where
  clock _ _ _ _ := ()
  set _ _ := ()
  read _ _ _ := ()
  clock_nil _ _ _ := rfl
  clock_append _ _ _ _ _ := rfl

/-- The copy stays within its two buffers, the first one of `m` bytes. -/
structure BitCopyEntry.Inside (qe : BitCopyEntry) (m n : ℕ) : Prop where
  src : 8 * qe.src + qe.srcOffset + qe.bitCount ≤ 8 * m
  dst : qe.dstOffset + qe.bitCount ≤ 8 * n

/-- Copies that stay within their buffers are carried out. -/
theorem bitCopyExecute_inside (rb : Buf m) : ∀ (q : List BitCopyEntry) (b : Buf n),
    (∀ qe ∈ q, qe.Inside m n) → ∃ b', bitCopyExecute rb q b = some b'
  | [], b, _ => ⟨b, rfl⟩
  | qe :: q, b, h => by
    have hqe := h qe (List.mem_cons_self ..)
    obtain ⟨b₁, hcopy, -⟩ := bufSetBuf_bit rb qe.src qe.srcOffset b 0 qe.dstOffset qe.bitCount
      hqe.src (by have hdst := hqe.dst; omega)
    obtain ⟨b₂, hexec⟩ := bitCopyExecute_inside rb q b₁ fun qe' hmem =>
      h qe' (List.mem_cons_of_mem _ hmem)
    refine ⟨b₂, ?_⟩
    have hcopy' : bitCopy b 0 qe.dstOffset rb qe.src qe.srcOffset qe.bitCount = some b₁ := hcopy
    rw [bitCopyExecute, hcopy']
    exact hexec

/-- The writes of a flush as the device gets to see them: the first one is made up of whole
commands, and each later one is what is left of those before it. None is empty, and none is
larger than the write buffer. -/
structure WellFormedWrites (writes : List (List Byte)) : Prop where
  commands : ∃ ks, writes.head? = some (Command.code.encodeAll ks)
  rest : writes.Pairwise fun w w' => w' <:+ w
  ne_nil : ∀ w ∈ writes, w ≠ []
  length_le : ∀ w ∈ writes, w.length ≤ bufferSize

/-! ### The invariant -/

/-- **What the buffers always hold**: whole commands, and copies that stay within the
buffers. -/
structure WellQueued (packetSize : ℕ) (c : MpsseCtx δ) (n : ℕ) : Prop where
  maxPacketSize : c.maxPacketSize = packetSize
  retval : c.retval = errorOk ∨ c.retval = errorFail
  writeCount : c.writeCount < bufferSize
  readCount : c.readCount ≤ bufferSize
  readQueue : ∀ qe ∈ c.readQueue, qe.Inside c.readCount n
  commands : ∃ ks, c.writeBuffer.bytes c.writeCount = Command.code.encodeAll ks
  writes : ∀ ws ∈ c.writes, WellFormedWrites ws

namespace WellQueued

variable {packetSize : ℕ} {c c' : MpsseCtx δ} {b : Buf n}

/-- With nothing queued, that is so. -/
theorem of_emptied (hps : c.maxPacketSize = packetSize)
    (hret : c.retval = errorOk ∨ c.retval = errorFail) (hw : c.writeCount = 0)
    (hr : c.readCount = 0) (hq : c.readQueue = [])
    (hwrites : ∀ ws ∈ c.writes, WellFormedWrites ws) : WellQueued packetSize c n where
  maxPacketSize := hps
  retval := hret
  writeCount := by rw [hw]; decide
  readCount := by rw [hr]; decide
  readQueue := by simp [hq]
  commands := ⟨[], by rw [hw]; rfl⟩
  writes := hwrites

/-- The error that is noted. -/
theorem note (h : WellQueued packetSize c n) {retval : CInt}
    (hret : retval = errorOk ∨ retval = errorFail) :
    WellQueued packetSize { c with retval := retval } n :=
  ⟨h.maxPacketSize, hret, h.writeCount, h.readCount, h.readQueue, h.commands, h.writes⟩

/-- A command queued. -/
theorem grows (h : WellQueued packetSize c n) {k : Command} {reads : List BitCopyEntry}
    {awaited : ℕ} (hg : c.Grows c' k.encode reads awaited)
    (hreads : ∀ qe ∈ reads, qe.Inside (c.readCount + awaited) n)
    (hw : c'.writeCount < bufferSize) (hr : c'.readCount ≤ bufferSize) :
    WellQueued packetSize c' n where
  maxPacketSize := hg.keeps.maxPacketSize.trans h.maxPacketSize
  retval := by
    rw [hg.keeps.retval]
    exact h.retval
  writeCount := hw
  readCount := hr
  readQueue qe hmem := by
    rw [hg.readQueue, List.mem_append] at hmem
    rw [hg.readCount]
    rcases hmem with hmem | hmem
    · have hqe := h.readQueue qe hmem
      exact ⟨hqe.src.trans (by omega), hqe.dst⟩
    · exact hreads qe hmem
  commands := by
    obtain ⟨ks, hbytes⟩ := h.commands
    refine ⟨ks ++ [k], ?_⟩
    rw [hg.written, hbytes, PrefixCode.encodeAll_append, PrefixCode.encodeAll_singleton]
    rfl
  writes := by
    rw [hg.keeps.writes]
    exact h.writes

/-- **What a flush submits.** -/
theorem submissions (L : UsbLink δ) (h : WellQueued packetSize c n) (hpos : c.writeCount ≠ 0) :
    WellFormedWrites (c.submissions L) := by
  obtain ⟨ks, hbytes⟩ := h.commands
  have hwrite := h.writeCount
  have hlen : c.outgoing.length ≤ c.writeCount + 1 := by
    rw [MpsseCtx.outgoing, List.length_append, Buf.length_bytes]
    split_ifs <;> simp
  have houtgoing : 0 < c.outgoing.length := by
    rw [MpsseCtx.outgoing, List.length_append, Buf.length_bytes]
    omega
  have hsub := Exchange.outcome_submitted c.maxPacketSize c.readCount houtgoing (c.exchange L)
  have hof : ∀ w ∈ c.submissions L, ∃ off < c.outgoing.length, c.outgoing.drop off = w := by
    intro w hw
    obtain ⟨off, hoff, rfl⟩ := List.mem_map.mp hw
    exact ⟨off, hsub.lt off hoff, rfl⟩
  have hhead : (c.submissions L).head? = some c.outgoing := by
    rw [MpsseCtx.submissions, List.head?_map, hsub.head, Option.map_some, List.drop_zero]
  rw [MpsseCtx.outgoing_encodeAll hbytes] at hhead
  refine ⟨⟨_, hhead⟩, ?_, fun w hw => ?_, fun w hw => ?_⟩
  · -- what is dropped at a place farther on is a suffix
    refine List.Pairwise.map _ (fun off off' hle => ?_) hsub.sorted
    obtain ⟨k, rfl⟩ := Nat.exists_eq_add_of_le hle
    rw [← List.drop_drop]
    exact List.drop_suffix ..
  · obtain ⟨off, hoff, rfl⟩ := hof w hw
    rw [ne_eq, List.drop_eq_nil_iff]
    exact not_le.mpr hoff
  · obtain ⟨off, hoff, rfl⟩ := hof w hw
    rw [List.length_drop]
    omega

/-- The faults of a flush: an assertion, or the device does not answer. -/
def Stops (L : UsbLink δ) (packetSize : ℕ) (e : Fault) : Prop :=
  e = .assertion ∨ e = .unanswered ∧ ¬ L.Answers packetSize

/-- **A flush**, whatever comes of it. -/
theorem flush (L : UsbLink δ) (hpackets : 2 < packetSize) (h : WellQueued packetSize c n)
    (b : Buf n) :
    Yields (fun r : CInt × MpsseCtx δ × Buf n =>
        (r.1 = errorOk ∨ r.1 = errorFail) ∧ WellQueued packetSize r.2.1 n ∧
          r.2.1.writeCount = 0 ∧ r.2.1.readCount = 0) (Stops L packetSize)
      (mpsseFlush L c b) := by
  by_cases hret : c.retval ≠ errorOk
  · -- an error noted is returned, if nothing is queued
    rw [mpsseFlush, if_pos hret]
    split_ifs with hcounts
    · exact ⟨h.retval, h.note (Or.inl rfl), hcounts.1, hcounts.2⟩
    · exact Or.inl rfl
  · have hok := not_not.mp hret
    by_cases hzero : c.writeCount = 0
    · by_cases hread : c.readCount = 0
      · rw [mpsseFlush_empty hok hzero hread]
        exact ⟨Or.inl rfl, h, hzero, hread⟩
      · rw [mpsseFlush, if_neg hret, if_pos (by omega)]
        exact Or.inl rfl
    · obtain ⟨rb, wb, -, heq⟩ := mpsseFlush_outcome (L := L) (h.maxPacketSize ▸ hpackets) hok
        (by omega) h.writeCount h.readCount b
      have hwrites : ∀ ws ∈ (c.emptied L rb wb).writes, WellFormedWrites ws := by
        intro ws hmem
        rcases List.mem_append.mp hmem with hmem | hmem
        · exact h.writes ws hmem
        · rw [List.mem_singleton.mp hmem]
          exact h.submissions L hzero
      have hemptied : WellQueued packetSize (c.emptied L rb wb) n :=
        of_emptied h.maxPacketSize (Or.inl hok) rfl rfl rfl hwrites
      rw [heq]
      split_ifs with hs hread hh
      · obtain ⟨b', hexec⟩ := bitCopyExecute_inside rb c.readQueue b fun qe hmem => by
          have hqe := h.readQueue qe hmem
          have hle := h.readCount
          exact ⟨hqe.src.trans (by omega), hqe.dst⟩
        rw [hexec]
        exact ⟨Or.inl rfl, hemptied, rfl, rfl⟩
      · exact ⟨Or.inl rfl, hemptied, rfl, rfl⟩
      · -- the device has fallen silent
        refine Or.inr ⟨rfl, fun hanswers => hanswers c.usb c.outgoing c.readCount ?_⟩
        rw [← h.maxPacketSize]
        exact hh
      · -- the purge gives up what was queued, and writes nothing
        obtain ⟨hidle, -, hps, hkeep⟩ := mpssePurge_idle (L := L) (c := c.emptied L rb wb)
          (show 2 < c.maxPacketSize from h.maxPacketSize ▸ hpackets)
        refine ⟨Or.inr rfl, ?_, hidle.writeCount, hidle.readCount⟩
        exact of_emptied (hps.trans h.maxPacketSize) (Or.inl hidle.retval) hidle.writeCount
          hidle.readCount hidle.readQueue (hkeep ▸ hwrites)

/-- **It is an invariant of the context**, for every link. -/
theorem queueInvariant (L : UsbLink δ) (hpackets : 2 < packetSize) :
    QueueInvariant L anyMachine (n := n) (fun _ c _ => WellQueued packetSize c n)
      (Stops L packetSize) (fun retval => retval = errorOk ∨ retval = errorFail) where
  bounded h := ⟨h.writeCount, h.readCount⟩
  noted h _ _ := h
  flush {s c b} h := by
    refine (h.flush L hpackets b).imp (fun r hr => ?_) fun _ => id
    exact ⟨hr.1, hr.2.1, hr.2.1.note hr.1, hr.2.2.1, hr.2.2.2⟩
  clock {s c c' b k inp inOffset o ts} h _ _ ho hin hg hw hr := by
    refine h.grows hg (fun qe hmem => ?_) hw hr
    cases inp with
    | false => exact absurd hmem List.not_mem_nil
    | true =>
      rw [List.mem_singleton.mp hmem, if_pos rfl]
      exact ⟨by simp only; omega, hin rfl⟩
  set {s c c' b k v} h _ hg hw := by
    refine h.grows hg (fun qe hmem => absurd hmem List.not_mem_nil) hw ?_
    rw [hg.readCount]
    exact h.readCount
  read {s c c' b k high data} h _ hdata hg hw hr := by
    refine h.grows hg (fun qe hmem => ?_) hw hr
    rw [List.mem_singleton.mp hmem]
    exact ⟨by simp only; omega, hdata⟩

end WellQueued

/-- **Whatever the device does**: calls whose arguments fit end, or fail on an assertion, or
wait for a device that does not answer. When they have ended, what is still queued is whole
commands, and copies that stay within their buffers, and each flush has submitted whole
commands, and then what was left of them. -/
theorem mpsse_any_device (L : UsbLink δ) (type : FtdiChipType) {c : MpsseCtx δ} (hidle : c.Idle)
    (hnew : c.writes = []) (b : Buf n) (calls : List MpsseCall)
    (hfits : ∀ call ∈ calls, call.Fits type n) :
    Yields (fun r => WellQueued c.maxPacketSize r.1.1 n)
      (fun e => e = .assertion ∨ e = .unanswered ∧ ¬ L.Answers c.maxPacketSize)
      (run (mpsseStep L type) (c, b) calls) := by
  have hI := WellQueued.queueInvariant (n := n) L hidle.packets
  refine run_yields (I := fun r : MpsseCtx δ × Buf n => WellQueued c.maxPacketSize r.1 n)
    (fun r call h hcall => ?_) calls (c, b) ?_ hfits
  · exact (hI.step (s := ()) type h hcall).imp (fun _ hr => hr.1) fun _ => id
  · exact .of_emptied rfl (Or.inl hidle.retval) hidle.writeCount hidle.readCount hidle.readQueue
      (by simp [hnew])

/-- A device that is no longer there. -/
def goneLink : UsbLink Unit where
  exchange _ _ := (⟨.noDevice, .noDevice, []⟩, ())
  control _ _ := (.noDevice, ())

theorem mpsse_any_device_gone :
    Yields (fun r : (MpsseCtx Unit × Buf 26000) × List (Option CInt) =>
        WellQueued 64 r.1.1 26000) (fun e => e = .assertion ∨ e = .unanswered ∧
          ¬ goneLink.Answers 64)
      (run (mpsseStep goneLink .ft2232c)
        (⟨(), 64, .zero, 0, .zero, 0, [], errorOk, []⟩, .zero) someCalls) :=
  mpsse_any_device goneLink .ft2232c ⟨by decide, rfl, rfl, rfl, rfl⟩ rfl .zero someCalls
    (by decide)

end JtagHw
