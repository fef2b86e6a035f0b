import JtagHw.Mpsse.Meaning

/-!
# Calls put off, and calls carried out at once

A call of the MPSSE layer queues commands, and the chip gets to see them with some later
flush; what comes back is copied to where it was asked for later still. For whoever uses
the layer that does not matter. Over a link on which every transfer succeeds, make any calls
in any order, and then flush: the chip, the buffer and the numbers returned are what they
would be if each call had been carried out at once, all of it
(`JtagHw.mpsse_deferred`).

The invariant (`JtagHw.Deferred`) says what is still missing: executing the commands in the
write buffer, and copying their answers as the read queue says, takes the engine and the
buffer to where the calls carried out at once have taken them already.
-/

namespace JtagHw

open PackedBits Fallible

variable {δ σ : Type} {n : ℕ}

/-! ### Carrying calls out at once -/

/-- What is behind the engine, and the bits of the buffer that answers go to. -/
structure Immediate (σ : Type) where
  port : σ
  data : ℕ → Bool

/-- The machine that carries calls out at once. -/
def immediately (P : Port σ) : PinMachine (Immediate σ) where
  clock s ts inp k :=
    ⟨P.run s.port ts, if inp then overlay s.data k (P.sampled s.port ts) else s.data⟩
  set s v := ⟨P.set s.port v, s.data⟩
  read s high k :=
    ⟨s.port, overlay s.data k ((List.range 8).map (P.pins s.port high).getLsbD)⟩
  clock_nil s inp k := by cases inp <;> simp
  clock_append s ts ts' inp k := by
    cases inp with
    | false => simp
    | true => simp [overlay_append]

/-! ### What is still to be copied -/

/-- The copies `q` from a read buffer that starts with `answers` turn the bits of `b` into
`data`. -/
def Delivers (q : List BitCopyEntry) (answers : List Byte) (b : Buf n) (data : ℕ → Bool) : Prop :=
  ∀ rb : Buf bufferSize, rb.bytes answers.length = answers →
    ∃ b', bitCopyExecute rb q b = some b' ∧ b'.bit = data

theorem Delivers.nil {b : Buf n} : Delivers [] [] b b.bit := fun _ _ => ⟨b, rfl, rfl⟩

/-- More answers of which nothing is to be copied. -/
theorem Delivers.append_answer {q : List BitCopyEntry} {answers : List Byte} {b : Buf n}
    {data : ℕ → Bool} (h : Delivers q answers b data) (answer : List Byte) :
    Delivers q (answers ++ answer) b data := by
  intro rb hrb
  refine h rb ?_
  rw [← rb.take_bytes (Nat.le_add_right answers.length answer.length), ← List.length_append, hrb,
    List.take_left]

/-- **One more copy**, of bits of the answer behind the others. -/
theorem Delivers.append {q : List BitCopyEntry} {answers : List Byte} {b : Buf n}
    {data : ℕ → Bool} {k o : ℕ} (h : Delivers q answers b data) (answer : List Byte)
    (bits : List Bool)
    (hroom : answers.length + answer.length ≤ bufferSize)
    (hbits : ∀ i < bits.length, bitOf answer (o + i) = bits.getD i false)
    (ho : o + bits.length ≤ 8 * answer.length) (hk : k + bits.length ≤ 8 * n) :
    Delivers (q ++ [⟨k, answers.length, o, bits.length⟩]) (answers ++ answer) b
      (overlay data k bits) := by
  intro rb hrb
  obtain ⟨b₁, hexec, hdata⟩ := h.append_answer answer rb hrb
  obtain ⟨b₂, hcopy, hbit⟩ := bufSetBuf_bit rb answers.length o b₁ 0 k bits.length (by omega)
    (by omega)
  refine ⟨b₂, ?_, funext fun j => ?_⟩
  · rw [bitCopyExecute_append, hexec]
    change (bufSetBuf rb answers.length o b₁ 0 k bits.length).bind _ = _
    rw [hcopy]
    rfl
  · rw [hbit j, overlay, ← hdata, Nat.mul_zero, Nat.zero_add]
    split_ifs with hj
    · -- the bit copied is one of the new answer
      have hpos : 8 * answers.length + o + (j - k) < 8 * (answers ++ answer).length := by
        rw [List.length_append]
        omega
      rw [rb.bit_eq_bitOf hpos, hrb, Nat.add_assoc, bitOf_append_right, hbits _ (by omega)]
    · rfl

/-! ### The invariant -/

/-- **The calls are put off**: what is queued in the context `c` takes the engine and the
buffer `b` to `s`. -/
structure Deferred {P : Port σ} (E : EngineLink δ P) (s : Immediate σ) (c : MpsseCtx δ)
    (b : Buf n) : Prop where
  packets : 2 < c.maxPacketSize
  retval : c.retval = errorOk
  packetSize : c.maxPacketSize = E.packetSize
  ready : (E.engine c.usb).Ready
  writeCount : c.writeCount < bufferSize
  readCount : c.readCount ≤ bufferSize
  readQueue : c.readCount = 0 → c.readQueue = []
  queued : ∃ ks, c.writeBuffer.bytes c.writeCount = Command.code.encodeAll ks ∧
    Mealy.final P.exec (E.engine c.usb).state ks = s.port ∧
    (Mealy.outputs P.exec (E.engine c.usb).state ks).flatten.length = c.readCount ∧
    Delivers c.readQueue (Mealy.outputs P.exec (E.engine c.usb).state ks).flatten b s.data

namespace Deferred

variable {P : Port σ} {E : EngineLink δ P} {s s' : Immediate σ} {c c' : MpsseCtx δ} {b : Buf n}

/-- With nothing queued, the engine and the buffer are there. -/
theorem of_idle (h : c.Idle) (hps : c.maxPacketSize = E.packetSize)
    (hready : (E.engine c.usb).Ready) (hport : (E.engine c.usb).state = s.port)
    (hdata : b.bit = s.data) : Deferred E s c b where
  packets := h.packets
  retval := h.retval
  packetSize := hps
  ready := hready
  writeCount := by rw [h.writeCount]; decide
  readCount := by rw [h.readCount]; decide
  readQueue _ := h.readQueue
  queued := by
    refine ⟨[], by rw [h.writeCount]; rfl, hport, h.readCount.symm, ?_⟩
    rw [h.readQueue, ← hdata]
    exact .nil

theorem of_emptied (h : Deferred E s c b) (hidle : c.Idle) :
    (E.engine c.usb).state = s.port ∧ b.bit = s.data := by
  obtain ⟨ks, hbytes, hfinal, -, hdelivers⟩ := h.queued
  rw [hidle.writeCount, Buf.bytes_zero] at hbytes
  rw [Command.code.encodeAll_eq_nil.mp hbytes.symm, hidle.readQueue] at hdelivers
  rw [Command.code.encodeAll_eq_nil.mp hbytes.symm] at hfinal
  obtain ⟨b', hexec, hdata⟩ := hdelivers .zero rfl
  cases hexec
  exact ⟨hfinal, hdata⟩

/-- A command queued. -/
theorem grows (h : Deferred E s c b) {k : Command} {reads : List BitCopyEntry} {awaited : ℕ}
    (hg : c.Grows c' k.encode reads awaited) (hport : s'.port = (P.exec s.port k).1)
    (hlen : (P.exec s.port k).2.length = awaited) (hzero : awaited = 0 → reads = [])
    (hdata : ∀ answers : List Byte, answers.length = c.readCount →
      Delivers c.readQueue answers b s.data →
      Delivers (c.readQueue ++ reads) (answers ++ (P.exec s.port k).2) b s'.data)
    (hw : c'.writeCount < bufferSize) (hr : c'.readCount ≤ bufferSize) : Deferred E s' c' b where
  packets := by
    rw [hg.keeps.maxPacketSize]
    exact h.packets
  retval := hg.keeps.retval.trans h.retval
  packetSize := hg.keeps.maxPacketSize.trans h.packetSize
  ready := by
    rw [hg.keeps.usb]
    exact h.ready
  writeCount := hw
  readCount := hr
  readQueue hnone := by
    rw [hg.readCount] at hnone
    rw [hg.readQueue, h.readQueue (by omega), hzero (by omega), List.append_nil]
  queued := by
    obtain ⟨ks, hbytes, hfinal, hcount, hdelivers⟩ := h.queued
    refine ⟨ks ++ [k], ?_, ?_, ?_, ?_⟩
    · rw [hg.written, hbytes, PrefixCode.encodeAll_append, PrefixCode.encodeAll_singleton]
      rfl
    · rw [hg.keeps.usb, Mealy.final_append, hfinal, hport]
      rfl
    · rw [hg.keeps.usb, Mealy.outputs_append, hfinal, List.flatten_append, List.length_append,
        hcount, hg.readCount, ← hlen]
      simp
    · have hall := hdata _ hcount hdelivers
      rw [hg.keeps.usb, Mealy.outputs_append, hfinal, List.flatten_append, hg.readQueue]
      simpa using hall

/-- A command queued that clocks. -/
theorem clock (h : Deferred E s c b) {k : Command} {inp : Bool} {inOffset o : ℕ}
    {ts : List Tick} (hk : P.Clocks k inp o ts) (hpos : 0 < ts.length)
    (ho : o + ts.length ≤ 8 * divRoundUp ts.length 8)
    (hin : inp = true → inOffset + ts.length ≤ 8 * n)
    (hg : c.Grows c' k.encode (MpsseCtx.readsIf inp inOffset c.readCount o ts.length)
      (if inp then divRoundUp ts.length 8 else 0))
    (hw : c'.writeCount < bufferSize) (hr : c'.readCount ≤ bufferSize) :
    Deferred E ((immediately P).clock s ts inp inOffset) c' b := by
  cases inp with
  | false =>
    refine h.grows hg (hk.port _).symm (by rw [hk.silent rfl]; rfl) (fun _ => rfl) ?_ hw hr
    intro answers _ hdelivers
    have hnone : MpsseCtx.readsIf false inOffset c.readCount o ts.length = [] := rfl
    rw [hk.silent rfl, hnone, List.append_nil, List.append_nil]
    exact hdelivers
  | true =>
    have hlen := hk.length rfl s.port
    have hround : 0 < divRoundUp ts.length 8 := by
      rw [divRoundUp]
      omega
    have hsampled : (P.sampled s.port ts).length = ts.length := Mealy.length_outputs ..
    have hcount := hg.readCount
    rw [if_pos rfl] at hcount
    refine h.grows hg (hk.port _).symm hlen (fun hzero => by rw [if_pos rfl] at hzero; omega) ?_
      hw hr
    intro answers hanswers hdelivers
    have happ := hdelivers.append (P.exec s.port k).2 (P.sampled s.port ts)
      (k := inOffset) (o := o) (by omega)
      (fun i hi => hk.bits rfl s.port i (by rwa [hsampled] at hi)) (by omega)
      (by have hbound := hin rfl; omega)
    rw [hsampled, hanswers] at happ
    exact happ

/-- A command queued that sets something. -/
theorem set (h : Deferred E s c b) {k : Command} {v : Setting} (hk : P.Sets k v)
    (hg : c.Grows c' k.encode [] 0) (hw : c'.writeCount < bufferSize) :
    Deferred E ((immediately P).set s v) c' b := by
  refine h.grows hg ?_ ?_ (fun _ => rfl) ?_ hw (by rw [hg.readCount]; exact h.readCount)
  · rw [hk]
    rfl
  · rw [hk]
    rfl
  · intro answers _ hdelivers
    rw [hk, List.append_nil, List.append_nil]
    exact hdelivers

/-- A command queued that reads the pins. -/
theorem read (h : Deferred E s c b) {k : Command} {high : Bool} {data : ℕ} (hk : P.Reads k high)
    (hdata : data + 8 ≤ 8 * n) (hg : c.Grows c' k.encode [⟨data, c.readCount, 0, 8⟩] 1)
    (hw : c'.writeCount < bufferSize) (hr : c'.readCount ≤ bufferSize) :
    Deferred E ((immediately P).read s high data) c' b := by
  have hcount := hg.readCount
  refine h.grows hg ?_ ?_ (fun hzero => by omega) ?_ hw hr
  · rw [hk]
    rfl
  · rw [hk]
    rfl
  · intro answers hanswers hdelivers
    have happ := hdelivers.append [P.pins s.port high]
      ((List.range 8).map (P.pins s.port high).getLsbD) (k := data) (o := 0)
      (by rw [List.length_singleton]; omega) (fun i hi => ?_) (by simp) (by simpa using hdata)
    · rw [hanswers, List.length_map, List.length_range] at happ
      rw [hk]
      exact happ
    · have hi' : i < 8 := by simpa using hi
      have hdiv : i / 8 = 0 := by omega
      rw [Nat.zero_add, bitOf, hdiv, Nat.mod_eq_of_lt hi', List.getD_cons_zero,
        List.getD_eq_getElem _ _ hi]
      simp

/-- **A flush** carries out what was put off. -/
theorem flush (hE : E.Perfect) (h : Deferred E s c b) :
    ∃ c' b', mpsseFlush E.toUsbLink c b = .ok (errorOk, c', b') ∧ c'.Idle ∧
      Deferred E s c' b' := by
  obtain ⟨ks, hbytes, hfinal, hcount, hdelivers⟩ := h.queued
  by_cases hzero : c.writeCount = 0
  · -- nothing is queued
    rw [hzero, Buf.bytes_zero] at hbytes
    rw [Command.code.encodeAll_eq_nil.mp hbytes.symm] at hcount
    have hread : c.readCount = 0 := hcount.symm
    exact ⟨c, b, mpsseFlush_empty h.retval hzero hread b,
      ⟨h.packets, hzero, hread, h.readQueue hread, h.retval⟩, h⟩
  · obtain ⟨rb, wb, hrb, heq⟩ := mpsseFlush_outcome (L := E.toUsbLink) h.packets h.retval
      (by omega) h.writeCount h.readCount b
    -- SEND_IMMEDIATE is a command, but one that does nothing
    obtain ⟨ks', hout, hfinal', houtputs⟩ : ∃ ks', c.outgoing = Command.code.encodeAll ks' ∧
        Mealy.final P.exec (E.engine c.usb).state ks' = s.port ∧
        (Mealy.outputs P.exec (E.engine c.usb).state ks').flatten =
          (Mealy.outputs P.exec (E.engine c.usb).state ks).flatten := by
      refine ⟨_, MpsseCtx.outgoing_encodeAll hbytes, ?_, ?_⟩
      · rw [Mealy.final_append, hfinal]
        split_ifs <;> rfl
      · rw [Mealy.outputs_append, List.flatten_append, hfinal]
        split_ifs
        · exact List.append_nil _
        · exact List.append_nil _
    have hlen : (Mealy.outputs P.exec (E.engine c.usb).state ks').flatten.length =
        c.readCount := by rw [houtputs, hcount]
    have hs : c.Flushes E.toUsbLink := by
      rw [MpsseCtx.Flushes, h.packetSize]
      refine hE c.usb c.outgoing c.readCount ?_
      rw [hout, h.ready.recvAll, hlen]
    have hthrough : (E.exchange c.usb c.outgoing).1.Completes E.packetSize c.outgoing.length
        c.readCount := by
      rw [← h.packetSize]
      exact hs
    have hreceived : c.received E.toUsbLink =
        ((E.exchange c.usb c.outgoing).1.outcome E.packetSize c.outgoing.length
          c.readCount).1.received := by
      rw [MpsseCtx.received, h.packetSize]
      rfl
    rw [hout] at hthrough hreceived
    obtain ⟨hready, hstate, hanswers⟩ := E.exchange_through h.ready hlen hthrough
    rw [hanswers, houtputs] at hreceived
    rw [hfinal', ← hout] at hstate
    rw [← hout] at hready
    rw [if_pos hs] at heq
    have hidle : (c.emptied E.toUsbLink rb wb).Idle := ⟨h.packets, rfl, rfl, rfl, h.retval⟩
    obtain ⟨b', hexec, hbit⟩ := hdelivers rb (by rw [← hreceived, hrb])
    by_cases hread : c.readCount ≠ 0
    · rw [if_pos hread, hexec] at heq
      exact ⟨_, b', heq, hidle, .of_idle hidle h.packetSize hready hstate hbit⟩
    · -- nothing is awaited, so nothing is copied
      rw [if_neg hread] at heq
      rw [h.readQueue (not_not.mp hread), bitCopyExecute, Option.some.injEq] at hexec
      exact ⟨_, b, heq, hidle, .of_idle hidle h.packetSize hready hstate (hexec ▸ hbit)⟩

/-- **It is an invariant of the context.** -/
theorem queueInvariant (hE : E.Perfect) :
    QueueInvariant E.toUsbLink (immediately P) (n := n) (Deferred E) (fun _ => False)
      (· = errorOk) where
  bounded h := ⟨h.writeCount, h.readCount⟩
  noted h hret := absurd h.retval hret
  flush h := by
    obtain ⟨c', b', hok, hidle, h'⟩ := h.flush hE
    refine .of_ok hok ⟨rfl, h', ?_, hidle.writeCount, hidle.readCount⟩
    have hsame : { c' with retval := errorOk } = c' := by rw [← h'.retval]
    rw [hsame]
    exact h'
  clock h hk := h.clock (hk P)
  set h hk := h.set (hk P)
  read h hk := h.read (hk P)

end Deferred

/-! ### With nothing awaited -/

/-- The machine `M`, and whether nothing has been sampled or read. -/
def silently {τ : Type} (M : PinMachine τ) : PinMachine (τ × Bool) where
  clock s ts inp k := (M.clock s.1 ts inp k, s.2 && (!inp || ts.isEmpty))
  set s v := (M.set s.1 v, s.2)
  read s high k := (M.read s.1 high k, false)
  clock_nil s inp k := by simp [M.clock_nil]
  clock_append s ts ts' inp k := by
    rw [M.clock_append]
    cases ts <;> cases inp <;> simp

theorem foldl_silently {τ : Type} (M : PinMachine τ) (s : τ) (silent : Bool) (vs : List Setting) :
    vs.foldl (silently M).set (s, silent) = (vs.foldl M.set s, silent) := by
  induction vs generalizing s with
  | nil => rfl
  | cons v vs ih => exact ih _

namespace Deferred

/-- **Where nothing has been sampled or read, no answer is awaited**, so no buffer is waiting
for one. -/
theorem silentInvariant {P : Port σ} {E : EngineLink δ P} (hE : E.Perfect) :
    QueueInvariant E.toUsbLink (silently (immediately P)) (n := n)
      (fun s c b => Deferred E s.1 c b ∧ (s.2 = true → c.readCount = 0)) (fun _ => False)
      (· = errorOk) where
  bounded h := ⟨h.1.writeCount, h.1.readCount⟩
  noted h hret := absurd h.1.retval hret
  flush h := by
    refine ((queueInvariant hE).flush h.1).imp (fun r hr => ?_) fun _ => id
    obtain ⟨hret, h', hnoted, hw, hr⟩ := hr
    exact ⟨hret, ⟨h', fun _ => hr⟩, ⟨hnoted, fun _ => hr⟩, hw, hr⟩
  clock {s c c' b k inp inOffset o ts} h hk hpos ho hin hg hw hr := by
    refine ⟨h.1.clock (hk P) hpos ho hin hg hw hr, fun hsilent => ?_⟩
    have hne : ts.isEmpty = false := by
      rw [List.isEmpty_eq_false_iff]
      exact List.ne_nil_of_length_pos hpos
    simp only [silently, hne, Bool.or_false, Bool.and_eq_true, Bool.not_eq_true'] at hsilent
    rw [hg.readCount, h.2 hsilent.1, hsilent.2]
    rfl
  set h hk hg hw := ⟨h.1.set (hk P) hg hw, fun hsilent => hg.readCount.trans (h.2 hsilent)⟩
  read h hk hdata hg hw hr := ⟨h.1.read (hk P) hdata hg hw hr, nofun⟩

/-- With nothing awaited it makes no difference which buffer answers would go to. -/
theorem of_silent {P : Port σ} {E : EngineLink δ P} {s : Immediate σ} {c : MpsseCtx δ} {m : ℕ}
    {b : Buf m} (h : Deferred E s c b) (hsilent : c.readCount = 0) (b' : Buf n) :
    Deferred E ⟨s.port, b'.bit⟩ c b' where
  packets := h.packets
  retval := h.retval
  packetSize := h.packetSize
  ready := h.ready
  writeCount := h.writeCount
  readCount := h.readCount
  readQueue := h.readQueue
  queued := by
    obtain ⟨ks, hbytes, hfinal, hcount, -⟩ := h.queued
    refine ⟨ks, hbytes, hfinal, hcount, ?_⟩
    rw [hsilent, List.length_eq_zero_iff] at hcount
    rw [h.readQueue hsilent, hcount]
    exact .nil

end Deferred

/-! ### Any calls, and a flush -/

/-- **Any calls** keep it, and return what they would if carried out at once. -/
theorem Deferred.run {P : Port σ} {E : EngineLink δ P} (hE : E.Perfect) (type : FtdiChipType)
    {s : Immediate σ} {c : MpsseCtx δ} {b : Buf n} (h : Deferred E s c b) (calls : List MpsseCall)
    (hfits : ∀ call ∈ calls, call.Fits type n) :
    ∃ c' b', run (mpsseStep E.toUsbLink type) (c, b) calls =
        .ok ((c', b'), Mealy.outputs (MpsseCall.denote (immediately P) type) s calls) ∧
      Deferred E (Mealy.final (MpsseCall.denote (immediately P) type) s calls) c' b' := by
  have hI := Deferred.queueInvariant (n := n) hE
  -- each call keeps the invariant, and returns what it has to
  have hcall : ∀ (r : MpsseCtx δ × Buf n) (s : Immediate σ) (call : MpsseCall),
      Deferred E s r.1 r.2 → call.Fits type n →
      ∃ r' o, mpsseStep E.toUsbLink type r call = .ok (r', o) ∧
        Deferred E (call.denote (immediately P) type s).1 r'.1 r'.2 ∧
        o = (call.denote (immediately P) type s).2 := by
    intro r s call h hcall
    obtain ⟨r', hok, h', hret⟩ := (hI.step type h hcall).exists_ok
    refine ⟨r'.1, r'.2, hok, h', ?_⟩
    rcases hret with hret | ⟨rfl, retval, rfl, hret⟩
    · exact hret
    · exact hret
  obtain ⟨⟨c', b'⟩, os, hrun, h', hos⟩ :=
    run_simulates hcall calls (c, b) s h (Mealy.along_of_forall hfits _)
  rw [List.forall₂_eq_eq_eq] at hos
  subst hos
  exact ⟨c', b', hrun, h'⟩

/-- Any calls, and the flush that has them carried out. -/
theorem Deferred.run_flush {P : Port σ} {E : EngineLink δ P} (hE : E.Perfect) (type : FtdiChipType)
    {s : Immediate σ} {c : MpsseCtx δ} {b : Buf n} (h : Deferred E s c b) (calls : List MpsseCall)
    (hfits : ∀ call ∈ calls, call.Fits type n) :
    ∃ c' b', Fallible.run (mpsseStep E.toUsbLink type) (c, b) (calls ++ [.flush]) =
        .ok ((c', b'), Mealy.outputs (MpsseCall.denote (immediately P) type) s calls ++
          [some errorOk]) ∧
      c'.Idle ∧ (E.engine c'.usb).Ready ∧
      (E.engine c'.usb).state =
        (Mealy.final (MpsseCall.denote (immediately P) type) s calls).port ∧
      b'.bit = (Mealy.final (MpsseCall.denote (immediately P) type) s calls).data := by
  obtain ⟨c₁, b₁, hrun, h₁⟩ := h.run hE type calls hfits
  obtain ⟨c₂, b₂, hflush, hidle₂, h₂⟩ := h₁.flush hE
  have hlast : mpsseStep E.toUsbLink type (c₁, b₁) .flush = .ok ((c₂, b₂), some errorOk) := by
    rw [mpsseStep, hflush]
    rfl
  obtain ⟨hstate, hdata⟩ := h₂.of_emptied hidle₂
  exact ⟨c₂, b₂, run_append_ok hrun (run_singleton hlast), hidle₂, h₂.ready, hstate, hdata⟩

/-- **Calls put off are as good as calls carried out at once.** -/
theorem mpsse_deferred {P : Port σ} {E : EngineLink δ P} (hE : E.Perfect) (type : FtdiChipType)
    {c : MpsseCtx δ} (hidle : c.Idle) (hps : c.maxPacketSize = E.packetSize)
    (hready : (E.engine c.usb).Ready) (b : Buf n) (calls : List MpsseCall)
    (hfits : ∀ call ∈ calls, call.Fits type n) :
    ∃ c' b', run (mpsseStep E.toUsbLink type) (c, b) (calls ++ [.flush]) =
        .ok ((c', b'), Mealy.outputs (MpsseCall.denote (immediately P) type)
          ⟨(E.engine c.usb).state, b.bit⟩ calls ++ [some errorOk]) ∧
      c'.Idle ∧ (E.engine c'.usb).Ready ∧
      (E.engine c'.usb).state = (Mealy.final (MpsseCall.denote (immediately P) type)
        ⟨(E.engine c.usb).state, b.bit⟩ calls).port ∧
      b'.bit = (Mealy.final (MpsseCall.denote (immediately P) type)
        ⟨(E.engine c.usb).state, b.bit⟩ calls).data :=
  (Deferred.of_idle hidle hps hready rfl rfl).run_flush hE type calls hfits

/-- Something that TDI reaches TDO through with a delay of one tick. -/
def delayPort : Port Bool where
  clock s t := (t.tdi.getD s, s)
  set s _ := s
  low _ := 0x5A
  high _ := 0x00
  stale _ _ := false

/-- A context as `mpsse_open` leaves it, in front of a chip that has just been switched on. -/
def freshCtx {σ : Type} (s : σ) : MpsseCtx (Engine σ) :=
  ⟨⟨s, [], []⟩, 512, .zero, 0, .zero, 0, [], errorOk, []⟩

theorem idle_freshCtx {σ : Type} (s : σ) : (freshCtx s).Idle :=
  ⟨by simp [freshCtx], rfl, rfl, rfl, rfl⟩

theorem mpsse_deferred_someCalls :
    ∃ c' b', run (mpsseStep (EngineLink.direct delayPort).toUsbLink .ft232h)
        (freshCtx false, (Buf.zero : Buf 26000)) (someCalls ++ [.flush]) =
        .ok ((c', b'), Mealy.outputs (MpsseCall.denote (immediately delayPort) .ft232h)
          ⟨false, (Buf.zero : Buf 26000).bit⟩ someCalls ++ [some errorOk]) ∧
      c'.Idle ∧ c'.usb.Ready ∧
      c'.usb.state = (Mealy.final (MpsseCall.denote (immediately delayPort) .ft232h)
        ⟨false, (Buf.zero : Buf 26000).bit⟩ someCalls).port ∧
      b'.bit = (Mealy.final (MpsseCall.denote (immediately delayPort) .ft232h)
        ⟨false, (Buf.zero : Buf 26000).bit⟩ someCalls).data :=
  mpsse_deferred (EngineLink.direct_perfect delayPort) .ft232h (idle_freshCtx false) rfl
    ⟨rfl, rfl⟩ .zero someCalls fits_someCalls

end JtagHw
