import JtagHw.Mpsse.Api
import JtagHw.Mpsse.Engine

/-!
# What the functions queue

A function of the MPSSE layer that has made room appends a command to the write buffer and,
if an answer is awaited, a copy to the read queue. This file says so for each of them, with
the context grown by that and by nothing else (`JtagHw.MpsseCtx.Grows`): what is queued is
a whole command, with the ticks that were asked for, and the copy is of the bits of its
answer.

Nothing is said of the device here. What a flush writes then is whole commands as well
(`JtagHw.MpsseCtx.outgoing_encodeAll`).
-/

namespace JtagHw

open PackedBits

variable {δ : Type} {m n : ℕ}

namespace MpsseCtx

/-- `c'` is `c` with `bytes` behind the bytes to be written, the copies `reads` behind those
of the read queue, and `awaited` more bytes to be read. -/
structure Grows (c c' : MpsseCtx δ) (bytes : List Byte) (reads : List BitCopyEntry)
    (awaited : ℕ) : Prop where
  keeps : c.Keeps c'
  written : c'.writeBuffer.bytes c'.writeCount = c.writeBuffer.bytes c.writeCount ++ bytes
  readQueue : c'.readQueue = c.readQueue ++ reads
  readCount : c'.readCount = c.readCount + awaited

variable {c c' c'' : MpsseCtx δ} {bytes bytes' : List Byte} {reads reads' : List BitCopyEntry}
  {awaited awaited' : ℕ}

theorem Grows.refl (c : MpsseCtx δ) : c.Grows c [] [] 0 where
  keeps := .refl c
  written := (List.append_nil _).symm
  readQueue := (List.append_nil _).symm
  readCount := rfl

theorem Grows.trans (h : c.Grows c' bytes reads awaited)
    (h' : c'.Grows c'' bytes' reads' awaited') :
    c.Grows c'' (bytes ++ bytes') (reads ++ reads') (awaited + awaited') where
  keeps := h.keeps.trans h'.keeps
  written := by rw [h'.written, h.written, List.append_assoc]
  readQueue := by rw [h'.readQueue, h.readQueue, List.append_assoc]
  readCount := by rw [h'.readCount, h.readCount, Nat.add_assoc]

/-- Bytes, then something more. -/
theorem Grows.then (h : c.Grows c' bytes [] 0) (h' : c'.Grows c'' bytes' reads awaited) :
    c.Grows c'' (bytes ++ bytes') reads awaited := by
  have hall := h.trans h'
  rwa [List.nil_append, Nat.zero_add] at hall

theorem Grows.writeCount (h : c.Grows c' bytes reads awaited) :
    c'.writeCount = c.writeCount + bytes.length := by
  have hlen := congrArg List.length h.written
  rwa [List.length_append, Buf.length_bytes, Buf.length_bytes] at hlen

/-! ### The space left -/

theorem bufferWriteSpace_eq (h : c.writeCount < bufferSize) :
    c.bufferWriteSpace = 16383 - c.writeCount := by
  rw [bufferSize_eq] at h
  rw [bufferWriteSpace, bufferSize_eq]
  omega

theorem bufferReadSpace_eq (h : c.readCount ≤ bufferSize) :
    c.bufferReadSpace = 16384 - c.readCount := by
  rw [bufferSize_eq] at h
  rw [bufferReadSpace, bufferSize_eq]
  omega

/-! ### The four ways to add to the buffers -/

theorem bufferWriteByte_grows (data : Byte) (h : c.writeCount < bufferSize) :
    ∃ c', c.bufferWriteByte data = .ok c' ∧ c.Grows c' [data] [] 0 := by
  obtain ⟨wb, hok, hbytes⟩ := c.bufferWriteByte_ok data h
  exact ⟨_, hok, ⟨rfl, rfl, rfl, rfl⟩, hbytes, (List.append_nil _).symm, rfl⟩

theorem bufferWriteBytes_singleton (data : Byte) :
    c.bufferWriteBytes [data] = c.bufferWriteByte data :=
  bind_pure (c.bufferWriteByte data)

theorem bufferWriteBytes_grows (bytes : List Byte) : ∀ {c : MpsseCtx δ},
    c.writeCount + bytes.length ≤ bufferSize →
      ∃ c', c.bufferWriteBytes bytes = .ok c' ∧ c.Grows c' bytes [] 0 := by
  induction bytes with
  | nil => exact fun {c} _ => ⟨c, rfl, .refl c⟩
  | cons data rest ih =>
    intro c h
    rw [List.length_cons] at h
    obtain ⟨c₁, hok₁, hg₁⟩ := c.bufferWriteByte_grows data (by omega)
    have hcount := hg₁.writeCount
    rw [List.length_singleton] at hcount
    obtain ⟨c₂, hok₂, hg₂⟩ := ih (c := c₁) (by omega)
    refine ⟨c₂, ?_, hg₁.trans hg₂⟩
    rw [bufferWriteBytes, hok₁]
    exact hok₂

/-- Bits that are written end up in bytes of their own. -/
theorem bufferWrite_grows (out : Buf m) (outOffset bitCount : ℕ)
    (h : c.writeCount + divRoundUp bitCount 8 ≤ bufferSize)
    (hout : outOffset + bitCount ≤ 8 * m) :
    ∃ c' bytes, c.bufferWrite out outOffset bitCount = .ok c' ∧ c.Grows c' bytes [] 0 ∧
      bytes.length = divRoundUp bitCount 8 ∧
      ∀ i < bitCount, bitOf bytes i = out.bit (outOffset + i) := by
  have hround : bitCount ≤ 8 * divRoundUp bitCount 8 := by
    rw [divRoundUp]
    omega
  obtain ⟨wb, hcopy, hbit⟩ := bufSetBuf_bit out 0 outOffset c.writeBuffer c.writeCount 0 bitCount
    (by omega) (by omega)
  simp only [Nat.mul_zero, Nat.zero_add, Nat.add_zero] at hbit
  -- the bytes before are as they were
  have hold : wb.bytes c.writeCount = c.writeBuffer.bytes c.writeCount :=
    Buf.bytes_congr fun j hj => by rw [hbit j, if_neg (by omega)]
  set r := divRoundUp bitCount 8 with hr
  have hsplit : wb.bytes (c.writeCount + r) =
      c.writeBuffer.bytes c.writeCount ++ (wb.bytes (c.writeCount + r)).drop c.writeCount := by
    rw [← hold, ← wb.take_bytes (Nat.le_add_right c.writeCount r), List.take_append_drop]
  refine ⟨{ c with writeBuffer := wb, writeCount := c.writeCount + r },
    (wb.bytes (c.writeCount + r)).drop c.writeCount, ?_,
    ⟨⟨rfl, rfl, rfl, rfl⟩, hsplit, (List.append_nil _).symm, rfl⟩, by simp, fun i hi => ?_⟩
  · have hcopy' : bitCopy c.writeBuffer c.writeCount 0 out 0 outOffset bitCount = some wb := hcopy
    rw [bufferWrite, ← hr, if_pos h, hcopy']
    rfl
  · have hpos : 8 * c.writeCount + i < 8 * (c.writeCount + r) := by omega
    have hlen : (c.writeBuffer.bytes c.writeCount).length = c.writeCount := Buf.length_bytes ..
    have happ := bitOf_append_right (c.writeBuffer.bytes c.writeCount)
      ((wb.bytes (c.writeCount + r)).drop c.writeCount) i
    rw [← hsplit, hlen, ← wb.bit_eq_bitOf hpos, hbit, if_pos (by omega),
      Nat.add_sub_cancel_left] at happ
    exact happ.symm

theorem bufferAddRead_grows (inOffset bitCount offset : ℕ)
    (h : c.readCount + divRoundUp bitCount 8 ≤ bufferSize) :
    ∃ c', c.bufferAddRead inOffset bitCount offset = .ok c' ∧
      c.Grows c' [] [⟨inOffset, c.readCount, offset, bitCount⟩] (divRoundUp bitCount 8) :=
  ⟨_, if_pos h, ⟨rfl, rfl, rfl, rfl⟩, (List.append_nil _).symm, rfl, rfl⟩

/-- The copies asked for, if any. -/
def readsIf (inp : Bool) (inOffset src offset bitCount : ℕ) : List BitCopyEntry :=
  if inp then [⟨inOffset, src, offset, bitCount⟩] else []

theorem bufferAddReadIn_grows (inp : Bool) (inOffset bitCount offset : ℕ)
    (h : inp = true → c.readCount + divRoundUp bitCount 8 ≤ bufferSize) :
    ∃ c', c.bufferAddReadIn inp inOffset bitCount offset = .ok c' ∧
      c.Grows c' [] (readsIf inp inOffset c.readCount offset bitCount)
        (if inp then divRoundUp bitCount 8 else 0) := by
  cases inp with
  | false => exact ⟨c, rfl, .refl c⟩
  | true => exact c.bufferAddRead_grows _ _ _ (h rfl)

end MpsseCtx

open MpsseCtx

/-! ### Transfers of data -/

/-- The tick that `mpsse_clock_data` makes for position `i`. With nothing to write TDI is left
alone, unless there is nowhere to read to either; then it is `0`. -/
def dataTick (e : Edges) (out : Option (Buf m)) (inp : Bool) (i : ℕ) : Tick :=
  match out with
  | some out => ⟨e, none, some (out.bit i)⟩
  | none => if inp then ⟨e, none, none⟩ else ⟨e, none, some false⟩

/-- The `mode` of `mpsse_clock_data` after its first lines. -/
def dataMode (e : Edges) (out inp : Bool) : Byte :=
  let mode := if out ∨ (¬out ∧ ¬inp) then e.mode ||| 0x10 else e.mode
  if inp then mode ||| 0x20 else mode

/-- The opcodes it makes. -/
theorem dataMode_eq (e : Edges) (out inp : Bool) :
    dataMode e out inp =
        (if out ∨ ¬inp then Opcode.bytesOut e inp else Opcode.bytesIn e).byte ∧
      0x02 ||| dataMode e out inp =
        (if out ∨ ¬inp then Opcode.bitsOut e inp else Opcode.bitsIn e).byte := by
  obtain ⟨p, q⟩ := e
  cases p <;> cases q <;> cases out <;> cases inp <;> decide

/-- The number of bytes a command of `mpsse_clock_data` has besides its data. -/
def headerSize (out inp : Bool) : ℕ := if out ∨ ¬inp then 3 else 2

/-- The number of data bytes of a command for `k` bytes. -/
def dataSize (out inp : Bool) (k : ℕ) : ℕ := if out ∨ ¬inp then k else 0

variable {c : MpsseCtx δ}

/-- What either kind of command ends with, behind the opcode and the length: `num` bits to be
written and read. -/
def queuePayload (out : Option (Buf m)) (outOffset : ℕ) (inp : Bool) (inOffset num offset : ℕ)
    (c : MpsseCtx δ) : Except Fault (MpsseCtx δ) := do
  let c₁ ← c.bufferWriteOut out outOffset num
  let c₂ ← c₁.bufferAddReadIn inp inOffset num offset
  if ¬out.isSome ∧ ¬inp then c₂.bufferWriteBytes (List.replicate (divRoundUp num 8) 0x00)
  else .ok c₂

theorem queueBits_eq (out : Option (Buf m)) (outOffset : ℕ) (inp : Bool) (inOffset : ℕ)
    {length : ℕ} (hround : divRoundUp length 8 = 1) (mode : Byte) :
    queueBits out outOffset inp inOffset length mode c =
      c.bufferWriteBytes [0x02 ||| mode, BitVec.ofNat 8 (length - 1)] >>=
        queuePayload out outOffset inp inOffset length (8 - length) := by
  rw [queueBits, bufferWriteBytes, bind_assoc]
  refine bind_congr fun c₁ => ?_
  rw [bufferWriteBytes_singleton]
  refine bind_congr fun c₂ => ?_
  simp only [queuePayload, hround, List.replicate_one, bufferWriteBytes_singleton]

theorem queueBytes_eq (out : Option (Buf m)) (outOffset : ℕ) (inp : Bool) (inOffset : ℕ) {k : ℕ}
    (hround : divRoundUp (k * 8) 8 = k) (mode : Byte) :
    queueBytes out outOffset inp inOffset k mode c =
      c.bufferWriteBytes [mode, BitVec.ofNat 8 ((k - 1) &&& 0xff), BitVec.ofNat 8 ((k - 1) >>> 8)]
        >>= queuePayload out outOffset inp inOffset (k * 8) 0 := by
  rw [queueBytes, bufferWriteBytes, bind_assoc]
  refine bind_congr fun c₁ => ?_
  rw [bufferWriteBytes, bind_assoc]
  refine bind_congr fun c₂ => ?_
  rw [bufferWriteBytes_singleton]
  refine bind_congr fun c₃ => ?_
  simp only [queuePayload, hround]

/-- **The data of a command**, one bit of it for each tick. -/
theorem queuePayload_grows (e : Edges) (out : Option (Buf m)) (outOffset : ℕ) (inp : Bool)
    (inOffset offset : ℕ) {num size : ℕ} (hround : divRoundUp num 8 = size)
    (hout : out.isSome → outOffset + num ≤ 8 * m)
    (hroom : c.writeCount + dataSize out.isSome inp size ≤ bufferSize)
    (hread : inp = true → c.readCount + size ≤ bufferSize) :
    ∃ data c', queuePayload out outOffset inp inOffset num offset c = .ok c' ∧
      c.Grows c' data (readsIf inp inOffset c.readCount offset num) (if inp then size else 0) ∧
      data.length = dataSize out.isSome inp size ∧
      ∀ i < num, dataTick e out inp (outOffset + i) =
        ⟨e, none, if out.isSome ∨ ¬inp then some (bitOf data i) else none⟩ := by
  subst hround
  cases out with
  | some out =>
    have hsize : dataSize (some out).isSome inp (divRoundUp num 8) = divRoundUp num 8 :=
      if_pos (Or.inl rfl)
    rw [hsize] at hroom ⊢
    obtain ⟨c₁, data, hok₁, hg₁, hlen, hbits⟩ := c.bufferWrite_grows out outOffset num hroom
      (hout rfl)
    obtain ⟨c₂, hok₂, hg₂⟩ := c₁.bufferAddReadIn_grows inp inOffset num offset
      (by rw [hg₁.readCount]; exact hread)
    have hg := hg₁.then hg₂
    rw [List.append_nil, hg₁.readCount] at hg
    refine ⟨data, c₂, ?_, hg, hlen, fun i hi => ?_⟩
    · simp only [queuePayload, bufferWriteOut, hok₁, hok₂, bind, Except.bind, Option.isSome_some,
        not_true_eq_false, false_and, if_false]
    · have hwrites : (some out).isSome = true ∨ ¬inp = true := Or.inl rfl
      rw [dataTick, ← hbits i hi, if_pos hwrites]
  | none =>
    obtain ⟨c₁, hok₁, hg₁⟩ := c.bufferAddReadIn_grows inp inOffset num offset hread
    cases inp with
    | true =>
      refine ⟨[], c₁, ?_, hg₁, rfl, fun i _ => rfl⟩
      simp only [queuePayload, bufferWriteOut, hok₁, bind, Except.bind, not_true_eq_false,
        and_false, if_false]
    | false =>
      -- with nowhere to read to either, zeros are written
      have hsize : dataSize (none : Option (Buf m)).isSome false (divRoundUp num 8) =
          divRoundUp num 8 := if_pos (Or.inr Bool.false_ne_true)
      rw [hsize] at hroom ⊢
      obtain ⟨c₂, hok₂, hg₂⟩ := MpsseCtx.bufferWriteBytes_grows
        (List.replicate (divRoundUp num 8) 0x00) (c := c)
        (by rw [List.length_replicate]; exact hroom)
      refine ⟨_, c₂, ?_, hg₂, List.length_replicate, fun i _ => ?_⟩
      · simp only [queuePayload, bufferWriteOut, bufferAddReadIn, hok₂, bind, Except.bind,
          Option.isSome_none, Bool.false_eq_true, not_false_eq_true, and_self, if_true, if_false]
      · simp [dataTick, bitOf]

/-- **In bit mode** a command for the bits left is queued. -/
theorem queueBits_grows (e : Edges) (out : Option (Buf m)) (outOffset : ℕ) (inp : Bool)
    (inOffset : ℕ) {length : ℕ} (hpos : 0 < length) (hlt : length < 8)
    (hout : out.isSome → outOffset + length ≤ 8 * m)
    (hroom : c.writeCount + headerSize out.isSome inp ≤ bufferSize)
    (hread : inp = true → c.readCount + 1 ≤ bufferSize) :
    ∃ k c', queueBits out outOffset inp inOffset length (dataMode e out.isSome inp) c = .ok c' ∧
      c.Grows c' (Command.encode k) (readsIf inp inOffset c.readCount (8 - length) length)
        (if inp then 1 else 0) ∧
      (Command.encode k).length = headerSize out.isSome inp ∧
      ∀ {σ : Type} (P : Port σ),
        P.Clocks k inp (8 - length) (ticks (dataTick e out inp) outOffset length) := by
  have hround : divRoundUp length 8 = 1 := by
    rw [divRoundUp]
    omega
  have hn : length - 1 + 1 = length := by omega
  have hheader : headerSize out.isSome inp = 2 + dataSize out.isSome inp 1 := by
    rw [headerSize, dataSize]
    split_ifs <;> rfl
  rw [hheader] at hroom ⊢
  -- opcode and length byte
  obtain ⟨c₁, hok₁, hg₁⟩ := MpsseCtx.bufferWriteBytes_grows
    [0x02 ||| dataMode e out.isSome inp, BitVec.ofNat 8 (length - 1)] (c := c)
    ((Nat.add_le_add_left (Nat.le_add_right 2 _) _).trans hroom)
  have hcount : c₁.writeCount = c.writeCount + 2 := hg₁.writeCount
  obtain ⟨data, c₂, hok₂, hg₂, hlen, htick⟩ := queuePayload_grows (c := c₁) e out outOffset inp
    inOffset (8 - length) hround hout (by rwa [hcount, Nat.add_assoc])
    (by rw [hg₁.readCount]; exact hread)
  have hok :
      queueBits out outOffset inp inOffset length (dataMode e out.isSome inp) c = .ok c₂ := by
    rw [queueBits_eq _ _ _ _ hround, hok₁]
    exact hok₂
  have hg := hg₁.then hg₂
  rw [hg₁.readCount, (dataMode_eq ..).2] at hg
  by_cases hwrites : out.isSome ∨ ¬inp
  · simp only [dataSize, if_pos hwrites] at hlen hg htick ⊢
    obtain ⟨x, rfl⟩ := List.length_eq_one_iff.mp hlen
    refine ⟨.bitsOut e inp ⟨length - 1, by omega⟩ x, c₂, hok, hg, rfl, fun P => ?_⟩
    have hclocks := Port.clocks_bitsOut (P := P) e inp ⟨length - 1, by omega⟩ x
    simp only [hn] at hclocks
    rwa [ticks_congr (g := dataTick e out inp) (l := outOffset)] at hclocks
    intro i hi
    rw [htick i hi, Nat.zero_add, bitOf, Nat.div_eq_of_lt (by omega),
      Nat.mod_eq_of_lt (by omega), List.getD_cons_zero]
  · simp only [dataSize, if_neg hwrites] at hlen hg htick ⊢
    obtain rfl : inp = true := not_not.mp (not_or.mp hwrites).2
    obtain rfl := List.length_eq_zero_iff.mp hlen
    refine ⟨.bitsIn e ⟨length - 1, by omega⟩, c₂, hok, hg, rfl, fun P => ?_⟩
    have hclocks := Port.clocks_bitsIn (P := P) e ⟨length - 1, by omega⟩
    simp only [hn] at hclocks
    rwa [ticks_congr (g := dataTick e out true) (l := outOffset)] at hclocks
    exact fun i hi => (htick i hi).symm

/-- The bytes of a command that writes the bytes `data`. -/
theorem exists_payload (e : Edges) (inp : Bool) {data : List Byte} {k : ℕ}
    (hlen : data.length = k) (hpos : 0 < k) (hle : k ≤ 65536) :
    ∃ p : Payload, p.data = data ∧ (Command.bytesOut e inp p).encode =
        [(Opcode.bytesOut e inp).byte, BitVec.ofNat 8 ((k - 1) &&& 0xff),
          BitVec.ofNat 8 ((k - 1) >>> 8)] ++ data ∧
      (Command.bytesOut e inp p).encode.length = 3 + k := by
  subst hlen
  refine ⟨⟨data, hpos, hle⟩, rfl, rfl, ?_⟩
  change data.length + 1 + 1 + 1 = 3 + data.length
  omega

/-- **In byte mode** a command for `k` bytes is queued. -/
theorem queueBytes_grows (e : Edges) (out : Option (Buf m)) (outOffset : ℕ) (inp : Bool)
    (inOffset : ℕ) {k : ℕ} (hpos : 0 < k) (hle : k ≤ 65536)
    (hout : out.isSome → outOffset + k * 8 ≤ 8 * m)
    (hroom : c.writeCount + 3 + dataSize out.isSome inp k ≤ bufferSize)
    (hread : inp = true → c.readCount + k ≤ bufferSize) :
    ∃ cmd c', queueBytes out outOffset inp inOffset k (dataMode e out.isSome inp) c = .ok c' ∧
      c.Grows c' (Command.encode cmd) (readsIf inp inOffset c.readCount 0 (k * 8))
        (if inp then k else 0) ∧
      (Command.encode cmd).length = 3 + dataSize out.isSome inp k ∧
      ∀ {σ : Type} (P : Port σ),
        P.Clocks cmd inp 0 (ticks (dataTick e out inp) outOffset (k * 8)) := by
  have hround : divRoundUp (k * 8) 8 = k := by
    rw [divRoundUp]
    omega
  -- opcode and length bytes
  obtain ⟨c₁, hok₁, hg₁⟩ := MpsseCtx.bufferWriteBytes_grows
    [dataMode e out.isSome inp, BitVec.ofNat 8 ((k - 1) &&& 0xff), BitVec.ofNat 8 ((k - 1) >>> 8)]
    (c := c) ((Nat.le_add_right (c.writeCount + 3) _).trans hroom)
  have hcount : c₁.writeCount = c.writeCount + 3 := hg₁.writeCount
  obtain ⟨data, c₂, hok₂, hg₂, hlen, htick⟩ := queuePayload_grows (c := c₁) e out outOffset inp
    inOffset 0 hround hout (by rwa [hcount]) (by rw [hg₁.readCount]; exact hread)
  have hok : queueBytes out outOffset inp inOffset k (dataMode e out.isSome inp) c = .ok c₂ := by
    rw [queueBytes_eq _ _ _ _ hround, hok₁]
    exact hok₂
  have hg := hg₁.then hg₂
  rw [hg₁.readCount, (dataMode_eq ..).1] at hg
  by_cases hwrites : out.isSome ∨ ¬inp
  · simp only [dataSize, if_pos hwrites] at hlen hg htick ⊢
    obtain ⟨p, hp, hencode, hsize⟩ := exists_payload e inp hlen hpos hle
    refine ⟨.bytesOut e inp p, c₂, hok, ?_, hsize, fun P => ?_⟩
    · rw [hencode]
      exact hg
    · have hclocks := Port.clocks_bytesOut (P := P) e inp p
      rwa [hp, hlen, Nat.mul_comm 8 k,
        ticks_congr (g := dataTick e out inp) (l := outOffset)] at hclocks
      intro i hi
      rw [htick i hi, Nat.zero_add]
  · simp only [dataSize, if_neg hwrites] at hlen hg htick ⊢
    obtain rfl : inp = true := not_not.mp (not_or.mp hwrites).2
    obtain rfl := List.length_eq_zero_iff.mp hlen
    refine ⟨.bytesIn e ⟨k - 1, by omega⟩, c₂, hok, hg, rfl, fun P => ?_⟩
    have hclocks := Port.clocks_bytesIn (P := P) e ⟨k - 1, by omega⟩
    have hk : 8 * (k - 1 + 1) = k * 8 := by omega
    simp only [hk] at hclocks
    rwa [ticks_congr (g := dataTick e out true) (l := outOffset)] at hclocks
    exact fun i hi => (htick i hi).symm

/-- **How many bytes one command is for**: as many as are left, and one at least, if there is
room for a transfer of one byte; and there is room for them. -/
theorem thisBytes_bounds {out inp : Bool} {length : ℕ} (hlen : 8 ≤ length)
    (hw : c.writeCount < bufferSize) (hr : c.readCount ≤ bufferSize)
    (hroom : ¬ DataFull out inp length c) :
    0 < thisBytes out inp length c ∧ thisBytes out inp length c ≤ 65536 ∧
      thisBytes out inp length c * 8 ≤ length ∧
      c.writeCount + 3 + dataSize out inp (thisBytes out inp length c) < bufferSize ∧
      (inp = true → c.readCount + thisBytes out inp length c ≤ bufferSize) := by
  rw [DataFull, c.bufferWriteSpace_eq hw, c.bufferReadSpace_eq hr, if_neg (by omega)] at hroom
  rw [bufferSize_eq] at hw hr ⊢
  rw [thisBytes, dataSize, c.bufferWriteSpace_eq (by rwa [bufferSize_eq]),
    c.bufferReadSpace_eq (by rwa [bufferSize_eq])]
  cases out <;> cases inp <;> simp at hroom ⊢ <;> split_ifs <;> omega

/-! ### Transfers of TMS -/

/-- The tick that `mpsse_clock_tms_cs` makes for position `i`. -/
def tmsTick (e : Edges) (out : Buf m) (tdi : Bool) (i : ℕ) : Tick :=
  ⟨e, some (out.bit i), some tdi⟩

/-- The `mode` of `mpsse_clock_tms_cs` after its first lines. -/
def tmsMode (e : Edges) (inp : Bool) : Byte :=
  if inp then e.mode ||| 0x42 ||| 0x20 else e.mode ||| 0x42

theorem tmsMode_eq (e : Edges) (inp : Bool) : tmsMode e inp = (Opcode.tms e inp).byte := by
  obtain ⟨p, q⟩ := e
  cases p <;> cases q <;> cases inp <;> rfl

/-- The data byte: the bits of TMS below, TDI in bit `7`. -/
theorem bitCopy_tms (out : Buf m) (tdi : Bool) {outOffset thisBits : ℕ} (hle : thisBits ≤ 7)
    (hout : outOffset + thisBits ≤ 8 * m) :
    ∃ data, bitCopy (Buf.zero : Buf 1) 0 0 out 0 outOffset thisBits = some data ∧
      (∀ i < thisBits,
        (data 0 ||| if tdi then (0x80 : Byte) else 0x00).getLsbD i = out.bit (outOffset + i)) ∧
      (data 0 ||| if tdi then (0x80 : Byte) else 0x00).getLsbD 7 = tdi := by
  obtain ⟨data, hok, hcopy⟩ := bufSetBuf_bit out 0 outOffset (Buf.zero : Buf 1) 0 0 thisBits
    (by omega) (by omega)
  have hpos : ∀ j, data.bit j = if j < thisBits then out.bit (outOffset + j) else false := by
    intro j
    have hj := hcopy j
    simpa using hj
  have hbit : ∀ i < 8, (data 0).getLsbD i = data.bit i := by
    intro i hi
    rw [Buf.bit_of_load? (x := data 0), Nat.mod_eq_of_lt hi]
    rw [Nat.div_eq_of_lt hi]
    exact data.load?_of_lt (by decide)
  have htdi : ∀ i < 8, (if tdi then (0x80 : Byte) else 0x00).getLsbD i =
      (decide (i = 7) && tdi) := by
    cases tdi <;> decide
  refine ⟨data, hok, fun i hi => ?_, ?_⟩
  · rw [BitVec.getLsbD_or, htdi i (by omega), hbit i (by omega), hpos i, if_pos hi,
      decide_eq_false (by omega), Bool.false_and, Bool.or_false]
  · rw [BitVec.getLsbD_or, htdi 7 (by omega), hbit 7 (by omega), hpos 7, if_neg (by omega),
      Bool.false_or, decide_eq_true rfl, Bool.true_and]

/-- **A command for up to seven bits of TMS** is queued. -/
theorem queueTms_grows (e : Edges) (out : Buf m) (outOffset : ℕ) (inp : Bool) (inOffset : ℕ)
    (thisBits : ℕ) (tdi : Bool) (hpos : 0 < thisBits) (hle : thisBits ≤ 7)
    (hout : outOffset + thisBits ≤ 8 * m) (hroom : c.writeCount + 3 ≤ bufferSize)
    (hread : inp = true → c.readCount + 1 ≤ bufferSize) :
    ∃ k c', queueTms out outOffset inp inOffset thisBits tdi (tmsMode e inp) c = .ok c' ∧
      c.Grows c' (Command.encode k) (readsIf inp inOffset c.readCount (8 - thisBits) thisBits)
        (if inp then 1 else 0) ∧
      (Command.encode k).length = 3 ∧
      ∀ {σ : Type} (P : Port σ),
        P.Clocks k inp (8 - thisBits) (ticks (tmsTick e out tdi) outOffset thisBits) := by
  have hround : divRoundUp thisBits 8 = 1 := by
    rw [divRoundUp]
    omega
  have hn : thisBits - 1 + 1 = thisBits := by omega
  obtain ⟨data, hdata, htms, htdi⟩ := bitCopy_tms out tdi hle hout
  set byte := data 0 ||| if tdi then (0x80 : Byte) else 0x00 with hbyte
  obtain ⟨c₁, hok₁, hg₁⟩ := c.bufferWriteByte_grows (tmsMode e inp) (by omega)
  have hcount₁ := hg₁.writeCount
  rw [List.length_singleton] at hcount₁
  obtain ⟨c₂, hok₂, hg₂⟩ := c₁.bufferWriteByte_grows (BitVec.ofNat 8 (thisBits - 1)) (by omega)
  have hcount₂ := hg₂.writeCount
  rw [List.length_singleton] at hcount₂
  obtain ⟨c₃, hok₃, hg₃⟩ := c₂.bufferWriteByte_grows byte (by omega)
  have hg := (hg₁.then hg₂).then hg₃
  obtain ⟨c₄, hok₄, hg₄⟩ := c₃.bufferAddReadIn_grows inp inOffset thisBits (8 - thisBits)
    (by rw [hround, hg.readCount]; exact hread)
  refine ⟨.tms e inp ⟨thisBits - 1, by omega⟩ byte, c₄, ?_, ?_, rfl, fun P => ?_⟩
  · simp only [queueTms, hok₁, hok₂, hdata, access, ← hbyte, hok₃, bind, Except.bind]
    exact hok₄
  · have hall := hg.then hg₄
    rw [hg.readCount, hround, tmsMode_eq, List.append_nil] at hall
    exact hall
  · have hclocks := Port.clocks_tms (P := P) e inp ⟨thisBits - 1, by omega⟩ byte
    simp only [hn, htdi] at hclocks
    rwa [ticks_congr (g := tmsTick e out tdi) (l := outOffset)] at hclocks
    intro i hi
    rw [tmsTick, Nat.zero_add, htms i hi]

/-! ### What is sent -/

/-- If what is queued is commands, a flush writes commands. -/
theorem MpsseCtx.outgoing_encodeAll {c : MpsseCtx δ} {ks : List Command}
    (h : c.writeBuffer.bytes c.writeCount = Command.code.encodeAll ks) :
    c.outgoing =
      Command.code.encodeAll (ks ++ if c.readCount ≠ 0 then [.sendImmediate] else []) := by
  rw [MpsseCtx.outgoing, h, PrefixCode.encodeAll_append]
  split_ifs <;> rfl

end JtagHw
