import JtagHw.Mpsse.Command
import JtagHw.Mpsse.Context

/-!
# A chip that executes MPSSE commands

What the MPSSE layer as a whole is for: a chip whose engine executes the commands written
to it against its pins. What is at the pins is left open. It is the `JtagHw.Port`, a
machine that is clocked and can be set: it answers to every period of TCK with the level
of TDO.

A command clocks some ticks (`JtagHw.Command.ticks`), or sets something, or asks for the
level of the pins (`JtagHw.Port.exec`). Sampled bits come back eight to a byte, lowest
first; of fewer than eight the answer is a byte whose upper bits they are, and the bits
below are left over from before.

The chip is at the end of an honest link, as in `JtagHw.ChipLink`. An exchange that comes
through executes the commands written and brings back all they answer
(`JtagHw.EngineLink.exchange_through`).
-/

namespace JtagHw

open PackedBits

/-- A period of TCK: its edges, and what it drives TMS and TDI to, if it drives them. -/
structure Tick where
  edges : Edges
  tms : Option Bool
  tdi : Option Bool

/-- The ticks `f k`, `f (k + 1)` and so on, `n` of them. -/
def ticks (f : ℕ → Tick) (k n : ℕ) : List Tick := (List.range n).map fun i => f (k + i)

@[simp] theorem length_ticks (f : ℕ → Tick) (k n : ℕ) : (ticks f k n).length = n := by
  simp [ticks]

theorem ticks_add (f : ℕ → Tick) (k n n' : ℕ) :
    ticks f k (n + n') = ticks f k n ++ ticks f (k + n) n' := by
  simp only [ticks, List.range_add, List.map_append, List.map_map, Nat.add_assoc]
  rfl

theorem ticks_congr {f g : ℕ → Tick} {k l n : ℕ} (h : ∀ i < n, f (k + i) = g (l + i)) :
    ticks f k n = ticks g l n :=
  List.map_congr_left fun i hi => h i (List.mem_range.mp hi)

/-- What a command can set. -/
inductive Setting
  | low (data dir : Byte)
  | high (data dir : Byte)
  | loopback (enable : Bool)
  | divisor (divisor : BitVec 16)
  | divideBy5 (enable : Bool)
  | adaptive (enable : Bool)
  deriving DecidableEq

/-- What is behind the engine: the pins, and what is connected to them. -/
structure Port (σ : Type) where
  /-- A tick, and the level of TDO sampled in it. -/
  clock : σ → Tick → σ × Bool
  set : σ → Setting → σ
  /-- The pins of the low byte, as they are read. -/
  low : σ → Byte
  /-- The pins of the high byte. -/
  high : σ → Byte
  /-- What is left over below the sampled bits of an answer. -/
  stale : σ → ℕ → Bool

namespace Command

/-- What a command clocks. -/
def ticks : Command → List Tick
  | bytesOut e _ p =>
    JtagHw.ticks (fun i => ⟨e, none, some (bitOf p.data i)⟩) 0 (8 * p.data.length)
  | bytesIn e n => JtagHw.ticks (fun _ => ⟨e, none, none⟩) 0 (8 * (n + 1))
  | bitsOut e _ n data =>
    JtagHw.ticks (fun i => ⟨e, none, some (data.getLsbD i)⟩) 0 (n + 1)
  | bitsIn e n => JtagHw.ticks (fun _ => ⟨e, none, none⟩) 0 (n + 1)
  | tms e _ n data =>
    JtagHw.ticks (fun i => ⟨e, some (data.getLsbD i), some (data.getLsbD 7)⟩) 0 (n + 1)
  | _ => []

/-- What a command sets. -/
def setting : Command → Option Setting
  | setLow data dir => some (.low data dir)
  | setHigh data dir => some (.high data dir)
  | loopback enable => some (.loopback enable)
  | divisor low high => some (.divisor (high ++ low))
  | divideBy5 enable => some (.divideBy5 enable)
  | adaptive enable => some (.adaptive enable)
  | _ => none

end Command

namespace Port

variable {σ : Type} (P : Port σ)

/-- The state after some ticks. -/
abbrev run (s : σ) (ts : List Tick) : σ := Mealy.final P.clock s ts

/-- The levels of TDO sampled in them. -/
abbrev sampled (s : σ) (ts : List Tick) : List Bool := Mealy.outputs P.clock s ts

/-- The answer of up to eight sampled bits. -/
def upper (s : σ) (bits : List Bool) : Byte :=
  (BitVec.ofBoolListLE ((List.range (8 - bits.length)).map (P.stale s) ++ bits)).setWidth 8

/-- What a command answers. -/
def answer (s : σ) (k : Command) : List Byte :=
  match k with
  | .bytesOut _ true _ | .bytesIn .. => pack (P.sampled s k.ticks)
  | .bitsOut _ true .. | .bitsIn .. | .tms _ true .. => [P.upper s (P.sampled s k.ticks)]
  | .readLow => [P.low s]
  | .readHigh => [P.high s]
  | _ => []

/-- A command. -/
def exec (s : σ) (k : Command) : σ × List Byte :=
  (k.setting.elim (P.run s k.ticks) (P.set s), P.answer s k)

/-- The sampled bits are the upper ones. -/
theorem bitOf_upper (s : σ) {bits : List Bool} (hlen : bits.length ≤ 8) {i : ℕ}
    (hi : i < bits.length) : bitOf [P.upper s bits] (8 - bits.length + i) = bits.getD i false := by
  have hdiv : (8 - bits.length + i) / 8 = 0 := by omega
  have hmod : (8 - bits.length + i) % 8 = 8 - bits.length + i := by omega
  rw [bitOf, hdiv, hmod, List.getD_cons_zero, upper, BitVec.getLsbD_setWidth,
    BitVec.getLsbD_ofBoolListLE, decide_eq_true (by omega), Bool.true_and,
    List.getD_append_right _ _ _ _ (by simp)]
  simp

/-- **The command `k` clocks the ticks `ts`**. If `inp`, the bits sampled are in its answer
from position `o` on; otherwise it answers nothing. -/
structure Clocks (k : Command) (inp : Bool) (o : ℕ) (ts : List Tick) : Prop where
  port : ∀ s, (P.exec s k).1 = P.run s ts
  silent : inp = false → ∀ s, (P.exec s k).2 = []
  length : inp = true → ∀ s, (P.exec s k).2.length = divRoundUp ts.length 8
  bits : inp = true → ∀ s, ∀ i < ts.length,
    bitOf (P.exec s k).2 (o + i) = (P.sampled s ts).getD i false

variable {P} {k : Command} {inp : Bool} {ts : List Tick}

/-- Commands that clock whole bytes. -/
theorem Clocks.of_pack (hset : k.setting = none) (hts : k.ticks = ts) (hlen : ts.length % 8 = 0)
    (hans : ∀ s, P.answer s k = if inp then pack (P.sampled s ts) else []) :
    P.Clocks k inp 0 ts where
  port s := by rw [exec, hset, hts, Option.elim_none]
  silent hinp s := by rw [exec, hans s, hinp, if_neg Bool.false_ne_true]
  length hinp s := by
    rw [exec, hans s, if_pos hinp, length_pack, Mealy.length_outputs, divRoundUp]
    omega
  bits hinp s i hi := by
    rw [exec, hans s, if_pos hinp, Nat.zero_add, bitOf_pack]
    rw [Mealy.length_outputs]
    omega

/-- Commands that clock up to eight bits. -/
theorem Clocks.of_upper (hset : k.setting = none) (hts : k.ticks = ts) (hpos : 0 < ts.length)
    (hle : ts.length ≤ 8)
    (hans : ∀ s, P.answer s k = if inp then [P.upper s (P.sampled s ts)] else []) :
    P.Clocks k inp (8 - ts.length) ts where
  port s := by rw [exec, hset, hts, Option.elim_none]
  silent hinp s := by rw [exec, hans s, hinp, if_neg Bool.false_ne_true]
  length hinp s := by
    rw [exec, hans s, if_pos hinp, List.length_singleton, divRoundUp]
    omega
  bits hinp s i hi := by
    have hlen : (P.sampled s ts).length = ts.length := Mealy.length_outputs ..
    have hi' : i < (P.sampled s ts).length := by rwa [hlen]
    have hbit := P.bitOf_upper s (hlen.le.trans hle) hi'
    rw [exec, hans s, if_pos hinp, ← hlen]
    exact hbit

theorem clocks_bytesOut (e : Edges) (inp : Bool) (p : Payload) :
    P.Clocks (.bytesOut e inp p) inp 0
      (ticks (fun i => ⟨e, none, some (bitOf p.data i)⟩) 0 (8 * p.data.length)) :=
  .of_pack rfl rfl (by simp) fun s => by cases inp <;> rfl

theorem clocks_bytesIn (e : Edges) (n : Fin 65536) :
    P.Clocks (.bytesIn e n) true 0 (ticks (fun _ => ⟨e, none, none⟩) 0 (8 * (n + 1))) :=
  .of_pack rfl rfl (by simp) fun _ => rfl

theorem clocks_bitsOut (e : Edges) (inp : Bool) (n : Fin 8) (data : Byte) :
    P.Clocks (.bitsOut e inp n data) inp (8 - (n + 1))
      (ticks (fun i => ⟨e, none, some (data.getLsbD i)⟩) 0 (n + 1)) := by
  have h : P.Clocks (.bitsOut e inp n data) inp _ _ := Clocks.of_upper rfl rfl
    (by rw [Command.ticks, length_ticks]; omega) (by rw [Command.ticks, length_ticks]; omega)
    fun s => by cases inp <;> rfl
  rwa [Command.ticks, length_ticks] at h

theorem clocks_bitsIn (e : Edges) (n : Fin 8) :
    P.Clocks (.bitsIn e n) true (8 - (n + 1)) (ticks (fun _ => ⟨e, none, none⟩) 0 (n + 1)) := by
  have h : P.Clocks (.bitsIn e n) true _ _ := Clocks.of_upper rfl rfl
    (by rw [Command.ticks, length_ticks]; omega) (by rw [Command.ticks, length_ticks]; omega)
    fun _ => rfl
  rwa [Command.ticks, length_ticks] at h

theorem clocks_tms (e : Edges) (inp : Bool) (n : Fin 7) (data : Byte) :
    P.Clocks (.tms e inp n data) inp (8 - (n + 1))
      (ticks (fun i => ⟨e, some (data.getLsbD i), some (data.getLsbD 7)⟩) 0 (n + 1)) := by
  have h : P.Clocks (.tms e inp n data) inp _ _ := Clocks.of_upper rfl rfl
    (by rw [Command.ticks, length_ticks]; omega) (by rw [Command.ticks, length_ticks]; omega)
    fun s => by cases inp <;> rfl
  rwa [Command.ticks, length_ticks] at h

end Port

/-! ### The link -/

/-- The engine: what is behind it, the bytes of a command that is not complete yet, and the
answers not read yet. -/
abbrev Engine (σ : Type) := PrefixCode.Receiver σ Byte Byte

namespace Engine

variable {σ : Type}

/-- The bytes written to the engine, one after the other. -/
abbrev recvAll (P : Port σ) (g : Engine σ) (bytes : List Byte) : Engine σ :=
  Command.code.recvAll P.exec g bytes

/-- The first `n` answers have been read. -/
def skip (g : Engine σ) (n : ℕ) : Engine σ := { g with answers := g.answers.drop n }

/-- The engine is between two commands, and all its answers have been read. -/
structure Ready (g : Engine σ) : Prop where
  held : g.held = []
  answers : g.answers = []

/-- An engine that is ready executes commands written to it, and nothing else. -/
theorem Ready.recvAll {P : Port σ} {g : Engine σ} (h : g.Ready) (ks : List Command) :
    g.recvAll P (Command.code.encodeAll ks) =
      ⟨Mealy.final P.exec g.state ks, [], (Mealy.outputs P.exec g.state ks).flatten⟩ := by
  have hstart : g = ⟨g.state, [], []⟩ := by
    obtain ⟨s, held, answers⟩ := g
    obtain ⟨rfl, rfl⟩ := h
    rfl
  rw [Engine.recvAll, hstart, PrefixCode.recvAll_encodeAll, List.nil_append]

end Engine

/-- An honest link to a chip with an engine, in the sense of `JtagHw.ChipLink`. -/
structure EngineLink (δ : Type) {σ : Type} (P : Port σ) extends UsbLink δ where
  /-- `wMaxPacketSize` of the bulk IN endpoint. -/
  packetSize : ℕ
  /-- The engine at the end of the link. -/
  engine : δ → Engine σ
  executed : δ → List Byte → ℕ
  accepted_le : ∀ d bytes, (exchange d bytes).1.accepted ≤ executed d bytes
  payload_prefix : ∀ d bytes, (exchange d bytes).1.payload packetSize <+:
    ((engine d).recvAll P (bytes.take (executed d bytes))).answers
  engine_after : ∀ d bytes, engine (exchange d bytes).2 =
    ((engine d).recvAll P (bytes.take (executed d bytes))).skip
      ((exchange d bytes).1.payload packetSize).length

namespace EngineLink

variable {δ σ : Type} {P : Port σ} (E : EngineLink δ P)

/-- **A link on which every transfer succeeds completely**, as in
`JtagHw.ChipLink.Perfect`. -/
def Perfect : Prop :=
  ∀ d bytes rlen, rlen ≤ ((E.engine d).recvAll P bytes).answers.length →
    (E.exchange d bytes).1.Completes E.packetSize bytes.length rlen

variable {E}

/-- **An exchange that comes through** leaves a ready engine ready. It has executed the
commands written, and all their answers are brought back, if they are the ones awaited. -/
theorem exchange_through {d : δ} (hd : (E.engine d).Ready) {ks : List Command} {rlen : ℕ}
    (hlen : (Mealy.outputs P.exec (E.engine d).state ks).flatten.length = rlen)
    (hs : (E.exchange d (Command.code.encodeAll ks)).1.Completes E.packetSize
      (Command.code.encodeAll ks).length rlen) :
    (E.engine (E.exchange d (Command.code.encodeAll ks)).2).Ready ∧
      (E.engine (E.exchange d (Command.code.encodeAll ks)).2).state =
        Mealy.final P.exec (E.engine d).state ks ∧
      ((E.exchange d (Command.code.encodeAll ks)).1.outcome E.packetSize
          (Command.code.encodeAll ks).length rlen).1.received =
        (Mealy.outputs P.exec (E.engine d).state ks).flatten := by
  set bytes := Command.code.encodeAll ks with hbytes
  have hrecv := hd.recvAll (P := P) ks
  rw [← hbytes] at hrecv
  obtain ⟨haccepted, -, hfront⟩ := (E.exchange d bytes).1.outcome_inv E.packetSize bytes.length rlen
  -- the engine has executed all of it
  have htake : bytes.take (E.executed d bytes) = bytes :=
    List.take_of_length_le (hs.2.1.trans (haccepted.trans (E.accepted_le d bytes)))
  have hpayload := E.payload_prefix d bytes
  have hafter := E.engine_after d bytes
  rw [htake, hrecv] at hpayload hafter
  -- and all of its answers have been received
  have hall := (hfront.trans hpayload).eq_of_length_le (hlen.le.trans hs.2.2)
  have hskip : (Mealy.outputs P.exec (E.engine d).state ks).flatten.length ≤
      ((E.exchange d bytes).1.payload E.packetSize).length := by
    have hle := hfront.length_le
    rwa [hall] at hle
  rw [hafter]
  exact ⟨⟨rfl, List.drop_eq_nil_of_le hskip⟩, rfl, hall⟩

/-- A link without a hitch: all bytes are executed, and every answer comes in a packet of
its own. -/
def direct (P : Port σ) : EngineLink (Engine σ) P where
  exchange g bytes :=
    (.smooth bytes.length ((g.recvAll P bytes).answers.map fun a => [0x32, 0x60, a]),
      (g.recvAll P bytes).skip (g.recvAll P bytes).answers.length)
  control g _ := (.success, g)
  packetSize := 512
  engine := id
  executed _ bytes := bytes.length
  accepted_le g bytes := by rw [Exchange.accepted_smooth]
  payload_prefix g bytes := by
    rw [Exchange.payload_smooth, payload_packets, List.take_length]
    exact List.prefix_rfl
  engine_after g bytes := by
    rw [Exchange.payload_smooth, payload_packets, List.take_length]
    rfl

theorem direct_perfect (P : Port σ) : (direct P).Perfect := by
  intro g bytes rlen h
  refine Exchange.smooth_completes le_rfl ?_
  rw [show (direct P).packetSize = 512 from rfl, payload_packets]
  exact h

end EngineLink

end JtagHw
