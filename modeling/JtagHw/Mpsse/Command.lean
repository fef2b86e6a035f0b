import Mathlib.Tactic.Set
import JtagHw.Lib.PackedBits
import JtagHw.Lib.PrefixCode

/-!
# The commands of the MPSSE

What the functions of `openocd/src/jtag/drivers/mpsse.c` write is a sequence of commands:
an opcode, and as many bytes after it as the opcode asks for. `JtagHw.Command` is the
commands that occur there, with the bits in the order `LSB_FIRST` puts them; a value of
the type is always one that can be written.

The commands are a prefix code (`JtagHw.Command.code`): where one ends is known from its
bytes alone, so a chip can execute them as they arrive.
-/

namespace JtagHw

open PackedBits

/-- The edges of TCK on which data goes out and on which it is sampled. -/
structure Edges where
  /-- `NEG_EDGE_OUT`. -/
  negOut : Bool
  /-- `NEG_EDGE_IN`. -/
  negIn : Bool
  deriving DecidableEq

/-- The argument `mode` of the functions that clock: the edges, and `LSB_FIRST`. -/
def Edges.mode (e : Edges) : Byte :=
  0x08 ||| (if e.negOut then 0x01 else 0x00) ||| (if e.negIn then 0x04 else 0x00)

/-! ### Opcodes -/

/-- The first byte of a command; `inp` says whether TDO is sampled. -/
inductive Opcode
  | bytesOut (e : Edges) (inp : Bool)
  | bytesIn (e : Edges)
  | bitsOut (e : Edges) (inp : Bool)
  | bitsIn (e : Edges)
  | tms (e : Edges) (inp : Bool)
  | setLow
  | setHigh
  | readLow
  | readHigh
  | loopback (enable : Bool)
  | divisor
  | sendImmediate
  | divideBy5 (enable : Bool)
  | adaptive (enable : Bool)
  deriving DecidableEq

namespace Opcode

/-- Sampling TDO is bit `5` of the opcodes that clock. -/
def inMask (inp : Bool) : Byte := if inp then 0x20 else 0x00

def byte : Opcode → Byte
  | bytesOut e inp => e.mode ||| 0x10 ||| inMask inp
  | bytesIn e => e.mode ||| 0x20
  | bitsOut e inp => e.mode ||| 0x12 ||| inMask inp
  | bitsIn e => e.mode ||| 0x22
  | tms e inp => e.mode ||| 0x42 ||| inMask inp
  | setLow => 0x80
  | readLow => 0x81
  | setHigh => 0x82
  | readHigh => 0x83
  | loopback enable => if enable then 0x84 else 0x85
  | divisor => 0x86
  | sendImmediate => 0x87
  | divideBy5 enable => if enable then 0x8B else 0x8A
  | adaptive enable => if enable then 0x96 else 0x97

/-- The opcodes for the edges `e`. -/
def clocking (e : Edges) : List Opcode :=
  [bytesOut e false, bytesOut e true, bytesIn e, bitsOut e false, bitsOut e true, bitsIn e,
    tms e false, tms e true]

/-- All opcodes. -/
def all : List Opcode :=
  clocking ⟨false, false⟩ ++ clocking ⟨false, true⟩ ++ clocking ⟨true, false⟩ ++
    clocking ⟨true, true⟩ ++
    [setLow, setHigh, readLow, readHigh, loopback false, loopback true, divisor, sendImmediate,
      divideBy5 false, divideBy5 true, adaptive false, adaptive true]

/-- The opcode a byte is. -/
def ofByte? (b : Byte) : Option Opcode := all.find? fun o => o.byte == b

/-- No two opcodes are the same byte. -/
theorem ofByte?_byte (o : Opcode) : ofByte? o.byte = some o := by
  cases o with
  | bytesOut e inp => obtain ⟨p, q⟩ := e; cases p <;> cases q <;> cases inp <;> rfl
  | bytesIn e => obtain ⟨p, q⟩ := e; cases p <;> cases q <;> rfl
  | bitsOut e inp => obtain ⟨p, q⟩ := e; cases p <;> cases q <;> cases inp <;> rfl
  | bitsIn e => obtain ⟨p, q⟩ := e; cases p <;> cases q <;> rfl
  | tms e inp => obtain ⟨p, q⟩ := e; cases p <;> cases q <;> cases inp <;> rfl
  | loopback enable => cases enable <;> rfl
  | divideBy5 enable => cases enable <;> rfl
  | adaptive enable => cases enable <;> rfl
  | _ => rfl

theorem byte_of_ofByte? {b : Byte} {o : Opcode} (h : ofByte? b = some o) : o.byte = b := by
  have hfound := List.find?_some h
  simpa using hfound

end Opcode

/-! ### Commands -/

/-- The data of a byte transfer: one byte at least, and no more than its two length bytes
can count. -/
structure Payload where
  data : List Byte
  pos : 0 < data.length
  le : data.length ≤ 65536

/-- A command. The lengths `n` are as the chip counts them, one less than what is
transferred. -/
inductive Command
  | bytesOut (e : Edges) (inp : Bool) (p : Payload)
  | bytesIn (e : Edges) (n : Fin 65536)
  | bitsOut (e : Edges) (inp : Bool) (n : Fin 8) (data : Byte)
  | bitsIn (e : Edges) (n : Fin 8)
  | tms (e : Edges) (inp : Bool) (n : Fin 7) (data : Byte)
  | setLow (data dir : Byte)
  | setHigh (data dir : Byte)
  | readLow
  | readHigh
  | loopback (enable : Bool)
  | divisor (low high : Byte)
  | sendImmediate
  | divideBy5 (enable : Bool)
  | adaptive (enable : Bool)

namespace Command

def opcode : Command → Opcode
  | bytesOut e inp _ => .bytesOut e inp
  | bytesIn e _ => .bytesIn e
  | bitsOut e inp _ _ => .bitsOut e inp
  | bitsIn e _ => .bitsIn e
  | tms e inp _ _ => .tms e inp
  | setLow .. => .setLow
  | setHigh .. => .setHigh
  | readLow => .readLow
  | readHigh => .readHigh
  | loopback enable => .loopback enable
  | divisor .. => .divisor
  | sendImmediate => .sendImmediate
  | divideBy5 enable => .divideBy5 enable
  | adaptive enable => .adaptive enable

/-- The two length bytes of a byte transfer, low byte first. -/
def lengthBytes (n : ℕ) : List Byte := [BitVec.ofNat 8 (n &&& 0xff), BitVec.ofNat 8 (n >>> 8)]

/-- The bytes after the opcode. -/
def args : Command → List Byte
  | bytesOut _ _ p => lengthBytes (p.data.length - 1) ++ p.data
  | bytesIn _ n => lengthBytes n
  | bitsOut _ _ n data => [BitVec.ofNat 8 n, data]
  | bitsIn _ n => [BitVec.ofNat 8 n]
  | tms _ _ n data => [BitVec.ofNat 8 n, data]
  | setLow data dir => [data, dir]
  | setHigh data dir => [data, dir]
  | divisor low high => [low, high]
  | readLow | readHigh | loopback _ | sendImmediate | divideBy5 _ | adaptive _ => []

/-- The bytes of a command. -/
def encode (k : Command) : List Byte := k.opcode.byte :: k.args

/-- The number two length bytes stand for. -/
def lengthOf (low high : Byte) : ℕ := low.toNat + 256 * high.toNat

theorem lengthOf_lt (low high : Byte) : lengthOf low high < 65536 := by
  have hlow := low.isLt
  have hhigh := high.isLt
  rw [lengthOf]
  omega

/-- The data after the length bytes of a byte transfer. -/
def takePayload (e : Edges) (inp : Bool) (n : Fin 65536) (rest : List Byte) :
    Option (Command × List Byte) :=
  if h : n + 1 ≤ rest.length then
    some (bytesOut e inp ⟨rest.take (n + 1), by
      rw [List.length_take]
      omega, by
      rw [List.length_take]
      omega⟩, rest.drop (n + 1))
  else none

/-- What follows the opcode, read off the front of a list. -/
def decodeArgs : Opcode → List Byte → Option (Command × List Byte)
  | .bytesOut e inp, low :: high :: rest =>
    takePayload e inp ⟨lengthOf low high, lengthOf_lt low high⟩ rest
  | .bytesIn e, low :: high :: rest =>
    some (bytesIn e ⟨lengthOf low high, lengthOf_lt low high⟩, rest)
  | .bitsOut e inp, n :: data :: rest =>
    if h : n.toNat < 8 then some (bitsOut e inp ⟨n.toNat, h⟩ data, rest) else none
  | .bitsIn e, n :: rest => if h : n.toNat < 8 then some (bitsIn e ⟨n.toNat, h⟩, rest) else none
  | .tms e inp, n :: data :: rest =>
    if h : n.toNat < 7 then some (tms e inp ⟨n.toNat, h⟩ data, rest) else none
  | .setLow, data :: dir :: rest => some (setLow data dir, rest)
  | .setHigh, data :: dir :: rest => some (setHigh data dir, rest)
  | .readLow, rest => some (readLow, rest)
  | .readHigh, rest => some (readHigh, rest)
  | .loopback enable, rest => some (loopback enable, rest)
  | .divisor, low :: high :: rest => some (divisor low high, rest)
  | .sendImmediate, rest => some (sendImmediate, rest)
  | .divideBy5 enable, rest => some (divideBy5 enable, rest)
  | .adaptive enable, rest => some (adaptive enable, rest)
  | _, _ => none

/-- The command a list of bytes starts with. -/
def decode? : List Byte → Option (Command × List Byte)
  | [] => none
  | b :: rest => (Opcode.ofByte? b).bind (decodeArgs · rest)

theorem lengthOf_lengthBytes {n : ℕ} (h : n < 65536) :
    lengthOf (BitVec.ofNat 8 (n &&& 0xff)) (BitVec.ofNat 8 (n >>> 8)) = n := by
  have hand : n &&& 0xff = n % 256 := Nat.and_two_pow_sub_one_eq_mod n 8
  rw [lengthOf, BitVec.toNat_ofNat, BitVec.toNat_ofNat, hand, Nat.shiftRight_eq_div_pow]
  omega

theorem lengthBytes_lengthOf (low high : Byte) : lengthBytes (lengthOf low high) = [low, high] := by
  have hlow := low.isLt
  have hhigh := high.isLt
  have hand : lengthOf low high &&& 0xff = lengthOf low high % 256 :=
    Nat.and_two_pow_sub_one_eq_mod _ 8
  have h₁ : BitVec.ofNat 8 (lengthOf low high % 256) = low := by
    refine BitVec.eq_of_toNat_eq ?_
    rw [BitVec.toNat_ofNat, lengthOf]
    omega
  have h₂ : BitVec.ofNat 8 (lengthOf low high / 2 ^ 8) = high := by
    refine BitVec.eq_of_toNat_eq ?_
    rw [BitVec.toNat_ofNat, lengthOf]
    omega
  rw [lengthBytes, hand, Nat.shiftRight_eq_div_pow, h₁, h₂]

/-- A length of a few bits is its own byte. -/
theorem toNat_length {k : ℕ} (hk : k ≤ 256) (n : Fin k) : (BitVec.ofNat 8 n).toNat = n := by
  rw [BitVec.toNat_ofNat, Nat.mod_eq_of_lt (by have := n.isLt; omega)]

/-- **The arguments of a command are read back.** -/
theorem decodeArgs_args (k : Command) (rest : List Byte) :
    decodeArgs k.opcode (k.args ++ rest) = some (k, rest) := by
  cases k with
  | bytesOut e inp p =>
    obtain ⟨data, hpos, hle⟩ := p
    have hn : lengthOf (BitVec.ofNat 8 (data.length - 1 &&& 0xff))
        (BitVec.ofNat 8 ((data.length - 1) >>> 8)) = data.length - 1 :=
      lengthOf_lengthBytes (by omega)
    have hlen : data.length - 1 + 1 = data.length := by omega
    simp only [opcode, args, lengthBytes, List.cons_append, List.nil_append, decodeArgs,
      takePayload, hn, hlen, List.length_append, Nat.le_add_right, dif_pos, List.take_left,
      List.drop_left]
  | bytesIn e n =>
    have hn := lengthOf_lengthBytes n.isLt
    simp only [opcode, args, lengthBytes, List.cons_append, List.nil_append, decodeArgs, hn]
  | bitsOut e inp n data =>
    have hn := toNat_length (by decide) n
    simp only [opcode, args, List.cons_append, List.nil_append, decodeArgs, hn, n.isLt, dif_pos]
  | bitsIn e n =>
    have hn := toNat_length (by decide) n
    simp only [opcode, args, List.cons_append, List.nil_append, decodeArgs, hn, n.isLt, dif_pos]
  | tms e inp n data =>
    have hn := toNat_length (by decide) n
    simp only [opcode, args, List.cons_append, List.nil_append, decodeArgs, hn, n.isLt, dif_pos]
  | _ => rfl

/-- **Nothing else is read as a command.** -/
theorem decodeArgs_sound {o : Opcode} {w rest : List Byte} {k : Command}
    (h : decodeArgs o w = some (k, rest)) : k.opcode = o ∧ w = k.args ++ rest := by
  unfold decodeArgs at h
  split at h
  · -- a byte transfer with data
    rename_i e inp low high tail
    rw [takePayload] at h
    split_ifs at h with hlen
    simp only [Option.some.injEq, Prod.mk.injEq] at h
    obtain ⟨rfl, rfl⟩ := h
    refine ⟨rfl, ?_⟩
    have hmin : (tail.take (lengthOf low high + 1)).length - 1 = lengthOf low high := by
      rw [List.length_take]
      simp only at hlen
      omega
    simp only [args, hmin, lengthBytes_lengthOf, List.cons_append, List.nil_append,
      List.take_append_drop]
  · cases h
    simp only [opcode, args, lengthBytes_lengthOf, List.cons_append, List.nil_append, and_self]
  · split_ifs at h
    cases h
    exact ⟨rfl, by simp [args]⟩
  · split_ifs at h
    cases h
    exact ⟨rfl, by simp [args]⟩
  · split_ifs at h
    cases h
    exact ⟨rfl, by simp [args]⟩
  all_goals cases h
  all_goals exact ⟨rfl, rfl⟩

theorem decode_encode (k : Command) (rest : List Byte) :
    decode? (k.encode ++ rest) = some (k, rest) := by
  rw [encode, List.cons_append, decode?, Opcode.ofByte?_byte]
  exact decodeArgs_args k rest

theorem decode_sound {w rest : List Byte} {k : Command} (h : decode? w = some (k, rest)) :
    w = k.encode ++ rest := by
  rcases w with _ | ⟨b, w⟩
  · cases h
  · rw [decode?, Option.bind_eq_some_iff] at h
    obtain ⟨o, ho, hargs⟩ := h
    obtain ⟨hop, rfl⟩ := decodeArgs_sound hargs
    rw [encode, hop, Opcode.byte_of_ofByte? ho, List.cons_append]

/-- **The commands are a prefix code.** -/
def code : PrefixCode Byte Command where
  encode := encode
  decode? := decode?
  decode_encode := decode_encode
  decode_sound := decode_sound
  encode_ne_nil _ := List.cons_ne_nil _ _

end Command

end JtagHw
