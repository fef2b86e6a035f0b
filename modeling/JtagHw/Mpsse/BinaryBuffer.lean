import JtagHw.Lib.PackedBits

/-!
# Copying bits

`openocd/src/helper/binarybuffer.c` copies runs of bits between byte buffers, at
once (`buf_set_buf`, `bit_copy`) or later (`bit_copy_queued`, and `bit_copy_execute`
when the data is there). A pointer is an offset into the buffer it points into; that
of a queued copy goes into the read buffer of the MPSSE layer, its destination into
the one buffer all queued copies go to.

The whole run has a fast path for whole bytes and a path for single bits; both copy
the bits asked for and no other (`JtagHw.bufSetBuf_bit`).
-/

namespace JtagHw

open PackedBits

variable {m n : ℕ}

/-- The loop `*dst++ = *src++` of `buf_set_buf`. -/
def copyBytes (src : Buf m) : ℕ → ℕ → ℕ → Buf n → Option (Buf n)
  | 0, _, _, dst => some dst
  | lb + 1, sp, dp, dst => do
    let x ← src.load? sp
    let dst' ← dst.store? dp x
    copyBytes src lb (sp + 1) (dp + 1) dst'

/-- The slow bit copy of `buf_set_buf`: `sp` and `dp` are the pointers, `sq` and `dq`
the positions in the bytes they point to. -/
def copyBits (src : Buf m) : ℕ → ℕ → ℕ → ℕ → ℕ → Buf n → Option (Buf n)
  | 0, _, _, _, _, dst => some dst
  | len + 1, sp, sq, dp, dq, dst => do
    let x ← src.load? sp
    let dst' ← dst.modify? dp fun y =>
      if (x >>> sq) &&& 1#8 = 1 then y ||| (1#8 <<< dq) else y &&& ~~~(1#8 <<< dq)
    copyBits src len (if sq = 7 then sp + 1 else sp) (if sq = 7 then 0 else sq + 1)
      (if dq = 7 then dp + 1 else dp) (if dq = 7 then 0 else dq + 1) dst'

/-- `void *buf_set_buf(const void *_src, unsigned src_start, void *_dst, unsigned
dst_start, unsigned len)`. -/
def bufSetBuf (src : Buf m) (srcPtr srcStart : ℕ) (dst : Buf n) (dstPtr dstStart len : ℕ) :
    Option (Buf n) :=
  let sb := srcStart / 8
  let db := dstStart / 8
  let sq := srcStart % 8
  let dq := dstStart % 8
  let lb := len / 8
  let lq := len % 8
  if sq = 0 ∧ dq = 0 ∧ lq = 0 then copyBytes src lb (srcPtr + sb) (dstPtr + db) dst
  else copyBits src len (srcPtr + sb) sq (dstPtr + db) dq dst

/-- `void bit_copy(uint8_t *dst, unsigned dst_offset, const uint8_t *src, unsigned
src_offset, unsigned bit_count)`. -/
def bitCopy (dst : Buf n) (dstPtr dstOffset : ℕ) (src : Buf m) (srcPtr srcOffset bitCount : ℕ) :
    Option (Buf n) :=
  bufSetBuf src srcPtr srcOffset dst dstPtr dstOffset bitCount

/-- `struct bit_copy_queue_entry`. -/
structure BitCopyEntry where
  dstOffset : ℕ
  src : ℕ
  srcOffset : ℕ
  bitCount : ℕ
  deriving DecidableEq

/-- `void bit_copy_execute(struct bit_copy_queue *q)`, for the queue `q` of copies from
the buffer `src` to the buffer `dst`. -/
def bitCopyExecute (src : Buf m) : List BitCopyEntry → Buf n → Option (Buf n)
  | [], dst => some dst
  | qe :: q, dst => do
    let dst' ← bitCopy dst 0 qe.dstOffset src qe.src qe.srcOffset qe.bitCount
    bitCopyExecute src q dst'

/-! ### What is copied -/

/-- `dst'` is `dst` with `len` bits from position `d` on replaced by those of `src` from
position `s` on. -/
def Copied (src : Buf m) (s : ℕ) (dst : Buf n) (d len : ℕ) (dst' : Buf n) : Prop :=
  ∀ j, dst'.bit j = if d ≤ j ∧ j < d + len then src.bit (s + (j - d)) else dst.bit j

theorem Copied.refl (src : Buf m) (s : ℕ) (dst : Buf n) (d : ℕ) : Copied src s dst d 0 dst :=
  fun j => (if_neg (by omega)).symm

/-- One run of bits, then the one right after it. -/
theorem Copied.trans {src : Buf m} {s d k l : ℕ} {dst dst' dst'' : Buf n}
    (h : Copied src s dst d k dst') (h' : Copied src (s + k) dst' (d + k) l dst'') :
    Copied src s dst d (k + l) dst'' := by
  intro j
  rw [h' j, h j]
  by_cases h1 : d + k ≤ j ∧ j < d + k + l
  · rw [if_pos h1, if_pos (by omega)]
    congr 1
    omega
  · rw [if_neg h1]
    by_cases h2 : d ≤ j ∧ j < d + k
    · rw [if_pos h2, if_pos (by omega)]
    · rw [if_neg h2, if_neg (by omega)]

/-- Copying a byte copies its eight bits. -/
theorem copied_byte (src : Buf m) (dst : Buf n) {sp dp : ℕ} (hs : sp < m) (hd : dp < n) :
    ∃ dst', dst.store? dp (src ⟨sp, hs⟩) = some dst' ∧ Copied src (8 * sp) dst (8 * dp) 8 dst' := by
  obtain ⟨dst', hdst, hbit⟩ := dst.modify?_bit (fun _ => src ⟨sp, hs⟩) hd
  refine ⟨dst', hdst, fun j => ?_⟩
  rw [hbit j]
  by_cases hj : j / 8 = dp
  · have hdiv : (8 * sp + (j - 8 * dp)) / 8 = sp := by omega
    have hmod : (8 * sp + (j - 8 * dp)) % 8 = j % 8 := by omega
    have hload : src.load? ((8 * sp + (j - 8 * dp)) / 8) = some (src ⟨sp, hs⟩) := by
      rw [hdiv]
      exact src.load?_of_lt hs
    rw [if_pos hj, if_pos (by omega), Buf.bit_of_load? hload, hmod]
  · rw [if_neg hj, if_neg (by omega)]

theorem copyBytes_bit (src : Buf m) : ∀ (lb sp dp : ℕ) (dst : Buf n), sp + lb ≤ m → dp + lb ≤ n →
    ∃ dst', copyBytes src lb sp dp dst = some dst' ∧
      Copied src (8 * sp) dst (8 * dp) (8 * lb) dst'
  | 0, sp, dp, dst, _, _ => ⟨dst, rfl, Copied.refl _ _ _ _⟩
  | lb + 1, sp, dp, dst, hs, hd => by
    obtain ⟨dst₁, h₁, hcopy₁⟩ := copied_byte src dst (show sp < m by omega)
      (show dp < n by omega)
    obtain ⟨dst₂, h₂, hcopy₂⟩ := copyBytes_bit src lb (sp + 1) (dp + 1) dst₁ (by omega) (by omega)
    refine ⟨dst₂, ?_, ?_⟩
    · rw [copyBytes, src.load?_of_lt (show sp < m by omega)]
      change (dst.store? dp _).bind _ = _
      rw [h₁]
      exact h₂
    · rw [show 8 * (lb + 1) = 8 + 8 * lb by omega]
      exact hcopy₁.trans hcopy₂

/-- Copying one bit. -/
theorem copied_bit {src : Buf m} (dst : Buf n) {sp sq dp dq : ℕ} {x : Byte}
    (hx : src.load? sp = some x) (hsq : sq < 8) (hdq : dq < 8) (hd : dp < n) :
    ∃ dst', (dst.modify? dp fun y =>
        if (x >>> sq) &&& 1#8 = 1 then y ||| (1#8 <<< dq) else y &&& ~~~(1#8 <<< dq)) = some dst' ∧
      Copied src (8 * sp + sq) dst (8 * dp + dq) 1 dst' := by
  have hdiv : (8 * dp + dq) / 8 = dp := by omega
  have hmod : (8 * dp + dq) % 8 = dq := by omega
  have hsdiv : (8 * sp + sq) / 8 = sp := by omega
  have hsmod : (8 * sp + sq) % 8 = sq := by omega
  have hsrc : src.bit (8 * sp + sq) = x.getLsbD sq := by
    rw [Buf.bit_of_load? (x := x) (by rw [hsdiv]; exact hx), hsmod]
  obtain ⟨dst', hdst, hbit⟩ := dst.bit_setAt (k := 8 * dp + dq) (x.getLsbD sq) (by rwa [hdiv])
  refine ⟨dst', ?_, fun j => ?_⟩
  · rw [Buf.setAt, hdiv, hmod] at hdst
    rw [← hdst, shiftRight_and_one]
    congr 1
    funext y
    cases x.getLsbD sq <;> rfl
  · rw [hbit j]
    by_cases hj : j = 8 * dp + dq
    · rw [if_pos hj, if_pos (by omega), hj, Nat.sub_self, Nat.add_zero, hsrc]
    · rw [if_neg hj, if_neg (by omega)]

theorem copyBits_bit (src : Buf m) : ∀ (len sp sq dp dq : ℕ) (dst : Buf n), sq < 8 → dq < 8 →
    8 * sp + sq + len ≤ 8 * m → 8 * dp + dq + len ≤ 8 * n →
    ∃ dst', copyBits src len sp sq dp dq dst = some dst' ∧
      Copied src (8 * sp + sq) dst (8 * dp + dq) len dst'
  | 0, sp, sq, dp, dq, dst, _, _, _, _ => ⟨dst, rfl, Copied.refl _ _ _ _⟩
  | len + 1, sp, sq, dp, dq, dst, hsq, hdq, hs, hd => by
    have hload := src.load?_of_lt (show sp < m by omega)
    obtain ⟨dst₁, h₁, hcopy₁⟩ := copied_bit dst hload hsq hdq (show dp < n by omega)
    -- the pointers after the step point to the next bit
    have hsnext : 8 * (if sq = 7 then sp + 1 else sp) + (if sq = 7 then 0 else sq + 1) =
        8 * sp + sq + 1 := by split_ifs <;> omega
    have hdnext : 8 * (if dq = 7 then dp + 1 else dp) + (if dq = 7 then 0 else dq + 1) =
        8 * dp + dq + 1 := by split_ifs <;> omega
    obtain ⟨dst₂, h₂, hcopy₂⟩ := copyBits_bit src len _ _ _ _ dst₁
      (show (if sq = 7 then 0 else sq + 1) < 8 by split_ifs <;> omega)
      (show (if dq = 7 then 0 else dq + 1) < 8 by split_ifs <;> omega)
      (show 8 * (if sq = 7 then sp + 1 else sp) + _ + len ≤ 8 * m by rw [hsnext]; omega)
      (show 8 * (if dq = 7 then dp + 1 else dp) + _ + len ≤ 8 * n by rw [hdnext]; omega)
    refine ⟨dst₂, ?_, ?_⟩
    · rw [copyBits, hload]
      change (dst.modify? dp _).bind _ = _
      rw [h₁]
      exact h₂
    · rw [hsnext, hdnext] at hcopy₂
      rw [Nat.add_comm len 1]
      exact hcopy₁.trans hcopy₂

/-- **`buf_set_buf` copies the bits asked for and no other**, whichever path it
takes. -/
theorem bufSetBuf_bit (src : Buf m) (srcPtr srcStart : ℕ) (dst : Buf n) (dstPtr dstStart len : ℕ)
    (hs : 8 * srcPtr + srcStart + len ≤ 8 * m) (hd : 8 * dstPtr + dstStart + len ≤ 8 * n) :
    ∃ dst', bufSetBuf src srcPtr srcStart dst dstPtr dstStart len = some dst' ∧
      Copied src (8 * srcPtr + srcStart) dst (8 * dstPtr + dstStart) len dst' := by
  have hspos : 8 * (srcPtr + srcStart / 8) + srcStart % 8 = 8 * srcPtr + srcStart := by omega
  have hdpos : 8 * (dstPtr + dstStart / 8) + dstStart % 8 = 8 * dstPtr + dstStart := by omega
  rw [bufSetBuf]
  split_ifs with hfast
  · obtain ⟨hsq, hdq, hlq⟩ := hfast
    obtain ⟨dst', hok, hcopy⟩ := copyBytes_bit src (len / 8) (srcPtr + srcStart / 8)
      (dstPtr + dstStart / 8) dst (by omega) (by omega)
    have hlen : 8 * (len / 8) = len := by omega
    rw [hlen, ← Nat.add_zero (8 * (srcPtr + _)), ← Nat.add_zero (8 * (dstPtr + _)), ← hsq,
      hspos, hsq, ← hdq, hdpos] at hcopy
    exact ⟨dst', hok, hcopy⟩
  · obtain ⟨dst', hok, hcopy⟩ := copyBits_bit src len (srcPtr + srcStart / 8) (srcStart % 8)
      (dstPtr + dstStart / 8) (dstStart % 8) dst (by omega) (by omega) (by omega) (by omega)
    rw [hspos, hdpos] at hcopy
    exact ⟨dst', hok, hcopy⟩

/-! ### Executing a queue of copies -/

theorem bitCopyExecute_append (src : Buf m) (q q' : List BitCopyEntry) (dst : Buf n) :
    bitCopyExecute src (q ++ q') dst = (bitCopyExecute src q dst).bind (bitCopyExecute src q') := by
  induction q generalizing dst with
  | nil => rfl
  | cons qe q ih =>
    rw [List.cons_append, bitCopyExecute, bitCopyExecute]
    change (bitCopy dst 0 _ src _ _ _).bind _ = ((bitCopy dst 0 _ src _ _ _).bind _).bind _
    rw [Option.bind_assoc]
    exact congrArg _ (funext fun dst' => ih dst')

/-- The queue of copies that takes one bit, at position `off`, out of each of `len` bytes
and lays the bits out from position `k` on. -/
def gather (k off len : ℕ) : List BitCopyEntry :=
  (List.range len).map fun i => ⟨k + i, i, off, 1⟩

theorem gather_succ (k off len : ℕ) :
    gather k off (len + 1) = gather k off len ++ [⟨k + len, len, off, 1⟩] := by
  rw [gather, List.range_succ, List.map_append]
  rfl

/-- **Executing such a queue.** -/
theorem execute_gather (src : Buf m) {k off : ℕ} (hoff : off < 8) (dst : Buf n) :
    ∀ len, len ≤ m → k + len ≤ 8 * n →
      ∃ dst', bitCopyExecute src (gather k off len) dst = some dst' ∧
        ∀ j, dst'.bit j =
          if k ≤ j ∧ j < k + len then src.bit (8 * (j - k) + off) else dst.bit j
  | 0, _, _ => ⟨dst, rfl, fun j => (if_neg (by omega)).symm⟩
  | len + 1, hm, hn => by
    obtain ⟨dst₁, h₁, hbit₁⟩ := execute_gather src (k := k) hoff dst len (by omega) (by omega)
    obtain ⟨dst₂, h₂, hcopy⟩ := bufSetBuf_bit src len off dst₁ 0 (k + len) 1 (by omega) (by omega)
    refine ⟨dst₂, ?_, fun j => ?_⟩
    · rw [gather_succ, bitCopyExecute_append, h₁]
      change (bufSetBuf src len off dst₁ 0 (k + len) 1).bind _ = _
      rw [h₂]
      rfl
    · rw [hcopy j, hbit₁ j]
      by_cases hj : j = k + len
      · rw [if_pos (by omega), if_pos (by omega)]
        congr 1
        omega
      · rw [if_neg (by omega)]
        by_cases hlt : k ≤ j ∧ j < k + len
        · rw [if_pos hlt, if_pos (by omega)]
        · rw [if_neg hlt, if_neg (by omega)]

end JtagHw
