import JtagHw.Chip

/-!
# The two ways to queue bits

`clock_raw` and `clock_multiple` differ in where they take TDI from, and a client may cut
what it has to clock into calls as it likes. None of that is to be seen in the queue: a call
whose words are bits appends the pairs it denotes, a queue in order is known by its
pairs (`JtagHw.Queue.Wf.ext`), and so calls that denote the same pairs leave the same
bytes (`JtagHw.ClockCall.execAll_eq_of_bits_eq`), at whatever alignment they begin. That
one call is another, or two others one after the other, is then an equation of lists.
-/

namespace JtagHw

open PackedBits

namespace ClockCall

/-- **Calls that denote the same bits leave the same queue.** -/
theorem execAll_eq_of_bits_eq {cs cs' : List ClockCall} {q : Queue} (hq : q.Wf)
    (hcs : ∀ c ∈ cs, c.IsBits) (hcs' : ∀ c ∈ cs', c.IsBits) (hfit : q.count + total cs ≤ capacity)
    (hbits : cs.flatMap bits = cs'.flatMap bits) :
    ∃ q', execAll cs q = .ok q' ∧ execAll cs' q = .ok q' ∧ q'.Wf ∧
      q'.bits = q.bits ++ cs.flatMap bits := by
  have hfit' : q.count + total cs' ≤ capacity := by
    rwa [← length_flatMap_bits, ← hbits, length_flatMap_bits]
  obtain ⟨q₁, hok, hwf, hq₁⟩ := execAll_append hcs hq hfit
  obtain ⟨q₂, hok', hwf', hq₂⟩ := execAll_append hcs' hq hfit'
  obtain rfl : q₁ = q₂ := hwf.ext hwf' (by rw [hq₁, hq₂, hbits])
  exact ⟨q₁, hok, hok', hwf, hq₁⟩

theorem execAll_singleton (c : ClockCall) (q : Queue) : execAll [c] q = c.exec q := by
  rw [execAll]
  cases c.exec q <;> rfl

/-- **One call in place of a sequence** that denotes the same bits. -/
theorem exec_eq_execAll {c : ClockCall} {cs : List ClockCall} {q : Queue} (hq : q.Wf)
    (hc : c.IsBits) (hcs : ∀ c' ∈ cs, c'.IsBits) (hfit : q.count + c.len ≤ capacity)
    (hbits : c.bits = cs.flatMap bits) : c.exec q = execAll cs q := by
  obtain ⟨q', hok, hok', -⟩ := execAll_eq_of_bits_eq hq (List.forall_mem_singleton.mpr hc) hcs
    (by simpa using hfit) (by simpa using hbits)
  rw [← execAll_singleton, hok, hok']

/-! ### The same bits -/

/-- `clock_multiple` with a pattern that is constant up to the length. -/
theorem bits_multiple_of_const {tms tdi : BitVec 32} {len : BitVec 64} {pBits : ℕ → Byte}
    (h : ∀ i < len.toNat, (pBits (i / 8)).getLsbD (i % 8) = tdi.getLsbD 0) :
    (multiple tms pBits len).bits = (raw tms tdi len).bits :=
  List.map_congr_left fun i hi => congrArg (Prod.mk _) (h i (List.mem_range.mp hi))

/-- `clock_multiple` does not look at the bits past the length. -/
theorem bits_multiple_congr {tms : BitVec 32} {len : BitVec 64} {pBits pBits' : ℕ → Byte}
    (h : ∀ i < len.toNat,
      (pBits' (i / 8)).getLsbD (i % 8) = (pBits (i / 8)).getLsbD (i % 8)) :
    (multiple tms pBits' len).bits = (multiple tms pBits len).bits :=
  List.map_congr_left fun i hi => congrArg (Prod.mk _) (h i (List.mem_range.mp hi))

/-- Lengths that fit into the queue do not wrap when they are added. -/
theorem toNat_add_of_fits {n : ℕ} {a b : BitVec 64} (h : n + (a.toNat + b.toNat) ≤ capacity) :
    (a + b).toNat = a.toNat + b.toNat := by
  rw [capacity_eq] at h
  rw [BitVec.toNat_add, Nat.mod_eq_of_lt (by omega)]

/-- A call cut in two, the second part denoting what is left. -/
theorem bits_append_of_split {c c₁ c₂ : ClockCall} (hlen : c.len = c₁.len + c₂.len)
    (htms₁ : c₁.tms = c.tms) (htms₂ : c₂.tms = c.tms)
    (h₁ : ∀ i < c₁.len, c₁.tdiBit i = c.tdiBit i)
    (h₂ : ∀ i < c₂.len, c₂.tdiBit i = c.tdiBit (c₁.len + i)) : c₁.bits ++ c₂.bits = c.bits := by
  rw [bits, bits, bits, hlen, List.range_add, List.map_append, List.map_map, htms₁, htms₂]
  congr 1
  · exact List.map_congr_left fun i hi => congrArg (Prod.mk _) (h₁ i (List.mem_range.mp hi))
  · exact List.map_congr_left fun i hi => congrArg (Prod.mk _) (h₂ i (List.mem_range.mp hi))

end ClockCall

namespace Plugin

/-- The clock calls leave the queue `q`, and nothing else is changed. -/
def Queues {δ : Type} (transmit : Plugin δ → Except Fault (Transmitted δ)) (s : Plugin δ)
    (cs : List ClockCall) (q : Queue) : Prop :=
  ∃ outs, run transmit s (cs.map .clock) = .ok ({ s with queue := q }, outs)

end Plugin

/-- **The two ways to queue bits agree.** Take a queue in order, and calls whose words are
bits and that fit.

* Two sequences of calls that denote the same pairs leave the same queue, in both plugins;
  the bits queued earlier are unchanged, and the positions past the new count zero.
* `clock_raw` does what `clock_multiple` does with a constant pattern.
* A call of length `a + b` does what the calls for its first `a` bits and for the others do,
  one after the other.
* The bits of `p_bits` past the length have no effect. -/
theorem queue_calls_agree {q : Queue} (hq : q.Wf) :
    (∀ cs cs' : List ClockCall, (∀ c ∈ cs, c.IsBits) → (∀ c ∈ cs', c.IsBits) →
      q.count + ClockCall.total cs ≤ capacity →
      cs.flatMap ClockCall.bits = cs'.flatMap ClockCall.bits →
      ∃ q', ClockCall.execAll cs q = .ok q' ∧ ClockCall.execAll cs' q = .ok q' ∧
        q'.bits = q.bits ++ cs.flatMap ClockCall.bits ∧
        (∀ j < q.count, q'.bitAt j = q.bitAt j) ∧ (∀ j, q'.count ≤ j → q'.bitAt j = ⊥) ∧
        (∀ s : Dummy.State, s.queue = q →
          Plugin.Queues Dummy.transmit s cs q' ∧ Plugin.Queues Dummy.transmit s cs' q') ∧
        ∀ (δ : Type) (L : UsbLink δ) (s : Otma.State δ), s.queue = q →
          Plugin.Queues (Otma.transmit L) s cs q' ∧ Plugin.Queues (Otma.transmit L) s cs' q') ∧
    (∀ (tms tdi : BitVec 32) (len : BitVec 64) (pBits : ℕ → Byte),
      (ClockCall.raw tms tdi len).IsBits → q.count + len.toNat ≤ capacity →
      (∀ i < len.toNat, (pBits (i / 8)).getLsbD (i % 8) = tdi.getLsbD 0) →
      Queue.clockRaw tms tdi len q = Queue.clockMultiple tms pBits len q) ∧
    (∀ (tms tdi : BitVec 32) (a b : BitVec 64), (ClockCall.raw tms tdi a).IsBits →
      q.count + (a.toNat + b.toNat) ≤ capacity →
      Queue.clockRaw tms tdi (a + b) q =
        ClockCall.execAll [.raw tms tdi a, .raw tms tdi b] q) ∧
    (∀ (tms : BitVec 32) (a b : BitVec 64) (pBits pBits' : ℕ → Byte), (tms = 0 ∨ tms = 1) →
      q.count + (a.toNat + b.toNat) ≤ capacity →
      (∀ i < b.toNat, (pBits' (i / 8)).getLsbD (i % 8) =
        (pBits ((a.toNat + i) / 8)).getLsbD ((a.toNat + i) % 8)) →
      Queue.clockMultiple tms pBits (a + b) q =
        ClockCall.execAll [.multiple tms pBits a, .multiple tms pBits' b] q) ∧
    ∀ (tms : BitVec 32) (len : BitVec 64) (pBits pBits' : ℕ → Byte), (tms = 0 ∨ tms = 1) →
      q.count + len.toNat ≤ capacity →
      (∀ i < len.toNat, (pBits' (i / 8)).getLsbD (i % 8) = (pBits (i / 8)).getLsbD (i % 8)) →
      Queue.clockMultiple tms pBits' len q = Queue.clockMultiple tms pBits len q := by
  refine ⟨fun cs cs' hcs hcs' hfit hbits => ?_, fun tms tdi len pBits hw hfit hp => ?_,
    fun tms tdi a b hw hfit => ?_, fun tms a b pBits pBits' hw hfit hp => ?_,
    fun tms len pBits pBits' hw hfit hp => ?_⟩
  · obtain ⟨q', hok, hok', hwf, hq'⟩ := ClockCall.execAll_eq_of_bits_eq hq hcs hcs' hfit hbits
    refine ⟨q', hok, hok', hq', fun j hj => Queue.bitAt_of_bits_append hq' hj, hwf.zero_past,
      ?_, ?_⟩
    · rintro s rfl
      exact ⟨⟨_, Plugin.run_of_execAll hok⟩, ⟨_, Plugin.run_of_execAll hok'⟩⟩
    · rintro δ L s rfl
      exact ⟨⟨_, Plugin.run_of_execAll hok⟩, ⟨_, Plugin.run_of_execAll hok'⟩⟩
  · have h : (ClockCall.raw tms tdi len).exec q = ClockCall.execAll [.multiple tms pBits len] q :=
      ClockCall.exec_eq_execAll hq hw (List.forall_mem_singleton.mpr hw.1) hfit
        (by simpa using (ClockCall.bits_multiple_of_const hp).symm)
    rwa [ClockCall.execAll_singleton] at h
  · have hlen : (ClockCall.raw tms tdi (a + b)).len = a.toNat + b.toNat :=
      ClockCall.toNat_add_of_fits hfit
    have hbits : (ClockCall.raw tms tdi a).bits ++ (ClockCall.raw tms tdi b).bits =
        (ClockCall.raw tms tdi (a + b)).bits :=
      ClockCall.bits_append_of_split hlen rfl rfl (fun _ _ => rfl) fun _ _ => rfl
    exact ClockCall.exec_eq_execAll (c := .raw tms tdi (a + b)) hq hw
      (List.forall_mem_cons.mpr ⟨hw, List.forall_mem_singleton.mpr hw⟩) (hlen ▸ hfit)
      (by simpa using hbits.symm)
  · have hlen : (ClockCall.multiple tms pBits (a + b)).len = a.toNat + b.toNat :=
      ClockCall.toNat_add_of_fits hfit
    have hbits : (ClockCall.multiple tms pBits a).bits ++ (ClockCall.multiple tms pBits' b).bits =
        (ClockCall.multiple tms pBits (a + b)).bits :=
      ClockCall.bits_append_of_split hlen rfl rfl (fun _ _ => rfl) hp
    exact ClockCall.exec_eq_execAll (c := .multiple tms pBits (a + b)) hq hw
      (List.forall_mem_cons.mpr ⟨hw, List.forall_mem_singleton.mpr hw⟩) (hlen ▸ hfit)
      (by simpa using hbits.symm)
  · have h : (ClockCall.multiple tms pBits' len).exec q =
        ClockCall.execAll [.multiple tms pBits len] q :=
      ClockCall.exec_eq_execAll hq hw (List.forall_mem_singleton.mpr hw) hfit
        (by simpa using ClockCall.bits_multiple_congr hp)
    rwa [ClockCall.execAll_singleton] at h

/-- Thirteen clocks, cut at the third one and at the fifth one. -/
theorem queue_calls_agree_thirteen :
    (∃ q', ClockCall.execAll [.raw 0 1 13] .empty = .ok q' ∧
      ClockCall.execAll [.multiple 0 (fun _ => 0xFF) 3, .raw 0 1 10] .empty = .ok q') ∧
    Queue.clockRaw 1 0 5 .empty = Queue.clockMultiple 1 (fun _ => 0) 5 .empty ∧
    Queue.clockRaw 1 0 (5 + 8) .empty = ClockCall.execAll [.raw 1 0 5, .raw 1 0 8] .empty ∧
    Queue.clockMultiple 0 (fun _ => 0xAA) (5 + 8) .empty =
      ClockCall.execAll [.multiple 0 (fun _ => 0xAA) 5, .multiple 0 (fun _ => 0x55) 8] .empty ∧
    Queue.clockMultiple 0 (fun _ => 0xFF) 3 .empty =
      Queue.clockMultiple 0 (fun _ => 0x07) 3 .empty := by
  obtain ⟨hseq, hraw, hsplit, hmultiple, hpast⟩ := queue_calls_agree Queue.wf_empty
  refine ⟨?_, hraw 1 0 5 _ (by decide) (by decide +kernel) (by decide),
    hsplit 1 0 5 8 (by decide) (by decide +kernel),
    hmultiple 0 5 8 _ _ (by decide) (by decide +kernel) (by decide),
    hpast 0 3 _ _ (by decide) (by decide +kernel) (by decide)⟩
  obtain ⟨q', hok, hok', -⟩ := hseq [.raw 0 1 13] [.multiple 0 (fun _ => 0xFF) 3, .raw 0 1 10]
    (by decide) (by decide) (by decide +kernel) (by decide)
  exact ⟨q', hok, hok'⟩

end JtagHw
