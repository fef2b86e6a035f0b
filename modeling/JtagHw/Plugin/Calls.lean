import JtagHw.Lib.Fallible
import JtagHw.Plugin.Queue

/-!
# The calls of the host

What the two plugins share beyond the queue: the globals
(`JtagHw.Plugin`), the calls of the host that act on them (`JtagHw.HostCall`), and
the callbacks they make (`JtagHw.Callback`). The two files are the same text here
too, up to the one thing they differ in, the loop of `do_flush` that clocks the
queued bits into the device. `JtagHw.Plugin.doFlush` has that loop as its parameter
`transmit`, and the state of the device is the type parameter `δ`.

A callback hands control to the host, which may queue more bits before it returns;
what it does is part of the call (`JtagHw.Reentry`). The length and the buffers of
the queue are reset between the two callbacks.
-/

namespace JtagHw

open PackedBits

/-- A pointer; `0` is `NULL`. -/
abbrev Ptr := BitVec 64

/-- The two entries of `struct server_ops_t` that the plugins call. -/
structure ServerOps where
  pOpStoreTdo : Ptr
  pOpIndicateFlush : Ptr
  deriving DecidableEq

/-- The globals of a plugin, and its device. -/
structure Plugin (δ : Type*) where
  serverOps : ServerOps
  serverOpsData : Ptr
  queue : Queue
  tdoData : Buf dataSizeBytes
  tdoDataCount : BitVec 32
  dev : δ

/-- A call of a function of the host, with its arguments; for the buffer of
`p_op_store_tdo` what it holds at that moment. -/
inductive Callback
  | storeTdo (fn arg1 : Ptr) (buf : Buf dataSizeBytes) (count : BitVec 32)
  | indicateFlush (fn param1 : Ptr)

/-- What the host does in the two callbacks of a `do_flush`, as far as the queue is
concerned. -/
structure Reentry where
  atStore : List ClockCall
  atIndicate : List ClockCall

/-- Callbacks that do not call back into the plugin. -/
def Reentry.silent : Reentry := ⟨[], []⟩

/-- What a call shows to the outside. -/
structure Out where
  /-- The value returned; nothing for a `void` function. -/
  ret : Option (BitVec 64)
  /-- The pairs (TMS, TDI) handed to the device, in order: the controller of the dummy plugin is
  clocked with them, and the hardware plugin passes them to `mpsse_clock_tms_cs`. -/
  clocked : List (Bool × Bool)
  /-- The calls of the host's functions, in order. -/
  callbacks : List Callback

/-- What the loop of `do_flush` leaves behind. -/
structure Transmitted (δ : Type*) where
  tdoData : Buf dataSizeBytes
  tdoDataCount : BitVec 32
  dev : δ
  clocked : List (Bool × Bool)

/-- The calls of the host. -/
inductive HostCall
  | clock (c : ClockCall)
  | flush (re : Reentry)
  | initDev (desc : String) (sServerOps : ServerOps) (parent : Ptr)
  | doClose

/-! ### Several clock calls -/

namespace ClockCall

/-- Clock calls one after the other. -/
def execAll : List ClockCall → Queue → Except Fault Queue
  | [], q => .ok q
  | c :: cs, q =>
    match c.exec q with
    | .ok q' => execAll cs q'
    | .error e => .error e

/-- The value returned: `clock_raw` is `void`, `clock_multiple` returns `0`. -/
def ret : ClockCall → Option (BitVec 64)
  | raw .. => none
  | multiple .. => some 0

/-- The number of bits clock calls queue. -/
def total (cs : List ClockCall) : ℕ := (cs.map len).sum

@[simp] theorem total_nil : total [] = 0 := rfl

@[simp] theorem total_cons (c : ClockCall) (cs : List ClockCall) :
    total (c :: cs) = c.len + total cs := by
  simp [total]

/-- The bits denoted are as many as the lengths say. -/
theorem length_flatMap_bits (cs : List ClockCall) : (cs.flatMap bits).length = total cs := by
  rw [List.length_flatMap, total]
  simp only [length_bits]

theorem execAll_ok (cs : List ClockCall) {q : Queue} (h : q.count + total cs ≤ capacity) :
    ∃ q', execAll cs q = .ok q' ∧ q'.count = q.count + total cs := by
  induction cs generalizing q with
  | nil => exact ⟨q, rfl, by simp⟩
  | cons c cs ih =>
    rw [total_cons] at h
    obtain ⟨q₁, hok, hcount⟩ := c.exec_ok (q := q) (by omega)
    obtain ⟨q₂, hall, hcount₂⟩ := ih (q := q₁) (by omega)
    refine ⟨q₂, ?_, by rw [hcount₂, hcount, total_cons, Nat.add_assoc]⟩
    rw [execAll, hok]
    exact hall

theorem execAll_overflow (cs : List ClockCall) {q : Queue} (hq : q.count ≤ capacity)
    (h : capacity < q.count + total cs) : execAll cs q = .error .outOfBounds := by
  induction cs generalizing q with
  | nil =>
    rw [total_nil] at h
    omega
  | cons c cs ih =>
    rw [total_cons] at h
    rw [execAll]
    rcases le_or_gt (q.count + c.len) capacity with hfit | hover
    · obtain ⟨q₁, hok, hcount⟩ := c.exec_ok hfit
      rw [hok]
      exact ih (by omega) (by omega)
    · rw [c.exec_overflow hq hover]

/-- Clock calls that end have fit. -/
theorem execAll_inv {cs : List ClockCall} {q q' : Queue} (hq : q.count ≤ capacity)
    (h : execAll cs q = .ok q') :
    q'.count = q.count + total cs ∧ q.count + total cs ≤ capacity := by
  have hfit : q.count + total cs ≤ capacity := by
    by_contra hover
    rw [execAll_overflow cs hq (by omega)] at h
    cases h
  obtain ⟨q'', hok, hcount⟩ := execAll_ok cs hfit
  rw [hok] at h
  cases h
  exact ⟨hcount, hfit⟩

/-- There is one way only in which clock calls fault. -/
theorem execAll_error {cs : List ClockCall} {q : Queue} (hq : q.count ≤ capacity) {e : Fault}
    (h : execAll cs q = .error e) : e = .outOfBounds := by
  rcases le_or_gt (q.count + total cs) capacity with hfit | hover
  · obtain ⟨q', hok, -⟩ := execAll_ok cs hfit
    cases hok.symm.trans h
  · cases (execAll_overflow cs hq hover).symm.trans h
    rfl

/-- Clock calls whose words are bits append them. -/
theorem execAll_append {cs : List ClockCall} (hcs : ∀ c ∈ cs, c.IsBits) {q : Queue} (hq : q.Wf)
    (h : q.count + total cs ≤ capacity) :
    ∃ q', execAll cs q = .ok q' ∧ q'.Wf ∧ q'.bits = q.bits ++ cs.flatMap bits := by
  induction cs generalizing q with
  | nil => exact ⟨q, rfl, hq, by simp⟩
  | cons c cs ih =>
    rw [total_cons] at h
    obtain ⟨q₁, hok, happ⟩ := exec_appends (hcs c (List.mem_cons_self ..)) (q := q) (by omega)
    have hcount : q₁.count = q.count + c.len := by rw [happ.count_eq, length_bits]
    have hwf : q₁.Wf := hq.append happ (by rw [length_bits]; omega)
    obtain ⟨q₂, hall, hwf₂, hbits⟩ := ih (fun c hc => hcs c (List.mem_cons_of_mem _ hc)) hwf
      (by omega)
    refine ⟨q₂, ?_, hwf₂, by rw [hbits, hq.bits_append happ, List.flatMap_cons, List.append_assoc]⟩
    rw [execAll, hok]
    exact hall

end ClockCall

/-! ### What a sequence of calls asks for -/

namespace HostCall

/-- A clock call whose words are bits, or a `do_flush` whose callbacks do not call
back. -/
def Plain : HostCall → Prop
  | clock c => c.IsBits
  | flush re => re = .silent
  | initDev .. => False
  | doClose => False

/-- Starting with `n` bits queued, there is room for those of every clock call, the
ones of the callbacks included: the two callbacks of a flush find the queue as it
was before the flush, and empty. -/
def Fits : ℕ → List HostCall → Prop
  | _, [] => True
  | n, clock c :: calls => n + c.len ≤ capacity ∧ Fits (n + c.len) calls
  | n, flush re :: calls =>
    n + ClockCall.total re.atStore ≤ capacity ∧ ClockCall.total re.atIndicate ≤ capacity ∧
      Fits (ClockCall.total re.atIndicate) calls
  | n, initDev .. :: calls => Fits n calls
  | n, doClose :: calls => Fits n calls

/-- Clock calls whose words are bits, and a flush. -/
theorem plain_clocks {cs : List ClockCall} (hcs : ∀ c ∈ cs, c.IsBits) :
    ∀ call ∈ cs.map clock ++ [flush .silent], call.Plain := by
  intro call hcall
  rw [List.mem_append, List.mem_map, List.mem_singleton] at hcall
  rcases hcall with ⟨c, hc, rfl⟩ | rfl
  · exact hcs c hc
  · rfl

/-- They fit if there is room for all of them. -/
theorem fits_clocks : ∀ (cs : List ClockCall) {n : ℕ}, n + ClockCall.total cs ≤ capacity →
    Fits n (cs.map clock ++ [flush .silent])
  | [], _, h => ⟨h, Nat.zero_le _, trivial⟩
  | c :: cs, n, h => by
    rw [ClockCall.total_cons, ← Nat.add_assoc] at h
    exact ⟨(Nat.le_add_right ..).trans h, fits_clocks cs h⟩

end HostCall

/-- `init_dev` accepts these arguments. -/
def Accepts (desc : String) (parent : Ptr) : Prop := parent ≠ 0 ∧ desc = "bus-instance"

instance (desc : String) (parent : Ptr) : Decidable (Accepts desc parent) :=
  inferInstanceAs (Decidable (_ ∧ _))

/-- The TDO bits a callback is handed. -/
def Callback.delivered : Callback → List Bool
  | storeTdo _ _ buf count => (List.range count.toNat).map buf.bit
  | indicateFlush .. => []

/-- The TDO bits the host is handed in a call. -/
def Out.delivered (out : Out) : List Bool := out.callbacks.flatMap Callback.delivered

namespace Plugin

/-! ### The functions -/

variable {δ : Type*}

/-- The counts are zeroed and the three buffers cleared. -/
def clear (s : Plugin δ) : Plugin δ :=
  { s with queue := .empty, tdoData := .zero, tdoDataCount := 0 }

/-- A call of a function of the host through the pointer `fn`. -/
def callback (fn : Ptr) (calls : List ClockCall) (s : Plugin δ) : Except Fault (Plugin δ) :=
  if fn = 0 then .error .nullCallback
  else
    match ClockCall.execAll calls s.queue with
    | .ok q => .ok { s with queue := q }
    | .error e => .error e

/-- `int64_t do_flush(void *, int, uint32_t)`, around its loop. -/
def doFlush (transmit : Plugin δ → Except Fault (Transmitted δ)) (re : Reentry) (s : Plugin δ) :
    Except Fault (Plugin δ × Out) := do
  let t ← transmit s
  let s₁ := { s with tdoData := t.tdoData, tdoDataCount := t.tdoDataCount, dev := t.dev }
  let s₂ ← s₁.callback s₁.serverOps.pOpStoreTdo re.atStore
  let s₃ := s₂.clear
  let s₄ ← s₃.callback s₃.serverOps.pOpIndicateFlush re.atIndicate
  return (s₄,
    { ret := some 1
      clocked := t.clocked
      callbacks :=
        [.storeTdo s₁.serverOps.pOpStoreTdo s₁.serverOpsData s₁.tdoData s₁.tdoDataCount,
          .indicateFlush s₃.serverOps.pOpIndicateFlush s₃.serverOpsData] })

/-- `int64_t init_dev(void **, const char *desc, struct server_ops_t *s_server_ops,
void *parent)`: it returns `1` when it refuses, and `1` when it does not. -/
def initDev (desc : String) (sServerOps : ServerOps) (parent : Ptr) (s : Plugin δ) :
    Plugin δ × BitVec 64 :=
  if parent = 0 then (s, 1)
  else if desc ≠ "bus-instance" then (s, 1)
  else ({ s with serverOps := sServerOps, serverOpsData := parent }, 1)

/-- `void do_close(void *)`: nothing but a debug message. -/
def doClose (s : Plugin δ) : Plugin δ := s

/-- One call of the host. -/
def step (transmit : Plugin δ → Except Fault (Transmitted δ)) (s : Plugin δ) :
    HostCall → Except Fault (Plugin δ × Out)
  | .clock c =>
    match c.exec s.queue with
    | .ok q =>
      .ok ({ s with queue := q }, ⟨c.ret, [], []⟩)
    | .error e => .error e
  | .flush re => doFlush transmit re s
  | .initDev desc sServerOps parent =>
    .ok ((s.initDev desc sServerOps parent).1, ⟨some (s.initDev desc sServerOps parent).2, [], []⟩)
  | .doClose => .ok (s.doClose, ⟨none, [], []⟩)

/-- A sequence of calls. -/
abbrev run (transmit : Plugin δ → Except Fault (Transmitted δ)) (s : Plugin δ)
    (calls : List HostCall) : Except Fault (Plugin δ × List Out) :=
  Fallible.run (step transmit) s calls

/-- The host has installed its callbacks. -/
structure Installed (s : Plugin δ) : Prop where
  store : s.serverOps.pOpStoreTdo ≠ 0
  indicate : s.serverOps.pOpIndicateFlush ≠ 0

/-- The two callbacks of a flush that has transmitted `t`. -/
def callbacks (s : Plugin δ) (t : Transmitted δ) : List Callback :=
  [.storeTdo s.serverOps.pOpStoreTdo s.serverOpsData t.tdoData t.tdoDataCount,
    .indicateFlush s.serverOps.pOpIndicateFlush s.serverOpsData]

variable {transmit : Plugin δ → Except Fault (Transmitted δ)}

/-- An `init_dev` that is accepted installs its arguments. -/
theorem initDev_accepted {desc : String} {parent : Ptr} (h : Accepts desc parent)
    (ops : ServerOps) (s : Plugin δ) :
    s.initDev desc ops parent = ({ s with serverOps := ops, serverOpsData := parent }, 1) := by
  rw [initDev, if_neg h.1, if_neg (not_not.mpr h.2)]

/-- One that is refused does nothing, and returns the same value. -/
theorem initDev_refused {desc : String} {parent : Ptr} (h : ¬ Accepts desc parent)
    (ops : ServerOps) (s : Plugin δ) : s.initDev desc ops parent = (s, 1) := by
  rw [initDev]
  split_ifs with hparent hdesc
  · rfl
  · rfl
  · exact absurd ⟨hparent, not_not.mp hdesc⟩ h

theorem step_clock {s : Plugin δ} {c : ClockCall} {q : Queue} (h : c.exec s.queue = .ok q) :
    step transmit s (.clock c) = .ok ({ s with queue := q }, ⟨c.ret, [], []⟩) := by
  simp only [step, h]

theorem step_clock_error {s : Plugin δ} {c : ClockCall} {e : Fault}
    (h : c.exec s.queue = .error e) : step transmit s (.clock c) = .error e := by
  simp only [step, h]

/-- What a clock call that ends has done. -/
theorem step_clock_inv {s s' : Plugin δ} {c : ClockCall} {out : Out}
    (h : step transmit s (.clock c) = .ok (s', out)) :
    ∃ q, c.exec s.queue = .ok q ∧ s' = { s with queue := q } ∧ out = ⟨c.ret, [], []⟩ := by
  rcases hq : c.exec s.queue with e | q
  · rw [step_clock_error hq] at h
    cases h
  · rw [step_clock hq] at h
    cases h
    exact ⟨q, rfl, rfl, rfl⟩

/-- Clock calls act on the queue alone, whatever the loop of the flush. -/
theorem run_of_execAll {cs : List ClockCall} {s : Plugin δ} {q : Queue}
    (h : ClockCall.execAll cs s.queue = .ok q) :
    run transmit s (cs.map .clock) =
      .ok ({ s with queue := q }, cs.map fun c => ⟨c.ret, [], []⟩) := by
  induction cs generalizing s with
  | nil =>
    cases h
    rfl
  | cons c cs ih =>
    rw [ClockCall.execAll] at h
    rcases hc : c.exec s.queue with e | q₁ <;> simp only [hc] at h
    · cases h
    · exact Fallible.run_cons_ok (step_clock hc) (ih (s := { s with queue := q₁ }) h)

/-- What the callbacks of a `do_flush` leave of the queue: the first one finds it as it was,
the second one empty. -/
def reenter (ops : ServerOps) (re : Reentry) (q : Queue) : Except Fault Queue :=
  if ops.pOpStoreTdo = 0 then .error .nullCallback
  else
    match ClockCall.execAll re.atStore q with
    | .error e => .error e
    | .ok _ =>
      if ops.pOpIndicateFlush = 0 then .error .nullCallback
      else ClockCall.execAll re.atIndicate .empty

/-- **A flush is its loop, then its callbacks**: everything is reset before the second one,
and the host is handed what was transmitted. -/
theorem doFlush_eq (re : Reentry) (s : Plugin δ) :
    doFlush transmit re s =
      match transmit s with
      | .error e => .error e
      | .ok t =>
        match reenter s.serverOps re s.queue with
        | .error e => .error e
        | .ok q =>
          .ok ({ s with queue := q, tdoData := .zero, tdoDataCount := 0, dev := t.dev },
            ⟨some 1, t.clocked, s.callbacks t⟩) := by
  rw [doFlush]
  rcases transmit s with e | t
  · rfl
  · simp only [bind, Except.bind, reenter, callback, clear]
    split_ifs with hstore hindicate
    · rfl
    · rcases ClockCall.execAll re.atStore s.queue with e | q
      · rfl
      · simp only [hindicate, if_true]
    · rcases ClockCall.execAll re.atStore s.queue with e | q
      · rfl
      · simp only [hindicate, if_false]
        rcases ClockCall.execAll re.atIndicate .empty with e | q' <;> rfl

theorem reenter_ok {ops : ServerOps} {re : Reentry} {q q₁ q₂ : Queue}
    (hstore : ops.pOpStoreTdo ≠ 0) (hindicate : ops.pOpIndicateFlush ≠ 0)
    (h₁ : ClockCall.execAll re.atStore q = .ok q₁)
    (h₂ : ClockCall.execAll re.atIndicate .empty = .ok q₂) : reenter ops re q = .ok q₂ := by
  rw [reenter, if_neg hstore, h₁]
  simp only [if_neg hindicate, h₂]

theorem reenter_inv {ops : ServerOps} {re : Reentry} {q q₂ : Queue}
    (h : reenter ops re q = .ok q₂) :
    ops.pOpStoreTdo ≠ 0 ∧ ops.pOpIndicateFlush ≠ 0 ∧
      (∃ q₁, ClockCall.execAll re.atStore q = .ok q₁) ∧
      ClockCall.execAll re.atIndicate .empty = .ok q₂ := by
  rw [reenter] at h
  split_ifs at h with hstore hindicate
  · cases h₁ : ClockCall.execAll re.atStore q <;> simp only [h₁] at h <;> cases h
  · rcases h₁ : ClockCall.execAll re.atStore q with e | q₁ <;> simp only [h₁] at h
    · cases h
    · exact ⟨hstore, hindicate, ⟨q₁, rfl⟩, h⟩

/-- What stops the callbacks: one that is not there, or the clock calls in one of them. -/
theorem reenter_error {ops : ServerOps} {re : Reentry} {q : Queue} {e : Fault}
    (h : reenter ops re q = .error e) :
    (e = .nullCallback ∧ (ops.pOpStoreTdo = 0 ∨ ops.pOpIndicateFlush = 0)) ∨
      ClockCall.execAll re.atStore q = .error e ∨
      ClockCall.execAll re.atIndicate .empty = .error e := by
  rw [reenter] at h
  split_ifs at h with hstore hindicate
  · cases h
    exact Or.inl ⟨rfl, Or.inl hstore⟩
  · rcases h₁ : ClockCall.execAll re.atStore q with e' | q₁ <;> simp only [h₁] at h <;> cases h
    · exact Or.inr (Or.inl rfl)
    · exact Or.inl ⟨rfl, Or.inr hindicate⟩
  · rcases h₁ : ClockCall.execAll re.atStore q with e' | q₁ <;> simp only [h₁] at h
    · cases h
      exact Or.inr (Or.inl rfl)
    · exact Or.inr (Or.inr h)

/-- **A flush whose loop ends**, and whose callbacks do. -/
theorem doFlush_exec {re : Reentry} {s : Plugin δ} (hs : s.Installed) {t : Transmitted δ}
    {q q' : Queue} (ht : transmit s = .ok t) (hq : ClockCall.execAll re.atStore s.queue = .ok q)
    (hq' : ClockCall.execAll re.atIndicate .empty = .ok q') :
    doFlush transmit re s =
      .ok ({ s with queue := q', tdoData := .zero, tdoDataCount := 0, dev := t.dev },
        ⟨some 1, t.clocked, s.callbacks t⟩) := by
  rw [doFlush_eq, ht, reenter_ok hs.store hs.indicate hq hq']

/-- **A flush whose loop ends**, and whose callbacks queue what there is room for. -/
theorem doFlush_fits {re : Reentry} {s : Plugin δ} (hs : s.Installed) {t : Transmitted δ}
    (ht : transmit s = .ok t) (hstore : s.queue.count + ClockCall.total re.atStore ≤ capacity)
    (hindicate : ClockCall.total re.atIndicate ≤ capacity) :
    ∃ q, doFlush transmit re s =
      .ok ({ s with queue := q, tdoData := .zero, tdoDataCount := 0, dev := t.dev },
        ⟨some 1, t.clocked, s.callbacks t⟩) := by
  obtain ⟨q, hq, -⟩ := ClockCall.execAll_ok re.atStore hstore
  obtain ⟨q', hq', -⟩ := ClockCall.execAll_ok re.atIndicate (q := .empty)
    (by rwa [Queue.count_empty, Nat.zero_add])
  exact ⟨q', doFlush_exec hs ht hq hq'⟩

/-- A flush with callbacks that do not call back. -/
theorem doFlush_ok {s : Plugin δ} (hs : s.Installed) {t : Transmitted δ}
    (ht : transmit s = .ok t) :
    doFlush transmit .silent s =
      .ok ({ s with queue := .empty, tdoData := .zero, tdoDataCount := 0, dev := t.dev },
        ⟨some 1, t.clocked, s.callbacks t⟩) :=
  doFlush_exec hs ht rfl rfl

/-- **What a flush that ends has done.** -/
theorem doFlush_inv {re : Reentry} {s s' : Plugin δ} {out : Out}
    (h : doFlush transmit re s = .ok (s', out)) :
    ∃ t q, transmit s = .ok t ∧ reenter s.serverOps re s.queue = .ok q ∧
      s' = { s with queue := q, tdoData := .zero, tdoDataCount := 0, dev := t.dev } ∧
      out = ⟨some 1, t.clocked, s.callbacks t⟩ := by
  rw [doFlush_eq] at h
  rcases ht : transmit s with e | t <;> simp only [ht] at h
  · cases h
  · rcases hq : reenter s.serverOps re s.queue with e | q <;> simp only [hq] at h
    · cases h
    · cases h
      exact ⟨t, q, rfl, rfl, rfl, rfl⟩

/-- **What has stopped a flush that does not end**: its loop, or its callbacks. -/
theorem doFlush_error {re : Reentry} {s : Plugin δ} {e : Fault}
    (h : doFlush transmit re s = .error e) :
    transmit s = .error e ∨ reenter s.serverOps re s.queue = .error e := by
  rw [doFlush_eq] at h
  rcases ht : transmit s with e' | t <;> simp only [ht] at h
  · cases h
    exact Or.inl rfl
  · rcases hq : reenter s.serverOps re s.queue with e' | q <;> simp only [hq] at h <;> cases h
    exact Or.inr rfl

end Plugin

end JtagHw
