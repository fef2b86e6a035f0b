import JtagHw.Lib.Mealy

/-!
# Machines whose steps can fault

A step of such a machine either answers, as in `Mealy`, or stops the machine with
a fault: `step : σ → ι → Except ε (σ × ο)`. A run (`Fallible.run`) keeps the
outputs up to its end and is lost with the first fault.

Three rules bring facts about one step to a whole run:

* `Fallible.run_simulates`, **simulation**: a machine that answers one step of an
  abstract, fault-free machine wherever that step is allowed runs without a fault
  along every allowed run of it, and answers alike;
* `Fallible.run_invariant` and `Fallible.run_since`, **invariants**: what every step
  keeps holds at the end of every run that ends, if it holds at its start, or if one of
  its outputs has established it;
* `Fallible.run_rel`, **comparison**: of two runs of one machine on one list of
  inputs, from states that are related in a way every step keeps, either both stop
  with the same fault or both end in related states with related outputs.

Two different machines are compared likewise (`Fallible.run_lockstep`).

A single computation *yields* a property of its result, or a fault that is allowed
(`Fallible.Yields`); so does a run, if every step does (`Fallible.run_yields`).
-/

namespace Fallible

variable {ε σ ι ο : Type*}

section Run

variable (step : σ → ι → Except ε (σ × ο))

/-- A run: the state it ends in and the outputs, one per input – or the fault that
stopped it. -/
def run : σ → List ι → Except ε (σ × List ο)
  | s, [] => .ok (s, [])
  | s, i :: is =>
    match step s i with
    | .error e => .error e
    | .ok (s', o) =>
      match run s' is with
      | .error e => .error e
      | .ok (s'', os) => .ok (s'', o :: os)

variable {step}

@[simp] theorem run_nil (s : σ) : run step s [] = .ok (s, []) := rfl

theorem run_cons_ok {s s' s'' : σ} {i : ι} {o : ο} {is : List ι} {os : List ο}
    (hi : step s i = .ok (s', o)) (his : run step s' is = .ok (s'', os)) :
    run step s (i :: is) = .ok (s'', o :: os) := by
  rw [run, hi]
  simp only [his]

theorem run_cons_error {s : σ} {i : ι} {e : ε} (is : List ι) (hi : step s i = .error e) :
    run step s (i :: is) = .error e := by
  rw [run, hi]

theorem run_cons_late {s s' : σ} {i : ι} {o : ο} {is : List ι} {e : ε}
    (hi : step s i = .ok (s', o)) (his : run step s' is = .error e) :
    run step s (i :: is) = .error e := by
  rw [run, hi]
  simp only [his]

/-- A run of one step. -/
theorem run_singleton {s s' : σ} {i : ι} {o : ο} (hi : step s i = .ok (s', o)) :
    run step s [i] = .ok (s', [o]) :=
  run_cons_ok hi rfl

/-- **What a run that ends has done**: its first step, then the rest of it. -/
theorem run_cons_inv {s s'' : σ} {i : ι} {is : List ι} {os : List ο}
    (h : run step s (i :: is) = .ok (s'', os)) :
    ∃ s' o os', step s i = .ok (s', o) ∧ run step s' is = .ok (s'', os') ∧ os = o :: os' := by
  rw [run] at h
  rcases hi : step s i with e | ⟨s', o⟩
  · rw [hi] at h
    cases h
  · rw [hi] at h
    rcases his : run step s' is with e | ⟨t, os'⟩
    · simp only [his] at h
      cases h
    · simp only [his, Except.ok.injEq, Prod.mk.injEq] at h
      obtain ⟨rfl, rfl⟩ := h
      exact ⟨s', o, os', rfl, his, rfl⟩

theorem run_append_ok {s s' s'' : σ} {is js : List ι} {os ps : List ο}
    (hi : run step s is = .ok (s', os)) (hj : run step s' js = .ok (s'', ps)) :
    run step s (is ++ js) = .ok (s'', os ++ ps) := by
  induction is generalizing s os with
  | nil =>
    simp only [run_nil, Except.ok.injEq, Prod.mk.injEq] at hi
    obtain ⟨rfl, rfl⟩ := hi
    exact hj
  | cons i is ih =>
    obtain ⟨t, o, os', hstep, hrest, rfl⟩ := run_cons_inv hi
    exact run_cons_ok hstep (ih hrest)

/-- What a run over two lists that ends has done. -/
theorem run_append_inv {s s'' : σ} {is js : List ι} {qs : List ο}
    (h : run step s (is ++ js) = .ok (s'', qs)) :
    ∃ s' os ps, run step s is = .ok (s', os) ∧ run step s' js = .ok (s'', ps) ∧
      qs = os ++ ps := by
  induction is generalizing s qs with
  | nil => exact ⟨s, [], qs, rfl, h, rfl⟩
  | cons i is ih =>
    obtain ⟨t, o, qs', hstep, hrest, rfl⟩ := run_cons_inv h
    obtain ⟨s', os, ps, hos, hps, rfl⟩ := ih hrest
    exact ⟨s', o :: os, ps, run_cons_ok hstep hos, hps, rfl⟩

/-- A run on inputs that are renamed first. -/
theorem run_map {κ : Type*} (f : κ → ι) : ∀ (ks : List κ) (s : σ),
    run step s (ks.map f) = run (fun s k => step s (f k)) s ks
  | [], _ => rfl
  | k :: ks, s => by
    rw [List.map_cons, run, run]
    simp only [run_map f ks]

end Run

/-! ### Simulation -/

section Simulation

variable {τ π : Type*} {step : σ → ι → Except ε (σ × ο)} {spec : τ → ι → τ × π}
  {R : σ → τ → Prop} {P : τ → ι → Prop} {O : ο → π → Prop}

/-- **Simulation of a fault-free machine.** Where a step of the specification is
allowed by `P`, the machine answers it without a fault; then it runs without a
fault along every run of the specification all of whose steps are allowed. -/
theorem run_simulates
    (hstep : ∀ s t i, R s t → P t i →
      ∃ s' o, step s i = .ok (s', o) ∧ R s' (spec t i).1 ∧ O o (spec t i).2) :
    ∀ (is : List ι) (s : σ) (t : τ), R s t → Mealy.Along spec P t is →
      ∃ s' os, run step s is = .ok (s', os) ∧ R s' (Mealy.final spec t is) ∧
        List.Forall₂ O os (Mealy.outputs spec t is)
  | [], s, _, h, _ => ⟨s, [], rfl, h, List.Forall₂.nil⟩
  | i :: is, s, t, h, hP => by
    obtain ⟨s', o, hi, hR, hO⟩ := hstep s t i h hP.1
    obtain ⟨s'', os, his, hR', hO'⟩ := run_simulates hstep is s' (spec t i).1 hR hP.2
    exact ⟨s'', o :: os, run_cons_ok hi his, hR', List.Forall₂.cons hO hO'⟩

end Simulation

/-! ### Runs whose steps are allowed -/

section Allowed

variable {step : σ → ι → Except ε (σ × ο)} {I : σ → Prop} {P : σ → ι → Prop}

/-- Every step of the run, as far as it gets, is allowed by `P`. -/
def Meets (step : σ → ι → Except ε (σ × ο)) (P : σ → ι → Prop) : σ → List ι → Prop
  | _, [] => True
  | s, i :: is => P s i ∧ ∀ s' o, step s i = .ok (s', o) → Meets step P s' is

/-- The steps of an initial part of an allowed run are allowed. -/
theorem Meets.append_left : ∀ {is js : List ι} {s : σ}, Meets step P s (is ++ js) →
    Meets step P s is
  | [], _, _, _ => trivial
  | _ :: _, _, _, h => ⟨h.1, fun s' o hi => (h.2 s' o hi).append_left⟩

/-- The step after an initial part of an allowed run is allowed. -/
theorem Meets.next : ∀ {is js : List ι} {i : ι} {s s' : σ} {os : List ο},
    Meets step P s (is ++ i :: js) → run step s is = .ok (s', os) → P s' i
  | [], _, _, _, _, _, h, hrun => by
    cases hrun
    exact h.1
  | _ :: _, _, _, _, _, _, h, hrun => by
    obtain ⟨t, o, os', hi, his, -⟩ := run_cons_inv hrun
    exact (h.2 t o hi).next his

/-- **The steps of a run are allowed just if each one is** that comes after an initial part
that ends. -/
theorem meets_iff : ∀ {is : List ι} {s : σ}, Meets step P s is ↔
    ∀ before i after s' os, is = before ++ i :: after → run step s before = .ok (s', os) → P s' i
  | [], s => ⟨fun _ before i after _ _ his => by simp at his, fun _ => trivial⟩
  | i :: is, s => by
    constructor
    · rintro h before j after s' os his hrun
      rw [his] at h
      exact h.next hrun
    · intro h
      refine ⟨h [] i is s [] rfl rfl, fun s' o hi => meets_iff.mpr ?_⟩
      rintro before j after s'' os rfl hrun
      exact h (i :: before) j after s'' (o :: os) rfl (run_cons_ok hi hrun)

/-- A condition on the inputs is one on the steps. -/
theorem meets_of_forall {Q : ι → Prop} : ∀ {is : List ι} {s : σ}, (∀ i ∈ is, Q i) →
    Meets step (fun _ => Q) s is
  | [], _, _ => trivial
  | i :: _, _, h => ⟨h i (List.mem_cons_self ..), fun _ _ _ =>
      meets_of_forall fun j hj => h j (List.mem_cons_of_mem _ hj)⟩

theorem Meets.and {Q : σ → ι → Prop} : ∀ {is : List ι} {s : σ}, Meets step P s is →
    Meets step Q s is → Meets step (fun s i => P s i ∧ Q s i) s is
  | [], _, _, _ => trivial
  | _ :: _, _, hP, hQ => ⟨⟨hP.1, hQ.1⟩, fun s' o hi => (hP.2 s' o hi).and (hQ.2 s' o hi)⟩

/-- Under an invariant of the allowed steps, a condition on the steps of a run can be
weakened. -/
theorem Meets.imp {Q : σ → ι → Prop}
    (hok : ∀ s i s' o, P s i → I s → step s i = .ok (s', o) → I s') :
    ∀ {is : List ι} {s : σ}, (∀ s, ∀ i ∈ is, I s → P s i → Q s i) → I s → Meets step P s is →
      Meets step Q s is
  | [], _, _, _, _ => trivial
  | i :: _, s, himp, hs, h =>
    ⟨himp s i (List.mem_cons_self ..) hs h.1, fun s' o hi =>
      (h.2 s' o hi).imp hok (fun s j hj => himp s j (List.mem_cons_of_mem _ hj))
        (hok s i s' o h.1 hs hi)⟩

/-- **An invariant of the allowed steps** holds at the end of every allowed run that ends. -/
theorem run_invariant (hok : ∀ s i s' o, P s i → I s → step s i = .ok (s', o) → I s') :
    ∀ {is : List ι} {s s' : σ} {os : List ο}, Meets step P s is → I s →
      run step s is = .ok (s', os) → I s'
  | [], _, _, _, _, hs, hrun => by
    cases hrun
    exact hs
  | i :: _, s, _, _, h, hs, hrun => by
    obtain ⟨t, o, os, hi, his, -⟩ := run_cons_inv hrun
    exact run_invariant hok (h.2 t o hi) (hok s i t o h.1 hs hi) his

/-- **A fact that one output establishes**, and that every step keeps, holds at the end of
every allowed run with such an output. -/
theorem run_since {T : σ → Prop} {Q : ο → Prop}
    (hkeep : ∀ s i s' o, P s i → T s → step s i = .ok (s', o) → T s')
    (hset : ∀ s i s' o, P s i → step s i = .ok (s', o) → Q o → T s') :
    ∀ {is : List ι} {s s' : σ} {os : List ο}, Meets step P s is → run step s is = .ok (s', os) →
      (∃ o ∈ os, Q o) → T s'
  | [], _, _, _, _, hrun, ⟨_, hmem, _⟩ => by
    cases hrun
    cases hmem
  | i :: is, s, s', os, h, hrun, ⟨o, hmem, ho⟩ => by
    obtain ⟨t, p, ps, hi, his, rfl⟩ := run_cons_inv hrun
    rcases List.mem_cons.mp hmem with rfl | hlater
    · exact run_invariant hkeep (h.2 t o hi) (hset s i t o h.1 hi ho) his
    · exact run_since hkeep hset (h.2 t p hi) his ⟨o, hlater, ho⟩

end Allowed

/-! ### What a computation yields -/

section Yields

universe u

variable {α β : Type u} {Q Q' : α → Prop} {R : β → Prop} {Bad Bad' : ε → Prop}

/-- The computation ends with a result of which `Q` holds, or stops with a fault of which
`Bad` holds. -/
def Yields (Q : α → Prop) (Bad : ε → Prop) : Except ε α → Prop
  | .ok a => Q a
  | .error e => Bad e

theorem Yields.of_ok {x : Except ε α} {a : α} (hx : x = .ok a) (ha : Q a) : Yields Q Bad x := by
  rw [hx]
  exact ha

theorem Yields.imp (hQ : ∀ a, Q a → Q' a) (hBad : ∀ e, Bad e → Bad' e) :
    ∀ {x : Except ε α}, Yields Q Bad x → Yields Q' Bad' x
  | .ok a, h => hQ a h
  | .error e, h => hBad e h

/-- One computation, then another one. -/
theorem Yields.bind {f : α → Except ε β} (hf : ∀ a, Q a → Yields R Bad (f a)) :
    ∀ {x : Except ε α}, Yields Q Bad x → Yields R Bad (x >>= f)
  | .ok a, h => hf a h
  | .error _, h => h

theorem Yields.map {f : α → β} (hf : ∀ a, Q a → R (f a)) :
    ∀ {x : Except ε α}, Yields Q Bad x → Yields R Bad (x.map f)
  | .ok a, h => hf a h
  | .error _, h => h

/-- With no fault allowed, the computation ends. -/
theorem Yields.exists_ok : ∀ {x : Except ε α}, Yields Q (fun _ => False) x →
    ∃ a, x = .ok a ∧ Q a
  | .ok a, h => ⟨a, rfl, h⟩
  | .error _, h => h.elim

/-- **What every step yields, a run yields**: an invariant, or a fault that is allowed. -/
theorem run_yields {step : σ → ι → Except ε (σ × ο)} {I : σ → Prop} {P : ι → Prop}
    (hstep : ∀ s i, I s → P i → Yields (fun r => I r.1) Bad (step s i)) :
    ∀ (is : List ι) (s : σ), I s → (∀ i ∈ is, P i) → Yields (fun r => I r.1) Bad (run step s is)
  | [], _, hs, _ => hs
  | i :: is, s, hs, hP => by
    have hi := hstep s i hs (hP i (List.mem_cons_self ..))
    rcases hres : step s i with e | ⟨s', o⟩ <;> rw [hres] at hi
    · rw [run_cons_error is hres]
      exact hi
    · have his := run_yields hstep is s' hi fun j hj => hP j (List.mem_cons_of_mem _ hj)
      rcases hrest : run step s' is with e | ⟨s'', os⟩ <;> rw [hrest] at his
      · rw [run_cons_late hres hrest]
        exact his
      · rw [run_cons_ok hres hrest]
        exact his

end Yields

/-! ### Comparison of two runs -/

section Comparison

variable {step : σ → ι → Except ε (σ × ο)} {R : σ → σ → Prop} {O : ο → ο → Prop}

/-- Two results that agree: the same fault, or related states and outputs. -/
def ResultRel {α : Type*} (R : σ → σ → Prop) (O : α → α → Prop) :
    Except ε (σ × α) → Except ε (σ × α) → Prop
  | .ok (s, o), .ok (t, p) => R s t ∧ O o p
  | .error e, .error e' => e = e'
  | _, _ => False

/-- Weaker relations hold as well. -/
theorem ResultRel.imp {α : Type*} {R' : σ → σ → Prop} {O O' : α → α → Prop}
    (hR : ∀ s t, R s t → R' s t) (hO : ∀ o p, O o p → O' o p) :
    ∀ {x y : Except ε (σ × α)}, ResultRel R O x y → ResultRel R' O' x y
  | .ok (s, o), .ok (t, p), h => ⟨hR s t h.1, hO o p h.2⟩
  | .error _, .error _, h => h
  | .ok _, .error _, h => h.elim
  | .error _, .ok _, h => h.elim

/-- **Comparison of two runs.** -/
theorem run_rel {P : ι → Prop}
    (hstep : ∀ s t i, R s t → P i → ResultRel R O (step s i) (step t i)) :
    ∀ (is : List ι) (s t : σ), R s t → (∀ i ∈ is, P i) →
      ResultRel R (List.Forall₂ O) (run step s is) (run step t is)
  | [], _, _, h, _ => ⟨h, List.Forall₂.nil⟩
  | i :: is, s, t, h, hP => by
    have hi := hstep s t i h (hP i (List.mem_cons_self ..))
    rcases hs : step s i with e | ⟨s', o⟩ <;> rcases ht : step t i with e' | ⟨t', p⟩ <;>
      rw [hs, ht] at hi
    · rw [run_cons_error is hs, run_cons_error is ht]
      exact hi
    · exact hi.elim
    · exact hi.elim
    · have his := run_rel hstep is s' t' hi.1 fun j hj => hP j (List.mem_cons_of_mem _ hj)
      rcases hs' : run step s' is with e | ⟨s'', os⟩ <;>
        rcases ht' : run step t' is with e' | ⟨t'', ps⟩ <;> rw [hs', ht'] at his
      · rw [run_cons_late hs hs', run_cons_late ht ht']
        exact his
      · exact his.elim
      · exact his.elim
      · rw [run_cons_ok hs hs', run_cons_ok ht ht']
        exact ⟨his.1, List.Forall₂.cons hi.2 his.2⟩

end Comparison

/-! ### Two machines side by side -/

section Lockstep

variable {τ : Type*} {step : σ → ι → Except ε (σ × ο)} {step' : τ → ι → Except ε (τ × ο)}
  {R : σ → τ → Prop}

/-- Results of two machines that cannot be told apart: the same fault, or the same output and
related states. -/
def SameResult {α : Type*} (R : σ → τ → Prop) : Except ε (σ × α) → Except ε (τ × α) → Prop
  | .ok (s, o), .ok (t, p) => R s t ∧ o = p
  | .error e, .error e' => e = e'
  | _, _ => False

/-- **Machines in lockstep.** If steps from related states cannot be told apart, runs from
related states cannot – on the inputs that `P` allows. -/
theorem run_lockstep {P : ι → Prop}
    (hstep : ∀ s t i, R s t → P i → SameResult R (step s i) (step' t i)) :
    ∀ (is : List ι) (s : σ) (t : τ), R s t → (∀ i ∈ is, P i) →
      SameResult R (run step s is) (run step' t is)
  | [], _, _, h, _ => ⟨h, rfl⟩
  | i :: is, s, t, h, hP => by
    have hi := hstep s t i h (hP i (List.mem_cons_self ..))
    rcases hs : step s i with e | ⟨s', o⟩ <;> rcases ht : step' t i with e' | ⟨t', p⟩ <;>
      rw [hs, ht] at hi
    · rw [run_cons_error is hs, run_cons_error is ht]
      exact hi
    · exact hi.elim
    · exact hi.elim
    · obtain ⟨h', rfl⟩ := hi
      have his := run_lockstep hstep is s' t' h' fun j hj => hP j (List.mem_cons_of_mem _ hj)
      rcases hs' : run step s' is with e | ⟨s'', os⟩ <;>
        rcases ht' : run step' t' is with e' | ⟨t'', ps⟩ <;> rw [hs', ht'] at his
      · rw [run_cons_late hs hs', run_cons_late ht ht']
        exact his
      · exact his.elim
      · exact his.elim
      · obtain ⟨h'', rfl⟩ := his
        rw [run_cons_ok hs hs', run_cons_ok ht ht']
        exact ⟨h'', rfl⟩

end Lockstep

end Fallible
