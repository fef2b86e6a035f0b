import Mathlib.Data.List.Basic
import Mathlib.Data.List.DropRight

/-!
# Synchronous machines and their runs

A synchronous machine reads one input per clock and answers one output per
clock: it is nothing but a function `step : σ → ι → σ × ο`. This file runs such
a function over a list of inputs and keeps the three things a run is made of –
the state it ends in (`Mealy.final`), the outputs it answers (`Mealy.outputs`)
and the clocks it went through, each input paired with the state it was read in
(`Mealy.trace`).

Two rules are proved once and used everywhere:

* `Mealy.final_history`, the **history invariant**: a statement relating the
  state to the clocks that led to it holds at the end of every run as soon as it
  holds before the first clock and one clock keeps it;
* `Mealy.bisim_run`, the **relational invariant** of two runs of a machine on
  two different input streams: as long as the inputs are coupled, related states
  stay related and answer alike.
-/

namespace Mealy

variable {σ ι ο : Type*}

/-! ### Runs -/

section Run

variable (step : σ → ι → σ × ο)

/-- The state a run ends in. -/
def final : σ → List ι → σ
  | s, [] => s
  | s, i :: is => final (step s i).1 is

/-- The outputs of a run, one per input. -/
def outputs : σ → List ι → List ο
  | _, [] => []
  | s, i :: is => (step s i).2 :: outputs (step s i).1 is

/-- The clocks of a run: every input, with the state it was read in. -/
def trace : σ → List ι → List (σ × ι)
  | _, [] => []
  | s, i :: is => (s, i) :: trace (step s i).1 is

@[simp] theorem final_nil (s : σ) : final step s [] = s := rfl

@[simp] theorem final_cons (s : σ) (i : ι) (is : List ι) :
    final step s (i :: is) = final step (step s i).1 is := rfl

@[simp] theorem outputs_nil (s : σ) : outputs step s [] = [] := rfl

@[simp] theorem outputs_cons (s : σ) (i : ι) (is : List ι) :
    outputs step s (i :: is) = (step s i).2 :: outputs step (step s i).1 is := rfl

@[simp] theorem trace_nil (s : σ) : trace step s [] = [] := rfl

@[simp] theorem trace_cons (s : σ) (i : ι) (is : List ι) :
    trace step s (i :: is) = (s, i) :: trace step (step s i).1 is := rfl

@[simp] theorem final_append (s : σ) (is js : List ι) :
    final step s (is ++ js) = final step (final step s is) js := by
  induction is generalizing s with
  | nil => rfl
  | cons i is ih => exact ih _

@[simp] theorem outputs_append (s : σ) (is js : List ι) :
    outputs step s (is ++ js) = outputs step s is ++ outputs step (final step s is) js := by
  induction is generalizing s with
  | nil => rfl
  | cons i is ih => simp [ih]

@[simp] theorem trace_append (s : σ) (is js : List ι) :
    trace step s (is ++ js) = trace step s is ++ trace step (final step s is) js := by
  induction is generalizing s with
  | nil => rfl
  | cons i is ih => simp [ih]

@[simp] theorem length_outputs (s : σ) (is : List ι) :
    (outputs step s is).length = is.length := by
  induction is generalizing s with
  | nil => rfl
  | cons i is ih => simp [ih]

/-- A machine that reads its inputs through `f` runs as the machine itself does on the
inputs read. -/
theorem run_map {κ : Type*} (f : κ → ι) (s : σ) (ks : List κ) :
    outputs (fun s k => step s (f k)) s ks = outputs step s (ks.map f) ∧
      final (fun s k => step s (f k)) s ks = final step s (ks.map f) := by
  induction ks generalizing s with
  | nil => exact ⟨rfl, rfl⟩
  | cons k ks ih => exact ⟨congrArg _ (ih _).1, (ih _).2⟩

/-- A machine that is another one seen through `f` runs as that one does. -/
theorem run_hom {τ : Type*} {step' : τ → ι → τ × ο} {f : σ → τ}
    (h : ∀ s i, step' (f s) i = (f (step s i).1, (step s i).2)) (s : σ) (is : List ι) :
    outputs step s is = outputs step' (f s) is ∧ f (final step s is) = final step' (f s) is := by
  induction is generalizing s with
  | nil => exact ⟨rfl, rfl⟩
  | cons i is ih =>
    simp only [outputs_cons, final_cons, h]
    exact ⟨congrArg _ (ih _).1, (ih _).2⟩

end Run

/-! ### Invariants -/

section Invariant

variable {step : σ → ι → σ × ο}

/-- **The history invariant**: what holds before the first clock and is kept by
one clock holds at the end of every run, together with the clocks of that run. -/
theorem final_history {P : σ → List (σ × ι) → Prop} {s : σ} (h0 : P s [])
    (hstep : ∀ c h i, P c h → P (step c i).1 (h ++ [(c, i)])) (is : List ι) :
    P (final step s is) (trace step s is) := by
  induction is using List.reverseRecOn with
  | nil => exact h0
  | append_singleton is i ih => simpa using hstep _ _ i ih

/-- The invariant that forgets the history. -/
theorem final_invariant {P : σ → Prop} {s : σ} (h0 : P s)
    (hstep : ∀ c i, P c → P (step c i).1) (is : List ι) : P (final step s is) :=
  final_history (P := fun c _ => P c) h0 (fun c _ i => hstep c i) is

/-- Every step of the run is allowed by `P`. -/
def Along (step : σ → ι → σ × ο) (P : σ → ι → Prop) : σ → List ι → Prop
  | _, [] => True
  | s, i :: is => P s i ∧ Along step P (step s i).1 is

theorem along_of_forall {Q : ι → Prop} : ∀ {is : List ι}, (∀ i ∈ is, Q i) → ∀ s : σ,
    Along step (fun _ => Q) s is
  | [], _, _ => trivial
  | _ :: _, h, _ =>
    ⟨h _ (List.mem_cons_self ..), along_of_forall (fun j hj => h j (List.mem_cons_of_mem _ hj)) _⟩

end Invariant

/-! ### Two runs, side by side -/

section Bisim

variable {step : σ → ι → σ × ο} {R : σ → σ → Prop} {In : σ → ι → ι → Prop}

/-- Two input streams coupled by `In` along the run of the first: at every clock
the two inputs are related, given the state the first run reads them in. -/
def Coupled (step : σ → ι → σ × ο) (In : σ → ι → ι → Prop) : σ → List ι → List ι → Prop
  | _, [], [] => True
  | s, i :: is, j :: js => In s i j ∧ Coupled step In (step s i).1 is js
  | _, _, _ => False

/-- **The relational invariant of two runs**: related states, fed coupled
streams, answer through `obs` alike and end in related states. -/
theorem bisim_run {ω : Type*} {obs : ο → ω}
    (hstep : ∀ s t i j, R s t → In s i j →
      R (step s i).1 (step t j).1 ∧ obs (step s i).2 = obs (step t j).2) :
    ∀ (is js : List ι) (s t : σ), R s t → Coupled step In s is js →
      R (final step s is) (final step t js) ∧
        (outputs step s is).map obs = (outputs step t js).map obs
  | [], [], _, _, h, _ => ⟨h, rfl⟩
  | i :: is, j :: js, s, t, h, hc => by
    obtain ⟨hin, hrest⟩ := hc
    obtain ⟨hR, hout⟩ := hstep s t i j h hin
    obtain ⟨hfin, houts⟩ := bisim_run hstep is js _ _ hR hrest
    exact ⟨hfin, by simp [hout, houts]⟩
  | [], _ :: _, _, _, _, hc => hc.elim
  | _ :: _, [], _, _, _, hc => hc.elim

/-- Coupled streams stay coupled when both are cut at the same clock. -/
theorem Coupled.take : ∀ {is js : List ι} {s : σ} (k : ℕ), Coupled step In s is js →
    Coupled step In s (is.take k) (js.take k)
  | [], [], _, k, _ => by simp [Coupled]
  | _ :: _, _ :: _, _, 0, _ => by simp [Coupled]
  | _ :: _, _ :: _, _, k + 1, hc => ⟨hc.1, Coupled.take k hc.2⟩

end Bisim

end Mealy
