import JtagHw.Lib.Mealy

/-!
# A queue in front of a synchronous machine

Inputs of a `Mealy` machine are not fed to it as they come but collected, and fed
all at once when the queue is flushed; the flush hands out what it fed and what
the machine answered. `Batch.exec` is that, over an arbitrary machine.

When a flush takes place does not matter: whatever has been flushed so far, put
together, is a single run of the machine (`Batch.delivered_outputs`), and nothing is
lost, fed twice or fed out of order (`Batch.fed_append_pending`).
-/

namespace Batch

variable {σ ι ο : Type*}

/-- What is asked of the queue. -/
inductive Cmd (ι : Type*)
  /-- Collect some more inputs. -/
  | put (is : List ι)
  /-- Feed what has been collected. -/
  | flush

/-- The queue, and the machine behind it. -/
structure State (σ ι : Type*) where
  /-- The inputs collected since the last flush. -/
  pending : List ι
  /-- The state of the machine. -/
  machine : σ

variable (step : σ → ι → σ × ο)

/-- One request. A flush answers the inputs it fed and the outputs to them. -/
def exec (s : State σ ι) : Cmd ι → State σ ι × Option (List ι × List ο)
  | .put is => (⟨s.pending ++ is, s.machine⟩, none)
  | .flush =>
    (⟨[], Mealy.final step s.machine s.pending⟩,
      some (s.pending, Mealy.outputs step s.machine s.pending))

/-- Every input fed is answered. -/
theorem length_answers (cmds : List (Cmd ι)) (s : State σ ι) :
    ∀ is os, some (is, os) ∈ Mealy.outputs (exec step) s cmds → os.length = is.length := by
  induction cmds generalizing s with
  | nil => exact fun is os h => absurd h List.not_mem_nil
  | cons cmd cmds ih =>
    intro is os h
    rcases List.mem_cons.mp h with hhead | htail
    · cases cmd with
      | put js => cases hhead
      | flush =>
        cases hhead
        exact Mealy.length_outputs ..
    · exact ih _ is os htail

/-- The inputs fed over a run, flush by flush. -/
def fed (answers : List (Option (List ι × List ο))) : List ι :=
  answers.flatMap fun a => a.elim [] Prod.fst

/-- The outputs handed out over a run, flush by flush. -/
def delivered (answers : List (Option (List ι × List ο))) : List ο :=
  answers.flatMap fun a => a.elim [] Prod.snd

/-- The inputs collected over a run. -/
def collected (cmds : List (Cmd ι)) : List ι :=
  cmds.flatMap fun
    | .put is => is
    | .flush => []

/-- **Where the flushes stand does not matter**: all that has been handed out is
the answer of one run of the machine to all that has been fed, and leaves the
machine where that run does. -/
theorem delivered_outputs (cmds : List (Cmd ι)) (s : State σ ι) :
    delivered (Mealy.outputs (exec step) s cmds) =
        Mealy.outputs step s.machine (fed (Mealy.outputs (exec step) s cmds)) ∧
      (Mealy.final (exec step) s cmds).machine =
        Mealy.final step s.machine (fed (Mealy.outputs (exec step) s cmds)) := by
  induction cmds generalizing s with
  | nil => exact ⟨rfl, rfl⟩
  | cons cmd cmds ih =>
    obtain ⟨hout, hfin⟩ := ih (exec step s cmd).1
    cases cmd with
    | put is => exact ⟨hout, hfin⟩
    | flush =>
      simp only [delivered, fed, Mealy.outputs_cons, Mealy.final_cons, exec, List.flatMap_cons,
        Option.elim_some, Mealy.outputs_append, Mealy.final_append] at hout hfin ⊢
      exact ⟨by rw [hout], hfin⟩

/-- **Nothing is lost, fed twice or fed out of order**: what has been fed, followed
by what is still pending, is what was pending followed by what has been
collected. -/
theorem fed_append_pending (cmds : List (Cmd ι)) (s : State σ ι) :
    fed (Mealy.outputs (exec step) s cmds) ++ (Mealy.final (exec step) s cmds).pending =
      s.pending ++ collected cmds := by
  induction cmds generalizing s with
  | nil => simp [fed, collected]
  | cons cmd cmds ih =>
    have hrest := ih (exec step s cmd).1
    cases cmd with
    | put is =>
      simp only [fed, collected, Mealy.outputs_cons, Mealy.final_cons, exec, List.flatMap_cons,
        Option.elim_none, List.nil_append, List.append_assoc] at hrest ⊢
      exact hrest
    | flush =>
      simp only [fed, collected, Mealy.outputs_cons, Mealy.final_cons, exec, List.flatMap_cons,
        Option.elim_some, List.nil_append, List.append_assoc] at hrest ⊢
      rw [hrest]

end Batch
