import JtagHw.Lib.Mealy

/-!
# Commands that are executed as their bytes arrive

A *prefix code* writes every command as a word, in such a way that a word can be read
off the front of any list that starts with it (`PrefixCode`). So a receiver that is
handed the letters one by one knows where a word ends: it collects letters until they
are a word, executes the command, and starts again (`PrefixCode.recv`).

Handed the words of a list of commands, it executes these commands and no other, in
order, and is between two words again (`PrefixCode.recvAll_encodeAll`).
-/

/-- A code whose words can be read off the front of a list. -/
structure PrefixCode (β κ : Type*) where
  encode : κ → List β
  /-- The command whose word the list starts with, and what follows it. -/
  decode? : List β → Option (κ × List β)
  decode_encode : ∀ k rest, decode? (encode k ++ rest) = some (k, rest)
  decode_sound : ∀ {w k rest}, decode? w = some (k, rest) → w = encode k ++ rest
  encode_ne_nil : ∀ k, encode k ≠ []

namespace PrefixCode

variable {β κ σ ο : Type*} (C : PrefixCode β κ)

/-- The words of several commands. -/
def encodeAll (ks : List κ) : List β := ks.flatMap C.encode

@[simp] theorem encodeAll_nil : C.encodeAll [] = [] := rfl

theorem encodeAll_append (ks ks' : List κ) :
    C.encodeAll (ks ++ ks') = C.encodeAll ks ++ C.encodeAll ks' :=
  List.flatMap_append

@[simp] theorem encodeAll_singleton (k : κ) : C.encodeAll [k] = C.encode k := by
  simp [encodeAll]

theorem encodeAll_eq_nil {ks : List κ} : C.encodeAll ks = [] ↔ ks = [] := by
  constructor
  · intro h
    rw [encodeAll, List.flatMap_eq_nil_iff] at h
    cases ks with
    | nil => rfl
    | cons k ks => exact absurd (h k (List.mem_cons_self ..)) (C.encode_ne_nil k)
  · rintro rfl
    rfl

/-- **The beginning of a word is not a word yet**, nor does it start with one. -/
theorem decode_of_proper {k : κ} {w v : List β} (h : w ++ v = C.encode k) (hv : v ≠ []) :
    C.decode? w = none := by
  rcases hw : C.decode? w with _ | ⟨k', rest⟩
  · rfl
  · -- the word found in `w` would be found in the whole word, with `v` left over
    have hwhole : C.decode? (C.encode k) = some (k', rest ++ v) := by
      rw [← h, C.decode_sound hw, List.append_assoc, C.decode_encode]
    have hself := C.decode_encode k []
    rw [List.append_nil, hwhole, Option.some.injEq, Prod.mk.injEq] at hself
    exact absurd (List.append_eq_nil_iff.mp hself.2).2 hv

/-! ### The receiver -/

/-- The receiver: what the commands act on, the letters of a word that is not complete
yet, and what the commands have answered. -/
structure Receiver (σ β ο : Type*) where
  state : σ
  held : List β
  answers : List ο

variable (act : σ → κ → σ × List ο)

/-- One letter. -/
def recv (r : Receiver σ β ο) (b : β) : Receiver σ β ο :=
  match C.decode? (r.held ++ [b]) with
  | none => { r with held := r.held ++ [b] }
  | some (k, rest) =>
    { state := (act r.state k).1, held := rest, answers := r.answers ++ (act r.state k).2 }

/-- Several letters. -/
def recvAll (r : Receiver σ β ο) (bs : List β) : Receiver σ β ο := bs.foldl (C.recv act) r

variable {act}

theorem recvAll_append (r : Receiver σ β ο) (bs bs' : List β) :
    C.recvAll act r (bs ++ bs') = C.recvAll act (C.recvAll act r bs) bs' :=
  List.foldl_append

/-- The rest `v` of a word whose beginning `w` is held. -/
theorem recvAll_rest {k : κ} (s : σ) (as : List ο) : ∀ {v w : List β}, w ++ v = C.encode k →
    v ≠ [] → C.recvAll act ⟨s, w, as⟩ v = ⟨(act s k).1, [], as ++ (act s k).2⟩
  | [], _, _, hv => absurd rfl hv
  | b :: v, w, h, _ => by
    have hcons : w ++ [b] ++ v = C.encode k := by
      rw [List.append_assoc]
      exact h
    rcases v with _ | ⟨b', v⟩
    · -- the last letter completes the word
      have hword : C.decode? (w ++ [b]) = some (k, []) := by
        rw [h, ← List.append_nil (C.encode k), C.decode_encode]
      simp only [recvAll, List.foldl_cons, List.foldl_nil, recv, hword]
    · have hnot : C.decode? (w ++ [b]) = none :=
        C.decode_of_proper hcons (List.cons_ne_nil _ _)
      have hstep : C.recvAll act ⟨s, w, as⟩ (b :: b' :: v) =
          C.recvAll act ⟨s, w ++ [b], as⟩ (b' :: v) := by
        rw [recvAll, List.foldl_cons, recv]
        simp only [hnot]
        rfl
      rw [hstep]
      exact recvAll_rest s as hcons (List.cons_ne_nil _ _)

/-- **A word is a command.** -/
theorem recvAll_encode (k : κ) (s : σ) (as : List ο) :
    C.recvAll act ⟨s, [], as⟩ (C.encode k) = ⟨(act s k).1, [], as ++ (act s k).2⟩ :=
  C.recvAll_rest s as (List.nil_append _) (C.encode_ne_nil k)

/-- **The words of a list are its commands, in order.** -/
theorem recvAll_encodeAll (ks : List κ) (s : σ) (as : List ο) :
    C.recvAll act ⟨s, [], as⟩ (C.encodeAll ks) =
      ⟨Mealy.final act s ks, [], as ++ (Mealy.outputs act s ks).flatten⟩ := by
  induction ks generalizing s as with
  | nil => simp [recvAll]
  | cons k ks ih =>
    have hcons : C.encodeAll (k :: ks) = C.encode k ++ C.encodeAll ks := rfl
    rw [hcons, recvAll_append, recvAll_encode, ih, Mealy.final_cons, Mealy.outputs_cons,
      List.flatten_cons, List.append_assoc]

end PrefixCode
