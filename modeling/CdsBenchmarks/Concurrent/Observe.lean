import CdsBenchmarks.Concurrent.Program

/-! A program whose trace also has notes on its steps, so that a statement about a run can
speak of more than the events of the program. -/

namespace Cds.Concurrent
open Program

variable {T σ ℓ α ε κ : Type*}

/-- The program with `note t a m l` in its trace after the events of each step. -/
def Program.observe (P : Program T σ ℓ α ε) (note : T → α → σ → ℓ → List κ) :
    Program T σ ℓ α (ε ⊕ κ) where
  step t a m l := (P.step t a m l).map fun r =>
    (r.1, r.2.1, r.2.2.map Sum.inl ++ (note t a m l).map Sum.inr)

/-- The events of the program itself. -/
def events (tr : List (T × (ε ⊕ κ))) : List (T × ε) :=
  tr.filterMap fun x => x.2.getLeft?.map (x.1, ·)

def notes (tr : List (T × (ε ⊕ κ))) : List (T × κ) :=
  tr.filterMap fun x => x.2.getRight?.map (x.1, ·)

theorem events_append (tr tr' : List (T × (ε ⊕ κ))) : events (tr ++ tr') = events tr ++ events tr' :=
  List.filterMap_append

theorem notes_append (tr tr' : List (T × (ε ⊕ κ))) : notes (tr ++ tr') = notes tr ++ notes tr' :=
  List.filterMap_append

@[simp] theorem events_emit (t : T) (es : List ε) (ks : List κ) :
    events (emit t (es.map Sum.inl ++ ks.map Sum.inr)) = emit t es := by
  simp [events, emit, List.filterMap_map, Function.comp_def]

@[simp] theorem notes_emit (t : T) (es : List ε) (ks : List κ) :
    notes (emit t (es.map Sum.inl ++ ks.map Sum.inr)) = emit t ks := by
  simp [notes, emit, List.filterMap_map, Function.comp_def]

theorem Program.observe_step {P : Program T σ ℓ α ε} {note : T → α → σ → ℓ → List κ} {t : T} {a : α}
    {m m' : σ} {l l' : ℓ} {es : List (ε ⊕ κ)} (h : (P.observe note).step t a m l = some (m', l', es)) :
    ∃ es', P.step t a m l = some (m', l', es') ∧
      es = es'.map Sum.inl ++ (note t a m l).map Sum.inr := by
  obtain ⟨⟨_, _, es'⟩, hs, heq⟩ := Option.map_eq_some_iff.mp h
  cases heq
  exact ⟨es', hs, rfl⟩

variable [DecidableEq T] {P : Program T σ ℓ α ε} {note : T → α → σ → ℓ → List κ}
  {G : Config T σ ℓ → T → α → Prop} {c₀ c : Config T σ ℓ}

/-- Without the notes it is a run of the program. -/
theorem Program.Run.events {tr : List (T × (ε ⊕ κ))} (h : (P.observe note).Run G c₀ tr c) :
    P.Run G c₀ (events tr) c := by
  induction h with
  | start => exact .start
  | step _ hs hG ih =>
    obtain ⟨es, hs', rfl⟩ := observe_step hs
    rw [events_append, events_emit]
    exact ih.step hs' hG

/-- Notes can be added to every run. -/
theorem Program.Run.observe {tr : List (T × ε)} (h : P.Run G c₀ tr c)
    (note : T → α → σ → ℓ → List κ) :
    ∃ tr' : List (T × (ε ⊕ κ)), (P.observe note).Run G c₀ tr' c ∧ Concurrent.events tr' = tr := by
  induction h with
  | start => exact ⟨[], .start, rfl⟩
  | step _ hs hG ih =>
    obtain ⟨tr', hrun, rfl⟩ := ih
    exact ⟨_, hrun.step (congrArg (Option.map _) hs) hG, by rw [events_append, events_emit]⟩

end Cds.Concurrent
