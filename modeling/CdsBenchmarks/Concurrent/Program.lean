import Mathlib.Logic.Function.Basic
import Mathlib.Data.List.Basic

/-! Threads over a shared memory, one shared access a step, in any interleaving.
A step of a thread reads and writes the memory and the thread's own state and may
emit events; the trace of a run is the sequence of all emitted events. -/

namespace Cds.Concurrent

/-- `step t a m l` is the step of thread `t` from memory `m` and local state `l`.
The action `a` resolves what the program leaves open: which operation an idle
thread calls, or whether a weak compare-exchange fails spuriously. -/
structure Program (T σ ℓ α ε : Type*) where
  step : T → α → σ → ℓ → Option (σ × ℓ × List ε)

@[ext] structure Config (T σ ℓ : Type*) where
  mem : σ
  loc : T → ℓ

namespace Program
variable {T σ ℓ α ε : Type*}

/-- The events of one step, with the thread that emitted them. -/
def emit (t : T) (es : List ε) : List (T × ε) := es.map (t, ·)

@[simp] theorem emit_nil (t : T) : emit t ([] : List ε) = [] := rfl

@[simp] theorem emit_cons (t : T) (e : ε) (es : List ε) :
    emit t (e :: es) = (t, e) :: emit t es := rfl

variable [DecidableEq T]

/-- A configuration with thread `t` moved to `l` and the memory to `m`. -/
def move (c : Config T σ ℓ) (t : T) (m : σ) (l : ℓ) : Config T σ ℓ :=
  ⟨m, Function.update c.loc t l⟩

@[simp] theorem move_mem (c : Config T σ ℓ) (t : T) (m : σ) (l : ℓ) : (move c t m l).mem = m := rfl

@[simp] theorem move_loc_self (c : Config T σ ℓ) (t : T) (m : σ) (l : ℓ) :
    (move c t m l).loc t = l := Function.update_self ..

theorem move_loc_of_ne (c : Config T σ ℓ) {t u : T} (m : σ) (l : ℓ) (h : u ≠ t) :
    (move c t m l).loc u = c.loc u := Function.update_of_ne h ..

/-- What holds of the thread that moves and of every other thread. -/
theorem forall_move {P : T → ℓ → Prop} {c : Config T σ ℓ} {t : T} {m : σ} {l : ℓ} (ht : P t l)
    (hother : ∀ u, u ≠ t → P u (c.loc u)) (u : T) : P u ((move c t m l).loc u) := by
  by_cases hu : u = t
  · subst hu
    rwa [move_loc_self]
  · rw [move_loc_of_ne _ _ _ hu]
    exact hother u hu

/-- The runs from `c₀` all of whose steps are allowed by `G`, with their traces. -/
inductive Run (P : Program T σ ℓ α ε) (G : Config T σ ℓ → T → α → Prop) (c₀ : Config T σ ℓ) :
    List (T × ε) → Config T σ ℓ → Prop
  | start : Run P G c₀ [] c₀
  | step {tr c t a m l es} (h : Run P G c₀ tr c) (hs : P.step t a c.mem (c.loc t) = some (m, l, es))
      (hG : G c t a) : Run P G c₀ (tr ++ emit t es) (move c t m l)

/-- Every step is allowed. -/
def anyStep : Config T σ ℓ → T → α → Prop := fun _ _ _ => True

variable {P : Program T σ ℓ α ε} {G : Config T σ ℓ → T → α → Prop} {c₀ : Config T σ ℓ}

theorem Run.mono {G' : Config T σ ℓ → T → α → Prop} (hG : ∀ c t a, G c t a → G' c t a)
    {tr : List (T × ε)} {c : Config T σ ℓ} (h : P.Run G c₀ tr c) : P.Run G' c₀ tr c := by
  induction h with
  | start => exact .start
  | step _ hs hg ih => exact ih.step hs (hG _ _ _ hg)

theorem Run.trans {c₁ c₂ : Config T σ ℓ} {tr₁ tr₂ : List (T × ε)}
    (h₁ : P.Run G c₀ tr₁ c₁) (h₂ : P.Run G c₁ tr₂ c₂) : P.Run G c₀ (tr₁ ++ tr₂) c₂ := by
  induction h₂ with
  | start => simpa using h₁
  | step _ hs hg ih => simpa only [List.append_assoc] using ih.step hs hg

theorem Run.invariant {I : List (T × ε) → Config T σ ℓ → Prop} (h₀ : I [] c₀)
    (hI : ∀ {tr c t a m l es}, I tr c → P.step t a c.mem (c.loc t) = some (m, l, es) → G c t a →
      I (tr ++ emit t es) (move c t m l))
    {tr : List (T × ε)} {c : Config T σ ℓ} (h : P.Run G c₀ tr c) : I tr c := by
  induction h with
  | start => exact h₀
  | step _ hs hg ih => exact hI ih hs hg

/-- What holds in every state of a run may be assumed of its steps. -/
theorem Run.assume {I : Config T σ ℓ → Prop} {tr : List (T × ε)} {c : Config T σ ℓ}
    (h : P.Run G c₀ tr c) (hI : ∀ {tr' c'}, P.Run G c₀ tr' c' → tr' <+: tr → I c') :
    P.Run (fun c t a => G c t a ∧ I c) c₀ tr c := by
  induction h with
  | start => exact .start
  | step h hs hg ih =>
    have hprev := ih fun h' hp => hI h' (hp.trans (List.prefix_append ..))
    exact hprev.step hs ⟨hg, hI h (List.prefix_append ..)⟩

/-- A thread that takes no step stays where it is. -/
theorem Run.loc_eq {t : T} {tr : List (T × ε)} {c : Config T σ ℓ}
    (h : P.Run (fun _ u _ => u ≠ t) c₀ tr c) : c.loc t = c₀.loc t := by
  induction h with
  | start => rfl
  | step _ _ hu ih => rw [move_loc_of_ne _ _ _ (Ne.symm hu), ih]

/-- The actions `as` of thread `t`, one after the other, all of them allowed by `ok`. -/
def soloAt (P : Program T σ ℓ α ε) (ok : T → ℓ → α → Bool) (t : T) : List α → σ → ℓ →
    Option (σ × ℓ × List ε)
  | [], m, l => some (m, l, [])
  | a :: as, m, l => if ok t l a then
      (P.step t a m l).bind fun r => (soloAt P ok t as r.1 r.2.1).map fun r' =>
        (r'.1, r'.2.1, r.2.2 ++ r'.2.2)
    else none

theorem Run.soloAt {tr : List (T × ε)} {c : Config T σ ℓ} (h : P.Run G c₀ tr c) (ok : T → ℓ → α → Bool)
    (hG : ∀ c t a, ok t (c.loc t) a → G c t a) (t : T) (as : List α) (m : σ) (l : ℓ) (es : List ε)
    (hs : P.soloAt ok t as c.mem (c.loc t) = some (m, l, es)) :
    P.Run G c₀ (tr ++ emit t es) (move c t m l) := by
  induction as generalizing tr c es with
  | nil =>
    obtain ⟨rfl, rfl, rfl⟩ : c.mem = m ∧ c.loc t = l ∧ [] = es := by simpa [Program.soloAt] using hs
    simpa [move] using h
  | cons a as ih =>
    rw [Program.soloAt] at hs
    split at hs
    · next hok =>
      obtain ⟨⟨m₁, l₁, es₁⟩, h₁, hs⟩ := Option.bind_eq_some_iff.mp hs
      obtain ⟨⟨m₂, l₂, es₂⟩, h₂, heq⟩ := Option.map_eq_some_iff.mp hs
      obtain ⟨rfl, rfl, rfl⟩ : m₂ = m ∧ l₂ = l ∧ es₁ ++ es₂ = es := by simpa using heq
      have := ih (h.step h₁ (hG c t a hok)) es₂ (by simpa using h₂)
      simpa [move, emit] using this
    · cases hs

/-- A thread that runs alone for a while. -/
def solo (P : Program T σ ℓ α ε) : T → List α → σ → ℓ → Option (σ × ℓ × List ε) :=
  P.soloAt fun _ _ _ => true

omit [DecidableEq T] in
theorem solo_step {t : T} {a : α} {m : σ} {l : ℓ} {r : σ × ℓ × List ε} (h : P.step t a m l = some r) :
    P.solo t [a] m l = some r := by
  simp [Program.solo, Program.soloAt, h]

theorem Run.solo {tr : List (T × ε)} {c : Config T σ ℓ} (h : P.Run anyStep c₀ tr c) (t : T)
    (as : List α) (m : σ) (l : ℓ) (es : List ε) (hs : P.solo t as c.mem (c.loc t) = some (m, l, es)) :
    P.Run anyStep c₀ (tr ++ emit t es) (move c t m l) :=
  h.soloAt (fun _ _ _ => true) (fun _ _ _ _ => trivial) t as m l es hs

end Program

open Program

/-- The assertions of a rely-guarantee proof. A world `w : ω` is the memory and the trace
so far with whatever auxiliary state the proof keeps. `glob` holds between steps, `loc t`
is what thread `t` asserts at its program point, and `guar t` bounds what a step of `t`
does to the world, so that the assertions of the other threads survive it. -/
structure Assertions (T σ ℓ ε ω : Type*) where
  mem : ω → σ
  hist : ω → List (T × ε)
  glob : ω → Prop
  loc : T → ω → ℓ → Prop
  guar : T → ω → ω → Prop

/-- A step of `t` from `w` to memory `m` and local state `l` is accounted for. -/
def Assertions.Follows {T σ ℓ ε ω : Type*} (A : Assertions T σ ℓ ε ω) (t : T) (w : ω) (m : σ)
    (l : ℓ) (es : List ε) : Prop :=
  ∃ w', A.mem w' = m ∧ A.hist w' = A.hist w ++ emit t es ∧ A.glob w' ∧ A.loc t w' l ∧ A.guar t w w'

/-- A step that changes nothing but the program point. -/
theorem Assertions.follows_quiet {T σ ℓ ε ω : Type*} {A : Assertions T σ ℓ ε ω} {t : T} {w : ω}
    {l : ℓ} (hg : A.glob w) (hl : A.loc t w l) (hr : A.guar t w w) : A.Follows t w (A.mem w) l [] :=
  ⟨w, rfl, (List.append_nil _).symm, hg, hl, hr⟩

/-- The outcome of a step may be given in another form. -/
theorem Assertions.follows_of_eq {T σ ℓ ε ω : Type*} {A : Assertions T σ ℓ ε ω} {t : T} {w : ω}
    {m m' : σ} {l l' : ℓ} {es es' : List ε} (h : some (m, l, es) = some (m', l', es'))
    (hf : A.Follows t w m l es) : A.Follows t w m' l' es' := by
  simp only [Option.some.injEq, Prod.mk.injEq] at h
  obtain ⟨rfl, rfl, rfl⟩ := h
  exact hf

/-- A proof outline: every step is accounted for, and the assertions of the other threads
are stable. Traces outside `adm` need not be followed. -/
structure Outline {T σ ℓ α ε : Type*} [DecidableEq T] (P : Program T σ ℓ α ε)
    (G : Config T σ ℓ → T → α → Prop) (adm : List (T × ε) → Prop) (ω : Type*)
    extends Assertions T σ ℓ ε ω where
  step : ∀ {w ls t a m l es}, glob w → (∀ u, loc u w (ls u)) →
    P.step t a (mem w) (ls t) = some (m, l, es) → G ⟨mem w, ls⟩ t a → adm (hist w ++ emit t es) →
    toAssertions.Follows t w m l es
  stable : ∀ {t u w w' l}, u ≠ t → glob w → glob w' → loc u w l → guar t w w' → loc u w' l

namespace Outline
variable {T σ ℓ α ε ω : Type*} [DecidableEq T] {P : Program T σ ℓ α ε}
  {G : Config T σ ℓ → T → α → Prop} {adm : List (T × ε) → Prop}

/-- The world `w` describes the configuration `c` reached with trace `tr`. -/
structure Holds (O : Outline P G adm ω) (w : ω) (tr : List (T × ε)) (c : Config T σ ℓ) : Prop where
  mem : O.mem w = c.mem
  hist : O.hist w = tr
  glob : O.glob w
  loc : ∀ t, O.loc t w (c.loc t)

theorem Holds.next {O : Outline P G adm ω} {w : ω} {tr : List (T × ε)} {c : Config T σ ℓ}
    (hw : O.Holds w tr c) {t : T} {a : α} {m : σ} {l : ℓ} {es : List ε}
    (hs : P.step t a c.mem (c.loc t) = some (m, l, es)) (hG : G c t a) (hadm : adm (tr ++ emit t es)) :
    ∃ w', O.Holds w' (tr ++ emit t es) (move c t m l) ∧ O.guar t w w' := by
  obtain ⟨c, ls⟩ := c
  obtain ⟨rfl, rfl, hglob, hloc⟩ := hw
  obtain ⟨w', hm, hh, hg', hl, hguar⟩ := O.step hglob hloc hs hG hadm
  have hstable : ∀ u, u ≠ t → O.loc u w' (ls u) := fun u hu => O.stable hu hglob hg' (hloc u) hguar
  exact ⟨w', ⟨hm, hh, hg', forall_move (P := fun u => O.loc u w') hl hstable⟩, hguar⟩

/-- Every admissible run is followed by worlds of the outline. -/
theorem sound (O : Outline P G adm ω) (hadm : ∀ {h h'}, adm (h ++ h') → adm h)
    {c₀ : Config T σ ℓ} {w₀ : ω} (h₀ : O.Holds w₀ [] c₀)
    {tr : List (T × ε)} {c : Config T σ ℓ} (hrun : P.Run G c₀ tr c) (htr : adm tr) :
    ∃ w, O.Holds w tr c := by
  induction hrun with
  | start => exact ⟨w₀, h₀⟩
  | step _ hs hG ih =>
    obtain ⟨w, hw⟩ := ih (hadm htr)
    obtain ⟨w', hw', _⟩ := hw.next hs hG htr
    exact ⟨w', hw'⟩

end Outline

end Cds.Concurrent
