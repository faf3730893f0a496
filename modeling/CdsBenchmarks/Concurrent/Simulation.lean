import CdsBenchmarks.Concurrent.Observe

/-! Forward simulation. A program refines another that takes, for each of its steps, any
number of steps with the same events. -/

namespace Cds.Concurrent
open Program

variable {T σ ℓ α ε κ σ' ℓ' α' : Type*} [DecidableEq T] {P : Program T σ ℓ α (ε ⊕ κ)}
  {Q : Program T σ' ℓ' α' ε}
  {R : List (T × (ε ⊕ κ)) → Config T σ ℓ → Config T σ' ℓ' → Prop} {c₀ : Config T σ ℓ}
  {d₀ : Config T σ' ℓ'}

/-- **Forward simulation.** `R` relates what `P` and `Q` have reached. -/
theorem Program.Run.simulate (adm : List (T × (ε ⊕ κ)) → Prop) (hadm : ∀ {h h'}, adm (h ++ h') → adm h)
    (h₀ : R [] c₀ d₀)
    (hR : ∀ {tr c d t a m l es}, Q.Run anyStep d₀ (Concurrent.events tr) d → R tr c d →
      P.step t a c.mem (c.loc t) = some (m, l, es) → adm (tr ++ emit t es) →
      ∃ d', Q.Run anyStep d (Concurrent.events (emit t es)) d' ∧ R (tr ++ emit t es) (move c t m l) d')
    {tr : List (T × (ε ⊕ κ))} {c : Config T σ ℓ} (h : P.Run anyStep c₀ tr c) (htr : adm tr) :
    ∃ d, Q.Run anyStep d₀ (Concurrent.events tr) d ∧ R tr c d := by
  induction h with
  | start => exact ⟨d₀, .start, h₀⟩
  | step _ hs _ ih =>
    obtain ⟨d, hd, hrel⟩ := ih (hadm htr)
    obtain ⟨d', hd', hrel'⟩ := hR hd hrel hs htr
    exact ⟨d', by rw [events_append]; exact hd.trans hd', hrel'⟩

end Cds.Concurrent
