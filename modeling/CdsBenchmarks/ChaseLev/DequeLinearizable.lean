import CdsBenchmarks.ChaseLev.DequeElements
import CdsBenchmarks.ChaseLev.DequeSteps

/-! The deque takes each of its operations at one access. With at most one resize no new size is
stored for an array in use, so that the invariant asks nothing of the steps. -/

namespace Cds.ChaseLev
open Concurrent Program

/-- Every operation takes its transition of the atomic deque at the access marked `lin`, and
each element is returned at most once. -/
theorem deque_linearizable {T : Type*} [DecidableEq T] {owner : T} {m : Mem} {k : ℕ}
    (hmade : Made m k) {tr : List (T × Event)} {c : Config T Mem Pc}
    (hrun : (program T).Run (byRole owner) (start T m) tr c) (hfirst : PushFirst owner tr)
    (hresizes : resizes tr ≤ k) :
    (∃ s st, deque.Replay (history tr) s st) ∧ AtMostOnce (history tr) := by
  have hle : k ≤ 1 := by cases hmade <;> decide
  have hkeep : (program T).Run (Ends.keeping k owner) (start T m) tr c :=
    hrun.mono fun _ _ _ h => ⟨h, fun hk => absurd hk (Nat.not_lt.mpr hle)⟩
  obtain ⟨tr', hnoted, rfl⟩ := hkeep.observe fun _ => note
  obtain ⟨w, hw⟩ := (Ends.outline owner (by omega) (by omega)).sound Ends.Few.of_append
    (Ends.holds_start hmade _ _) hnoted ⟨hfirst, hresizes⟩
  have hreplay := hw.glob.replay
  rw [show w.hist = tr' from hw.hist] at hreplay
  exact ⟨⟨w.s, w.st, hreplay⟩, atMostOnce_of_replay hreplay⟩

/-- A thief that has loaded the first array steals from it after the owner has resized, and
the owner takes the newest element. -/
theorem deque_linearizable_stale_array : ∃ tr : List (Bool × Event), resizes tr = 1 ∧
    (false, .ret (some 1)) ∈ tr ∧ (true, .ret (some 3)) ∈ tr ∧
    (∃ s st, deque.Replay (history tr) s st) ∧ AtMostOnce (history tr) := by
  have h₀ : (program Bool).Run (byRole true) (start Bool create) [] (start Bool create) := .start
  have hok : ∀ (c : Config Bool Mem Pc) t a, inRole true t (c.loc t) a → byRole true c t a :=
    fun _ _ _ h => h
  have h₁ := h₀.soloAt (inRole true) hok true
    (.call (.push 1) :: List.replicate 8 .run ++ .call (.push 2) :: List.replicate 8 .run) _ _ _ rfl
  have h₂ := h₁.soloAt (inRole true) hok false (.call .steal :: List.replicate 3 .run) _ _ _ rfl
  have h₃ := h₂.soloAt (inRole true) hok true (.call (.push 3) :: List.replicate 19 .run) _ _ _ rfl
  have h₄ := h₃.soloAt (inRole true) hok false (List.replicate 4 .run) _ _ _ rfl
  have h₅ := h₄.soloAt (inRole true) hok true (.call .take :: List.replicate 7 .run) _ _ _ rfl
  refine ⟨_, rfl, by decide, by decide, deque_linearizable .create h₅
    (fun pre post h => ?_) (by decide)⟩
  cases pre with
  | nil => simp at h
  | cons e pre => exact ⟨1, List.mem_cons.mpr (.inl (List.cons.inj h).1)⟩

end Cds.ChaseLev
