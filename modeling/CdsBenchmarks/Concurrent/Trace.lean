import CdsBenchmarks.Concurrent.Program

/-! Positions in a trace: the `k`-th event of a kind, and the next event of a thread. -/

namespace Cds.Concurrent
open Program

theorem getElem?_snoc {α : Type*} (l : List α) (x : α) (i : ℕ) (y : α) :
    (l ++ [x])[i]? = some y ↔ l[i]? = some y ∨ i = l.length ∧ x = y := by
  rcases Nat.lt_trichotomy i l.length with hi | rfl | hi
  · simp [List.getElem?_append_left hi, Nat.ne_of_lt hi]
  · simp
  · have h₁ : (l ++ [x])[i]? = none := by simp; omega
    have h₂ : l[i]? = none := by simp; omega
    simp [h₁, h₂, Nat.ne_of_gt hi]

theorem lt_of_getElem? {α : Type*} {l : List α} {i : ℕ} {x : α} (h : l[i]? = some x) : i < l.length :=
  (List.getElem?_eq_some_iff.mp h).1

variable {T ε : Type*}

/-- Thread `t` emits an event satisfying `p` at position `i`. -/
def EventAt (h : List (T × ε)) (p : ε → Prop) (t : T) (i : ℕ) : Prop :=
  ∃ e, h[i]? = some (t, e) ∧ p e

/-- The number of events `e`. -/
def occurrences [DecidableEq ε] (e : ε) (h : List (T × ε)) : ℕ := h.countP fun x => x.2 = e

theorem occurrences_append [DecidableEq ε] (e : ε) (h h' : List (T × ε)) :
    occurrences e (h ++ h') = occurrences e h + occurrences e h' := List.countP_append ..

theorem occurrences_snoc [DecidableEq ε] (e : ε) (h : List (T × ε)) (t : T) (e' : ε) :
    occurrences e (h ++ [(t, e')]) = occurrences e h + if e' = e then 1 else 0 := by
  rw [occurrences_append]
  simp [occurrences, List.countP_cons]

/-- The threads that emitted `e`, in order. -/
def emitters [DecidableEq ε] (e : ε) (h : List (T × ε)) : List T :=
  h.filterMap fun x => if x.2 = e then some x.1 else none

theorem emitters_snoc [DecidableEq ε] (e : ε) (h : List (T × ε)) (t : T) (e' : ε) :
    emitters e (h ++ [(t, e')]) = emitters e h ++ if e' = e then [t] else [] := by
  unfold emitters
  by_cases he : e' = e <;> simp [he]

/-- Thread `t` emits `e` at position `i`, after `k` other events `e`. -/
def Kth [DecidableEq ε] (e : ε) (h : List (T × ε)) (k i : ℕ) (t : T) : Prop :=
  h[i]? = some (t, e) ∧ occurrences e (h.take i) = k

/-- The first event of `t` after position `i` is `e`, at position `j`. -/
def Next (h : List (T × ε)) (t : T) (i j : ℕ) (e : ε) : Prop :=
  i < j ∧ h[j]? = some (t, e) ∧ ∀ k, i < k → k < j → ∀ e', h[k]? ≠ some (t, e')

/-- The last event of `t` is at position `i`. -/
def Latest (h : List (T × ε)) (t : T) (i : ℕ) : Prop :=
  i < h.length ∧ ∀ k, i < k → ∀ e, h[k]? ≠ some (t, e)

variable {h h' : List (T × ε)} {t u : T} {e e' : ε} {i j k : ℕ}

theorem EventAt.lt {p : ε → Prop} (hi : EventAt h p t i) : i < h.length := by
  obtain ⟨_, he, -⟩ := hi
  exact lt_of_getElem? he

theorem EventAt.append {p : ε → Prop} (hi : EventAt h p t i) : EventAt (h ++ h') p t i := by
  have hlt := hi.lt
  obtain ⟨e, he, hp⟩ := hi
  exact ⟨e, by rw [List.getElem?_append_left hlt, he], hp⟩

theorem eventAt_snoc {p : ε → Prop} :
    EventAt (h ++ [(u, e)]) p t i ↔ EventAt h p t i ∨ i = h.length ∧ u = t ∧ p e := by
  constructor
  · rintro ⟨e', he, hp⟩
    rcases (getElem?_snoc ..).mp he with he | ⟨hi, heq⟩
    · exact .inl ⟨e', he, hp⟩
    · cases heq
      exact .inr ⟨hi, rfl, hp⟩
  · rintro (hi | ⟨rfl, rfl, hp⟩)
    · exact hi.append
    · exact ⟨e, (getElem?_snoc ..).mpr (.inr ⟨rfl, rfl⟩), hp⟩

theorem Kth.append [DecidableEq ε] (hk : Kth e h k i t) : Kth e (h ++ h') k i t := by
  have hlt := lt_of_getElem? hk.1
  exact ⟨by rw [List.getElem?_append_left hlt,
    hk.1], by rw [List.take_append_of_le_length (Nat.le_of_lt hlt), hk.2]⟩

theorem Next.append (hn : Next h t i j e) : Next (h ++ h') t i j e := by
  obtain ⟨hij, hj, hno⟩ := hn
  have hlt := lt_of_getElem? hj
  refine ⟨hij, by rw [List.getElem?_append_left hlt, hj], fun k h₁ h₂ e' => ?_⟩
  rw [List.getElem?_append_left (Nat.lt_trans h₂ hlt)]
  exact hno k h₁ h₂ e'

theorem kth_snoc [DecidableEq ε] : Kth e (h ++ [(t, e')]) k i u ↔
    Kth e h k i u ∨ (i = h.length ∧ t = u ∧ e' = e ∧ occurrences e h = k) := by
  rw [Kth, getElem?_snoc]
  constructor
  · rintro ⟨hi | ⟨rfl, heq⟩, hk⟩
    · exact .inl ⟨hi, by rwa [List.take_append_of_le_length (Nat.le_of_lt (lt_of_getElem? hi))] at hk⟩
    · cases heq
      exact .inr ⟨rfl, rfl, rfl, by simpa using hk⟩
  · rintro (hk | ⟨rfl, rfl, rfl, hk⟩)
    · exact ⟨.inl hk.1, hk.append.2⟩
    · exact ⟨.inr ⟨rfl, rfl⟩, by simpa using hk⟩

theorem next_snoc : Next (h ++ [(t, e')]) u i j e ↔
    Next h u i j e ∨ (j = h.length ∧ t = u ∧ e' = e ∧ Latest h u i) := by
  constructor
  · rintro ⟨hij, hj, hno⟩
    have hno' : ∀ k, i < k → k < j → ∀ x, h[k]? ≠ some (u, x) := fun k h₁ h₂ x hk =>
      hno k h₁ h₂ x ((getElem?_snoc ..).mpr (.inl hk))
    rcases (getElem?_snoc ..).mp hj with hj | ⟨rfl, heq⟩
    · exact .inl ⟨hij, hj, hno'⟩
    · cases heq
      exact .inr ⟨rfl, rfl, rfl, hij, fun k hk x hx => hno' k hk (lt_of_getElem? hx) x hx⟩
  · rintro (hn | ⟨rfl, rfl, rfl, hl⟩)
    · exact hn.append
    · exact ⟨hl.1, (getElem?_snoc ..).mpr (.inr ⟨rfl, rfl⟩), fun k hk hlt x hx =>
        hl.2 k hk x (List.getElem?_append_left hlt ▸ hx)⟩

/-- The next event after the `k`-th event `e` is that of the old trace or the new one. -/
theorem next_snoc_of_kth [DecidableEq ε] {e'' : ε} (hk : Kth e (h ++ [(t, e')]) k i u)
    (hn : Next (h ++ [(t, e')]) u i j e'') : Kth e h k i u ∧
      (Next h u i j e'' ∨ (j = h.length ∧ t = u ∧ e' = e'' ∧ Latest h u i)) := by
  have hn := next_snoc.mp hn
  have hi : i < h.length := by
    rcases hn with hn | ⟨-, -, -, hl⟩
    · exact Nat.lt_trans hn.1 (lt_of_getElem? hn.2.1)
    · exact hl.1
  exact ⟨(kth_snoc.mp hk).resolve_right fun hnew => absurd hnew.1 (Nat.ne_of_lt hi), hn⟩

theorem latest_snoc (t : T) (e : ε) : Latest (h ++ [(t, e)]) t h.length := by
  refine ⟨by simp, fun k hk e' heq => ?_⟩
  have := lt_of_getElem? heq
  simp only [List.length_append, List.length_singleton] at this
  omega

theorem Latest.other (hl : Latest h u i) (hu : u ≠ t) (es : List ε) : Latest (h ++ emit t es) u i := by
  refine ⟨Nat.lt_of_lt_of_le hl.1 (by simp), fun k hk e heq => ?_⟩
  by_cases hlt : k < h.length
  · rw [List.getElem?_append_left hlt] at heq
    exact hl.2 k hk e heq
  · have hmem := List.mem_of_getElem? (List.getElem?_append_right (Nat.le_of_not_lt hlt) ▸ heq)
    obtain ⟨_, -, heq⟩ := List.mem_map.mp hmem
    exact hu (congrArg Prod.fst heq).symm

/-- A thread that takes no step emits nothing. -/
theorem Latest.run [DecidableEq T] {σ ℓ α : Type*} {P : Program T σ ℓ α ε} {c₀ c : Config T σ ℓ}
    (hl : Latest h t i) (hrun : P.Run (fun _ u _ => u ≠ t) c₀ h' c) : Latest (h ++ h') t i := by
  induction hrun with
  | start => simpa using hl
  | step _ _ hu ih =>
    rw [← List.append_assoc]
    exact ih.other (Ne.symm hu) _

theorem Latest.unique (hl : Latest h u i) (hl' : Latest h u j) (hi : h[i]? = some (u, e))
    (hj : h[j]? = some (u, e')) : i = j := by
  rcases Nat.lt_trichotomy i j with hlt | heq | hlt
  · exact absurd hj (hl.2 j hlt e')
  · exact heq
  · exact absurd hi (hl'.2 i hlt e)

end Cds.Concurrent
