import CdsBenchmarks.ChaseLev.DequeDefs
import Mathlib.Data.List.Basic

/-! Elements of the atomic deque. An element is named by the position of the mark of its
push, and sits in one place at a time: in the deque, with a call that removed it, or in
the return of that call. -/

namespace Cds.ChaseLev
open Concurrent ObjectSpec

variable {T : Type*}

/-- A call returns an element, not a failure. -/
def Gets (h : List (T × Mark Op (Option CInt))) (j : ℕ) (x : CInt) : Prop :=
  ∃ t, RetAt h j t (some x) ∧ x ≠ EMPTY ∧ x ≠ ABORT

/-- A push of `x` takes effect at position `i`. -/
def PushAt (h : List (T × Mark Op (Option CInt))) (i : ℕ) (x : CInt) : Prop :=
  ∃ t a b, h[i]? = some (t, .lin) ∧ OpenCall (h.take i) t (.push x) a b

/-- Each element is returned by at most one call, and what is returned was pushed: `src` gives
the push of the element that is returned at a position. -/
def AtMostOnce (h : List (T × Mark Op (Option CInt))) : Prop :=
  ∃ src : ℕ → ℕ, (∀ j x, Gets h j x → PushAt h (src j) x) ∧
    ∀ i j x y, Gets h i x → Gets h j y → src i = src j → i = j

namespace Elements

inductive Place (T : Type*)
  | item (n : ℕ)
  | held (t : T)
  | got (j : ℕ)
deriving DecidableEq

/-- The value of the element in a place. -/
def Value (h : List (T × Mark Op (Option CInt))) (s : List CInt) (st : T → Status Op (Option CInt)) :
    Place T → CInt → Prop
  | .item n, x => s[n]? = some x
  | .held t, x => (∃ o, st t = .done o (some x)) ∧ x ≠ EMPTY ∧ x ≠ ABORT
  | .got j, x => Gets h j x

variable {h h' : List (T × Mark Op (Option CInt))} {V V' : Place T → CInt → Prop} {f : Place T → ℕ}

/-- `f` names the element in each place. -/
structure Names (h : List (T × Mark Op (Option CInt))) (V : Place T → CInt → Prop) (f : Place T → ℕ) :
    Prop where
  push : ∀ p x, V p x → PushAt h (f p) x
  inj : ∀ p q x y, V p x → V q y → f p = f q → p = q

theorem PushAt.snoc {i : ℕ} {x : CInt} (hp : PushAt h i x) (e : T × Mark Op (Option CInt)) :
    PushAt (h ++ [e]) i x := by
  obtain ⟨t, a, b, hi, hopen⟩ := hp
  have hlt : i < h.length := (List.getElem?_eq_some_iff.mp hi).1
  refine ⟨t, a, b, ?_, ?_⟩
  · rw [List.getElem?_append_left hlt]
    exact hi
  · rwa [List.take_append_of_le_length (Nat.le_of_lt hlt)]

/-- The elements move, each to a place of its own. -/
theorem Names.moved (hf : Names h V f) (e : T × Mark Op (Option CInt)) (g : Place T → Place T)
    (hg : ∀ p x, V' p x → V (g p) x) (hinj : ∀ p q x y, V' p x → V' q y → g p = g q → p = q) :
    Names (h ++ [e]) V' (f ∘ g) where
  push p x hp := PushAt.snoc (hf.push _ x (hg p x hp)) e
  inj p q x y hp hq heq := hinj p q x y hp hq (hf.inj _ _ x y (hg p x hp) (hg q y hq) heq)

theorem Names.stay (hf : Names h V f) (e : T × Mark Op (Option CInt)) (hV : ∀ p x, V' p x → V p x) :
    Names (h ++ [e]) V' f :=
  hf.moved e id hV fun _ _ _ _ _ _ heq => heq

/-- A push adds one element. -/
theorem Names.pushed [DecidableEq T] (hf : Names h V f) {e : T × Mark Op (Option CInt)} (p₀ : Place T)
    {x₀ : CInt} (hpush : PushAt (h ++ [e]) h.length x₀)
    (hV : ∀ p x, V' p x → p ≠ p₀ ∧ V p x ∨ p = p₀ ∧ x = x₀) :
    Names (h ++ [e]) V' (Function.update f p₀ h.length) := by
  have hlt : ∀ {p x}, V p x → f p ≠ h.length := by
    intro p x hp heq
    obtain ⟨t, a, b, hi, -⟩ := hf.push p x hp
    exact absurd (List.getElem?_eq_some_iff.mp hi).1 (by omega)
  refine ⟨fun p x hp => ?_, fun p q x y hp hq heq => ?_⟩
  · obtain ⟨hne, hp⟩ | ⟨rfl, rfl⟩ := hV p x hp
    · rw [Function.update_of_ne hne]
      exact PushAt.snoc (hf.push p x hp) e
    · rwa [Function.update_self]
  · obtain ⟨hne, hp⟩ | ⟨rfl, rfl⟩ := hV p x hp <;> obtain ⟨hne', hq⟩ | ⟨rfl, rfl⟩ := hV q y hq
    · rw [Function.update_of_ne hne, Function.update_of_ne hne'] at heq
      exact hf.inj p q x y hp hq heq
    · rw [Function.update_of_ne hne, Function.update_self] at heq
      exact absurd heq (hlt hp)
    · rw [Function.update_of_ne hne', Function.update_self] at heq
      exact absurd heq.symm (hlt hq)
    · rfl

variable [DecidableEq T] {s s' : List CInt} {st : T → Status Op (Option CInt)} {t : T}

theorem done_update {u : T} {x : CInt} {z : Status Op (Option CInt)}
    (h : ∃ o, Function.update st t z u = .done o (some x)) :
    (u = t ∧ ∃ o, z = .done o (some x)) ∨ u ≠ t ∧ ∃ o, st u = .done o (some x) := by
  by_cases hu : u = t
  · subst hu
    exact .inl ⟨rfl, by simpa using h⟩
  · exact .inr ⟨hu, by simpa [hu] using h⟩

omit [DecidableEq T] in
theorem Gets.of_snoc {e : T × Mark Op (Option CInt)} {j : ℕ} {x : CInt} (h' : Gets (h ++ [e]) j x)
    (he : ∀ r, e.2 ≠ .ret r) : Gets h j x := by
  obtain ⟨t, hret, hx⟩ := h'
  rcases retAt_snoc.mp hret with hret | ⟨-, -, heq⟩
  · exact ⟨t, hret, hx⟩
  · exact absurd heq (he _)

/-- A step that neither adds an element nor moves one. -/
theorem value_stay {e : Mark Op (Option CInt)} {z : Status Op (Option CInt)} (he : ∀ r, e ≠ .ret r)
    (hz : ∀ o x, z = .done o (some x) → x = EMPTY ∨ x = ABORT) (p : Place T) (x : CInt)
    (hp : Value (h ++ [(t, e)]) s (Function.update st t z) p x) : Value h s st p x := by
  cases p with
  | item n => exact hp
  | held u =>
    rcases done_update hp.1 with ⟨-, o, ho⟩ | ⟨-, ho⟩
    · rcases hz o x ho with rfl | rfl
      · exact absurd rfl hp.2.1
      · exact absurd rfl hp.2.2
    · exact ⟨ho, hp.2⟩
  | got j => exact Gets.of_snoc hp he

/-- A call removes the element at index `n₀`, and `g` tells where the others were before. -/
theorem names_removed {f : Place T → ℕ} (hf : Names h (Value h s st) f) {o : Op} {x₀ : CInt} (n₀ : ℕ)
    (g : ℕ → ℕ) (hx₀ : s[n₀]? = some x₀) (hg : ∀ n x, s'[n]? = some x → s[g n]? = some x ∧ g n ≠ n₀)
    (hinj : ∀ m n, g m = g n → m = n) :
    ∃ f, Names (h ++ [(t, .lin)])
      (Value (h ++ [(t, .lin)]) s' (Function.update st t (.done o (some x₀)))) f := by
  -- where the value in each place was before the step
  let back : Place T → Place T := fun
    | .item n => .item (g n)
    | .held u => if u = t then .item n₀ else .held u
    | .got j => .got j
  refine ⟨f ∘ back, hf.moved _ back (fun p x hp => ?_) fun p q x y hp hq heq => ?_⟩
  · cases p with
    | item n => exact (hg n x hp).1
    | held u =>
      rcases done_update hp.1 with ⟨rfl, o', ho⟩ | ⟨hu, ho⟩
      · simp only [Status.done.injEq, Option.some.injEq] at ho
        rw [show back (.held u) = .item n₀ from if_pos rfl, ← ho.2]
        exact hx₀
      · rw [show back (.held u) = .held u from if_neg hu]
        exact ⟨ho, hp.2⟩
    | got j => exact Gets.of_snoc hp (by simp)
  · cases p with
    | item m =>
      cases q with
      | item n =>
        simp only [back, Place.item.injEq] at heq
        rw [hinj m n heq]
      | held u =>
        simp only [back] at heq
        split at heq
        -- `t` holds the removed value, which is not among those that stay
        · simp only [Place.item.injEq] at heq
          exact absurd heq (hg m x hp).2
        · cases heq
      | got j => cases heq
    | held u =>
      cases q with
      | item n =>
        simp only [back] at heq
        split at heq
        · simp only [Place.item.injEq] at heq
          exact absurd heq.symm (hg n y hq).2
        · cases heq
      | held v =>
        simp only [back] at heq
        split at heq <;> split at heq
        · next hu hv => rw [hu, hv]
        · cases heq
        · cases heq
        · exact heq
      | got j =>
        simp only [back] at heq
        split at heq <;> cases heq
    | got i =>
      cases q with
      | item n => cases heq
      | held u =>
        simp only [back] at heq
        split at heq <;> cases heq
      | got j => exact heq

theorem names_returned {f : Place T → ℕ} (hf : Names h (Value h s st) f) {o : Op} {r : Option CInt}
    (hst : st t = .done o r) :
    ∃ f, Names (h ++ [(t, .ret r)]) (Value (h ++ [(t, .ret r)]) s (Function.update st t .idle)) f := by
  let back : Place T → Place T := fun
    | .got j => if j = h.length then .held t else .got j
    | p => p
  have hheld : ∀ {u x},
      Value (h ++ [(t, .ret r)]) s (Function.update st t .idle) (.held u) x → u ≠ t := by
    rintro u x ⟨ho, -⟩
    rcases done_update ho with ⟨-, o, ho⟩ | ⟨hu, -⟩
    · cases ho
    · exact hu
  refine ⟨f ∘ back, hf.moved _ back (fun p x hp => ?_) fun p q x y hp hq heq => ?_⟩
  · cases p with
    | item n => exact hp
    | held u =>
      refine ⟨?_, hp.2⟩
      rcases done_update hp.1 with ⟨-, o, ho⟩ | ⟨-, ho⟩
      · cases ho
      · exact ho
    | got j =>
      obtain ⟨u, hret, hx⟩ := hp
      rcases retAt_snoc.mp hret with hret | ⟨rfl, rfl, heq⟩
      · rw [show back (.got j) = .got j from if_neg (Nat.ne_of_lt hret.lt)]
        exact ⟨u, hret, hx⟩
      · rw [show back (.got h.length) = .held t from if_pos rfl]
        exact ⟨⟨o, hst.trans (by simpa using heq)⟩, hx⟩
  · cases p with
    | item m =>
      cases q with
      | item n | held u => exact heq
      | got j =>
        simp only [back] at heq
        split at heq <;> cases heq
    | held u =>
      cases q with
      | item n | held v => exact heq
      | got j =>
        simp only [back] at heq
        split at heq
        · exact absurd (Place.held.inj heq) (hheld hp)
        · cases heq
    | got i =>
      cases q with
      | item n =>
        simp only [back] at heq
        split at heq <;> cases heq
      | held u =>
        simp only [back] at heq
        split at heq
        · exact absurd (Place.held.inj heq).symm (hheld hq)
        · cases heq
      | got j =>
        simp only [back] at heq
        split at heq <;> split at heq
        · next hi hj => rw [hi, hj]
        · cases heq
        · cases heq
        · exact heq

theorem names_effect {f : Place T → ℕ} (hr : deque.Replay h s st) (hf : Names h (Value h s st) f)
    {o : Op} {r : Option CInt} (hst : st t = .pending o) (hpost : deque.post s o r s') :
    ∃ f, Names (h ++ [(t, .lin)])
      (Value (h ++ [(t, .lin)]) s' (Function.update st t (.done o r))) f := by
  cases o with
  | push x₀ =>
    obtain ⟨rfl, rfl⟩ : r = none ∧ s' = s ++ [x₀] := hpost
    have hopen := hr.tookEffect t
    rw [hst] at hopen
    obtain ⟨a, b, hopen⟩ := hopen
    refine ⟨_, hf.pushed (.item s.length) ⟨t, a, b, by simp, by simpa using hopen⟩ fun p x hp => ?_⟩
    cases p with
    | item n =>
      rcases (getElem?_snoc ..).mp hp with hp | ⟨rfl, rfl⟩
      · exact .inl ⟨fun heq => absurd (Place.item.inj heq) (Nat.ne_of_lt (lt_of_getElem? hp)), hp⟩
      · exact .inr ⟨rfl, rfl⟩
    | held u =>
      refine .inl ⟨by simp, ?_, hp.2⟩
      rcases done_update hp.1 with ⟨-, o, ho⟩ | ⟨-, ho⟩
      · cases ho
      · exact ho
    | got j => exact .inl ⟨by simp, Gets.of_snoc hp (by simp)⟩
  | take =>
    rcases hpost with ⟨x₀, rfl, -, -, rfl⟩ | ⟨rfl, rfl, rfl⟩
    · refine names_removed hf s'.length id (by simp) (fun n x hn => ?_) fun m n h => h
      have hlt := (List.getElem?_eq_some_iff.mp hn).1
      exact ⟨(List.getElem?_append_left hlt).trans hn, Nat.ne_of_lt hlt⟩
    · exact ⟨f, hf.stay _ (value_stay (by simp) (by simp))⟩
  | steal =>
    rcases hpost with ⟨x₀, rfl, -, -, rfl⟩ | ⟨hfail, rfl⟩
    · exact names_removed hf 0 Nat.succ rfl (fun n x hn => ⟨hn, Nat.succ_ne_zero n⟩)
        fun m n h => Nat.succ.inj h
    · refine ⟨f, hf.stay _ (value_stay (by simp) fun o x hx => ?_)⟩
      obtain ⟨-, rfl⟩ : Op.steal = o ∧ r = some x := by simpa using hx
      exact hfail.imp Option.some.inj Option.some.inj

theorem names_replay (hr : deque.Replay h s st) : ∃ f, Names h (Value h s st) f := by
  induction hr with
  | nil =>
    have hnone : ∀ p x, ¬Value (T := T) [] [] (fun _ => .idle) p x := by
      rintro (n | t | j) x hp
      · cases hp
      · obtain ⟨⟨o, ho⟩, -⟩ := hp
        cases ho
      · obtain ⟨t, hret, -⟩ := hp
        cases hret
    exact ⟨fun _ => 0, fun p x hp => absurd hp (hnone p x), fun p _ x _ hp => absurd hp (hnone p x)⟩
  | call hr hst ih =>
    obtain ⟨f, hf⟩ := ih
    exact ⟨f, hf.stay _ (value_stay (by simp) (by simp))⟩
  | lin hr hst hpost ih =>
    obtain ⟨f, hf⟩ := ih
    exact names_effect hr hf hst hpost
  | ret hr hst ih =>
    obtain ⟨f, hf⟩ := ih
    exact names_returned hf hst

end Elements

theorem atMostOnce_of_replay [DecidableEq T] {h : List (T × Mark Op (Option CInt))} {s : List CInt}
    {st : T → Status Op (Option CInt)} (hr : deque.Replay h s st) : AtMostOnce h := by
  obtain ⟨f, hf⟩ := Elements.names_replay hr
  refine ⟨fun j => f (.got j), fun j x hj => hf.push (.got j) x hj, fun i j x y hi hj heq => ?_⟩
  have := hf.inj (.got i) (.got j) x y hi hj heq
  simpa using this

end Cds.ChaseLev
