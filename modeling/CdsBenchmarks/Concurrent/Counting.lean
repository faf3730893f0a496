import CdsBenchmarks.Concurrent.Trace
import Mathlib.Algebra.BigOperators.Group.Finset.Piecewise
import Mathlib.Algebra.Order.BigOperators.Group.Finset
import Mathlib.Algebra.BigOperators.Ring.Finset

/-! Sums and counts over the local states of finitely many threads, and over their events. -/

namespace Cds.Concurrent
open Finset Program

variable {T σ ℓ : Type*} [Fintype T]

theorem sum_update {ι α M : Type*} [Fintype ι] [DecidableEq ι] [AddCommMonoid M] (f : ι → α)
    (g : α → M) (i : ι) (b : α) :
    g (f i) + ∑ j, g (Function.update f i b j) = g b + ∑ j, g (f j) := by
  have hrest : ∑ j ∈ Finset.univ.erase i, g (Function.update f i b j) =
      ∑ j ∈ Finset.univ.erase i, g (f j) :=
    Finset.sum_congr rfl fun j hj => by rw [Function.update_of_ne (Finset.ne_of_mem_erase hj)]
  rw [← Finset.add_sum_erase _ _ (Finset.mem_univ i), hrest, Function.update_self, add_left_comm,
    Finset.add_sum_erase _ (fun j => g (f j)) (Finset.mem_univ i)]

/-- The sum of a weight over all threads. -/
def total (f : ℓ → ℤ) (c : Config T σ ℓ) : ℤ := ∑ t, f (c.loc t)

/-- The number of threads whose local state satisfies `p`. -/
def count (p : ℓ → Bool) (c : Config T σ ℓ) : ℕ := (univ.filter fun t => p (c.loc t)).card

theorem total_move [DecidableEq T] (f : ℓ → ℤ) (c : Config T σ ℓ) (t : T) (m : σ) (l : ℓ) :
    total f (move c t m l) = total f c - f (c.loc t) + f l := by
  have h₁ := add_sum_erase univ (fun u => f ((move c t m l).loc u)) (mem_univ t)
  have h₂ := add_sum_erase univ (fun u => f (c.loc u)) (mem_univ t)
  have h₃ : ∑ u ∈ univ.erase t, f ((move c t m l).loc u) = ∑ u ∈ univ.erase t, f (c.loc u) :=
    sum_congr rfl fun u hu => by rw [move_loc_of_ne _ _ _ (ne_of_mem_erase hu)]
  simp only [move_loc_self] at h₁
  rw [total, total, ← h₁, ← h₂, h₃]
  omega

theorem total_add (f g : ℓ → ℤ) (c : Config T σ ℓ) :
    total (fun l => f l + g l) c = total f c + total g c := sum_add_distrib

theorem total_mul (k : ℤ) (f : ℓ → ℤ) (c : Config T σ ℓ) :
    total (fun l => k * f l) c = k * total f c := (mul_sum ..).symm

theorem total_indicator (p : ℓ → Bool) (c : Config T σ ℓ) :
    total (fun l => if p l then 1 else 0) c = count p c := by
  rw [total, count, card_filter]
  push_cast
  rfl

theorem le_total {f : ℓ → ℤ} (hf : ∀ l, 0 ≤ f l) (c : Config T σ ℓ) (t : T) :
    f (c.loc t) ≤ total f c := single_le_sum (fun u _ => hf (c.loc u)) (mem_univ t)

theorem total_le {f : ℓ → ℤ} {k : ℤ} (hf : ∀ l, f l ≤ k) (c : Config T σ ℓ) :
    total f c ≤ Fintype.card T * k := by
  simpa [total] using sum_le_card_nsmul univ (fun t => f (c.loc t)) k fun t _ => hf (c.loc t)

/-- Only the threads in `s` count. -/
theorem total_le_card {f : ℓ → ℤ} {k : ℤ} {c : Config T σ ℓ} {s : Finset T}
    (hf : ∀ t ∈ s, f (c.loc t) ≤ k) (h₀ : ∀ t ∉ s, f (c.loc t) = 0) : total f c ≤ s.card * k := by
  rw [total, ← sum_subset s.subset_univ fun t _ ht => h₀ t ht]
  simpa using sum_le_card_nsmul s (fun t => f (c.loc t)) k hf

theorem total_nonneg {f : ℓ → ℤ} (hf : ∀ l, 0 ≤ f l) (c : Config T σ ℓ) : 0 ≤ total f c :=
  sum_nonneg fun t _ => hf (c.loc t)

theorem count_eq_zero {p : ℓ → Bool} {c : Config T σ ℓ} :
    count p c = 0 ↔ ∀ t, p (c.loc t) = false := by
  simp [count, filter_eq_empty_iff]

theorem count_le_one {p : ℓ → Bool} {c : Config T σ ℓ}
    (h : ∀ t u, p (c.loc t) → p (c.loc u) → t = u) : count p c ≤ 1 :=
  card_le_one.mpr fun t ht u hu => h t u (by simpa using ht) (by simpa using hu)

/-! ## Events -/

section Events
variable {S ε : Type*} {p : ε → Bool} {h h' : List (S × ε)} {t u : S}

/-- The number of events satisfying `p`. -/
def number (p : ε → Bool) (h : List (S × ε)) : ℕ := h.countP fun x => p x.2

theorem number_append : number p (h ++ h') = number p h + number p h' := List.countP_append ..

@[simp] theorem number_emit (t : S) (es : List ε) : number p (emit t es) = es.countP p := by
  simp [number, emit, List.countP_map, Function.comp_def]

theorem number_snoc (h : List (S × ε)) (t : S) (e : ε) :
    number p (h ++ [(t, e)]) = number p h + if p e then 1 else 0 := by
  simp [number, List.countP_append, List.countP_cons]

/-- No difference of two counts in a prefix is longer than the trace. -/
theorem number_sub_lt {p q : ε → Bool} {n : ℕ} (hp : h' <+: h) (hlen : h.length < n) :
    number p h' - number q h' < n := by
  have h₁ := hp.length_le
  have h₂ : number p h' ≤ h'.length := List.countP_le_length
  omega

variable [DecidableEq S]

/-- The number of events of thread `t` satisfying `p`. -/
def numberOf (t : S) (p : ε → Bool) (h : List (S × ε)) : ℕ := h.countP fun x => x.1 = t && p x.2

theorem numberOf_append : numberOf t p (h ++ h') = numberOf t p h + numberOf t p h' :=
  List.countP_append ..

@[simp] theorem numberOf_emit_self (t : S) (es : List ε) : numberOf t p (emit t es) = es.countP p := by
  simp [numberOf, emit, List.countP_map, Function.comp_def]

theorem numberOf_emit_of_ne (hu : u ≠ t) (es : List ε) : numberOf t p (emit u es) = 0 := by
  simp [numberOf, emit, List.countP_map, Function.comp_def, hu]

theorem sum_numberOf [Fintype S] (p : ε → Bool) (h : List (S × ε)) :
    ∑ t, numberOf t p h = number p h := by
  induction h with
  | nil => simp [numberOf, number]
  | cons x h ih =>
    have hx : ∑ t, (if x.1 = t && p x.2 then 1 else 0) = if p x.2 then 1 else 0 := by
      by_cases hp : p x.2 <;> simp [hp]
    simp only [numberOf, number, List.countP_cons, sum_add_distrib] at ih ⊢
    rw [ih, hx]

end Events

end Cds.Concurrent
