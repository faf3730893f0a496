import Mathlib.Data.List.Basic

/-! Linked lists in a heap of nodes with a `next` field. -/

namespace Cds.Concurrent

variable {A : Type*} {next next' : A → Option A} {p : Option A} {a : A} {L K : List A}

/-- Following `next` from `p` visits the nodes of `L` and ends there. -/
def Chain (next : A → Option A) : Option A → List A → Prop
  | p, [] => p = none
  | p, a :: L => p = some a ∧ Chain next (next a) L

theorem Chain.head? (h : Chain next p L) : p = L.head? := by
  cases L with
  | nil => exact h
  | cons a L => exact h.1

theorem Chain.of_append (h : Chain next p (K ++ L)) : Chain next L.head? L := by
  induction K generalizing p with
  | nil => exact Chain.head? h ▸ h
  | cons b K ih => exact ih h.2

theorem Chain.next_eq (h : Chain next p (K ++ a :: L)) : next a = L.head? := h.of_append.2.head?

theorem Chain.unique (h : Chain next p L) (h' : Chain next p K) : L = K := by
  induction L generalizing p K with
  | nil =>
    cases K with
    | nil => rfl
    | cons b K => exact absurd (h'.1.symm.trans h) (by simp)
  | cons a L ih =>
    cases K with
    | nil => exact absurd (h.1.symm.trans h') (by simp)
    | cons b K =>
      obtain rfl : a = b := Option.some.inj (h.1.symm.trans h'.1)
      rw [ih h.2 h'.2]

/-- A chain does not depend on the other nodes. -/
theorem Chain.congr (h : Chain next p L) (heq : ∀ b ∈ L, next' b = next b) : Chain next' p L := by
  induction L generalizing p with
  | nil => exact h
  | cons b L ih =>
    refine ⟨h.1, ?_⟩
    rw [heq b List.mem_cons_self]
    exact ih h.2 fun x hx => heq x (List.mem_cons_of_mem b hx)

theorem Chain.cons (h : Chain next p L) (ha : next a = p) : Chain next (some a) (a :: L) :=
  ⟨rfl, ha ▸ h⟩

/-- A node is linked behind the last one. -/
theorem Chain.snoc {b : A} (h : Chain next p (L ++ [a])) (hL : ∀ c ∈ L, next' c = next c)
    (ha : next' a = some b) (hb : next' b = none) : Chain next' p (L ++ [a, b]) := by
  induction L generalizing p with
  | nil => exact ⟨h.1, ha, hb⟩
  | cons c L ih =>
    refine ⟨h.1, ?_⟩
    rw [hL c List.mem_cons_self]
    exact ih h.2 fun x hx => hL x (List.mem_cons_of_mem c hx)

/-- A chain without repetition does not pass its own first node again. -/
theorem Chain.eq_nil_of_head? (h : (K ++ L).Nodup) (heq : (K ++ L).head? = L.head?) : K = [] := by
  cases K with
  | nil => rfl
  | cons b K =>
    have hmem : b ∈ L := List.mem_of_mem_head? heq.symm
    exact absurd (List.mem_append_right K hmem) (List.nodup_cons.mp h).1

end Cds.Concurrent
