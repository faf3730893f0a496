import CdsBenchmarks.ChaseLev.DequeShape

/-! The deque used by a single thread, call after call. It is an exact double-ended list
except where an index passes 0: `take` computes `bottom - 1` before it tests for emptiness,
and `push` may increment `bottom` to 0. -/

namespace Cds.ChaseLev
open Concurrent Ends

/-- The thread at `l` runs alone until its call returns `r` and leaves memory `m'`. -/
inductive Returns : Mem → Pc → Mem → Option CInt → Prop
  | ret {m r} : Returns m (.ret r) m r
  | step {m l m' l' es m'' r} (hs : access m l = some (m', l', es)) (h : Returns m' l' m'' r) :
      Returns m l m'' r

theorem not_returns_idle {m m' : Mem} {r : Option CInt} : ¬Returns m .idle m' r := by
  rintro (_ | ⟨hs, -⟩)
  cases hs

theorem Returns.unique {m m₁ m₂ : Mem} {l : Pc} {r₁ r₂ : Option CInt} (h₁ : Returns m l m₁ r₁)
    (h₂ : Returns m l m₂ r₂) : m₁ = m₂ ∧ r₁ = r₂ := by
  induction h₁ with
  | ret =>
    cases h₂ with
    | ret => exact ⟨rfl, rfl⟩
    | step hs h =>
      cases hs
      exact absurd h not_returns_idle
  | step hs h ih =>
    cases h₂ with
    | ret =>
      cases hs
      exact absurd h not_returns_idle
    | step hs' h' =>
      rw [hs] at hs'
      cases hs'
      exact ih h'

/-! ## The list -/

/-- What an operation does to the list and returns. -/
def Op.apply (s : List CInt) : Op → List CInt × Option CInt
  | .push x => (s ++ [x], none)
  | .take => (s.dropLast, some (s.getLast?.getD EMPTY))
  | .steal => (s.tail, some (s.head?.getD EMPTY))

/-- The slots from `top` to `bottom - 1` hold the list. -/
def Mem.Holds (m : Mem) (s : List CInt) : Prop :=
  m.top ≤ m.bottom ∧ s = (List.Ico m.top.toNat m.bottom.toNat).map (slot m m.array)

/-- The calls `os` push no failure value and never store more than `n` elements. -/
def Fits (n : ℕ) : List CInt → List Op → Prop
  | _, [] => True
  | s, o :: os => (∀ x, o = .push x → x ≠ EMPTY ∧ x ≠ ABORT) ∧ (o.apply s).1.length ≤ n ∧
      Fits n (o.apply s).1 os

/-- Every call of `os` does to the deque what it does to the list, and returns `EMPTY` exactly
when there is nothing to remove. -/
def Exact : Mem → List CInt → List Op → Prop
  | _, _, [] => True
  | m, s, o :: os => ∃ m', Returns m o.entry m' (o.apply s).2 ∧
      ((o.apply s).2 = some EMPTY ↔ (o = .take ∨ o = .steal) ∧ s = []) ∧
      m'.Holds (o.apply s).1 ∧ Exact m' (o.apply s).1 os

/-- No index passes 0 in the call. -/
def Op.InRange (m : Mem) : Op → Prop
  | .push _ => m.bottom ≠ -1
  | .take => m.bottom ≠ 0
  | .steal => True

def InRange : Mem → List Op → Prop
  | _, [] => True
  | m, o :: os => o.InRange m ∧ ∀ m' r, Returns m o.entry m' r → InRange m' os

/-! ## The calls -/

section Calls
variable {m : Mem}

theorem returns_push (x : CInt) (hroom : ¬m.bottom - m.top > m.size m.array - 1) :
    Returns m (.pushBottom x)
      { m.store m.array (m.bottom % m.size m.array).toNat x with bottom := m.bottom + 1 } none :=
  .step rfl <| .step rfl <| .step rfl <| .step (if_neg hroom) <| .step rfl <| .step rfl <|
    .step rfl .ret

theorem returns_take_empty (h : ¬m.top ≤ m.bottom - 1) : Returns m .takeBottom m (some EMPTY) := by
  have hrun : Returns m .takeBottom { m with bottom := m.bottom - 1 + 1 } (some EMPTY) :=
    .step rfl <| .step rfl <| .step rfl <| .step (if_neg h) <| .step rfl .ret
  rwa [BitVec.sub_add_cancel] at hrun

theorem returns_take (h : m.top ≤ m.bottom - 1) (hne : m.top ≠ m.bottom - 1) :
    Returns m .takeBottom { m with bottom := m.bottom - 1 }
      (some (m.buffer m.array (intSlot (m.bottom - 1) ((m.size m.array).setWidth 32)))) :=
  .step rfl <| .step rfl <| .step rfl <| .step (if_pos h) <| .step rfl <| .step (if_neg hne) .ret

theorem returns_take_last (h : m.top = m.bottom - 1) :
    Returns m .takeBottom { m with top := m.top + 1 }
      (some (m.buffer m.array (intSlot (m.bottom - 1) ((m.size m.array).setWidth 32)))) := by
  have hrun : Returns m .takeBottom { m with top := m.top + 1, bottom := m.bottom - 1 + 1 }
      (some (m.buffer m.array (intSlot (m.bottom - 1) ((m.size m.array).setWidth 32)))) :=
    .step rfl <| .step rfl <| .step rfl <| .step (if_pos (BitVec.le_of_eq h)) <| .step rfl <|
      .step (if_pos h) <| .step (if_pos rfl) <| .step rfl .ret
  rwa [BitVec.sub_add_cancel] at hrun

theorem returns_steal_empty (h : ¬m.top < m.bottom) : Returns m .stealTop m (some EMPTY) :=
  .step rfl <| .step (if_neg h) .ret

theorem returns_steal (h : m.top < m.bottom) :
    Returns m .stealTop { m with top := m.top + 1 }
      (some (m.buffer m.array (intSlot m.top ((m.size m.array).setWidth 32)))) :=
  .step rfl <| .step (if_pos h) <| .step rfl <| .step rfl <| .step rfl <| .step (if_pos rfl) .ret

end Calls

/-! ## Between the calls -/

section Rest
variable {k n : ℕ} {m : Mem} {s : List CInt} {elem : ℕ → CInt}

/-- Between calls: the list and the array of `n` slots. -/
def Rested (k n : ℕ) (m : Mem) (s : List CInt) : Prop :=
  (m.size m.array).toNat = n ∧ ∃ elem, Shape k m s m.bottom.toNat elem

theorem length_of_shape (h : Shape k m s m.bottom.toNat elem) :
    s.length = m.bottom.toNat - m.top.toNat := by
  rw [h.contents, List.length_map, List.Ico.length]

theorem holds_of_shape (h : Shape k m s m.bottom.toNat elem) : m.Holds s := by
  refine ⟨h.le, h.contents.trans (List.map_congr_left fun i hi => ?_)⟩
  exact (h.held i (List.Ico.mem.mp hi).1 (List.Ico.mem.mp hi).2).symm

theorem ne_empty_of_shape (h : Shape k m s m.bottom.toNat elem) {x : CInt} (hx : x ∈ s) :
    x ≠ EMPTY := by
  rw [h.contents] at hx
  obtain ⟨i, hi, rfl⟩ := List.mem_map.mp hx
  exact (h.value i (List.Ico.mem.mp hi).1 (List.Ico.mem.mp hi).2).1

theorem push_rested (h : Rested k n m s) {x : CInt} (hx : x ≠ EMPTY ∧ x ≠ ABORT)
    (hfit : s.length + 1 ≤ n) (hin : m.bottom ≠ -1) :
    ∃ m', Returns m (.pushBottom x) m' none ∧ Rested k n m' (s ++ [x]) := by
  obtain ⟨rfl, elem, h⟩ := h
  have hlen := length_of_shape h
  have hle := h.le
  have hroom : ¬m.bottom - m.top > m.size m.array - 1 := by bv_omega
  have hsucc : (m.bottom + 1).toNat = m.bottom.toNat + 1 := by bv_omega
  have hlt : m.bottom.toNat < m.top.toNat + (m.size m.array).toNat := by omega
  have happend := (h.store hlt x).append (b := m.bottom + 1) hsucc hlt hx (Function.update_self ..)
    (by simp [slot, Mem.store])
  rw [← hsucc, ← BitVec.toNat_umod] at happend
  exact ⟨_, returns_push x hroom, rfl, _, happend⟩

theorem take_rested (h : Rested k n m s) (hin : m.bottom ≠ 0) :
    ∃ m', Returns m .takeBottom m' (some (s.getLast?.getD EMPTY)) ∧ Rested k n m' s.dropLast := by
  obtain ⟨rfl, elem, h⟩ := h
  have hlen := length_of_shape h
  have hle := h.le
  rcases Nat.eq_or_lt_of_le hle with heq | hlt
  · have hnil := h.eq_nil heq
    have hempty : ¬m.top ≤ m.bottom - 1 := by bv_omega
    subst hnil
    exact ⟨m, returns_take_empty hempty, rfl, elem, h⟩
  · have hb : (m.bottom - 1).toNat + 1 = m.bottom.toNat := by bv_omega
    have hlower := (hb ▸ h).setBottom (b := m.bottom - 1) (by omega)
    obtain ⟨hs, hlast⟩ := hlower.removeLast (by change m.top.toNat ≤ _; omega) (Nat.le_refl _)
    have hslot : m.buffer m.array (intSlot (m.bottom - 1) ((m.size m.array).setWidth 32)) =
        elem (m.bottom - 1).toNat := by
      rw [intSlot_eq h (.inr rfl)]
      exact h.held _ (by omega) (by omega)
    have hret : some (s.getLast?.getD EMPTY) = some (elem (m.bottom - 1).toNat) := by
      rw [hs]
      simp
    rw [hret, ← hslot]
    by_cases htop : m.top = m.bottom - 1
    -- the last element is removed at `top`, as a steal would
    · have hone : s.dropLast = s.tail := by
        obtain ⟨x, rfl⟩ := List.length_eq_one_iff.mp (show s.length = 1 by bv_omega)
        rfl
      rw [hone]
      exact ⟨_, returns_take_last htop, rfl, elem, (h.removeFirst hlt).2⟩
    · exact ⟨_, returns_take (by bv_omega) htop, rfl, elem, hlast⟩

theorem steal_rested (h : Rested k n m s) :
    ∃ m', Returns m .stealTop m' (some (s.head?.getD EMPTY)) ∧ Rested k n m' s.tail := by
  obtain ⟨rfl, elem, h⟩ := h
  by_cases hlt : m.top < m.bottom
  · obtain ⟨hs, htail⟩ := h.removeFirst hlt
    have hslot : m.buffer m.array (intSlot m.top ((m.size m.array).setWidth 32)) =
        elem m.top.toNat := by
      rw [intSlot_eq h (.inr rfl)]
      exact h.held _ (Nat.le_refl _) hlt
    have hret : some (s.head?.getD EMPTY) = some (elem m.top.toNat) := by
      rw [hs]
      rfl
    rw [hret, ← hslot]
    exact ⟨_, returns_steal hlt, rfl, elem, htail⟩
  · have hnil := h.eq_nil (Nat.le_antisymm h.le (Nat.le_of_not_lt hlt))
    subst hnil
    exact ⟨m, returns_steal_empty hlt, rfl, elem, h⟩

theorem call_rested (h : Rested k n m s) {o : Op} (hpush : ∀ x, o = .push x → x ≠ EMPTY ∧ x ≠ ABORT)
    (hfit : (o.apply s).1.length ≤ n) (hin : o.InRange m) :
    ∃ m', Returns m o.entry m' (o.apply s).2 ∧ Rested k n m' (o.apply s).1 := by
  cases o with
  | push x => exact push_rested h (hpush x rfl) (by simpa [Op.apply] using hfit) hin
  | take => exact take_rested h hin
  | steal => exact steal_rested h

/-- A failure value is returned for the empty list only. -/
theorem apply_eq_empty (h : Rested k n m s) (o : Op) :
    (o.apply s).2 = some EMPTY ↔ (o = .take ∨ o = .steal) ∧ s = [] := by
  obtain ⟨-, elem, h⟩ := h
  have hne := fun x hx => ne_empty_of_shape h (x := x) hx
  cases o with
  | push x => simp [Op.apply]
  | take =>
    rcases s.eq_nil_or_concat with rfl | ⟨s', x, rfl⟩
    · simp [Op.apply]
    · have := hne x (by simp)
      simpa [Op.apply] using this
  | steal =>
    cases s with
    | nil => simp [Op.apply]
    | cons x s =>
      have := hne x (by simp)
      simpa [Op.apply] using this

/-- Where an index passes 0, the deque no longer holds the list. -/
theorem inRange_of_holds (h : Rested k n m s) {o : Op} (hfit : (o.apply s).1.length ≤ n) {m' : Mem}
    (hret : Returns m o.entry m' (o.apply s).2) (hholds : m'.Holds (o.apply s).1) : o.InRange m := by
  obtain ⟨rfl, elem, h⟩ := h
  have hlen := length_of_shape h
  have hle := h.le
  obtain ⟨htop, heq⟩ := hholds
  have hlen' := congrArg List.length heq
  rw [List.length_map, List.Ico.length] at hlen'
  cases o with
  | push x =>
    intro hbottom
    simp only [Op.apply, List.length_append, List.length_singleton] at hfit hlen'
    -- `bottom` becomes 0, so the list would have to be empty
    obtain ⟨rfl, -⟩ := (returns_push x (by bv_omega)).unique hret
    simp only [hbottom] at hlen'
    rw [show (-1 + 1 : Size).toNat = 0 from rfl] at hlen'
    omega
  | take =>
    intro hbottom
    simp only [Op.apply, List.length_dropLast] at hfit hlen'
    -- `bottom` stays the greatest `size_t`, so the list would have to be that long
    obtain ⟨rfl, -⟩ := (returns_take (by bv_omega) (by bv_omega)).unique hret
    simp only [hbottom] at hlen'
    bv_omega
  | steal => trivial

end Rest

theorem rested_made {k : ℕ} {m : Mem} (h : Made m k) : Rested k (m.size m.array).toNat m [] := by
  have hbottom : m.bottom.toNat = 0 := by cases h <;> rfl
  exact ⟨rfl, _, hbottom.symm ▸ shape_made h⟩

theorem exact_iff_of_rested {k n : ℕ} {m : Mem} {s : List CInt} (h : Rested k n m s) {os : List Op}
    (hfit : Fits n s os) : Exact m s os ↔ InRange m os := by
  induction os generalizing m s with
  | nil => exact Iff.rfl
  | cons o os ih =>
    obtain ⟨hpush, hlen, hfit⟩ := hfit
    constructor
    · rintro ⟨m', hret, -, hholds, hexact⟩
      have hin := inRange_of_holds h hlen hret hholds
      -- the calls are deterministic, so the deque after this one is at rest as well
      obtain ⟨m₁, hret₁, hrest⟩ := call_rested h hpush hlen hin
      refine ⟨hin, fun m₂ r hret₂ => ?_⟩
      obtain ⟨rfl, -⟩ := hret₁.unique hret₂
      obtain ⟨rfl, -⟩ := hret₁.unique hret
      exact (ih hrest hfit).mp hexact
    · rintro ⟨hin, hnext⟩
      obtain ⟨m', hret, hrest⟩ := call_rested h hpush hlen hin
      obtain ⟨_, elem, hshape⟩ := id hrest
      exact ⟨m', hret, apply_eq_empty h o, holds_of_shape hshape, (ih hrest hfit).mpr (hnext m' _ hret)⟩

/-- **The deque as a list.** A single thread's calls on a deque as made, which never store more
elements than the array has slots, do what they do to the list if and only if none of them
takes while `bottom` is 0 or pushes while it is the greatest `size_t`. -/
theorem exact_iff_inRange {k : ℕ} {m : Mem} (h : Made m k) {os : List Op}
    (hfit : Fits (m.size m.array).toNat [] os) : Exact m [] os ↔ InRange m os :=
  exact_iff_of_rested (rested_made h) hfit

/-- The theorem for a push and two takes. -/
theorem exact_iff_inRange_takes :
    Exact create [] [.push 1, .take, .take] ↔ InRange create [.push 1, .take, .take] := by
  refine exact_iff_inRange .create ?_
  simp [Fits, Op.apply, create, EMPTY, ABORT]

/-- A take before any push returns the value of a slot. -/
theorem take_before_push : Fits (create.size create.array).toNat [] [.take] ∧
    Returns create .takeBottom { create with bottom := -1 } (some 0) ∧ ¬Exact create [] [.take] := by
  have hret : Returns create .takeBottom { create with bottom := -1 } (some 0) :=
    returns_take (by decide) (by decide)
  refine ⟨?_, hret, ?_⟩
  · simp [Fits, Op.apply]
  · rintro ⟨m', hret', -⟩
    have := (hret.unique hret').2
    simp [Op.apply, EMPTY] at this

end Cds.ChaseLev
