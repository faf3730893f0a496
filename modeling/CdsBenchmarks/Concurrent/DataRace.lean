import CdsBenchmarks.Concurrent.WeakMemory

/-! Data races. Each step of a thread has a number, and a use of plain memory happens
before a step of another thread if that thread knows the number. -/

namespace Cds.Concurrent
open Program

variable {X T Y : Type*}

/-- Two uses of the same object, one of which writes, are ordered by happens-before. -/
def RaceFree (h : List (T × Use Y T)) : Prop :=
  h.Pairwise fun a b => a.2.place = b.2.place → a.2.write ∨ b.2.write → a.2.clock a.1 ≤ b.2.clock a.1

/-- The uses of `y` so far, or only the writes to it, are known. -/
def Known (v : View X T) (h : List (T × Use Y T)) (y : Y) (write : Bool) : Prop :=
  ∀ a ∈ h, a.2.place = y → a.2.write ∨ write → a.2.clock a.1 ≤ v.clock a.1

variable {v v' : View X T} {h h' : List (T × Use Y T)} {y : Y} {b : Bool} {t : T}
  {us : List (Y × Bool)}

theorem known_nil : Known v [] y b := by simp [Known]

theorem Known.mono (hk : Known v h y b) (hv : v ≤ v') : Known v' h y b :=
  fun a ha hy hw => (hk a ha hy hw).trans (hv.2 a.1)

theorem Known.of_all (hk : Known v h y true) : Known v h y b :=
  fun a ha hy _ => hk a ha hy (.inr rfl)

theorem known_append : Known v (h ++ h') y b ↔ Known v h y b ∧ Known v h' y b := by
  simp only [Known, List.mem_append]
  exact ⟨fun hk => ⟨fun a ha => hk a (.inl ha), fun a ha => hk a (.inr ha)⟩,
    fun hk a ha => ha.elim (hk.1 a) (hk.2 a)⟩

/-- The plain accesses of one step of `t`. -/
def usesOf (t : T) (us : List (Y × Bool)) (v : View X T) : List (T × Use Y T) :=
  emit t (us.map fun y => ⟨y.1, y.2, v.clock⟩)

theorem mem_usesOf {a : T × Use Y T} :
    a ∈ usesOf t us v ↔ ∃ y ∈ us, a = (t, ⟨y.1, y.2, v.clock⟩) := by
  simp [usesOf, emit, eq_comm]

/-- A thread knows its own uses. -/
theorem known_usesOf (hv : v ≤ v') : Known v' (usesOf t us v) y b := by
  intro a ha _ _
  obtain ⟨u, -, rfl⟩ := mem_usesOf.mp ha
  exact hv.2 t

/-- Uses of other objects need not be known, nor reads where only writes count. -/
theorem known_usesOf_of_ne (hus : ∀ u ∈ us, u.1 = y → u.2 = false ∧ b = false) :
    Known v' (usesOf t us v) y b := by
  intro a ha hy hw
  obtain ⟨u, hu, rfl⟩ := mem_usesOf.mp ha
  have := hus u hu hy
  simp_all

/-- A step of a thread that knows the conflicting uses makes no race. -/
theorem RaceFree.append (hr : RaceFree h) (hk : ∀ u ∈ us, Known v h u.1 u.2) :
    RaceFree (h ++ usesOf t us v) := by
  refine List.pairwise_append.mpr ⟨hr, ?_, fun a ha b hb hy hw => ?_⟩
  · refine List.pairwise_of_forall_mem_list ?_
    intro a ha b hb _ _
    obtain ⟨_, -, rfl⟩ := mem_usesOf.mp ha
    obtain ⟨_, -, rfl⟩ := mem_usesOf.mp hb
    exact le_rfl
  · obtain ⟨u, hu, rfl⟩ := mem_usesOf.mp hb
    exact hk u hu a ha hy hw

/-! ## The trace of a step -/

variable {σ L ε : Type*} {tr : List (T × (ε ⊕ Use Y T))} {r : Outcome σ L ε Y}

theorem events_trace : events (tr ++ emit t (r.trace v)) = events tr ++ emit t r.events := by
  rw [events_append, Outcome.trace, events_emit]

theorem uses_trace : notes (tr ++ emit t (r.trace v)) = notes tr ++ usesOf t r.uses v := by
  rw [notes_append, Outcome.trace, notes_emit, usesOf]

end Cds.Concurrent
