import CdsBenchmarks.Concurrent.DataRace

/-! A location that its owner resets and another thread answers once. The owner may go on
reading the value it has reset the location to. If it reads the answer with acquire order,
it knows all writes to the location and all uses of the object that goes with it. And a
location that is only written by read-modify-writes, of which the last one counts. -/

namespace Cds.Concurrent

namespace Messages
variable {X T : Type*} {V : X → Type*} {m m' : Messages X T V} {v v' : View X T} {x : X} {k n : ℕ}
  {a b : Message X T (V x)}

/-- Whoever has view `v` knows all writes to `x`. -/
def Covers (m : Messages X T V) (v : View X T) (x : X) : Prop := ∀ k a, m x k = some a → k ≤ v.time x

/-- The last write to `x` is `a`, at time `k`. -/
structure Last (m : Messages X T V) (x : X) (k : ℕ) (a : Message X T (V x)) : Prop where
  eq : m x k = some a
  le : ∀ i b, m x i = some b → i ≤ k

theorem Covers.mono (h : m.Covers v x) (hv : v ≤ v') : m.Covers v' x :=
  fun k a ha => (h k a ha).trans (hv.1 x)

theorem Covers.congr (h : m.Covers v x) (hm : m' x = m x) : m'.Covers v x := fun k a ha => h k a (hm ▸ ha)

theorem Last.congr (h : m.Last x k a) (hm : m' x = m x) : m'.Last x k a :=
  ⟨hm ▸ h.eq, fun i b hb => h.le i b (hm ▸ hb)⟩

theorem Last.unique (ha : m.Last x k a) (hb : m.Last x n b) : k = n ∧ a = b := by
  obtain rfl : k = n := Nat.le_antisymm (hb.le k a ha.eq) (ha.le n b hb.eq)
  exact ⟨rfl, Option.some.inj (ha.eq.symm.trans hb.eq)⟩

theorem Last.covers (h : m.Last x k a) (hk : k ≤ v.time x) : m.Covers v x :=
  fun i b hb => (h.le i b hb).trans hk

theorem last_initial {w : (x : X) → V x} : (initial w : Messages X T V).Last x 0 ⟨w x, .init⟩ :=
  ⟨rfl, fun _ _ hb => Nat.le_of_eq (initial_eq_some.mp hb).1⟩

theorem covers_initial {w : (x : X) → V x} : (initial w : Messages X T V).Covers v x :=
  fun _ _ ha => Nat.le_trans (Nat.le_of_eq (initial_eq_some.mp ha).1) (Nat.zero_le _)

variable [DecidableEq X]

theorem Covers.put (h : m.Covers v x) (hv : v ≤ v') (hk : k ≤ v'.time x) : (m.put x k a).Covers v' x := by
  intro i b hb
  rcases put_eq_some.mp hb with ⟨rfl, -⟩ | ⟨-, hb⟩
  · exact hk
  · exact (h i b hb).trans (hv.1 x)

theorem Covers.last_put (h : m.Covers v x) (hk : v.time x < k) : (m.put x k a).Last x k a := by
  refine ⟨put_self, fun i b hb => ?_⟩
  rcases put_eq_some.mp hb with ⟨rfl, -⟩ | ⟨-, hb⟩
  · exact le_rfl
  · exact (h i b hb).trans (Nat.le_of_lt hk)

/-! ### The last of a chain of read-modify-writes -/

section Ends
variable {P Q : Message X T (V x) → Prop}

/-- `x` is only written by read-modify-writes, and `P` holds of the last. -/
def Ends (m : Messages X T V) (x : X) (P : Message X T (V x) → Prop) : Prop :=
  ∃ n, m.Chain x n ∧ ∀ a, m x n = some a → P a

omit [DecidableEq X] in
theorem Ends.congr (h : m.Ends x P) (hm : m' x = m x) (hPQ : ∀ a, P a → Q a) : m'.Ends x Q := by
  obtain ⟨n, hn, ha⟩ := h
  exact ⟨n, fun k => hm ▸ hn k, fun a h => hPQ a (ha a (hm ▸ h))⟩

omit [DecidableEq X] in
/-- A read-modify-write reads the last value. -/
theorem Ends.read (h : m.Ends x P) (ha : m x k = some a) (hs : m x (k + 1) = none) : P a := by
  obtain ⟨n, hn, hP⟩ := h
  obtain rfl := hn.eq_of_isNone ha hs
  exact hP a ha

theorem Ends.put (h : m.Ends x P) (ha : m x k = some a) (hs : m x (k + 1) = none) (hb : Q b) :
    (m.put x (k + 1) b).Ends x Q := by
  obtain ⟨n, hn, -⟩ := h
  obtain rfl := hn.eq_of_isNone ha hs
  exact ⟨k + 1, hn.put, fun c hc => Option.some.inj (put_self.symm.trans hc) ▸ hb⟩

theorem Ends.last_put (h : m.Ends x P) (ha : m x k = some a) (hs : m x (k + 1) = none) :
    (m.put x (k + 1) b).Last x (k + 1) b := by
  obtain ⟨n, hn, -⟩ := h
  obtain rfl := hn.eq_of_isNone ha hs
  refine ⟨put_self, fun i c hc => (hn.put (a := b) i).mp ?_⟩
  simp [hc]

omit [DecidableEq X] in
theorem Ends.and (hP : m.Ends x P) (hQ : m.Ends x Q) : m.Ends x fun a => P a ∧ Q a := by
  obtain ⟨n, hn, hP⟩ := hP
  obtain ⟨i, hi, hQ⟩ := hQ
  obtain rfl : n = i := Nat.le_antisymm
    ((hi n).mp ((hn n).mpr le_rfl)) ((hn i).mp ((hi i).mpr le_rfl))
  exact ⟨n, hn, fun a ha => ⟨hP a ha, hQ a ha⟩⟩

omit [DecidableEq X] in
theorem Ends.exists (h : m.Ends x P) : ∃ k a, m.Last x k a ∧ P a := by
  obtain ⟨n, hn, hP⟩ := h
  obtain ⟨a, ha⟩ := Option.isSome_iff_exists.mp ((hn n).mpr le_rfl)
  exact ⟨n, a, ⟨ha, fun i b hb => (hn i).mp (by simp [hb])⟩, hP a ha⟩

omit [DecidableEq X] in
theorem ends_initial {w : (x : X) → V x} (h : P ⟨w x, .init⟩) : (initial w : Messages X T V).Ends x P := by
  refine ⟨0, chain_initial, fun a ha => ?_⟩
  obtain ⟨-, rfl⟩ := initial_eq_some.mp ha
  exact h

end Ends

end Messages

variable {X T Y : Type*} {V : X → Type*} {m m' : Messages X T V} {h h' : List (T × Use Y T)}
  {v v' : View X T} {x : X} {y : Y} {k n : ℕ} {a b : Message X T (V x)} {P : V x → Prop}

/-- The owner, who has view `v`, knows all writes to `x` and all uses of `y`, and the last
value is one that it has set. -/
structure Settled (m : Messages X T V) (h : List (T × Use Y T)) (v : View X T) (x : X) (y : Y)
    (P : V x → Prop) : Prop where
  covers : m.Covers v x
  known : Known v h y true
  last : ∃ k a, m.Last x k a ∧ P a.val

/-- The write `a` at time `k` is an answer that the owner may not have read. The other thread
leaves `y` as it is. -/
structure Answered (m : Messages X T V) (h : List (T × Use Y T)) (v : View X T) (x : X) (y : Y)
    (P : V x → Prop) (k : ℕ) (a : Message X T (V x)) : Prop where
  last : m.Last x k a
  own : Known v h y false
  known : Known (v ⊔ a.view) h y true
  before : ∀ i b, m x i = some b → v.time x ≤ i → i < k → P b.val

namespace Settled

theorem mono (hs : Settled m h v x y P) (hv : v ≤ v') : Settled m h v' x y P :=
  ⟨hs.covers.mono hv, hs.known.mono hv, hs.last⟩

theorem imp {Q : V x → Prop} (hs : Settled m h v x y P) (hPQ : ∀ z, P z → Q z) :
    Settled m h v x y Q := by
  obtain ⟨k, a, hl, ha⟩ := hs.last
  exact ⟨hs.covers, hs.known, k, a, hl, hPQ _ ha⟩

theorem congr (hs : Settled m h v x y P) (hm : m' x = m x) (hk : Known v h' y true) :
    Settled m' h' v x y P := by
  obtain ⟨k, a, hl, ha⟩ := hs.last
  exact ⟨hs.covers.congr hm, hk, k, a, hl.congr hm, ha⟩

/-- The owner reads a value it has set. -/
theorem val (hs : Settled m h v x y P) (ha : m x k = some a) (hk : v.time x ≤ k) : P a.val := by
  obtain ⟨n, b, hl, hb⟩ := hs.last
  obtain rfl : k = n := Nat.le_antisymm (hl.le k a ha) ((hs.covers n b hl.eq).trans hk)
  obtain rfl : a = b := Option.some.inj (ha.symm.trans hl.eq)
  exact hb

variable [DecidableEq X]

/-- Another thread, with view `v'`, answers. -/
theorem answer (hs : Settled m h v x y P) (hv : m.Covers v' x) (hk : v'.time x < k)
    (ho : Known v h' y false) (hu : Known (v ⊔ a.view) h' y true) :
    Answered (m.put x k a) h' v x y P k a := by
  refine ⟨hv.last_put hk, ho, hu, fun i b hb hi hik => ?_⟩
  rcases Messages.put_eq_some.mp hb with ⟨rfl, -⟩ | ⟨-, hb⟩
  · exact absurd hik (Nat.lt_irrefl _)
  · exact hs.val hb hi

end Settled

namespace Answered

theorem mono (ha : Answered m h v x y P k a) (hv : v ≤ v') : Answered m h v' x y P k a :=
  ⟨ha.last, ha.own.mono hv, ha.known.mono (sup_le_sup_right hv _), fun i b hb hi => ha.before i b hb ((hv.1 x).trans hi)⟩

theorem congr (ha : Answered m h v x y P k a) (hm : m' x = m x) (ho : Known v h' y false)
    (hk : Known (v ⊔ a.view) h' y true) : Answered m' h' v x y P k a :=
  ⟨ha.last.congr hm, ho, hk, fun i b hb => ha.before i b (hm ▸ hb)⟩

/-- The owner reads the answer or a value it has set before. -/
theorem read (ha : Answered m h v x y P k a) (hb : m x n = some b) (hn : v.time x ≤ n) :
    n = k ∧ b = a ∨ P b.val := by
  rcases Nat.lt_or_eq_of_le (ha.last.le n b hb) with hlt | rfl
  · exact .inr (ha.before n b hb hn hlt)
  · exact .inl ⟨rfl, Option.some.inj (hb.symm.trans ha.last.eq)⟩

end Answered

end Cds.Concurrent
