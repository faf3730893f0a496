import CdsBenchmarks.MpmcQueue.MpmcQueueDefs
import Mathlib.Data.Finset.Max
import Mathlib.Order.Interval.Finset.Nat
import Mathlib.Tactic.IntervalCases

/-! The protocol behind the queue, on unbounded counters. A granted operation takes a ticket,
its place among the grants of its side, and a snapshot, the number of grants of the other
side so far. It may hold its bin once all operations of the other side before its snapshot
have finished. -/

namespace Cds.MpmcQueue

def Side.other : Side → Side
  | .read => .write
  | .write => .read

/-- How much later the operation is granted that gets the bin of an operation of the other
side next. -/
def Side.lag (cap : ℕ) : Side → ℕ
  | .read => 0
  | .write => cap

structure Tickets where
  granted : Side → ℕ
  snap : Side → ℕ → ℕ
  waiting : Side → Finset ℕ
  holding : Side → Finset ℕ

namespace Tickets

def empty : Tickets := ⟨fun _ => 0, fun _ _ => 0, fun _ => ∅, fun _ => ∅⟩

/-- The operations granted and not finished. -/
def flight (r : Tickets) (s : Side) : Finset ℕ := r.waiting s ∪ r.holding s

/-- There is an element to read, or room to write. -/
def Room (r : Tickets) (cap : ℕ) : Side → Prop
  | .read => r.granted .read < r.granted .write
  | .write => r.granted .write < r.granted .read + cap

def grant (r : Tickets) (s : Side) : Tickets where
  granted := Function.update r.granted s (r.granted s + 1)
  snap := Function.update r.snap s (Function.update (r.snap s) (r.granted s) (r.granted s.other))
  waiting := Function.update r.waiting s (insert (r.granted s) (r.waiting s))
  holding := r.holding

/-- Operation `i` leaves its wait loop. -/
def enter (r : Tickets) (s : Side) (i : ℕ) : Tickets :=
  { r with waiting := Function.update r.waiting s ((r.waiting s).erase i)
           holding := Function.update r.holding s (insert i (r.holding s)) }

def finish (r : Tickets) (s : Side) (i : ℕ) : Tickets :=
  { r with holding := Function.update r.holding s ((r.holding s).erase i) }

/-- No operation of the other side before the snapshot of `i` is unfinished. -/
def Clear (r : Tickets) (s : Side) (i : ℕ) : Prop := ∀ i' ∈ r.flight s.other, r.snap s i ≤ i'

structure Valid (r : Tickets) (cap : ℕ) : Prop where
  lt : ∀ s, ∀ i ∈ r.flight s, i < r.granted s
  disjoint : ∀ s, Disjoint (r.waiting s) (r.holding s)
  room : r.granted .read ≤ r.granted .write ∧ r.granted .write ≤ r.granted .read + cap
  readSnap : ∀ j < r.granted .read, j < r.snap .read j ∧ r.snap .read j ≤ j + cap ∧
    r.snap .read j ≤ r.granted .write
  writeSnap : ∀ k < r.granted .write, r.snap .write k ≤ k ∧ k < r.snap .write k + cap ∧
    r.snap .write k ≤ r.granted .read
  /-- Of two operations of different sides, one was granted first. -/
  order : ∀ j < r.granted .read, ∀ k < r.granted .write, k < r.snap .read j ↔ r.snap .write k ≤ j
  /-- What was granted on the other side after `i` waits for `i`. -/
  behind : ∀ s, ∀ i ∈ r.flight s, ∀ i', r.snap s i ≤ i' → i' < r.granted s.other → i' ∈ r.flight s.other
  clear : ∀ s, ∀ i ∈ r.holding s, r.Clear s i
  /-- A finished read read what was written, and a finished write overwrote what was read. -/
  read : ∀ j < r.granted .read, j ∉ r.flight .read → j ∉ r.flight .write
  written : ∀ k, k + cap < r.granted .write → k + cap ∉ r.flight .write → k ∉ r.flight .read

variable {r : Tickets} {cap : ℕ} {s : Side} {i i' : ℕ}

theorem Valid.snap_le (h : r.Valid cap) (hi : i < r.granted s) : r.snap s i ≤ r.granted s.other := by
  cases s
  · exact (h.readSnap i hi).2.2
  · exact (h.writeSnap i hi).2.2

/-- Of two operations of different sides exactly one has the other before its snapshot. -/
theorem Valid.snap_lt (h : r.Valid cap) (hi : i < r.granted s) (hi' : i' < r.granted s.other) :
    i' < r.snap s i ↔ r.snap s.other i' ≤ i := by
  cases s
  · exact h.order i hi i' hi'
  · have := h.order i' hi' i hi
    simp only [Side.other]
    omega

/-- The operation of the other side that had the bin last is before the snapshot. -/
theorem Valid.lt_snap (h : r.Valid cap) (hi : i + s.lag cap < r.granted s) :
    i < r.snap s (i + s.lag cap) := by
  cases s
  · exact (h.readSnap i hi).1
  · have := (h.writeSnap _ hi).2.1
    simp only [Side.lag] at *
    omega

theorem Valid.notMem_flight (h : r.Valid cap) (s : Side) : r.granted s ∉ r.flight s := fun hmem =>
  Nat.lt_irrefl _ (h.lt s _ hmem)

theorem valid_empty : empty.Valid cap := by
  refine ⟨?_, ?_, ?_, ?_, ?_, ?_, ?_, ?_, ?_, ?_⟩ <;> simp [empty, flight]

/-! ## The three moves -/

theorem flight_grant (r : Tickets) (s s' : Side) : (r.grant s).flight s' =
    if s' = s then insert (r.granted s) (r.flight s) else r.flight s' := by
  by_cases h : s' = s
  · subst h
    simp [grant, flight, Finset.insert_union]
  · simp [grant, flight, h]

theorem mem_flight_grant {s' : Side} :
    i ∈ (r.grant s).flight s' ↔ (s' = s ∧ i = r.granted s) ∨ i ∈ r.flight s' := by
  rw [flight_grant]
  split_ifs with h <;> simp [h]

theorem granted_grant (r : Tickets) (s s' : Side) :
    (r.grant s).granted s' = if s' = s then r.granted s + 1 else r.granted s' := by
  by_cases h : s' = s <;> simp [grant, h]

/-- Granted operations keep their snapshots. -/
theorem snap_grant {s' : Side} (hi : i < r.granted s') : (r.grant s).snap s' i = r.snap s' i := by
  by_cases h : s' = s
  · subst h
    simp [grant, Nat.ne_of_lt hi]
  · simp [grant, h]

theorem snap_grant_new (r : Tickets) (s : Side) :
    (r.grant s).snap s (r.granted s) = r.granted s.other := by
  simp [grant]

/-- What is granted after the move was granted before it or is the new operation. -/
theorem lt_granted_grant {s' : Side} (h : i < (r.grant s).granted s') :
    i < r.granted s' ∨ s' = s ∧ i = r.granted s' := by
  rw [granted_grant] at h
  split_ifs at h with hs
  · subst hs
    exact (Nat.lt_succ_iff_lt_or_eq.mp h).imp_right fun heq => ⟨rfl, heq⟩
  · exact .inl h

theorem granted_le_grant (s' : Side) : r.granted s' ≤ (r.grant s).granted s' := by
  rw [granted_grant]
  split_ifs with hs
  · exact hs ▸ Nat.le_succ _
  · exact Nat.le_refl _

theorem Valid.grant (h : r.Valid cap) (hroom : r.Room cap s) : (r.grant s).Valid cap where
  lt s' i hi := by
    rcases mem_flight_grant.mp hi with ⟨rfl, rfl⟩ | hi
    · rw [granted_grant, if_pos rfl]
      exact Nat.lt_succ_self _
    · exact Nat.lt_of_lt_of_le (h.lt s' i hi) (granted_le_grant s')
  disjoint s' := by
    by_cases hs : s' = s
    · subst hs
      have hnot : r.granted s' ∉ r.holding s' := fun hmem =>
        absurd (h.lt s' _ (Finset.mem_union_right _ hmem)) (Nat.lt_irrefl _)
      simpa [Tickets.grant, hnot] using h.disjoint s'
    · simpa [Tickets.grant, hs] using h.disjoint s'
  room := by
    have := h.room
    cases s <;> simp [Room] at hroom <;> simp [granted_grant] <;> omega
  readSnap j hj := by
    have hwrite : r.granted .write ≤ (r.grant s).granted .write := granted_le_grant _
    rcases lt_granted_grant hj with hj | ⟨rfl, rfl⟩
    · obtain ⟨h₁, h₂, h₃⟩ := h.readSnap j hj
      rw [snap_grant hj]
      exact ⟨h₁, h₂, Nat.le_trans h₃ hwrite⟩
    · rw [snap_grant_new]
      exact ⟨hroom, h.room.2, hwrite⟩
  writeSnap k hk := by
    have hread : r.granted .read ≤ (r.grant s).granted .read := granted_le_grant _
    rcases lt_granted_grant hk with hk | ⟨rfl, rfl⟩
    · obtain ⟨h₁, h₂, h₃⟩ := h.writeSnap k hk
      rw [snap_grant hk]
      exact ⟨h₁, h₂, Nat.le_trans h₃ hread⟩
    · rw [snap_grant_new]
      exact ⟨h.room.1, hroom, hread⟩
  order j hj k hk := by
    -- the snapshot of an earlier operation does not reach a new one
    rcases lt_granted_grant hj with hj' | ⟨rfl, rfl⟩
    · rcases lt_granted_grant hk with hk' | ⟨rfl, rfl⟩
      · rw [snap_grant hj', snap_grant hk']
        exact h.order j hj' k hk'
      · have hsnap := (h.readSnap j hj').2.2
        rw [snap_grant hj', snap_grant_new]
        simp only [Side.other]
        omega
    · rcases lt_granted_grant hk with hk' | ⟨hs, -⟩
      · have hsnap := (h.writeSnap k hk').2.2
        rw [snap_grant hk', snap_grant_new]
        simp only [Side.other]
        omega
      · cases hs
  behind s' i hi i' hsnap hlt := by
    rw [mem_flight_grant]
    rcases mem_flight_grant.mp hi with ⟨rfl, rfl⟩ | hi
    -- nothing on the other side was granted after the new operation
    · have hne : s'.other ≠ s' := by cases s' <;> decide
      rw [snap_grant_new] at hsnap
      rcases lt_granted_grant hlt with hlt | ⟨heq, -⟩
      · exact absurd hsnap (Nat.not_le.mpr hlt)
      · exact absurd heq hne
    · rw [snap_grant (h.lt s' i hi)] at hsnap
      rcases lt_granted_grant hlt with hlt | ⟨heq, rfl⟩
      · exact .inr (h.behind s' i hi i' hsnap hlt)
      · exact .inl ⟨heq, congrArg r.granted heq⟩
  clear s' i hi i' hi' := by
    have hi : i ∈ r.holding s' := hi
    have hlt := h.lt s' i (Finset.mem_union_right _ hi)
    rw [snap_grant hlt]
    rcases mem_flight_grant.mp hi' with ⟨rfl, rfl⟩ | hi'
    · exact h.snap_le hlt
    · exact h.clear s' i hi i' hi'
  read j hj hnot := by
    have hle := h.room.1
    rw [mem_flight_grant, not_or] at hnot ⊢
    rcases lt_granted_grant hj with hj | hnew
    · refine ⟨?_, h.read j hj hnot.2⟩
      rintro ⟨rfl, rfl⟩
      omega
    · exact absurd ⟨hnew.1, hnew.1 ▸ hnew.2⟩ hnot.1
  written k hk hnot := by
    have hle := h.room.2
    rw [mem_flight_grant, not_or] at hnot ⊢
    rcases lt_granted_grant hk with hk | hnew
    · refine ⟨?_, h.written k hk hnot.2⟩
      rintro ⟨rfl, rfl⟩
      omega
    · exact absurd ⟨hnew.1, hnew.1 ▸ hnew.2⟩ hnot.1

theorem flight_enter (hi : i ∈ r.waiting s) (s' : Side) : (r.enter s i).flight s' = r.flight s' := by
  by_cases h : s' = s
  · subst h
    ext x
    by_cases hx : x = i <;> simp [enter, flight, hx, hi]
  · simp [enter, flight, h]

theorem Valid.enter (h : r.Valid cap) (hi : i ∈ r.waiting s) (hclear : r.Clear s i) :
    (r.enter s i).Valid cap := by
  have hf := flight_enter hi
  refine ⟨fun s' => hf s' ▸ h.lt s', fun s' => ?_, h.room, h.readSnap, h.writeSnap,
    h.order, fun s' => ?_,
    fun s' i' hi' => ?_, ?_, ?_⟩
  · by_cases hs : s' = s
    · subst hs
      have := h.disjoint s'
      simp only [Tickets.enter, Function.update_self, Finset.disjoint_insert_right, Finset.mem_erase,
        ne_eq, not_true_eq_false, false_and, not_false_eq_true, true_and]
      exact Finset.disjoint_of_subset_left (Finset.erase_subset _ _) this
    · simpa [Tickets.enter, hs] using h.disjoint s'
  · rw [hf, hf]
    exact h.behind s'
  · unfold Clear
    rw [hf]
    by_cases hs : s' = s
    · subst hs
      rcases Finset.mem_insert.mp (by simpa [Tickets.enter] using hi') with rfl | hi'
      · exact hclear
      · exact h.clear s' i' hi'
    · exact h.clear s' i' (by simpa [Tickets.enter, hs] using hi')
  · rw [hf, hf]
    exact h.read
  · rw [hf, hf]
    exact h.written

theorem flight_finish (h : r.Valid cap) (hi : i ∈ r.holding s) (s' : Side) :
    (r.finish s i).flight s' = if s' = s then (r.flight s).erase i else r.flight s' := by
  by_cases hs : s' = s
  · subst hs
    have hnot : i ∉ r.waiting s' := fun hmem => Finset.disjoint_left.mp (h.disjoint s') hmem hi
    simp [finish, flight, Finset.erase_union_distrib, Finset.erase_eq_of_notMem hnot]
  · simp [finish, flight, hs]

theorem mem_flight_finish (h : r.Valid cap) (hi : i ∈ r.holding s) {s' : Side} :
    i' ∈ (r.finish s i).flight s' ↔ i' ∈ r.flight s' ∧ ¬(s' = s ∧ i' = i) := by
  rw [flight_finish h hi]
  split_ifs with hs
  · subst hs
    simp [and_comm]
  · simp [hs]

/-- Operations whose snapshot is past `i` were let in only after `i` finished. -/
theorem Valid.finish (h : r.Valid cap) (hi : i ∈ r.holding s) : (r.finish s i).Valid cap := by
  have hf : ∀ {i' s'}, i' ∈ (r.finish s i).flight s' ↔ i' ∈ r.flight s' ∧ ¬(s' = s ∧ i' = i) :=
    mem_flight_finish h hi
  have hlt := h.lt s i (Finset.mem_union_right _ hi)
  have hhold : ∀ {i' s'}, i' ∈ (r.finish s i).holding s' → i' ∈ r.holding s' := by
    intro i' s' hmem
    by_cases hs : s' = s
    · subst hs
      exact Finset.mem_of_mem_erase (by simpa [Tickets.finish] using hmem)
    · simpa [Tickets.finish, hs] using hmem
  refine
    { lt := fun s' i' hi' => h.lt s' i' (hf.mp hi').1
      disjoint := fun s' => Finset.disjoint_of_subset_right (fun _ hx => hhold hx) (h.disjoint s')
      room := h.room
      readSnap := h.readSnap
      writeSnap := h.writeSnap
      order := h.order
      behind := ?_
      clear := fun s' i' hi' k hk => h.clear s' i' (hhold hi') k (hf.mp hk).1
      read := ?_
      written := ?_ }
  · intro s' i' hmem k hsnap hk
    have hi' := (hf.mp hmem).1
    clear hmem
    refine hf.mpr ⟨h.behind s' i' hi' k hsnap hk, ?_⟩
    rintro ⟨rfl, rfl⟩
    -- `i'` is unfinished, so it is not before the snapshot of the holder `k`
    have hother : s'.other.other = s' := by cases s' <;> rfl
    have hclear := h.clear _ k hi i' (by rwa [hother])
    have := (h.snap_lt (h.lt s' i' hi') hk).mpr hclear
    exact absurd hsnap (Nat.not_le.mpr this)
  · intro j hj hnot
    rw [hf, not_and_not_right] at hnot
    rw [hf]
    rintro ⟨hw, -⟩
    by_cases hr : j ∈ r.flight .read
    · obtain ⟨rfl, rfl⟩ := hnot hr
      have h₁ := h.clear .read j hi j hw
      have h₂ := (h.readSnap j hj).1
      omega
    · exact h.read j hj hr hw
  · intro k hk hnot
    rw [hf, not_and_not_right] at hnot
    rw [hf]
    rintro ⟨hr, -⟩
    by_cases hw : k + cap ∈ r.flight .write
    · obtain ⟨rfl, rfl⟩ := hnot hw
      have h₁ := h.clear .write _ hi k hr
      have h₂ := (h.writeSnap _ hk).2.1
      omega
    · exact h.written k hk hw hr

/-! ## Exclusive bins -/

/-- Operations of one side that hold at the same time are less than `cap` apart. -/
theorem Valid.holding_lt (h : r.Valid cap) (hi : i ∈ r.holding s) (hi' : i' ∈ r.holding s) :
    i' < i + cap := by
  by_contra hge
  have hlt := fun x hx => h.lt s x (Finset.mem_union_right _ hx)
  cases s
  · -- the write that overwrites the bin of `i` finished before `i'` was let in
    have hsnap := (h.readSnap i' (hlt i' hi')).1
    have hwrite := (h.readSnap i' (hlt i' hi')).2.2
    refine h.written i (by omega) (fun hw => ?_) (Finset.mem_union_right _ hi)
    have := h.clear .read i' hi' _ hw
    omega
  · -- the read of the bin of `i` finished before `i'` was let in
    have hsnap := h.writeSnap i' (hlt i' hi')
    refine h.read i (by omega) (fun hr => ?_) (Finset.mem_union_right _ hi)
    have := h.clear .write i' hi' _ hr
    omega

theorem Valid.holding_read_lt (h : r.Valid cap) {j k : ℕ} (hj : j ∈ r.holding .read)
    (hk : k ∈ r.holding .write) : j < k ∧ k < j + cap := by
  have h₁ := h.clear .read j hj k (Finset.mem_union_right _ hk)
  have h₂ := h.clear .write k hk j (Finset.mem_union_right _ hj)
  have h₃ := h.readSnap j (h.lt _ j (Finset.mem_union_right _ hj))
  have h₄ := h.writeSnap k (h.lt _ k (Finset.mem_union_right _ hk))
  omega

theorem mod_ne {i i' cap : ℕ} (h₁ : i < i') (h₂ : i' < i + cap) : i % cap ≠ i' % cap := by
  intro heq
  have h := Nat.sub_mod_eq_zero_of_mod_eq heq.symm
  rw [Nat.mod_eq_of_lt (by omega)] at h
  omega

/-- Two holders of one bin are one operation. -/
theorem Valid.exclusive (h : r.Valid cap) (hi : i ∈ r.holding s) {s' : Side} (hi' : i' ∈ r.holding s')
    (hbin : i % cap = i' % cap) : s = s' ∧ i = i' := by
  cases s <;> cases s'
  case read.write =>
    have := h.holding_read_lt hi hi'
    exact absurd hbin (mod_ne this.1 this.2)
  case write.read =>
    have := h.holding_read_lt hi' hi
    exact absurd hbin.symm (mod_ne this.1 this.2)
  all_goals
    refine ⟨rfl, ?_⟩
    rcases Nat.lt_trichotomy i i' with hlt | heq | hlt
    · exact absurd hbin (mod_ne hlt (h.holding_lt hi hi'))
    · exact heq
    · exact absurd hbin.symm (mod_ne hlt (h.holding_lt hi' hi))

/-! ## The exit conditions -/

theorem Valid.card_holding_le (h : r.Valid cap) (s : Side) : (r.holding s).card ≤ cap := by
  rcases (r.holding s).eq_empty_or_nonempty with hempty | hne
  · simp [hempty]
  · have hmin := Finset.min'_mem _ hne
    have hsub : r.holding s ⊆ Finset.Ico ((r.holding s).min' hne) ((r.holding s).min' hne + cap) :=
      fun x hx => Finset.mem_Ico.mpr ⟨Finset.min'_le _ x hx, h.holding_lt hmin hx⟩
    simpa using Finset.card_le_card hsub

/-- Everything granted on the other side after the oldest unfinished operation waits for it. -/
theorem Valid.card_flight_le (h : r.Valid cap) (s : Side) :
    (r.flight s).card ≤ (r.waiting s.other).card + cap := by
  rcases (r.flight s).eq_empty_or_nonempty with hempty | hne
  · simp [hempty]
  · obtain ⟨i, hi, hmin⟩ : ∃ i ∈ r.flight s, ∀ x ∈ r.flight s, i ≤ x :=
      ⟨_, Finset.min'_mem _ hne, fun x hx => Finset.min'_le _ x hx⟩
    have hlt := h.lt s i hi
    have hflight : r.flight s ⊆ Finset.Ico i (r.granted s) := fun x hx =>
      Finset.mem_Ico.mpr ⟨hmin x hx, h.lt s x hx⟩
    have hwait : Finset.Ico (r.snap s i) (r.granted s.other) ⊆ r.waiting s.other := by
      intro x hx
      obtain ⟨hle, hx⟩ := Finset.mem_Ico.mp hx
      refine (Finset.mem_union.mp (h.behind s i hi x hle hx)).resolve_right fun hhold => ?_
      have hother : s.other.other = s := by cases s <;> rfl
      have hclear := h.clear _ x hhold i (hother.symm ▸ hi)
      exact absurd ((h.snap_lt hlt hx).mpr hclear) (Nat.not_lt.mpr hle)
    have h₁ := Finset.card_le_card hflight
    have h₂ := Finset.card_le_card hwait
    have hroom := h.room
    rw [Nat.card_Ico] at h₁ h₂
    cases s
    · have := h.readSnap i hlt
      simp only [Side.other] at *
      omega
    · have := h.writeSnap i hlt
      simp only [Side.other] at *
      omega

theorem Valid.card_flight_lt (h : r.Valid cap) (hcap : cap ≤ 2 ^ 15)
    (hw : (r.waiting .read).card + (r.waiting .write).card < 2 ^ 16) (s : Side) :
    (r.flight s).card < 2 ^ 16 := by
  have h₁ := h.card_flight_le s
  have h₂ := h.card_holding_le s
  have h₃ : (r.flight s).card ≤ (r.waiting s).card + (r.holding s).card := Finset.card_union_le ..
  cases s <;> simp only [Side.other] at h₁ <;> omega

/-- The number of finished operations. -/
def finished (r : Tickets) (s : Side) : ℕ := r.granted s - (r.flight s).card

/-- A grant is unfinished, so it counts for nothing. -/
theorem Valid.finished_grant (h : r.Valid cap) (s s' : Side) :
    (r.grant s).finished s' = r.finished s' := by
  unfold finished
  rw [flight_grant, granted_grant]
  by_cases hs : s' = s
  · subst hs
    rw [if_pos rfl, if_pos rfl, Finset.card_insert_of_notMem (h.notMem_flight s')]
    omega
  · rw [if_neg hs, if_neg hs]

theorem finished_enter (hi : i ∈ r.waiting s) (s' : Side) :
    (r.enter s i).finished s' = r.finished s' := by
  unfold finished
  rw [flight_enter hi]
  rfl

theorem Valid.finished_finish (h : r.Valid cap) (hi : i ∈ r.holding s) (s' : Side) :
    (r.finish s i).finished s' = r.finished s' + if s' = s then 1 else 0 := by
  have hmem : i ∈ r.flight s := Finset.mem_union_right _ hi
  have hcard := Finset.card_erase_add_one hmem
  have hle : (r.flight s).card ≤ r.granted s := by
    simpa using Finset.card_le_card fun x hx => Finset.mem_range.mpr (h.lt s x hx)
  unfold finished
  rw [flight_finish h hi]
  by_cases hs : s' = s
  · subst hs
    simp only [if_true, Tickets.finish]
    omega
  · simp [hs, Tickets.finish]

/-- The operations of the other side before the snapshot of `i` that have not finished. -/
def before (r : Tickets) (s : Side) (i : ℕ) : Finset ℕ :=
  (r.flight s.other).filter fun i' => i' < r.snap s i

theorem clear_iff : r.Clear s i ↔ r.before s i = ∅ := by
  simp [Clear, before, Finset.filter_eq_empty_iff]

/-- Everything granted on the other side since is unfinished, so that the finished
operations are those before the snapshot. -/
theorem Valid.finished_add (h : r.Valid cap) (hi : i ∈ r.flight s) :
    r.finished s.other + (r.before s i).card = r.snap s i := by
  have hle := h.snap_le (h.lt s i hi)
  have hsplit :=
    Finset.card_filter_add_card_filter_not (s := r.flight s.other) (fun x => x < r.snap s i)
  have hafter : (r.flight s.other).filter (fun x => ¬x < r.snap s i) =
      Finset.Ico (r.snap s i) (r.granted s.other) := by
    ext x
    simp only [Finset.mem_filter, Nat.not_lt, Finset.mem_Ico]
    exact ⟨fun ⟨hx, hle⟩ => ⟨hle, h.lt _ x hx⟩, fun ⟨hle, hx⟩ => ⟨h.behind s i hi x hle hx, hle⟩⟩
  rw [hafter, Nat.card_Ico] at hsplit
  have hbefore : (r.before s i).card ≤ r.snap s i := by
    have hsub : r.before s i ⊆ Finset.range (r.snap s i) :=
      fun x hx => Finset.mem_range.mpr (Finset.mem_filter.mp hx).2
    simpa using Finset.card_le_card hsub
  unfold finished before at *
  omega

/-- Comparing the number of finished operations with the snapshot modulo `2^16` decides
whether all operations before the snapshot have finished. -/
theorem Valid.clear_of_mod (h : r.Valid cap) (hfew : (r.flight s.other).card < 2 ^ 16)
    (hi : i ∈ r.flight s) (hmod : r.finished s.other % 2 ^ 16 = r.snap s i % 2 ^ 16) : r.Clear s i := by
  have hadd := h.finished_add hi
  have hle : (r.before s i).card ≤ (r.flight s.other).card := Finset.card_filter_le ..
  rw [clear_iff, ← Finset.card_eq_zero]
  omega

theorem Valid.finished_of_clear (h : r.Valid cap) (hi : i ∈ r.flight s) (hclear : r.Clear s i) :
    r.finished s.other = r.snap s i := by
  have hadd := h.finished_add hi
  rw [clear_iff.mp hclear] at hadd
  exact hadd

/-- When nobody holds a bin, the first of those who wait on one side or the other can go on. -/
theorem Valid.exists_clear (h : r.Valid cap) (hhold : ∀ s, r.holding s = ∅)
    (hwait : ∃ s, (r.waiting s).Nonempty) : ∃ s, ∃ i ∈ r.waiting s, r.Clear s i := by
  have hf : ∀ s, r.flight s = r.waiting s := fun s => by rw [flight, hhold, Finset.union_empty]
  by_cases hboth : (r.waiting .read).Nonempty ∧ (r.waiting .write).Nonempty
  · obtain ⟨j, hj, hjmin⟩ : ∃ j ∈ r.waiting .read, ∀ x ∈ r.waiting .read, j ≤ x :=
      ⟨_, Finset.min'_mem _ hboth.1, fun x hx => Finset.min'_le _ x hx⟩
    obtain ⟨k, hk, hkmin⟩ : ∃ k ∈ r.waiting .write, ∀ x ∈ r.waiting .write, k ≤ x :=
      ⟨_, Finset.min'_mem _ hboth.2, fun x hx => Finset.min'_le _ x hx⟩
    have horder := h.order j (h.lt .read j (hf _ ▸ hj)) k (h.lt .write k (hf _ ▸ hk))
    by_cases hlt : k < r.snap .read j
    · refine ⟨.write, k, hk, fun x hx => ?_⟩
      exact (horder.mp hlt).trans (hjmin x (hf .read ▸ hx))
    · refine ⟨.read, j, hj, fun x hx => ?_⟩
      exact (Nat.le_of_not_lt hlt).trans (hkmin x (hf .write ▸ hx))
  · obtain ⟨s, i, hi⟩ := hwait
    refine ⟨s, i, hi, fun x hx => absurd ?_ hboth⟩
    rw [hf] at hx
    cases s
    · exact ⟨⟨i, hi⟩, ⟨x, hx⟩⟩
    · exact ⟨⟨x, hx⟩, ⟨i, hi⟩⟩

end Tickets

end Cds.MpmcQueue
