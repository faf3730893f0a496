import CdsBenchmarks.RwLock.RwLockExclusion
import CdsBenchmarks.Concurrent.Observe
import CdsBenchmarks.Concurrent.ReleaseSequence

/-! Critical sections of the reader-writer lock are ordered by happens-before. The history
of a run is the sequence of its accesses to `lock`, each with the memory order that the
source gives it. -/

namespace Cds.RwLock
open Concurrent Program

/-- The access at a program point. -/
def Pc.atomic : Pc → Option Access
  | .rest _ => none
  | .readCan _ | .writeCan _ | .readSpin | .writeSpin => some ⟨.load, .relaxed⟩
  | .readSub | .writeSub | .readTry | .writeTry => some ⟨.rmw, .acquire⟩
  | .readUndo | .writeUndo | .readTryUndo | .writeTryUndo => some ⟨.rmw, .relaxed⟩
  | .readUnlock | .writeUnlock => some ⟨.rmw, .release⟩

/-- An access to `lock`: where it is in the program and the value it found. -/
structure Note where
  point : Pc
  found : CInt
  access : Access
  tagged : point.atomic = some access
deriving DecidableEq

def note (a : Act) (m : Mem) (l : Pc) : List Note :=
  match a, h : l.atomic with
  | .run, some x => [⟨l, m.lock, x, h⟩]
  | _, _ => []

def observed (T : Type*) : Program T Mem Pc Act (Event ⊕ Note) :=
  (program T).observe fun _ => note

/-- The lock that an access acquires. -/
def Note.acquired (n : Note) : Held :=
  match n.point with
  | .readSub | .readTry => if 0 < n.found.toInt then .read else .nothing
  | .writeSub | .writeTry => if n.found = rwLockBias then .write else .nothing
  | _ => .nothing

/-- The lock that an access releases. -/
def Note.released (n : Note) : Held :=
  match n.point with
  | .readUnlock => .read
  | .writeUnlock => .write
  | _ => .nothing

section History
variable {T : Type*} (h : List (T × Note))

def AcquiresAt (t : T) (k : Held) (i : ℕ) : Prop :=
  EventAt h (fun n => n.acquired = k ∧ k ≠ .nothing) t i

def ReleasesAt (t : T) (k : Held) (i : ℕ) : Prop :=
  EventAt h (fun n => n.released = k ∧ k ≠ .nothing) t i

/-- No release of `t` lies strictly between `i` and `j`. -/
def HoldsBetween (t : T) (i j : ℕ) : Prop := ∀ m, i < m → m < j → ∀ k, ¬ReleasesAt h t k m

/-- The critical section that `t` enters at `i` ends with the unlock at `j`. -/
def Section (t : T) (k : Held) (i j : ℕ) : Prop :=
  AcquiresAt h t k i ∧ ReleasesAt h t k j ∧ i < j ∧ HoldsBetween h t i j

/-- The unlock of the section that `t` enters at `i` precedes the acquisition by `u` at `i'` and
synchronizes with it. -/
def OrderedBefore (t : T) (k : Held) (i : ℕ) (u : T) (i' : ℕ) : Prop :=
  ∃ j, Section h t k i j ∧ j < i' ∧ SynchronizesWith Note.access h j i' ∧
    ∀ p q e e', h[p]? = some (t, e) → h[q]? = some (u, e') → p ≤ j → i' ≤ q →
      HappensBefore Note.access h p q

end History

/-- The lock that a thread holds at a program point. -/
def Pc.held (l : Pc) : Held :=
  if l.writeHolder then .write else if l.readHolder then .read else .nothing

theorem held_eq_write {l : Pc} : l.held = .write ↔ l.writeHolder := by
  unfold Pc.held
  split_ifs <;> simp_all

/-- What a step notes, and what the thread holds after it. -/
theorem step_note {a : Act} {m m' : Mem} {l l' : Pc} {es : List Event}
    (h : step a m l = some (m', l', es)) :
    note a m l = [] ∧ l'.held = l.held ∨ ∃ n, note a m l = [n] ∧
      (n.acquired = .nothing ∧ n.released = .nothing ∧ l'.held = l.held ∨
        n.acquired ≠ .nothing ∧ n.released = .nothing ∧ l.held = .nothing ∧ l'.held = n.acquired ∨
        n.acquired = .nothing ∧ n.released ≠ .nothing ∧ l.held = n.released ∧ l'.held = .nothing) := by
  cases a with
  | call o =>
    cases l <;> simp only [step, reduceCtorEq, Option.map_eq_some_iff] at h
    obtain ⟨l₁, he, heq⟩ := h
    cases heq
    obtain ⟨hr, hw, -⟩ := entry_eq he
    refine .inl ⟨rfl, ?_⟩
    rw [Pc.held, Pc.held, hr, hw]
  | run =>
    cases l <;> simp only [step, access, reduceCtorEq, Option.some.injEq, Prod.mk.injEq] at h
    case readCan h' | writeCan h' =>
      obtain ⟨-, rfl, -⟩ := h
      refine .inr ⟨_, rfl, .inl ⟨rfl, rfl, ?_⟩⟩
      cases h' <;> rfl
    case readSub | readTry | writeSub | writeTry | readSpin | writeSpin =>
      split at h <;> simp only [Option.some.injEq, Prod.mk.injEq] at h <;>
        obtain ⟨-, rfl, -⟩ := h <;> refine .inr ⟨_, rfl, ?_⟩ <;>
        simp_all [Note.acquired, Note.released, Pc.held, Pc.readHolder, Pc.writeHolder]
    all_goals
      obtain ⟨-, rfl, -⟩ := h
      refine .inr ⟨_, rfl, ?_⟩
      simp [Note.acquired, Note.released, Pc.held, Pc.readHolder, Pc.writeHolder]

theorem not_store (n : Note) : n.access.kind ≠ .store := by
  have htag := n.tagged
  generalize n.access = x at htag
  cases hp : n.point <;> rw [hp] at htag <;> cases htag <;> decide

theorem access_of_acquired {n : Note} (h : n.acquired ≠ .nothing) : n.access = ⟨.rmw, .acquire⟩ := by
  have htag := n.tagged
  unfold Note.acquired at h
  cases hp : n.point <;> simp only [hp, ne_eq, not_true_eq_false] at h <;> rw [hp] at htag <;>
    exact (Option.some.inj htag).symm

theorem access_of_released {n : Note} (h : n.released ≠ .nothing) : n.access = ⟨.rmw, .release⟩ := by
  have htag := n.tagged
  unfold Note.released at h
  cases hp : n.point <;> simp only [hp, ne_eq, not_true_eq_false] at h <;> rw [hp] at htag <;>
    exact (Option.some.inj htag).symm

variable {T : Type*}

theorem HoldsBetween.snoc {h : List (T × Note)} {t u : T} {i j : ℕ} (hb : HoldsBetween h t i j)
    (hj : j ≤ h.length) (n : Note) : HoldsBetween (h ++ [(u, n)]) t i j := by
  intro m hm hmj k hk
  rcases eventAt_snoc.mp hk with hk | ⟨rfl, -⟩
  · exact hb m hm hmj k hk
  · omega

theorem Section.snoc {h : List (T × Note)} {t u : T} {k : Held} {i j : ℕ} (hs : Section h t k i j)
    (n : Note) : Section (h ++ [(u, n)]) t k i j :=
  ⟨hs.1.append, hs.2.1.append, hs.2.2.1, hs.2.2.2.snoc (Nat.le_of_lt hs.2.1.lt) n⟩

theorem Section.orderedBefore {h : List (T × Note)} {t u : T} {k k' : Held} {i i' j : ℕ}
    (hj : Section h t k i j) (hi' : AcquiresAt h u k' i') (hlt : j < i') :
    OrderedBefore h t k i u i' := by
  obtain ⟨n, hn, hrel, hk⟩ := id hj.2.1
  obtain ⟨n', hn', hacq, hk'⟩ := id hi'
  have hsync : SynchronizesWith Note.access h j i' := by
    refine synchronizesWith_of_rmw (fun x _ => not_store x.2) ⟨n, hn, ?_⟩ ⟨n', hn', ?_⟩ hlt
    · simp only [access_of_released (hrel ▸ hk)]
      rfl
    · simp only [access_of_acquired (hacq ▸ hk')]
      rfl
  exact ⟨j, hj, hlt, hsync, fun p q e e' hp hq hpj hiq => hsync.happensBefore hp hn hn' hq hpj hiq⟩

/-- Two threads hold no conflicting locks. -/
theorem Inv.compatible [Fintype T] {c : Config T Mem Pc} (hc : Inv c) {t u : T} (htu : t ≠ u)
    (hw : (c.loc t).held = .write ∨ (c.loc u).held = .write) :
    (c.loc t).held = .nothing ∨ (c.loc u).held = .nothing := by
  rcases hw with hw | hw
  · obtain ⟨hr, hw⟩ := hc.excl t u htu (held_eq_write.mp hw)
    exact .inr (by simp [Pc.held, hr, hw])
  · obtain ⟨hr, hw⟩ := hc.excl u t htu.symm (held_eq_write.mp hw)
    exact .inl (by simp [Pc.held, hr, hw])

/-- Every section has ended or its thread still holds the lock, and of two conflicting
sections the first has ended before the second begins. -/
structure Sections (h : List (T × Note)) (c : Config T Mem Pc) : Prop where
  ended : ∀ t k i, AcquiresAt h t k i →
    (c.loc t).held = k ∧ HoldsBetween h t i h.length ∨ ∃ j, Section h t k i j
  apart : ∀ t u k k' i i', t ≠ u → k = .write ∨ k' = .write → AcquiresAt h t k i →
    AcquiresAt h u k' i' → i < i' → ∃ j, Section h t k i j ∧ j < i'

variable [DecidableEq T]

/-- What a noted step does to a section of any thread. -/
theorem Sections.ended_snoc {h : List (T × Note)} {c : Config T Mem Pc} (hsec : Sections h c) {u : T}
    {n : Note} {m : Mem} {l : Pc}
    (hn : n.acquired = .nothing ∧ n.released = .nothing ∧ l.held = (c.loc u).held ∨
      n.acquired ≠ .nothing ∧ n.released = .nothing ∧ (c.loc u).held = .nothing ∧ l.held = n.acquired ∨
      n.acquired = .nothing ∧ n.released ≠ .nothing ∧ (c.loc u).held = n.released ∧ l.held = .nothing)
    {t : T} {k : Held} {i : ℕ} (hi : AcquiresAt h t k i) :
    ((move c u m l).loc t).held = k ∧ HoldsBetween (h ++ [(u, n)]) t i (h.length + 1) ∨
      ∃ j, Section (h ++ [(u, n)]) t k i j := by
  obtain ⟨_, -, -, hk⟩ := id hi
  rcases hsec.ended t k i hi with ⟨hheld, hb⟩ | ⟨j, hj⟩
  · -- still held before the step
    have hstill : (t = u → n.released = .nothing) →
        HoldsBetween (h ++ [(u, n)]) t i (h.length + 1) := by
      intro hn' p hp hpj k' hrel
      rcases eventAt_snoc.mp hrel with hrel | ⟨rfl, rfl, hrel, hk'⟩
      · exact hb p hp hrel.lt k' hrel
      · exact hk' (hrel ▸ hn' rfl)
    by_cases htu : t = u
    · subst htu
      rw [move_loc_self]
      rcases hn with ⟨-, hrel, hl⟩ | ⟨-, -, hl, -⟩ | ⟨-, hrel, hl, -⟩
      · exact .inl ⟨hl ▸ hheld, hstill fun _ => hrel⟩
      · exact absurd (hheld ▸ hl) hk
      · have hj : ReleasesAt (h ++ [(t, n)]) t k h.length :=
          eventAt_snoc.mpr (.inr ⟨rfl, rfl, hl ▸ hheld, hk⟩)
        exact .inr ⟨h.length, hi.append, hj, hi.lt, hb.snoc (Nat.le_refl _) n⟩
    · rw [move_loc_of_ne _ _ _ htu]
      exact .inl ⟨hheld, hstill fun h => absurd h htu⟩
  · exact .inr ⟨j, hj.snoc n⟩

variable [Fintype T]

theorem Sections.noted {h : List (T × Note)} {c : Config T Mem Pc} (hsec : Sections h c) {u : T}
    {a : Act} {m : Mem} {l : Pc} {es : List Event} (hs : step a c.mem (c.loc u) = some (m, l, es))
    (hinv : Inv (move c u m l)) : Sections (h ++ emit u (note a c.mem (c.loc u))) (move c u m l) := by
  have hself : (move c u m l).loc u = l := move_loc_self ..
  rcases step_note hs with ⟨hn, hheld⟩ | ⟨n, hn, hcases⟩
  · have hloc : ∀ t, ((move c u m l).loc t).held = (c.loc t).held := by
      intro t
      by_cases ht : t = u
      · rw [ht, hself, hheld]
      · rw [move_loc_of_ne _ _ _ ht]
    rw [hn, emit_nil, List.append_nil]
    exact ⟨fun t k i hi => (hloc t).symm ▸ hsec.ended t k i hi, hsec.apart⟩
  rw [hn, emit_cons, emit_nil]
  have hacq : n.acquired ≠ .nothing → l.held = n.acquired := by
    rcases hcases with ⟨h, -⟩ | ⟨-, -, -, h⟩ | ⟨h, -⟩ <;> simp [h]
  constructor
  · intro t k i hi
    rcases eventAt_snoc.mp hi with hi | ⟨rfl, rfl, hk, hk'⟩
    · simpa using hsec.ended_snoc hcases hi
    · refine .inl ⟨by rw [hself, hacq (hk ▸ hk'), hk], fun p hp hpj => ?_⟩
      rw [List.length_append, List.length_singleton] at hpj
      omega
  · intro t v k k' i i' htv hw hi hi' hlt
    rcases eventAt_snoc.mp hi with hi | ⟨rfl, -⟩
    · rcases eventAt_snoc.mp hi' with hi' | ⟨rfl, rfl, hk, hk'⟩
      · obtain ⟨j, hj, hji⟩ := hsec.apart t v k k' i i' htv hw hi hi' hlt
        exact ⟨j, hj.snoc n, hji⟩
      · -- the thread that acquires finds no conflicting section open
        rcases hsec.ended t k i hi with ⟨hheld, -⟩ | ⟨j, hj⟩
        · have hv : ((move c u m l).loc u).held = k' := by rw [hself, hacq (hk ▸ hk'), hk]
          have ht : ((move c u m l).loc t).held = k := by rw [move_loc_of_ne _ _ _ htv, hheld]
          obtain ⟨_, -, -, hk₀⟩ := id hi
          rcases hinv.compatible htv (by rwa [ht, hv]) with h | h
          · exact absurd (ht ▸ h) hk₀
          · exact absurd (hv ▸ h) hk'
        · exact ⟨j, hj.snoc n, hj.2.1.lt⟩
    · have := hi'.lt
      rw [List.length_append, List.length_singleton] at this
      omega

theorem sections_of_run (hT : Fintype.card T ≤ 2049) {tr : List (T × (Event ⊕ Note))}
    {c : Config T Mem Pc} (h : (observed T).Run anyStep (start T) tr c) : Sections (notes tr) c := by
  refine (h.invariant (I := fun tr c => Inv c ∧ Sections (notes tr) c) ⟨.start, ?_⟩ ?_).2
  · exact ⟨fun _ _ _ hi => absurd hi.lt (Nat.not_lt_zero _),
      fun _ _ _ _ _ _ _ _ hi => absurd hi.lt (Nat.not_lt_zero _)⟩
  · rintro tr c t a m l es ⟨hinv, hsec⟩ hs -
    obtain ⟨es', hs', rfl⟩ := observe_step hs
    have hinv' := hinv.step (fun _ => hinv.toInt hT) hs'
    rw [notes_append, notes_emit]
    exact ⟨hinv', hsec.noted hs' hinv'⟩

/-- **Conflicting sections are ordered.** With at most 2049 threads, of two acquisitions by
different threads of which one is a writer's, one follows the unlock that ends the other's
section, and that unlock synchronizes with it. -/
theorem sections_ordered (hT : Fintype.card T ≤ 2049) {tr : List (T × (Event ⊕ Note))}
    {c : Config T Mem Pc} (h : (observed T).Run anyStep (start T) tr c) {t u : T} (htu : t ≠ u)
    {k k' : Held} (hw : k = .write ∨ k' = .write) {i i' : ℕ} (hi : AcquiresAt (notes tr) t k i)
    (hi' : AcquiresAt (notes tr) u k' i') :
    OrderedBefore (notes tr) t k i u i' ∨ OrderedBefore (notes tr) u k' i' t i := by
  have hsec := sections_of_run hT h
  rcases Nat.lt_trichotomy i i' with hlt | rfl | hlt
  · obtain ⟨j, hj, hji⟩ := hsec.apart t u k k' i i' htu hw hi hi' hlt
    exact .inl (hj.orderedBefore hi' hji)
  · obtain ⟨n, hn, -⟩ := hi
    obtain ⟨n', hn', -⟩ := hi'
    rw [hn, Option.some.injEq, Prod.mk.injEq] at hn'
    exact absurd hn'.1 htu
  · obtain ⟨j, hj, hji⟩ := hsec.apart u t k' k i' i htu.symm hw.symm hi' hi hlt
    exact .inr (hj.orderedBefore hi hji)

/-- The theorem where a failed reader's attempt and its undoing lie between a writer's section and
a reader's. -/
theorem sections_ordered_undone : ∃ (tr : List (Fin 3 × (Event ⊕ Note))) (c : Config (Fin 3) Mem Pc),
    (observed (Fin 3)).Run anyStep (start (Fin 3)) tr c ∧
      (OrderedBefore (notes tr) 0 .write 0 2 4 ∨ OrderedBefore (notes tr) 2 .read 4 0 0) := by
  have h₀ : (observed (Fin 3)).Run anyStep (start (Fin 3)) [] (start (Fin 3)) := .start
  have h₁ := h₀.solo 0 [.call .writeLock, .run] ⟨0⟩ (.rest .write)
    [.inl (.call .writeLock), .inl (.ret none), .inr ⟨.writeSub, rwLockBias, _, rfl⟩] rfl
  have h₂ := h₁.solo 1 [.call .readTrylock, .run] ⟨0xffffffff⟩ .readTryUndo
    [.inl (.call .readTrylock), .inr ⟨.readTry, 0, _, rfl⟩] rfl
  have h₃ := h₂.solo 0 [.call .writeUnlock, .run] ⟨0xfffff⟩ (.rest .nothing)
    [.inl (.call .writeUnlock), .inl (.ret none), .inr ⟨.writeUnlock, 0xffffffff, _, rfl⟩] rfl
  have h₄ := h₃.solo 1 [.run] ⟨0x100000⟩ (.rest .nothing)
    [.inl (.ret (some 0)), .inr ⟨.readTryUndo, 0xfffff, _, rfl⟩] rfl
  have h₅ := h₄.solo 2 [.call .readLock, .run] ⟨0xfffff⟩ (.rest .read)
    [.inl (.call .readLock), .inl (.ret none), .inr ⟨.readSub, 0x100000, _, rfl⟩] rfl
  exact ⟨_, _, h₅, sections_ordered (by decide) h₅ (by decide) (.inl rfl) ⟨_, rfl, rfl, by decide⟩
    ⟨_, rfl, rfl, by decide⟩⟩

end Cds.RwLock
