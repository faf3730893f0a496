import CdsBenchmarks.RwLock.RwLockDefs
import CdsBenchmarks.Concurrent.Counting

/-! The counter of the reader-writer lock is `RW_LOCK_BIAS` less the weight of all threads,
where a read holder or a read attempt to be undone weighs 1 and a write holder or a write
attempt to be undone weighs `RW_LOCK_BIAS`. With at most 2049 threads nothing wraps, and
exclusion follows. -/

namespace Cds.RwLock
open Concurrent Program

/-! ## Weights -/

def Pc.weight (l : Pc) : ℤ :=
  ((if l.readHolder then 1 else 0) + if l.readDebt then 1 else 0) +
    bias * ((if l.writeHolder then 1 else 0) + if l.writeDebt then 1 else 0)

theorem weight_nonneg (l : Pc) : 0 ≤ l.weight := by
  unfold Pc.weight bias
  split_ifs <;> decide

theorem weight_le (l : Pc) : l.weight ≤ bias := by
  rcases l with h | h | h | _ | _ | _ | _ | _ | _ | _ | _ | _ | _ | _ | _ <;> try cases h
  all_goals decide

theorem weight_of_readHolder {l : Pc} (h : l.readHolder) : 1 ≤ l.weight := by
  have := weight_nonneg l
  unfold Pc.weight bias at *
  rw [if_pos h]
  split_ifs <;> decide

theorem weight_of_writeHolder {l : Pc} (h : l.writeHolder) : bias ≤ l.weight := by
  unfold Pc.weight bias
  rw [if_pos h]
  split_ifs <;> decide

theorem entry_eq {o : Op} {h : Held} {l : Pc} (he : o.entry h = some l) :
    l.readHolder = (Pc.rest h).readHolder ∧ l.writeHolder = (Pc.rest h).writeHolder ∧
      l.weight = (Pc.rest h).weight := by
  cases o <;> cases h <;> simp only [Op.entry, Option.some.injEq, reduceCtorEq] at he <;>
    subst he <;> decide

section Lock
variable {x v : CInt} {d : ℤ}

theorem lock_same (h : BitVec.ofInt 32 d = 0) : x = x - BitVec.ofInt 32 d := by
  rw [h]
  exact (BitVec.sub_zero x).symm

theorem lock_sub (h : BitVec.ofInt 32 d = v) : x - v = x - BitVec.ofInt 32 d := by rw [h]

theorem lock_add (h : -BitVec.ofInt 32 d = v) : x + v = x - BitVec.ofInt 32 d := by
  rw [← h, BitVec.sub_eq_add_neg]

end Lock

/-- Every step moves the counter by the change of the thread's weight. -/
theorem step_lock {a : Act} {m m' : Mem} {l l' : Pc} {es : List Event}
    (h : step a m l = some (m', l', es)) :
    m'.lock = m.lock - BitVec.ofInt 32 (l'.weight - l.weight) := by
  cases a with
  | call o =>
    cases l <;> simp only [step, reduceCtorEq, Option.map_eq_some_iff] at h
    obtain ⟨l₁, he, heq⟩ := h
    cases heq
    exact lock_same (by rw [(entry_eq he).2.2, Int.sub_self]; rfl)
  | run =>
    cases l <;> simp only [step, access, reduceCtorEq, Option.some.injEq, Prod.mk.injEq] at h
    case readCan h' | writeCan h' =>
      obtain ⟨rfl, rfl, -⟩ := h
      exact lock_same (by cases h' <;> decide)
    case readSpin | writeSpin =>
      split at h <;> simp only [Option.some.injEq, Prod.mk.injEq] at h <;>
        obtain ⟨rfl, rfl, -⟩ := h <;> exact lock_same (by decide)
    case readSub | writeSub | readTry | writeTry =>
      split at h <;> simp only [Option.some.injEq, Prod.mk.injEq] at h <;>
        obtain ⟨rfl, rfl, -⟩ := h <;> exact lock_sub (by decide)
    all_goals
      obtain ⟨rfl, rfl, -⟩ := h
      exact lock_add (by decide)

/-- A step that makes a thread a holder found the counter positive, or at the bias, and the
thread weighed nothing before. -/
theorem step_acquire {a : Act} {m m' : Mem} {l l' : Pc} {es : List Event}
    (h : step a m l = some (m', l', es)) :
    (l'.readHolder → l.readHolder ∨ l.weight = 0 ∧ 0 < m.lock.toInt) ∧
      (l'.writeHolder → l.writeHolder ∨ l.weight = 0 ∧ m.lock = rwLockBias) := by
  cases a with
  | call o =>
    cases l <;> simp only [step, reduceCtorEq, Option.map_eq_some_iff] at h
    obtain ⟨l₁, he, heq⟩ := h
    cases heq
    exact ⟨fun hr => .inl ((entry_eq he).1 ▸ hr), fun hw => .inl ((entry_eq he).2.1 ▸ hw)⟩
  | run =>
    cases l <;> simp only [step, access, reduceCtorEq, Option.some.injEq, Prod.mk.injEq] at h
    case readCan h' | writeCan h' =>
      obtain ⟨-, rfl, -⟩ := h
      cases h' <;> simp [Pc.readHolder, Pc.writeHolder]
    case readSub | readTry | writeSub | writeTry | readSpin | writeSpin =>
      split at h <;> simp only [Option.some.injEq, Prod.mk.injEq] at h <;>
        obtain ⟨-, rfl, -⟩ := h <;> simp_all [Pc.readHolder, Pc.writeHolder, Pc.weight, Pc.readDebt,
          Pc.writeDebt]
    all_goals
      obtain ⟨-, rfl, -⟩ := h
      simp [Pc.readHolder, Pc.writeHolder]

/-! ## The accounting -/

variable {T : Type*} [Fintype T]

/-- The counter accounts for all threads, and no write holder has company. -/
structure Inv (c : Config T Mem Pc) : Prop where
  lock : c.mem.lock = BitVec.ofInt 32 (bias - total Pc.weight c)
  excl : ∀ t u, t ≠ u → (c.loc t).writeHolder →
    (c.loc u).readHolder = false ∧ (c.loc u).writeHolder = false

theorem Inv.toInt {c : Config T Mem Pc} (h : Inv c) (hT : Fintype.card T ≤ 2049) :
    c.mem.lock.toInt = bias - total Pc.weight c := by
  have h₁ := total_nonneg weight_nonneg c
  have h₂ := total_le weight_le c
  have h₃ : (Fintype.card T : ℤ) ≤ 2049 := by exact_mod_cast hT
  rw [h.lock, BitVec.toInt_ofInt]
  unfold bias at *
  exact Int.bmod_eq_of_le (by omega) (by omega)

theorem total_weight (c : Config T Mem Pc) : total Pc.weight c =
    count Pc.readHolder c + count Pc.readDebt c +
      bias * (count Pc.writeHolder c + count Pc.writeDebt c) := by
  simp only [← total_indicator, ← total_add, ← total_mul]
  rfl

theorem Inv.start [DecidableEq T] : Inv (start T) where
  lock := by
    have h : total Pc.weight (RwLock.start T) = 0 := Finset.sum_eq_zero fun _ _ => rfl
    rw [h]
    rfl
  excl _ _ _ h := absurd h (by simp [RwLock.start, Pc.writeHolder])

/-- The step of a thread that acquires nothing, or that finds the counter exact, excludes. -/
theorem Inv.step [DecidableEq T] {c : Config T Mem Pc} (hc : Inv c) {t : T}
    (hexact : (c.loc t).weight = 0 → c.mem.lock.toInt = bias - total Pc.weight c)
    {a : Act} {m : Mem} {l : Pc} {es : List Event}
    (hs : step a c.mem (c.loc t) = some (m, l, es)) : Inv (move c t m l) where
  lock := by
    rw [total_move, move_mem, step_lock hs, hc.lock, BitVec.sub_eq_add_neg, ← BitVec.ofInt_neg,
      ← BitVec.ofInt_add]
    congr 1
    omega
  excl x y hxy hx := by
    have hpos := fun u => le_total weight_nonneg c u
    obtain ⟨hread, hwrite⟩ := step_acquire hs
    have hbias : (c.loc t).weight = 0 → c.mem.lock = rwLockBias → total Pc.weight c = 0 := by
      intro hw h
      have hlock := hexact hw
      rw [h, show rwLockBias.toInt = bias from rfl] at hlock
      omega
    by_cases hxt : x = t
    · subst hxt
      rw [move_loc_of_ne _ _ _ hxy.symm]
      rw [move_loc_self] at hx
      rcases hwrite hx with hx | ⟨hw, hx⟩
      · exact hc.excl x y hxy hx
      · -- the counter is at the bias, so no thread weighs anything
        have hy : (c.loc y).weight ≤ 0 := hbias hw hx ▸ hpos y
        constructor
        · by_contra h
          have := weight_of_readHolder (by simpa using h)
          omega
        · by_contra h
          have := weight_of_writeHolder (by simpa using h)
          unfold bias at this
          omega
    · rw [move_loc_of_ne _ _ _ hxt] at hx
      have hwx := weight_of_writeHolder hx
      have htx := hpos x
      by_cases hyt : y = t
      · subst hyt
        rw [move_loc_self]
        have hold := hc.excl x y hxy hx
        unfold bias at *
        constructor
        · by_contra h
          rcases hread (by simpa using h) with h | ⟨hw, h⟩
          · simp [hold.1] at h
          · have hlock := hexact hw
            omega
        · by_contra h
          rcases hwrite (by simpa using h) with h | ⟨hw, h⟩
          · simp [hold.2] at h
          · have := hbias hw h
            omega
      · rw [move_loc_of_ne _ _ _ hyt]
        exact hc.excl x y hxy hx

theorem inv_of_run [DecidableEq T] (hT : Fintype.card T ≤ 2049) {tr : List (T × Event)}
    {c : Config T Mem Pc} (h : (program T).Run anyStep (start T) tr c) : Inv c :=
  h.invariant (I := fun _ c => Inv c) .start fun hc hs _ => hc.step (fun _ => hc.toInt hT) hs

/-- The values a step of `read_can_lock` or `write_can_lock` can return. -/
theorem step_can {a : Act} {m m' : Mem} {l l' : Pc} {v : ℤ}
    (h : step a m l = some (m', l', [.ret (some v)])) (hv : v = 1) :
    (∀ h', l = .readCan h' → 0 < m.lock.toInt) ∧ (∀ h', l = .writeCan h' → m.lock = rwLockBias) := by
  refine ⟨?_, ?_⟩ <;> rintro h' rfl <;> cases a <;> simp [step, access] at h
  · by_contra hpos
    simp [hpos] at h
    omega
  · by_contra hbias
    simp [hbias] at h
    omega

/-- What the counter of the lock accounts for, what its tests tell, and that both spin
loops can exit once the lock is free and no attempt is to be undone. -/
structure Accounted (c : Config T Mem Pc) : Prop where
  lock : c.mem.lock.toInt = bias - count Pc.readHolder c - count Pc.readDebt c -
    bias * (count Pc.writeHolder c + count Pc.writeDebt c)
  oneWriter : count Pc.writeHolder c ≤ 1
  noReader : count Pc.writeHolder c = 1 → count Pc.readHolder c = 0
  readCan : ∀ t h a m l, c.loc t = .readCan h →
    step a c.mem (c.loc t) = some (m, l, [.ret (some 1)]) → count Pc.writeHolder c = 0
  writeCan : ∀ t h a m l, c.loc t = .writeCan h →
    step a c.mem (c.loc t) = some (m, l, [.ret (some 1)]) →
      count Pc.writeHolder c = 0 ∧ count Pc.readHolder c = 0
  free : count Pc.readHolder c = 0 → count Pc.writeHolder c = 0 → count Pc.readDebt c = 0 →
    count Pc.writeDebt c = 0 → c.mem.lock = rwLockBias ∧
      access c.mem .readSpin = some (c.mem, .readSub, []) ∧
      access c.mem .writeSpin = some (c.mem, .writeSub, [])

theorem Inv.accounted {c : Config T Mem Pc} (hc : Inv c) (hT : Fintype.card T ≤ 2049) :
    Accounted c := by
  have hlock := hc.toInt hT
  have hsum := total_weight c
  have hbias : c.mem.lock = rwLockBias → total Pc.weight c = 0 := by
    intro h
    rw [h, show rwLockBias.toInt = bias from rfl] at hlock
    omega
  unfold bias at hsum hlock
  refine ⟨by unfold bias; omega, count_le_one fun t u ht hu => ?_, fun hone => ?_, ?_, ?_, ?_⟩
  · by_contra hne
    exact absurd hu (by simp [(hc.excl t u hne ht).2])
  · obtain ⟨t, ht⟩ : ∃ t, (c.loc t).writeHolder := by
      by_contra hno
      have := count_eq_zero.mpr fun t => by simpa using fun ht => hno ⟨t, ht⟩
      omega
    refine count_eq_zero.mpr fun u => ?_
    by_cases hut : t = u
    · subst hut
      revert ht
      cases hl : c.loc t with
      | rest h | readCan h | writeCan h => cases h <;> simp [Pc.writeHolder, Pc.readHolder]
      | _ => simp [Pc.writeHolder, Pc.readHolder]
    · exact (hc.excl t u hut ht).1
  · intro t h a m l hpc hs
    have := (step_can hs rfl).1 h hpc
    omega
  · intro t h a m l hpc hs
    have := hbias ((step_can hs rfl).2 h hpc)
    omega
  · intro hR hW hr hw
    have hfree : c.mem.lock = rwLockBias := by
      rw [hc.lock, total_weight, hR, hW, hr, hw]
      rfl
    rw [access, access, hfree]
    exact ⟨rfl, rfl, rfl⟩

/-- **Exclusion and accounting.** With at most 2049 threads the counter is exact in every
reachable state. -/
theorem exclusion_accounting [DecidableEq T] (hT : Fintype.card T ≤ 2049) {tr : List (T × Event)}
    {c : Config T Mem Pc} (h : (program T).Run anyStep (start T) tr c) : Accounted c :=
  (inv_of_run hT h).accounted hT

/-- The theorem where a reader holds the lock and a writer is about to undo its attempt. -/
theorem exclusion_accounting_reader_and_attempt : ∃ c : Config (Fin 3) Mem Pc,
    count Pc.readHolder c = 1 ∧ count Pc.writeDebt c = 1 ∧ Accounted c := by
  have h₀ : (program (Fin 3)).Run anyStep (start (Fin 3)) [] (start (Fin 3)) := .start
  have h₁ := h₀.solo 0 [.call .readLock, .run] ⟨0xfffff⟩ (.rest .read)
    [.call .readLock, .ret none] rfl
  have h₂ := h₁.solo 1 [.call .writeLock, .run] ⟨0xffffffff⟩ .writeUndo [.call .writeLock] rfl
  exact ⟨_, by decide, by decide, exclusion_accounting (by decide) h₂⟩

end Cds.RwLock
