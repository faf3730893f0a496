import CdsBenchmarks.SpscQueue.EventcountDefs
import CdsBenchmarks.Concurrent.Trace

/-! Any number of threads calling `get`, `wait` and `signal` on one eventcount. A thread
that sleeps on a count that a later signal has passed is still to be notified, as long as
`waiters` does not wrap. -/

namespace Cds.Eventcount
open Concurrent Program

inductive Op
  | get
  | wait (cmp : Word)
  | signal
deriving DecidableEq, Repr

/-- A thread, between two calls or inside one. -/
inductive Local
  | idle
  | call (op : Op) (p : Pc)
deriving DecidableEq, Repr

inductive Event
  /-- The `fetch_or` of `get`, which returns `cmp`. -/
  | got (cmp : Word)
  /-- The `fetch_add` of `signal`. -/
  | signalled
  /-- A compare-exchange that succeeds. -/
  | counted
  | notified
deriving DecidableEq, Repr

inductive Act
  | call (op : Op)
  | run
  /-- A weak compare-exchange fails, or a sleeping thread wakes, spuriously. -/
  | spurious
deriving DecidableEq, Repr

def Op.entry : Op → Pc
  | .get => .get
  | .wait cmp => .waitLoad cmp
  | .signal => .signal

/-- The events of the step from the first point to the second. -/
def observed : Pc → Pc → List Event
  | .get, .done (some cmp) => [.got cmp]
  | .signal, _ => [.signalled]
  | .signalCas _, .signalRead => [.counted]
  | .notifyAll, _ => [.notified]
  | _, _ => []

def resume (op : Op) : Pc → Local
  | .done _ => .idle
  | p => .call op p

section Model
variable {T : Type*} [DecidableEq T]

def run (me : T) (spurious : Bool) (m : Mem T) : Local → Option (Mem T × Local × List Event)
  | .idle => none
  | .call op p => (access me spurious m p).map fun r => (r.1, resume op r.2, observed p r.2)

def step (me : T) (a : Act) (m : Mem T) (l : Local) : Option (Mem T × Local × List Event) :=
  match a with
  | .call op => if l = .idle then some (m, .call op op.entry, []) else none
  | .run => run me false m l
  | .spurious => run me true m l

def program (T : Type*) [DecidableEq T] : Program T (Mem T) Local Act Event := ⟨step⟩

theorem step_call {me : T} {m m' : Mem T} {op : Op} {p p' : Pc}
    (h : access me false m p = some (m', p')) :
    (program T).step me .run m (.call op p) = some (m', resume op p', observed p p') := by
  change (access me false m p).map _ = _
  rw [h]
  rfl

def start (T : Type*) : Config T (Mem T) Local := ⟨eventcount T, fun _ => .idle⟩

/-! ## What a trace and a state say -/

/-- The point of a thread; between two calls it is that of a call that has returned. -/
def Local.point : Local → Pc
  | .idle => .done none
  | .call _ p => p

/-- Not about to do the `waiters += 1` that wraps to 0. -/
def NoWrap (c : Config T (Mem T) Local) (t : T) (_ : Act) : Prop :=
  (c.loc t).point ≠ .waitStore 0xFFFFFFFF

/-- The number of increments of `count`. -/
def increments (h : List (T × Event)) : ℕ := occurrences .counted h

/-- The latest `get` of `t` is the one at position `i`, and returned `cmp`. -/
def LatestGet (h : List (T × Event)) (t : T) (cmp : Word) (i : ℕ) : Prop :=
  h[i]? = some (t, .got cmp) ∧ ∀ j cmp', i < j → h[j]? ≠ some (t, .got cmp')

/-- In `cv.wait` of a call `wait(cmp)`, not yet notified. -/
def SleepsOn (c : Config T (Mem T) Local) (t : T) (cmp : Word) : Prop :=
  c.loc t = .call (.wait cmp) .asleep ∧ c.mem.asleep t = true

/-- `t` sleeps on the count it got last, and there has been a signal since. -/
def Passed (h : List (T × Event)) (c : Config T (Mem T) Local) (t : T) : Prop :=
  ∃ cmp i j u, SleepsOn c t cmp ∧ LatestGet h t cmp i ∧ i < j ∧ h[j]? = some (u, .signalled)

/-- Inside `signal_impl`, past its test of the flag. -/
def Pc.signalling : Pc → Bool
  | .signalLock _ | .signalCas _ | .signalRead | .signalReset _ | .signalUnlock _ | .notifyAll => true
  | _ => false

/-- `u` is inside `signal_impl` and stays there in every continuation in which it neither
increments the count nor notifies. -/
def SignalToCome (c : Config T (Mem T) Local) (u : T) : Prop :=
  (c.loc u).point.signalling ∧ ∀ tr c', (program T).Run anyStep c tr c' →
    (u, .counted) ∉ tr → (u, .notified) ∉ tr → (c'.loc u).point.signalling

end Model

/-! ## What one step does -/

section Steps
variable {T : Type*} [DecidableEq T] {t : T} {a : Act} {b : Bool} {m m' : Mem T} {l l' : Local}
  {p p' : Pc} {es : List Event}

/-- A step starts a call, or is the next access of one. -/
theorem step_cases (hs : step t a m l = some (m', l', es)) :
    (∃ op, l = .idle ∧ m' = m ∧ l' = .call op op.entry ∧ es = []) ∨
      ∃ op p p' b, l = .call op p ∧ access t b m p = some (m', p') ∧ l' = resume op p' ∧
        es = observed p p' := by
  have hrun : ∀ b, run t b m l = some (m', l', es) → ∃ op p p' b, l = .call op p ∧
      access t b m p = some (m', p') ∧ l' = resume op p' ∧ es = observed p p' := by
    clear hs
    intro b hs
    cases l with
    | idle => cases hs
    | call op p =>
      obtain ⟨r, hr, heq⟩ := Option.map_eq_some_iff.mp hs
      cases heq
      exact ⟨op, p, r.2, b, rfl, hr, rfl, rfl⟩
  cases a with
  | call op =>
    simp only [step] at hs
    split at hs <;> cases hs
    next hl => exact .inl ⟨op, hl, rfl, rfl, rfl⟩
  | run | spurious => exact .inr (hrun _ hs)

theorem point_of_call {op : Op} (hl : l = .call op p) : l.point = p := by
  rw [hl]
  rfl

/-- What never holds at the end of a call is not changed by its return. -/
theorem point_resume (P : Pc → Prop) (hdone : ∀ r, ¬P (.done r)) (op : Op) (p : Pc) :
    P (resume op p).point ↔ P p := by
  cases p with
  | done r => exact iff_of_false (hdone none) (hdone r)
  | _ => exact Iff.rfl

theorem owns_resume (op : Op) (p : Pc) : (resume op p).point.owns ↔ p.owns :=
  point_resume (·.owns = true) (fun _ => Bool.false_ne_true) op p

/-- Has seen the flag, and is still to count the signal. -/
def Pc.counting : Pc → Bool
  | .signalLock _ | .signalCas _ => true
  | _ => false

theorem counting_resume (op : Op) (p : Pc) : (resume op p).point.counting ↔ p.counting :=
  point_resume (·.counting = true) (fun _ => Bool.false_ne_true) op p

/-- The only steps that change the count are `get` and a successful compare-exchange. -/
theorem access_count (h : access t b m p = some (m', p')) :
    (p = .get ∧ m'.count = m.count ||| flag ∧ observed p p' = [.got (m.count &&& mask)]) ∨
    (p = .signal ∧ m' = m ∧ p' = signalImpl m.count ∧ observed p p' = [.signalled]) ∨
    (∃ cmp, p = .signalCas cmp ∧ p' = .signalRead ∧ m'.waiters = m.waiters ∧
      m'.count.toNat = (m.count.toNat + 1) % 2 ^ 31 ∧ observed p p' = [.counted]) ∨
    (m'.count = m.count ∧ (observed p p' = [] ∨ observed p p' = [.notified]) ∧
      (p.counting → p'.counting)) := by
  cases p <;> simp only [access, reduceCtorEq, lock_eq_some, Option.some.injEq, Prod.mk.injEq] at h
  case get =>
    obtain ⟨rfl, rfl⟩ := h
    exact .inl ⟨rfl, rfl, rfl⟩
  case signal =>
    obtain ⟨rfl, rfl⟩ := h
    exact .inr (.inl ⟨rfl, rfl, rfl, rfl⟩)
  case signalCas cmp =>
    split at h <;> simp only [Option.some.injEq, Prod.mk.injEq] at h <;> obtain ⟨rfl, rfl⟩ := h
    · next heq =>
      have heq : m.count = cmp := by
        simp only [Bool.and_eq_true, decide_eq_true_eq] at heq
        exact heq.1
      refine .inr (.inr (.inl ⟨cmp, rfl, rfl, rfl, ?_, rfl⟩))
      rw [toNat_and_mask, heq, BitVec.toNat_add, show (1 : Word).toNat = 1 from rfl]
      omega
    · exact .inr (.inr (.inr ⟨rfl, .inl rfl, id⟩))
  case waitLock | relock | signalLock =>
    obtain ⟨-, rfl, rfl⟩ := h
    exact .inr (.inr (.inr ⟨rfl, .inl rfl, fun h => h⟩))
  case waitLoad | waitRecheck | asleep =>
    split at h <;> simp only [reduceCtorEq, Option.some.injEq, Prod.mk.injEq] at h <;>
      obtain ⟨rfl, rfl⟩ := h <;>
      exact .inr (.inr (.inr ⟨rfl, .inl rfl, fun h => absurd h Bool.false_ne_true⟩))
  case notifyAll =>
    obtain ⟨rfl, rfl⟩ := h
    exact .inr (.inr (.inr ⟨rfl, .inr rfl, fun h => absurd h Bool.false_ne_true⟩))
  all_goals
    obtain ⟨rfl, rfl⟩ := h
    exact .inr (.inr (.inr ⟨rfl, .inl rfl, fun h => absurd h Bool.false_ne_true⟩))

end Steps

/-! ## The counts that have been got -/

section Counts
variable {T : Type*} {h : List (T × Event)} {t : T} {m m' : Mem T} {loc loc' : T → Local}

/-- With fewer than `2^31` increments the count under its mask tells how many there have
been, and a `get` with none since has its flag still set; a signal after it waits to count. -/
structure Counted (h : List (T × Event)) (m : Mem T) (loc : T → Local) : Prop where
  epoch : m.count.toNat % 2 ^ 31 = increments h
  got : ∀ {i t cmp}, h[i]? = some (t, .got cmp) → cmp.toNat = increments (h.take i) ∧
    (increments (h.take i) = increments h → 2 ^ 31 ≤ m.count.toNat)
  signalled : ∀ {i j t u cmp}, h[i]? = some (t, .got cmp) → i < j → h[j]? = some (u, .signalled) →
    increments (h.take i) = increments h → (loc u).point.counting

theorem increments_take_le (h : List (T × Event)) (i : ℕ) : increments (h.take i) ≤ increments h :=
  (List.take_sublist i h).countP_le

theorem increments_snoc (h : List (T × Event)) (t : T) (e : Event) :
    increments (h ++ [(t, e)]) = increments h + if e = .counted then 1 else 0 := occurrences_snoc ..

theorem take_snoc {i : ℕ} {u : T} {e : Event} (x : T × Event) (hi : h[i]? = some (u, e)) :
    (h ++ [x]).take i = h.take i :=
  List.take_append_of_le_length (Nat.le_of_lt (lt_of_getElem? hi))

theorem old_of_ne {i : ℕ} {u : T} {e e' : Event} (he : e' ≠ e)
    (hi : (h ++ [(t, e')])[i]? = some (u, e)) : h[i]? = some (u, e) :=
  ((getElem?_snoc ..).mp hi).resolve_right fun hn => he (Prod.mk.inj hn.2).2

/-- A step that only moves a thread. -/
theorem Counted.moved (hc : Counted h m loc) (hm : m'.count = m.count)
    (hloc : ∀ u, (loc u).point.counting → (loc' u).point.counting) : Counted h m' loc' :=
  ⟨hm ▸ hc.epoch, hm ▸ hc.got, fun hi hij hj heq => hloc _ (hc.signalled hi hij hj heq)⟩

theorem Counted.notify (hc : Counted h m loc) : Counted (h ++ [(t, .notified)]) m loc := by
  have hinc : increments (h ++ [(t, .notified)]) = increments h := increments_snoc ..
  refine ⟨hinc ▸ hc.epoch, fun hi => ?_, fun hi hij hj heq => ?_⟩
  · have hi := old_of_ne (by simp) hi
    rw [take_snoc _ hi, hinc]
    exact hc.got hi
  · have hi := old_of_ne (by simp) hi
    rw [take_snoc _ hi, hinc] at heq
    exact hc.signalled hi hij (old_of_ne (by simp) hj) heq

theorem Counted.get (hc : Counted h m loc) (hm : m'.count = m.count ||| flag)
    (hloc : ∀ u, (loc u).point.counting → (loc' u).point.counting) :
    Counted (h ++ [(t, .got (m.count &&& mask))]) m' loc' := by
  have hinc : increments (h ++ [(t, .got (m.count &&& mask))]) = increments h := increments_snoc ..
  have hor := toNat_or_flag m.count
  refine ⟨by rw [hinc, hm, ← hc.epoch]; omega, fun {i u cmp} hi => ?_, fun hi hij hj heq => hloc _ ?_⟩
  · rw [hinc, hm]
    refine ⟨?_, fun _ => by omega⟩
    rcases (getElem?_snoc ..).mp hi with hi | ⟨rfl, heq⟩
    · rw [take_snoc _ hi]
      exact (hc.got hi).1
    · cases heq
      rw [List.take_left, toNat_and_mask]
      exact hc.epoch
  · have hj := old_of_ne (by simp) hj
    rcases (getElem?_snoc ..).mp hi with hi | ⟨rfl, -⟩
    · rw [take_snoc _ hi, hinc] at heq
      exact hc.signalled hi hij hj heq
    · exact absurd (lt_of_getElem? hj) (Nat.not_lt.mpr (Nat.le_of_lt hij))

theorem Counted.signal (hc : Counted h m loc)
    (hloc : ∀ u, (loc u).point.counting → (loc' u).point.counting)
    (hl : 2 ^ 31 ≤ m.count.toNat → (loc' t).point.counting) :
    Counted (h ++ [(t, .signalled)]) m loc' := by
  have hinc : increments (h ++ [(t, .signalled)]) = increments h := increments_snoc ..
  refine ⟨hinc ▸ hc.epoch, fun hi => ?_, fun hi hij hj heq => ?_⟩
  · have hi := old_of_ne (by simp) hi
    rw [take_snoc _ hi, hinc]
    exact hc.got hi
  · have hi := old_of_ne (by simp) hi
    rw [take_snoc _ hi, hinc] at heq
    rcases (getElem?_snoc ..).mp hj with hj | ⟨-, hu⟩
    · exact hloc _ (hc.signalled hi hij hj heq)
    · cases hu
      exact hl ((hc.got hi).2 heq)

/-- After an increment no `get` is recent. -/
theorem Counted.count (hc : Counted h m loc) (hm : m'.count.toNat = (m.count.toNat + 1) % 2 ^ 31)
    (hlt : increments (h ++ [(t, .counted)]) < 2 ^ 31) : Counted (h ++ [(t, .counted)]) m' loc' := by
  have hinc : increments (h ++ [(t, .counted)]) = increments h + 1 := increments_snoc ..
  have hepoch := hc.epoch
  have hne : ∀ i, increments (h.take i) ≠ increments h + 1 := by
    intro i heq
    have := increments_take_le h i
    omega
  refine ⟨by omega, fun hi => ?_, fun hi _ _ heq => ?_⟩
  · have hi := old_of_ne (by simp) hi
    rw [take_snoc _ hi, hinc]
    exact ⟨(hc.got hi).1, fun heq => absurd heq (hne _)⟩
  · rw [take_snoc _ (old_of_ne (by simp) hi), hinc] at heq
    exact absurd heq (hne _)

end Counts

/-! ## The invariant -/

section Invariant
variable {T : Type*} [DecidableEq T] {h : List (T × Event)} {c : Config T (Mem T) Local} {t : T}
  {a : Act} {m : Mem T} {l : Local} {es : List Event}

/-- A thread inside the mutex owns it. -/
def Guarded (c : Config T (Mem T) Local) : Prop := ∀ t, (c.loc t).point.owns → c.mem.guard = some t

omit [DecidableEq T] in
theorem Guarded.unique (hg : Guarded c) {u : T} (ht : (c.loc t).point.owns)
    (hu : (c.loc u).point.owns) : u = t := Option.some.inj ((hg u hu).symm.trans (hg t ht))

theorem entry_quiet (op : Op) : op.entry.owns = false ∧ op.entry.counting = false := by
  cases op <;> exact ⟨rfl, rfl⟩

theorem guarded_step (hg : Guarded c) (hs : step t a c.mem (c.loc t) = some (m, l, es)) :
    Guarded (move c t m l) := by
  refine forall_move (P := fun u (l : Local) => l.point.owns → m.guard = some u) ?_ fun u hut hu => ?_
  all_goals rcases step_cases hs with ⟨op, -, rfl, rfl, -⟩ | ⟨op, p, p', b, hl, hacc, rfl, -⟩
  · exact fun hu => absurd ((entry_quiet op).1.symm.trans hu) Bool.false_ne_true
  · exact fun hu => (access_guard hacc (point_of_call hl ▸ hg t)).1 ((owns_resume op p').mp hu)
  · exact hg u hu
  · exact ((access_guard hacc (point_of_call hl ▸ hg t)).2 u hut).mpr (hg u hu)

theorem counted_step (hc : Counted h c.mem c.loc) (hs : step t a c.mem (c.loc t) = some (m, l, es))
    (hlt : increments (h ++ emit t es) < 2 ^ 31) :
    Counted (h ++ emit t es) m (move c t m l).loc := by
  have hmove : ((c.loc t).point.counting → l.point.counting) → ∀ u, (c.loc u).point.counting →
      ((move c t m l).loc u).point.counting := fun himp =>
    forall_move (P := fun u (l : Local) => (c.loc u).point.counting → l.point.counting) himp
      fun _ _ => id
  rcases step_cases hs with ⟨op, hl, rfl, rfl, rfl⟩ | ⟨op, p, p', b, hl, hacc, rfl, rfl⟩
  · rw [emit_nil, List.append_nil]
    exact hc.moved rfl (hmove (by rw [hl]; exact nofun))
  · rw [hl] at hmove
    rcases access_count hacc with ⟨rfl, hm, hes⟩ | ⟨rfl, rfl, rfl, hes⟩ | ⟨cmp, rfl, rfl, -, hm, hes⟩ |
        ⟨hm, hes, himp⟩
    · rw [hes]
      exact hc.get hm (hmove nofun)
    · rw [hes]
      refine hc.signal (hmove nofun) fun hf => ?_
      rw [move_loc_self, signalImpl, if_pos ((and_flag_ne_zero _).mpr hf)]
      rfl
    · rw [hes] at hlt ⊢
      exact hc.count hm hlt
    · have hmoved := hc.moved hm (hmove fun hp => (counting_resume op p').mpr (himp hp))
      rcases hes with hes | hes <;> rw [hes]
      · rw [emit_nil, List.append_nil]
        exact hmoved
      · exact hmoved.notify

/-- The signaller has incremented the count and will find that there is someone to notify. -/
def Notifying (waiters : Word) : Pc → Prop
  | .signalRead => waiters ≠ 0
  | .signalReset n | .signalUnlock n => n ≠ 0
  | .notifyAll => True
  | _ => False

theorem notifying_resume (waiters : Word) (op : Op) (p : Pc) :
    Notifying waiters (resume op p).point ↔ Notifying waiters p :=
  point_resume (Notifying waiters) (fun _ h => h) op p

/-- About to reset `waiters`. -/
def Pc.resetting : Pc → Bool
  | .signalRead | .signalReset _ => true
  | _ => false

/-- A thread that sleeps on `cmp` after `n` increments has been counted in `waiters` since
the last of them, or is about to be notified. -/
def Covered (n : ℕ) (cmp : Word) (c : Config T (Mem T) Local) : Prop :=
  (cmp.toNat = n ∧ c.mem.waiters ≠ 0 ∧ ∀ u, (c.loc u).point.resetting = false) ∨
    ∃ u, Notifying c.mem.waiters (c.loc u).point

/-- What a thread inside `wait(cmp)` knows. -/
def Waits (n : ℕ) (cmp : Word) (c : Config T (Mem T) Local) (t : T) : Pc → Prop
  | .waitLoad k | .waitLock k | .waitRecheck k => k = cmp
  | .waitRead | .waitStore _ => cmp.toNat = n
  | .waitCv => cmp.toNat = n ∧ c.mem.waiters ≠ 0
  | .asleep => c.mem.asleep t = true → Covered n cmp c
  | .relock | .waitUnlock => True
  | _ => False

structure Inv (h : List (T × Event)) (c : Config T (Mem T) Local) : Prop where
  guarded : Guarded c
  counted : Counted h c.mem c.loc
  waits : ∀ t cmp p, c.loc t = .call (.wait cmp) p → Waits (increments h) cmp c t p

variable {b : Bool} {p p' : Pc} {m' : Mem T}

theorem access_outside (hacc : access t b m p = some (m', p')) (ho : p.owns = false) :
    m'.waiters = m.waiters := by
  cases p <;> simp only [access, reduceCtorEq, lock_eq_some, Option.some.injEq,
    Prod.mk.injEq] at hacc <;> try cases ho
  case waitLock | signalLock | relock =>
    obtain ⟨-, rfl, rfl⟩ := hacc
    rfl
  case waitLoad | asleep =>
    split at hacc <;> simp only [reduceCtorEq, Option.some.injEq, Prod.mk.injEq] at hacc <;>
      obtain ⟨rfl, rfl⟩ := hacc <;> rfl
  all_goals
    obtain ⟨rfl, rfl⟩ := hacc
    rfl

/-- A notification to come is not taken back by another thread. -/
theorem notifying_other (hg : Guarded c) (hp : (c.loc t).point = p)
    (hacc : access t b c.mem p = some (m, p')) {u : T} (hut : u ≠ t)
    (hn : Notifying c.mem.waiters (c.loc u).point) : Notifying m.waiters (c.loc u).point := by
  cases hu : (c.loc u).point <;> rw [hu] at hn <;> try exact hn
  case signalRead =>
    have ho : p.owns = false := by
      by_contra ho
      refine hut (hg.unique ?_ ?_)
      · rw [hp]
        exact (Bool.not_eq_false _).mp ho
      · rw [hu]
        rfl
    have hn : c.mem.waiters ≠ 0 := hn
    exact (access_outside hacc ho).symm ▸ hn

theorem notifying_self (hn : Notifying m.waiters p) (hacc : access t b m p = some (m', p')) :
    Notifying m'.waiters p' ∨ observed p p' = [.notified] := by
  cases p <;> try exact hn.elim
  all_goals
    simp only [access, Option.some.injEq, Prod.mk.injEq] at hacc
    obtain ⟨rfl, rfl⟩ := hacc
  case signalRead | signalReset => exact .inl hn
  case signalUnlock w =>
    have hn : w ≠ 0 := hn
    rw [if_pos hn]
    exact .inl trivial
  case notifyAll => exact .inr rfl

theorem not_resetting_move (hc : ∀ u, (c.loc u).point.resetting = false)
    (hl : l.point.resetting = false) (u : T) : ((move c t m l).loc u).point.resetting = false :=
  forall_move (P := fun _ (l : Local) => l.point.resetting = false) hl (fun u _ => hc u) u

/-- The waiter has been counted and no increment has followed. -/
theorem awaited_step {n : ℕ} {cmp : Word} {op : Op} (hl : c.loc t = .call op p)
    (hacc : access t b c.mem p = some (m, p')) (hwrap : p ≠ .waitStore 0xFFFFFFFF)
    (hn : cmp.toNat = n) (hw : c.mem.waiters ≠ 0) (hr : ∀ u, (c.loc u).point.resetting = false) :
    Covered (n + increments (emit t (observed p p'))) cmp (move c t m (resume op p')) := by
  have hpoint := point_of_call hl
  have hkept : m.waiters ≠ 0 → increments (emit t (observed p p')) = 0 →
      (resume op p').point.resetting = false →
      Covered (n + increments (emit t (observed p p'))) cmp (move c t m (resume op p')) :=
    fun hw' hinc hres => .inl ⟨hinc ▸ hn, hw', not_resetting_move hr hres⟩
  cases p <;> simp only [access, reduceCtorEq, lock_eq_some, Option.some.injEq, Prod.mk.injEq] at hacc
  case signalRead | signalReset =>
    have hres := hr t
    rw [hpoint] at hres
    cases hres
  case waitStore w =>
    obtain ⟨rfl, rfl⟩ := hacc
    exact hkept (add_one_ne_zero fun h => hwrap (h ▸ rfl)) rfl rfl
  case signalCas k =>
    split at hacc <;> simp only [Option.some.injEq, Prod.mk.injEq] at hacc <;> obtain ⟨rfl, rfl⟩ := hacc
    · refine .inr ⟨t, ?_⟩
      rw [move_loc_self]
      exact hw
    · exact hkept hw rfl rfl
  case waitLock | signalLock | relock =>
    obtain ⟨-, rfl, rfl⟩ := hacc
    exact hkept hw rfl rfl
  case waitLoad | waitRecheck | asleep =>
    split at hacc <;> simp only [reduceCtorEq, Option.some.injEq, Prod.mk.injEq] at hacc <;>
      obtain ⟨rfl, rfl⟩ := hacc <;> exact hkept hw rfl rfl
  case signal =>
    obtain ⟨rfl, rfl⟩ := hacc
    refine hkept hw rfl ?_
    unfold signalImpl
    split <;> rfl
  case signalUnlock w =>
    obtain ⟨rfl, rfl⟩ := hacc
    refine hkept hw rfl ?_
    split <;> rfl
  all_goals
    obtain ⟨rfl, rfl⟩ := hacc
    exact hkept hw rfl rfl

theorem covered_step {n : ℕ} {cmp : Word} (hg : Guarded c)
    (hs : step t a c.mem (c.loc t) = some (m, l, es)) (hwrap : NoWrap c t a)
    (hnot : es ≠ [.notified]) (hc : Covered n cmp c) :
    Covered (n + increments (emit t es)) cmp (move c t m l) := by
  rcases step_cases hs with ⟨op, hl, rfl, rfl, rfl⟩ | ⟨op, p, p', b, hl, hacc, rfl, rfl⟩
  · rcases hc with ⟨hn, hw, hr⟩ | ⟨u, hu⟩
    · refine .inl ⟨hn, hw, not_resetting_move hr ?_⟩
      cases op <;> rfl
    · have hut : u ≠ t := by
        rintro rfl
        rw [hl] at hu
        exact hu.elim
      exact .inr ⟨u, by rwa [move_loc_of_ne _ _ _ hut]⟩
  · have hpoint := point_of_call hl
    rcases hc with ⟨hn, hw, hr⟩ | ⟨u, hu⟩
    · exact awaited_step hl hacc (hpoint ▸ hwrap) hn hw hr
    · refine .inr ⟨u, ?_⟩
      by_cases hut : u = t
      · subst hut
        rw [hpoint] at hu
        rw [move_loc_self]
        have hn := (notifying_self hu hacc).resolve_right hnot
        exact (notifying_resume _ op p').mpr hn
      · rw [move_loc_of_ne _ _ _ hut]
        exact notifying_other hg hpoint hacc hut hu

/-- While `u` is inside the mutex no other thread changes the count or `waiters`. -/
theorem others_quiet (hg : Guarded c) (hs : step t a c.mem (c.loc t) = some (m, l, es)) {u : T}
    (hut : u ≠ t) (hu : (c.loc u).point.owns) :
    m.waiters = c.mem.waiters ∧ increments (emit t es) = 0 := by
  rcases step_cases hs with ⟨op, -, rfl, -, rfl⟩ | ⟨op, p, p', b, hl, hacc, -, rfl⟩
  · exact ⟨rfl, rfl⟩
  · have hpoint := point_of_call hl
    have ho : p.owns = false := by
      by_contra ho
      exact hut (hg.unique (hpoint ▸ (Bool.not_eq_false _).mp ho) hu)
    refine ⟨access_outside hacc ho, ?_⟩
    rcases access_count hacc with ⟨-, -, hes⟩ | ⟨-, -, -, hes⟩ | ⟨cmp, rfl, -⟩ | ⟨-, hes | hes, -⟩
    pick_goal 3
    · cases ho
    all_goals
      rw [hes]
      rfl

theorem access_asleep (hacc : access t b m p = some (m', p')) {u : T} (hut : u ≠ t)
    (hu : m'.asleep u = true) : m.asleep u = true ∧ observed p p' ≠ [.notified] := by
  cases p <;> simp only [access, reduceCtorEq, lock_eq_some, Option.some.injEq, Prod.mk.injEq] at hacc
  case waitLock | signalLock | relock =>
    obtain ⟨-, rfl, rfl⟩ := hacc
    exact ⟨hu, by simp [observed]⟩
  case waitLoad | waitRecheck | signalCas =>
    split at hacc <;> simp only [Option.some.injEq, Prod.mk.injEq] at hacc <;>
      obtain ⟨rfl, rfl⟩ := hacc <;> exact ⟨hu, by simp [observed]⟩
  case asleep =>
    split at hacc <;> simp only [reduceCtorEq, Option.some.injEq, Prod.mk.injEq] at hacc
    obtain ⟨rfl, rfl⟩ := hacc
    exact ⟨(Function.update_of_ne hut ..).symm.trans hu, by simp [observed]⟩
  case waitCv =>
    obtain ⟨rfl, rfl⟩ := hacc
    exact ⟨(Function.update_of_ne hut ..).symm.trans hu, by simp [observed]⟩
  case notifyAll =>
    obtain ⟨rfl, rfl⟩ := hacc
    exact absurd hu Bool.false_ne_true
  all_goals
    obtain ⟨rfl, rfl⟩ := hacc
    exact ⟨hu, by simp [observed]⟩

/-- Who still sleeps after a step of another thread has not been notified by it. -/
theorem others_asleep (hs : step t a c.mem (c.loc t) = some (m, l, es)) {u : T} (hut : u ≠ t)
    (hu : m.asleep u = true) : c.mem.asleep u = true ∧ es ≠ [.notified] := by
  rcases step_cases hs with ⟨op, -, rfl, -, rfl⟩ | ⟨op, p, p', b, -, hacc, -, rfl⟩
  · exact ⟨hu, nofun⟩
  · exact access_asleep hacc hut hu

theorem waits_other {n : ℕ} {cmp : Word} (hg : Guarded c)
    (hs : step t a c.mem (c.loc t) = some (m, l, es)) (hwrap : NoWrap c t a) {u : T} (hut : u ≠ t)
    (hl : c.loc u = .call (.wait cmp) p) (hw : Waits n cmp c u p) :
    Waits (n + increments (emit t es)) cmp (move c t m l) u p := by
  have hquiet : p.owns → m.waiters = c.mem.waiters ∧ increments (emit t es) = 0 := by
    intro ho
    refine others_quiet hg hs hut ?_
    rw [hl]
    exact ho
  cases p <;> try exact hw
  case waitRead | waitStore => exact (hquiet rfl).2 ▸ hw
  case waitCv =>
    obtain ⟨heq, hinc⟩ := hquiet rfl
    exact ⟨hinc ▸ hw.1, by rw [move_mem, heq]; exact hw.2⟩
  case asleep =>
    intro hm
    obtain ⟨hasleep, hnot⟩ := others_asleep hs hut hm
    exact covered_step hg hs hwrap hnot (hw hasleep)

theorem waits_self {n : ℕ} {cmp : Word} (hg : Guarded c) (hepoch : c.mem.count.toNat % 2 ^ 31 = n)
    (hl : c.loc t = .call (.wait cmp) p) (hacc : access t b c.mem p = some (m, p'))
    (hwrap : p ≠ .waitStore 0xFFFFFFFF) {q : Pc} (hq : resume (.wait cmp) p' = .call (.wait cmp) q)
    (hw : Waits n cmp c t p) :
    Waits (n + increments (emit t (observed p p'))) cmp (move c t m (.call (.wait cmp) q)) t q := by
  have hdone : ∀ {r}, p' ≠ .done r := by
    rintro r rfl
    cases hq
  obtain rfl : p' = q := by
    cases p' <;> first | exact absurd rfl hdone | exact (Local.call.inj hq).2
  cases p <;> simp only [access, reduceCtorEq, lock_eq_some, Option.some.injEq,
    Prod.mk.injEq] at hacc <;> try exact hw.elim
  case waitLoad k =>
    split at hacc <;> simp only [Option.some.injEq, Prod.mk.injEq] at hacc <;> obtain ⟨rfl, rfl⟩ := hacc
    · exact hw
    · exact absurd rfl hdone
  case waitLock k =>
    obtain ⟨-, rfl, rfl⟩ := hacc
    exact hw
  case waitRecheck k =>
    split at hacc <;> simp only [Option.some.injEq, Prod.mk.injEq] at hacc <;> obtain ⟨rfl, rfl⟩ := hacc
    · next heq =>
      obtain rfl : k = cmp := hw
      change k.toNat = n
      rw [heq, toNat_and_mask, hepoch]
    · trivial
  case waitRead =>
    obtain ⟨rfl, rfl⟩ := hacc
    exact hw
  case waitStore w =>
    obtain ⟨rfl, rfl⟩ := hacc
    exact ⟨hw, add_one_ne_zero fun h => hwrap (h ▸ rfl)⟩
  case waitCv =>
    obtain ⟨rfl, rfl⟩ := hacc
    refine fun _ => .inl ⟨hw.1, hw.2,
      forall_move (P := fun _ (l : Local) => l.point.resetting = false) rfl fun u hut => ?_⟩
    -- whoever is to reset `waiters` owns the mutex, and this thread does
    by_contra hres
    refine hut (hg.unique (by rw [hl]; rfl) ?_)
    cases hu : (c.loc u).point <;> rw [hu] at hres <;> first | rfl | exact absurd rfl hres
  case asleep =>
    split at hacc <;> simp only [reduceCtorEq, Option.some.injEq, Prod.mk.injEq] at hacc
    obtain ⟨rfl, rfl⟩ := hacc
    trivial
  case relock =>
    obtain ⟨-, rfl, rfl⟩ := hacc
    trivial
  case waitUnlock =>
    obtain ⟨rfl, rfl⟩ := hacc
    exact absurd rfl hdone

theorem inv_step (hi : Inv h c) (hs : step t a c.mem (c.loc t) = some (m, l, es)) (hwrap : NoWrap c t a)
    (hlt : increments (h ++ emit t es) < 2 ^ 31) : Inv (h ++ emit t es) (move c t m l) := by
  obtain ⟨hg, hc, hw⟩ := hi
  refine ⟨guarded_step hg hs, counted_step hc hs hlt, fun u cmp q hq => ?_⟩
  rw [increments, occurrences_append]
  by_cases hut : u = t
  · subst hut
    rw [move_loc_self] at hq
    subst hq
    rcases step_cases hs with ⟨op, -, rfl, heq, rfl⟩ | ⟨op, p, p', b, hl, hacc, heq, rfl⟩
    · obtain ⟨rfl, rfl⟩ := Local.call.inj heq
      exact rfl
    · obtain rfl : op = .wait cmp := by
        cases p' <;> first | exact (Local.call.inj heq).1.symm | cases heq
      exact waits_self hg hc.epoch hl hacc (by rw [NoWrap, hl] at hwrap; exact hwrap) heq.symm
        (hw u cmp p hl)
  · rw [move_loc_of_ne _ _ _ hut] at hq
    exact waits_other hg hs hwrap hut hq (hw u cmp q hq)

theorem inv_of_run (hr : (program T).Run NoWrap (start T) h c) (hlt : increments h < 2 ^ 31) :
    Inv h c := by
  induction hr with
  | start => exact ⟨fun _ => nofun, ⟨rfl, nofun, nofun⟩, fun _ _ _ => nofun⟩
  | @step h c t a m l es _ hs hwrap ih =>
    have hle : increments h ≤ increments (h ++ emit t es) := by
      rw [increments, increments, occurrences_append]
      exact Nat.le_add_right _ _
    exact inv_step (ih (Nat.lt_of_le_of_lt hle hlt)) hs hwrap hlt

/-! ## The signal to come -/

/-- Still to increment the count, or to notify. -/
def Coming (c : Config T (Mem T) Local) (u : T) : Prop :=
  (c.loc u).point.counting ∨ Notifying c.mem.waiters (c.loc u).point

omit [DecidableEq T] in
theorem Coming.signalling {u : T} (hc : Coming c u) : (c.loc u).point.signalling := by
  rcases hc with hc | hc
  · cases hp : (c.loc u).point <;> rw [hp] at hc <;> first | rfl | cases hc
  · cases hp : (c.loc u).point <;> rw [hp] at hc <;> first | rfl | exact hc.elim

theorem coming_step (hg : Guarded c) (hs : step t a c.mem (c.loc t) = some (m, l, es)) {u : T}
    (hc : Coming c u) (hcount : (u, .counted) ∉ emit t es) (hnot : (u, .notified) ∉ emit t es) :
    Coming (move c t m l) u := by
  rcases step_cases hs with ⟨op, hl, rfl, rfl, rfl⟩ | ⟨op, p, p', b, hl, hacc, rfl, rfl⟩
  · have hut : u ≠ t := by
      rintro rfl
      have := hc.signalling
      rw [hl] at this
      cases this
    rwa [Coming, move_loc_of_ne _ _ _ hut]
  · have hpoint := point_of_call hl
    by_cases hut : u = t
    · subst hut
      rw [Coming, hpoint] at hc
      rw [Coming, move_loc_self]
      rcases hc with hc | hc
      · rcases access_count hacc with ⟨rfl, -⟩ | ⟨rfl, -⟩ | ⟨cmp, -, -, -, -, hes⟩ | ⟨-, -, himp⟩
        · cases hc
        · cases hc
        · rw [hes] at hcount
          exact absurd List.mem_cons_self hcount
        · exact .inl ((counting_resume op p').mpr (himp hc))
      · have hn := (notifying_self hc hacc).resolve_right fun hes => by
          rw [hes] at hnot
          exact hnot List.mem_cons_self
        exact .inr ((notifying_resume _ op p').mpr hn)
    · rw [Coming, move_loc_of_ne _ _ _ hut]
      exact hc.imp_right (notifying_other hg hpoint hacc hut)

theorem coming_of_run (hg : Guarded c) {u : T} (hc : Coming c u) : SignalToCome c u := by
  refine ⟨hc.signalling, fun tr c' hr hcount hnot => ?_⟩
  suffices Guarded c' ∧ Coming c' u from this.2.signalling
  induction hr with
  | start => exact ⟨hg, hc⟩
  | step _ hs _ ih =>
    rw [List.mem_append, not_or] at hcount hnot
    obtain ⟨hg', hc'⟩ := ih hcount.1 hnot.1
    exact ⟨guarded_step hg' hs, coming_step hg' hs hc' hcount.2 hnot.2⟩

omit [DecidableEq T] in
/-- A sleeper past whose count there has been a signal waits for a signaller. -/
theorem coming_of_passed (hi : Inv h c) (hp : Passed h c t) : ∃ u, Coming c u := by
  obtain ⟨cmp, i, j, u, ⟨hl, hasleep⟩, hget, hij, hj⟩ := hp
  rcases hi.waits t cmp .asleep hl hasleep with ⟨hn, -⟩ | ⟨v, hv⟩
  · have hgot := (hi.counted.got hget.1).1
    exact ⟨u, .inl (hi.counted.signalled hget.1 hij hj (hgot.symm.trans hn))⟩
  · exact ⟨v, .inr hv⟩

end Invariant

/-- **No thread sleeps past a signal** in a run where `waiters` never wraps: some thread in
`signal_impl` is still to increment the count or to notify. -/
theorem no_sleep_past_signal {T : Type*} [DecidableEq T] {h : List (T × Event)}
    {c : Config T (Mem T) Local} (hr : (program T).Run NoWrap (start T) h c)
    (hlt : increments h < 2 ^ 31) : (∀ t, Passed h c t → ∃ u, SignalToCome c u) ∧
      ((∀ u, (c.loc u).point.signalling = false) → ∀ t, ¬Passed h c t) := by
  have hi := inv_of_run hr hlt
  refine ⟨fun t hp => ?_, fun hno t hp => ?_⟩
  · obtain ⟨u, hu⟩ := coming_of_passed hi hp
    exact ⟨u, coming_of_run hi.guarded hu⟩
  · obtain ⟨u, hu⟩ := coming_of_passed hi hp
    exact absurd (hu.signalling.symm.trans (hno u)) (by decide)

/-- Thread `true` asleep on the count 0 it got, with `x` waiters counted. -/
def sleeping (x : Word) : Config Bool (Mem Bool) Local where
  mem := ⟨flag, x, none, Function.update (fun _ => false) true true⟩
  loc := Function.update (fun _ => .idle) true (.call (.wait 0) .asleep)

theorem run_sleeping : (program Bool).Run NoWrap (start Bool) [(true, .got 0)] (sleeping 1) := by
  have h₀ : (program Bool).Run NoWrap (start Bool) [] (start Bool) := .start
  exact h₀.soloAt (fun _ l _ => l.point ≠ .waitStore 0xFFFFFFFF)
    (fun _ _ _ h => by simpa [NoWrap] using h) true
    [.call .get, .run, .call (.wait 0), .run, .run, .run, .run, .run, .run]
    (sleeping 1).mem (.call (.wait 0) .asleep) [.got 0] rfl

/-- The other thread has signalled since, whatever else it did. -/
theorem passed_of_signalled {G : Config Bool (Mem Bool) Local → Bool → Act → Prop} {es : List Event}
    {c : Config Bool (Mem Bool) Local}
    (_ : (program Bool).Run G (start Bool) ([(true, .got 0)] ++ emit false (.signalled :: es)) c)
    (hs : SleepsOn c true 0) : Passed ([(true, .got 0)] ++ emit false (.signalled :: es)) c true := by
  refine ⟨0, 0, 1, false, hs, ⟨rfl, fun j cmp hj hget => ?_⟩, Nat.zero_lt_one, rfl⟩
  rw [List.getElem?_append_right hj] at hget
  obtain ⟨e, -, heq⟩ := List.mem_map.mp (List.mem_of_getElem? hget)
  cases heq

/-- The theorem where a signal has just read the flag of a sleeper. -/
theorem no_sleep_past_signal_flagged : ∃ h c, Passed h c true ∧ ∃ u : Bool, SignalToCome c u := by
  have h₁ := run_sleeping.soloAt (fun _ l _ => l.point ≠ .waitStore 0xFFFFFFFF)
    (fun _ _ _ h => by simpa [NoWrap] using h) false [.call .signal, .run] (sleeping 1).mem
    (.call .signal (.signalLock flag)) [.signalled] rfl
  have hp := passed_of_signalled h₁ ⟨rfl, rfl⟩
  exact ⟨_, _, hp, (no_sleep_past_signal h₁ (by decide)).1 true hp⟩

/-! ## Past the wrap -/

/-- The sleeper wakes spuriously, returns, and waits again. -/
theorem run_spurious {tr : List (Bool × Event)} {x : Word}
    (h : (program Bool).Run anyStep (start Bool) tr (sleeping x)) :
    (program Bool).Run anyStep (start Bool) tr (sleeping (x + 1)) := by
  have hmask : 0 = flag &&& mask := by decide
  have h₁ := h.solo true [.spurious, .run, .run, .call (.wait 0)] _ _ _ rfl
  have h₂ := h₁.solo true [.run] _ _ _ (solo_step (step_call (access_waitLoad hmask)))
  have h₃ := h₂.solo true [.run] _ _ _ rfl
  have h₄ := h₃.solo true [.run] _ _ _ (solo_step (step_call (access_waitRecheck hmask)))
  have h₅ := h₄.solo true [.run, .run, .run] _ _ _ rfl
  simpa [sleeping, move, observed, resume, Op.entry] using h₅

/-- After `2^32 - 1` spurious wakeups a signal finds no waiter, and lets the thread sleep. -/
theorem sleep_past_wrap : ∃ h c, (program Bool).Run anyStep (start Bool) h c ∧ increments h < 2 ^ 31 ∧
    Passed h c true ∧ ∀ u, (c.loc u).point.signalling = false := by
  have h := reaches_zero (P := fun x => (program Bool).Run anyStep (start Bool) [(true, .got 0)]
    (sleeping x)) (run_sleeping.mono fun _ _ _ _ => trivial) fun _ => run_spurious
  have h₁ := h.solo false [.call .signal, .run, .run, .run, .run, .run, .run]
    { (sleeping 0).mem with count := 1 } .idle [.signalled, .counted] rfl
  refine ⟨_, _, h₁, by decide, passed_of_signalled h₁ ⟨rfl, rfl⟩, fun u => ?_⟩
  cases u <;> rfl

end Cds.Eventcount
