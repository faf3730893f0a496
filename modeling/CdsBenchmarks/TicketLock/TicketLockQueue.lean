import CdsBenchmarks.TicketLock.TicketLockDefs
import CdsBenchmarks.Concurrent.Counting
import Mathlib.Data.Fintype.List

/-! Mutual exclusion and first-come first-served admission of the ticket lock, through any
number of wraps of the counters. The queue of the threads between their fetch_add and
their store is auxiliary state: the thread at place `i` holds the ticket `i` past the turn. -/

namespace Cds.TicketLock
open Concurrent Program

variable {T : Type*}

namespace Queue

/-- `q` holds the threads whose ticket is outstanding, `served` counts the stores, and
`inside` says whether the first thread of `q` has been admitted. -/
structure World (T : Type*) where
  mem : Mem
  hist : List (T × Event)
  q : List T
  served : ℕ
  inside : Bool

structure Glob (w : World T) : Prop where
  nodup : w.q.Nodup
  turn : w.mem.turn = BitVec.ofNat 32 w.served
  ticket : w.mem.ticket = BitVec.ofNat 32 (w.served + w.q.length)
  stores : w.served = occurrences .unlocked w.hist
  order : emitters .drawn w.hist = emitters .entered w.hist ++ if w.inside then w.q.tail else w.q
  inside : w.inside = true → w.q ≠ []

/-- The thread is first in the queue and has been admitted. -/
def Holds (t : T) (w : World T) : Prop := w.q.head? = some t ∧ w.inside = true

def Local (t : T) (w : World T) : Pc → Prop
  | .out | .fetchAdd => t ∉ w.q
  | .spin k => ∃ i, w.q[i]? = some t ∧ k = BitVec.ofNat 32 (w.served + i) ∧ (i = 0 → w.inside = false)
  | .crit | .unlockLoad => Holds t w
  | .unlockStore v => Holds t w ∧ v = w.mem.turn

/-- What a step of `t` does to the memory and the queue. -/
inductive Guar (t : T) (w w' : World T) : Prop
  | quiet (hm : w'.mem = w.mem) (hq : w'.q = w.q) (hs : w'.served = w.served)
      (hi : w'.inside = w.inside)
  | draw (hm : w'.mem.turn = w.mem.turn) (hq : w'.q = w.q ++ [t]) (hs : w'.served = w.served)
      (hi : w'.inside = w.inside)
  | enter (ht : w.q.head? = some t) (hm : w'.mem = w.mem) (hq : w'.q = w.q) (hs : w'.served = w.served)
  | serve {q} (ht : w.q = t :: q) (hq : w'.q = q) (hs : w'.served = w.served + 1)
      (hi : w'.inside = false)

theorem Local.stable {t u : T} {w w' : World T} {l : Pc} (hu : u ≠ t) (hl : Local u w l)
    (hguar : Guar t w w') : Local u w' l := by
  cases hguar with
  | quiet hm hq hs hi => cases l <;> simpa only [Local, Holds, hm, hq, hs, hi] using hl
  | draw hm hq hs hi =>
    have hhead : w.q.head? = some u → w'.q.head? = some u := fun h => by simp [hq, h]
    cases l with
    | out | fetchAdd =>
      have h : u ∉ w.q := hl
      simp [Local, hq, h, hu]
    | spin k =>
      obtain ⟨i, hi', hk, h₀⟩ := hl
      refine ⟨i, ?_, by rw [hs, hk], fun h => hi.trans (h₀ h)⟩
      rw [hq]
      exact (getElem?_snoc ..).mpr (.inl hi')
    | crit | unlockLoad => exact ⟨hhead hl.1, hi.trans hl.2⟩
    | unlockStore v => exact ⟨⟨hhead hl.1.1, hi.trans hl.1.2⟩, hl.2.trans hm.symm⟩
  | enter ht hm hq hs =>
    have hhead : w.q.head? ≠ some u := fun h => hu (Option.some.inj (h.symm.trans ht))
    cases l with
    | out | fetchAdd => simpa only [Local, hq] using hl
    | spin k =>
      obtain ⟨i, hi, hk, -⟩ := hl
      refine ⟨i, by rw [hq, hi], by rw [hs, hk], ?_⟩
      rintro rfl
      exact absurd (List.head?_eq_getElem? .. ▸ hi) hhead
    | crit | unlockLoad => exact absurd hl.1 hhead
    | unlockStore v => exact absurd hl.1.1 hhead
  | serve ht hq hs hi =>
    have hhead : w.q.head? ≠ some u := by simp [ht, Ne.symm hu]
    cases l with
    | out | fetchAdd =>
      have h : u ∉ w.q := hl
      rw [ht, List.mem_cons, not_or] at h
      simpa only [Local, hq] using h.2
    | spin k =>
      obtain ⟨i, hi', hk, -⟩ := hl
      cases i with
      | zero => exact absurd (List.head?_eq_getElem? .. ▸ hi') hhead
      | succ i =>
        refine ⟨i, by simpa [ht, hq] using hi', ?_, fun _ => hi⟩
        rw [hk, hs, Nat.add_right_comm, Nat.add_assoc]
    | crit | unlockLoad => exact absurd hl.1 hhead
    | unlockStore v => exact absurd hl.1.1 hhead

/-! ## The steps -/

def assertions (T : Type*) : Assertions T Mem Pc Event (World T) where
  mem := World.mem
  hist := World.hist
  glob := Glob
  loc := Local
  guar := Guar

variable {t : T} {w : World T}

/-- A step that only moves the program point and notes a call. -/
theorem follows_mark (hg : Glob w) {e : Event} (he : e ≠ .drawn ∧ e ≠ .entered ∧ e ≠ .unlocked)
    {l : Pc} (hl : Local t { w with hist := w.hist ++ [(t, e)] } l) :
    (assertions T).Follows t w w.mem l [e] := by
  refine ⟨{ w with hist := w.hist ++ [(t, e)] }, rfl, rfl,
    ⟨hg.nodup, hg.turn, hg.ticket, ?_, ?_, hg.inside⟩,
    hl, .quiet rfl rfl rfl rfl⟩
  · rw [occurrences_snoc, if_neg he.2.2]
    exact hg.stores
  · rw [emitters_snoc, emitters_snoc, if_neg he.1, if_neg he.2.1, List.append_nil, List.append_nil]
    exact hg.order

theorem follows_fetchAdd (hg : Glob w) (hl : t ∉ w.q) : (assertions T).Follows t w
    { w.mem with ticket := w.mem.ticket + 1 } (.spin w.mem.ticket) [.drawn] := by
  refine ⟨⟨{ w.mem with ticket := w.mem.ticket + 1 }, w.hist ++ [(t, .drawn)], w.q ++ [t], w.served,
    w.inside⟩, rfl, rfl, ⟨?_, hg.turn, ?_, ?_, ?_, by simp⟩, ⟨w.q.length, by simp, hg.ticket, ?_⟩,
    .draw rfl rfl rfl rfl⟩
  · exact List.nodup_append.mpr ⟨hg.nodup, by simp, fun u hu v hv heq =>
      hl (List.mem_singleton.mp hv ▸ heq ▸ hu)⟩
  · rw [hg.ticket, List.length_append, List.length_singleton, ← Nat.add_assoc, BitVec.ofNat_add _ 1]
    rfl
  · rw [occurrences_snoc]
    exact hg.stores
  · have hin := hg.inside
    rw [emitters_snoc, emitters_snoc, hg.order]
    cases hw : w.inside
    · simp
    · simp [List.tail_append_of_ne_nil (hin hw)]
  · intro hlen
    cases hw : w.inside
    · rfl
    · exact absurd (List.length_eq_zero_iff.mp hlen) (hg.inside hw)

/-- A waiting thread that reads its own ticket is first in the queue: no two outstanding
tickets are equal. -/
theorem follows_enter [Fintype T] (hT : Fintype.card T < 2 ^ 32) (hg : Glob w) {k : BitVec 32}
    (hl : Local t w (.spin k)) (hk : w.mem.turn = k) :
    (assertions T).Follows t w w.mem .crit [.entered] := by
  obtain ⟨i, hi, rfl, h₀⟩ := hl
  have hlt : i < 2 ^ 32 :=
    Nat.lt_trans (Nat.lt_of_lt_of_le (lt_of_getElem? hi) hg.nodup.length_le_card) hT
  obtain rfl : i = 0 := by
    have := congrArg BitVec.toNat (hg.turn.symm.trans hk)
    simp only [BitVec.toNat_ofNat] at this
    omega
  have hhead : w.q.head? = some t := (List.head?_eq_getElem? ..).trans hi
  refine ⟨{ w with hist := w.hist ++ [(t, .entered)], inside := true }, rfl, rfl,
    ⟨hg.nodup, hg.turn, hg.ticket, ?_, ?_, fun _ hq => by simp [show w.q = [] from hq] at hhead⟩,
    ⟨hhead, rfl⟩,
    .enter hhead rfl rfl rfl⟩
  · rw [occurrences_snoc]
    exact hg.stores
  · rw [emitters_snoc, emitters_snoc, hg.order, h₀ rfl]
    simp [List.cons_head?_tail hhead]

theorem follows_unlockStore (hg : Glob w) {v : BitVec 32} (hl : Local t w (.unlockStore v)) :
    (assertions T).Follows t w { w.mem with turn := v + 1 } .out [.unlocked] := by
  obtain ⟨⟨hhead, hin⟩, rfl⟩ := hl
  obtain ⟨q, hq⟩ := List.head?_eq_some_iff.mp hhead
  have hnodup := List.nodup_cons.mp (hq ▸ hg.nodup)
  refine ⟨⟨{ w.mem with turn := w.mem.turn + 1 }, w.hist ++ [(t, .unlocked)], q, w.served + 1, false⟩,
    rfl, rfl, ⟨hnodup.2, ?_, ?_, ?_, ?_, by simp⟩, hnodup.1, .serve hq rfl rfl rfl⟩
  · rw [hg.turn, BitVec.ofNat_add _ 1]
    rfl
  · rw [hg.ticket, hq, List.length_cons, Nat.add_right_comm, Nat.add_assoc]
  · rw [occurrences_snoc, if_pos rfl, hg.stores]
  · have := hg.order
    simp only [emitters_snoc, hq, hin] at this ⊢
    simpa using this

theorem follows_step [Fintype T] (hT : Fintype.card T < 2 ^ 32) (hg : Glob w) {l₀ l : Pc}
    (hl : Local t w l₀) {a : Act} {m : Mem} {es : List Event} (hs : step a w.mem l₀ = some (m, l, es)) :
    (assertions T).Follows t w m l es := by
  cases a with
  | lock =>
    obtain ⟨rfl, rfl, rfl, rfl⟩ : l₀ = .out ∧ w.mem = m ∧ Pc.fetchAdd = l ∧ [Event.lock] = es := by
      simpa [step] using hs
    exact follows_mark hg (by decide) hl
  | unlock =>
    obtain ⟨rfl, rfl, rfl, rfl⟩ : l₀ = .crit ∧ w.mem = m ∧ Pc.unlockLoad = l ∧ [Event.unlock] = es := by
      simpa [step] using hs
    exact follows_mark hg (by decide) hl
  | run =>
    cases l₀ <;> simp only [step, access, reduceCtorEq] at hs
    case fetchAdd =>
      cases hs
      exact follows_fetchAdd hg hl
    case spin k =>
      split at hs <;> cases hs
      · next hk => exact follows_enter hT hg hl hk
      · exact Assertions.follows_quiet hg hl (.quiet rfl rfl rfl rfl)
    case unlockLoad =>
      cases hs
      exact Assertions.follows_quiet hg ⟨hl, rfl⟩ (.quiet rfl rfl rfl rfl)
    case unlockStore v =>
      cases hs
      exact follows_unlockStore hg hl

def outline [Fintype T] [DecidableEq T] (hT : Fintype.card T < 2 ^ 32) :
    Outline (program T) anyStep (fun _ => True) (World T) where
  toAssertions := assertions T
  step hg hl hs _ _ := follows_step hT hg (hl _) hs
  stable hu _ _ hl hguar := hl.stable hu hguar

theorem holds_start [Fintype T] [DecidableEq T] (hT : Fintype.card T < 2 ^ 32) :
    (outline hT).Holds ⟨(start T).mem, [], [], 0, false⟩ [] (start T) where
  mem := rfl
  hist := rfl
  glob := ⟨.nil, rfl, rfl, rfl, rfl, by simp⟩
  loc _ := List.not_mem_nil

theorem Local.holds {l : Pc} (hl : Local t w l) (hin : l.inside) : Holds t w := by
  cases l with
  | crit | unlockLoad => exact hl
  | unlockStore v => exact hl.1
  | _ => cases hin

theorem Local.mem_iff {l : Pc} (hl : Local t w l) : t ∈ w.q ↔ l.outstanding := by
  cases l with
  | out | fetchAdd => exact iff_of_false hl Bool.false_ne_true
  | spin k =>
    obtain ⟨i, hi, -⟩ := hl
    simpa [Pc.outstanding] using List.mem_of_getElem? hi
  | crit | unlockLoad => simpa [Pc.outstanding] using List.mem_of_mem_head? hl.1
  | unlockStore v => simpa [Pc.outstanding] using List.mem_of_mem_head? hl.1.1

end Queue

/-- **Mutual exclusion and first-come first-served.** At most one thread is between the
return of `lock` and the store in `unlock`; the threads admitted are, in order, the first
of those that drew a ticket; `turn` counts every store and is what the thread about to
store has read; and `ticket - turn` is the number of outstanding tickets. -/
theorem exclusion_firstCome [Fintype T] [DecidableEq T] (hT : Fintype.card T < 2 ^ 32)
    {tr : List (T × Event)} {c : Config T Mem Pc} (h : (program T).Run anyStep (start T) tr c) :
    (∀ t u, (c.loc t).inside → (c.loc u).inside → t = u) ∧
      emitters .entered tr <+: emitters .drawn tr ∧
      c.mem.turn = BitVec.ofNat 32 (occurrences .unlocked tr) ∧
      (∀ t v, c.loc t = .unlockStore v → v = c.mem.turn) ∧
      (c.mem.ticket - c.mem.turn).toNat = count Pc.outstanding c := by
  obtain ⟨w, hw⟩ := (Queue.outline hT).sound (fun _ => trivial) (Queue.holds_start hT) h trivial
  have hg : Queue.Glob w := hw.glob
  have hloc : ∀ t, Queue.Local t w (c.loc t) := hw.loc
  have hmem : w.mem = c.mem := hw.mem
  have hhist : w.hist = tr := hw.hist
  refine ⟨?_, ?_, ?_, ?_, ?_⟩
  · intro t u ht hu
    have h₁ := ((hloc t).holds ht).1
    have h₂ := ((hloc u).holds hu).1
    exact Option.some.inj (h₁.symm.trans h₂)
  · rw [← hhist, hg.order]
    exact List.prefix_append ..
  · rw [← hmem, ← hhist, hg.turn, hg.stores]
  · intro t v ht
    have hl := hloc t
    rw [ht] at hl
    exact hl.2.trans (congrArg Mem.turn hmem)
  -- no more tickets are outstanding than there are threads, so the difference does not wrap
  · have hcard : w.q.length = count Pc.outstanding c := by
      rw [← List.toFinset_card_of_nodup hg.nodup, count]
      congr 1
      ext t
      simp [(hloc t).mem_iff]
    have hle := hg.nodup.length_le_card
    rw [← hmem, hg.ticket, hg.turn, ← hcard, BitVec.ofNat_add, BitVec.add_comm,
      BitVec.add_sub_cancel, BitVec.toNat_ofNat, Nat.mod_eq_of_lt (by omega)]

/-- The theorem where one thread is admitted and one waits behind it. -/
theorem exclusion_firstCome_one_waits : ∃ (tr : List (Bool × Event)) (c : Config Bool Mem Pc),
    emitters .drawn tr = [true, false] ∧ c.loc true = .crit ∧ c.loc false = .spin 1 ∧
      (∀ t u, (c.loc t).inside → (c.loc u).inside → t = u) ∧
      emitters .entered tr <+: emitters .drawn tr ∧
      c.mem.turn = BitVec.ofNat 32 (occurrences .unlocked tr) ∧
      (∀ t v, c.loc t = .unlockStore v → v = c.mem.turn) ∧
      (c.mem.ticket - c.mem.turn).toNat = count Pc.outstanding c := by
  have h₀ : (program Bool).Run anyStep (start Bool) [] (start Bool) := .start
  have h₁ := h₀.solo true [.lock, .run, .run] _ _ _ rfl
  have h₂ := h₁.solo false [.lock, .run, .run] _ _ _ rfl
  exact ⟨_, _, by decide, rfl, rfl, exclusion_firstCome (by decide) h₂⟩

end Cds.TicketLock
