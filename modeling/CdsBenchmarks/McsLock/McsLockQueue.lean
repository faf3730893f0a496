import CdsBenchmarks.McsLock.McsLockDefs
import CdsBenchmarks.Concurrent.Trace
import Mathlib.Data.List.Infix

/-! Mutual exclusion and first-in first-out hand-off of the MCS lock. The queue of the
threads between their exchange and their release is auxiliary state: only its last
element and parts of its links are in memory. -/

namespace Cds.McsLock
open Concurrent Program

variable {T : Type*}

/-! ## Neighbours in the queue -/

/-- `p` stands directly before `t` in `q`. -/
def Adj (q : List T) (p t : T) : Prop := [p, t] <:+: q

theorem Adj.mem_left {q : List T} {p t : T} (h : Adj q p t) : p ∈ q := h.subset (by simp)

theorem Adj.mem_right {q : List T} {p t : T} (h : Adj q p t) : t ∈ q := h.subset (by simp)

theorem adj_cons {q : List T} {a p t : T} :
    Adj (a :: q) p t ↔ (p = a ∧ q.head? = some t) ∨ Adj q p t := by
  have h : [t] <+: q ↔ q.head? = some t := by
    cases q with
    | nil => simp
    | cons b q => simp [List.cons_prefix_cons, eq_comm (a := t)]
  rw [Adj, List.infix_cons_iff, List.cons_prefix_cons, h, Adj]

theorem adj_snoc {q : List T} {p t u : T} :
    Adj (q ++ [u]) p t ↔ Adj q p t ∨ (q.getLast? = some p ∧ t = u) := by
  induction q with
  | nil => simp [Adj, List.infix_cons_iff]
  | cons a q ih =>
    rw [List.cons_append, adj_cons, adj_cons, ih]
    cases q with
    | nil => simp [Adj, eq_comm (a := p), eq_comm (a := t)]
    | cons b q => simp [or_assoc]

theorem Adj.ne_head {q : List T} {p t : T} (hq : q.Nodup) (h : Adj q p t) : q.head? ≠ some t := by
  cases q with
  | nil => simp
  | cons a q =>
    have ha := (List.nodup_cons.mp hq).1
    rintro heq
    obtain rfl : a = t := by simpa using heq
    rcases adj_cons.mp h with ⟨-, h⟩ | h
    · exact ha (List.mem_of_mem_head? h)
    · exact ha h.mem_right

theorem Adj.succ_unique {q : List T} {p t t' : T} (hq : q.Nodup) (h : Adj q p t)
    (h' : Adj q p t') : t = t' := by
  induction q with
  | nil => simp [Adj] at h
  | cons a q ih =>
    have ⟨ha, hq'⟩ := List.nodup_cons.mp hq
    rcases adj_cons.mp h with ⟨hp, hh⟩ | h₁ <;> rcases adj_cons.mp h' with ⟨hp', hh'⟩ | h₂
    · exact Option.some.inj (hh.symm.trans hh')
    · exact absurd (hp ▸ h₂.mem_left) ha
    · exact absurd (hp' ▸ h₁.mem_left) ha
    · exact ih hq' h₁ h₂

namespace Queue

/-! ## The auxiliary queue -/

/-- `q` holds the threads between their exchange and their release, and `inside` says
whether the first of them has entered the critical section. -/
structure World (T : Type*) where
  mem : Mem T
  hist : List (T × Event)
  q : List T
  inside : Bool

variable [DecidableEq T]

structure Glob (w : World T) : Prop where
  nodup : w.q.Nodup
  tail : w.mem.tail = w.q.getLast?
  next : ∀ p n, p ∈ w.q → w.mem.next p = some n → Adj w.q p n
  order : emitters .exchanged w.hist =
    emitters .entered w.hist ++ if w.inside then w.q.tail else w.q

/-- The thread is first in the queue and has entered. -/
def Holds (t : T) (w : World T) : Prop := w.q.head? = some t ∧ w.inside = true

def Local (t : T) (w : World T) : Pc T → Prop
  | .out | .lockNext => t ∉ w.q
  | .lockGate => t ∉ w.q ∧ w.mem.next t = none
  | .exchange => t ∉ w.q ∧ w.mem.next t = none ∧ w.mem.gate t = 1
  | .link p => Adj w.q p t ∧ w.mem.next p = none ∧ w.mem.gate t = 1
  | .spin => (w.q.head? = some t ∧ w.inside = false ∧ w.mem.gate t = 0) ∨
      ∃ p, Adj w.q p t ∧ w.mem.next p = some t ∧ w.mem.gate t = 1
  | .crit | .unlockNext | .unlockCas => Holds t w
  | .waitNext => Holds t w ∧ ∃ n, Adj w.q t n
  | .release n => Holds t w ∧ w.mem.next t = some n ∧ Adj w.q t n

/-- What a step of `t` does to the memory and the queue. -/
inductive Guar (t : T) (w w' : World T) : Prop
  | quiet (hm : w'.mem = w.mem) (hq : w'.q = w.q) (hi : w'.inside = w.inside)
  | prepare (ht : t ∉ w.q) (hn : ∀ u, u ≠ t → w'.mem.next u = w.mem.next u)
      (hg : ∀ u, u ≠ t → w'.mem.gate u = w.mem.gate u) (hq : w'.q = w.q) (hi : w'.inside = w.inside)
  | enqueue (hn : w'.mem.next = w.mem.next) (hg : w'.mem.gate = w.mem.gate) (hq : w'.q = w.q ++ [t])
      (hi : w.q ≠ [] → w'.inside = w.inside)
  | link {p} (hp : Adj w.q p t) (hn : w'.mem.next = Function.update w.mem.next p (some t))
      (hg : w'.mem.gate = w.mem.gate) (hq : w'.q = w.q) (hi : w'.inside = w.inside)
  | enter (ht : w.q.head? = some t) (hm : w'.mem = w.mem) (hq : w'.q = w.q)
  | leave (ht : w.q = [t]) (hn : w'.mem.next = w.mem.next) (hg : w'.mem.gate = w.mem.gate)
      (hq : w'.q = [])
  | handOff {n q} (ht : w.q = t :: n :: q) (hh : w.mem.next t = some n)
      (hn : w'.mem.next = w.mem.next) (hg : w'.mem.gate = Function.update w.mem.gate n 0)
      (hq : w'.q = n :: q) (hi : w'.inside = false)

theorem Local.stable {t u : T} {w w' : World T} {l : Pc T} (hu : u ≠ t) (hg' : Glob w)
    (hl : Local u w l) (hguar : Guar t w w') : Local u w' l := by
  cases hguar with
  | quiet hm hq hi => cases l <;> simpa only [Local, Holds, hm, hq, hi] using hl
  | prepare ht hn hg hq hi =>
    have hne : ∀ {p n}, Adj w.q p n → p ≠ t := fun h heq => ht (heq ▸ h.mem_left)
    cases l with
    | link p =>
      obtain ⟨hadj, hnext, hgate⟩ := hl
      exact ⟨hq ▸ hadj, (hn p (hne hadj)).trans hnext, (hg u hu).trans hgate⟩
    | spin =>
      rcases hl with ⟨hh, hin, hgate⟩ | ⟨p, hadj, hnext, hgate⟩
      · exact .inl ⟨hq ▸ hh, hi ▸ hin, (hg u hu).trans hgate⟩
      · exact .inr ⟨p, hq ▸ hadj, (hn p (hne hadj)).trans hnext, (hg u hu).trans hgate⟩
    | _ => simpa only [Local, Holds, hn u hu, hg u hu, hq, hi] using hl
  | enqueue hn hg hq hi =>
    have hhead : w.q.head? = some u → w'.q.head? = some u := fun h => by simp [hq, h]
    have hadj : ∀ {p n}, Adj w.q p n → Adj w'.q p n := fun h => hq ▸ adj_snoc.mpr (.inl h)
    have hin : w.q.head? = some u → w'.inside = w.inside := fun h => hi fun hnil => by simp [hnil] at h
    have hmem : u ∉ w.q → u ∉ w'.q := fun h => by simp [hq, h, hu]
    cases l with
    | out | lockNext => exact hmem hl
    | lockGate | exchange => exact ⟨hmem hl.1, by simpa only [hn, hg] using hl.2⟩
    | link p => exact ⟨hadj hl.1, by simpa only [hn, hg] using hl.2⟩
    | spin =>
      rcases hl with ⟨hh, hl, hgate⟩ | ⟨p, hp, hl⟩
      · exact .inl ⟨hhead hh, (hin hh).trans hl, by rw [hg, hgate]⟩
      · exact .inr ⟨p, hadj hp, by simpa only [hn, hg] using hl⟩
    | crit | unlockNext | unlockCas => exact ⟨hhead hl.1, (hin hl.1).trans hl.2⟩
    | waitNext => exact ⟨⟨hhead hl.1.1, (hin hl.1.1).trans hl.1.2⟩, hl.2.imp fun _ => hadj⟩
    | release n =>
      exact ⟨⟨hhead hl.1.1, (hin hl.1.1).trans hl.1.2⟩, by rw [hn, hl.2.1], hadj hl.2.2⟩
  | link hp hn hg hq hi =>
    rename_i p
    -- only `t` follows `p`, so the link written is not one that `u` speaks of
    have hnext : ∀ {p'}, Adj w.q p' u → w'.mem.next p' = w.mem.next p' := by
      intro p' hp'
      rw [hn, Function.update_of_ne]
      rintro rfl
      exact hu (hp'.succ_unique hg'.nodup hp)
    have hout : u ∉ w.q → w'.mem.next u = w.mem.next u := by
      intro h
      rw [hn, Function.update_of_ne]
      rintro rfl
      exact h hp.mem_left
    cases l with
    | lockGate | exchange => exact ⟨hq ▸ hl.1, by simpa only [hout hl.1, hg] using hl.2⟩
    | link p' => exact ⟨hq ▸ hl.1, by simpa only [hnext hl.1, hg] using hl.2⟩
    | spin =>
      rcases hl with hl | ⟨p', hp', hl⟩
      · exact .inl (by simpa only [hq, hi, hg] using hl)
      · exact .inr ⟨p', hq ▸ hp', by simpa only [hnext hp', hg] using hl⟩
    | release n =>
      refine ⟨by simpa only [Holds, hq, hi] using hl.1, ?_, hq ▸ hl.2.2⟩
      by_cases hup : u = p
      · subst hup
        rw [hn, Function.update_self, hp.succ_unique hg'.nodup hl.2.2]
      · rw [hn, Function.update_of_ne hup, hl.2.1]
    | _ => simpa only [Local, Holds, hq, hi] using hl
  | enter ht hm hq =>
    have hhead : w.q.head? ≠ some u := fun h => hu (Option.some.inj (h.symm.trans ht))
    cases l with
    | crit | unlockNext | unlockCas => exact absurd hl.1 hhead
    | waitNext | release n => exact absurd hl.1.1 hhead
    | spin =>
      rcases hl with hl | hl
      · exact absurd hl.1 hhead
      · exact .inr (by simpa only [hm, hq] using hl)
    | _ => simpa only [Local, hm, hq] using hl
  | leave ht hn hg hq =>
    have hadj : ∀ {p n}, ¬Adj w.q p n := by
      intro p n
      rw [ht, adj_cons]
      simp [Adj]
    have hhead : w.q.head? ≠ some u := by simp [ht, Ne.symm hu]
    cases l with
    | crit | unlockNext | unlockCas => exact absurd hl.1 hhead
    | waitNext | release n => exact absurd hl.1.1 hhead
    | spin =>
      rcases hl with hl | ⟨p, hp, -⟩
      · exact absurd hl.1 hhead
      · exact absurd hp hadj
    | link p => exact absurd hl.1 hadj
    | out | lockNext => simp [Local, hq]
    | lockGate | exchange => exact ⟨by simp [hq], by simpa only [hn, hg] using hl.2⟩
  | handOff ht hh hn hg hq hi =>
    rename_i n q
    have hnodup : (n :: q).Nodup := (List.nodup_cons.mp (ht ▸ hg'.nodup)).2
    have hhead : w.q.head? ≠ some u := by simp [ht, Ne.symm hu]
    have hmem : u ∉ w.q → u ∉ w'.q ∧ w'.mem.gate u = w.mem.gate u := by
      intro h
      have h' : u ∉ n :: q := fun hmem => h (by rw [ht]; exact List.mem_cons_of_mem t hmem)
      exact ⟨hq ▸ h', by rw [hg, Function.update_of_ne fun heq => h' (by simp [heq])]⟩
    -- the neighbours of `u` stay, unless `u` is the thread let in
    have hadj : ∀ {p}, Adj w.q p u → (p = t ∧ u = n) ∨
        (Adj w'.q p u ∧ w'.mem.gate u = w.mem.gate u) := by
      intro p hp
      rcases adj_cons.mp (ht ▸ hp) with ⟨hpt, hfirst⟩ | hp
      · exact .inl ⟨hpt, (Option.some.inj hfirst).symm⟩
      · have hne : u ≠ n := fun heq => hp.ne_head hnodup (by simp [heq])
        exact .inr ⟨hq ▸ hp, by rw [hg, Function.update_of_ne hne]⟩
    cases l with
    | crit | unlockNext | unlockCas => exact absurd hl.1 hhead
    | waitNext | release n => exact absurd hl.1.1 hhead
    | out | lockNext => exact (hmem hl).1
    | lockGate | exchange =>
      exact ⟨(hmem hl.1).1, by simpa only [hn, (hmem hl.1).2] using hl.2⟩
    | link p =>
      rcases hadj hl.1 with ⟨rfl, rfl⟩ | ⟨hp, hgate⟩
      · exact absurd (hh.symm.trans hl.2.1) (by simp)
      · exact ⟨hp, by simpa only [hn, hgate] using hl.2⟩
    | spin =>
      rcases hl with hl | ⟨p, hp, hl⟩
      · exact absurd hl.1 hhead
      · rcases hadj hp with ⟨rfl, rfl⟩ | ⟨hp', hgate⟩
        · exact .inl ⟨by simp [hq], hi, by simp [hg]⟩
        · exact .inr ⟨p, hp', by simpa only [hn, hgate] using hl⟩

/-! ## The steps -/

def assertions : Assertions T (Mem T) (Pc T) Event (World T) where
  mem := World.mem
  hist := World.hist
  glob := Glob
  loc := Local
  guar := Guar

variable {t : T} {w : World T}

/-- A step that only moves the program point and notes a call or a return. -/
theorem follows_mark (hg : Glob w) {e : Event} (he : e ≠ .exchanged ∧ e ≠ .entered) {l : Pc T}
    (hl : Local t { w with hist := w.hist ++ [(t, e)] } l) : assertions.Follows t w w.mem l [e] := by
  refine ⟨{ w with hist := w.hist ++ [(t, e)] }, rfl, rfl, ⟨hg.nodup, hg.tail, hg.next, ?_⟩, hl,
    .quiet rfl rfl rfl⟩
  simp only [emitters_snoc, if_neg he.1, if_neg he.2, List.append_nil]
  exact hg.order

theorem follows_prepare (hg : Glob w) (ht : t ∉ w.q) {m : Mem T} {l : Pc T}
    (htail : m.tail = w.mem.tail) (hn : ∀ u, u ≠ t → m.next u = w.mem.next u)
    (hgate : ∀ u, u ≠ t → m.gate u = w.mem.gate u) (hl : Local t { w with mem := m } l) :
    assertions.Follows t w m l [] := by
  refine ⟨{ w with mem := m }, rfl, (List.append_nil _).symm,
    ⟨hg.nodup, htail.trans hg.tail, ?_, hg.order⟩,
    hl, .prepare ht hn hgate rfl rfl⟩
  intro p n hp hnext
  exact hg.next p n hp ((hn p fun heq => ht (heq ▸ hp)) ▸ hnext)

omit [DecidableEq T] in
theorem nodup_snoc (hg : Glob w) (ht : t ∉ w.q) : (w.q ++ [t]).Nodup := by
  refine List.nodup_append.mpr ⟨hg.nodup, by simp, ?_⟩
  rintro u hu v hv rfl
  exact ht (List.mem_singleton.mp hv ▸ hu)

/-- An exchange that finds the lock free enters at once. -/
theorem follows_exchange_free (hg : Glob w) (hl : Local t w .exchange) (hfree : w.mem.tail = none) :
    assertions.Follows t w { w.mem with tail := some t } .crit [.exchanged, .entered] := by
  have hq : w.q = [] := List.getLast?_eq_none_iff.mp (hg.tail ▸ hfree)
  refine ⟨⟨{ w.mem with tail := some t }, w.hist ++ [(t, .exchanged), (t, .entered)], [t], true⟩, rfl,
    rfl, ⟨by simp, rfl, ?_, ?_⟩, ⟨rfl, rfl⟩, .enqueue rfl rfl (by simp [hq]) fun h => absurd hq h⟩
  · intro p n hp hnext
    obtain rfl : p = t := by simpa using hp
    exact absurd hnext (by simp [hl.2.1])
  · have := hg.order
    rw [List.append_cons, emitters_snoc, emitters_snoc, emitters_snoc, emitters_snoc, this, hq]
    cases w.inside <;> simp

theorem follows_exchange (hg : Glob w) (hl : Local t w .exchange) {p : T} (hp : w.mem.tail = some p) :
    assertions.Follows t w { w.mem with tail := some t } (.link p) [.exchanged] := by
  have hlast : w.q.getLast? = some p := hg.tail ▸ hp
  have hne : w.q ≠ [] := fun h => by simp [h] at hlast
  have hadj : Adj (w.q ++ [t]) p t := adj_snoc.mpr (.inr ⟨hlast, rfl⟩)
  refine ⟨⟨{ w.mem with tail := some t }, w.hist ++ [(t, .exchanged)], w.q ++ [t], w.inside⟩, rfl, rfl,
    ⟨nodup_snoc hg hl.1, by simp, ?_, ?_⟩, ⟨hadj, ?_, hl.2.2⟩, .enqueue rfl rfl rfl fun _ => rfl⟩
  · intro u n hu hnext
    rcases List.mem_append.mp hu with hu | hu
    · exact adj_snoc.mpr (.inl (hg.next u n hu hnext))
    · obtain rfl : u = t := by simpa using hu
      exact absurd hnext (by simp [hl.2.1])
  · rw [emitters_snoc, emitters_snoc, hg.order]
    cases w.inside <;> simp [List.tail_append_of_ne_nil hne]
  · -- nothing stands behind the last thread, so it has no link yet
    cases hnext : w.mem.next p with
    | none => rfl
    | some n =>
      have h₁ := hg.next p n (List.mem_of_getLast? hlast) hnext
      have h₂ := (adj_snoc (u := t)).mpr (.inl h₁)
      exact absurd (h₂.succ_unique (nodup_snoc hg hl.1) hadj ▸ h₁.mem_right) hl.1

theorem follows_link (hg : Glob w) {p : T} (hl : Local t w (.link p)) : assertions.Follows t w
    { w.mem with next := Function.update w.mem.next p (some t) } .spin [] := by
  obtain ⟨hadj, -, hgate⟩ := hl
  refine ⟨{ w with mem := { w.mem with next := Function.update w.mem.next p (some t) } }, rfl,
    (List.append_nil _).symm, ⟨hg.nodup, hg.tail, ?_, hg.order⟩,
    .inr ⟨p, hadj, Function.update_self .., hgate⟩, .link hadj rfl rfl rfl rfl⟩
  intro u n hu hnext
  by_cases hup : u = p
  · subst hup
    obtain rfl : t = n := by simpa using hnext
    exact hadj
  · exact hg.next u n hu (by simpa [hup] using hnext)

/-- A waiting thread whose gate is open is first in the queue, and enters. -/
theorem follows_enter (hg : Glob w) (hl : Local t w .spin) (hgate : w.mem.gate t = 0) :
    assertions.Follows t w w.mem .crit [.entered] := by
  rcases hl with ⟨hhead, hin, -⟩ | ⟨p, -, -, hone⟩
  · refine ⟨⟨w.mem, w.hist ++ [(t, .entered)], w.q, true⟩, rfl, rfl, ⟨hg.nodup, hg.tail, hg.next, ?_⟩,
      ⟨hhead, rfl⟩, .enter hhead rfl rfl⟩
    rw [emitters_snoc, emitters_snoc, hg.order, hin]
    simp [List.cons_head?_tail hhead]
  · omega

/-- The holder's link, once filled, names the thread behind it. -/
theorem follows_next (hg : Glob w) (hh : Holds t w) {n : T} (hn : w.mem.next t = some n) :
    assertions.Follows t w w.mem (.release n) [] :=
  Assertions.follows_quiet hg ⟨hh, hn, hg.next t n (List.mem_of_mem_head? hh.1) hn⟩ (.quiet rfl rfl rfl)

theorem follows_leave (hg : Glob w) (hh : Holds t w) (htail : w.mem.tail = some t) :
    assertions.Follows t w { w.mem with tail := none } .out [.unlocked] := by
  obtain ⟨hhead, hin⟩ := hh
  have hq : w.q = [t] := by
    have hlast : w.q.getLast? = some t := hg.tail ▸ htail
    have hnodup := hg.nodup
    cases hw : w.q with
    | nil => simp [hw] at hhead
    | cons a q =>
      obtain rfl : a = t := by simpa [hw] using hhead
      cases q using List.reverseRecOn with
      | nil => rfl
      | append_singleton q b =>
        rw [hw, ← List.cons_append, List.getLast?_concat] at hlast
        obtain rfl : b = a := Option.some.inj hlast
        simp [hw] at hnodup
  refine ⟨⟨{ w.mem with tail := none }, w.hist ++ [(t, .unlocked)], [], false⟩, rfl, rfl,
    ⟨by simp, rfl, by simp, ?_⟩, List.not_mem_nil, .leave hq rfl rfl rfl⟩
  have := hg.order
  simp only [emitters_snoc, hq, hin] at this ⊢
  simpa using this

omit [DecidableEq T] in
/-- A thread that is first but not last has one behind it. -/
theorem exists_adj (hg : Glob w) (hh : Holds t w) (htail : w.mem.tail ≠ some t) : ∃ n, Adj w.q t n := by
  obtain ⟨hhead, -⟩ := hh
  cases hq : w.q with
  | nil => simp [hq] at hhead
  | cons a q =>
    obtain rfl : a = t := by simpa [hq] using hhead
    cases q with
    | nil => exact absurd (hg.tail.trans (by simp [hq])) htail
    | cons n q => exact ⟨n, adj_cons.mpr (.inl ⟨rfl, rfl⟩)⟩

theorem follows_release (hg : Glob w) {n : T} (hl : Local t w (.release n)) : assertions.Follows t w
    { w.mem with gate := Function.update w.mem.gate n 0 } .out [.unlocked] := by
  obtain ⟨⟨hhead, hin⟩, hn, hadj⟩ := hl
  obtain ⟨q, hq⟩ : ∃ q, w.q = t :: n :: q := by
    cases hw : w.q with
    | nil => simp [hw] at hhead
    | cons a q =>
      obtain rfl : a = t := by simpa [hw] using hhead
      rw [hw] at hadj
      rcases adj_cons.mp hadj with ⟨-, h⟩ | h
      · cases q with
        | nil => simp at h
        | cons b q => exact ⟨q, by simp [Option.some.inj h]⟩
      · exact absurd h.mem_left (List.nodup_cons.mp (hw ▸ hg.nodup)).1
  have hnodup := hq ▸ hg.nodup
  refine ⟨⟨{ w.mem with gate := Function.update w.mem.gate n 0 }, w.hist ++ [(t, .unlocked)], n :: q,
    false⟩,
    rfl, rfl, ⟨(List.nodup_cons.mp hnodup).2, ?_, ?_, ?_⟩, (List.nodup_cons.mp hnodup).1,
    .handOff hq hn rfl rfl rfl rfl⟩
  · exact hg.tail.trans (by simp [hq])
  · intro p n' hp hnext
    have h := hq ▸ hg.next p n' (by rw [hq]; exact List.mem_cons_of_mem t hp) hnext
    rcases adj_cons.mp h with ⟨rfl, -⟩ | h
    · exact absurd hp (List.nodup_cons.mp hnodup).1
    · exact h
  · have := hg.order
    simp only [emitters_snoc, hq, hin] at this ⊢
    simpa using this

theorem follows_step (hg : Glob w) {l₀ l : Pc T} (hl : Local t w l₀) {a : Act} {m : Mem T}
    {es : List Event} (hs : step t a w.mem l₀ = some (m, l, es)) : assertions.Follows t w m l es := by
  cases a with
  | lock =>
    obtain ⟨rfl, rfl, rfl, rfl⟩ : l₀ = .out ∧ w.mem = m ∧ Pc.lockNext = l ∧ [Event.lock] = es := by
      simpa [step] using hs
    exact follows_mark hg (by decide) hl
  | unlock =>
    obtain ⟨rfl, rfl, rfl, rfl⟩ : l₀ = .crit ∧ w.mem = m ∧ Pc.unlockNext = l ∧ [Event.unlock] = es := by
      simpa [step] using hs
    exact follows_mark hg (by decide) hl
  | run =>
    cases l₀ <;> simp only [step, access, reduceCtorEq] at hs
    case lockNext =>
      cases hs
      exact follows_prepare hg hl rfl (fun u hu => by simp [hu]) (fun _ _ => rfl) ⟨hl, by simp⟩
    case lockGate =>
      cases hs
      exact follows_prepare hg hl.1 rfl (fun _ _ => rfl) (fun u hu => by simp [hu])
        ⟨hl.1, hl.2, by simp⟩
    case exchange =>
      split at hs <;> cases hs
      · next htail => exact follows_exchange_free hg hl htail
      · next htail => exact follows_exchange hg hl htail
    case link p =>
      cases hs
      exact follows_link hg hl
    case spin =>
      split at hs <;> cases hs
      · exact Assertions.follows_quiet hg hl (.quiet rfl rfl rfl)
      · next hgate => exact follows_enter hg hl (by simpa using hgate)
    case unlockNext =>
      split at hs <;> cases hs
      · exact Assertions.follows_quiet hg hl (.quiet rfl rfl rfl)
      · next hn => exact follows_next hg hl hn
    case unlockCas =>
      split at hs <;> cases hs
      · next htail => exact follows_leave hg hl htail
      · next htail =>
          exact Assertions.follows_quiet hg ⟨hl, exists_adj hg hl htail⟩ (.quiet rfl rfl rfl)
    case waitNext =>
      split at hs <;> cases hs
      · exact Assertions.follows_quiet hg hl (.quiet rfl rfl rfl)
      · next hn => exact follows_next hg hl.1 hn
    case release n =>
      cases hs
      exact follows_release hg hl

def outline : Outline (program T) anyStep (fun _ => True) (World T) where
  toAssertions := assertions
  step hg hl hs _ _ := follows_step hg (hl _) hs
  stable hu hg _ hl hguar := hl.stable hu hg hguar

theorem holds_start : (outline (T := T)).Holds ⟨(start T).mem, [], [], false⟩ [] (start T) where
  mem := rfl
  hist := rfl
  glob := ⟨.nil, rfl, by simp, rfl⟩
  loc _ := List.not_mem_nil

end Queue

/-- **Mutual exclusion and first-in first-out hand-off.** At most one thread is in the
critical section, and the threads that entered are, in order, the first of those that
did their exchange. -/
theorem exclusion_fifo [DecidableEq T] {tr : List (T × Event)} {c : Config T (Mem T) (Pc T)}
    (h : (program T).Run anyStep (start T) tr c) :
    (∀ t u, c.loc t = .crit → c.loc u = .crit → t = u) ∧
      emitters .entered tr <+: emitters .exchanged tr := by
  obtain ⟨w, hw⟩ := Queue.outline.sound (fun _ => trivial) Queue.holds_start h trivial
  constructor
  · intro t u ht hu
    have h₁ : Queue.Local t w (c.loc t) := hw.loc t
    have h₂ : Queue.Local u w (c.loc u) := hw.loc u
    rw [ht] at h₁
    rw [hu] at h₂
    exact Option.some.inj (h₁.1.symm.trans h₂.1)
  · have hhist : w.hist = tr := hw.hist
    rw [← hhist, hw.glob.order]
    exact List.prefix_append ..

/-- The theorem where one thread is in the critical section and one waits behind it. -/
theorem exclusion_fifo_one_waits : ∃ (tr : List (Bool × Event)) (c : Config Bool (Mem Bool) (Pc Bool)),
    emitters .exchanged tr = [true, false] ∧ emitters .entered tr = [true] ∧
      c.loc true = .crit ∧ (∀ t u, c.loc t = .crit → c.loc u = .crit → t = u) ∧
      emitters .entered tr <+: emitters .exchanged tr := by
  have h₀ : (program Bool).Run anyStep (start Bool) [] (start Bool) := .start
  have h₁ := h₀.solo true [.lock, .run, .run, .run] _ _ _ rfl
  have h₂ := h₁.solo false [.lock, .run, .run, .run, .run] _ _ _ rfl
  exact ⟨_, _, by decide, by decide, rfl, exclusion_fifo h₂⟩

end Cds.McsLock
