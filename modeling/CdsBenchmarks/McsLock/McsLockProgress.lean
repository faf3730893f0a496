import CdsBenchmarks.McsLock.McsLockQueue

/-! No waiter of the MCS lock is stranded, and an unused lock is free. -/

namespace Cds.McsLock
open Concurrent Program

variable {T : Type*}

/-- Inside `lock` or `unlock`. -/
def Pc.busy : Pc T → Bool
  | .out | .crit => false
  | _ => true

/-- In one of the two spin loops. -/
def Pc.waiting : Pc T → Bool
  | .spin | .waitNext => true
  | _ => false

/-- The thread is in a loop that its next load does not end. -/
def Blocked (me : T) (m : Mem T) : Pc T → Prop
  | .spin => m.gate me ≠ 0
  | .waitNext => m.next me = none
  | _ => False

theorem Adj.pred_unique {q : List T} {p p' t : T} (hq : q.Nodup) (h : Adj q p t)
    (h' : Adj q p' t) : p = p' := by
  induction q with
  | nil => simp [Adj] at h
  | cons a q ih =>
    obtain ⟨-, hq'⟩ := List.nodup_cons.mp hq
    rcases adj_cons.mp h with ⟨hp, hh⟩ | h₁ <;> rcases adj_cons.mp h' with ⟨hp', hh'⟩ | h₂
    · exact hp.trans hp'.symm
    · exact absurd hh (h₂.ne_head hq')
    · exact absurd hh' (h₁.ne_head hq')
    · exact ih hq' h₁ h₂

variable [DecidableEq T]

/-! ## Exit conditions -/

/-- A step of another thread leaves the exit condition of a waiting thread true. -/
theorem not_blocked_step {t u : T} (hu : u ≠ t) {a : Act} {m m' : Mem T} {l l₀ l' : Pc T}
    {es : List Event} (hw : l.waiting) (hb : ¬Blocked t m l) (hs : step u a m l₀ = some (m', l', es)) :
    ¬Blocked t m' l := by
  have hnext : m.next t ≠ none → m'.next t ≠ none := by
    intro hn
    cases a with
    | lock | unlock =>
      obtain ⟨-, rfl, -, -⟩ := by simpa [step] using hs
      exact hn
    | run =>
      cases l₀ <;> simp only [step, access, reduceCtorEq] at hs
      case lockNext =>
        cases hs
        simpa [Ne.symm hu] using hn
      case link p =>
        cases hs
        by_cases hp : t = p
        · simp [hp]
        · simpa [hp] using hn
      all_goals (try split at hs) <;> cases hs <;> exact hn
  have hgate : m.gate t = 0 → m'.gate t = 0 := by
    intro hg
    cases a with
    | lock | unlock =>
      obtain ⟨-, rfl, -, -⟩ := by simpa [step] using hs
      exact hg
    | run =>
      cases l₀ <;> simp only [step, access, reduceCtorEq] at hs
      case lockGate =>
        cases hs
        simpa [Ne.symm hu] using hg
      case release n =>
        cases hs
        by_cases hn : t = n
        · simp [hn]
        · simpa [hn] using hg
      all_goals (try split at hs) <;> cases hs <;> exact hg
  cases l with
  | spin => exact fun h => h (hgate (not_not.mp hb))
  | waitNext => exact hnext hb
  | _ => cases hw

/-- The next step of a waiting thread whose exit condition holds leaves the loop. -/
theorem leaves {t : T} {a : Act} {m m' : Mem T} {l l' : Pc T} {es : List Event}
    (hw : l.waiting) (hb : ¬Blocked t m l) (hs : step t a m l = some (m', l', es)) :
    l'.waiting = false := by
  cases l with
  | spin =>
    cases a with
    | run =>
      rw [step, access, if_neg (show ¬m.gate t ≠ 0 from hb)] at hs
      cases hs
      rfl
    | _ => simp [step] at hs
  | waitNext =>
    cases a with
    | run =>
      obtain ⟨n, hn⟩ := Option.ne_none_iff_exists'.mp hb
      rw [step, access, hn] at hs
      cases hs
      rfl
    | _ => simp [step] at hs
  | _ => cases hw

theorem not_blocked_run {t : T} {c c' : Config T (Mem T) (Pc T)} {tr : List (T × Event)}
    (hw : (c.loc t).waiting) (hb : ¬Blocked t c.mem (c.loc t))
    (h : (program T).Run (fun _ u _ => u ≠ t) c tr c') : ¬Blocked t c'.mem (c'.loc t) := by
  rw [h.loc_eq]
  induction h with
  | start => exact hb
  | step h hs hu ih => exact not_blocked_step hu hw ih hs

/-! ## The head of the queue -/

namespace Queue

variable {w : World T} {ls : T → Pc T}

omit [DecidableEq T] in
/-- Either the first thread of the queue can go on, or it waits for the second one to link
itself, which can then go on. -/
theorem exists_not_blocked (hg : Glob w) (hl : ∀ t, Local t w (ls t)) (hcrit : ∀ t, ls t ≠ .crit)
    {a : T} (hhead : w.q.head? = some a) : ∃ t, (ls t).busy ∧ ¬Blocked t w.mem (ls t) := by
  have hmem : a ∈ w.q := List.mem_of_mem_head? hhead
  have ha := hl a
  cases hpc : ls a with
  | out | lockNext =>
    rw [hpc] at ha
    exact absurd hmem ha
  | lockGate | exchange => exact absurd hmem (hpc ▸ ha).1
  | crit => exact absurd hpc (hcrit a)
  | link p | unlockNext | unlockCas | release n =>
    exact ⟨a, by simp [hpc, Pc.busy], by simp [hpc, Blocked]⟩
  | spin =>
    rw [hpc] at ha
    rcases ha with ⟨-, -, hgate⟩ | ⟨p, hp, -⟩
    · exact ⟨a, by simp [hpc, Pc.busy], by simp [hpc, Blocked, hgate]⟩
    · exact absurd hhead (hp.ne_head hg.nodup)
  | waitNext =>
    rw [hpc] at ha
    obtain ⟨-, n, hadj⟩ := ha
    by_cases hnext : w.mem.next a = none
    -- the thread after `a` has not linked itself yet, so it is the one that can move
    · have hn := hl n
      have hne : w.q.head? ≠ some n := hadj.ne_head hg.nodup
      cases hpc' : ls n with
      | out | lockNext =>
        rw [hpc'] at hn
        exact absurd hadj.mem_right hn
      | lockGate | exchange => exact absurd hadj.mem_right (hpc' ▸ hn).1
      | link p => exact ⟨n, by simp [hpc', Pc.busy], by simp [hpc', Blocked]⟩
      | spin =>
        rw [hpc'] at hn
        rcases hn with ⟨hn, -⟩ | ⟨p, hp, hlink, -⟩
        · exact absurd hn hne
        · rw [hp.pred_unique hg.nodup hadj, hnext] at hlink
          cases hlink
      | crit | unlockNext | unlockCas => exact absurd (hpc' ▸ hn).1 hne
      | waitNext | release n' => exact absurd (hpc' ▸ hn).1.1 hne
    · exact ⟨a, by simp [hpc, Pc.busy], by simpa [hpc, Blocked] using hnext⟩

omit [DecidableEq T] in
/-- A thread outside the queue is in neither loop. -/
theorem not_blocked_of_not_mem (hl : ∀ t, Local t w (ls t)) {t : T} (ht : t ∉ w.q) :
    ¬Blocked t w.mem (ls t) := by
  have h := hl t
  cases hpc : ls t with
  | spin =>
    rw [hpc] at h
    rcases h with h | ⟨p, hp, -⟩
    · exact absurd (List.mem_of_mem_head? h.1) ht
    · exact absurd hp.mem_right ht
  | waitNext => exact absurd (List.mem_of_mem_head? (hpc ▸ h).1.1) ht
  | _ => exact not_false

end Queue

/-- **No waiter is stranded, and an unused lock is free.** When no thread is in the critical
section but some thread is inside `lock` or `unlock`, one of these is not blocked; the exit
condition of a loop, once true, stays true until the thread's next step, which leaves the
loop; and `m_tail` is `NULL` when every thread is outside. -/
theorem no_stranded_waiter {tr : List (T × Event)} {c : Config T (Mem T) (Pc T)}
    (h : (program T).Run anyStep (start T) tr c) :
    ((∃ t, (c.loc t).busy) → (∀ t, c.loc t ≠ .crit) →
      ∃ t, (c.loc t).busy ∧ ¬Blocked t c.mem (c.loc t)) ∧
    (∀ t, (c.loc t).waiting → ¬Blocked t c.mem (c.loc t) →
      ∀ tr' c', (program T).Run (fun _ u _ => u ≠ t) c tr' c' →
        ¬Blocked t c'.mem (c'.loc t) ∧
        ∀ a m l es, (program T).step t a c'.mem (c'.loc t) = some (m, l, es) → l.waiting = false) ∧
    ((∀ t, c.loc t = .out) → c.mem.tail = none) := by
  obtain ⟨w, hw⟩ := Queue.outline.sound (fun _ => trivial) Queue.holds_start h trivial
  have hg : Queue.Glob w := hw.glob
  have hloc : ∀ t, Queue.Local t w (c.loc t) := hw.loc
  have hmem : w.mem = c.mem := hw.mem
  refine ⟨?_, ?_, ?_⟩
  · rintro ⟨b, hb⟩ hcrit
    rw [← hmem]
    cases hhead : w.q.head? with
    | none =>
      have hq := List.head?_eq_none_iff.mp hhead
      exact ⟨b, hb, Queue.not_blocked_of_not_mem hloc (by simp [hq])⟩
    | some a => exact Queue.exists_not_blocked hg hloc hcrit hhead
  · intro t hwait hb tr' c' h'
    have hb' := not_blocked_run hwait hb h'
    exact ⟨hb', fun a m l es hs => leaves (h'.loc_eq ▸ hwait) hb' hs⟩
  · intro hout
    have hq : w.q = [] := by
      apply List.eq_nil_iff_forall_not_mem.mpr
      intro t
      have := hloc t
      rwa [hout t] at this
    rw [← hmem, hg.tail, hq]
    rfl

/-- The theorem where the releaser waits for a successor that has not linked itself. -/
theorem no_stranded_waiter_unlinked :
    ∃ (tr : List (Bool × Event)) (c : Config Bool (Mem Bool) (Pc Bool)),
      (program Bool).Run anyStep (start Bool) tr c ∧ c.loc true = .waitNext ∧ c.loc false = .link true ∧
      ∃ t, (c.loc t).busy ∧ ¬Blocked t c.mem (c.loc t) := by
  have h₀ : (program Bool).Run anyStep (start Bool) [] (start Bool) := .start
  have h₁ := h₀.solo true [.lock, .run, .run, .run, .unlock, .run] _ _ _ rfl
  have h₂ := h₁.solo false [.lock, .run, .run, .run] _ _ _ rfl
  have h₃ := h₂.solo true [.run] _ _ _ rfl
  have hex := (no_stranded_waiter h₃).1 ⟨true, rfl⟩ (by decide)
  exact ⟨_, _, h₃, rfl, rfl, hex⟩

end Cds.McsLock
