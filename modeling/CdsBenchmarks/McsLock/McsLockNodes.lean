import CdsBenchmarks.McsLock.McsLockQueue

/-! Who may touch a node when. A node is on the stack of its owner's guard, so nobody else may
use its fields before the owner's exchange publishes it or after the owner's `unlock` returns. -/

namespace Cds.McsLock
open Concurrent Program

variable {T : Type*}

/-- The node whose `next` or `gate` the next access is to. -/
def touched (me : T) : Pc T → Option T
  | .lockNext | .lockGate | .spin | .unlockNext | .waitNext => some me
  | .link pred => some pred
  | .release next => some next
  | .out | .exchange | .crit | .unlockCas => none

/-- The owner of the node has done its exchange and not returned from `unlock` since. -/
def Published (h : List (T × Event)) (p : T) : Prop :=
  ∃ i : ℕ, h[i]? = some (p, Event.exchanged) ∧ ∀ j : ℕ, i < j → h[j]? ≠ some (p, Event.unlocked)

/-- Nobody keeps a pointer to the node of `p` that it has yet to use. -/
structure Unreferenced (c : Config T (Mem T) (Pc T)) (p : T) : Prop where
  linker : ∀ t, c.loc t ≠ .link p
  tail : c.mem.tail ≠ some p
  releaser : ∀ t, c.loc t ≠ .release p

section Touched
variable [DecidableEq T] {me n : T} {a : Act} {m m' : Mem T} {l l' : Pc T} {es : List Event}

/-- A step writes to no other node. -/
theorem step_frame (hs : step me a m l = some (m', l', es)) (hn : touched me l ≠ some n) :
    m'.next n = m.next n ∧ m'.gate n = m.gate n := by
  cases a with
  | lock | unlock =>
    obtain ⟨-, rfl, -⟩ := by simpa [step] using hs
    exact ⟨rfl, rfl⟩
  | run =>
    cases l <;> simp only [step, access, reduceCtorEq] at hs <;> simp only [touched] at hn
    case lockNext | lockGate =>
      cases hs
      exact ⟨by simp [Ne.symm (mt (congrArg some) hn)], by simp [Ne.symm (mt (congrArg some) hn)]⟩
    case link | release =>
      cases hs
      exact ⟨by simp [Ne.symm (mt (congrArg some) hn)], by simp [Ne.symm (mt (congrArg some) hn)]⟩
    all_goals
      repeat' split at hs
      all_goals cases hs; exact ⟨rfl, rfl⟩

/-- Nor does it depend on one. -/
theorem step_congr {m₁ m₂ : Mem T} (htail : m₁.tail = m₂.tail)
    (hsame : ∀ n, touched me l = some n → m₁.next n = m₂.next n ∧ m₁.gate n = m₂.gate n) :
    (step me a m₁ l).map (fun r => (r.1.tail, r.2)) =
      (step me a m₂ l).map fun r => (r.1.tail, r.2) := by
  cases a with
  | lock | unlock =>
    simp only [step]
    split <;> simp [htail]
  | run =>
    cases l <;> simp only [step, access, touched, Option.some.injEq, forall_eq'] at hsame ⊢
    case exchange | unlockCas =>
      rw [htail]
      split <;> simp [htail]
    case spin | unlockNext | waitNext =>
      first | rw [hsame.1] | rw [hsame.2]
      split <;> simp [htail]
    all_goals simp [htail]

end Touched

/-! ## Publication and the queue -/

/-- After the exchange and before the return of `unlock`. -/
def Pc.published : Pc T → Bool
  | .out | .lockNext | .lockGate | .exchange => false
  | _ => true

theorem published_snoc {h : List (T × Event)} {p u : T} {e : Event} :
    Published (h ++ [(u, e)]) p ↔
      (u = p ∧ e = .exchanged) ∨ (Published h p ∧ ¬(u = p ∧ e = .unlocked)) := by
  constructor
  · rintro ⟨i, hi, hno⟩
    rcases (getElem?_snoc ..).mp hi with hi' | ⟨-, heq⟩
    · refine .inr ⟨⟨i, hi', fun j hj hx => hno j hj ((getElem?_snoc ..).mpr (.inl hx))⟩, ?_⟩
      rintro ⟨rfl, rfl⟩
      exact hno h.length (lt_of_getElem? hi') ((getElem?_snoc ..).mpr (.inr ⟨rfl, rfl⟩))
    · cases heq
      exact .inl ⟨rfl, rfl⟩
  · rintro (⟨rfl, rfl⟩ | ⟨⟨i, hi, hno⟩, hne⟩)
    · refine ⟨h.length, (getElem?_snoc ..).mpr (.inr ⟨rfl, rfl⟩), fun j hj hx => ?_⟩
      have hlt := lt_of_getElem? hx
      simp only [List.length_append, List.length_singleton] at hlt
      omega
    · refine ⟨i, (getElem?_snoc ..).mpr (.inl hi), fun j hj hx => ?_⟩
      rcases (getElem?_snoc ..).mp hx with hx | ⟨-, heq⟩
      · exact hno j hj hx
      · cases heq
        exact hne ⟨rfl, rfl⟩

theorem published_emit {h : List (T × Event)} {p u : T} (hu : p ≠ u) (es : List Event) :
    Published (h ++ emit u es) p ↔ Published h p := by
  induction es generalizing h with
  | nil => simp
  | cons e es ih =>
    rw [emit_cons, ← List.singleton_append, ← List.append_assoc, ih, published_snoc]
    simp [Ne.symm hu]

variable [DecidableEq T]

theorem published_step {h : List (T × Event)} {me : T} {a : Act} {m m' : Mem T} {l l' : Pc T}
    {es : List Event} (hs : step me a m l = some (m', l', es))
    (hl : Published h me ↔ l.published = true) :
    Published (h ++ emit me es) me ↔ l'.published = true := by
  have hsame : l'.published = l.published → (Published (h ++ emit me []) me ↔ l'.published = true) := by
    intro heq
    rwa [heq, emit_nil, List.append_nil]
  cases a with
  | lock | unlock =>
    obtain ⟨rfl, -, rfl, rfl⟩ := by simpa [step] using hs
    simpa [published_snoc, Pc.published] using hl
  | run =>
    cases l <;> simp only [step, access, reduceCtorEq] at hs
    case exchange =>
      split at hs <;> cases hs
      · rw [emit_cons, ← List.singleton_append, ← List.append_assoc, emit_cons, emit_nil,
          published_snoc, published_snoc]
        simp [Pc.published]
      · simp [published_snoc, Pc.published]
    case lockNext | lockGate | link =>
      cases hs
      exact hsame rfl
    case release =>
      cases hs
      simp [published_snoc, Pc.published]
    case spin =>
      split at hs <;> cases hs
      · exact hsame rfl
      · simpa [published_snoc, Pc.published] using hl
    case unlockCas =>
      split at hs <;> cases hs
      · simp [published_snoc, Pc.published]
      · exact hsame rfl
    case unlockNext | waitNext =>
      split at hs <;> cases hs <;> exact hsame rfl

theorem published_iff {tr : List (T × Event)} {c : Config T (Mem T) (Pc T)}
    (hrun : (program T).Run anyStep (start T) tr c) (p : T) :
    Published tr p ↔ (c.loc p).published = true := by
  induction hrun generalizing p with
  | start => simp [Published, start, Pc.published]
  | @step tr c t a m l es _ hs _ ih =>
    exact forall_move (P := fun u (l : Pc T) => Published (tr ++ emit t es) u ↔ l.published = true)
      (published_step hs (ih t)) (fun u hu => (published_emit hu es).trans (ih u)) p

omit [DecidableEq T] in
/-- The threads in the queue are those whose node is published. -/
theorem Queue.Local.mem_iff {t : T} {w : Queue.World T} {l : Pc T} (hl : Queue.Local t w l) :
    t ∈ w.q ↔ l.published = true := by
  have hhead : Queue.Holds t w → t ∈ w.q := fun h => List.mem_of_mem_head? h.1
  cases l with
  | out | lockNext => simpa [Queue.Local, Pc.published] using hl
  | lockGate | exchange => simpa [Pc.published] using hl.1
  | link p => simpa [Pc.published] using hl.1.mem_right
  | spin =>
    have hmem : t ∈ w.q := by
      rcases hl with hl | ⟨p, hp, -⟩
      · exact List.mem_of_mem_head? hl.1
      · exact hp.mem_right
    simpa [Pc.published] using hmem
  | crit | unlockNext | unlockCas => simpa [Pc.published] using hhead hl
  | waitNext | release => simpa [Pc.published] using hhead hl.1

/-- **Nodes are touched only while published.** An access to a node by another thread than its
owner comes after the owner's exchange and before the owner's `unlock` returns, and from that
return on nobody has a pointer to the node. -/
theorem touched_while_published {tr : List (T × Event)} {c : Config T (Mem T) (Pc T)}
    (hrun : (program T).Run anyStep (start T) tr c) :
    (∀ t p, touched t (c.loc t) = some p → p ≠ t → Published tr p) ∧
    (∀ p, ¬Published tr p → Unreferenced c p) ∧
    ∀ p tr', tr = tr' ++ [(p, .unlocked)] → Unreferenced c p := by
  obtain ⟨w, hw⟩ := Queue.outline.sound (fun _ => trivial) Queue.holds_start hrun trivial
  have hq : ∀ p, p ∈ w.q → Published tr p := fun p hp =>
    (published_iff hrun p).mpr ((Queue.Local.mem_iff (hw.loc p)).mp hp)
  have hlink : ∀ t p, c.loc t = .link p → Published tr p := fun t p hl => by
    have hloc : Queue.Local t w (c.loc t) := hw.loc t
    rw [hl] at hloc
    exact hq p hloc.1.mem_left
  have hrelease : ∀ t p, c.loc t = .release p → Published tr p := fun t p hl => by
    have hloc : Queue.Local t w (c.loc t) := hw.loc t
    rw [hl] at hloc
    exact hq p hloc.2.2.mem_right
  have hunref : ∀ p, ¬Published tr p → Unreferenced c p := by
    refine fun p hp => ⟨fun t hl => hp (hlink t p hl), fun htail => ?_,
      fun t hl => hp (hrelease t p hl)⟩
    have hmem : w.mem = c.mem := hw.mem
    exact hp (hq p (List.mem_of_getLast? (hw.glob.tail.symm.trans (hmem ▸ htail))))
  refine ⟨fun t p ht hne => ?_, hunref, ?_⟩
  · cases hl : c.loc t with
    | link pred =>
      obtain rfl : pred = p := by simpa [hl, touched] using ht
      exact hlink t pred hl
    | release next =>
      obtain rfl : next = p := by simpa [hl, touched] using ht
      exact hrelease t next hl
    | _ => simp [hl, touched, Ne.symm hne] at ht
  · rintro p tr' rfl
    exact hunref p fun hp => by simp [published_snoc] at hp

/-- A late locker is about to link its node behind the holder's. -/
theorem touched_while_published_link :
    ∃ (tr : List (Bool × Event)) (c : Config Bool (Mem Bool) (Pc Bool)),
      (program Bool).Run anyStep (start Bool) tr c ∧ touched false (c.loc false) = some true ∧
      Published tr true := by
  have h₀ : (program Bool).Run anyStep (start Bool) [] (start Bool) := .start
  have h₁ := h₀.solo true [.lock, .run, .run, .run] _ _ _ rfl
  have h₂ := h₁.solo false [.lock, .run, .run, .run] _ _ _ rfl
  exact ⟨_, _, h₂, rfl, (touched_while_published h₂).1 false true rfl (by decide)⟩

end Cds.McsLock
