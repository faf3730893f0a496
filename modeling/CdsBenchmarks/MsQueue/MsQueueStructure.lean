import CdsBenchmarks.MsQueue.MsQueueFifo

/-! The nodes of the queue: those from `head` form a list that `tail` points into, no node
is in two places, and every index used is one of the array. -/

namespace Cds.MsQueue
open Concurrent Program

variable {n : ℕ}

/-! ## Where an index is -/

/-- The node a call holds for itself: an enqueue's before its link, a dequeue's removed
dummy before `reclaim`. -/
def Pc.held : Pc → Option UInt
  | .enqValue _ node | .enqLoad _ node | .enqStore _ node _ | .enqTail _ node | .enqNext _ node _
  | .enqCheck _ node _ _ | .enqLink _ node _ _ | .enqReload _ node _ | .enqHelp _ node _ _ => some node
  | .deqReclaim head _ => some (getPtr head)
  | _ => none

inductive Spot (n : ℕ)
  | chain
  | free (t : Fin n) (i : Fin maxFreelist)
  | held (t : Fin n)
deriving DecidableEq

def At (c : Config (Fin n) (Mem n) Pc) (node : UInt) : Spot n → Prop
  | .chain => ∃ L, Chain (succ c.mem) (some (getPtr c.mem.head)) L ∧ node ∈ L
  | .free t i => node ≠ 0 ∧ c.mem.freeLists t i = node
  | .held t => (c.loc t).held = some node

/-! ## Indices into `nodes` -/

/-- The index into `nodes` of the next access. -/
def Pc.index : Pc → Option UInt
  | .enqValue _ node | .enqLoad _ node | .enqStore _ node _ => some node
  | .enqNext _ _ tail | .enqLink _ _ tail _ | .enqReload _ _ tail => some (getPtr tail)
  | .deqNext head _ => some (getPtr head)
  | .deqValue _ next => some (getPtr next)
  | _ => none

def InRange (node : UInt) : Prop := 1 ≤ node.toNat ∧ node.toNat ≤ maxNodes + 1

theorem InRange.ne_poison {node : UInt} (h : InRange node) : node ≠ poisonIdx := by
  rintro rfl
  exact absurd h.2 (by decide)

/-- The local variables that will be used as an index are in range. -/
def Indexed : Pc → Prop
  | .enqNext _ _ tail | .enqCheck _ _ tail _ | .enqLink _ _ tail _ | .enqReload _ _ tail =>
    InRange (getPtr tail)
  | .deqTail head | .deqNext head _ => InRange (getPtr head)
  | .deqValue _ next => InRange (getPtr next)
  | _ => True

namespace Linked

variable {t : Fin n} {w : World n} {c : Config (Fin n) (Mem n) Pc} {tr : List (Fin n × Event)}

theorem Glob.inRange_of_mem (hg : Glob w) {node : UInt} (h : node ∈ w.chain) : InRange node :=
  hg.range node (by rw [hg.placed node h]; simp)

theorem Local.own {l : Pc} (hl : Local t w l) {node : UInt} (h : l.held = some node) :
    w.place node = .own t := by
  cases l <;> simp only [Pc.held, Option.some.injEq, reduceCtorEq] at h
  all_goals subst h
  case enqValue => exact hl.2
  case enqLoad | enqStore => exact hl.1.2
  case enqTail => exact hl.1.2
  case enqNext | enqCheck | enqLink | enqReload | enqHelp => exact hl.1.1.2
  case deqReclaim => exact hl.2

/-- The place in the invariant that a spot stands for. -/
def Spot.place : Spot n → Place n
  | .chain => .chain
  | .free t i => .free t i
  | .held t => .own t

theorem place_of_at (hw : outline.Holds w tr c) {node : UInt} {s : Spot n} (h : At c node s) :
    w.place node = Spot.place s := by
  have hg : Glob w := hw.glob
  have hmem : w.mem = c.mem := hw.mem
  cases s with
  | chain =>
    obtain ⟨L, hL, hnode⟩ := h
    rw [← hmem] at hL
    exact hg.placed node (hg.chain.unique hL ▸ hnode)
  | free t i =>
    obtain ⟨hne, rfl⟩ := h
    rw [← hmem] at hne ⊢
    exact hg.free t i hne
  | held t => exact Local.own (hw.loc t) h

theorem at_unique (hw : outline.Holds w tr c) {node : UInt} {s s' : Spot n} (h : At c node s)
    (h' : At c node s') : s = s' := by
  have heq := (place_of_at hw h).symm.trans (place_of_at hw h')
  cases s <;> cases s' <;> simp_all [Spot.place]

/-- What thread `t` keeps of `head`, `tail` or a link it has checked is in range. -/
theorem indexed_step (hg : Glob w) {l l' : Pc} (hl : Local t w l) (hi : Indexed l) {a : Act} {m : Mem n}
    {es : List Event} (hs : step t a w.mem l = some (m, l', es)) : Indexed l' := by
  cases a with
  | call o =>
    simp only [step] at hs
    split at hs
    · cases o <;> cases hs <;> trivial
    · cases hs
  | run =>
    cases l <;> simp only [step, access, casTail, reduceCtorEq, apply_ite some] at hs
    case enqNew val => split at hs <;> cases hs <;> trivial
    case enqTail val node =>
      cases hs
      exact hg.inRange_of_mem hg.tail_mem
    case enqNext val node tail =>
      cases hs
      exact hi
    case enqCheck val node tail next =>
      split at hs
      · split at hs <;> cases hs <;> exact hi
      · cases hs
        trivial
    case enqLink val node tail next =>
      split at hs <;> cases hs
      · trivial
      · exact hi
    case deqHead =>
      cases hs
      exact hg.inRange_of_mem hg.head_mem
    case deqTail head =>
      cases hs
      exact hi
    case deqCheck head tail next =>
      split at hs
      · next heq =>
        split at hs
        · split at hs
          · split at hs <;> cases hs <;> trivial
          · cases hs
            trivial
        · next hne =>
          -- `head` is unchanged and behind `tail`, so `next` is its successor on the chain
          cases hs
          obtain ⟨hready, hnext, -⟩ := hl.2.2.2 heq
          obtain ⟨-, hnull⟩ := hready hne
          subst heq
          obtain ⟨L, hL⟩ := hg.next_mem (hnext hnull) hnull
          exact hg.inRange_of_mem (by simp [hL])
      · cases hs
        trivial
    all_goals (try split at hs) <;> cases hs <;> trivial

/-- The assertion against `POISON_IDX` holds. -/
theorem not_poison (hg : Glob w) {head tail next : Pointer} (hl : Local t w (.deqCheck head tail next))
    (heq : w.mem.head = head) : getPtr next ≠ poisonIdx := by
  obtain ⟨-, hnext, -⟩ := hl.2.2.2 heq
  by_cases hnull : getPtr next = 0
  · rw [hnull]
    decide
  · subst heq
    obtain ⟨L, hL⟩ := hg.next_mem (hnext hnull) hnull
    have hmem : getPtr next ∈ w.chain := by simp [hL]
    exact InRange.ne_poison (hg.inRange_of_mem hmem)

theorem indexed (hn : n ≤ 4) {m : Mem n} (hm : ∀ i j, initialFree ≤ j.val → m.freeLists i j = 0)
    (hrun : (program n).Run anyStep (start m) tr c) (hwrap : NoWrap tr) : ∀ t, Indexed (c.loc t) := by
  induction hrun with
  | start => exact fun _ => trivial
  | @step tr c t a m' l es hrun hs _ ih =>
    have hprev := NoWrap.of_append hwrap
    obtain ⟨w, hw⟩ := outline.sound NoWrap.of_append (holds_start hn hm) hrun hprev
    have hself : Indexed l := indexed_step hw.glob (hw.loc t) (ih hprev t)
      (by rw [show w.mem = c.mem from hw.mem]; exact hs)
    exact forall_move (P := fun _ => Indexed) hself fun u _ => ih hprev u

end Linked

/-- **The structure of the queue.** From `head` there is a list of nodes without repetition
that ends with a null link, and `tail` points to its last or last but one; no index is in
two places; every index used on `nodes` is between `1` and `MAX_NODES + 1`; and the
assertion against `POISON_IDX` never fails. -/
theorem structure_valid (hn : n ≤ 4) {m : Mem n} (hm : ∀ i j, initialFree ≤ j.val → m.freeLists i j = 0)
    {tr : List (Fin n × Event)} {c : Config (Fin n) (Mem n) Pc}
    (hrun : (program n).Run anyStep (start m) tr c) (hwrap : NoWrap tr) :
    (∃ L, Chain (succ c.mem) (some (getPtr c.mem.head)) L ∧ L.Nodup ∧
      ∃ K, L = K ++ [getPtr c.mem.tail] ∨ ∃ b, L = K ++ [getPtr c.mem.tail, b]) ∧
    (∀ node s s', At c node s → At c node s' → s = s') ∧
    (∀ t node, (c.loc t).index = some node → InRange node) ∧
    (∀ t head tail next, c.loc t = .deqCheck head tail next → c.mem.head = head →
      getPtr head = getPtr tail → getPtr next ≠ poisonIdx) := by
  obtain ⟨w, hw⟩ := Linked.outline.sound NoWrap.of_append (Linked.holds_start hn hm) hrun hwrap
  have hg : Linked.Glob w := hw.glob
  have hmem : w.mem = c.mem := hw.mem
  refine ⟨⟨w.chain, hmem ▸ hg.chain, hg.nodup, hmem ▸ hg.lag⟩, ?_, ?_, ?_⟩
  · exact fun node s s' h h' => Linked.at_unique hw h h'
  · intro t node h
    have hi := Linked.indexed hn hm hrun hwrap t
    have hl : Linked.Local t w (c.loc t) := hw.loc t
    cases hpc : c.loc t <;> rw [hpc] at h hi hl <;>
      simp only [Pc.index, Option.some.injEq, reduceCtorEq] at h
    all_goals subst h
    case enqValue | enqLoad | enqStore =>
      refine hg.range _ ?_
      rw [hl.own rfl]
      simp
    all_goals exact hi
  · intro t head tail next hpc heq _
    have hl : Linked.Local t w (c.loc t) := hw.loc t
    rw [hpc] at hl
    exact Linked.not_poison hg hl (by rw [hmem, heq])

/-- The theorem between the unlink and the `reclaim` of a dequeue that helped an enqueue. -/
theorem structure_valid_unlinked : ∃ (tr : List (Fin 2 × Event)) (c : Config (Fin 2) (Mem 2) Pc),
    (program 2).Run anyStep (start (zeroed 2)) tr c ∧ (c.loc 1).held = some 1 ∧
    (∃ L, Chain (succ c.mem) (some (getPtr c.mem.head)) L ∧ L.Nodup ∧
      ∃ K, L = K ++ [getPtr c.mem.tail] ∨ ∃ b, L = K ++ [getPtr c.mem.tail, b]) := by
  have h₀ : (program 2).Run anyStep (start (zeroed 2)) [] (start (zeroed 2)) := .start
  have h₁ := h₀.solo 0 (.call (.enqueue 7) :: List.replicate 8 .run) _ _ _ rfl
  have h₂ := h₁.solo 1 (.call .dequeue :: List.replicate 11 .run) _ _ _ rfl
  have hvalid := structure_valid (by decide) (fun _ _ _ => rfl) h₂ fun c =>
    Nat.lt_of_le_of_lt List.countP_le_length (by decide)
  exact ⟨_, _, h₂, rfl, hvalid.1⟩

end Cds.MsQueue
