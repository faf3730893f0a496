import CdsBenchmarks.Concurrent.Counting
import CdsBenchmarks.MsQueue.MsQueueFifo

/-! How many compare-exchanges of the queue succeed. Each enqueue links one node and each
dequeue unlinks at most one, and `tail` moves over each linked node at most once. -/

namespace Cds.MsQueue
open Concurrent Program

variable {n : ℕ}

def isCas : Event → Bool
  | .cas _ => true
  | _ => false

def isTail : Event → Bool
  | .cas .tail => true
  | _ => false

def isLink : Event → Bool
  | .link _ => true
  | _ => false

def isUnlink : Event → Bool
  | .unlink => true
  | _ => false

def isEnqueue : Event → Bool
  | .call (.enqueue _) => true
  | _ => false

def isDequeue : Event → Bool
  | .call .dequeue => true
  | _ => false

/-- The number of nodes behind the one that `tail` points to. -/
def lag (m : Mem n) : ℕ := if getPtr (m.next (getPtr m.tail)) = 0 then 0 else 1

/-- An enqueue that has not linked its node. -/
def Pc.linking : Pc → Bool
  | .enqNew _ | .enqValue _ _ | .enqLoad _ _ | .enqStore _ _ _ | .enqTail _ _ | .enqNext _ _ _
  | .enqCheck _ _ _ _ | .enqLink _ _ _ _ | .enqReload _ _ _ | .enqHelp _ _ _ _ => true
  | _ => false

/-- A dequeue that has not unlinked a node. -/
def Pc.unlinking : Pc → Bool
  | .deqHead | .deqTail _ | .deqNext _ _ | .deqCheck _ _ _ | .deqHelp _ _ | .deqValue _ _
  | .deqUnlink _ _ _ => true
  | _ => false

section Step
variable {t : Fin n} {a : Act} {m m' : Mem n} {l l' : Pc} {es : List Event}

/-- What the events of a step say of the calls still to link or to unlink. -/
structure Accounted (l l' : Pc) (es : List Event) : Prop where
  cas : es.countP isCas = es.countP isTail + es.countP isLink + es.countP isUnlink
  link : es.countP isLink + l'.linking.toNat ≤ es.countP isEnqueue + l.linking.toNat
  unlink : es.countP isUnlink + l'.unlinking.toNat ≤ es.countP isDequeue + l.unlinking.toNat

theorem accounted_step (hs : step t a m l = some (m', l', es)) : Accounted l l' es := by
  cases a with
  | call o =>
    obtain ⟨rfl, heq⟩ := Option.ite_none_right_eq_some.mp hs
    cases heq
    cases o <;> exact ⟨rfl, Nat.le_of_ble_eq_true rfl, Nat.le_of_ble_eq_true rfl⟩
  | run =>
    cases l <;> simp only [step, access, casTail, reduceCtorEq, apply_ite some] at hs
    all_goals
      repeat' split at hs
      all_goals cases hs; exact ⟨rfl, Nat.le_of_ble_eq_true rfl, Nat.le_of_ble_eq_true rfl⟩

end Step

namespace Linked
variable {t : Fin n} {w : World n}

theorem lag_congr {m m' : Mem n} (htail : m'.tail = m.tail)
    (hnext : m'.next (getPtr m.tail) = m.next (getPtr m.tail)) : lag m' = lag m := by
  rw [lag, lag, htail, hnext]

/-- The node behind the one that `tail` points to is the last. -/
theorem Glob.next_tail (hg : Glob w) {ptr : UInt} (h : w.nextPtr w.mem.tail = ptr) (hne : ptr ≠ 0) :
    getPtr (w.mem.next ptr) = 0 := by
  have hsucc : succ w.mem w.tailPtr = some ptr := succ_eq_some.mpr ⟨h, hne⟩
  have hchain := hg.chain
  obtain ⟨L, hL | ⟨b, hL⟩⟩ := hg.lag <;> rw [hL] at hchain
  · cases hsucc.symm.trans hchain.next_eq
  · obtain rfl : ptr = b := Option.some.inj (hsucc.symm.trans hchain.next_eq)
    have hlast : succ w.mem ptr = none := Chain.next_eq (K := L ++ [w.tailPtr]) (by simpa using hchain)
    exact succ_eq_none.mp hlast

theorem lag_casTail (hg : Glob w) {tail : Pointer} {ptr : UInt} (hf : Follow w tail ptr) {l l' : Pc}
    {m : Mem n} {es : List Event} (h : casTail w.mem tail ptr l = (m, l', es)) :
    lag m + es.countP isTail = lag w.mem + es.countP isLink := by
  unfold casTail at h
  split at h
  · next heq =>
    cases h
    subst heq
    obtain ⟨hnext, hne⟩ := hf.2 rfl
    have hbehind : lag w.mem = 1 := if_neg fun h0 => hne (hnext.symm.trans h0)
    have hlast : lag { w.mem with tail := bump ptr w.mem.tail } = 0 := by
      simp only [lag, getPtr_bump]
      exact if_pos (hg.next_tail hnext hne)
    rw [hlast, hbehind]
    rfl
  · cases h
    rfl

/-- A link puts a node behind the one of `tail`, and a compare-exchange on `tail` moves
over it. -/
theorem lag_step (hg : Glob w) {l l' : Pc} (hl : Local t w l) {a : Act} {m : Mem n} {es : List Event}
    (hs : step t a w.mem l = some (m, l', es)) :
    lag m + es.countP isTail = lag w.mem + es.countP isLink := by
  cases a with
  | call o =>
    obtain ⟨-, heq⟩ := Option.ite_none_right_eq_some.mp hs
    cases heq
    rfl
  | run =>
    cases l <;> simp only [step, access, reduceCtorEq] at hs
    case enqNew val =>
      split at hs <;> cases hs
      · next hnew =>
        obtain ⟨i, -, heq⟩ := Option.map_eq_some_iff.mp hnew
        cases heq
        rfl
      · rfl
    case enqStore val node tmp =>
      cases hs
      exact lag_congr rfl (Function.update_of_ne (hg.ne_own hl.1.2 hg.tail_mem) ..)
    case enqLink val node tail next =>
      split at hs <;> cases hs
      · next heq =>
        obtain ⟨hp, hnull, hlast, -⟩ := hl
        subst heq
        obtain ⟨-, htail⟩ := hlast.resolve_right (Nat.lt_irrefl _)
        have hnode : node ≠ 0 := hg.ne_zero (by rw [hp.1.2]; simp)
        have hbefore : lag w.mem = 0 := by
          rw [lag, show getPtr w.mem.tail = getPtr tail from htail]
          exact if_pos hnull
        have hafter : lag { w.mem with
            next := Function.update w.mem.next (getPtr tail) (bump node (w.mem.next (getPtr tail))) } =
              1 := by
          rw [lag, show getPtr w.mem.tail = getPtr tail from htail]
          exact if_neg (by simpa using hnode)
        rw [hbefore, hafter]
        rfl
      · rfl
    case enqHelp val node tail ptr => exact lag_casTail hg hl.2 (Option.some.inj hs)
    case enqSwing node tail => exact lag_casTail hg hl.2 (Option.some.inj hs)
    case deqHelp tail next => exact lag_casTail hg hl.2 (Option.some.inj hs)
    case deqReclaim head val =>
      cases hs
      refine lag_congr ?_ (congrFun ?_ _) <;> unfold reclaim <;> split <;> rfl
    all_goals
      repeat' split at hs
      all_goals cases hs; rfl

end Linked

/-! ## Whole runs -/

/-- The successful compare-exchanges. -/
def swaps (tr : List (Fin n × Event)) : ℕ := number isCas tr

def enqueues (tr : List (Fin n × Event)) : ℕ := number isEnqueue tr

def dequeues (tr : List (Fin n × Event)) : ℕ := number isDequeue tr

structure Tally (tr : List (Fin n × Event)) (c : Config (Fin n) (Mem n) Pc) : Prop where
  swaps : swaps tr = number isTail tr + number isLink tr + number isUnlink tr
  tail : number isTail tr + lag c.mem = number isLink tr
  links : number isLink tr + total (fun l => l.linking.toNat) c ≤ enqueues tr
  unlinks : number isUnlink tr + total (fun l => l.unlinking.toNat) c ≤ dequeues tr

theorem Tally.step {tr : List (Fin n × Event)} {c : Config (Fin n) (Mem n) Pc} (h : Tally tr c)
    {t : Fin n} {m : Mem n} {l : Pc} {es : List Event} (ha : Accounted (c.loc t) l es)
    (hlag : lag m + es.countP isTail = lag c.mem + es.countP isLink) :
    Tally (tr ++ emit t es) (move c t m l) := by
  obtain ⟨h₁, h₂, h₃, h₄⟩ := h
  obtain ⟨hcas, hlink, hunlink⟩ := ha
  unfold MsQueue.swaps enqueues dequeues at *
  constructor
  all_goals simp only [number_append, number_emit, total_move, MsQueue.swaps, enqueues, dequeues,
    move_mem]
  all_goals push_cast
  all_goals omega

theorem tally_of_run (hn : n ≤ 4) {m : Mem n} (hm : ∀ i j, initialFree ≤ j.val → m.freeLists i j = 0)
    {tr : List (Fin n × Event)} {c : Config (Fin n) (Mem n) Pc}
    (hrun : (program n).Run anyStep (start m) tr c) (hwrap : NoWrap tr) : Tally tr c := by
  have hstart := Linked.holds_start hn hm
  induction hrun with
  | start =>
    have hlag : lag (start m).mem = 0 := by
      simp [lag, start, initQueue]
    exact ⟨rfl, (Nat.zero_add _).trans hlag, by simp [total, start, Pc.linking, number, enqueues],
      by simp [total, start, Pc.unlinking, number, dequeues]⟩
  | @step tr c t a m' l es hrun hs _ ih =>
    have hprev := NoWrap.of_append hwrap
    obtain ⟨w, hw⟩ := Linked.outline.sound NoWrap.of_append hstart hrun hprev
    have hmem : w.mem = c.mem := hw.mem
    rw [← hmem] at hs
    have hlag := Linked.lag_step hw.glob (hw.loc t) hs
    exact (ih hprev).step (accounted_step hs) (hmem ▸ hlag)

theorem swaps_le (hn : n ≤ 4) {m : Mem n} (hm : ∀ i j, initialFree ≤ j.val → m.freeLists i j = 0)
    {tr : List (Fin n × Event)} {c : Config (Fin n) (Mem n) Pc}
    (hrun : (program n).Run anyStep (start m) tr c) (hwrap : NoWrap tr) :
    swaps tr ≤ 2 * enqueues tr + dequeues tr := by
  obtain ⟨h₁, h₂, h₃, h₄⟩ := tally_of_run hn hm hrun hwrap
  have hlinks : 0 ≤ total (fun l : Pc => (l.linking.toNat : ℤ)) c := total_nonneg (by simp) c
  have hunlinks : 0 ≤ total (fun l : Pc => (l.unlinking.toNat : ℤ)) c := total_nonneg (by simp) c
  omega

end Cds.MsQueue
