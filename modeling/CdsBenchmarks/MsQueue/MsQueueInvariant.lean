import CdsBenchmarks.Concurrent.Chain
import CdsBenchmarks.MsQueue.MsQueueDefs

/-! What holds of the linked queue between steps and at each point of a call. A thread that
has read `head` or `tail` knows something about the nodes only while the word has not
changed since, which its counter tells. -/

namespace Cds.MsQueue
open Concurrent Program

variable {n : ℕ}

/-- The node that `next` of node `i` points to. -/
def succ (m : Mem n) (i : UInt) : Option UInt :=
  if getPtr (m.next i) = 0 then none else some (getPtr (m.next i))

abbrev count (p : Pointer) : ℕ := (getCount p).toNat

namespace Linked

/-- Where a node is. -/
inductive Place (n : ℕ)
  | none
  | chain
  | own (t : Fin n)
  | free (t : Fin n) (i : Fin maxFreelist)
  | lost

/-- `chain` lists the nodes from `head`. -/
structure World (n : ℕ) where
  mem : Mem n
  hist : List (Fin n × Event)
  fifo : Fifo (Fin n)
  chain : List UInt
  place : UInt → Place n

abbrev World.headPtr (w : World n) : UInt := getPtr w.mem.head

abbrev World.tailPtr (w : World n) : UInt := getPtr w.mem.tail

/-- The node that follows the one a word points to. -/
abbrev World.nextPtr (w : World n) (p : Pointer) : UInt := getPtr (w.mem.next (getPtr p))

structure Glob (w : World n) : Prop where
  fifo : MsQueue.fifo w.hist = some w.fifo
  chain : Chain (succ w.mem) (some w.headPtr) w.chain
  nodup : w.chain.Nodup
  lag : ∃ L, w.chain = L ++ [w.tailPtr] ∨ ∃ b, w.chain = L ++ [w.tailPtr, b]
  queue : w.fifo.queue = w.chain.tail.map w.mem.value
  placed : ∀ i ∈ w.chain, w.place i = .chain
  free : ∀ t j, w.mem.freeLists t j ≠ 0 → w.place (w.mem.freeLists t j) = .free t j
  range : ∀ i, w.place i ≠ .none → 1 ≤ i.toNat ∧ i.toNat ≤ maxNodes + 1
  countHead : count w.mem.head = occurrences (.cas .head) w.hist
  countTail : count w.mem.tail = occurrences (.cas .tail) w.hist
  countNext : ∀ i, w.place i ≠ .none → count (w.mem.next i) = occurrences (.cas (.next i)) w.hist

/-- `p` is an earlier value of a word that is now `q`. -/
def Seen (p q : Pointer) : Prop := count p < count q ∨ p = q

section Local
variable (t : Fin n) (w : World n)

/-- `P` holds if `tail` has not changed since it was read as `p`. -/
def TailAt (p : Pointer) (P : Prop) : Prop := Seen p w.mem.tail ∧ (w.mem.tail = p → P)

def HeadAt (p : Pointer) (P : Prop) : Prop := Seen p w.mem.head ∧ (w.mem.head = p → P)

def Enqueueing (val node : UInt) : Prop := w.fifo.status t = .enqueueing val ∧ w.place node = .own t

/-- The node is ready to be linked. -/
def Prepared (val node : UInt) : Prop :=
  Enqueueing t w val node ∧ w.mem.value node = val ∧ getPtr (w.mem.next node) = 0

/-- The node that `tail` points to is the last one, unless its `next` has changed. -/
def Last (tail next : Pointer) : Prop :=
  w.mem.next (getPtr tail) = next ∧ w.tailPtr = getPtr tail ∨
    count next < count (w.mem.next (getPtr tail))

/-- The node `ptr` comes after the one that `tail` points to. -/
def Follow (tail : Pointer) (ptr : UInt) : Prop := TailAt w tail (w.nextPtr tail = ptr ∧ ptr ≠ 0)

def Dequeueing : Prop := ∃ empty, w.fifo.status t = .dequeueing empty

/-- The first node can go, and `next` points to the one after it. -/
def Ready (head next : Pointer) : Prop :=
  w.tailPtr ≠ getPtr head ∧ getPtr next ≠ 0 ∧ w.nextPtr head = getPtr next

/-- The call can return `r`. -/
def Returns : Res → Prop
  | .void => w.fifo.status t = .enqueued
  | .returnFalse => w.fifo.status t = .dequeueing true
  | .returnTrue val _ => w.fifo.status t = .dequeued val

def Local : Pc → Prop
  | .idle => w.fifo.status t = .idle
  | .enqNew val => w.fifo.status t = .enqueueing val
  | .enqValue val node => Enqueueing t w val node
  | .enqLoad val node => Enqueueing t w val node ∧ w.mem.value node = val
  | .enqStore val node tmp => Enqueueing t w val node ∧ w.mem.value node = val ∧ w.mem.next node = tmp
  | .enqTail val node => Prepared t w val node
  | .enqNext val node tail => Prepared t w val node ∧ Seen tail w.mem.tail
  | .enqCheck val node tail next => Prepared t w val node ∧
      TailAt w tail (w.mem.next (getPtr tail) = next ∨
        count next < count (w.mem.next (getPtr tail)) ∧ w.nextPtr tail ≠ 0)
  | .enqLink val node tail next => Prepared t w val node ∧ getPtr next = 0 ∧ Last w tail next ∧
      TailAt w tail (w.mem.next (getPtr tail) = next ∨ w.nextPtr tail ≠ 0)
  | .enqReload val node tail => Prepared t w val node ∧ TailAt w tail (w.nextPtr tail ≠ 0)
  | .enqHelp val node tail ptr => Prepared t w val node ∧ Follow w tail ptr
  | .enqSwing node tail => w.fifo.status t = .enqueued ∧ Follow w tail node
  | .deqHead => Dequeueing t w
  | .deqTail head => Dequeueing t w ∧ Seen head w.mem.head
  | .deqNext head tail => Dequeueing t w ∧ Seen tail w.mem.tail ∧
      HeadAt w head (getPtr head ≠ getPtr tail → w.tailPtr ≠ getPtr head)
  | .deqCheck head tail next => Dequeueing t w ∧ Seen tail w.mem.tail ∧
      HeadAt w head ((getPtr head ≠ getPtr tail → w.tailPtr ≠ getPtr head ∧ getPtr next ≠ 0) ∧
        (getPtr next ≠ 0 → w.nextPtr head = getPtr next) ∧
        (getPtr next = 0 → w.fifo.status t = .dequeueing true))
  | .deqHelp tail next => Dequeueing t w ∧ Follow w tail (getPtr next)
  | .deqValue head next => Dequeueing t w ∧ HeadAt w head (Ready w head next)
  | .deqUnlink head next val => Dequeueing t w ∧
    HeadAt w head (Ready w head next ∧ w.mem.value (getPtr next) = val)
  | .deqReclaim head val => w.fifo.status t = .dequeued val ∧ w.place (getPtr head) = .own t
  | .ret r => Returns t w r
  | .failed => True

end Local

structure Guar (t : Fin n) (w w' : World n) : Prop where
  status : ∀ u, u ≠ t → w'.fifo.status u = w.fifo.status u
  own : ∀ u, u ≠ t → ∀ i, w.place i = .own u → w'.place i = .own u ∧ w'.mem.value i = w.mem.value i ∧
    w'.mem.next i = w.mem.next i
  head : w'.mem.head = w.mem.head ∨ count w.mem.head < count w'.mem.head
  tail : w'.mem.tail = w.mem.tail ∨ count w.mem.tail < count w'.mem.tail ∧ w.nextPtr w.mem.tail ≠ 0
  next : ∀ i ∈ w.chain, w'.mem.next i = w.mem.next i ∨
    getPtr (w.mem.next i) = 0 ∧ count (w.mem.next i) < count (w'.mem.next i) ∧
    getPtr (w'.mem.next i) ≠ 0
  grow : ∀ i, count (w.mem.next i) ≤ count (w'.mem.next i)
  value : ∀ i ∈ w.chain, w'.mem.value i = w.mem.value i
  ahead : w'.mem.head = w.mem.head → w.tailPtr ≠ w.headPtr → w'.tailPtr ≠ w.headPtr

section Chain
variable {w : World n}

theorem succ_eq_none {m : Mem n} {i : UInt} : succ m i = none ↔ getPtr (m.next i) = 0 := by
  simp [succ]

theorem succ_eq_some {m : Mem n} {i j : UInt} : succ m i = some j ↔ getPtr (m.next i) = j ∧ j ≠ 0 := by
  unfold succ
  split
  · next h => simp only [h, reduceCtorEq, false_iff]; rintro ⟨rfl, hj⟩; exact hj rfl
  · next h => simp only [Option.some.injEq]; exact ⟨fun heq => ⟨heq, heq ▸ h⟩, And.left⟩

theorem Glob.tail_mem (hg : Glob w) : w.tailPtr ∈ w.chain := by
  obtain ⟨L, h | ⟨b, h⟩⟩ := hg.lag <;> simp [h]

theorem Glob.head_eq (hg : Glob w) : w.chain.head? = some w.headPtr := hg.chain.head?.symm

theorem Glob.head_mem (hg : Glob w) : w.headPtr ∈ w.chain := List.mem_of_mem_head? hg.head_eq

/-- The chain from `head` on. -/
theorem Glob.split (hg : Glob w) : ∃ L, w.chain = w.headPtr :: L ∧ succ w.mem w.headPtr = L.head? := by
  have hchain := hg.chain
  cases hc : w.chain with
  | nil =>
    rw [hc] at hchain
    cases hchain
  | cons a L =>
    rw [hc] at hchain
    obtain ⟨heq, hL⟩ := hchain
    obtain rfl := Option.some.inj heq
    exact ⟨L, rfl, hL.head?⟩

/-- A node with a successor is followed by it in the chain. -/
theorem Glob.next_mem (hg : Glob w) {next : UInt} (h : getPtr (w.mem.next w.headPtr) = next)
    (hne : next ≠ 0) : ∃ L, w.chain = w.headPtr :: next :: L := by
  obtain ⟨L, hL, hsucc⟩ := hg.split
  rw [succ_eq_some.mpr ⟨h, hne⟩] at hsucc
  cases L with
  | nil => cases hsucc
  | cons b L =>
    obtain rfl := Option.some.inj hsucc
    exact ⟨L, hL⟩

end Chain

section Stable
variable {t u : Fin n} {w w' : World n}

theorem Seen.stable {p q q' : Pointer} (h : Seen p q) (hq : q' = q ∨ count q < count q') :
    Seen p q' := by
  rcases hq with rfl | hlt
  · exact h
  · rcases h with h | rfl
    · exact .inl (Nat.lt_trans h hlt)
    · exact .inl hlt

theorem Seen.same {p q q' : Pointer} (h : Seen p q) (hq : q' = q ∨ count q < count q') (heq : q' = p) :
    q' = q := by
  subst heq
  rcases hq with hq | hlt
  · exact hq
  · rcases h with h | h
    · omega
    · exact h

theorem Guar.tail_mono (hgu : Guar t w w') :
    w'.mem.tail = w.mem.tail ∨ count w.mem.tail < count w'.mem.tail :=
  hgu.tail.imp_right And.left

theorem TailAt.stable (hgu : Guar t w w') {p : Pointer} {P Q : Prop} (h : TailAt w p P)
    (hPQ : w'.mem.tail = w.mem.tail → w.mem.tail = p → P → Q) : TailAt w' p Q := by
  refine ⟨h.1.stable hgu.tail_mono, fun heq => ?_⟩
  have hsame := h.1.same hgu.tail_mono heq
  exact hPQ hsame (hsame.symm.trans heq) (h.2 (hsame.symm.trans heq))

theorem HeadAt.stable (hgu : Guar t w w') {p : Pointer} {P Q : Prop} (h : HeadAt w p P)
    (hPQ : w'.mem.head = w.mem.head → w.mem.head = p → P → Q) : HeadAt w' p Q := by
  refine ⟨h.1.stable hgu.head, fun heq => ?_⟩
  have hsame := h.1.same hgu.head heq
  exact hPQ hsame (hsame.symm.trans heq) (h.2 (hsame.symm.trans heq))

/-- A successor in the chain stays. -/
theorem Guar.next_same (hgu : Guar t w w') {i : UInt} (hi : i ∈ w.chain)
    (hne : getPtr (w.mem.next i) ≠ 0) : w'.mem.next i = w.mem.next i :=
  (hgu.next i hi).resolve_right fun h => hne h.1

theorem Guar.nextPtr_same (hgu : Guar t w w') {p : Pointer} {ptr : UInt} (hi : getPtr p ∈ w.chain)
    (h : w.nextPtr p = ptr) (hne : ptr ≠ 0) : w'.nextPtr p = ptr := by
  subst h
  unfold World.nextPtr
  rw [hgu.next_same hi hne]

theorem Guar.next_ne (hgu : Guar t w w') {i : UInt} (hi : i ∈ w.chain)
    (hne : getPtr (w.mem.next i) ≠ 0) : getPtr (w'.mem.next i) ≠ 0 := by
  rwa [hgu.next_same hi hne]

theorem Enqueueing.stable (hgu : Guar t w w') (hu : u ≠ t) {val node : UInt}
    (h : Enqueueing u w val node) : Enqueueing u w' val node :=
  ⟨(hgu.status u hu).trans h.1, (hgu.own u hu node h.2).1⟩

theorem Prepared.stable (hgu : Guar t w w') (hu : u ≠ t) {val node : UInt} (h : Prepared u w val node) :
    Prepared u w' val node := by
  obtain ⟨-, hval, hnext⟩ := hgu.own u hu node h.1.2
  exact ⟨h.1.stable hgu hu, hval.trans h.2.1, by rw [hnext]; exact h.2.2⟩

theorem Follow.stable (hg : Glob w) (hgu : Guar t w w') {tail : Pointer} {ptr : UInt}
    (h : Follow w tail ptr) : Follow w' tail ptr := by
  refine TailAt.stable hgu h fun _ heq hP => ?_
  subst heq
  exact ⟨hgu.nextPtr_same hg.tail_mem hP.1 hP.2, hP.2⟩

theorem Dequeueing.stable (hgu : Guar t w w') (hu : u ≠ t) (h : Dequeueing u w) : Dequeueing u w' :=
  h.imp fun _ => (hgu.status u hu).trans

theorem Ready.stable (hg : Glob w) (hgu : Guar t w w') {next : Pointer}
    (hsame : w'.mem.head = w.mem.head) (h : Ready w w.mem.head next) : Ready w' w.mem.head next := by
  exact ⟨hgu.ahead hsame h.1, h.2.1, hgu.nextPtr_same hg.head_mem h.2.2 h.2.1⟩

theorem Last.stable (hg : Glob w) (hgu : Guar t w w') {tail next : Pointer} (hnull : getPtr next = 0)
    (h : Last w tail next) : Last w' tail next := by
  rcases h with ⟨hnext, htail⟩ | hlt
  · have hmem : getPtr tail ∈ w.chain := htail ▸ hg.tail_mem
    have hsame : w'.mem.tail = w.mem.tail := by
      refine hgu.tail.resolve_right fun h => h.2 ?_
      rw [World.nextPtr, show getPtr w.mem.tail = getPtr tail from htail, hnext]
      exact hnull
    rcases hgu.next _ hmem with hsame' | ⟨-, hlt, -⟩
    · exact .inl ⟨hsame'.trans hnext, (congrArg getPtr hsame).trans htail⟩
    · exact .inr (hnext ▸ hlt)
  · exact .inr (Nat.lt_of_lt_of_le hlt (hgu.grow _))

theorem Local.stable {l : Pc} (hu : u ≠ t) (hg : Glob w) (hl : Local u w l) (hgu : Guar t w w') :
    Local u w' l := by
  have hst := hgu.status u hu
  cases l with
  | idle | enqNew => exact hst.trans hl
  | enqValue => exact Enqueueing.stable hgu hu hl
  | enqLoad val node =>
    obtain ⟨-, hval, -⟩ := hgu.own u hu node hl.1.2
    exact ⟨hl.1.stable hgu hu, hval.trans hl.2⟩
  | enqStore val node tmp =>
    obtain ⟨-, hval, hnext⟩ := hgu.own u hu node hl.1.2
    exact ⟨hl.1.stable hgu hu, hval.trans hl.2.1, hnext.trans hl.2.2⟩
  | enqTail => exact Prepared.stable hgu hu hl
  | enqNext => exact ⟨hl.1.stable hgu hu, hl.2.stable hgu.tail_mono⟩
  | enqCheck val node tail next =>
    refine ⟨hl.1.stable hgu hu, hl.2.stable hgu fun _ heq h => ?_⟩
    subst heq
    rcases h with rfl | ⟨hlt, hne⟩
    · exact (hgu.next _ hg.tail_mem).imp_right And.right
    · exact .inr ⟨Nat.lt_of_lt_of_le hlt (hgu.grow _), hgu.next_ne hg.tail_mem hne⟩
  | enqLink val node tail next =>
    obtain ⟨hp, hnull, hlast, htail⟩ := hl
    refine ⟨hp.stable hgu hu, hnull, hlast.stable hg hgu hnull, htail.stable hgu fun _ heq h => ?_⟩
    subst heq
    rcases h with rfl | hne
    · exact (hgu.next _ hg.tail_mem).imp_right fun h => h.2.2
    · exact .inr (hgu.next_ne hg.tail_mem hne)
  | enqReload val node tail =>
    refine ⟨hl.1.stable hgu hu, hl.2.stable hgu fun _ heq h => ?_⟩
    subst heq
    exact hgu.next_ne hg.tail_mem h
  | enqHelp => exact ⟨hl.1.stable hgu hu, hl.2.stable hg hgu⟩
  | enqSwing => exact ⟨hst.trans hl.1, hl.2.stable hg hgu⟩
  | deqHead => exact Dequeueing.stable hgu hu hl
  | deqTail => exact ⟨hl.1.stable hgu hu, hl.2.stable hgu.head⟩
  | deqNext head tail =>
    refine ⟨hl.1.stable hgu hu, hl.2.1.stable hgu.tail_mono,
      hl.2.2.stable hgu fun hsame heq h hne => ?_⟩
    subst heq
    exact hgu.ahead hsame (h hne)
  | deqCheck head tail next =>
    refine ⟨hl.1.stable hgu hu, hl.2.1.stable hgu.tail_mono, hl.2.2.stable hgu fun hsame heq h => ?_⟩
    subst heq
    obtain ⟨hne, hnext, hempty⟩ := h
    exact ⟨fun h => ⟨hgu.ahead hsame (hne h).1, (hne h).2⟩,
      fun h => hgu.nextPtr_same hg.head_mem (hnext h) h,
      fun h => hst.trans (hempty h)⟩
  | deqHelp => exact ⟨hl.1.stable hgu hu, hl.2.stable hg hgu⟩
  | deqValue head next =>
    refine ⟨hl.1.stable hgu hu, hl.2.stable hgu fun hsame heq h => ?_⟩
    subst heq
    exact h.stable hg hgu hsame
  | deqUnlink head next val =>
    refine ⟨hl.1.stable hgu hu, hl.2.stable hgu fun hsame heq h => ?_⟩
    subst heq
    obtain ⟨L, hL⟩ := hg.next_mem h.1.2.2 h.1.2.1
    exact ⟨h.1.stable hg hgu hsame, (hgu.value _ (by simp [hL])).trans h.2⟩
  | deqReclaim head val => exact ⟨hst.trans hl.1, (hgu.own u hu _ hl.2).1⟩
  | ret r => cases r <;> exact hst.trans hl
  | failed => trivial

end Stable

end Linked

end Cds.MsQueue
