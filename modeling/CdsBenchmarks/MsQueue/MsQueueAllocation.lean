import CdsBenchmarks.Concurrent.Counting
import CdsBenchmarks.MsQueue.MsQueueStructure
import Mathlib.Algebra.BigOperators.Fin
import Mathlib.Algebra.Order.Group.Multiset
import Mathlib.Tactic.IntervalCases

/-! Allocation by itself: the threads call `new_node` and `reclaim` in any order after
`init_queue`, on a block for the free lists with any content. `init_queue` writes only the
first slots of each list, and both functions take what is in the others for nodes. -/

namespace Cds.MsQueue
open Concurrent Program

variable {n : ℕ}

inductive AllocAct
  | newNode
  | reclaim (node : UInt)
deriving DecidableEq, Repr

inductive AllocEvent
  /-- The return of `new_node`. -/
  | handed (node : UInt)
  /-- The failed assertion of `new_node`. -/
  | failed
  /-- A call of `reclaim`; `kept` says whether there was a slot for the node. -/
  | reclaimed (node : UInt) (kept : Bool)
deriving DecidableEq, Repr

/-- A whole call of thread `t`, on its own free list. -/
def allocStep (t : Fin n) (a : AllocAct) (m : Mem n) (_ : Unit) :
    Option (Mem n × Unit × List AllocEvent) :=
  match a with
  | .newNode =>
    match newNode t m with
    | some (m, node) => some (m, (), [.handed node])
    | none => some (m, (), [.failed])
  | .reclaim node =>
    some (reclaim t m node, (),
      [.reclaimed node ((List.finRange maxFreelist).any fun i => m.freeLists t i = 0)])

variable (n) in
def allocProgram : Program (Fin n) (Mem n) Unit AllocAct AllocEvent := ⟨allocStep⟩

def allocStart (m : Mem n) : Config (Fin n) (Mem n) Unit := ⟨initQueue m, fun _ => ()⟩

/-! ## What the calls have done -/

/-- The nodes on each thread's list, and those handed out and not reclaimed since. -/
structure Books (n : ℕ) where
  listed : Fin n → Multiset UInt
  outstanding : Multiset UInt

/-- After `init_queue`; the initial dummy is in the queue. -/
def initialBooks (n : ℕ) : Books n :=
  ⟨fun t => {initialNode t ⟨0, by decide⟩, initialNode t ⟨1, by decide⟩}, {1}⟩

def Books.next (b : Books n) (t : Fin n) : AllocEvent → Books n
  | .handed node => ⟨Function.update b.listed t ((b.listed t).erase node), node ::ₘ b.outstanding⟩
  | .failed => b
  | .reclaimed node true =>
    ⟨Function.update b.listed t (node ::ₘ b.listed t), b.outstanding.erase node⟩
  | .reclaimed node false => ⟨b.listed, b.outstanding.erase node⟩

def books (tr : List (Fin n × AllocEvent)) : Books n :=
  tr.foldl (fun b e => b.next e.1 e.2) (initialBooks n)

/-- `new_node` hands out a node of the thread's list, which is an index of the array and not
in use, or fails its assertion because the list is empty. -/
def Books.Allows (b : Books n) (t : Fin n) : AllocEvent → Prop
  | .handed node => node ∈ b.listed t ∧ InRange node ∧ node ∉ b.outstanding
  | .failed => b.listed t = 0
  | .reclaimed _ _ => True

/-- `reclaim` is given only a node handed out and not reclaimed since, or the initial dummy. -/
def Disciplined (tr : List (Fin n × AllocEvent)) : Prop :=
  ∀ tr' t node kept, tr' ++ [(t, .reclaimed node kept)] <+: tr → node ∈ (books tr').outstanding

def Sound (tr : List (Fin n × AllocEvent)) : Prop :=
  ∀ tr' t e, tr' ++ [(t, e)] <+: tr → (books tr').Allows t e

theorem books_snoc (tr : List (Fin n × AllocEvent)) (t : Fin n) (e : AllocEvent) :
    books (tr ++ [(t, e)]) = (books tr).next t e := by
  simp [books]

theorem sound_snoc {tr : List (Fin n × AllocEvent)} {t : Fin n} {e : AllocEvent} :
    Sound (tr ++ [(t, e)]) ↔ Sound tr ∧ (books tr).Allows t e := by
  constructor
  · intro h
    exact ⟨fun tr' u e' hp => h tr' u e' (hp.trans (List.prefix_append ..)),
      h tr t e (List.prefix_refl _)⟩
  · rintro ⟨h, he⟩ tr' u e' hp
    rcases List.prefix_concat_iff.mp hp with heq | hp
    · obtain ⟨rfl, hlast⟩ := List.append_inj' heq rfl
      cases hlast
      exact he
    · exact h tr' u e' hp

theorem disciplined_snoc {tr : List (Fin n × AllocEvent)} {t : Fin n} {e : AllocEvent} :
    Disciplined (tr ++ [(t, e)]) ↔ Disciplined tr ∧
      ∀ node kept, e = .reclaimed node kept → node ∈ (books tr).outstanding := by
  constructor
  · intro h
    refine ⟨fun tr' u node kept hp => h tr' u node kept (hp.trans (List.prefix_append ..)), ?_⟩
    rintro node kept rfl
    exact h tr t node kept (List.prefix_refl _)
  · rintro ⟨h, he⟩ tr' u node kept hp
    rcases List.prefix_concat_iff.mp hp with heq | hp
    · obtain ⟨rfl, hlast⟩ := List.append_inj' heq rfl
      cases hlast
      exact he node kept rfl
    · exact h tr' u node kept hp

theorem disciplined_of_no_reclaim {tr : List (Fin n × AllocEvent)}
    (h : ∀ t node kept, (t, .reclaimed node kept) ∉ tr) : Disciplined tr := fun tr' t node kept hp =>
  absurd (hp.subset (List.mem_append_right tr' (List.mem_singleton_self _))) (h t node kept)

/-! ## The slots of a list -/

/-- The nodes in the slots of a free list. -/
def slots (free : Fin maxFreelist → UInt) : Multiset UInt :=
  ∑ i, if free i = 0 then 0 else {free i}

theorem slots_eq (free : Fin maxFreelist → UInt) : slots free =
    (if free ⟨0, by decide⟩ = 0 then 0 else {free ⟨0, by decide⟩}) +
    (if free ⟨1, by decide⟩ = 0 then 0 else {free ⟨1, by decide⟩}) +
    (if free ⟨2, by decide⟩ = 0 then 0 else {free ⟨2, by decide⟩}) +
    (if free ⟨3, by decide⟩ = 0 then 0 else {free ⟨3, by decide⟩}) := Fin.sum_univ_four _

theorem slots_take {free : Fin maxFreelist → UInt} {i : Fin maxFreelist} (hi : free i ≠ 0) :
    slots free = free i ::ₘ slots (Function.update free i 0) := by
  have h := sum_update free (fun x : UInt => if x = 0 then (0 : Multiset UInt) else {x}) i 0
  rw [if_neg hi, if_pos rfl, zero_add, Multiset.singleton_add] at h
  exact h.symm

theorem slots_put {free : Fin maxFreelist → UInt} {i : Fin maxFreelist} (hi : free i = 0) {node : UInt}
    (hnode : node ≠ 0) : slots (Function.update free i node) = node ::ₘ slots free := by
  have h := sum_update free (fun x : UInt => if x = 0 then (0 : Multiset UInt) else {x}) i node
  rw [if_pos hi, if_neg hnode, zero_add, Multiset.singleton_add] at h
  exact h

theorem slots_eq_zero {free : Fin maxFreelist → UInt} (h : ∀ i, free i = 0) : slots free = 0 :=
  Finset.sum_eq_zero fun i _ => if_pos (h i)

/-! ## Blocks with empty spare slots -/

/-- All nodes that can still be handed out or are outstanding. -/
def Books.all (b : Books n) : Multiset UInt := b.outstanding + ∑ t, b.listed t

/-- The books agree with the free lists, and no node is entered twice. -/
structure Balanced (b : Books n) (m : Mem n) : Prop where
  listed : ∀ t, b.listed t = slots (m.freeLists t)
  nodup : b.all.Nodup
  range : ∀ node ∈ b.all, InRange node

variable {b : Books n} {m m' : Mem n} {t : Fin n} {node : UInt}

theorem listed_le_all (b : Books n) (t : Fin n) : b.outstanding + b.listed t ≤ b.all :=
  add_le_add_right (Finset.single_le_sum (fun _ _ => Multiset.zero_le _) (Finset.mem_univ t)) _

theorem find_newNode (h : newNode t m = some (m', node)) :
    ∃ i, m.freeLists t i ≠ 0 ∧ node = m.freeLists t i ∧ m' = m.setFree t i 0 := by
  obtain ⟨i, hfind, heq⟩ := Option.map_eq_some_iff.mp h
  cases heq
  exact ⟨i, by simpa using List.find?_some hfind, rfl, rfl⟩

theorem setFree_freeLists (m : Mem n) (t : Fin n) (i : Fin maxFreelist) (node : UInt) :
    (m.setFree t i node).freeLists =
      Function.update m.freeLists t (Function.update (m.freeLists t) i node) := rfl

/-- A change of the list of `t` in the books and in the memory. -/
theorem listed_update {L : Multiset UInt} {f : Fin maxFreelist → UInt}
    (h : ∀ u, b.listed u = slots (m.freeLists u)) (hL : L = slots f) (u : Fin n) :
    Function.update b.listed t L u = slots (Function.update m.freeLists t f u) := by
  by_cases hu : u = t
  · subst hu
    rw [Function.update_self, Function.update_self, hL]
  · rw [Function.update_of_ne hu, Function.update_of_ne hu, h]

/-- A node that leaves the list of `t` and becomes outstanding, or comes back. -/
theorem sum_listed {f : Fin n → Multiset UInt} {L : Multiset UInt} (h : f t = node ::ₘ L) :
    node ::ₘ ∑ u, Function.update f t L u = ∑ u, f u := by
  have := sum_update f id t L
  simp only [id] at this
  rw [h, Multiset.cons_add, add_comm, ← Multiset.cons_add, add_comm] at this
  exact add_left_cancel this

theorem Balanced.handed (h : Balanced b m) (hnew : newNode t m = some (m', node)) :
    b.Allows t (.handed node) ∧ Balanced (b.next t (.handed node)) m' := by
  obtain ⟨i, hne, rfl, rfl⟩ := find_newNode hnew
  have hlist := (h.listed t).trans (slots_take hne)
  have hmem : m.freeLists t i ∈ b.listed t := hlist ▸ Multiset.mem_cons_self ..
  have hle := listed_le_all b t
  have hin : m.freeLists t i ∈ b.all := Multiset.mem_of_le hle (Multiset.mem_add.mpr (.inr hmem))
  have hdisj := (Multiset.nodup_add.mp (Multiset.nodup_of_le hle h.nodup)).2.2
  have hall : (b.next t (.handed (m.freeLists t i))).all = b.all := by
    rw [Books.next, Books.all, hlist, Multiset.erase_cons_head, Multiset.cons_add,
      ← Multiset.add_cons, sum_listed hlist]
    rfl
  refine ⟨⟨hmem, h.range _ hin, fun ho => Multiset.disjoint_left.mp hdisj ho hmem⟩,
    ⟨fun u => ?_, hall ▸ h.nodup, hall ▸ h.range⟩⟩
  exact listed_update h.listed (by rw [hlist, Multiset.erase_cons_head]) u

theorem Balanced.failed (h : Balanced b m) (hnew : newNode t m = none) : b.Allows t .failed := by
  have hfind := Option.map_eq_none_iff.mp hnew
  rw [List.find?_eq_none] at hfind
  exact (h.listed t).trans (slots_eq_zero fun i => by simpa using hfind i (List.mem_finRange i))

/-- `reclaim` uses an empty slot if there is one. -/
theorem reclaim_cases (t : Fin n) (m : Mem n) (node : UInt) :
    (∃ i, m.freeLists t i = 0 ∧ reclaim t m node = m.setFree t i node ∧
      ((List.finRange maxFreelist).any fun i => m.freeLists t i = 0) = true) ∨
    (reclaim t m node = m ∧
      ((List.finRange maxFreelist).any fun i => m.freeLists t i = 0) = false) := by
  unfold reclaim
  split
  · next i hfind =>
    have hi : m.freeLists t i = 0 := by simpa using List.find?_some hfind
    exact .inl ⟨i, hi, rfl, List.any_eq_true.mpr ⟨i, List.mem_finRange i, by simpa using hi⟩⟩
  · next hfind =>
    rw [List.find?_eq_none] at hfind
    exact .inr ⟨rfl, List.any_eq_false.mpr hfind⟩

theorem Balanced.reclaimed (h : Balanced b m) (ho : node ∈ b.outstanding) :
    Balanced (b.next t (.reclaimed node ((List.finRange maxFreelist).any fun i => m.freeLists t i = 0)))
      (reclaim t m node) := by
  rcases reclaim_cases t m node with ⟨i, hi, heq, hany⟩ | ⟨heq, hany⟩
  · have hrange := h.range node (Multiset.mem_add.mpr (.inl ho))
    have hne : node ≠ 0 := by
      rintro rfl
      exact absurd hrange.1 (by decide)
    have hback : ∑ u, Function.update b.listed t (node ::ₘ b.listed t) u =
        node ::ₘ ∑ u, b.listed u := by
      have hsum := sum_listed (Function.update_self t (node ::ₘ b.listed t) b.listed)
      rw [Function.update_idem, Function.update_eq_self] at hsum
      exact hsum.symm
    have hall : (b.next t (.reclaimed node true)).all = b.all := by
      rw [Books.next, Books.all, hback, Multiset.add_cons, ← Multiset.cons_add,
        Multiset.cons_erase ho]
      rfl
    rw [hany, heq]
    refine ⟨fun u => ?_, hall ▸ h.nodup, hall ▸ h.range⟩
    exact listed_update h.listed (by rw [slots_put hi hne, h.listed]) u
  · have hle : (b.next t (.reclaimed node false)).all ≤ b.all :=
      add_le_add_left (Multiset.erase_le ..) _
    rw [hany, heq]
    exact ⟨h.listed, Multiset.nodup_of_le hle h.nodup,
      fun x hx => h.range x (Multiset.mem_of_le hle hx)⟩

theorem balanced_start (hn : n ≤ 4) (hm : ∀ i j, initialFree ≤ j.val → m.freeLists i j = 0) :
    Balanced (initialBooks n) (initQueue m) where
  listed t := by
    have hspare : ∀ j : Fin maxFreelist, initialFree ≤ j.val → (initQueue m).freeLists t j = 0 :=
      fun j hj => (if_neg (Nat.not_lt.mpr hj)).trans (hm t j hj)
    have hinit : ∀ j : Fin maxFreelist, j.val < initialFree →
        (initQueue m).freeLists t j = initialNode t j := fun j hj => if_pos hj
    rw [slots_eq, hinit ⟨0, _⟩ (by decide), hinit ⟨1, _⟩ (by decide), hspare ⟨2, _⟩ (by decide),
      hspare ⟨3, _⟩ (by decide), if_neg (Linked.initialNode_ne hn t (by decide) (by decide)),
      if_neg (Linked.initialNode_ne hn t (by decide) (by decide)), if_pos rfl, add_zero, add_zero]
    rfl
  nodup := by
    interval_cases n <;> decide
  range node hnode := by
    rcases Multiset.mem_add.mp hnode with h | h
    · obtain rfl := Multiset.mem_singleton.mp h
      exact ⟨by decide, by decide⟩
    · obtain ⟨t, -, h⟩ := Multiset.mem_sum.mp h
      have hinit : ∀ j : Fin maxFreelist, j.val < initialFree → InRange (initialNode t j) := fun j hj =>
        ⟨Nat.le_of_succ_le (Linked.initialNode_range hn t hj).1, (Linked.initialNode_range hn t hj).2⟩
      have h : node ∈
          ({initialNode t ⟨0, by decide⟩, initialNode t ⟨1, by decide⟩} : Multiset UInt) := h
      rw [Multiset.insert_eq_cons, Multiset.mem_cons, Multiset.mem_singleton] at h
      rcases h with rfl | rfl
      · exact hinit _ (by decide)
      · exact hinit _ (by decide)

theorem sound_of_run (hn : n ≤ 4) (hm : ∀ i j, initialFree ≤ j.val → m.freeLists i j = 0)
    {tr : List (Fin n × AllocEvent)} {c : Config (Fin n) (Mem n) Unit}
    (hrun : (allocProgram n).Run anyStep (allocStart m) tr c) (htr : Disciplined tr) :
    Sound tr ∧ Balanced (books tr) c.mem := by
  induction hrun with
  | start =>
    refine ⟨fun tr' t e hp => ?_, balanced_start hn hm⟩
    exact absurd (List.prefix_nil.mp hp) (by simp)
  | @step tr c t a m' l es _ hs _ ih =>
    cases a with
    | newNode =>
      simp only [allocProgram, allocStep] at hs
      split at hs <;> cases hs
      · next hnew =>
        obtain ⟨hsound, hbal⟩ := ih (disciplined_snoc.mp htr).1
        obtain ⟨hallow, hbal'⟩ := hbal.handed hnew
        exact ⟨sound_snoc.mpr ⟨hsound, hallow⟩, by rwa [emit_cons, emit_nil, books_snoc]⟩
      · next hnew =>
        obtain ⟨hsound, hbal⟩ := ih (disciplined_snoc.mp htr).1
        exact ⟨sound_snoc.mpr ⟨hsound, hbal.failed hnew⟩, by rwa [emit_cons, emit_nil, books_snoc]⟩
    | reclaim node =>
      cases hs
      obtain ⟨hsound, hbal⟩ := ih (disciplined_snoc.mp htr).1
      refine ⟨sound_snoc.mpr ⟨hsound, trivial⟩, ?_⟩
      rw [emit_cons, emit_nil, books_snoc]
      exact hbal.reclaimed ((disciplined_snoc.mp htr).2 node _ rfl)

/-! ## Blocks with anything else -/

theorem newNode_of_first {i : Fin maxFreelist} (hi : m.freeLists t i ≠ 0)
    (hfirst : ∀ j < i, m.freeLists t j = 0) :
    newNode t m = some (m.setFree t i 0, m.freeLists t i) := by
  have hfind : (List.finRange maxFreelist).find? (fun j => m.freeLists t j ≠ 0) = some i := by
    rw [List.find?_eq_some_iff_getElem]
    refine ⟨by simpa using hi, i.val, by simp, by simp, fun j hj => ?_⟩
    simpa using hfirst ⟨j, Nat.lt_trans hj i.isLt⟩ hj
  rw [newNode, hfind]
  rfl

theorem allocStep_newNode (h : newNode t m = some (m', node)) :
    (allocProgram n).step t .newNode m () = some (m', (), [.handed node]) := by
  simp only [allocProgram, allocStep, h]

/-- The two nodes that `init_queue` puts on the list of `t`. -/
def initialHanded (t : Fin n) : List (Fin n × AllocEvent) :=
  [(t, .handed (initialNode t ⟨0, by decide⟩)), (t, .handed (initialNode t ⟨1, by decide⟩))]

theorem books_initialHanded (t : Fin n) : (books (initialHanded t)).listed t = 0 := by
  simp [books, initialHanded, Books.next, initialBooks]

/-- Three allocations by one thread: the third takes what `malloc` left in the block. -/
theorem garbage_run (hn : n ≤ 4) (t : Fin n) {j : Fin maxFreelist} (hj : initialFree ≤ j.val)
    (hne : m.freeLists t j ≠ 0) : ∃ node c,
      (allocProgram n).Run anyStep (allocStart m) (initialHanded t ++ [(t, .handed node)]) c := by
  have hinit : ∀ i : Fin maxFreelist, i.val < initialFree →
      (initQueue m).freeLists t i = initialNode t i := fun i hi => if_pos hi
  have hspare : (initQueue m).freeLists t j = m.freeLists t j := if_neg (Nat.not_lt.mpr hj)
  -- the first two slots are emptied in turn
  have hfirst := newNode_of_first (t := t) (m := initQueue m) (i := ⟨0, by decide⟩)
    (by rw [hinit _ (by decide)]; exact Linked.initialNode_ne hn t (by decide) (by decide))
    (fun k hk => absurd hk (Nat.not_lt_zero _))
  rw [hinit _ (by decide)] at hfirst
  have hslot : ((initQueue m).setFree t ⟨0, by decide⟩ 0).freeLists t ⟨1, by decide⟩ =
      initialNode t ⟨1, by decide⟩ := by
    rw [setFree_freeLists, Function.update_self, Function.update_of_ne (by decide), hinit _ (by decide)]
  have hsecond := newNode_of_first (t := t) (m := (initQueue m).setFree t ⟨0, by decide⟩ 0)
    (i := ⟨1, by decide⟩) (by rw [hslot]; exact Linked.initialNode_ne hn t (by decide) (by decide)) (fun k hk => by
      obtain rfl : k = ⟨0, by decide⟩ := Fin.ext (Nat.lt_one_iff.mp hk)
      rw [setFree_freeLists, Function.update_self, Function.update_self])
  rw [hslot] at hsecond
  have hlast :
      (((initQueue m).setFree t ⟨0, by decide⟩ 0).setFree t ⟨1, by decide⟩ 0).freeLists t j ≠ 0 := by
    have h₀ : j ≠ ⟨0, by decide⟩ := by rintro rfl; exact absurd hj (by decide)
    have h₁ : j ≠ ⟨1, by decide⟩ := by rintro rfl; exact absurd hj (by decide)
    rwa [setFree_freeLists, Function.update_self, Function.update_of_ne h₁, setFree_freeLists,
      Function.update_self, Function.update_of_ne h₀, hspare]
  cases hthird : newNode t (((initQueue m).setFree t ⟨0, by decide⟩ 0).setFree t ⟨1, by decide⟩ 0) with
  | none =>
    have hfind := List.find?_eq_none.mp (Option.map_eq_none_iff.mp hthird) j (List.mem_finRange j)
    exact absurd (by simpa using hfind) hlast
  | some r =>
    obtain ⟨m₃, node⟩ := r
    have h₀ : (allocProgram n).Run anyStep (allocStart m) [] (allocStart m) := .start
    have h₁ := h₀.step (t := t) (a := .newNode) (allocStep_newNode hfirst) trivial
    have h₂ := h₁.step (t := t) (a := .newNode) (allocStep_newNode hsecond) trivial
    have h₃ := h₂.step (t := t) (a := .newNode) (allocStep_newNode hthird) trivial
    exact ⟨node, _, h₃⟩

/-- What a call sequence gets is sound for every sequence exactly if `malloc` returned zeros
in the slots that `init_queue` does not write. -/
theorem sound_iff_spare_zero (hn : n ≤ 4) (m : Mem n) :
    (∀ (tr : List (Fin n × AllocEvent)) (c : Config (Fin n) (Mem n) Unit),
      (allocProgram n).Run anyStep (allocStart m) tr c → Disciplined tr → Sound tr) ↔
    ∀ i j, initialFree ≤ j.val → m.freeLists i j = 0 := by
  constructor
  · intro h t j hj
    by_contra hne
    obtain ⟨node, c, hrun⟩ := garbage_run hn t hj hne
    have hdisc : Disciplined (initialHanded t ++ [(t, .handed node)]) :=
      disciplined_of_no_reclaim (by simp [initialHanded])
    have hallow := (sound_snoc.mp (h _ c hrun hdisc)).2
    rw [Books.Allows, books_initialHanded] at hallow
    exact Multiset.notMem_zero _ hallow.1
  · intro hm tr c hrun htr
    exact (sound_of_run hn hm hrun htr).1

/-- On a zeroed block the third `new_node` fails its assertion, and the first node is handed
out again once another thread has reclaimed it for itself. -/
theorem sound_iff_spare_zero_zeroed : ∃ c, (allocProgram 2).Run anyStep (allocStart (zeroed 2))
      [(0, .handed 2), (0, .handed 3), (0, .failed), (1, .reclaimed 2 true), (1, .handed 6)] c ∧
    Sound [((0 : Fin 2), .handed 2), (0, .handed 3), (0, .failed), (1, .reclaimed 2 true),
      (1, .handed 6)] := by
  have h₀ : (allocProgram 2).Run anyStep (allocStart (zeroed 2)) [] (allocStart (zeroed 2)) := .start
  have h₁ := h₀.solo 0 [.newNode, .newNode, .newNode] _ _ [.handed 2, .handed 3, .failed] rfl
  have h₂ := h₁.solo 1 [.reclaim 2, .newNode] _ _ [.reclaimed 2 true, .handed 6] rfl
  refine ⟨_, h₂, (sound_iff_spare_zero (by decide) (zeroed 2)).mpr (fun _ _ _ => rfl) _ _ h₂ ?_⟩
  change Disciplined (([(0, .handed 2), (0, .handed 3), (0, .failed)] ++ [(1, .reclaimed 2 true)]) ++
    [(1, .handed 6)])
  refine disciplined_snoc.mpr
    ⟨disciplined_snoc.mpr ⟨disciplined_of_no_reclaim (by simp), fun node kept heq => ?_⟩, by simp⟩
  cases heq
  decide

/-- A block in which every word is 99. -/
def filled : Mem 1 := { zeroed 1 with freeLists := fun _ _ => 99 }

/-- The third `new_node` returns 99, which is no index of `nodes`. -/
theorem garbage_handed : ∃ c, (allocProgram 1).Run anyStep (allocStart filled)
      [(0, .handed 2), (0, .handed 3), (0, .handed 99)] c ∧
    Disciplined [((0 : Fin 1), .handed 2), (0, .handed 3), (0, .handed 99)] ∧ ¬InRange 99 ∧
    ¬Sound [((0 : Fin 1), .handed 2), (0, .handed 3), (0, .handed 99)] := by
  have h₀ : (allocProgram 1).Run anyStep (allocStart filled) [] (allocStart filled) := .start
  have h₁ := h₀.solo 0 [.newNode, .newNode, .newNode] _ _
    [.handed 2, .handed 3, .handed 99] rfl
  refine ⟨_, h₁, disciplined_of_no_reclaim (by simp), fun h => absurd h.2 (by decide), fun h => ?_⟩
  have hthird := h [(0, .handed 2), (0, .handed 3)] 0 (.handed 99) (List.prefix_refl _)
  exact absurd hthird.2.1.2 (by decide)

end Cds.MsQueue
