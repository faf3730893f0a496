import CdsBenchmarks.Concurrent.Observe
import CdsBenchmarks.MsQueue.MsQueueStructure

/-! Where the nodes go. A step moves nodes between the chain, the free lists and the calls,
and none is lost, except that `reclaim` drops its node when all slots of its thread are taken. -/

namespace Cds.MsQueue
open Concurrent Program

variable {n : ℕ}

/-- The indices that `init_queue` sets up. -/
def Initial (n : ℕ) (node : UInt) : Prop :=
  node = 1 ∨ ∃ (i : Fin n) (j : Fin maxFreelist), j.val < initialFree ∧ node = initialNode i j

/-- The node of a `reclaim` that finds no empty slot. -/
def dropped (t : Fin n) (_ : Act) (m : Mem n) : Pc → List UInt
  | .deqReclaim head _ => if ∀ i, m.freeLists t i ≠ 0 then [getPtr head] else []
  | _ => []

namespace Linked

/-! ## One step -/

def OnChain (m : Mem n) (node : UInt) : Prop :=
  ∃ L, Chain (succ m) (some (getPtr m.head)) L ∧ node ∈ L

def InFree (m : Mem n) (node : UInt) : Prop := node ≠ 0 ∧ ∃ t i, m.freeLists t i = node

/-- The node is on the chain, free, or held at `l`. -/
def Reached (m : Mem n) (l : Pc) (node : UInt) : Prop :=
  OnChain m node ∨ InFree m node ∨ l.held = some node

variable {t : Fin n} {w : World n} {c : Config (Fin n) (Mem n) Pc} {tr : List (Fin n × Event)}

theorem exists_at_iff (c : Config (Fin n) (Mem n) Pc) (t : Fin n) (node : UInt) :
    (∃ s, At c node s) ↔ Reached c.mem (c.loc t) node ∨ ∃ u, u ≠ t ∧ (c.loc u).held = some node := by
  constructor
  · rintro ⟨_ | ⟨u, i⟩ | u, h⟩
    · exact .inl (.inl h)
    · exact .inl (.inr (.inl ⟨h.1, u, i, h.2⟩))
    · by_cases hu : u = t
      · exact .inl (.inr (.inr (hu ▸ h)))
      · exact .inr ⟨u, hu, h⟩
  · rintro ((h | ⟨hne, u, i, h⟩ | h) | ⟨u, -, h⟩)
    · exact ⟨.chain, h⟩
    · exact ⟨.free u i, hne, h⟩
    · exact ⟨.held t, h⟩
    · exact ⟨.held u, h⟩

theorem onChain_iff {m : Mem n} {L : List UInt} (h : Chain (succ m) (some (getPtr m.head)) L)
    (node : UInt) : OnChain m node ↔ node ∈ L := by
  constructor
  · rintro ⟨K, hK, hnode⟩
    rwa [h.unique hK]
  · exact fun hnode => ⟨L, h, hnode⟩

/-- A step that leaves `head`, the links and the free lists alone. -/
theorem reached_congr {m m' : Mem n} {l l' : Pc} (hhead : m'.head = m.head) (hnext : m'.next = m.next)
    (hfree : m'.freeLists = m.freeLists) (hheld : l'.held = l.held) (node : UInt) :
    Reached m' l' node ↔ Reached m l node := by
  have hsucc : succ m' = succ m := by
    funext i
    unfold succ
    rw [hnext]
  unfold Reached OnChain InFree
  rw [hsucc, hhead, hfree, hheld]

theorem setFree_slot (m : Mem n) (t u : Fin n) (i j : Fin maxFreelist) (node : UInt) :
    (m.setFree t i node).freeLists u j = if u = t ∧ j = i then node else m.freeLists u j :=
  update_slot ..

theorem reached_newNode {val node : UInt} {m : Mem n} (h : newNode t w.mem = some (m, node))
    (i : UInt) : Reached m (.enqValue val node) i ↔ Reached w.mem (.enqNew val) i := by
  obtain ⟨j, hfind, heq⟩ := Option.map_eq_some_iff.mp h
  simp only [Prod.mk.injEq] at heq
  obtain ⟨rfl, rfl⟩ := heq
  have hne : w.mem.freeLists t j ≠ 0 := by simpa using List.find?_some hfind
  have hfree : (InFree (w.mem.setFree t j 0) i ∨ w.mem.freeLists t j = i) ↔ InFree w.mem i := by
    constructor
    · rintro (⟨hi, u, k, hk⟩ | rfl)
      · rw [setFree_slot] at hk
        split at hk
        · exact absurd hk.symm hi
        · exact ⟨hi, u, k, hk⟩
      · exact ⟨hne, t, j, rfl⟩
    · rintro ⟨hi, u, k, hk⟩
      by_cases heq : u = t ∧ k = j
      · obtain ⟨rfl, rfl⟩ := heq
        exact .inr hk
      · exact .inl ⟨hi, u, k, by rw [setFree_slot, if_neg heq, hk]⟩
  unfold Reached
  rw [← hfree]
  simp only [Pc.held, Option.some.injEq, reduceCtorEq, or_false]
  exact Iff.rfl

theorem reached_reclaim {head : Pointer} {val : UInt} (hne : getPtr head ≠ 0)
    (hroom : ¬∀ i, w.mem.freeLists t i ≠ 0) (i : UInt) :
    Reached (reclaim t w.mem (getPtr head)) (.ret (.returnTrue val (getPtr head))) i ↔
      Reached w.mem (.deqReclaim head val) i := by
  obtain ⟨j, hfind⟩ : ∃ j, ((List.finRange maxFreelist).find? fun i => w.mem.freeLists t i = 0) =
      some j := by
    by_contra hnone
    rw [← Option.ne_none_iff_exists', not_not, List.find?_eq_none] at hnone
    exact hroom fun i => by simpa using hnone i (List.mem_finRange i)
  have hempty : w.mem.freeLists t j = 0 := by simpa using List.find?_some hfind
  have hfree : InFree (w.mem.setFree t j (getPtr head)) i ↔ InFree w.mem i ∨ getPtr head = i := by
    constructor
    · rintro ⟨hi, u, k, hk⟩
      rw [setFree_slot] at hk
      split at hk
      · exact .inr hk
      · exact .inl ⟨hi, u, k, hk⟩
    · rintro (⟨hi, u, k, hk⟩ | rfl)
      · refine ⟨hi, u, k, ?_⟩
        rw [setFree_slot, if_neg, hk]
        rintro ⟨rfl, rfl⟩
        exact hi (hk.symm.trans hempty)
      · refine ⟨hne, t, j, ?_⟩
        rw [setFree_slot, if_pos ⟨rfl, rfl⟩]
  unfold reclaim
  rw [hfind]
  unfold Reached
  rw [hfree]
  simp only [Pc.held, Option.some.injEq, reduceCtorEq, or_false]
  exact Iff.rfl

theorem reached_enqStore (hg : Glob w) {val node : UInt} {tmp p : Pointer}
    (hl : Local t w (.enqStore val node tmp)) (i : UInt) :
    Reached { w.mem with next := Function.update w.mem.next node p } (.enqTail val node) i ↔
      Reached w.mem (.enqStore val node tmp) i := by
  have hchain : Chain (succ { w.mem with next := Function.update w.mem.next node p }) (some w.headPtr)
      w.chain :=
    hg.chain.congr fun j hj => succ_congr (Function.update_of_ne (hg.ne_own hl.1.2 hj) ..)
  unfold Reached
  rw [onChain_iff hchain, onChain_iff hg.chain]
  exact Iff.rfl

theorem reached_link (hg : Glob w) {val node : UInt} {tail next : Pointer}
    (hl : Local t w (.enqLink val node tail next)) (heq : w.mem.next (getPtr tail) = next) (i : UInt) :
    Reached { w.mem with next := Function.update w.mem.next (getPtr tail) (bump node next) }
      (.enqSwing node tail) i ↔ Reached w.mem (.enqLink val node tail next) i := by
  obtain ⟨⟨⟨-, hplace⟩, -, hnext⟩, hnull, hlast, -⟩ := hl
  subst heq
  obtain ⟨-, htail⟩ := hlast.resolve_right (Nat.lt_irrefl _)
  obtain ⟨L, hL⟩ := hg.last htail hnull
  have hne : ∀ j ∈ w.chain, j ≠ node := fun j hj => hg.ne_own hplace hj
  have hnode0 : node ≠ 0 := hg.ne_zero (by rw [hplace]; simp)
  have hnodup := hg.nodup
  have hchain := hg.chain
  rw [hL] at hnodup hchain hne
  have hnew : Chain (succ { w.mem with
      next := Function.update w.mem.next (getPtr tail) (bump node (w.mem.next (getPtr tail))) })
      (some w.headPtr) (L ++ [getPtr tail, node]) := by
    have htail : node ≠ getPtr tail := fun h => hne _ (by simp) h.symm
    have hnotin : getPtr tail ∉ L := fun hc =>
      (List.nodup_append.mp hnodup).2.2 _ hc _ (List.mem_singleton_self _) rfl
    exact chain_link hchain hnotin (by simp [Function.update_self]) hnode0
      (by simpa [Function.update_of_ne htail] using hnext) fun j hj => Function.update_of_ne hj ..
  have hold : OnChain w.mem i ↔ i ∈ L ++ [getPtr tail] := onChain_iff hchain i
  unfold Reached
  rw [onChain_iff hnew, hold]
  simp only [InFree, Pc.held, Option.some.injEq, reduceCtorEq, or_false, List.mem_append, List.mem_cons,
    List.not_mem_nil, eq_comm (a := node)]
  grind

theorem reached_unlink (hg : Glob w) {next : Pointer} {val : UInt} (hready : Ready w w.mem.head next)
    (i : UInt) :
    Reached { w.mem with head := bump (getPtr next) w.mem.head } (.deqReclaim w.mem.head val) i ↔
      Reached w.mem (.deqUnlink w.mem.head next val) i := by
  obtain ⟨-, hne, hnext⟩ := hready
  obtain ⟨L, hL⟩ := hg.next_mem hnext hne
  have hchain := hg.chain
  rw [hL] at hchain
  have hnew : Chain (succ { w.mem with head := bump (getPtr next) w.mem.head })
      (some (getPtr (bump (getPtr next) w.mem.head))) (getPtr next :: L) := by
    rw [getPtr_bump]
    have hrest := hchain.2
    rwa [hrest.head?] at hrest
  have hold : OnChain w.mem i ↔ i ∈ w.headPtr :: getPtr next :: L := onChain_iff hchain i
  unfold Reached
  rw [onChain_iff hnew, hold]
  simp only [InFree, Pc.held, Option.some.injEq, reduceCtorEq, or_false, List.mem_cons, World.headPtr,
    eq_comm (a := getPtr w.mem.head)]
  grind

theorem reached_step (hg : Glob w) {l l' : Pc} (hl : Local t w l) {a : Act} {m : Mem n}
    {es : List Event} (hs : step t a w.mem l = some (m, l', es)) (hd : dropped t a w.mem l = [])
    (i : UInt) : Reached m l' i ↔ Reached w.mem l i := by
  cases a with
  | call o =>
    obtain ⟨rfl, rfl, rfl, -⟩ : l = .idle ∧ w.mem = m ∧ o.entry = l' ∧ [Event.call o] = es := by
      simpa [step] using hs
    cases o <;> exact reached_congr rfl rfl rfl rfl i
  | run =>
    cases l <;> simp only [step, access, casTail, reduceCtorEq, apply_ite some] at hs
    case enqNew val =>
      split at hs
      · next hnew =>
        cases hs
        exact reached_newNode hnew i
      · cases hs
        exact reached_congr rfl rfl rfl rfl i
    case enqStore val node tmp =>
      cases hs
      exact reached_enqStore hg hl i
    case enqLink val node tail next =>
      split at hs
      · next heq =>
        cases hs
        exact reached_link hg hl heq i
      · cases hs
        exact reached_congr rfl rfl rfl rfl i
    case deqUnlink head next val =>
      split at hs
      · next heq =>
        obtain ⟨hready, -⟩ := hl.2.2 heq
        subst heq
        cases hs
        exact reached_unlink hg hready i
      · cases hs
        exact reached_congr rfl rfl rfl rfl i
    case deqReclaim head val =>
      cases hs
      have hne : getPtr head ≠ 0 := hg.ne_zero (by rw [hl.2]; simp)
      exact reached_reclaim hne (by simpa [dropped] using hd) i
    case enqCheck val node tail next =>
      split at hs
      · split at hs <;> cases hs <;> exact reached_congr rfl rfl rfl rfl i
      · cases hs
        exact reached_congr rfl rfl rfl rfl i
    case deqCheck head tail next =>
      split at hs
      · split at hs
        · split at hs
          · split at hs <;> cases hs <;> exact reached_congr rfl rfl rfl rfl i
          · cases hs
            exact reached_congr rfl rfl rfl rfl i
        · cases hs
          exact reached_congr rfl rfl rfl rfl i
      · cases hs
        exact reached_congr rfl rfl rfl rfl i
    all_goals (try split at hs) <;> cases hs <;> exact reached_congr rfl rfl rfl rfl i

/-- A `reclaim` on a full list leaves its node nowhere. -/
theorem dropped_step {l l' : Pc} {a : Act} {m m' : Mem n} {es : List Event}
    (hs : step t a m l = some (m', l', es)) (hd : dropped t a m l ≠ []) :
    ∃ head val, l = .deqReclaim head val ∧ m' = m ∧ l'.held = none ∧
      dropped t a m l = [getPtr head] := by
  cases l with
  | deqReclaim head val =>
    have hfull : ∀ i, m.freeLists t i ≠ 0 := by
      by_contra h
      exact hd (if_neg h)
    cases a with
    | call o => simp [step] at hs
    | run =>
      simp only [step, access, Option.some.injEq, Prod.mk.injEq] at hs
      obtain ⟨rfl, rfl, -⟩ := hs
      refine ⟨head, val, rfl, ?_, rfl, if_pos hfull⟩
      unfold reclaim
      rw [List.find?_eq_none.mpr fun i _ => by simpa using hfull i]
  | _ => exact absurd rfl hd

theorem exists_at_step (hw : outline.Holds w tr c) {a : Act} {m : Mem n} {l : Pc} {es : List Event}
    (hs : (program n).step t a c.mem (c.loc t) = some (m, l, es)) (node : UInt) :
    (∃ s, At (move c t m l) node s) ↔ (∃ s, At c node s) ∧ node ∉ dropped t a c.mem (c.loc t) := by
  have hmem : w.mem = c.mem := hw.mem
  have hothers : (∃ u, u ≠ t ∧ ((move c t m l).loc u).held = some node) ↔
      ∃ u, u ≠ t ∧ (c.loc u).held = some node :=
    exists_congr fun u => and_congr_right fun hu => by rw [move_loc_of_ne _ _ _ hu]
  by_cases hd : dropped t a c.mem (c.loc t) = []
  · have hreach := reached_step hw.glob (hw.loc t) (hmem ▸ hs) (hmem ▸ hd) node
    rw [exists_at_iff _ t, exists_at_iff c t, hothers, move_loc_self, move_mem, hreach, hmem, hd]
    simp
  -- the only step that drops a node leaves the memory alone, so the other places are as before
  · obtain ⟨head, val, hpc, rfl, hheld, hdrop⟩ := dropped_step hs hd
    rw [hdrop, List.mem_singleton]
    have hheld' : At c (getPtr head) (.held t) := by simp [At, hpc, Pc.held]
    constructor
    · rintro ⟨s, hs⟩
      have hat : At c node s ∧ s ≠ .held t := by
        cases s with
        | chain | free => exact ⟨hs, by simp⟩
        | held u =>
          by_cases hu : u = t
          · subst hu
            simp [At, hheld] at hs
          · exact ⟨by simpa [At, move_loc_of_ne _ _ _ hu] using hs, by simpa using hu⟩
      refine ⟨⟨s, hat.1⟩, ?_⟩
      rintro rfl
      exact hat.2 (at_unique hw hat.1 hheld')
    · rintro ⟨⟨s, hat⟩, hne⟩
      refine ⟨s, ?_⟩
      cases s with
      | chain | free => exact hat
      | held u =>
        by_cases hu : u = t
        · subst hu
          have heq : getPtr head = node := by simpa [At, hpc, Pc.held] using hat
          exact absurd heq.symm hne
        · simpa [At, move_loc_of_ne _ _ _ hu] using hat

/-! ## Runs -/

theorem exists_at_start (hn : n ≤ 4) {m : Mem n} (hm : ∀ i j, initialFree ≤ j.val → m.freeLists i j = 0)
    (node : UInt) : (∃ s, At (start m) node s) ↔ Initial n node := by
  have hchain : Chain (succ (initQueue m)) (some (getPtr (initQueue m).head)) [1] :=
    (holds_start hn hm).glob.chain
  constructor
  · rintro ⟨_ | ⟨i, j⟩ | t, h⟩
    · exact .inl (List.mem_singleton.mp ((onChain_iff hchain node).mp h))
    · obtain ⟨hne, h⟩ := h
      by_cases hj : j.val < initialFree
      · exact .inr ⟨i, j, hj, h.symm.trans (if_pos hj)⟩
      · have hz : (initQueue m).freeLists i j = m.freeLists i j := if_neg hj
        exact absurd (h.symm.trans (hz.trans (hm i j (Nat.le_of_not_lt hj)))) hne
    · cases h
  · rintro (rfl | ⟨i, j, hj, rfl⟩)
    · exact ⟨.chain, _, hchain, List.mem_singleton_self _⟩
    · refine ⟨.free i j, ?_, if_pos hj⟩
      intro h
      have := (initialNode_range hn i hj).1
      rw [h] at this
      exact absurd this (by decide)

/-- A node is somewhere as long as it has not been dropped. -/
theorem exists_at_run (hn : n ≤ 4) {m : Mem n} (hm : ∀ i j, initialFree ≤ j.val → m.freeLists i j = 0)
    {tr : List (Fin n × (Event ⊕ UInt))}
    (hrun : ((program n).observe dropped).Run anyStep (start m) tr c) (hwrap : NoWrap (events tr)) :
    (∀ node, (∃ s, At c node s) ↔ Initial n node ∧ ∀ t, (t, node) ∉ notes tr) ∧
      ∀ t node, (t, node) ∈ notes tr → Initial n node := by
  induction hrun with
  | start => exact ⟨fun node => by simp [exists_at_start hn hm, notes], by simp [notes]⟩
  | @step tr c t a m' l es hrun hs _ ih =>
    obtain ⟨es, hs', rfl⟩ := observe_step hs
    rw [events_append] at hwrap
    have hprev := NoWrap.of_append hwrap
    obtain ⟨w, hw⟩ := outline.sound NoWrap.of_append (holds_start hn hm) hrun.events hprev
    obtain ⟨hat, hinit⟩ := ih hprev
    have hnotes : ∀ u node, (u, node) ∈ emit t (dropped t a c.mem (c.loc t)) ↔
        u = t ∧ node ∈ dropped t a c.mem (c.loc t) := by
      intro u node
      simp [emit, and_comm, eq_comm]
    constructor
    · intro node
      rw [exists_at_step hw hs', hat, notes_append, notes_emit]
      simp only [List.mem_append, hnotes, not_or, not_and, forall_and, and_assoc, forall_eq]
    · intro u node h
      rw [notes_append, notes_emit, List.mem_append, hnotes] at h
      rcases h with h | ⟨rfl, h⟩
      · exact hinit u node h
      · -- the node was in the call's hands
        obtain ⟨head, val, hpc, -, -, hdrop⟩ := dropped_step hs' (List.ne_nil_of_mem h)
        obtain rfl : node = getPtr head := List.mem_singleton.mp (hdrop ▸ h)
        exact ((hat _).mp ⟨.held u, by simp [At, hpc, Pc.held]⟩).1

end Linked

/-- **Which nodes are kept.** When no call is in progress, every node that `init_queue` set up
is in exactly one place, the chain or a slot of a free list, if and only if no `reclaim` has
found all slots of its thread taken. -/
theorem kept_iff_not_dropped (hn : n ≤ 4) {m : Mem n}
    (hm : ∀ i j, initialFree ≤ j.val → m.freeLists i j = 0) {tr : List (Fin n × (Event ⊕ UInt))}
    {c : Config (Fin n) (Mem n) Pc} (hrun : ((program n).observe dropped).Run anyStep (start m) tr c)
    (hwrap : NoWrap (events tr)) (hidle : ∀ t, c.loc t = .idle) :
    (∀ node, Initial n node → ∃ s, At c node s ∧ (∀ t, s ≠ .held t) ∧ ∀ s', At c node s' → s' = s) ↔
      notes tr = [] := by
  obtain ⟨w, hw⟩ := Linked.outline.sound NoWrap.of_append (Linked.holds_start hn hm) hrun.events hwrap
  obtain ⟨hat, hinit⟩ := Linked.exists_at_run hn hm hrun hwrap
  constructor
  · intro h
    apply List.eq_nil_iff_forall_not_mem.mpr
    rintro ⟨t, node⟩ hmem
    obtain ⟨s, hs, -⟩ := h node (hinit t node hmem)
    exact ((hat node).mp ⟨s, hs⟩).2 t hmem
  · intro h node hnode
    obtain ⟨s, hs⟩ := (hat node).mpr ⟨hnode, by simp [h]⟩
    refine ⟨s, hs, ?_, fun s' hs' => Linked.at_unique hw hs' hs⟩
    rintro t rfl
    simp [At, hidle, Pc.held] at hs

/-- The theorem after an enqueue and a dequeue by different threads. -/
theorem kept_iff_not_dropped_moved : ∃ (tr : List (Fin 2 × (Event ⊕ UInt)))
    (c : Config (Fin 2) (Mem 2) Pc), ((program 2).observe dropped).Run anyStep (start (zeroed 2)) tr c ∧
    occurrences .unlink (events tr) = 1 ∧ ∀ node, Initial 2 node →
      ∃ s, At c node s ∧ (∀ t, s ≠ .held t) ∧ ∀ s', At c node s' → s' = s := by
  have h₀ : ((program 2).observe dropped).Run anyStep (start (zeroed 2)) [] (start (zeroed 2)) := .start
  have h₁ := h₀.solo 0 (.call (.enqueue 7) :: List.replicate 10 .run) _ _ _ rfl
  have h₂ := h₁.solo 1 (.call .dequeue :: List.replicate 8 .run) _ _ _ rfl
  have hkept := kept_iff_not_dropped (by decide) (fun _ _ _ => rfl) h₂
    (fun c => Nat.lt_of_le_of_lt List.countP_le_length (by decide)) (by decide)
  exact ⟨_, _, h₂, by decide, hkept.mpr rfl⟩

/-- Thread `0` dequeues three elements of the others: its list has two free slots, and the
third node removed is nowhere. -/
theorem node_lost : ∃ (tr : List (Fin 3 × Event)) (c : Config (Fin 3) (Mem 3) Pc),
    (program 3).Run anyStep (start (zeroed 3)) tr c ∧ (∀ t, c.loc t = .idle) ∧
      Initial 3 7 ∧ ∀ s, ¬At c 7 s := by
  have h₀ : ((program 3).observe dropped).Run anyStep (start (zeroed 3)) [] (start (zeroed 3)) := .start
  have h₁ := h₀.solo 1 (.call (.enqueue 1) :: List.replicate 10 .run) _ _ _ rfl
  have h₂ := h₁.solo 1 (.call (.enqueue 2) :: List.replicate 10 .run) _ _ _ rfl
  have h₃ := h₂.solo 2 (.call (.enqueue 3) :: List.replicate 10 .run) _ _ _ rfl
  have h₄ := h₃.solo 0 (.call .dequeue :: List.replicate 8 .run) _ _ _ rfl
  have h₅ := h₄.solo 0 (.call .dequeue :: List.replicate 8 .run) _ _ _ rfl
  have h₆ := h₅.solo 0 (.call .dequeue :: List.replicate 8 .run) _ _ _ rfl
  have hat := (Linked.exists_at_run (by decide) (fun _ _ _ => rfl) h₆
    fun c => Nat.lt_of_le_of_lt List.countP_le_length (by decide)).1 7
  refine ⟨_, _, h₆.events, by decide, .inr ⟨1, (1 : Fin 4), by decide, by decide⟩, fun s hs => ?_⟩
  exact (hat.mp ⟨s, hs⟩).2 0 (by decide)

end Cds.MsQueue
