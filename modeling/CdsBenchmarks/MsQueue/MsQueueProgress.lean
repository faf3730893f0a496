import CdsBenchmarks.Concurrent.Observe
import CdsBenchmarks.MsQueue.MsQueueSwaps

/-! The retry loops of the queue. An iteration that has to be repeated found a word changed
since it loaded it, or changed one itself; so there are at most as many repetitions of a
thread as compare-exchanges that succeed. -/

namespace Cds.MsQueue
open Concurrent Program

variable {n : ℕ}

/-! ## Marks on the iterations -/

/-- The first load of an iteration of the `while` loop, and the end of one without success
that does not return. -/
inductive Mark
  | first
  | retry
deriving DecidableEq, Repr

/-- Before the first load of an iteration. -/
def Pc.loopHead : Pc → Bool
  | .enqTail _ _ | .deqHead => true
  | _ => false

/-- After it, in the body of the loop. -/
def Pc.inLoop : Pc → Bool
  | .enqNext _ _ _ | .enqCheck _ _ _ _ | .enqLink _ _ _ _ | .enqReload _ _ _ | .enqHelp _ _ _ _
  | .deqTail _ | .deqNext _ _ | .deqCheck _ _ _ | .deqHelp _ _ | .deqValue _ _
  | .deqUnlink _ _ _ => true
  | _ => false

def mark (t : Fin n) (a : Act) (m : Mem n) (l : Pc) : List Mark :=
  if l.loopHead then [.first]
  else if l.inLoop && (step t a m l).any fun r => r.2.1.loopHead then [.retry]
  else []

/-- The last iteration of `t` began at position `i`. -/
def Started (tr : List (Fin n × (Event ⊕ Mark))) (t : Fin n) (i : ℕ) : Prop :=
  tr[i]? = some (t, .inr .first) ∧ ∀ k : ℕ, i < k → tr[k]? ≠ some (t, .inr .first)

/-- Every repeated iteration of `t` contains a successful compare-exchange. -/
def Progressed (tr : List (Fin n × (Event ⊕ Mark))) (t : Fin n) : Prop :=
  ∀ j : ℕ, tr[j]? = some (t, .inr .retry) → ∃ i, Started (tr.take j) t i ∧
    ∃ (k : ℕ) (u : Fin n) (w : Tagged), i < k ∧ k < j ∧ tr[k]? = some (u, .inl (.cas w))

def iterations (tr : List (Fin n × (Event ⊕ Mark))) : ℕ := number (· = .first) (notes tr)

/-! ## One step -/

/-- The call will begin another iteration. -/
def Pc.ahead : Pc → Bool
  | .enqNew _ | .enqValue _ _ | .enqLoad _ _ | .enqStore _ _ _ | .enqTail _ _ | .deqHead => true
  | _ => false

/-- The words that were loaded in this iteration have not changed. -/
def Fresh (m : Mem n) : Pc → Prop
  | .enqNext _ _ tail | .enqCheck _ _ tail _ | .enqLink _ _ tail _ | .enqReload _ _ tail
  | .enqHelp _ _ tail _ | .deqHelp tail _ => m.tail = tail
  | .deqTail head | .deqValue head _ | .deqUnlink head _ _ => m.head = head
  | .deqNext head tail | .deqCheck head tail _ => m.head = head ∧ m.tail = tail
  | _ => True

def isCall : Event → Bool
  | .call _ => true
  | _ => false

section Step
variable {t : Fin n} {a : Act} {m m' : Mem n} {l l' : Pc} {es : List Event}

/-- `head` and `tail` change by compare-exchanges only. -/
theorem step_words (hs : step t a m l = some (m', l', es)) (hes : es.countP isCas = 0) :
    m'.head = m.head ∧ m'.tail = m.tail := by
  cases a with
  | call o =>
    obtain ⟨-, heq⟩ := Option.ite_none_right_eq_some.mp hs
    cases heq
    exact ⟨rfl, rfl⟩
  | run =>
    cases l <;> simp only [step, access, casTail, reduceCtorEq, apply_ite some] at hs
    case enqNew val =>
      split at hs <;> cases hs
      · next hnew =>
        obtain ⟨i, -, heq⟩ := Option.map_eq_some_iff.mp hnew
        cases heq
        exact ⟨rfl, rfl⟩
      · exact ⟨rfl, rfl⟩
    case deqReclaim head val =>
      cases hs
      unfold reclaim
      split <;> exact ⟨rfl, rfl⟩
    all_goals
      repeat' split at hs
      all_goals cases hs; first | exact ⟨rfl, rfl⟩ | simp [isCas] at hes

theorem fresh_congr (hhead : m'.head = m.head) (htail : m'.tail = m.tail) :
    Fresh m' l ↔ Fresh m l := by
  cases l <;> simp only [Fresh, hhead, htail]

/-- A step and its mark, as far as the loops are concerned. -/
inductive LoopStep (m m' : Mem n) (l l' : Pc) (es : List Event) : List Mark → Prop
  | first (hl : l.inLoop = false) (hl' : l'.inLoop = true) (ha : l.ahead = true)
      (ha' : l'.ahead = false) (hf : Fresh m' l') : LoopStep m m' l l' es [.first]
  | inside (hl : l.inLoop = true) (hl' : l'.inLoop = true) (ha' : l'.ahead = false)
      (hf : Fresh m l → Fresh m' l') : LoopStep m m' l l' es []
  | retry (hl : l.inLoop = true) (hl' : l'.inLoop = false)
      (hc : Fresh m l → 0 < es.countP isCas) : LoopStep m m' l l' es [.retry]
  | other (hl' : l'.inLoop = false)
      (ha : l'.ahead.toNat ≤ l.ahead.toNat + es.countP isCall) : LoopStep m m' l l' es []

theorem loop_step (hs : step t a m l = some (m', l', es)) : LoopStep m m' l l' es (mark t a m l) := by
  have hmark : mark t a m l = if l.loopHead then [.first]
      else if l.inLoop && l'.loopHead then [.retry] else [] := by
    rw [mark, hs]
    rfl
  rw [hmark]
  cases a with
  | call o =>
    obtain ⟨rfl, heq⟩ := Option.ite_none_right_eq_some.mp hs
    cases heq
    cases o <;> exact .other rfl (Nat.le_refl _)
  | run =>
    cases l <;> simp only [step, access, casTail, reduceCtorEq, apply_ite some] at hs
    case enqTail | deqHead =>
      cases hs
      exact .first rfl rfl rfl rfl rfl
    -- in the body the words loaded are still there, unless the iteration ends
    all_goals
      repeat' split at hs
      all_goals cases hs
      all_goals first
        | exact .other rfl (Nat.le_of_ble_eq_true rfl)
        | exact .inside rfl rfl rfl id
        | exact .inside rfl rfl rfl And.left
        | exact .inside rfl rfl rfl And.right
        | exact .inside rfl rfl rfl fun hf => ⟨hf, rfl⟩
        | exact .retry rfl rfl fun _ => Nat.zero_lt_one
        | exact .retry rfl rfl fun hf => absurd (hf : _ = _) (by assumption)
        | exact .retry rfl rfl fun hf => absurd (Eq.symm hf) (by assumption)
        | exact .retry rfl rfl fun hf => absurd hf.1 (by assumption)

end Step

/-! ## Positions in the marked trace -/

section Marked
variable {tr : List (Fin n × (Event ⊕ Mark))} {t u : Fin n} {es : List Event} {i k : ℕ}

/-- The events of a step without its mark. -/
abbrev emitEvents (u : Fin n) (es : List Event) : List (Fin n × (Event ⊕ Mark)) :=
  emit u (es.map Sum.inl)

theorem getElem?_emitEvents {x : Mark} :
    (tr ++ emitEvents u es)[k]? = some (t, .inr x) ↔ tr[k]? = some (t, .inr x) := by
  by_cases hk : k < tr.length
  · rw [List.getElem?_append_left hk]
  · have hnone : tr[k]? = none := List.getElem?_eq_none (Nat.le_of_not_lt hk)
    rw [List.getElem?_append_right (Nat.le_of_not_lt hk), hnone]
    simp [emit]

theorem started_emitEvents : Started (tr ++ emitEvents u es) t i ↔ Started tr t i := by
  simp only [Started, getElem?_emitEvents, ne_eq]

theorem started_snoc {x : Mark} (h : Started tr t i) (hx : u = t → x ≠ .first) :
    Started (tr ++ [(u, .inr x)]) t i := by
  refine ⟨(getElem?_snoc ..).mpr (.inl h.1), fun k hk heq => ?_⟩
  rcases (getElem?_snoc ..).mp heq with heq | ⟨-, heq⟩
  · exact h.2 k hk heq
  · cases heq
    exact hx rfl rfl

theorem started_last : Started (tr ++ [(t, .inr .first)]) t tr.length := by
  refine ⟨(getElem?_snoc ..).mpr (.inr ⟨rfl, rfl⟩), fun k hk heq => ?_⟩
  have hlt := lt_of_getElem? heq
  simp only [List.length_append, List.length_singleton] at hlt
  omega

theorem swaps_append (h h' : List (Fin n × Event)) : swaps (h ++ h') = swaps h + swaps h' :=
  number_append

theorem swaps_take_le (tr : List (Fin n × (Event ⊕ Mark))) (i : ℕ) :
    swaps (events (tr.take i)) ≤ swaps (events tr) := by
  conv_rhs => rw [← List.take_append_drop i tr, events_append, swaps_append]
  exact Nat.le_add_right ..

/-- If the number of successful compare-exchanges grew, one is at a position in between. -/
theorem exists_cas (h : swaps (events (tr.take i)) < swaps (events tr)) :
    ∃ (k : ℕ) (u : Fin n) (w : Tagged), i ≤ k ∧ tr[k]? = some (u, .inl (.cas w)) := by
  have hpos : 0 < swaps (events (tr.drop i)) := by
    have hsplit : swaps (events tr) = swaps (events (tr.take i)) + swaps (events (tr.drop i)) := by
      rw [← swaps_append, ← events_append, List.take_append_drop]
    omega
  obtain ⟨⟨u, e⟩, hmem, he⟩ := List.countP_pos_iff.mp hpos
  obtain ⟨⟨u', x⟩, hx, heq⟩ := List.mem_filterMap.mp hmem
  obtain ⟨k, hk⟩ := List.mem_iff_getElem?.mp hx
  rw [List.getElem?_drop] at hk
  cases x with
  | inr x => cases heq
  | inl e' =>
    obtain ⟨rfl, rfl⟩ : u' = u ∧ e' = e := by simpa using heq
    cases e' with
    | cas w => exact ⟨i + k, u', w, Nat.le_add_right .., hk⟩
    | _ => cases he

theorem Progressed.emitEvents (h : Progressed tr t) : Progressed (tr ++ emitEvents u es) t := by
  intro j hj
  have hj' := getElem?_emitEvents.mp hj
  have hlt := lt_of_getElem? hj'
  obtain ⟨i, hi, k, v, w, hik, hkj, hk⟩ := h j hj'
  refine ⟨i, ?_, k, v, w, hik, hkj, ?_⟩
  · rwa [List.take_append_of_le_length (Nat.le_of_lt hlt)]
  · rwa [List.getElem?_append_left (Nat.lt_trans hkj hlt)]

theorem Progressed.snoc {x : Mark} (h : Progressed tr t)
    (hx : u = t → x = .retry → ∃ i, Started tr t i ∧
      ∃ (k : ℕ) (v : Fin n) (w : Tagged), i < k ∧ tr[k]? = some (v, .inl (.cas w))) :
    Progressed (tr ++ [(u, .inr x)]) t := by
  intro j hj
  rcases (getElem?_snoc ..).mp hj with hj | ⟨rfl, heq⟩
  · have hlt := lt_of_getElem? hj
    obtain ⟨i, hi, k, v, w, hik, hkj, hk⟩ := h j hj
    refine ⟨i, ?_, k, v, w, hik, hkj, (getElem?_snoc ..).mpr (.inl hk)⟩
    rwa [List.take_append_of_le_length (Nat.le_of_lt hlt)]
  · cases heq
    obtain ⟨i, hi, k, v, w, hik, hk⟩ := hx rfl rfl
    refine ⟨i, ?_, k, v, w, hik, lt_of_getElem? hk, (getElem?_snoc ..).mpr (.inl hk)⟩
    rwa [List.take_left]

theorem Started.lt (h : Started tr t i) : i < tr.length := lt_of_getElem? h.1

end Marked

/-! ## One thread along a run -/

section Paced
variable {tr : List (Fin n × (Event ⊕ Mark))} {t u : Fin n} {m m' : Mem n} {l l' : Pc}
  {es : List Event}

def retries (tr : List (Fin n × (Event ⊕ Mark))) (t : Fin n) : ℕ :=
  numberOf t (· = .retry) (notes tr)

/-- Up to the iteration that `t` is in, it repeated no more than compare-exchanges succeeded;
and unless one succeeded since, what it loaded is unchanged. -/
structure Paced (tr : List (Fin n × (Event ⊕ Mark))) (t : Fin n) (m : Mem n) (l : Pc) : Prop where
  progressed : Progressed tr t
  outside : l.inLoop = false → retries tr t ≤ swaps (events tr)
  inside : l.inLoop = true → ∃ i, Started tr t i ∧ retries tr t ≤ swaps (events (tr.take i)) ∧
    (swaps (events tr) = swaps (events (tr.take i)) → Fresh m l)
  pace : numberOf t (· = .first) (notes tr) + l.ahead.toNat ≤
    retries tr t + numberOf t isCall (events tr)

@[simp] theorem events_emitEvents (u : Fin n) (es : List Event) :
    events (emitEvents u es) = emit u es := by
  simp [events, emit, List.filterMap_map, Function.comp_def]

@[simp] theorem notes_emitEvents (u : Fin n) (es : List Event) : notes (emitEvents u es) = [] := by
  simp [notes, emit, List.filterMap_map, Function.comp_def]

theorem retries_emitEvents : retries (tr ++ emitEvents u es) t = retries tr t := by
  rw [retries, notes_append, notes_emitEvents, List.append_nil, retries]

theorem swaps_emitEvents :
    swaps (events (tr ++ emitEvents u es)) = swaps (events tr) + es.countP isCas := by
  rw [events_append, events_emitEvents, swaps_append]
  simp [swaps]

theorem notes_snoc (x : Mark) : notes (tr ++ [(u, .inr x)]) = notes tr ++ emit u [x] := by
  rw [notes_append]
  rfl

theorem events_snoc (x : Mark) : events (tr ++ [(u, .inr x)]) = events tr := by
  rw [events_append]
  exact List.append_nil _

theorem retries_snoc (x : Mark) : retries (tr ++ [(u, .inr x)]) t =
    retries tr t + if u = t ∧ x = .retry then 1 else 0 := by
  rw [retries, notes_snoc, numberOf_append, retries]
  by_cases hu : u = t
  · subst hu
    rw [numberOf_emit_self]
    by_cases hx : x = .retry <;> simp [hx]
  · rw [numberOf_emit_of_ne hu, if_neg (fun h => hu h.1)]

theorem retries_snoc_first : retries (tr ++ [(t, .inr .first)]) t = retries tr t := by
  rw [retries_snoc, if_neg (by simp), Nat.add_zero]

theorem retries_snoc_retry : retries (tr ++ [(t, .inr .retry)]) t = retries tr t + 1 := by
  rw [retries_snoc, if_pos ⟨rfl, rfl⟩]

/-- The events of another thread. -/
theorem Paced.other_events (h : Paced tr t m l) (hu : u ≠ t)
    (hm : es.countP isCas = 0 → m'.head = m.head ∧ m'.tail = m.tail) :
    Paced (tr ++ emitEvents u es) t m' l where
  progressed := h.progressed.emitEvents
  outside hl := by
    rw [retries_emitEvents, swaps_emitEvents]
    exact Nat.le_trans (h.outside hl) (Nat.le_add_right ..)
  inside hl := by
    obtain ⟨i, hi, hle, hf⟩ := h.inside hl
    have htake := swaps_take_le tr i
    refine ⟨i, started_emitEvents.mpr hi, ?_, fun heq => ?_⟩
    · rwa [retries_emitEvents, List.take_append_of_le_length (Nat.le_of_lt hi.lt)]
    · rw [swaps_emitEvents, List.take_append_of_le_length (Nat.le_of_lt hi.lt)] at heq
      obtain ⟨hhead, htail⟩ := hm (by omega)
      exact (fresh_congr hhead htail).mpr (hf (by omega))
  pace := by
    rw [retries_emitEvents, notes_append, notes_emitEvents, List.append_nil, events_append,
      events_emitEvents, numberOf_append, numberOf_emit_of_ne hu]
    exact h.pace

/-- The mark of another thread. -/
theorem Paced.other_mark (h : Paced tr t m l) (hu : u ≠ t) (x : Mark) :
    Paced (tr ++ [(u, .inr x)]) t m l where
  progressed := h.progressed.snoc fun heq => absurd heq hu
  outside hl := by
    rw [retries_snoc, if_neg fun h => hu h.1, events_snoc]
    exact h.outside hl
  inside hl := by
    obtain ⟨i, hi, hle, hf⟩ := h.inside hl
    refine ⟨i, started_snoc hi fun heq => absurd heq hu, ?_, ?_⟩
    · rwa [retries_snoc, if_neg fun h => hu h.1, List.take_append_of_le_length (Nat.le_of_lt hi.lt)]
    · rwa [events_snoc, List.take_append_of_le_length (Nat.le_of_lt hi.lt)]
  pace := by
    rw [retries_snoc, if_neg fun h => hu h.1, notes_snoc, numberOf_append, numberOf_emit_of_ne hu,
      events_snoc]
    exact h.pace

theorem Paced.retries_le (h : Paced tr t m l) : retries tr t ≤ swaps (events tr) := by
  cases hl : l.inLoop with
  | false => exact h.outside hl
  | true =>
    obtain ⟨i, -, hle, -⟩ := h.inside hl
    exact Nat.le_trans hle (swaps_take_le tr i)

/-- The events of a step of `t`, before its mark. -/
theorem pace_events (es : List Event) (h : Paced tr t m l) :
    numberOf t (· = .first) (notes (tr ++ emitEvents t es)) + l.ahead.toNat + es.countP isCall ≤
      retries (tr ++ emitEvents t es) t + numberOf t isCall (events (tr ++ emitEvents t es)) := by
  have := h.pace
  rw [retries_emitEvents, notes_append, notes_emitEvents, List.append_nil, events_append,
    events_emitEvents, numberOf_append, numberOf_emit_self]
  omega

theorem Paced.own_first (h : Paced tr t m l) (hl' : l'.inLoop = true) (ha : l.ahead = true)
    (ha' : l'.ahead = false) (hf : Fresh m' l') :
    Paced (tr ++ emitEvents t es ++ [(t, .inr .first)]) t m' l' where
  progressed := h.progressed.emitEvents.snoc fun _ heq => nomatch heq
  outside hl := absurd hl (by simp [hl'])
  inside _ := by
    refine ⟨(tr ++ emitEvents t es).length, started_last, ?_, fun _ => hf⟩
    rw [retries_snoc_first, List.take_left, retries_emitEvents, swaps_emitEvents]
    exact Nat.le_trans h.retries_le (Nat.le_add_right ..)
  pace := by
    have hpace := pace_events es h
    rw [ha, Bool.toNat_true] at hpace
    rw [retries_snoc_first, notes_snoc, numberOf_append, numberOf_emit_self, events_snoc, ha',
      Bool.toNat_false, List.countP_singleton, if_pos (decide_eq_true rfl)]
    omega

theorem Paced.own_inside (h : Paced tr t m l) (hl : l.inLoop = true) (hl' : l'.inLoop = true)
    (ha' : l'.ahead = false) (hf : Fresh m l → Fresh m' l') :
    Paced (tr ++ emitEvents t es) t m' l' where
  progressed := h.progressed.emitEvents
  outside hl := absurd hl (by simp [hl'])
  inside _ := by
    obtain ⟨i, hi, hle, hfresh⟩ := h.inside hl
    have htake := swaps_take_le tr i
    refine ⟨i, started_emitEvents.mpr hi, ?_, fun heq => ?_⟩
    · rwa [retries_emitEvents, List.take_append_of_le_length (Nat.le_of_lt hi.lt)]
    · rw [swaps_emitEvents, List.take_append_of_le_length (Nat.le_of_lt hi.lt)] at heq
      exact hf (hfresh (by omega))
  pace := by
    have hpace := pace_events es h
    rw [ha', Bool.toNat_false]
    omega

theorem Paced.own_retry (h : Paced tr t m l) (hl : l.inLoop = true) (hl' : l'.inLoop = false)
    (hc : Fresh m l → 0 < es.countP isCas) :
    Paced (tr ++ emitEvents t es ++ [(t, .inr .retry)]) t m' l' := by
  obtain ⟨i, hi, hle, hfresh⟩ := h.inside hl
  have htake := swaps_take_le tr i
  have hcas : swaps (events (tr.take i)) < swaps (events (tr ++ emitEvents t es)) := by
    rw [swaps_emitEvents]
    by_cases heq : swaps (events tr) = swaps (events (tr.take i))
    · have := hc (hfresh heq)
      omega
    · omega
  constructor
  · refine h.progressed.emitEvents.snoc fun _ _ => ⟨i, started_emitEvents.mpr hi, ?_⟩
    have hcas' : swaps (events ((tr ++ emitEvents t es).take i)) <
        swaps (events (tr ++ emitEvents t es)) := by
      rwa [List.take_append_of_le_length (Nat.le_of_lt hi.lt)]
    obtain ⟨k, v, w, hik, hk⟩ := exists_cas hcas'
    refine ⟨k, v, w, Nat.lt_of_le_of_ne hik ?_, hk⟩
    rintro rfl
    -- at its own position there is the mark
    cases (started_emitEvents.mpr hi).1.symm.trans hk
  · intro _
    rw [retries_snoc_retry, events_snoc, retries_emitEvents]
    omega
  · intro hl
    exact absurd hl (by simp [hl'])
  · have hpace := pace_events es h
    have hone : l'.ahead.toNat ≤ 1 := Bool.toNat_le l'.ahead
    rw [retries_snoc_retry, notes_snoc, numberOf_append, numberOf_emit_self, events_snoc,
      List.countP_singleton, if_neg (by simp)]
    omega

theorem Paced.own_other (h : Paced tr t m l) (hl' : l'.inLoop = false)
    (ha : l'.ahead.toNat ≤ l.ahead.toNat + es.countP isCall) :
    Paced (tr ++ emitEvents t es) t m' l' where
  progressed := h.progressed.emitEvents
  outside _ := by
    rw [retries_emitEvents, swaps_emitEvents]
    exact Nat.le_trans h.retries_le (Nat.le_add_right ..)
  inside hl := absurd hl (by simp [hl'])
  pace := by
    have hpace := pace_events es h
    omega

theorem paced_start (m : Mem n) (t : Fin n) : Paced [] t (start m).mem ((start m).loc t) where
  progressed j hj := by cases hj
  outside _ := Nat.le_refl _
  inside hl := nomatch hl
  pace := Nat.le_refl _

end Paced

theorem paced_of_run {m : Mem n} {tr : List (Fin n × (Event ⊕ Mark))}
    {c : Config (Fin n) (Mem n) Pc} (hrun : ((program n).observe mark).Run anyStep (start m) tr c)
    (t : Fin n) : Paced tr t c.mem (c.loc t) := by
  induction hrun with
  | start => exact paced_start m t
  | @step tr c u a m' l es _ hs _ ih =>
    obtain ⟨es, hs', rfl⟩ := observe_step hs
    have hloop := loop_step hs'
    have hsplit : tr ++ emit u (es.map Sum.inl ++ (mark u a c.mem (c.loc u)).map Sum.inr) =
        tr ++ emitEvents u es ++ emit u ((mark u a c.mem (c.loc u)).map Sum.inr) := by
      simp [emit]
    rw [hsplit]
    generalize mark u a c.mem (c.loc u) = ks at hloop
    by_cases hu : t = u
    · subst hu
      rw [move_loc_self, move_mem]
      cases hloop with
      | first _ hl' ha ha' hf => exact ih.own_first hl' ha ha' hf
      | inside hl hl' ha' hf => simpa using ih.own_inside hl hl' ha' hf
      | retry hl hl' hc => exact ih.own_retry hl hl' hc
      | other hl' ha => simpa using ih.own_other hl' ha
    · rw [move_loc_of_ne _ _ _ hu, move_mem]
      have hother := ih.other_events (Ne.symm hu) (step_words hs')
      cases hloop with
      | first | retry => exact hother.other_mark (Ne.symm hu) _
      | inside | other => simpa using hother

theorem calls_eq (h : List (Fin n × Event)) : number isCall h = enqueues h + dequeues h := by
  induction h with
  | nil => rfl
  | cons x h ih =>
    have hx : (if isCall x.2 then 1 else 0) =
        (if isEnqueue x.2 then 1 else 0) + if isDequeue x.2 then 1 else 0 := by
      rcases x with ⟨t, o | w | val | _ | _ | r⟩
      · cases o <;> rfl
      all_goals rfl
    simp only [number, enqueues, dequeues, List.countP_cons] at ih ⊢
    omega

/-- **System-wide progress.** Every iteration of `enqueue` or `dequeue` that has to be
repeated contains a successful compare-exchange; at most two succeed for each enqueue and
one for each dequeue; so the number of iterations is bounded by the number of calls. -/
theorem system_progress (hn : n ≤ 4) {m : Mem n}
    (hm : ∀ i j, initialFree ≤ j.val → m.freeLists i j = 0)
    {tr : List (Fin n × (Event ⊕ Mark))} {c : Config (Fin n) (Mem n) Pc}
    (hrun : ((program n).observe mark).Run anyStep (start m) tr c) (hwrap : NoWrap (events tr)) :
    (∀ t, Progressed tr t) ∧
    swaps (events tr) ≤ 2 * enqueues (events tr) + dequeues (events tr) ∧
    iterations tr ≤ n * (2 * enqueues (events tr) + dequeues (events tr)) +
      (enqueues (events tr) + dequeues (events tr)) := by
  have hpaced := paced_of_run hrun
  have hswaps := swaps_le hn hm hrun.events hwrap
  refine ⟨fun t => (hpaced t).progressed, hswaps, ?_⟩
  have hthread : ∀ t, numberOf t (· = .first) (notes tr) ≤
      swaps (events tr) + numberOf t isCall (events tr) := fun t => by
    have hpace := (hpaced t).pace
    have hretry := (hpaced t).retries_le
    omega
  calc iterations tr = ∑ t, numberOf t (· = .first) (notes tr) := (sum_numberOf ..).symm
    _ ≤ ∑ t, (swaps (events tr) + numberOf t isCall (events tr)) :=
      Finset.sum_le_sum fun t _ => hthread t
    _ = n * swaps (events tr) + number isCall (events tr) := by
      rw [Finset.sum_add_distrib, sum_numberOf, Finset.sum_const_nat fun _ _ => rfl, Finset.card_fin]
    _ ≤ _ := by
      rw [calls_eq]
      exact Nat.add_le_add_right (Nat.mul_le_mul_left n hswaps) _

/-- The enqueue of thread 0 has linked its node and not swung `tail`; that of thread 1 moves
`tail` for it, and so has to begin again. -/
theorem system_progress_helped :
    ∃ (tr : List (Fin 2 × (Event ⊕ Mark))) (c : Config (Fin 2) (Mem 2) Pc),
      ((program 2).observe mark).Run anyStep (start (zeroed 2)) tr c ∧
      tr = [(0, .inl (.call (.enqueue 7))), (0, .inr .first), (0, .inl (.cas (.next 1))),
        (0, .inl (.link 7)), (1, .inl (.call (.enqueue 8))), (1, .inr .first),
        (1, .inl (.cas .tail)), (1, .inr .retry)] ∧
      (∀ t, Progressed tr t) ∧ swaps (events tr) ≤ 4 ∧ iterations tr ≤ 10 := by
  have h₀ : ((program 2).observe mark).Run anyStep (start (zeroed 2)) [] (start (zeroed 2)) := .start
  have h₁ := h₀.solo 0 (.call (.enqueue 7) :: List.replicate 8 .run) _ _
    [.inl (.call (.enqueue 7)), .inr .first, .inl (.cas (.next 1)), .inl (.link 7)] rfl
  have h₂ := h₁.solo 1 (.call (.enqueue 8) :: List.replicate 9 .run) _ _
    [.inl (.call (.enqueue 8)), .inr .first, .inl (.cas .tail), .inr .retry] rfl
  exact ⟨_, _, h₂, rfl, system_progress (by decide) (fun _ _ _ => rfl) h₂ fun c =>
    Nat.lt_of_le_of_lt List.countP_le_length (by decide)⟩

end Cds.MsQueue
