import CdsBenchmarks.Concurrent.Linearizability
import Mathlib.Data.List.Nodup

/-! Linearizability with hindsight. A call that leaves the object as it was may take effect at
any moment since it was made, and need not say which before it returns. -/

namespace Cds.Concurrent

variable {T S O R : Type*}

def Mark.isLin : Mark O R → Bool
  | .lin => true
  | _ => false

/-- The calls and returns of a trace. -/
def visible (h : List (T × Mark O R)) : List (T × Mark O R) := h.filter fun e => !e.2.isLin

theorem visible_append (h h' : List (T × Mark O R)) : visible (h ++ h') = visible h ++ visible h' :=
  List.filter_append ..

@[simp] theorem visible_lin (t : T) (h : List (T × Mark O R)) : visible ((t, .lin) :: h) = visible h :=
  rfl

@[simp] theorem visible_call (t : T) (o : O) (h : List (T × Mark O R)) :
    visible ((t, .call o) :: h) = (t, .call o) :: visible h := rfl

@[simp] theorem visible_ret (t : T) (r : R) (h : List (T × Mark O R)) :
    visible ((t, .ret r) :: h) = (t, .ret r) :: visible h := rfl

/-! ## Traces with the same calls and returns -/

/-- The calls and returns of two traces correspond, in order. -/
structure Aligned (Q : ℕ → ℕ → Prop) (h h' : List (T × Mark O R)) : Prop where
  same : ∀ {i i'}, Q i i' → ∃ x, x.2.isLin = false ∧ h[i]? = some x ∧ h'[i']? = some x
  left : ∀ {i x}, h[i]? = some x → x.2.isLin = false → ∃ i', Q i i'
  right : ∀ {i' x}, h'[i']? = some x → x.2.isLin = false → ∃ i, Q i i'
  mono : ∀ {i i' j j'}, Q i i' → Q j j' → (i < j ↔ i' < j')

namespace Aligned
variable {Q : ℕ → ℕ → Prop} {h h' : List (T × Mark O R)} {i i' j j' : ℕ} {t : T} {o : O} {r : R}

theorem symm (ha : Aligned Q h h') : Aligned (fun i i' => Q i' i) h' h where
  same hq := by
    obtain ⟨x, hx, h₁, h₂⟩ := ha.same hq
    exact ⟨x, hx, h₂, h₁⟩
  left := ha.right
  right := ha.left
  mono h₁ h₂ := (ha.mono h₁ h₂).symm

theorem eq_iff (ha : Aligned Q h h') (hi : Q i i') (hj : Q j j') : i = j ↔ i' = j' := by
  have h₁ := ha.mono hi hj
  have h₂ := ha.mono hj hi
  omega

theorem get (ha : Aligned Q h h') (hq : Q i i') : h'[i']? = h[i]? := by
  obtain ⟨x, -, h₁, h₂⟩ := ha.same hq
  rw [h₁, h₂]

theorem callAt (ha : Aligned Q h h') (hq : Q i i') : CallAt h' i' t o ↔ CallAt h i t o := by
  rw [CallAt, CallAt, ha.get hq]

theorem retAt (ha : Aligned Q h h') (hq : Q i i') : RetAt h' i' t r ↔ RetAt h i t r := by
  rw [RetAt, RetAt, ha.get hq]

theorem returns (ha : Aligned Q h h') (hi : Q i i') (hj : Q j j') (hr : Returns h' i' j' t r) :
    Returns h i j t r := by
  obtain ⟨hlt, hret, hno⟩ := hr
  refine ⟨(ha.mono hi hj).mpr hlt, (ha.retAt hj).mp hret, fun k h₁ h₂ r' hk => ?_⟩
  obtain ⟨k', hq⟩ := ha.left hk rfl
  exact hno k' ((ha.mono hi hq).mp h₁) ((ha.mono hq hj).mp h₂) r' ((ha.retAt hq).mpr hk)

theorem linearizable {spec : ObjectSpec S O R} (ha : Aligned Q h h') (hl : Linearizable spec h) :
    Linearizable spec h' := by
  obtain ⟨L, hnodup, hcalled, hcomplete, hlegal, hreal⟩ := hl
  have hpos : ∀ i, ∃ i', (∃ k, Q i k) → Q i i' := fun i => by
    by_cases hk : ∃ k, Q i k
    · exact hk.imp fun k hk _ => hk
    · exact ⟨0, fun h => absurd h hk⟩
  choose f hf using hpos
  have hL : ∀ x ∈ L, Q x.1 (f x.1) := fun x hx => by
    obtain ⟨t, hc⟩ := hcalled x hx
    exact hf _ (ha.left hc rfl)
  refine ⟨L.map fun x => (f x.1, x.2), ?_, fun y hy => ?_, ?_, ?_, ?_⟩
  · rw [List.map_map]
    refine List.Nodup.map_on (fun x hx y hy heq => ?_) (List.Nodup.of_map _ hnodup)
    exact List.inj_on_of_nodup_map hnodup hx hy ((ha.eq_iff (hL x hx) (hL y hy)).mpr heq)
  · obtain ⟨x, hx, rfl⟩ := List.mem_map.mp hy
    exact (hcalled x hx).imp fun t hc => (ha.callAt (hL x hx)).mpr hc
  · intro i' j' t o r hc hr
    obtain ⟨i, hi⟩ := ha.right hc rfl
    obtain ⟨j, hj⟩ := ha.right hr.2.1 rfl
    have hmem := hcomplete i j t o r ((ha.callAt hi).mp hc) (ha.returns hi hj hr)
    obtain rfl := (ha.eq_iff hi (hL _ hmem)).mp rfl
    exact List.mem_map.mpr ⟨_, hmem, rfl⟩
  · simpa [List.map_map, Function.comp_def] using hlegal
  · intro i' j' t o r A' y' B' hc hr heq hlt
    obtain ⟨A, C, rfl, rfl, hC⟩ := List.map_eq_append_iff.mp heq
    obtain ⟨y, B, rfl, rfl, rfl⟩ := List.map_eq_cons_iff.mp hC
    obtain ⟨i, hi⟩ := ha.right hc rfl
    obtain ⟨j, hj⟩ := ha.right hr.2.1 rfl
    have hy := hL y (by simp)
    have hmem := hreal i j t o r A y B ((ha.callAt hi).mp hc) (ha.returns hi hj hr) rfl
      ((ha.mono hj hy).mpr hlt)
    obtain rfl := (ha.eq_iff hi (hL _ (List.mem_append_left _ hmem))).mp rfl
    exact List.mem_map.mpr ⟨_, hmem, rfl⟩

/-- One more call or return. -/
theorem snoc (ha : Aligned Q h h') {e : T × Mark O R} (he : e.2.isLin = false) :
    Aligned (fun i i' => Q i i' ∨ i = h.length ∧ i' = h'.length) (h ++ [e]) (h' ++ [e]) := by
  have hlt : ∀ {i i'}, Q i i' → i < h.length ∧ i' < h'.length := fun hq => by
    obtain ⟨x, -, h₁, h₂⟩ := ha.same hq
    exact ⟨(List.getElem?_eq_some_iff.mp h₁).1, (List.getElem?_eq_some_iff.mp h₂).1⟩
  refine ⟨?_, ?_, ?_, ?_⟩
  · rintro i i' (hq | ⟨rfl, rfl⟩)
    · obtain ⟨x, hx, h₁, h₂⟩ := ha.same hq
      exact ⟨x, hx, (getElem?_snoc ..).mpr (.inl h₁), (getElem?_snoc ..).mpr (.inl h₂)⟩
    · exact ⟨e, he, by simp, by simp⟩
  · intro i x hi hx
    rcases (getElem?_snoc ..).mp hi with hi | ⟨rfl, rfl⟩
    · exact (ha.left hi hx).imp fun _ => .inl
    · exact ⟨_, .inr ⟨rfl, rfl⟩⟩
  · intro i' x hi hx
    rcases (getElem?_snoc ..).mp hi with hi | ⟨rfl, rfl⟩
    · exact (ha.right hi hx).imp fun _ => .inl
    · exact ⟨_, .inr ⟨rfl, rfl⟩⟩
  · rintro i i' j j' (hi | ⟨rfl, rfl⟩) (hj | ⟨rfl, rfl⟩)
    · exact ha.mono hi hj
    · have := hlt hi
      omega
    · have := hlt hj
      omega
    · omega

theorem skip (ha : Aligned Q h h') (t : T) : Aligned Q (h ++ [(t, .lin)]) h' where
  same hq := by
    obtain ⟨x, hx, h₁, h₂⟩ := ha.same hq
    exact ⟨x, hx, (getElem?_snoc ..).mpr (.inl h₁), h₂⟩
  left hi hx := by
    rcases (getElem?_snoc ..).mp hi with hi | ⟨rfl, rfl⟩
    · exact ha.left hi hx
    · cases hx
  right := ha.right
  mono := ha.mono

theorem exists_visible (h : List (T × Mark O R)) : ∃ Q, Aligned Q h (visible h) := by
  induction h using List.reverseRecOn with
  | nil => exact ⟨fun _ _ => False, by simp [visible], by simp, by simp [visible], by simp⟩
  | append_singleton h e ih =>
    obtain ⟨Q, ha⟩ := ih
    obtain ⟨t, o | _ | r⟩ := e
    · rw [visible_append]
      exact ⟨_, ha.snoc rfl⟩
    · rw [visible_append]
      exact ⟨Q, (List.append_nil (visible h)).symm ▸ ha.skip t⟩
    · rw [visible_append]
      exact ⟨_, ha.snoc rfl⟩

end Aligned

/-- Linearizability is about the calls and returns only. -/
theorem Linearizable.of_visible {spec : ObjectSpec S O R} {h h' : List (T × Mark O R)}
    (hl : Linearizable spec h) (hv : visible h = visible h') : Linearizable spec h' := by
  obtain ⟨Q, ha⟩ := Aligned.exists_visible h
  obtain ⟨Q', ha'⟩ := Aligned.exists_visible h'
  exact ha'.symm.linearizable (hv ▸ ha.linearizable hl)

namespace ObjectSpec
variable [DecidableEq T] {spec : ObjectSpec S O R}

/-- A call has one result and one effect. -/
def Deterministic (spec : ObjectSpec S O R) : Prop :=
  ∀ {s o r r' s' s''}, spec.post s o r s' → spec.post s o r' s'' → r = r' ∧ s' = s''

theorem Replay.unique (hd : spec.Deterministic) {h : List (T × Mark O R)} {s s' : S}
    {st st' : T → Status O R} (hr : spec.Replay h s st) (hr' : spec.Replay h s' st') :
    s = s' ∧ st = st' := by
  induction hr generalizing s' st' with
  | nil =>
    generalize hg : [] = g at hr'
    cases hr' with
    | nil => exact ⟨rfl, rfl⟩
    | call | lin | ret => simp at hg
  | call _ _ ih =>
    generalize hg : _ ++ [_] = g at hr'
    cases hr' with
    | nil => simp at hg
    | call hr₂ _ =>
      obtain ⟨rfl, heq⟩ := List.append_inj' hg rfl
      obtain ⟨rfl, rfl⟩ := by simpa using heq
      obtain ⟨rfl, rfl⟩ := ih hr₂
      exact ⟨rfl, rfl⟩
    | lin | ret => exact absurd (List.append_inj' hg rfl).2 (by simp)
  | lin _ hst hs ih =>
    generalize hg : _ ++ [_] = g at hr'
    cases hr' with
    | nil => simp at hg
    | lin hr₂ hst₂ hs₂ =>
      obtain ⟨rfl, heq⟩ := List.append_inj' hg rfl
      obtain rfl := by simpa using heq
      obtain ⟨rfl, rfl⟩ := ih hr₂
      obtain rfl : _ = _ := Status.pending.inj (hst.symm.trans hst₂)
      obtain ⟨rfl, rfl⟩ := hd hs hs₂
      exact ⟨rfl, rfl⟩
    | call | ret => exact absurd (List.append_inj' hg rfl).2 (by simp)
  | ret _ _ ih =>
    generalize hg : _ ++ [_] = g at hr'
    cases hr' with
    | nil => simp at hg
    | ret hr₂ _ =>
      obtain ⟨rfl, heq⟩ := List.append_inj' hg rfl
      obtain ⟨rfl, rfl⟩ := by simpa using heq
      obtain ⟨rfl, rfl⟩ := ih hr₂
      exact ⟨rfl, rfl⟩
    | call | lin => exact absurd (List.append_inj' hg rfl).2 (by simp)

/-- A thread without a mark keeps its status. -/
theorem Replay.status_eq (hd : spec.Deterministic) {a b : List (T × Mark O R)} {x s : S}
    {st₀ st : T → Status O R} {t : T} (ha : spec.Replay a x st₀) (hr : spec.Replay (a ++ b) s st)
    (hb : ∀ e ∈ b, e.1 ≠ t) : st t = st₀ t := by
  induction b using List.reverseRecOn generalizing s st with
  | nil => exact congrFun (ha.unique hd (by simpa using hr)).2.symm t
  | append_singleton b e ih =>
    have hne : e.1 ≠ t := hb e (by simp)
    have hb' : ∀ e ∈ b, e.1 ≠ t := fun e he => hb e (by simp [he])
    rw [← List.append_assoc] at hr
    generalize hg : a ++ b ++ [e] = g at hr
    cases hr with
    | nil => simp at hg
    | call hr _ | lin hr _ _ | ret hr _ =>
      obtain ⟨rfl, heq⟩ := List.append_inj' hg rfl
      obtain rfl := by simpa using heq
      rw [Function.update_of_ne (Ne.symm hne), ih hr hb']

/-- A call that was in progress after `a`, and has not moved since, may take effect there. -/
theorem Replay.insert (hd : spec.Deterministic) {a b : List (T × Mark O R)} {x s : S}
    {st₀ st : T → Status O R} {t : T} {o : O} {r : R} (ha : spec.Replay a x st₀)
    (hr : spec.Replay (a ++ b) s st) (hst : st₀ t = .pending o) (hp : spec.post x o r x)
    (hb : ∀ e ∈ b, e.1 ≠ t) :
    spec.Replay (a ++ (t, .lin) :: b) s (Function.update st t (.done o r)) := by
  induction b using List.reverseRecOn generalizing s st with
  | nil =>
    obtain ⟨rfl, rfl⟩ := ha.unique hd (by simpa using hr)
    exact ha.lin hst hp
  | append_singleton b e ih =>
    have hne : e.1 ≠ t := hb e (by simp)
    have hb' : ∀ e ∈ b, e.1 ≠ t := fun e he => hb e (by simp [he])
    rw [← List.append_assoc] at hr
    generalize hg : a ++ b ++ [e] = g at hr
    rw [← List.cons_append, ← List.append_assoc]
    cases hr with
    | nil => simp at hg
    | @call _ _ _ u _ hr hst₁ =>
      obtain ⟨rfl, heq⟩ := List.append_inj' hg rfl
      obtain rfl := by simpa using heq
      have hne : u ≠ t := hne
      rw [Function.update_comm hne]
      exact (ih hr hb').call (by rwa [Function.update_of_ne hne])
    | @lin _ _ _ u _ _ _ hr hst₁ hs =>
      obtain ⟨rfl, heq⟩ := List.append_inj' hg rfl
      obtain rfl := by simpa using heq
      have hne : u ≠ t := hne
      rw [Function.update_comm hne]
      exact (ih hr hb').lin (by rwa [Function.update_of_ne hne]) hs
    | @ret _ _ _ u _ _ hr hst₁ =>
      obtain ⟨rfl, heq⟩ := List.append_inj' hg rfl
      obtain rfl := by simpa using heq
      have hne : u ≠ t := hne
      rw [Function.update_comm hne]
      exact (ih hr hb').ret (by rwa [Function.update_of_ne hne])

/-- While the call of `t` was in progress the object was in state `x`. -/
def Passed (spec : ObjectSpec S O R) (h : List (T × Mark O R)) (t : T) (x : S) : Prop :=
  ∃ a b st o, h = a ++ b ∧ spec.Replay a x st ∧ st t = .pending o ∧ ∀ e ∈ b, e.1 ≠ t

/-- The object followed a trace with the same calls and returns, and passed through the states
`past t` while the call of `t` was in progress. -/
def Hindsight (spec : ObjectSpec S O R) (h : List (T × Mark O R)) (s : S) (st : T → Status O R)
    (past : T → S → Prop) : Prop :=
  ∃ h', visible h' = visible h ∧ spec.Replay h' s st ∧
    ∀ t o x, st t = .pending o → past t x → spec.Passed h' t x

theorem Passed.snoc {h : List (T × Mark O R)} {t : T} {x : S} (hp : spec.Passed h t x)
    {e : T × Mark O R} (he : e.1 ≠ t) : spec.Passed (h ++ [e]) t x := by
  obtain ⟨a, b, st, o, rfl, hr, hst, hb⟩ := hp
  refine ⟨a, b ++ [e], st, o, by simp, hr, hst, fun e' he' => ?_⟩
  rcases List.mem_append.mp he' with he' | he'
  · exact hb e' he'
  · exact List.mem_singleton.mp he' ▸ he

theorem Passed.insert (hd : spec.Deterministic) {a b : List (T × Mark O R)} {t u : T} {x y : S}
    {o : O} {r : R} {st : T → Status O R} (hp : spec.Passed (a ++ b) u y) (ha : spec.Replay a x st)
    (hst : st t = .pending o) (hpost : spec.post x o r x) (hb : ∀ e ∈ b, e.1 ≠ t) (hu : u ≠ t) :
    spec.Passed (a ++ (t, .lin) :: b) u y := by
  obtain ⟨a₁, b₁, st₁, o₁, heq, hr₁, hst₁, hb₁⟩ := hp
  rcases List.append_eq_append_iff.mp heq with ⟨c, rfl, rfl⟩ | ⟨c, rfl, rfl⟩
  · refine ⟨a ++ (t, .lin) :: c, b₁, _, o₁, by simp, ha.insert hd hr₁ hst hpost fun e he => ?_, ?_, hb₁⟩
    · exact hb e (by simp [he])
    · rwa [Function.update_of_ne hu]
  · refine ⟨a₁, c ++ (t, .lin) :: b, st₁, o₁, by simp, hr₁, hst₁, fun e he => ?_⟩
    rcases List.mem_append.mp he with he | he
    · exact hb₁ e (by simp [he])
    · rcases List.mem_cons.mp he with rfl | he
      · exact Ne.symm hu
      · exact hb₁ e (by simp [he])

namespace Hindsight
variable {h : List (T × Mark O R)} {s s' : S} {st : T → Status O R} {past past' : T → S → Prop}
  {t : T} {o : O} {r : R}

theorem init : spec.Hindsight ([] : List (T × Mark O R)) spec.init (fun _ => .idle) past :=
  ⟨[], rfl, .nil, fun _ _ _ h => nomatch h⟩

theorem mono (hh : spec.Hindsight h s st past)
    (hp : ∀ t o x, st t = .pending o → past' t x → past t x) : spec.Hindsight h s st past' := by
  obtain ⟨h', hv, hr, hpast⟩ := hh
  exact ⟨h', hv, hr, fun t o x hst hx => hpast t o x hst (hp t o x hst hx)⟩

theorem call (hh : spec.Hindsight h s st past) (hst : st t = .idle)
    (hp : ∀ u x, past' u x → if u = t then x = s else past u x) :
    spec.Hindsight (h ++ [(t, .call o)]) s (Function.update st t (.pending o)) past' := by
  obtain ⟨h', hv, hr, hpast⟩ := hh
  have hr' := hr.call (o := o) hst
  refine ⟨_, by rw [visible_append, visible_append, hv], hr', fun u o' x hu hx => ?_⟩
  have hx := hp u x hx
  by_cases hut : u = t
  · subst hut
    rw [if_pos rfl] at hx
    exact ⟨_, [], _, o, (List.append_nil _).symm, hx ▸ hr', Function.update_self .., by simp⟩
  · rw [if_neg hut] at hx
    rw [Function.update_of_ne hut] at hu
    exact (hpast u o' x hu hx).snoc (Ne.symm hut)

theorem lin (hh : spec.Hindsight h s st past) (hst : st t = .pending o) (hs : spec.post s o r s')
    (hp : ∀ u x, past' u x → past u x ∨ x = s') :
    spec.Hindsight (h ++ [(t, .lin)]) s' (Function.update st t (.done o r)) past' := by
  obtain ⟨h', hv, hr, hpast⟩ := hh
  have hr' := hr.lin hst hs
  refine ⟨_, by rw [visible_append, visible_append, hv], hr', fun u o' x hu hx => ?_⟩
  have hut : u ≠ t := by
    rintro rfl
    simp at hu
  rcases hp u x hx with hx | rfl
  · rw [Function.update_of_ne hut] at hu
    exact (hpast u o' x hu hx).snoc (Ne.symm hut)
  · exact ⟨_, [], _, o', (List.append_nil _).symm, hr', hu, by simp⟩

theorem ret (hh : spec.Hindsight h s st past) (hst : st t = .done o r) :
    spec.Hindsight (h ++ [(t, .ret r)]) s (Function.update st t .idle) past := by
  obtain ⟨h', hv, hr, hpast⟩ := hh
  refine ⟨_, by rw [visible_append, visible_append, hv], hr.ret hst, fun u o' x hu hx => ?_⟩
  have hut : u ≠ t := by
    rintro rfl
    simp at hu
  rw [Function.update_of_ne hut] at hu
  exact (hpast u o' x hu hx).snoc (Ne.symm hut)

/-- A call that took effect in the past. -/
theorem look (hh : spec.Hindsight h s st past) (hd : spec.Deterministic) (hst : st t = .pending o)
    {x : S} (hx : past t x) (hpost : spec.post x o r x) :
    spec.Hindsight (h ++ [(t, .ret r)]) s (Function.update st t .idle) past := by
  obtain ⟨h', hv, hr, hpast⟩ := hh
  obtain ⟨a, b, st₀, o', rfl, ha, hst₀, hb⟩ := hpast t o x hst hx
  obtain rfl : o' = o := Status.pending.inj (hst₀.symm.trans ((ha.status_eq hd hr hb).symm.trans hst))
  have hr' := ha.insert hd hr hst₀ hpost hb
  have hv' : visible (a ++ (t, .lin) :: b) = visible h := by
    rw [← hv, visible_append, visible_append, visible_lin]
  have hret := hr'.ret (Function.update_self ..)
  rw [Function.update_idem] at hret
  refine ⟨_, by rw [visible_append, hv', visible_append], hret, fun u o' y hu hy => ?_⟩
  have hut : u ≠ t := by
    rintro rfl
    simp at hu
  rw [Function.update_of_ne hut] at hu
  exact ((hpast u o' y hu hy).insert hd ha hst₀ hpost hb hut).snoc (Ne.symm hut)

/-- **The linearization-point rule with hindsight.** -/
theorem linearizable (hh : spec.Hindsight h s st past) : Linearizable spec h := by
  obtain ⟨h', hv, hr, -⟩ := hh
  exact hr.linearizable.of_visible hv

end Hindsight

end ObjectSpec

end Cds.Concurrent
