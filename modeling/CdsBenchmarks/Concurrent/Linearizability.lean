import CdsBenchmarks.Concurrent.Trace
import Mathlib.Data.List.Induction

/-! Linearizability of a history of calls and returns, and the linearization-point
rule: a trace that a sequential object can follow, taking one transition for each
marked point between a call and its return, is linearizable. -/

namespace Cds.Concurrent

/-- A sequential object; `post s o r s'` allows operation `o` to return `r` from `s`. -/
structure ObjectSpec (S O R : Type*) where
  init : S
  post : S → O → R → S → Prop

/-- What a trace says about an object: calls, returns, and the points in between at
which an operation is claimed to take effect. -/
inductive Mark (O R : Type*)
  | call (o : O)
  | lin
  | ret (r : R)
deriving DecidableEq, Repr

inductive Status (O R : Type*)
  | idle
  | pending (o : O)
  | done (o : O) (r : R)

variable {T S O R : Type*}

namespace ObjectSpec

/-- The states reached by executing operations one after the other. -/
inductive Steps (spec : ObjectSpec S O R) : List (O × R) → S → Prop
  | nil : Steps spec [] spec.init
  | snoc {ops s o r s'} (h : Steps spec ops s) (hs : spec.post s o r s') :
      Steps spec (ops ++ [(o, r)]) s'

/-- The object followed a trace: each operation takes its transition at its mark,
after its call, and returns the result of that transition. -/
inductive Replay [DecidableEq T] (spec : ObjectSpec S O R) :
    List (T × Mark O R) → S → (T → Status O R) → Prop
  | nil : Replay spec [] spec.init fun _ => .idle
  | call {h s st t o} (hr : Replay spec h s st) (hst : st t = .idle) :
      Replay spec (h ++ [(t, .call o)]) s (Function.update st t (.pending o))
  | lin {h s st t o r s'} (hr : Replay spec h s st) (hst : st t = .pending o)
      (hs : spec.post s o r s') :
      Replay spec (h ++ [(t, .lin)]) s' (Function.update st t (.done o r))
  | ret {h s st t o r} (hr : Replay spec h s st) (hst : st t = .done o r) :
      Replay spec (h ++ [(t, .ret r)]) s (Function.update st t .idle)

end ObjectSpec

/-! ## Histories -/

/-- Thread `t` calls `o` at position `i`. -/
def CallAt (h : List (T × Mark O R)) (i : ℕ) (t : T) (o : O) : Prop := h[i]? = some (t, .call o)

def RetAt (h : List (T × Mark O R)) (j : ℕ) (t : T) (r : R) : Prop := h[j]? = some (t, .ret r)

/-- The call of `t` at position `i` returns `r` at position `j`. -/
def Returns (h : List (T × Mark O R)) (i j : ℕ) (t : T) (r : R) : Prop :=
  i < j ∧ RetAt h j t r ∧ ∀ k, i < k → k < j → ∀ r', ¬RetAt h k t r'

/-- `L` lists calls of `h`, each named by its position, in an order in which the object
could have executed them one after the other: every call that returned is there with
its result, and no call precedes one that returned before it was made. -/
structure IsLinearization (spec : ObjectSpec S O R) (h : List (T × Mark O R))
    (L : List (ℕ × O × R)) : Prop where
  nodup : (L.map Prod.fst).Nodup
  called : ∀ x ∈ L, ∃ t, CallAt h x.1 t x.2.1
  complete : ∀ i j t o r, CallAt h i t o → Returns h i j t r → (i, o, r) ∈ L
  legal : ∃ s, spec.Steps (L.map Prod.snd) s
  realtime : ∀ i j t o r A y B, CallAt h i t o → Returns h i j t r → L = A ++ y :: B →
    j < y.1 → (i, o, r) ∈ A

def Linearizable (spec : ObjectSpec S O R) (h : List (T × Mark O R)) : Prop :=
  ∃ L, IsLinearization spec h L

section Append
variable {h : List (T × Mark O R)} {i j : ℕ} {t u : T} {o : O} {r : R} {e : Mark O R}

theorem CallAt.lt (hc : CallAt h i t o) : i < h.length :=
  (List.getElem?_eq_some_iff.mp hc).1

theorem RetAt.lt (hr : RetAt h j t r) : j < h.length :=
  (List.getElem?_eq_some_iff.mp hr).1

theorem callAt_snoc : CallAt (h ++ [(u, e)]) i t o ↔
    CallAt h i t o ∨ i = h.length ∧ u = t ∧ e = .call o := by
  simp [CallAt, getElem?_snoc]

theorem retAt_snoc : RetAt (h ++ [(u, e)]) j t r ↔
    RetAt h j t r ∨ j = h.length ∧ u = t ∧ e = .ret r := by
  simp [RetAt, getElem?_snoc]

theorem returns_snoc : Returns (h ++ [(u, e)]) i j t r ↔ Returns h i j t r ∨
    (i < h.length ∧ j = h.length ∧ u = t ∧ e = .ret r ∧ ∀ k, i < k → ∀ r', ¬RetAt h k t r') := by
  constructor
  · rintro ⟨hij, hret, hno⟩
    have hno' : ∀ k, i < k → k < j → ∀ r', ¬RetAt h k t r' :=
      fun k h₁ h₂ r' hk => hno k h₁ h₂ r' (retAt_snoc.mpr (.inl hk))
    rcases retAt_snoc.mp hret with hret | ⟨rfl, rfl, rfl⟩
    · exact .inl ⟨hij, hret, hno'⟩
    · exact .inr ⟨hij, rfl, rfl, rfl, fun k hk r' hk' => hno' k hk hk'.lt r' hk'⟩
  · rintro (⟨hij, hret, hno⟩ | ⟨hij, rfl, rfl, rfl, hno⟩)
    · refine ⟨hij, retAt_snoc.mpr (.inl hret), fun k h₁ h₂ r' hk => ?_⟩
      rcases retAt_snoc.mp hk with hk | ⟨rfl, -, -⟩
      · exact hno k h₁ h₂ r' hk
      · exact absurd hret.lt (by omega)
    · refine ⟨hij, retAt_snoc.mpr (.inr ⟨rfl, rfl, rfl⟩), fun k h₁ h₂ r' hk => ?_⟩
      rcases retAt_snoc.mp hk with hk | ⟨rfl, -, -⟩
      · exact hno k h₁ r' hk
      · omega

end Append

/-- The part of a trace since thread `t` last made a call, which was `o`. -/
def OpenCall (h : List (T × Mark O R)) (t : T) (o : O) (a b : List (T × Mark O R)) : Prop :=
  h = a ++ (t, .call o) :: b ∧ ∀ e ∈ b, ∀ o', e ≠ (t, .call o')

theorem OpenCall.snoc {h : List (T × Mark O R)} {t : T} {o : O} {a b : List (T × Mark O R)}
    (hc : OpenCall h t o a b) {e : T × Mark O R} (he : ∀ o', e ≠ (t, .call o')) :
    OpenCall (h ++ [e]) t o a (b ++ [e]) := by
  refine ⟨by simp [hc.1], fun x hx o' => ?_⟩
  rcases List.mem_append.mp hx with hx | hx
  · exact hc.2 x hx o'
  · exact List.mem_singleton.mp hx ▸ he o'

/-! ## The linearization-point rule -/

/-- Where thread `t` stands in `h`, given the calls `L` that have taken effect: all its
calls but the one in progress have returned. -/
def Tracks (h : List (T × Mark O R)) (L : List (ℕ × O × R)) (t : T) : Status O R → Prop
  | .idle => ∀ i o, CallAt h i t o → ∃ k r, i < k ∧ RetAt h k t r
  | .pending o => ∃ i₀, CallAt h i₀ t o ∧ (∀ x ∈ L, x.1 ≠ i₀) ∧
      ∀ i o', CallAt h i t o' → i ≠ i₀ → ∃ k r, i < k ∧ RetAt h k t r
  | .done o r => ∃ i₀, CallAt h i₀ t o ∧ (i₀, o, r) ∈ L ∧
      ∀ i o', CallAt h i t o' → i ≠ i₀ → ∃ k r, i < k ∧ RetAt h k t r

theorem Tracks.mono {h h' : List (T × Mark O R)} {L L' : List (ℕ × O × R)} {t : T}
    {st : Status O R} (ht : Tracks h L t st) (hc : ∀ i o, CallAt h' i t o ↔ CallAt h i t o)
    (hr : ∀ k r, RetAt h k t r → RetAt h' k t r) (hL : ∀ x ∈ L, x ∈ L')
    (hnew : ∀ x ∈ L', x ∈ L ∨ ∀ o, ¬CallAt h x.1 t o) : Tracks h' L' t st := by
  have hall : ∀ {i}, (∃ k r, i < k ∧ RetAt h k t r) → ∃ k r, i < k ∧ RetAt h' k t r :=
    fun ⟨k, r, hk, hkr⟩ => ⟨k, r, hk, hr k r hkr⟩
  cases st with
  | idle => exact fun i o hi => hall (ht i o ((hc i o).mp hi))
  | pending o =>
    obtain ⟨i₀, hi₀, hnot, hret⟩ := ht
    refine ⟨i₀, (hc _ _).mpr hi₀, fun x hx heq => ?_,
      fun i o' hi hne => hall (hret i o' ((hc i o').mp hi) hne)⟩
    rcases hnew x hx with hx | hx
    · exact hnot x hx heq
    · exact hx o (heq ▸ hi₀)
  | done o r =>
    obtain ⟨i₀, hi₀, hmem, hret⟩ := ht
    exact ⟨i₀, (hc _ _).mpr hi₀, hL _ hmem, fun i o' hi hne => hall (hret i o' ((hc i o').mp hi) hne)⟩

namespace ObjectSpec
variable [DecidableEq T] {spec : ObjectSpec S O R}

/-- What the linearization-point rule keeps about the calls that have taken effect. -/
structure Progress (spec : ObjectSpec S O R) (h : List (T × Mark O R)) (s : S)
    (st : T → Status O R) (L : List (ℕ × O × R)) : Prop where
  lin : IsLinearization spec h L
  steps : spec.Steps (L.map Prod.snd) s
  tracks : ∀ t, Tracks h L t (st t)

theorem Progress.call {h : List (T × Mark O R)} {s : S} {st : T → Status O R}
    {L : List (ℕ × O × R)} (hp : Progress spec h s st L) {t : T} (hst : st t = .idle) (o : O) :
    Progress spec (h ++ [(t, .call o)]) s (Function.update st t (.pending o)) L := by
  obtain ⟨⟨hnodup, hcalled, hcomplete, hlegal, hreal⟩, hsteps, htracks⟩ := hp
  have hret : ∀ {i j u r}, Returns (h ++ [(t, Mark.call o)]) i j u r ↔ Returns h i j u r := by
    simp [returns_snoc]
  have hlt : ∀ x ∈ L, x.1 < h.length := fun x hx => (hcalled x hx).choose_spec.lt
  have hold : ∀ {i j u o' r}, CallAt (h ++ [(t, Mark.call o)]) i u o' → Returns h i j u r →
      CallAt h i u o' := by
    intro i j u o' r hi hj
    rcases callAt_snoc.mp hi with hi | ⟨rfl, -, -⟩
    · exact hi
    · exact absurd hj.2.1.lt (by have := hj.1; omega)
  refine ⟨⟨hnodup, fun x hx => ?_, ?_, hlegal, ?_⟩, hsteps, fun u => ?_⟩
  · obtain ⟨u, hu⟩ := hcalled x hx
    exact ⟨u, callAt_snoc.mpr (.inl hu)⟩
  · intro i j u o' r hi hj
    exact hcomplete i j u o' r (hold hi (hret.mp hj)) (hret.mp hj)
  · intro i j u o' r A y B hi hj
    exact hreal i j u o' r A y B (hold hi (hret.mp hj)) (hret.mp hj)
  · by_cases hu : u = t
    · subst hu
      simp only [Function.update_self]
      have hidle := htracks u
      rw [hst] at hidle
      refine ⟨h.length, callAt_snoc.mpr (.inr ⟨rfl, rfl, rfl⟩), fun x hx => Nat.ne_of_lt (hlt x hx), ?_⟩
      intro i o' hi hne
      rcases callAt_snoc.mp hi with hi | ⟨rfl, -⟩
      · obtain ⟨k, r, hk, hkr⟩ := hidle i o' hi
        exact ⟨k, r, hk, retAt_snoc.mpr (.inl hkr)⟩
      · exact absurd rfl hne
    · rw [Function.update_of_ne hu]
      refine (htracks u).mono (fun i o' => ?_) (fun k r hk => retAt_snoc.mpr (.inl hk))
        (fun _ hx => hx) (fun _ hx => .inl hx)
      simp [callAt_snoc, Ne.symm hu]

theorem Progress.effect {h : List (T × Mark O R)} {s s' : S} {st : T → Status O R}
    {L : List (ℕ × O × R)} (hp : Progress spec h s st L) {t : T} {o : O} {r : R}
    (hst : st t = .pending o) (hs : spec.post s o r s') :
    ∃ L', Progress spec (h ++ [(t, .lin)]) s' (Function.update st t (.done o r)) L' := by
  obtain ⟨⟨hnodup, hcalled, hcomplete, -, hreal⟩, hsteps, htracks⟩ := hp
  have hcall : ∀ {i u o'}, CallAt (h ++ [(t, Mark.lin)]) i u o' ↔ CallAt h i u o' := by
    simp [callAt_snoc]
  have hretAt : ∀ {i u r'}, RetAt (h ++ [(t, Mark.lin)]) i u r' ↔ RetAt h i u r' := by
    simp [retAt_snoc]
  have hret : ∀ {i j u r'}, Returns (h ++ [(t, Mark.lin)]) i j u r' ↔ Returns h i j u r' := by
    simp [returns_snoc]
  have hpend := htracks t
  rw [hst] at hpend
  obtain ⟨i₀, hi₀, hnot, hothers⟩ := hpend
  -- the call is placed last, which is in real-time order as it has not returned
  have hsteps' : spec.Steps ((L ++ [(i₀, o, r)]).map Prod.snd) s' := by
    simpa using hsteps.snoc hs
  refine ⟨L ++ [(i₀, o, r)], ⟨?_, ?_, ?_, ⟨s', hsteps'⟩, ?_⟩, hsteps', fun u => ?_⟩
  · rw [List.map_append, List.nodup_append]
    refine ⟨hnodup, by simp, ?_⟩
    rintro i hi j hj rfl
    obtain ⟨x, hx, rfl⟩ := List.mem_map.mp hi
    exact hnot x hx (by simpa using hj)
  · intro x hx
    rcases List.mem_append.mp hx with hx | hx
    · exact (hcalled x hx).imp fun u hu => hcall.mpr hu
    · rw [List.mem_singleton.mp hx]
      exact ⟨t, hcall.mpr hi₀⟩
  · intro i j u o' r' hi hj
    exact List.mem_append_left _ (hcomplete i j u o' r' (hcall.mp hi) (hret.mp hj))
  · intro i j u o' r' A y B hi hj heq hlt
    rcases List.eq_nil_or_concat B with rfl | ⟨B', b, rfl⟩
    · have := (List.append_inj' heq rfl).1
      exact this ▸ hcomplete i j u o' r' (hcall.mp hi) (hret.mp hj)
    · have hsplit : L = A ++ y :: B' := by
        have : L ++ [(i₀, o, r)] = (A ++ y :: B') ++ [b] := by simpa using heq
        exact (List.append_inj' this rfl).1
      exact hreal i j u o' r' A y B' (hcall.mp hi) (hret.mp hj) hsplit hlt
  · by_cases hu : u = t
    · subst hu
      simp only [Function.update_self]
      exact ⟨i₀, hcall.mpr hi₀, by simp, fun i o' hi hne =>
        (hothers i o' (hcall.mp hi) hne).imp fun k ⟨r', hk, hkr⟩ => ⟨r', hk, hretAt.mpr hkr⟩⟩
    · rw [Function.update_of_ne hu]
      refine (htracks u).mono (fun i o' => hcall) (fun k r' hk => hretAt.mpr hk)
        (fun x hx => List.mem_append_left _ hx) (fun x hx => ?_)
      rcases List.mem_append.mp hx with hx | hx
      · exact .inl hx
      · rw [List.mem_singleton.mp hx]
        refine .inr fun o' ho' => hu ?_
        have := hi₀.symm.trans ho'
        simp only [Option.some.injEq, Prod.mk.injEq] at this
        exact this.1.symm

theorem Progress.ret {h : List (T × Mark O R)} {s : S} {st : T → Status O R}
    {L : List (ℕ × O × R)} (hp : Progress spec h s st L) {t : T} {o : O} {r : R}
    (hst : st t = .done o r) :
    Progress spec (h ++ [(t, .ret r)]) s (Function.update st t .idle) L := by
  obtain ⟨⟨hnodup, hcalled, hcomplete, hlegal, hreal⟩, hsteps, htracks⟩ := hp
  have hcall : ∀ {i u o'}, CallAt (h ++ [(t, Mark.ret r)]) i u o' ↔ CallAt h i u o' := by
    simp [callAt_snoc]
  have hlt : ∀ x ∈ L, x.1 < h.length := fun x hx => (hcalled x hx).choose_spec.lt
  have hdone := htracks t
  rw [hst] at hdone
  obtain ⟨i₀, hi₀, hmem, hothers⟩ := hdone
  -- the only call of `t` that has not returned is the one at `i₀`
  have hlast : ∀ {i o'}, CallAt h i t o' → (∀ k, i < k → ∀ r', ¬RetAt h k t r') → i = i₀ := by
    intro i o' hi hno
    by_contra hne
    obtain ⟨k, r', hk, hkr⟩ := hothers i o' hi hne
    exact hno k hk r' hkr
  refine ⟨⟨hnodup, ?_, ?_, hlegal, ?_⟩, hsteps, fun u => ?_⟩
  · exact fun x hx => (hcalled x hx).imp fun u hu => hcall.mpr hu
  · intro i j u o' r' hi hj
    rcases returns_snoc.mp hj with hj | ⟨_, _, rfl, he, hno⟩
    · exact hcomplete i j u o' r' (hcall.mp hi) hj
    · obtain rfl := hlast (hcall.mp hi) hno
      have := hi₀.symm.trans (hcall.mp hi)
      simp_all
  · intro i j u o' r' A y B hi hj heq hjy
    rcases returns_snoc.mp hj with hj | ⟨_, rfl, -⟩
    · exact hreal i j u o' r' A y B (hcall.mp hi) hj heq hjy
    · have := hlt y (by simp [heq])
      omega
  · by_cases hu : u = t
    · subst hu
      simp only [Function.update_self]
      intro i o' hi
      by_cases hne : i = i₀
      · exact ⟨h.length, r, hne ▸ hi₀.lt, retAt_snoc.mpr (.inr ⟨rfl, rfl, rfl⟩)⟩
      · obtain ⟨k, r', hk, hkr⟩ := hothers i o' (hcall.mp hi) hne
        exact ⟨k, r', hk, retAt_snoc.mpr (.inl hkr)⟩
    · rw [Function.update_of_ne hu]
      exact (htracks u).mono (fun i o' => hcall) (fun k r' hk => retAt_snoc.mpr (.inl hk))
        (fun _ hx => hx) (fun _ hx => .inl hx)

theorem Replay.progress {h : List (T × Mark O R)} {s : S} {st : T → Status O R}
    (hr : spec.Replay h s st) : ∃ L, Progress spec h s st L := by
  induction hr with
  | nil =>
    refine ⟨[], ⟨by simp, by simp, ?_, ⟨_, .nil⟩, by simp⟩, .nil, fun t i o hi => ?_⟩
    · intro i j t o r hi
      exact absurd hi.lt (by simp)
    · exact absurd hi.lt (by simp)
  | call _ hst ih => exact ih.imp fun L hL => hL.call hst _
  | lin _ hst hs ih => exact ih.elim fun L hL => hL.effect hst hs
  | ret _ hst ih => exact ih.imp fun L hL => hL.ret hst

/-- **The linearization-point rule.** -/
theorem Replay.linearizable {h : List (T × Mark O R)} {s : S} {st : T → Status O R}
    (hr : spec.Replay h s st) : Linearizable spec h :=
  hr.progress.imp fun _ hL => hL.lin

/-! ## Where a call took effect -/

theorem Replay.of_append {h h' : List (T × Mark O R)} {s : S} {st : T → Status O R}
    (hr : spec.Replay (h ++ h') s st) : ∃ s' st', spec.Replay h s' st' := by
  induction h' using List.reverseRecOn generalizing s st with
  | nil => exact ⟨s, st, by simpa using hr⟩
  | append_singleton h' e ih =>
    rw [← List.append_assoc] at hr
    generalize hg : h ++ h' ++ [e] = g at hr
    cases hr with
    | nil => simp at hg
    | call hr _ | lin hr _ _ | ret hr _ => exact ih ((List.append_inj' hg rfl).1 ▸ hr)

theorem Replay.of_ret {h : List (T × Mark O R)} {s : S} {st : T → Status O R} {t : T} {r : R}
    (hr : spec.Replay (h ++ [(t, .ret r)]) s st) :
    ∃ st' o, spec.Replay h s st' ∧ st' t = .done o r := by
  generalize hg : h ++ [(t, Mark.ret r)] = g at hr
  cases hr with
  | nil => simp at hg
  | ret hr hst =>
    obtain ⟨rfl, heq⟩ := List.append_inj' hg rfl
    obtain ⟨rfl, rfl⟩ : t = _ ∧ r = _ := by simpa using heq
    exact ⟨_, _, hr, hst⟩
  | call _ _ | lin _ _ _ => exact absurd (List.append_inj' hg rfl).2 (by simp)

/-- Inside the call in progress there is a moment from which the object takes the
transition that gives the result. -/
def TookEffect (spec : ObjectSpec S O R) (h : List (T × Mark O R)) (t : T) : Status O R → Prop
  | .idle => True
  | .pending o => ∃ a b, OpenCall h t o a b
  | .done o r => ∃ a b, OpenCall h t o a b ∧ ∃ b₁ b₂ s s' st, b = b₁ ++ (t, .lin) :: b₂ ∧
      spec.Replay (a ++ (t, .call o) :: b₁) s st ∧ spec.post s o r s'

theorem TookEffect.snoc {h : List (T × Mark O R)} {t : T} {st : Status O R}
    (hte : TookEffect spec h t st) {e : T × Mark O R} (he : ∀ o', e ≠ (t, .call o')) :
    TookEffect spec (h ++ [e]) t st := by
  cases st with
  | idle => trivial
  | pending o =>
    obtain ⟨a, b, hc⟩ := hte
    exact ⟨a, b ++ [e], hc.snoc he⟩
  | done o r =>
    obtain ⟨a, b, hc, b₁, b₂, s, s', st, rfl, hrest⟩ := hte
    exact ⟨a, _, hc.snoc he, b₁, b₂ ++ [e], s, s', st, by simp, hrest⟩

theorem Replay.tookEffect {h : List (T × Mark O R)} {s : S} {st : T → Status O R}
    (hr : spec.Replay h s st) (t : T) : TookEffect spec h t (st t) := by
  induction hr with
  | nil => trivial
  | @call h s st u o hr hst ih =>
    by_cases hu : t = u
    · subst hu
      rw [Function.update_self]
      exact ⟨h, [], rfl, by simp⟩
    · rw [Function.update_of_ne hu]
      exact ih.snoc fun o' heq => hu (congrArg Prod.fst heq).symm
  | @lin h s st u o r s' hr hst hs ih =>
    by_cases hu : t = u
    · subst hu
      rw [Function.update_self]
      rw [hst] at ih
      obtain ⟨a, b, hc⟩ := ih
      exact ⟨a, _, hc.snoc (by simp), b, [], s, s', st, rfl, hc.1 ▸ hr, hs⟩
    · rw [Function.update_of_ne hu]
      exact ih.snoc (by simp)
  | @ret h s st u o r hr hst ih =>
    by_cases hu : t = u
    · subst hu
      rw [Function.update_self]
      trivial
    · rw [Function.update_of_ne hu]
      exact ih.snoc (by simp)

/-- A call that returned `r` did so from a state the object was in during the call. -/
theorem Replay.effect_of_ret {h h' : List (T × Mark O R)} {s : S} {st : T → Status O R}
    {t : T} {r : R} (hr : spec.Replay (h ++ (t, .ret r) :: h') s st) :
    ∃ o a b, OpenCall h t o a b ∧ ∃ b₁ b₂ s' s'' st', b = b₁ ++ b₂ ∧
      spec.Replay (a ++ (t, .call o) :: b₁) s' st' ∧ spec.post s' o r s'' := by
  rw [List.append_cons] at hr
  obtain ⟨s₁, st₁, hr⟩ := hr.of_append
  obtain ⟨st₂, o, hr, hst⟩ := hr.of_ret
  have hte := hr.tookEffect t
  rw [hst] at hte
  obtain ⟨a, b, hc, b₁, b₂, s', s'', st', hb, hrest⟩ := hte
  exact ⟨o, a, b, hc, b₁, _, s', s'', st', hb, hrest⟩

end ObjectSpec

end Cds.Concurrent
