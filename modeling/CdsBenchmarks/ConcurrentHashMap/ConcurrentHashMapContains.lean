import CdsBenchmarks.ConcurrentHashMap.ConcurrentHashMapIterators

/-! `containsValue` reads the table under each segment's lock and searches the segment without it.
What it answers held at some moment while it ran, of one key (true) or of each key (false). -/

namespace Cds.ConcurrentHashMap
open Concurrent Program

variable {T K V : Type*} {E : Env K} {w w' : World T K V} {t : T} {e : Entry K} {l : Bin K}
  {k : K} {v : V} {s i tab : ℕ} {m m' : Mem T K V} {es : List (Event K V)} {pc' : Pc K V}

/-! ## The search -/

/-- Some time since the call the key did not have the value. -/
def Missed (w : World T K V) (t : T) (v : V) (k : K) : Prop := ∃ x, w.past t x ∧ x k ≠ some v

/-- The slots of segment `s` before `i` have been searched. -/
structure SearchAt (E : Env K) (w : World T K V) (t : T) (v : V) (s tab i : ℕ) : Prop where
  snap : Snap E w t tab
  slot : i % concurrencyLevel = s
  lt : i < w.mem.length tab
  before : ∀ k, segment (hash E k) = s → index (hash E k) (w.mem.length tab) < i → Missed w t v k

/-- Slot `i` has been searched up to `l`. -/
structure EntryAt (E : Env K) (w : World T K V) (t : T) (v : V) (tab i : ℕ) (l : Bin K) : Prop where
  sees : ∀ e ∈ l, Sees w t e
  rest : ∀ k, index (hash E k) (w.mem.length tab) = i → Missed w t v k ∨ ∃ e ∈ l, e.key = k

def Searching (E : Env K) (w : World T K V) (t : T) (v : V) (s : ℕ) : Contains K → Prop
  | .lock | .table => True
  | .unlock tab => Snap E w t tab
  | .bin tab i => SearchAt E w t v s tab i
  | .entry tab i l => SearchAt E w t v s tab i ∧ EntryAt E w t v tab i l

/-- The segments before `s` have been searched, and `s` as far as `p`. -/
structure Searched (E : Env K) (w : World T K V) (t : T) (v : V) (s : ℕ) (p : Contains K) : Prop where
  lt : s < concurrencyLevel
  below : ∀ k, segment (hash E k) < s → Missed w t v k
  point : Searching E w t v s p

theorem Missed.mono (h : Missed w t v k) (hp : ∀ x, w.past t x → w'.past t x) : Missed w' t v k :=
  h.imp fun x hx => hx.imp_left (hp x)

section Mono
variable (hc : Common w w') (hh : Heap E w) (hp : ∀ x, w.past t x → w'.past t x) (hn : w'.past t w'.s)
include hc hh hp hn

theorem SearchAt.mono (h : SearchAt E w t v s tab i) : SearchAt E w' t v s tab i := by
  have hlen := hc.length _ h.snap.le
  exact ⟨h.snap.mono hc hh hp hn, h.slot, by rw [hlen]; exact h.lt,
    fun k hs hi => (h.before k hs (hlen ▸ hi)).mono hp⟩

theorem Searched.mono {p : Contains K} (h : Searched E w t v s p) : Searched E w' t v s p := by
  refine ⟨h.lt, fun k hk => (h.below k hk).mono hp, ?_⟩
  have hpoint := h.point
  cases p with
  | lock | table => trivial
  | unlock tab => exact Snap.mono hpoint hc hh hp hn
  | bin tab i => exact SearchAt.mono hc hh hp hn hpoint
  | entry tab i l =>
    obtain ⟨hs, he⟩ := hpoint
    have hlen := hc.length _ hs.snap.le
    exact ⟨hs.mono hc hh hp hn, fun e hl => (he.sees e hl).mono hc hh hp hn,
      fun k hk => (he.rest k (hlen ▸ hk)).imp_left fun h => h.mono hp⟩

end Mono

/-- What is said of the moments `past` by the answer `b`. -/
def Answered (past : (K → Option V) → Prop) (v : V) : Bool → Prop
  | true => ∃ k x, past x ∧ x k = some v
  | false => ∀ k, ∃ x, past x ∧ x k ≠ some v

/-- Where a step of the search leads. -/
def Searches (E : Env K) (w : World T K V) (t : T) (v : V) (pc : Pc K V) (es : List (Event K V)) : Prop :=
  (∃ s p, pc = .contains v s p ∧ es = [] ∧ Searched E w t v s p) ∨
    ∃ b, pc = .idle ∧ es = [.answer (.bool b)] ∧ Answered (w.past t) v b

theorem searches_next (hh : Heap E w) (hlt : s < concurrencyLevel)
    (hbelow : ∀ k, segment (hash E k) < s → Missed w t v k) (hs : SearchAt E w t v s tab i)
    (he : EntryAt E w t v tab i l) (hm : m.length tab = w.mem.length tab)
    (ha : containing m v s tab i l = some (m', pc', es)) : Searches E w t v pc' es := by
  have hcap := hh.capacity _ hs.snap.le
  rw [containing, hm] at ha
  split at ha
  · cases ha
    exact .inl ⟨_, _, rfl, rfl, hlt, hbelow, hs, he⟩
  · next hnil =>
    obtain rfl := not_not.mp hnil
    -- the slots of a segment are `concurrencyLevel` apart
    have hbefore : ∀ k, segment (hash E k) = s →
        index (hash E k) (w.mem.length tab) < i + concurrencyLevel → Missed w t v k := fun k hseg hi => by
      have hmod := hcap.index_mod (hash E k)
      have hslot := hs.slot
      rw [hseg] at hmod
      rw [concurrencyLevel] at hi hmod hslot
      rcases Nat.lt_trichotomy (index (hash E k) (w.mem.length tab)) i with hlt | heq | hgt
      · exact hs.before k hseg hlt
      · rcases he.rest k heq with hmiss | ⟨e, he, -⟩
        · exact hmiss
        · cases he
      · omega
    split at ha
    · next hlt' =>
      cases ha
      exact .inl ⟨_, _, rfl, rfl, hlt, hbelow, hs.snap, by rw [Nat.add_mod_right, hs.slot], hlt', hbefore⟩
    · next hge =>
      have hdone : ∀ k, segment (hash E k) < s + 1 → Missed w t v k := fun k hk => by
        rcases Nat.lt_succ_iff_lt_or_eq.mp hk with hk | hk
        · exact hbelow k hk
        · have := hcap.index_lt (hash E k)
          exact hbefore k hk (by omega)
      split at ha
      · next hlt' =>
        cases ha
        exact .inl ⟨_, _, rfl, rfl, hlt', hdone, trivial⟩
      · next hend =>
        cases ha
        refine .inr ⟨false, rfl, rfl, fun k => hdone k ?_⟩
        have := segment_lt (hash E k)
        omega

theorem searches_access [DecidableEq V] (hh : Heap E w) (hn : w.past t w.s) {p : Contains K}
    (h : Searched E w t v s p) (ha : p.access t w.mem v s = some (m', pc', es)) :
    Searches E w t v pc' es := by
  obtain ⟨hlt, hbelow, hpoint⟩ := h
  cases p with
  | lock =>
    obtain ⟨-, -, rfl, rfl⟩ := acquire_eq ha
    exact .inl ⟨_, _, rfl, rfl, hlt, hbelow, trivial⟩
  | table =>
    cases ha
    exact .inl ⟨_, _, rfl, rfl, hlt, hbelow, .inl rfl⟩
  | unlock tab =>
    have hsnap : Snap E w t tab := hpoint
    have hcap := hh.capacity _ hsnap.le
    rw [Contains.access, if_pos (hlt.trans_le hcap.le)] at ha
    cases ha
    refine .inl ⟨_, _, rfl, rfl, hlt, hbelow, hsnap, Nat.mod_eq_of_lt hlt, hlt.trans_le hcap.le,
      fun k hseg hi => ?_⟩
    have hmod := hcap.index_mod (hash E k)
    rw [Nat.mod_eq_of_lt (hi.trans hlt)] at hmod
    omega
  | bin tab i =>
    have hs : SearchAt E w t v s tab i := hpoint
    obtain ⟨hsees, habs⟩ := hs.snap.read hh hn i
    refine searches_next hh hlt hbelow hs ⟨hsees, fun k hk => ?_⟩ rfl ha
    by_cases hlack : Lacks k (w.mem.bins tab i)
    · obtain ⟨x, hx, hxk⟩ := habs k hk hlack
      exact .inl ⟨x, hx, by simp [hxk]⟩
    · simp only [Lacks, not_forall, not_not] at hlack
      obtain ⟨e, he, hek⟩ := hlack
      exact .inr ⟨e, he, hek⟩
  | entry tab i l =>
    obtain ⟨hs, he⟩ := hpoint
    cases l with
    | nil => cases ha
    | cons e l =>
      obtain ⟨x, hx, hxe⟩ := (he.sees e List.mem_cons_self).read hh hn
      rw [Contains.access] at ha
      split at ha
      · next hv =>
        cases ha
        exact .inr ⟨true, rfl, rfl, e.key, x, hx, hxe.trans hv⟩
      · next hv =>
        refine searches_next hh hlt hbelow hs ⟨fun a ha => he.sees a (List.mem_cons_of_mem _ ha),
          fun k hk => ?_⟩ rfl ha
        rcases he.rest k hk with hmiss | ⟨a, ha, rfl⟩
        · exact .inl hmiss
        · rcases List.mem_cons.mp ha with rfl | ha
          · exact .inl ⟨x, hx, hxe ▸ hv⟩
          · exact .inr ⟨a, ha, rfl⟩

/-! ## Every run -/

variable [DecidableEq T] [DecidableEq K] [DecidableEq V] {c : JInt} {tr₁ tr₂ tr : List (T × Event K V)}
  {c₁ cf : Config T (Mem T K V) (Loc K V)} {u : T}

/-- The current table stood for `x` at some moment of the run. -/
def During (E : Env K) (c₁ : Config T (Mem T K V) (Loc K V)) (tr : List (T × Event K V))
    (cf : Config T (Mem T K V) (Loc K V)) (x : K → Option V) : Prop :=
  ∃ tr₂ tr₃ c₂, tr = tr₂ ++ tr₃ ∧ (program T V E).Run anyStep c₁ tr₂ c₂ ∧
    (program T V E).Run anyStep c₂ tr₃ cf ∧ c₂.mem.contents E = x

theorem During.now (hrun : (program T V E).Run anyStep c₁ tr cf) :
    During E c₁ tr cf (cf.mem.contents E) :=
  ⟨tr, [], cf, by simp, hrun, .start, rfl⟩

theorem During.step {x : K → Option V} (h : During E c₁ tr cf x) {a : Act K V} {lc : Loc K V}
    (hs : (program T V E).step u a cf.mem (cf.loc u) = some (m, lc, es)) :
    During E c₁ (tr ++ emit u es) (move cf u m lc) x := by
  obtain ⟨tr₂, tr₃, c₂, rfl, h₂, h₃, hx⟩ := h
  exact ⟨tr₂, tr₃ ++ emit u es, c₂, by rw [List.append_assoc], h₂, h₃.step hs trivial, hx⟩

omit [DecidableEq T] [DecidableEq K] [DecidableEq V] in
theorem Answered.mono {past past' : (K → Option V) → Prop} {b : Bool} (h : Answered past v b)
    (hp : ∀ x, past x → past' x) : Answered past' v b := by
  cases b with
  | true =>
    obtain ⟨k, x, hx, hk⟩ := h
    exact ⟨k, x, hp x hx, hk⟩
  | false => exact fun k => (h k).imp fun x hx => hx.imp_left (hp x)

omit [DecidableEq T] in
/-- A thread in the search goes on with it. -/
theorem step_searching {a : Act K V} {lc lc' : Loc K V} {p : Contains K}
    (hs : step E t a m lc = some (m', lc', es)) (hpc : lc.pc = .contains v s p) :
    p.access t m v s = some (m', lc'.pc, es) := by
  obtain ⟨pc, iter⟩ := lc
  obtain rfl : pc = .contains v s p := hpc
  cases a with
  | call o | ask q => cases hs
  | run =>
    obtain ⟨r, hr, heq⟩ := Option.map_eq_some_iff.mp hs
    cases heq
    exact hr

omit [DecidableEq T] in
/-- An idle thread makes a call. -/
theorem step_idle {a : Act K V} {lc lc' : Loc K V} (hs : step E t a m lc = some (m', lc', es))
    (hpc : lc.pc = .idle) : (∃ q, .ask q ∈ es) ∨ ∃ o, .mark (.call o) ∈ es := by
  obtain ⟨pc, iter⟩ := lc
  obtain rfl : pc = .idle := hpc
  cases a with
  | call o =>
    cases hs
    exact .inr ⟨o, List.mem_cons_self⟩
  | ask q =>
    obtain ⟨r, -, heq⟩ := Option.map_eq_some_iff.mp hs
    cases heq
    exact .inl ⟨q, List.mem_cons_self⟩
  | run => cases hs

/-- Thread `t` makes no call. -/
def NoCall (t : T) (tr : List (T × Event K V)) : Prop :=
  (∀ q, (t, .ask q) ∉ tr) ∧ ∀ o, (t, .mark (.call o)) ∉ tr

/-- The search of `t` since the state `c₁`, in the world `w`: still going on, or answered. -/
def Inquiry (E : Env K) (c₁ : Config T (Mem T K V) (Loc K V)) (t : T) (v : V) (w : World T K V)
    (tr : List (T × Event K V)) (cf : Config T (Mem T K V) (Loc K V)) : Prop :=
  (∃ s p, (cf.loc t).pc = .contains v s p ∧ (∀ b, (t, .answer b) ∉ tr) ∧
      Searched E (w.since fun _ => During E c₁ tr cf) t v s p) ∨
    (cf.loc t).pc = .idle ∧ ∀ b, (t, .answer (.bool b)) ∈ tr → Answered (During E c₁ tr cf) v b

/-- A step keeps the inquiry: of the searching thread it is a step of the search, and a step of
another thread leaves what the search has found. -/
theorem Inquiry.next {t : T} {a : Act K V} {lc : Loc K V} (h : Inquiry E c₁ t v w tr cf)
    (hrun : (program T V E).Run anyStep c₁ tr cf)
    (hs : (program T V E).step u a cf.mem (cf.loc u) = some (m, lc, es))
    (hw : (outline T V E).Holds w tr₁ cf) (hw' : (outline T V E).Holds w' tr₂ (move cf u m lc))
    (hc : Common w w') (hown : NoCall t (tr ++ emit u es)) :
    Inquiry E c₁ t v w' (tr ++ emit u es) (move cf u m lc) := by
  have hmem : w.mem = cf.mem := hw.mem
  have hnow : During E c₁ tr cf w.s := by
    rw [← hw.glob.heap.contents, hmem]
    exact .now hrun
  have hnow' : During E c₁ (tr ++ emit u es) (move cf u m lc) w'.s := by
    rw [← hw'.glob.heap.contents, show w'.mem = m from hw'.mem]
    exact .now (hrun.step hs trivial)
  have hmono : ∀ x, During E c₁ tr cf x → During E c₁ (tr ++ emit u es) (move cf u m lc) x :=
    fun x hx => hx.step hs
  have hsearch : ∀ {s p}, Searched E (w.since fun _ => During E c₁ tr cf) t v s p →
      Searched E (w'.since fun _ => During E c₁ (tr ++ emit u es) (move cf u m lc)) t v s p := by
    intro s p h
    have hp : ∀ x, (w.since fun _ => During E c₁ tr cf).past t x →
        (w'.since fun _ => During E c₁ (tr ++ emit u es) (move cf u m lc)).past t x := hmono
    exact h.mono (since_common hc) (since_heap hw.glob.heap) hp hnow'
  by_cases htu : t = u
  · subst htu
    rw [Inquiry, move_loc_self]
    rcases h with ⟨s, p, hpc, hno, hse⟩ | ⟨hpc, -⟩
    · have ha := step_searching hs hpc
      rw [← hmem] at ha
      rcases searches_access (w := w.since fun _ => During E c₁ tr cf) (since_heap hw.glob.heap) hnow hse ha
        with ⟨s', p', hpc', rfl, hse'⟩ | ⟨b, hpc', rfl, hans⟩
      · exact .inl ⟨s', p', hpc', by simpa using hno, hsearch hse'⟩
      · refine .inr ⟨hpc', fun b' hb' => ?_⟩
        rcases List.mem_append.mp hb' with hb' | hb'
        · exact absurd hb' (hno _)
        · obtain rfl : b' = b := by simpa using hb'
          exact hans.mono hmono
    · exfalso
      rcases step_idle hs hpc with ⟨q, hq⟩ | ⟨o, ho⟩
      · exact hown.1 q (List.mem_append_right _ (mem_emit.mpr ⟨rfl, hq⟩))
      · exact hown.2 o (List.mem_append_right _ (mem_emit.mpr ⟨rfl, ho⟩))
  · have hsame : ∀ {e}, (t, e) ∈ tr ++ emit u es → (t, e) ∈ tr := fun h =>
      (List.mem_append.mp h).resolve_right fun h => htu (mem_emit.mp h).1
    rw [Inquiry, move_loc_of_ne _ _ _ htu]
    rcases h with ⟨s, p, hpc, hno, hse⟩ | ⟨hpc, hans⟩
    · exact .inl ⟨s, p, hpc, fun b hb => hno b (hsame hb), hsearch hse⟩
    · exact .inr ⟨hpc, fun b hb => (hans b (hsame hb)).mono hmono⟩

theorem inquiry_of_run {t : T} (h₁ : (program T V E).Run anyStep (start T V E c) tr₁ c₁)
    (hcall : (c₁.loc t).pc = .contains v 0 .lock) (hrun : (program T V E).Run anyStep c₁ tr cf)
    (hown : NoCall t tr) : ∃ w, (outline T V E).Holds w (tr₁ ++ tr) cf ∧ Inquiry E c₁ t v w tr cf := by
  induction hrun with
  | start =>
    obtain ⟨w, hw⟩ := holds_of_run h₁
    rw [List.append_nil]
    exact ⟨w, hw, .inl ⟨0, .lock, hcall, by simp, by decide, fun k hk => absurd hk (Nat.not_lt_zero _),
      trivial⟩⟩
  | step hrun hs _ ih =>
    obtain ⟨w, hw, hinq⟩ := ih ⟨fun q h => hown.1 q (List.mem_append_left _ h),
      fun o h => hown.2 o (List.mem_append_left _ h)⟩
    obtain ⟨w', hw', hc, -⟩ := hw.next hs trivial trivial
    exact ⟨w', by rwa [List.append_assoc] at hw', hinq.next hrun hs hw hw' hc hown⟩

/-- When `containsValue` answers true some key had the value at a moment of the call; when it
answers false, each key did not have the value at a moment of the call. -/
theorem containsValue_answer {t : T} (h₁ : (program T V E).Run anyStep (start T V E c) tr₁ c₁)
    (hcall : (c₁.loc t).pc = .contains v 0 .lock) (hrun : (program T V E).Run anyStep c₁ tr cf)
    (hown : NoCall t tr) {b : Bool} (hb : (t, .answer (.bool b)) ∈ tr) :
    if b then ∃ k x, During E c₁ tr cf x ∧ x k = some v
    else ∀ k, ∃ x, During E c₁ tr cf x ∧ x k ≠ some v := by
  obtain ⟨w, -, ⟨s, p, -, hno, -⟩ | ⟨-, hans⟩⟩ := inquiry_of_run h₁ hcall hrun hown
  · exact absurd hb (hno _)
  · have hans := hans b hb
    cases b with
    | true => exact hans
    | false => exact hans

/-- A value that is put while `containsValue` looks for it. -/
theorem containsValue_answer_put :
    ∃ (c₁ cf : Config Bool (Mem Bool ℕ ℕ) (Loc ℕ ℕ)) (tr : List (Bool × Event ℕ ℕ)),
      (true, .answer (.bool true)) ∈ tr ∧ ∃ k x, During natural c₁ tr cf x ∧ x k = some 7 := by
  have h₀ : (program Bool ℕ natural).Run anyStep (start Bool ℕ natural 0) [] (start Bool ℕ natural 0) :=
    .start
  have h₁ := h₀.solo true [.ask (.containsValue 7)] (concurrentHashMap Bool ℕ natural 0)
    ⟨.contains 7 0 .lock, none⟩ _ rfl
  have h₂ : (program Bool ℕ natural).Run anyStep (move (start Bool ℕ natural 0) true
    (concurrentHashMap Bool ℕ natural 0) ⟨.contains 7 0 .lock, none⟩) [] _ := .start
  have h₃ := h₂.solo false (.call (.put 0 7) :: List.replicate 12 .run) _ _
    [.mark (.call (.put 0 7)), .mark .lin, .mark (.ret none)] rfl
  have h₄ := h₃.solo true (List.replicate 5 .run) _ _ [.answer (.bool true)] rfl
  have hans : (true, Event.answer (.bool true)) ∈ ([] ++ emit false
      [Event.mark (.call (.put 0 7)), .mark .lin, .mark (.ret none)] ++
      emit true [.answer (.bool true)] : List (Bool × Event ℕ ℕ)) := by simp [emit]
  exact ⟨_, _, _, hans, containsValue_answer h₁ rfl h₄ ⟨by simp [emit], by simp [emit]⟩ hans⟩

end Cds.ConcurrentHashMap
