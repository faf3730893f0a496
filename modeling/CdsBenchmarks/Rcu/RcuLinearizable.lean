import CdsBenchmarks.Rcu.RcuDefs

/-! The pair is a linearizable pair of counters. A write takes effect when it swings
`dataPtr`, a read when it loads it: a published `Data` does not change, and the buffer a
writer reuses over its attempts is nobody else's until then. -/

namespace Cds.Rcu
open Concurrent Program

variable {T A : Type*}

theorem plus_snoc (s : CInt × CInt) (h : List (T × Event)) (t : T) (d1 d2 : CInt) :
    plus s (h ++ [(t, .swung d1 d2)]) = ((plus s h).1 + d1, (plus s h).2 + d2) := by
  simp [plus, writes, add_assoc]

theorem plus_snoc_of_ne (s : CInt × CInt) (h : List (T × Event)) (t : T) {e : Event}
    (he : ∀ d1 d2, e ≠ .swung d1 d2) : plus s (h ++ [(t, e)]) = plus s h := by
  cases e with
  | swung d1 d2 => exact absurd rfl (he d1 d2)
  | _ => simp [plus, writes]

theorem marks_snoc (h : List (T × Event)) (t : T) (e : Event) :
    marks (h ++ [(t, e)]) = marks h ++ [(t, e.mark)] := by simp [marks]

namespace Pair

/-! ## Calls in a trace -/

/-- The call of `t` in progress is `o`, called at position `i`, and nothing happened in it yet. -/
def Called (t : T) (h : List (T × Event)) (o : Op) : Prop :=
  ∃ i, h[i]? = some (t, .call o) ∧ Latest h t i

/-- The call of `t` in progress is a read that loaded `dataPtr` at position `p`, or a write
that swung it. -/
def Took (s : CInt × CInt) (t : T) (h : List (T × Event)) : Res → Prop
  | some v => ∃ i p, h[i]? = some (t, .call .read) ∧ Next h t i p .loaded ∧ Latest h t p ∧
      v = plus s (h.take p)
  | none => ∃ i p d1 d2, h[i]? = some (t, .call (.write d1 d2)) ∧ Next h t i p (.swung d1 d2) ∧
      Latest h t p

theorem getElem?_emit {h : List (T × Event)} {x : T × Event} {i : ℕ} (hi : h[i]? = some x)
    (h' : List (T × Event)) : (h ++ h')[i]? = some x := by
  rwa [List.getElem?_append_left (lt_of_getElem? hi)]

theorem Next.take {h : List (T × Event)} {t : T} {i p : ℕ} {e : Event} (hn : Next h t i p e)
    (h' : List (T × Event)) : (h ++ h').take p = h.take p :=
  List.take_append_of_le_length (Nat.le_of_lt (lt_of_getElem? hn.2.1))

theorem Called.other {t u : T} {h : List (T × Event)} {o : Op} (hc : Called u h o) (hu : u ≠ t)
    (es : List Event) : Called u (h ++ emit t es) o := by
  obtain ⟨i, hi, hl⟩ := hc
  exact ⟨i, getElem?_emit hi _, hl.other hu es⟩

theorem Took.other {s : CInt × CInt} {t u : T} {h : List (T × Event)} {r : Res}
    (hc : Took s u h r) (hu : u ≠ t) (es : List Event) : Took s u (h ++ emit t es) r := by
  cases r with
  | some v =>
    obtain ⟨i, p, hi, hn, hl, hv⟩ := hc
    exact ⟨i, p, getElem?_emit hi _, hn.append, hl.other hu es, by rw [Next.take hn, hv]⟩
  | none =>
    obtain ⟨i, p, d1, d2, hi, hn, hl⟩ := hc
    exact ⟨i, p, d1, d2, getElem?_emit hi _, hn.append, hl.other hu es⟩

/-- What a trace says of the results so far: a read returned the sums over the writes
before its load, a write that returned swung `dataPtr` once, and only writes in progress
swing it. -/
structure Results (s : CInt × CInt) (h : List (T × Event)) : Prop where
  read : ∀ j t v, h[j]? = some (t, .ret (some v)) → ∃ i p, h[i]? = some (t, .call .read) ∧
    Next h t i p .loaded ∧ Next h t p j (.ret (some v)) ∧ v = plus s (h.take p)
  write : ∀ j t, h[j]? = some (t, .ret none) → ∃ i p d1 d2, h[i]? = some (t, .call (.write d1 d2)) ∧
    Next h t i p (.swung d1 d2) ∧ Next h t p j (.ret none)
  swung : ∀ p t d1 d2, h[p]? = some (t, .swung d1 d2) → ∃ i, h[i]? = some (t, .call (.write d1 d2)) ∧
    Next h t i p (.swung d1 d2)

theorem Results.snoc {s : CInt × CInt} {h : List (T × Event)} (hr : Results s h) (t : T) {e : Event}
    (hread : ∀ v, e = .ret (some v) → Took s t h (some v)) (hwrite : e = .ret none → Took s t h none)
    (hswung : ∀ d1 d2, e = .swung d1 d2 → Called t h (.write d1 d2)) :
    Results s (h ++ [(t, e)]) := by
  constructor
  · intro j u v hj
    rcases (getElem?_snoc ..).mp hj with hj | ⟨rfl, heq⟩
    · obtain ⟨i, p, hi, hn, hn', hv⟩ := hr.read j u v hj
      exact ⟨i, p, getElem?_emit hi _, hn.append, hn'.append, by rw [Next.take hn, hv]⟩
    · cases heq
      obtain ⟨i, p, hi, hn, hl, hv⟩ := hread v rfl
      exact ⟨i, p, getElem?_emit hi _, hn.append, next_snoc.mpr (.inr ⟨rfl, rfl, rfl, hl⟩),
        by rw [Next.take hn, hv]⟩
  · intro j u hj
    rcases (getElem?_snoc ..).mp hj with hj | ⟨rfl, heq⟩
    · obtain ⟨i, p, d1, d2, hi, hn, hn'⟩ := hr.write j u hj
      exact ⟨i, p, d1, d2, getElem?_emit hi _, hn.append, hn'.append⟩
    · cases heq
      obtain ⟨i, p, d1, d2, hi, hn, hl⟩ := hwrite rfl
      exact ⟨i, p, d1, d2, getElem?_emit hi _, hn.append, next_snoc.mpr (.inr ⟨rfl, rfl, rfl, hl⟩)⟩
  · intro p u d1 d2 hp
    rcases (getElem?_snoc ..).mp hp with hp | ⟨rfl, heq⟩
    · obtain ⟨i, hi, hn⟩ := hr.swung p u d1 d2 hp
      exact ⟨i, getElem?_emit hi _, hn.append⟩
    · cases heq
      obtain ⟨i, hi, hl⟩ := hswung d1 d2 rfl
      exact ⟨i, getElem?_emit hi _, next_snoc.mpr (.inr ⟨rfl, rfl, rfl, hl⟩)⟩

/-! ## Published versions and private buffers -/

/-- `version a` is the pair published at address `a`, `owner a` the thread whose write has
its buffer there. -/
structure World (T A : Type*) where
  mem : Mem A
  hist : List (T × Event)
  version : A → Option (CInt × CInt)
  owner : A → Option T
  st : T → Status Op Res

structure Glob [DecidableEq T] (s : CInt × CInt) (w : World T A) : Prop where
  replay : (counters s).Replay (marks w.hist) (plus s w.hist) w.st
  results : Results s w.hist
  current : w.version w.mem.dataPtr = some (plus s w.hist)
  fields : ∀ a v, w.version a = some v → v = (w.mem.data1 a, w.mem.data2 a)
  fresh : ∀ a, a ∉ w.mem.used → w.version a = none ∧ w.owner a = none
  own : ∀ a t, w.owner a = some t → w.version a = none

def Reading (s : CInt × CInt) (t : T) (w : World T A) (v : CInt × CInt) : Prop :=
  w.st t = .done .read (some v) ∧ Took s t w.hist (some v)

/-- Thread `t` writes with buffer `tmp`. -/
def Writing (t : T) (w : World T A) (d1 d2 : CInt) (tmp : A) : Prop :=
  w.st t = .pending (.write d1 d2) ∧ Called t w.hist (.write d1 d2) ∧ w.owner tmp = some t

def Local (s : CInt × CInt) (t : T) (w : World T A) : Pc A → Prop
  | .idle => w.st t = .idle
  | .readPtr => w.st t = .pending .read ∧ Called t w.hist .read
  | .readData1 res => ∃ v, Reading s t w v ∧ w.version res = some v
  | .readData2 res x => ∃ v, Reading s t w v ∧ w.version res = some v ∧ x = v.1
  | .writeNew d1 d2 => w.st t = .pending (.write d1 d2) ∧ Called t w.hist (.write d1 d2)
  | .writePtr d1 d2 tmp => Writing t w d1 d2 tmp
  | .incLoad1 d1 d2 tmp prev => Writing t w d1 d2 tmp ∧ ∃ v, w.version prev = some v
  | .incStore1 d1 d2 tmp prev x => Writing t w d1 d2 tmp ∧ ∃ v, w.version prev = some v ∧ x = v.1
  | .incLoad2 d1 d2 tmp prev =>
    Writing t w d1 d2 tmp ∧ ∃ v, w.version prev = some v ∧ w.mem.data1 tmp = v.1 + d1
  | .incStore2 d1 d2 tmp prev x =>
    Writing t w d1 d2 tmp ∧ ∃ v, w.version prev = some v ∧ w.mem.data1 tmp = v.1 + d1 ∧ x = v.2
  | .writeCas d1 d2 tmp prev => Writing t w d1 d2 tmp ∧ ∃ v, w.version prev = some v ∧
      w.mem.data1 tmp = v.1 + d1 ∧ w.mem.data2 tmp = v.2 + d2
  | .ret r => (∃ o, w.st t = .done o r) ∧ Took s t w.hist r

/-- What the other threads see of a step of `t`. -/
structure Guar (t : T) (w w' : World T A) : Prop where
  hist : ∃ es, w'.hist = w.hist ++ emit t es
  st : ∀ u, u ≠ t → w'.st u = w.st u
  version : ∀ a v, w.version a = some v → w'.version a = some v
  own : ∀ a u, u ≠ t → w.owner a = some u →
    w'.owner a = some u ∧ w'.mem.data1 a = w.mem.data1 a ∧ w'.mem.data2 a = w.mem.data2 a

theorem Guar.refl (t : T) (w : World T A) : Guar t w w :=
  ⟨⟨[], (List.append_nil _).symm⟩, fun _ _ => rfl, fun _ _ h => h, fun _ _ _ h => ⟨h, rfl, rfl⟩⟩

theorem Local.stable {s : CInt × CInt} {t u : T} {w w' : World T A} {l : Pc A} (hu : u ≠ t)
    (hl : Local s u w l) (hg : Guar t w w') : Local s u w' l := by
  obtain ⟨es, hhist⟩ := hg.hist
  have hst := hg.st u hu
  have hcalled : ∀ {o}, Called u w.hist o → Called u w'.hist o := fun h => hhist ▸ h.other hu es
  have htook : ∀ {r}, Took s u w.hist r → Took s u w'.hist r := fun h => hhist ▸ h.other hu es
  have hreading : ∀ {v}, Reading s u w v → Reading s u w' v := fun h => ⟨hst ▸ h.1, htook h.2⟩
  have hwriting : ∀ {d1 d2 tmp}, Writing u w d1 d2 tmp → Writing u w' d1 d2 tmp :=
    fun h => ⟨hst ▸ h.1, hcalled h.2.1, (hg.own _ u hu h.2.2).1⟩
  cases l with
  | idle => exact hst.trans hl
  | readPtr | writeNew => exact ⟨hst.trans hl.1, hcalled hl.2⟩
  | readData1 res =>
    obtain ⟨v, hv, hver⟩ := hl
    exact ⟨v, hreading hv, hg.version _ _ hver⟩
  | readData2 res x =>
    obtain ⟨v, hv, hver, hx⟩ := hl
    exact ⟨v, hreading hv, hg.version _ _ hver, hx⟩
  | writePtr d1 d2 tmp => exact hwriting hl
  | incLoad1 d1 d2 tmp prev =>
    obtain ⟨hw, v, hver⟩ := hl
    exact ⟨hwriting hw, v, hg.version _ _ hver⟩
  | incStore1 d1 d2 tmp prev x =>
    obtain ⟨hw, v, hver, hx⟩ := hl
    exact ⟨hwriting hw, v, hg.version _ _ hver, hx⟩
  | incLoad2 d1 d2 tmp prev =>
    obtain ⟨hw, v, hver, h1⟩ := hl
    have hown := hg.own _ u hu hw.2.2
    exact ⟨hwriting hw, v, hg.version _ _ hver, hown.2.1.trans h1⟩
  | incStore2 d1 d2 tmp prev x =>
    obtain ⟨hw, v, hver, h1, hx⟩ := hl
    have hown := hg.own _ u hu hw.2.2
    exact ⟨hwriting hw, v, hg.version _ _ hver, hown.2.1.trans h1, hx⟩
  | writeCas d1 d2 tmp prev =>
    obtain ⟨hw, v, hver, h1, h2⟩ := hl
    have hown := hg.own _ u hu hw.2.2
    exact ⟨hwriting hw, v, hg.version _ _ hver, hown.2.1.trans h1, hown.2.2.trans h2⟩
  | ret r => exact ⟨hl.1.imp fun _ h => hst.trans h, htook hl.2⟩

/-! ## The steps -/

variable [DecidableEq T]

def assertions (s : CInt × CInt) : Assertions T (Mem A) (Pc A) Event (World T A) where
  mem := World.mem
  hist := World.hist
  glob := Glob s
  loc := Local s
  guar := Guar

variable {s : CInt × CInt} {t : T} {w : World T A}

/-- The world after thread `t` emitted `e` and moved to status `x`. -/
def World.mark (w : World T A) (t : T) (e : Event) (x : Status Op Res) : World T A :=
  { w with hist := w.hist ++ [(t, e)], st := Function.update w.st t x }

theorem Guar.mark (t : T) (w : World T A) (e : Event) (x : Status Op Res) :
    Guar t w (w.mark t e x) :=
  { Guar.refl t w with
    hist := ⟨[e], rfl⟩
    st := fun _ hu => Function.update_of_ne hu .. }

/-- An event that is no write leaves the published versions as they are. -/
theorem Glob.mark (hg : Glob s w) {e : Event} {x : Status Op Res} (he : ∀ d1 d2, e ≠ .swung d1 d2)
    (hrep : (counters s).Replay (marks w.hist ++ [(t, e.mark)]) (plus s w.hist)
      (Function.update w.st t x))
    (hres : Results s (w.hist ++ [(t, e)])) : Glob s (w.mark t e x) := by
  refine ⟨?_, hres, ?_, hg.fields, hg.fresh, hg.own⟩
  · rw [World.mark, marks_snoc, plus_snoc_of_ne s _ t he]
    exact hrep
  · rw [World.mark, plus_snoc_of_ne s _ t he]
    exact hg.current

theorem follows_call (hg : Glob s w) (hl : Local s t w .idle) (o : Op) :
    (assertions s).Follows t w w.mem o.entry [.call o] := by
  have hres : Results s (w.hist ++ [(t, .call o)]) := hg.results.snoc t (by simp) (by simp) (by simp)
  have hcalled : Called t (w.hist ++ [(t, .call o)]) o := ⟨w.hist.length, by simp, latest_snoc ..⟩
  refine ⟨w.mark t (.call o) (.pending o), rfl, rfl, hg.mark (by simp) (hg.replay.call hl) hres, ?_,
    .mark ..⟩
  cases o <;> exact ⟨Function.update_self .., hcalled⟩

/-- A read takes effect when it loads `dataPtr`. -/
theorem follows_readPtr (hg : Glob s w) (hl : Local s t w .readPtr) :
    (assertions s).Follows t w w.mem (.readData1 w.mem.dataPtr) [.loaded] := by
  obtain ⟨hst, i, hi, hlatest⟩ := hl
  have hres : Results s (w.hist ++ [(t, .loaded)]) := hg.results.snoc t (by simp) (by simp) (by simp)
  have hrep := hg.replay.lin (r := some (plus s w.hist)) hst ⟨rfl, rfl⟩
  refine ⟨w.mark t .loaded (.done .read (some (plus s w.hist))), rfl, rfl, hg.mark (by simp) hrep hres,
    ⟨_, ⟨Function.update_self .., i, w.hist.length, getElem?_emit hi _, ?_, latest_snoc .., ?_⟩,
      hg.current⟩,
    .mark ..⟩
  · exact next_snoc.mpr (.inr ⟨rfl, rfl, rfl, hlatest⟩)
  · simp [World.mark]

theorem follows_ret (hg : Glob s w) {r : Res} (hl : Local s t w (.ret r)) :
    (assertions s).Follows t w w.mem .idle [.ret r] := by
  obtain ⟨⟨o, hst⟩, htook⟩ := hl
  have hres : Results s (w.hist ++ [(t, .ret r)]) := by
    refine hg.results.snoc t ?_ ?_ (by simp)
    · rintro v heq
      cases heq
      exact htook
    · rintro heq
      cases heq
      exact htook
  exact ⟨w.mark t (.ret r) .idle, rfl, rfl, hg.mark (by simp) (hg.replay.ret hst) hres,
    Function.update_self .., .mark ..⟩

variable [DecidableEq A]

/-- `new` gives a writer a buffer of its own. -/
theorem follows_alloc (hg : Glob s w) {d1 d2 : CInt} (hl : Local s t w (.writeNew d1 d2)) {a : A}
    (ha : a ∉ w.mem.used) : (assertions s).Follows t w { w.mem with used := insert a w.mem.used }
      (.writePtr d1 d2 a) [] := by
  obtain ⟨hver, hown⟩ := hg.fresh a ha
  refine ⟨{ w with mem := { w.mem with used := insert a w.mem.used },
                   owner := Function.update w.owner a (some t) }, rfl, (List.append_nil _).symm,
    ⟨hg.replay, hg.results, hg.current, hg.fields, ?_, ?_⟩, ⟨hl.1, hl.2, Function.update_self ..⟩, ?_⟩
  · intro b hb
    rw [Finset.mem_insert, not_or] at hb
    simpa [hb.1] using hg.fresh b hb.2
  · intro b u hb
    by_cases hba : b = a
    · exact hba ▸ hver
    · exact hg.own b u (by simpa [hba] using hb)
  · refine { Guar.refl t w with own := fun b u _ hb => ⟨?_, rfl, rfl⟩ }
    have hba : b ≠ a := by
      rintro rfl
      simp [hown] at hb
    simpa [hba] using hb

omit [DecidableEq A] in
/-- A store to the buffer of `t`. -/
theorem follows_store (hg : Glob s w) {tmp : A} (hown : w.owner tmp = some t) {m : Mem A} {l : Pc A}
    (hptr : m.dataPtr = w.mem.dataPtr) (hused : m.used = w.mem.used)
    (h1 : ∀ a, a ≠ tmp → m.data1 a = w.mem.data1 a) (h2 : ∀ a, a ≠ tmp → m.data2 a = w.mem.data2 a)
    (hl : Local s t { w with mem := m } l) : (assertions s).Follows t w m l [] := by
  refine ⟨{ w with mem := m }, rfl, (List.append_nil _).symm,
    ⟨hg.replay, hg.results, by rw [hptr]; exact hg.current, ?_, by rw [hused]; exact hg.fresh, hg.own⟩,
    hl, ?_⟩
  · intro a v hv
    have ha : a ≠ tmp := by
      rintro rfl
      simp [hg.own a t hown] at hv
    rw [h1 a ha, h2 a ha]
    exact hg.fields a v hv
  · refine { Guar.refl t w with own := fun a u hu ha => ?_ }
    have hne : a ≠ tmp := by
      rintro rfl
      exact hu (Option.some.inj (ha.symm.trans hown))
    exact ⟨ha, h1 a hne, h2 a hne⟩

/-- A successful compare_exchange publishes the buffer: `dataPtr` still holds the version
the sums were made from. -/
theorem follows_writeCas (hg : Glob s w) {d1 d2 : CInt} {tmp prev : A}
    (hl : Local s t w (.writeCas d1 d2 tmp prev)) (heq : w.mem.dataPtr = prev) :
    (assertions s).Follows t w { w.mem with dataPtr := tmp } (.ret none) [.swung d1 d2] := by
  obtain ⟨⟨hst, hcalled, hown⟩, v, hver, h1, h2⟩ := hl
  obtain rfl : v = plus s w.hist := Option.some.inj (hver.symm.trans (heq ▸ hg.current))
  obtain ⟨i, hi, hlatest⟩ := hcalled
  have hres : Results s (w.hist ++ [(t, .swung d1 d2)]) := by
    refine hg.results.snoc t (by simp) (by simp) ?_
    rintro _ _ ⟨⟩
    exact ⟨i, hi, hlatest⟩
  have hpost : (counters s).post (plus s w.hist) (.write d1 d2) none
      ((plus s w.hist).1 + d1, (plus s w.hist).2 + d2) := ⟨rfl, rfl⟩
  have hnone := hg.own tmp t hown
  refine ⟨{ w.mark t (.swung d1 d2) (.done (.write d1 d2) none) with
    mem := { w.mem with dataPtr := tmp }
    version := Function.update w.version tmp (some ((plus s w.hist).1 + d1, (plus s w.hist).2 + d2))
    owner := Function.update w.owner tmp none }, rfl, rfl, ⟨?_, hres, ?_, ?_, ?_, ?_⟩,
    ⟨⟨_, Function.update_self ..⟩, i, w.hist.length, d1, d2, getElem?_emit hi _,
      next_snoc.mpr (.inr ⟨rfl, rfl, rfl, hlatest⟩), latest_snoc ..⟩, ?_⟩
  · simp only [World.mark, marks_snoc, plus_snoc]
    exact hg.replay.lin hst hpost
  · simp [World.mark, plus_snoc]
  -- the new copy was filled before it was published, and the old ones are never written
  · intro a v hv
    by_cases ha : a = tmp
    · subst ha
      simpa [World.mark, h1, h2] using hv.symm
    · exact hg.fields a v (by simpa [ha] using hv)
  · intro a ha
    have hne : a ≠ tmp := by
      rintro rfl
      simp [(hg.fresh a ha).2] at hown
    simpa [hne] using hg.fresh a ha
  · intro a u ha
    by_cases hne : a = tmp
    · simp [hne] at ha
    · simpa [hne] using hg.own a u (by simpa [hne] using ha)
  · refine { Guar.mark t w (.swung d1 d2) (.done (.write d1 d2) none) with
      version := fun a v hv => ?_
      own := fun a u hu ha => ⟨?_, rfl, rfl⟩ }
    · have hne : a ≠ tmp := by
        rintro rfl
        simp [hnone] at hv
      simpa [hne] using hv
    · have hne : a ≠ tmp := by
        rintro rfl
        exact hu (Option.some.inj (ha.symm.trans hown))
      simpa [hne] using ha

theorem follows_step (hg : Glob s w) {l₀ l : Pc A} (hl : Local s t w l₀) {a : Act A} {m : Mem A}
    {es : List Event} (hs : step a w.mem l₀ = some (m, l, es)) : (assertions s).Follows t w m l es := by
  cases a with
  | call o =>
    obtain ⟨rfl, rfl, rfl, rfl⟩ : l₀ = .idle ∧ w.mem = m ∧ o.entry = l ∧ [Event.call o] = es := by
      simpa [step] using hs
    exact follows_call hg hl o
  | alloc a =>
    cases l₀ <;> simp only [step, reduceCtorEq] at hs
    case writeNew d1 d2 =>
      split at hs <;> cases hs
      next ha => exact follows_alloc hg hl ha
  | run =>
    cases l₀ <;> simp only [step, access, reduceCtorEq] at hs
    case readPtr =>
      cases hs
      exact follows_readPtr hg hl
    case readData1 res =>
      cases hs
      obtain ⟨v, hr, hver⟩ := hl
      have hv := hg.fields _ _ hver
      exact Assertions.follows_quiet hg ⟨v, hr, hver, by rw [hv]⟩ (.refl t w)
    case readData2 res x =>
      cases hs
      obtain ⟨v, hr, hver, rfl⟩ := hl
      have hv : (v.1, w.mem.data2 res) = v := by rw [hg.fields _ _ hver]
      rw [hv]
      exact Assertions.follows_quiet hg ⟨⟨_, hr.1⟩, hr.2⟩ (.refl t w)
    case writePtr d1 d2 tmp =>
      cases hs
      exact Assertions.follows_quiet hg ⟨hl, _, hg.current⟩ (.refl t w)
    case incLoad1 d1 d2 tmp prev =>
      cases hs
      obtain ⟨hw, v, hver⟩ := hl
      have hv := hg.fields _ _ hver
      exact Assertions.follows_quiet hg ⟨hw, v, hver, by rw [hv]⟩ (.refl t w)
    case incStore1 d1 d2 tmp prev x =>
      cases hs
      obtain ⟨hw, v, hver, rfl⟩ := hl
      exact follows_store hg hw.2.2 rfl rfl (fun a ha => Function.update_of_ne ha ..) (fun _ _ => rfl)
        ⟨hw, v, hver, Function.update_self ..⟩
    case incLoad2 d1 d2 tmp prev =>
      cases hs
      obtain ⟨hw, v, hver, h1⟩ := hl
      have hv := hg.fields _ _ hver
      exact Assertions.follows_quiet hg ⟨hw, v, hver, h1, by rw [hv]⟩ (.refl t w)
    case incStore2 d1 d2 tmp prev x =>
      cases hs
      obtain ⟨hw, v, hver, h1, rfl⟩ := hl
      exact follows_store hg hw.2.2 rfl rfl (fun _ _ => rfl) (fun a ha => Function.update_of_ne ha ..)
        ⟨hw, v, hver, h1, Function.update_self ..⟩
    case writeCas d1 d2 tmp prev =>
      split at hs <;> cases hs
      · next heq => exact follows_writeCas hg hl heq
      · exact Assertions.follows_quiet hg hl.1 (.refl t w)
    case ret r =>
      cases hs
      exact follows_ret hg hl

def outline (s : CInt × CInt) : Outline (program T A) anyStep (fun _ => True) (World T A) where
  toAssertions := assertions s
  step hg hl hs _ _ := follows_step hg (hl _) hs
  stable hu _ _ hl hguar := hl.stable hu hguar

theorem holds_start {m : Mem A} (hm : m.dataPtr ∈ m.used) : (outline m.pair).Holds
    ⟨m, [], Function.update (fun _ => none) m.dataPtr (some m.pair), fun _ => none, fun _ => .idle⟩ []
    (start T m) where
  mem := rfl
  hist := rfl
  loc _ := rfl
  glob := by
    have hplus : plus m.pair ([] : List (T × Event)) = m.pair := by simp [plus, writes]
    refine ⟨?_, ⟨by simp, by simp, by simp⟩, ?_, ?_, ?_, by simp⟩
    · simp only [hplus]
      exact .nil
    · simp [hplus]
    · intro a v hv
      by_cases ha : a = m.dataPtr
      · subst ha
        simpa [Mem.pair] using hv.symm
      · simp [ha] at hv
    · intro a ha
      have hne : a ≠ m.dataPtr := fun heq => ha (heq ▸ hm)
      simp [hne]

end Pair

/-- **The pair is linearizable.** Every read returns the initial pair plus the writes whose
compare_exchange succeeded before the read's load of `dataPtr`; these are all writes that
returned before the read began and none that began after it returned. A write that
returned has swung `dataPtr` exactly once, and no other write has. -/
theorem pair_linearizable [DecidableEq T] [DecidableEq A] {m : Mem A} (hm : m.dataPtr ∈ m.used)
    {tr : List (T × Event)} {c : Config T (Mem A) (Pc A)}
    (h : (program T A).Run anyStep (start T m) tr c) :
    Linearizable (counters m.pair) (marks tr) ∧
    (∀ j t v, tr[j]? = some (t, .ret (some v)) → ∃ i p, tr[i]? = some (t, .call .read) ∧
      Next tr t i p .loaded ∧ Next tr t p j (.ret (some v)) ∧ v = plus m.pair (tr.take p) ∧
      (∀ u q j' d1 d2, tr[q]? = some (u, .swung d1 d2) → Next tr u q j' (.ret none) → j' < i → q < p) ∧
      (∀ u i' q d1 d2, Next tr u i' q (.swung d1 d2) → j < i' → p < q)) ∧
    (∀ j t, tr[j]? = some (t, .ret none) → ∃ i p d1 d2, tr[i]? = some (t, .call (.write d1 d2)) ∧
      Next tr t i p (.swung d1 d2) ∧ Next tr t p j (.ret none)) ∧
    (∀ p t d1 d2, tr[p]? = some (t, .swung d1 d2) →
      ∃ i, tr[i]? = some (t, .call (.write d1 d2)) ∧ Next tr t i p (.swung d1 d2)) := by
  obtain ⟨w, hw⟩ := (Pair.outline m.pair).sound (fun _ => trivial) (Pair.holds_start hm) h trivial
  have hhist : w.hist = tr := hw.hist
  have hg : Pair.Glob m.pair w := hw.glob
  have hres := hhist ▸ hg.results
  refine ⟨hhist ▸ hg.replay.linearizable, ?_, hres.write, hres.swung⟩
  intro j t v hj
  obtain ⟨i, p, hi, hn, hn', hv⟩ := hres.read j t v hj
  refine ⟨i, p, hi, hn, hn', hv, ?_, ?_⟩
  · intro u q j' d1 d2 _ hq hlt
    exact (hq.1.trans hlt).trans hn.1
  · intro u i' q d1 d2 hq hlt
    exact (hn'.1.trans hlt).trans hq.1

/-- The pair `(5, 7)` at address `0`. -/
def sample : Mem ℕ := ⟨0, fun _ => 5, fun _ => 7, {0}⟩

/-- The theorem where a write fails its first compare_exchange against another one, and a
read returns both. -/
theorem pair_linearizable_retry : ∃ (tr : List (Bool × Event)) (c : Config Bool (Mem ℕ) (Pc ℕ)),
    (program Bool ℕ).Run anyStep (start Bool sample) tr c ∧ writes tr = [(2, 2), (1, 0)] ∧
      tr.getLast? = some (false, .ret (some (8, 9))) ∧ Linearizable (counters (5, 7)) (marks tr) := by
  have h₀ : (program Bool ℕ).Run anyStep (start Bool sample) [] (start Bool sample) := .start
  have h₁ := h₀.solo true [.call (.write 1 0), .alloc 1, .run, .run, .run, .run, .run] _ _ _ rfl
  have h₂ := h₁.solo false
    [.call (.write 2 2), .alloc 2, .run, .run, .run, .run, .run, .run, .run] _ _ _ rfl
  have h₃ := h₂.solo true [.run, .run, .run, .run, .run, .run, .run, .run] _ _ _ rfl
  have h₄ := h₃.solo false [.call .read, .run, .run, .run, .run] _ _ _ rfl
  have hlin := (pair_linearizable (by decide) h₄).1
  exact ⟨_, _, h₄, by decide, by decide, hlin⟩

end Cds.Rcu
