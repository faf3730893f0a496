import CdsBenchmarks.ConcurrentHashMap.ConcurrentHashMapResize

/-! The remaining methods, and the histories of `get`, `put` and `remove`, whatever else runs. -/

namespace Cds.ConcurrentHashMap
open Concurrent Program

variable {T K V : Type*} [DecidableEq T] [DecidableEq K] {E : Env K} {w w' : World T K V} {t : T}
  {e a : Entry K} {key k : K} {sg i s tab : ℕ} {m : Mem T K V} {es : List (Event K V)}
  {pc pc' : Pc K V} {o : Op K V}

/-! ## clear -/

omit [DecidableEq T] [DecidableEq K] in
/-- All slots of a segment are empty. -/
theorem Emptied.holds (hh : Heap E w) (h : Emptied w s (w.mem.length w.mem.table))
    (hl : w.mem.lock s = some t) (hlast : w.mem.tables = w.mem.table + 1) (hc : w.mem.count s = 0) :
    Holds E w t s := by
  have hempty : ∀ hs : JInt, segment hs = s →
      w.mem.bins w.mem.table (index hs (w.mem.length w.mem.table)) = [] := fun hs hseg =>
    h _ (hh.cap.index_lt hs) ((hh.cap.index_mod hs).trans hseg)
  refine ⟨hl, ⟨fun a ha hseg => ?_, 0, ⟨∅, fun k => ?_, rfl⟩, ?_⟩, hlast⟩
  · rw [Live, hempty _ hseg] at ha
    cases ha
  · refine ⟨fun h => by simp at h, fun h => ?_⟩
    obtain ⟨hseg, hk⟩ := h
    obtain ⟨e, he, -⟩ := hh.bound k hk
    rw [Mem.bin, hempty _ hseg] at he
    cases he
  · rw [hc]
    rfl

/-- An entry of the slot is invalidated, as by a `remove`. -/
theorem Glob.replay_remove (hg : Glob E w) (hst : w.st t = .idle) (he : Live w e) :
    (finiteMap K V).Hindsight (marks (w.hist ++ emit t [.mark (.call (.remove e.key none)), .mark .lin,
        .mark (.ret (w.mem.value e.addr))])) (Function.update w.s e.key none)
      (Function.update w.st t .idle) fun u x => w.past u x ∨ x = Function.update w.s e.key none := by
  have h₁ : (finiteMap K V).Hindsight (marks w.hist ++ [(t, .call (.remove e.key none))]) w.s
      (Function.update w.st t (.pending (.remove e.key none)))
      fun u x => if u = t then x = w.s else w.past u x :=
    hg.replay.call hst fun u x hx => hx
  have h₂ : (finiteMap K V).Hindsight (marks w.hist ++ [(t, .call (.remove e.key none))] ++ [(t, .lin)])
      (Function.update w.s e.key none)
      (Function.update (Function.update w.st t (.pending (.remove e.key none))) t
        (.done (.remove e.key none) (w.mem.value e.addr)))
      fun u x => (if u = t then x = w.s else w.past u x) ∨ x = Function.update w.s e.key none :=
    h₁.lin (Function.update_self ..) (.inl ⟨.inl rfl, (hg.heap.live e he).1, rfl⟩) fun u x hx => hx
  have h₃ := h₂.ret (Function.update_self ..)
  rw [Function.update_idem, Function.update_idem, List.append_assoc, List.append_assoc] at h₃
  rw [marks_append]
  refine h₃.mono fun u o' x hu hx => ?_
  have hut : u ≠ t := by
    rintro rfl
    simp at hu
  rwa [if_neg hut]

theorem step_clear_entry (hg : Glob E w) (hst : w.st t = .idle) (hs : s < concurrencyLevel)
    {pre l : Bin K} (hc : Clearing w t s tab i) (hemp : Emptied w s i)
    (hbin : w.mem.bins w.mem.table i = pre ++ e :: l) (hpre : ∀ a ∈ pre, w.s a.key = none) :
    Takes E t w (w.mem.store e.addr none) (.clear s (.entry tab i l))
      [.mark (.call (.remove e.key none)), .mark .lin, .mark (.ret (w.mem.value e.addr))] := by
  have hh := hg.heap
  have hmem : e ∈ w.mem.bins w.mem.table i := hbin ▸ List.mem_append_right _ List.mem_cons_self
  have he := hh.live_of_mem hmem
  refine hg.takes_store he ?_ (hg.replay_remove hst he) (fun _ hu => Function.update_of_ne hu ..)
    ⟨Function.update_self .., hs, ⟨hc.lock, hc.table, hc.last, hc.slot, hc.lt⟩, hemp, pre ++ [e], ?_,
      fun a ha => ?_⟩
  · rw [hh.segment_mod hmem, hc.slot, hc.lock]
  · rw [List.append_assoc]
    exact hbin
  · change Function.update w.s e.key none a.key = none
    by_cases hk : a.key = e.key
    · rw [hk, Function.update_self]
    · rw [Function.update_of_ne hk]
      rcases List.mem_append.mp ha with ha | ha
      · exact hpre a ha
      · exact absurd (congrArg Entry.key (List.mem_singleton.mp ha)) hk

theorem step_clear_store (hg : Glob E w) (hst : w.st t = .idle) (hs : s < concurrencyLevel)
    {l : Bin K} (hc : Clearing w t s tab i) (hemp : Emptied w s i)
    (hbin : w.mem.bins w.mem.table i = l) (hpre : ∀ a ∈ l, w.s a.key = none) :
    Takes E t w (w.mem.storeBin tab i []) (.clear s (.count tab i)) [] := by
  have hh := hg.heap
  obtain rfl := hc.table
  have hF : Fits E w t i [] w.s := by
    refine ⟨trivial, by simp, by simp, by simp, fun a ha => ?_, fun _ _ => rfl, fun k hk hks => ?_⟩
    · rcases ha with ha | ha
      · cases ha
      · exact (hh.live a (hh.live_of_mem ha)).1
    · obtain ⟨a, ha, rfl⟩ := hh.bound k hks
      rw [Mem.bin, hk, hbin] at ha
      exact absurd (hpre a ha) hks
  refine hF.takes hh (hc.slot.symm ▸ hc.lock) (hg.replay_quiet rfl) (fun _ _ => rfl)
    ⟨hst, hs, ⟨hc.lock, rfl, hc.last, hc.slot, hc.lt⟩, fun j hj hjs => ?_⟩
  change (w.rebinned t i [] [] w.s w.st).mem.bins w.mem.table j = []
  rw [rebinned_bins]
  split
  · rfl
  · exact hemp j (by omega) hjs

theorem step_clear (hg : Glob E w) {p : Clear K} (hst : w.st t = .idle) (hs : s < concurrencyLevel)
    (h : ClearAt E w t s p) (ha : p.access t w.mem s = some (m, pc', es)) : Takes E t w m pc' es := by
  have hh := hg.heap
  cases p with
  | lock =>
    obtain ⟨hl, rfl, rfl, rfl⟩ := acquire_eq ha
    exact hg.takes_acquire hs hl fun w' hr _ hholds => ⟨hr.st.trans hst, hs, hholds⟩
  | table =>
    cases ha
    have hlt : s < w.mem.length w.mem.table := hs.trans_le hh.cap.le
    rw [if_pos hlt]
    refine hg.takes_read ⟨hst, hs, ⟨h.lock, rfl, h.last, Nat.mod_eq_of_lt hs, hlt⟩, fun j hj hjs => ?_⟩
    rw [Nat.mod_eq_of_lt (hj.trans hs)] at hjs
    omega
  | bin tab i =>
    cases ha
    obtain ⟨hc, hemp⟩ := h
    obtain rfl := hc.table
    exact hg.takes_read ⟨hst, hs, hc, hemp, [], rfl, by simp⟩
  | entry tab i l =>
    obtain ⟨hc, hemp, pre, hbin, hpre⟩ := h
    cases l with
    | nil =>
      cases ha
      rw [List.append_nil] at hbin
      exact step_clear_store hg hst hs hc hemp hbin hpre
    | cons e l =>
      cases ha
      exact step_clear_entry hg hst hs hc hemp hbin hpre
  | count tab i =>
    cases ha
    obtain ⟨hc, hemp⟩ := h
    refine hg.takes_count hc.lock 0 fun w' hS _ hst' hlk hcount => ⟨by rw [hst', hst], hs, ?_⟩
    have hemp' : Emptied w' s (i + concurrencyLevel) := fun j hj hjs => by
      have hslot := hc.slot
      rw [hS.bins, hS.table]
      refine hemp j ?_ hjs
      rw [concurrencyLevel] at hj hjs hslot
      omega
    have hlock : w'.mem.lock s = some t := by rw [hlk, hc.lock]
    have hlast : w'.mem.tables = w'.mem.table + 1 := by rw [hS.tables, hS.table, hc.last]
    have hlen : w'.mem.length w'.mem.table = w.mem.length tab := by rw [hS.length, hS.table, hc.table]
    split
    · next hlt =>
      exact ⟨⟨hlock, hc.table.trans hS.table.symm, hlast, by rw [Nat.add_mod_right, hc.slot],
        hlen.symm ▸ hlt⟩, hemp'⟩
    · next hge =>
      refine ⟨hlock, hlast, fun j hj => hemp' j ?_, by rw [hcount, Function.update_self]⟩
      omega
  | unlock =>
    obtain ⟨hl, hlast, hemp, hc⟩ := h
    have hholds := hemp.holds hh hl hlast hc
    rw [Clear.access] at ha
    split at ha
    · next hlt =>
      cases ha
      exact hg.takes_leave hholds rfl fun w' _ _ hst' _ => ⟨by rw [hst', hst], hlt, trivial⟩
    · cases ha
      exact hg.takes_leave hholds rfl fun w' _ _ hst' _ => (congrFun hst' t).trans hst

/-! ## The methods that only read -/

theorem step_count (hg : Glob E w) {empty : Bool} {c : JInt} {p : Count} (hst : w.st t = .idle)
    (hs : s < concurrencyLevel) (h : CountAt E w t s p)
    (ha : p.access (K := K) t w.mem empty s c = some (m, pc', es)) : Takes E t w m pc' es := by
  cases p with
  | lock =>
    obtain ⟨hl, rfl, rfl, rfl⟩ := acquire_eq ha
    exact hg.takes_acquire hs hl fun w' hr _ hholds => ⟨hr.st.trans hst, hs, hholds⟩
  | read =>
    cases ha
    exact hg.takes_read ⟨hst, hs, h⟩
  | unlock n =>
    rw [Count.access] at ha
    split at ha
    · cases ha
      exact hg.takes_leave h rfl fun w' _ _ hst' _ => (congrFun hst' t).trans hst
    · split at ha
      · next hlt =>
        cases ha
        exact hg.takes_leave h rfl fun w' _ _ hst' _ => ⟨by rw [hst', hst], hlt, trivial⟩
      · cases ha
        exact hg.takes_leave h rfl fun w' _ _ hst' _ => (congrFun hst' t).trans hst

omit [DecidableEq T] [DecidableEq K] in
theorem containing_eq {value : V} {l : Bin K} (hst : w.st t = .idle) (hs : s < concurrencyLevel)
    {m₀ : Mem T K V} (ha : containing m₀ value s tab i l = some (m, pc', es)) :
    m = m₀ ∧ (es = [] ∨ ∃ b, es = [.answer b]) ∧ At E w t pc' := by
  rw [containing] at ha
  split at ha
  · cases ha
    exact ⟨rfl, .inl rfl, hst, hs, trivial⟩
  · split at ha
    · cases ha
      exact ⟨rfl, .inl rfl, hst, hs, trivial⟩
    · split at ha
      · next hlt =>
        cases ha
        exact ⟨rfl, .inl rfl, hst, hlt, trivial⟩
      · cases ha
        exact ⟨rfl, .inr ⟨_, rfl⟩, hst⟩

omit [DecidableEq T] [DecidableEq K] in
theorem marks_quiet (h : es = [] ∨ ∃ b, es = [.answer b]) : marks (emit t es) = [] := by
  obtain rfl | ⟨b, rfl⟩ := h <;> rfl

theorem step_contains [DecidableEq V] (hg : Glob E w) {value : V} {p : Contains K}
    (hst : w.st t = .idle) (hs : s < concurrencyLevel) (h : ContainsAt E w t s p)
    (ha : p.access t w.mem value s = some (m, pc', es)) : Takes E t w m pc' es := by
  cases p with
  | lock =>
    obtain ⟨hl, rfl, rfl, rfl⟩ := acquire_eq ha
    exact hg.takes_acquire hs hl fun w' hr _ hholds => ⟨hr.st.trans hst, hs, hholds⟩
  | table =>
    cases ha
    exact hg.takes_read ⟨hst, hs, h⟩
  | unlock tab =>
    rw [Contains.access] at ha
    split at ha
    · cases ha
      exact hg.takes_leave h rfl fun w' _ _ hst' _ => ⟨by rw [hst', hst], hs, trivial⟩
    · obtain ⟨rfl, hes, -⟩ := containing_eq (E := E) hst hs ha
      exact hg.takes_leave h (marks_quiet hes) fun w' _ _ hst' _ =>
        (containing_eq ((congrFun hst' t).trans hst) hs ha).2.2
  | bin tab i =>
    obtain ⟨rfl, hes, hat⟩ := containing_eq (E := E) hst hs ha
    exact hg.takes_local (marks_quiet hes) hat
  | entry tab i l =>
    cases l with
    | nil => cases ha
    | cons e l =>
      rw [Contains.access] at ha
      split at ha
      · cases ha
        exact hg.takes_local rfl hst
      · obtain ⟨rfl, hes, hat⟩ := containing_eq (E := E) hst hs ha
        exact hg.takes_local (marks_quiet hes) hat

theorem step_reserve (hg : Glob E w) {n : JInt} {p : Reserve} (hst : w.st t = .idle)
    (h : ReserveAt E w t p) (ha : p.access (K := K) t w.mem n = some (m, pc', es)) :
    Takes E t w m pc' es := by
  cases p with
  | lock =>
    obtain ⟨hl, rfl, rfl, rfl⟩ := acquire_eq ha
    exact hg.takes_acquire (by decide) hl fun w' hr _ hholds => ⟨hr.st.trans hst, hholds⟩
  | table =>
    cases ha
    exact hg.takes_read ⟨hst, h⟩
  | threshold tab =>
    cases ha
    exact hg.takes_read ⟨hst, h⟩
  | unlock tab max =>
    rw [Reserve.access] at ha
    split at ha
    · cases ha
      exact hg.takes_leave h rfl fun w' _ _ hst' _ => (congrFun hst' t).trans hst
    · cases ha
      exact hg.takes_leave h rfl fun w' _ _ hst' _ =>
        ⟨(congrFun hst' t).trans hst, by decide, fun j hj => absurd hj (Nat.not_lt_zero j)⟩

/-! ## Iterators -/

omit [DecidableEq T] [DecidableEq K] in
/-- Where an iterator stops or goes on looking. -/
theorem look_at (hst : w.st t = .idle) (it : Iter K V) (next : Bool) :
    At E w t (it.look next).1.pc ∧ marks (emit t (it.look next).2) = [] := by
  rw [Iter.look]
  split
  · exact ⟨⟨hst, trivial⟩, rfl⟩
  · split
    · exact ⟨⟨hst, trivial⟩, rfl⟩
    · exact ⟨hst, rfl⟩

omit [DecidableEq T] [DecidableEq K] in
theorem found_at (hst : w.st t = .idle) (it : Iter K V) (next : Bool) (e : Entry K) (v : V) :
    At E w t (it.found next e v).1.pc ∧ marks (emit t (it.found next e v).2) = [] := by
  rw [Iter.found]
  split <;> exact ⟨hst, rfl⟩

/-- A step that answers or goes on looking. -/
theorem Glob.takes_answer (hg : Glob E w) {r : Loc K V × List (Event K V)} {l : Loc K V}
    (h : At E w t r.1.pc ∧ marks (emit t r.2) = []) (ha : some (w.mem, r) = some (m, l, es)) :
    Takes E t w m l.pc es := by
  cases ha
  exact hg.takes_local h.2 h.1

theorem step_iterate (hg : Glob E w) {iter : Option (Iter K V)} {p : Iterate} {l : Loc K V}
    (hst : w.st t = .idle) (h : IterateAt E w t p) (ha : p.access t w.mem iter = some (m, l, es)) :
    Takes E t w m l.pc es := by
  cases p with
  | lock =>
    obtain ⟨m', hm, heq⟩ := Option.map_eq_some_iff.mp ha
    cases heq
    obtain ⟨hl, rfl⟩ := acquire_some hm
    exact hg.takes_acquire (by decide) hl fun w' hr _ hholds => ⟨hr.st.trans hst, hholds⟩
  | table =>
    cases ha
    exact hg.takes_read ⟨hst, h⟩
  | unlock tab =>
    cases ha
    exact hg.takes_leave h rfl fun w' _ _ hst' _ => ⟨(congrFun hst' t).trans hst, (by decide : 1 < concurrencyLevel)⟩
  | synchLock i tab =>
    obtain ⟨m', hm, heq⟩ := Option.map_eq_some_iff.mp ha
    cases heq
    obtain ⟨hl, rfl⟩ := acquire_some hm
    exact hg.takes_acquire h hl fun w' hr _ hholds => ⟨hr.st.trans hst, h, hholds⟩
  | synchUnlock i tab =>
    rw [Iterate.access] at ha
    split at ha
    · next hlt =>
      cases ha
      exact hg.takes_leave h.2 rfl fun w' _ _ hst' _ => ⟨(congrFun hst' t).trans hst, hlt⟩
    · cases ha
      exact hg.takes_leave h.2 rfl fun w' _ _ hst' _ => (congrFun hst' t).trans hst
  | value next =>
    obtain _ | it := iter
    · cases ha
    · rw [Iterate.access] at ha
      split at ha
      · cases ha
      · split at ha
        · exact hg.takes_answer (found_at hst it next _ _) ha
        · exact hg.takes_answer (look_at hst _ next) ha
  | bin next =>
    obtain _ | it := iter
    · cases ha
    · exact hg.takes_answer (look_at hst _ next) ha

/-! ## Calls -/

theorem step_call (hg : Glob E w) (hst : w.st t = .idle)
    (hes : marks (emit t es) = [(t, .call o)]) : Takes E t w w.mem o.entry es := by
  let w' : World T K V := ⟨w.mem, w.hist ++ emit t es, w.s, Function.update w.st t (.pending o),
    fun u x => if u = t then x = w.s else w.past u x, w.chain, w.kind⟩
  have hS : Same w w' := ⟨rfl, rfl, rfl, rfl, rfl, rfl, rfl, rfl, rfl⟩
  refine ⟨w', rfl, rfl, ⟨?_, fun u => ?_, hS.heap hg.heap hg.heap.locks hg.heap.last fun sg h =>
    hS.tidy (hg.heap.free sg h) rfl⟩, ?_, hS.common, fun u hu => hS.rely (fun x hx => ?_) ?_
      fun sg h => ⟨h, rfl⟩⟩
  · change (finiteMap K V).Hindsight (marks (w.hist ++ emit t es)) w.s _ _
    rw [marks_append, hes]
    exact hg.replay.call hst fun u x hx => hx
  · change if u = t then w.s = w.s else w.past u w.s
    split
    · rfl
    · exact hg.now u
  · have hpending : Function.update w.st t (.pending o) t = .pending o := Function.update_self ..
    cases o with
    | get key => exact ⟨hpending, trivial⟩
    | put key value => exact hpending
    | remove key value => exact hpending
  · change if u = t then x = w.s else w.past u x
    rwa [if_neg hu]
  · exact Function.update_of_ne hu ..

theorem step_ask (hg : Glob E w) (hst : w.st t = .idle) {iter : Option (Iter K V)} {q : Query V}
    {l : Loc K V} (ha : ask iter q = some (l, es)) : Takes E t w w.mem l.pc (.ask q :: es) := by
  have hquiet : ∀ {pc es}, At E w t pc → marks (emit t es) = [] →
      Takes E t w w.mem pc (.ask q :: es) := fun hat hes => hg.takes_local hes hat
  have hanswer : ∀ {r : Loc K V × List (Event K V)}, At E w t r.1.pc ∧ marks (emit t r.2) = [] →
      r = (l, es) → Takes E t w w.mem l.pc (.ask q :: es) := by
    rintro r h rfl
    exact hquiet h.1 h.2
  cases q with
  | clear =>
    cases ha
    exact hquiet ⟨hst, by decide, trivial⟩ rfl
  | size =>
    cases ha
    exact hquiet ⟨hst, by decide, trivial⟩ rfl
  | isEmpty =>
    cases ha
    exact hquiet ⟨hst, by decide, trivial⟩ rfl
  | containsValue value =>
    cases ha
    exact hquiet ⟨hst, by decide, trivial⟩ rfl
  | reserve n =>
    rw [ask] at ha
    split at ha
    · cases ha
      exact hquiet hst rfl
    · cases ha
      exact hquiet ⟨hst, trivial⟩ rfl
  | iterator =>
    cases ha
    exact hquiet ⟨hst, trivial⟩ rfl
  | hasNext =>
    obtain ⟨it, -, heq⟩ := Option.map_eq_some_iff.mp ha
    exact hanswer (look_at hst it false) heq
  | next =>
    obtain ⟨it, -, heq⟩ := Option.map_eq_some_iff.mp ha
    split at heq
    · exact hanswer (found_at hst it true _ _) heq
    · exact hanswer (look_at hst it true) heq
  | remove =>
    obtain ⟨it, -, heq⟩ := Option.map_eq_some_iff.mp ha
    split at heq
    · cases heq
      exact hquiet hst rfl
    · cases heq
      exact step_call (o := .remove _ none) hg hst rfl

/-! ## Every run -/

variable [DecidableEq V]

theorem step_access (hg : Glob E w) {p : Pc K V} (h : At E w t p)
    (ha : p.access E t w.mem = some (m, pc', es)) : Takes E t w m pc' es := by
  cases p with
  | idle => cases ha
  | get key p => exact step_get hg h.1 h.2 ha
  | put key value p => exact step_put hg h ha
  | remove key value p => exact step_remove hg h ha
  | resize n p => exact step_resize hg h.1 h.2 ha
  | clear s p => exact step_clear hg h.1 h.2.1 h.2.2 ha
  | count empty s c p => exact step_count hg h.1 h.2.1 h.2.2 ha
  | contains value s p => exact step_contains hg h.1 h.2.1 h.2.2 ha
  | reserve n p => exact step_reserve hg h.1 h.2 ha
  | iterator p => cases ha

theorem takes_step (hg : Glob E w) {l l' : Loc K V} (hl : At E w t l.pc) {a : Act K V}
    (h : step E t a w.mem l = some (m, l', es)) : Takes E t w m l'.pc es := by
  obtain ⟨pc, iter⟩ := l
  cases a with
  | call o =>
    rw [step] at h
    split at h
    · next hidle =>
      cases h
      obtain rfl : pc = .idle := hidle
      exact step_call hg hl rfl
    · cases h
  | ask q =>
    rw [step] at h
    split at h
    · next hidle =>
      obtain rfl : pc = .idle := hidle
      obtain ⟨r, hr, heq⟩ := Option.map_eq_some_iff.mp h
      cases heq
      exact step_ask hg hl hr
    · cases h
  | run =>
    rw [step] at h
    split at h
    · next p hp =>
      obtain rfl : pc = .iterator p := hp
      exact step_iterate hg hl.1 hl.2 h
    · obtain ⟨r, hr, heq⟩ := Option.map_eq_some_iff.mp h
      cases heq
      exact step_access hg hl hr

variable (T V) in
def outline (E : Env K) : Outline (program T V E) anyStep (fun _ => True) (World T K V) where
  mem := World.mem
  hist := World.hist
  glob w := Glob E w
  loc t w l := At E w t l.pc
  guar t w w' := Common w w' ∧ ∀ u, u ≠ t → Rely E u w w'
  step hg hl hs _ _ := by
    obtain ⟨w', hm, hh, hg', hat, hguar⟩ := takes_step hg (hl _) hs
    exact ⟨w', hm, hh, hg', hat, hguar⟩
  stable hu hg hg' hl hguar := hl.stable (hguar.2 _ hu) hg.heap hg'.now

variable (T V) in
theorem holds_start (E : Env K) (c : JInt) :
    (outline T V E).Holds ⟨concurrentHashMap T V E c, [], fun _ => none, fun _ => .idle,
      fun _ x => x = fun _ => none, fun _ => [], fun _ => .retired⟩ [] (start T V E c) where
  mem := rfl
  hist := rfl
  glob :=
    { replay := ObjectSpec.Hindsight.init
      now _ := rfl
      heap :=
        { locks _ _ h := by cases h
          last _ _ _ := rfl
          capacity _ _ := p2capacity_capacity c
          slot _ _ _ := ⟨trivial, fun _ h => (by cases h), List.nodup_nil⟩
          live _ h := by cases h
          bound _ h := absurd rfl h
          free _ _ := ⟨fun _ h => (by cases h), 0, ⟨∅, by simp, rfl⟩, rfl⟩ } }
  loc _ := rfl

/-- Every run is followed by worlds in which the invariant holds. -/
theorem holds_of_run {c : JInt} {tr : List (T × Event K V)} {cf : Config T (Mem T K V) (Loc K V)}
    (hrun : (program T V E).Run anyStep (start T V E c) tr cf) :
    ∃ w, (outline T V E).Holds w tr cf :=
  (outline T V E).sound (fun _ => trivial) (holds_start T V E c) hrun trivial

/-- Every history of `get`, `put` and `remove` has a linearization, whatever resizes the table,
clears it, counts, searches or iterates meanwhile. -/
theorem concurrentHashMap_linearizable {c : JInt} {tr : List (T × Event K V)}
    {cf : Config T (Mem T K V) (Loc K V)}
    (hrun : (program T V E).Run anyStep (start T V E c) tr cf) :
    Linearizable (finiteMap K V) (marks tr) := by
  obtain ⟨w, hw⟩ := holds_of_run hrun
  have hreplay := hw.glob.replay
  rw [show w.hist = tr from hw.hist] at hreplay
  exact hreplay.linearizable

/-- Keys that are their own hash codes, and load factor 3/4. -/
def natural : Env ℕ where
  hashCode := BitVec.ofNat 32
  share capacity := BitVec.ofNat 32 (capacity * 3 / 4 / concurrencyLevel)

/-- A `get` that has loaded the table before a resize and reads its bin after a `remove` in the
new table: it returns the value of the entry that was cloned. -/
theorem concurrentHashMap_linearizable_stale_table : Linearizable (finiteMap ℕ ℕ)
    [(false, .call (.put 33 6)), (false, .lin), (false, .ret none), (false, .call (.put 1 7)),
      (false, .lin), (false, .ret none), (true, .call (.get 1)), (false, .call (.remove 1 none)),
      (false, .lin), (false, .ret (some 7)), (true, .ret (some 7))] := by
  have h₀ : (program Bool ℕ natural).Run anyStep (start Bool ℕ natural 0) [] (start Bool ℕ natural 0) :=
    .start
  have h₁ := h₀.solo false (.call (.put 33 6) :: List.replicate 12 .run) _ _ _ rfl
  have h₂ := h₁.solo false (.call (.put 1 7) :: List.replicate 10 .run) _ _ _ rfl
  have h₃ := h₂.solo true [.call (.get 1), .run] _ _ _ rfl
  have h₄ := h₃.solo false (.ask (.reserve 32) :: List.replicate 24 .run) _ _ _ rfl
  have h₅ := h₄.solo false (List.replicate 24 .run) _ _ _ rfl
  have h₆ := h₅.solo false (List.replicate 24 .run) _ _ _ rfl
  have h₇ := h₆.solo false (List.replicate 24 .run) _ _ _ rfl
  have h₈ := h₇.solo false (List.replicate 24 .run) _ _ _ rfl
  have h₉ := h₈.solo false (List.replicate 22 .run) _ _ _ rfl
  have h₁₀ := h₉.solo false (.call (.remove 1 none) :: List.replicate 8 .run) _ _ _ rfl
  have h₁₁ := h₁₀.solo true [.run, .run] _ _ _ rfl
  exact concurrentHashMap_linearizable h₁₁

/-- The count of a segment that nobody has locked is the number of keys it maps. -/
theorem count_eq_card {c : JInt} {tr : List (T × Event K V)} {cf : Config T (Mem T K V) (Loc K V)}
    (hrun : (program T V E).Run anyStep (start T V E c) tr cf) (hfree : cf.mem.lock sg = none) :
    ∃ ks : Finset K, (∀ k, k ∈ ks ↔ segment (hash E k) = sg ∧ cf.mem.contents E k ≠ none) ∧
      cf.mem.count sg = BitVec.ofNat 32 ks.card := by
  obtain ⟨w, hw⟩ := holds_of_run hrun
  have hmem : w.mem = cf.mem := hw.mem
  rw [← hmem] at hfree ⊢
  obtain ⟨n, ⟨ks, hks, rfl⟩, hc⟩ := (hw.glob.heap.free sg hfree).counts
  rw [hw.glob.heap.contents]
  exact ⟨ks, hks, hc.trans (BitVec.add_zero _)⟩

/-- One of two keys of a segment has been removed, and `clear` is in another segment, where the
key it has met is no longer mapped and still counted. -/
theorem count_eq_card_removed : ∃ (tr : List (Bool × Event ℕ ℕ))
    (cf : Config Bool (Mem Bool ℕ ℕ) (Loc ℕ ℕ)),
    (program Bool ℕ natural).Run anyStep (start Bool ℕ natural 0) tr cf ∧ cf.mem.lock 31 = none ∧
      cf.mem.contents natural 33 = some 6 ∧ cf.mem.contents natural 1 = none ∧
      cf.mem.lock 0 = some true ∧ cf.mem.contents natural 0 = none ∧ cf.mem.count 0 = 1 ∧
      ∃ ks : Finset ℕ,
        (∀ k, k ∈ ks ↔ segment (hash natural k) = 31 ∧ cf.mem.contents natural k ≠ none) ∧
        cf.mem.count 31 = BitVec.ofNat 32 ks.card := by
  have h₀ : (program Bool ℕ natural).Run anyStep (start Bool ℕ natural 0) [] (start Bool ℕ natural 0) :=
    .start
  have h₁ := h₀.solo false (.call (.put 33 6) :: List.replicate 12 .run) _ _ _ rfl
  have h₂ := h₁.solo false (.call (.put 1 7) :: List.replicate 10 .run) _ _ _ rfl
  have h₃ := h₂.solo true (.call (.put 0 5) :: List.replicate 12 .run) _ _ _ rfl
  have h₄ := h₃.solo false (.call (.remove 1 none) :: List.replicate 8 .run) _ _ _ rfl
  have h₅ := h₄.solo true (.ask .clear :: List.replicate 4 .run) _ _ _ rfl
  exact ⟨_, _, h₅, rfl, rfl, rfl, rfl, rfl, rfl, count_eq_card h₅ rfl⟩

end Cds.ConcurrentHashMap
