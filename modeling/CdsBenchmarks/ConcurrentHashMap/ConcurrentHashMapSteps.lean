import CdsBenchmarks.ConcurrentHashMap.ConcurrentHashMapStable

/-! The kinds of steps: those that leave the table as it is, writes of a value, of a slot and of
a count, and new entries. -/

namespace Cds.ConcurrentHashMap
open Concurrent Program

variable {T K V : Type*} {E : Env K} {w w' : World T K V} {t u : T}
  {e a : Entry K} {key k : K} {sg i tab : ℕ} {m : Mem T K V} {es : List (Event K V)} {pc : Pc K V}
  {s : K → Option V} {st : T → Status (Op K V) (Option V)} {c : ℕ → Bin K} {kd : ℕ → Kind T}

/-- The world after a step of `t`. -/
def World.after (w : World T K V) (t : T) (m : Mem T K V) (es : List (Event K V)) (s : K → Option V)
    (st : T → Status (Op K V) (Option V)) (c : ℕ → Bin K) (kd : ℕ → Kind T) : World T K V :=
  ⟨m, w.hist ++ emit t es, s, st, fun o x => w.past o x ∨ x = s, c, kd⟩

theorem marks_append (tr tr' : List (T × Event K V)) : marks (tr ++ tr') = marks tr ++ marks tr' :=
  List.filterMap_append

/-! ## Steps that leave the table as it is -/

/-- The table and its entries are the same. -/
structure Same (w w' : World T K V) : Prop where
  bins : w'.mem.bins = w.mem.bins
  length : w'.mem.length = w.mem.length
  table : w'.mem.table = w.mem.table
  tables : w'.mem.tables = w.mem.tables
  value : w'.mem.value = w.mem.value
  fresh : w'.mem.fresh = w.mem.fresh
  chain : w'.chain = w.chain
  kind : w'.kind = w.kind
  s : w'.s = w.s

namespace Same
variable (hS : Same w w')
include hS

theorem live_iff : Live w' e ↔ Live w e := by
  rw [Live, Live, hS.bins, hS.length, hS.table]

theorem formed {l : Bin K} (h : Formed E w l) : Formed E w' l :=
  h.mono hS.fresh.ge fun _ _ => by rw [hS.chain]

theorem slot (h : Slot E w tab i) : Slot E w' tab i :=
  ⟨hS.bins ▸ hS.formed h.formed, by rw [hS.bins, hS.length]; exact h.index, hS.bins ▸ h.keys⟩

theorem fullBut {b : Option (Entry K)} (h : FullBut w sg b) : FullBut w' sg b := fun a ha =>
  hS.s ▸ h a (hS.live_iff.mp ha)

theorem counts {d : JInt} (h : Counts E w sg d) (hc : w'.mem.count sg = w.mem.count sg) :
    Counts E w' sg d := by
  rw [Counts, hS.s, hc]
  exact h

theorem tidy (h : Tidy E w sg) (hc : w'.mem.count sg = w.mem.count sg) : Tidy E w' sg :=
  ⟨hS.fullBut h.full, hS.counts h.counts hc⟩

theorem heap (hh : Heap E w) (hk : ∀ sg t, w'.mem.lock sg = some t → sg < concurrencyLevel)
    (ht : ∀ sg < concurrencyLevel, w'.mem.lock sg = none → w.mem.tables = w.mem.table + 1)
    (hf : ∀ sg, w'.mem.lock sg = none → Tidy E w' sg) : Heap E w' where
  locks := hk
  last sg hsg h := by
    rw [hS.tables, hS.table]
    exact ht sg hsg h
  capacity id hid := hS.length ▸ hh.capacity id (hS.table ▸ hid)
  slot id hid i := hS.slot (hh.slot id (hS.table ▸ hid) i)
  live e he := by
    rw [hS.value, hS.s, hS.kind]
    exact hh.live e (hS.live_iff.mp he)
  bound k hk := by
    rw [Mem.bin, hS.bins, hS.length, hS.table]
    exact hh.bound k (hS.s ▸ hk)
  free := hf

theorem common : Common w w' where
  fresh := hS.fresh.ge
  chain _ _ := by rw [hS.chain]
  retired _ _ hk := by rw [hS.kind, hS.value]; exact ⟨hk, rfl⟩
  live _ he := .inl (hS.live_iff.mpr he)
  length _ _ := by rw [hS.length]
  stale _ _ := by rw [hS.bins]
  table := .inl hS.table

theorem frozen (hc : w'.mem.count sg = w.mem.count sg) : Frozen E w w' sg :=
  ⟨hS.table, hS.tables, hS.length, fun _ _ => by rw [hS.bins], fun _ _ => by rw [hS.bins],
    fun _ _ _ => by rw [hS.value], fun _ _ => by rw [hS.s], hc⟩

theorem rely (hp : ∀ x, w.past u x → w'.past u x) (hst : w'.st u = w.st u)
    (hl : ∀ sg, w.mem.lock sg = some u → w'.mem.lock sg = some u ∧ w'.mem.count sg = w.mem.count sg) :
    Rely E u w w' :=
  ⟨hS.common, fun _ _ hk => by rw [hS.kind, hS.value]; exact ⟨hk, rfl⟩, hp, hst,
    fun sg hsg => ⟨(hl sg hsg).1, hS.frozen (hl sg hsg).2⟩⟩

theorem holds (h : Holds E w t sg) (hl : w'.mem.lock sg = w.mem.lock sg)
    (hc : w'.mem.count sg = w.mem.count sg) : Holds E w' t sg :=
  ⟨hl.trans h.lock, hS.tidy h.tidy hc, by rw [hS.tables, hS.table, h.last]⟩

end Same

variable {lk : ℕ → Option T} {th vt : JInt}

/-- The world after a step that writes no more than a lock, the threshold or the votes. -/
def World.quiet (w : World T K V) (t : T) (lk : ℕ → Option T) (th vt : JInt) (es : List (Event K V))
    (st : T → Status (Op K V) (Option V)) : World T K V :=
  w.after t { w.mem with lock := lk, threshold := th, votesForResize := vt } es w.s st w.chain w.kind

theorem same_quiet : Same w (w.quiet t lk th vt es st) :=
  ⟨rfl, rfl, rfl, rfl, rfl, rfl, rfl, rfl, rfl⟩

/-! ## What is to be shown of a step -/

variable [DecidableEq T] [DecidableEq K]

/-- A step of `t` to memory `m` and point `pc` is accounted for. -/
def Takes (E : Env K) (t : T) (w : World T K V) (m : Mem T K V) (pc : Pc K V) (es : List (Event K V)) :
    Prop :=
  ∃ w', w'.mem = m ∧ w'.hist = w.hist ++ emit t es ∧ Glob E w' ∧ At E w' t pc ∧ Common w w' ∧
    ∀ u, u ≠ t → Rely E u w w'

theorem finiteMap_deterministic : (finiteMap K V).Deterministic := by
  intro s o r r' s' s'' h h'
  cases o with
  | get key => exact ⟨h.1.trans h'.1.symm, h.2.trans h'.2.symm⟩
  | put key value => exact ⟨h.1.trans h'.1.symm, h.2.trans h'.2.symm⟩
  | remove key value =>
    rcases h with ⟨h, hr, hs⟩ | ⟨h₁, h₂, hr, hs⟩ <;> rcases h' with ⟨h', hr', hs'⟩ | ⟨h₁', h₂', hr', hs'⟩
    · exact ⟨hr.trans hr'.symm, hs.trans hs'.symm⟩
    · exact absurd h (not_or.mpr ⟨h₁', h₂'⟩)
    · exact absurd h' (not_or.mpr ⟨h₁, h₂⟩)
    · exact ⟨hr.trans hr'.symm, hs.trans hs'.symm⟩

namespace Glob
variable (hg : Glob E w) {o : Op K V} {r : Option V}
include hg

theorem replay_quiet (hes : marks (emit t es) = []) :
    (finiteMap K V).Hindsight (marks (w.hist ++ emit t es)) w.s w.st
      fun u x => w.past u x ∨ x = w.s := by
  rw [marks_append, hes, List.append_nil]
  exact hg.replay.mono fun u o x _ hx => hx.elim id fun h => h ▸ hg.now _

theorem replay_lin (hst : w.st t = .pending o) (hp : (finiteMap K V).post w.s o r s) :
    (finiteMap K V).Hindsight (marks (w.hist ++ emit t [.mark .lin])) s
      (Function.update w.st t (.done o r)) fun u x => w.past u x ∨ x = s := by
  rw [marks_append]
  exact hg.replay.lin hst hp fun u x hx => hx

theorem replay_ret (hst : w.st t = .done o r) :
    (finiteMap K V).Hindsight (marks (w.hist ++ emit t [.mark (.ret r)])) w.s
      (Function.update w.st t .idle) fun u x => w.past u x ∨ x = w.s := by
  rw [marks_append]
  exact (hg.replay.ret hst).mono fun u o x _ hx => hx.elim id fun h => h ▸ hg.now _

theorem replay_look (hst : w.st t = .pending (.get key)) (hx : ∃ x, w.past t x ∧ x key = r) :
    (finiteMap K V).Hindsight (marks (w.hist ++ emit t [.mark (.ret r)])) w.s
      (Function.update w.st t .idle) fun u x => w.past u x ∨ x = w.s := by
  obtain ⟨x, hx, rfl⟩ := hx
  rw [marks_append]
  exact (hg.replay.look finiteMap_deterministic hst hx ⟨rfl, rfl⟩).mono
    fun u o x _ hx => hx.elim id fun h => h ▸ hg.now _

omit hg in
/-- What is to be shown of a step. -/
theorem takes (hr : (finiteMap K V).Hindsight (marks (w.hist ++ emit t es)) s st
      fun u x => w.past u x ∨ x = s)
    (hh : Heap E (w.after t m es s st c kd)) (hc : Common w (w.after t m es s st c kd))
    (hpriv : ∀ a < w.mem.fresh, ∀ u, u ≠ t → w.kind a = .priv u →
      kd a = .priv u ∧ m.value a = w.mem.value a)
    (hst : ∀ u, u ≠ t → st u = w.st u)
    (howned : ∀ u, u ≠ t → ∀ sg, w.mem.lock sg = some u →
      m.lock sg = some u ∧ Frozen E w (w.after t m es s st c kd) sg)
    (hat : At E (w.after t m es s st c kd) t pc) : Takes E t w m pc es :=
  ⟨_, rfl, rfl, ⟨hr, fun _ => Or.inr rfl, hh⟩, hat, hc, fun u hu =>
    ⟨hc, fun a ha hk => hpriv a ha u hu hk, fun _ hx => .inl hx, hst u hu,
      fun sg hsg => howned u hu sg hsg⟩⟩

end Glob

theorem Glob.takes_quiet (hg : Glob E w) (lk : ℕ → Option T)
    (hr : (finiteMap K V).Hindsight (marks (w.hist ++ emit t es)) w.s st
      fun u x => w.past u x ∨ x = w.s)
    (hst : ∀ u, u ≠ t → st u = w.st u)
    (hlk : ∀ u, u ≠ t → ∀ sg, w.mem.lock sg = some u → lk sg = some u)
    (hlt : ∀ sg u, lk sg = some u → sg < concurrencyLevel)
    (hlast : ∀ sg < concurrencyLevel, lk sg = none → w.mem.tables = w.mem.table + 1)
    (hfree : ∀ sg, lk sg = none → Tidy E w sg) (hat : At E (w.quiet t lk th vt es st) t pc) :
    Takes E t w { w.mem with lock := lk, threshold := th, votesForResize := vt } pc es := by
  have hS : Same w (w.quiet t lk th vt es st) := same_quiet
  refine Glob.takes hr (hS.heap hg.heap hlt hlast fun sg h => hS.tidy (hfree sg h) rfl) hS.common
    (fun a _ u _ hk => ⟨hk, rfl⟩) hst (fun u hu sg h => ⟨hlk u hu sg h, hS.frozen rfl⟩) hat

/-- A step that changes at most the threshold and the votes. -/
theorem Glob.takes_local (hg : Glob E w) (hes : marks (emit t es) = []) (hat : At E w t pc) :
    Takes E t w { w.mem with threshold := th, votesForResize := vt } pc es := by
  refine hg.takes_quiet w.mem.lock (hg.replay_quiet hes) (fun _ _ => rfl) (fun _ _ _ h => h)
    hg.heap.locks hg.heap.last hg.heap.free ?_
  have hS : Same w (w.quiet t w.mem.lock th vt es w.st) := same_quiet
  exact hat.stable (hS.rely (fun _ hx => .inl hx) rfl fun _ h => ⟨h, rfl⟩) hg.heap fun _ => .inr rfl

theorem Glob.takes_read (hg : Glob E w) (hat : At E w t pc) : Takes E t w w.mem pc [] :=
  hg.takes_local rfl hat

omit [DecidableEq T] [DecidableEq K] in
theorem acquire_some {me : T} {m m' : Mem T K V} (h : acquire me m sg = some m') :
    m.lock sg = none ∧ m' = { m with lock := Function.update m.lock sg (some me) } := by
  rw [acquire] at h
  split at h
  · next hl => exact ⟨hl, (Option.some.inj h).symm⟩
  · cases h

omit [DecidableEq T] [DecidableEq K] in
theorem acquire_eq {me : T} {m m' : Mem T K V} {pc' : Pc K V}
    (h : (acquire me m sg).map (·, pc, ([] : List (Event K V))) = some (m', pc', es)) :
    m.lock sg = none ∧ m' = { m with lock := Function.update m.lock sg (some me) } ∧ pc' = pc ∧ es = [] := by
  obtain ⟨m₁, hm, heq⟩ := Option.map_eq_some_iff.mp h
  cases heq
  exact ⟨(acquire_some hm).1, (acquire_some hm).2, rfl, rfl⟩

/-- The lock of a segment: it is found tidy. -/
theorem Glob.takes_acquire (hg : Glob E w) (hsg : sg < concurrencyLevel) (hl : w.mem.lock sg = none)
    (hat : ∀ w', Rely E t w w' → (∀ o, w'.past o w'.s) → Holds E w' t sg → At E w' t pc) :
    Takes E t w { w.mem with lock := Function.update w.mem.lock sg (some t) } pc [] := by
  have hne : ∀ {u sg'}, w.mem.lock sg' = some u → sg' ≠ sg := by
    rintro u sg' h rfl
    simp [hl] at h
  have hlk : ∀ u sg', w.mem.lock sg' = some u → Function.update w.mem.lock sg (some t) sg' = some u :=
    fun u sg' h => by rwa [Function.update_of_ne (hne h)]
  have hfree : ∀ sg', Function.update w.mem.lock sg (some t) sg' = none → w.mem.lock sg' = none :=
    fun sg' h => by
      by_cases heq : sg' = sg
      · simp [heq] at h
      · rwa [Function.update_of_ne heq] at h
  refine hg.takes_quiet _ (hg.replay_quiet rfl) (fun _ _ => rfl) (fun u _ => hlk u) (fun sg' u h => ?_)
    (fun sg' hsg' h => hg.heap.last sg' hsg' (hfree sg' h)) (fun sg' h => hg.heap.free sg' (hfree sg' h)) ?_
  · by_cases heq : sg' = sg
    · exact heq ▸ hsg
    · rw [Function.update_of_ne heq] at h
      exact hg.heap.locks sg' u h
  · refine hat _ (same_quiet.rely (fun _ hx => .inl hx) rfl fun sg' h => ⟨hlk t sg' h, rfl⟩) (fun _ => .inr rfl) ⟨?_, ?_, ?_⟩
    · exact Function.update_self ..
    · exact same_quiet.tidy (hg.heap.free sg hl) rfl
    · exact hg.heap.last sg hsg hl

/-- The unlock of a segment that is tidy. -/
theorem Glob.takes_release (hg : Glob E w) (h : Holds E w t sg)
    (hr : (finiteMap K V).Hindsight (marks (w.hist ++ emit t es)) w.s st
      fun u x => w.past u x ∨ x = w.s)
    (hst : ∀ u, u ≠ t → st u = w.st u)
    (hat : ∀ w', Same w w' → (∀ o, w'.past o w'.s) → w'.st = st →
      (∀ j, j ≠ sg → Holds E w t j → Holds E w' t j) → At E w' t pc) :
    Takes E t w (release w.mem sg) pc es := by
  refine hg.takes_quiet _ hr hst (fun u hu sg' h' => ?_) (fun sg' u h' => ?_) (fun _ _ _ => h.last)
    (fun sg' h' => ?_) ?_
  · have hne : sg' ≠ sg := by
      rintro rfl
      exact hu (Option.some.inj (h'.symm.trans h.lock))
    rwa [Function.update_of_ne hne]
  · by_cases heq : sg' = sg
    · simp [heq] at h'
    · rw [Function.update_of_ne heq] at h'
      exact hg.heap.locks sg' u h'
  · by_cases heq : sg' = sg
    · exact heq ▸ h.tidy
    · rw [Function.update_of_ne heq] at h'
      exact hg.heap.free sg' h'
  · exact hat _ same_quiet (fun _ => .inr rfl) rfl fun j hj hh =>
      same_quiet.holds hh (Function.update_of_ne hj ..) rfl

/-- A count is written under its lock. -/
theorem Glob.takes_count (hg : Glob E w) (hl : w.mem.lock sg = some t) (n : JInt)
    (hat : ∀ w', Same w w' → (∀ o, w'.past o w'.s) → w'.st = w.st → w'.mem.lock = w.mem.lock →
      w'.mem.count = Function.update w.mem.count sg n → At E w' t pc) :
    Takes E t w (w.mem.storeCount sg n) pc [] := by
  have hS : Same w (w.after t (w.mem.storeCount sg n) [] w.s w.st w.chain w.kind) :=
    ⟨rfl, rfl, rfl, rfl, rfl, rfl, rfl, rfl, rfl⟩
  have hc : ∀ {sg'}, sg' ≠ sg → (w.mem.storeCount sg n).count sg' = w.mem.count sg' := fun h =>
    Function.update_of_ne h ..
  refine Glob.takes (hg.replay_quiet rfl) (hS.heap hg.heap hg.heap.locks hg.heap.last fun sg' h => ?_) hS.common
    (fun a _ u _ hk => ⟨hk, rfl⟩) (fun _ _ => rfl) (fun u hu sg' h => ⟨h, hS.frozen (hc ?_)⟩)
    (hat _ hS (fun _ => .inr rfl) rfl rfl rfl)
  · refine hS.tidy (hg.heap.free sg' h) (hc ?_)
    rintro rfl
    simp [World.after, Mem.storeCount, hl] at h
  · rintro rfl
    exact hu (Option.some.inj (h.symm.trans hl))

/-- The count is put right. -/
theorem Glob.takes_settle (hg : Glob E w) {d n : JInt} (h : HoldsOff E w t sg none d)
    (hn : n + d = w.mem.count sg)
    (hat : ∀ w', w'.st = w.st → Holds E w' t sg → At E w' t pc) :
    Takes E t w (w.mem.storeCount sg n) pc [] := by
  obtain ⟨ks, hks, hc⟩ := h.counts
  refine hg.takes_count h.lock n fun w' hS _ hst hlk hcount => hat w' hst ⟨by rw [hlk, h.lock],
    ⟨hS.fullBut h.full, ks, hS.s ▸ hks, ?_⟩, by rw [hS.tables, hS.table, h.last]⟩
  rw [hcount, Function.update_self, (BitVec.add_left_inj d).mp (hn.trans hc)]
  exact (BitVec.add_zero _).symm

/-! ## Keys that come and go -/

section Bound
variable {s : K → Option V} {n : ℕ} {v : V}

theorem Bound.update_some (h : Bound E s sg n) (hk : s k ≠ none) :
    Bound E (Function.update s k (some v)) sg n := by
  obtain ⟨ks, hks, hn⟩ := h
  refine ⟨ks, fun k' => (hks k').trans ?_, hn⟩
  by_cases heq : k' = k
  · subst heq
    simp [hk]
  · rw [Function.update_of_ne heq]

theorem Bound.insert (h : Bound E s sg n) (hk : s k = none) (hsg : segment (hash E k) = sg) :
    Bound E (Function.update s k (some v)) sg (n + 1) := by
  obtain ⟨ks, hks, rfl⟩ := h
  have hnot : k ∉ ks := fun h => ((hks k).mp h).2 hk
  refine ⟨Insert.insert k ks, fun k' => ?_, Finset.card_insert_of_notMem hnot⟩
  rw [Finset.mem_insert, hks]
  by_cases heq : k' = k
  · subst heq
    simp [hsg]
  · simp [heq]

theorem Bound.erase (h : Bound E s sg n) (hk : s k ≠ none) (hsg : segment (hash E k) = sg) :
    ∃ n', n = n' + 1 ∧ Bound E (Function.update s k none) sg n' := by
  obtain ⟨ks, hks, rfl⟩ := h
  have hmem : k ∈ ks := (hks k).mpr ⟨hsg, hk⟩
  refine ⟨(ks.erase k).card, (Finset.card_erase_add_one hmem).symm, ks.erase k, fun k' => ?_, rfl⟩
  rw [Finset.mem_erase, hks]
  by_cases heq : k' = k
  · subst heq
    simp
  · simp [heq]

end Bound

/-! ## A value -/

/-- The world after a write of the value of entry `e`. -/
def World.stored (w : World T K V) (t : T) (e : Entry K) (v : Option V) (es : List (Event K V))
    (st : T → Status (Op K V) (Option V)) : World T K V :=
  w.after t (w.mem.store e.addr v) es (Function.update w.s e.key v) st w.chain w.kind

section Store
variable {v : Option V} (hh : Heap E w)

omit [DecidableEq T] in
theorem stored_live : Live (w.stored t e v es st) a ↔ Live w a := by
  unfold Live
  exact Iff.rfl

omit [DecidableEq T] in
theorem stored_bin : (w.stored t e v es st).mem.bin E tab k = w.mem.bin E tab k := by
  unfold Mem.bin
  rfl

omit [DecidableEq T] in
theorem stored_slot (h : Slot E w tab i) : Slot E (w.stored t e v es st) tab i :=
  ⟨h.formed.mono le_rfl fun _ _ => rfl, h.index, h.keys⟩

include hh

omit [DecidableEq T] in
theorem stored_s (he : Live w e) (hk : segment (hash E k) ≠ segment e.hash) :
    (w.stored t e v es st).s k = w.s k := by
  refine Function.update_of_ne ?_ ..
  rintro rfl
  exact hk (hh.key_segment he).symm

omit [DecidableEq T] in
theorem stored_tidy (he : Live w e) (hsg : sg ≠ segment e.hash) (h : Tidy E w sg) :
    Tidy E (w.stored t e v es st) sg := by
  refine ⟨fun a ha hs hne => ?_, ?_⟩
  · have ha := stored_live.mp ha
    rw [stored_s hh he (by rwa [← hh.key_segment ha, hs])]
    exact h.full a ha hs hne
  · obtain ⟨n, hn, hc⟩ := h.counts
    exact ⟨n, hn.congr fun k hk => stored_s hh he (hk ▸ hsg), hc⟩

omit [DecidableEq T] [DecidableEq K] in
theorem stored_value (he : Live w e) (ha : w.kind i ≠ .live) :
    (w.mem.store e.addr v).value i = w.mem.value i := by
  refine Function.update_of_ne ?_ ..
  rintro rfl
  exact ha (hh.live e he).2

omit [DecidableEq T] in
theorem stored_heap (he : Live w e) (hl : w.mem.lock (segment e.hash) = some t) :
    Heap E (w.stored t e v es st) where
  locks := hh.locks
  last := hh.last
  capacity := hh.capacity
  slot id hid i := stored_slot (hh.slot id hid i)
  live a ha := by
    have ha := stored_live.mp ha
    have hv : (w.stored t e v es st).mem.value = Function.update w.mem.value e.addr v := rfl
    have hs : (w.stored t e v es st).s = Function.update w.s e.key v := rfl
    rw [hv, hs]
    refine ⟨?_, (hh.live a ha).2⟩
    by_cases heq : a = e
    · subst heq
      rw [Function.update_self, Function.update_self]
    · rw [Function.update_of_ne fun h => heq (hh.eq_of_addr ha he h),
        Function.update_of_ne fun h => heq (hh.eq_of_key ha he h)]
      exact (hh.live a ha).1
  bound k hk := by
    have hs : (w.stored t e v es st).s = Function.update w.s e.key v := rfl
    rw [hs] at hk
    rw [stored_bin]
    by_cases heq : k = e.key
    · exact ⟨e, heq ▸ hh.mem_bin he, heq.symm⟩
    · rw [Function.update_of_ne heq] at hk
      exact hh.bound k hk
  free sg' h := by
    have h : w.mem.lock sg' = none := h
    refine stored_tidy hh he ?_ (hh.free sg' h)
    rintro rfl
    simp [hl] at h

omit hh in
theorem Glob.takes_store (hg : Glob E w) (he : Live w e) (hl : w.mem.lock (segment e.hash) = some t)
    (hr : (finiteMap K V).Hindsight (marks (w.hist ++ emit t es)) (Function.update w.s e.key v) st
      fun u x => w.past u x ∨ x = Function.update w.s e.key v)
    (hst : ∀ u, u ≠ t → st u = w.st u) (hat : At E (w.stored t e v es st) t pc) :
    Takes E t w (w.mem.store e.addr v) pc es := by
  have hh := hg.heap
  have hsg : ∀ {u sg'}, u ≠ t → w.mem.lock sg' = some u → sg' ≠ segment e.hash := by
    rintro u sg' hu h rfl
    exact hu (Option.some.inj (h.symm.trans hl))
  refine Glob.takes hr (stored_heap hh he hl) ?_
    (fun a _ u _ hk => ⟨hk, stored_value hh he (by simp [hk])⟩) hst (fun u hu sg' h => ⟨h, ?_⟩) hat
  · exact ⟨le_rfl, fun _ _ => rfl, fun a _ hk => ⟨hk, stored_value hh he (by simp [hk])⟩,
      fun a ha => .inl (stored_live.mpr ha), fun _ _ => rfl, fun _ _ => rfl, .inl rfl⟩
  · refine ⟨rfl, rfl, rfl, fun _ _ => rfl, fun _ _ => rfl, fun a ha hs => ?_, fun k hk => ?_, rfl⟩
    · refine Function.update_of_ne (fun heq => hsg hu h ?_) ..
      rw [← hs, hh.eq_of_addr ha he heq]
    · exact stored_s hh he (hk ▸ hsg hu h)

end Store

/-! ## A new entry -/

/-- The world after `t` has made an entry that starts the list `l`. -/
def World.made (w : World T K V) (t : T) (l : Bin K) (v : Option V) : World T K V :=
  w.after t (w.mem.alloc v) [] w.s w.st (Function.update w.chain w.mem.fresh l)
    (Function.update w.kind w.mem.fresh (.priv t))

section Alloc
variable {l : Bin K} {v : Option V}

omit [DecidableEq T] [DecidableEq K] in
theorem made_chain (ha : i < w.mem.fresh) : (w.made t l v).chain i = w.chain i :=
  Function.update_of_ne (Nat.ne_of_lt ha) ..

omit [DecidableEq T] [DecidableEq K] in
theorem made_kind (ha : i < w.mem.fresh) : (w.made t l v).kind i = w.kind i :=
  Function.update_of_ne (Nat.ne_of_lt ha) ..

omit [DecidableEq T] [DecidableEq K] in
theorem made_value (ha : i < w.mem.fresh) : (w.made t l v).mem.value i = w.mem.value i :=
  Function.update_of_ne (Nat.ne_of_lt ha) ..

omit [DecidableEq T] [DecidableEq K] in
theorem made_formed {f : Bin K} (h : Formed E w f) : Formed E (w.made t l v) f :=
  h.mono (Nat.le_succ _) fun _ => made_chain

omit [DecidableEq T] [DecidableEq K] in
theorem made_live : Live (w.made t l v) a ↔ Live w a := by
  unfold Live
  exact Iff.rfl

omit [DecidableEq T] [DecidableEq K] in
theorem made_bin : (w.made t l v).mem.bin E tab k = w.mem.bin E tab k := by
  unfold Mem.bin
  rfl

omit [DecidableEq T] [DecidableEq K] in
theorem made_tidy (h : Tidy E w sg) : Tidy E (w.made t l v) sg :=
  ⟨fun a ha => h.full a (made_live.mp ha), h.counts⟩

omit [DecidableEq T] [DecidableEq K] in
theorem made_heap (hh : Heap E w) : Heap E (w.made t l v) where
  locks := hh.locks
  last := hh.last
  capacity := hh.capacity
  slot id hid i :=
    have h := hh.slot id hid i
    ⟨made_formed h.formed, h.index, h.keys⟩
  live a ha := by
    have ha := made_live.mp ha
    rw [made_value (hh.lt ha), made_kind (hh.lt ha)]
    exact hh.live a ha
  bound k hk := by
    rw [made_bin]
    exact hh.bound k hk
  free sg' h := made_tidy (hh.free sg' h)

omit [DecidableEq T] [DecidableEq K] in
theorem made_rely (hh : Heap E w) : Rely E u w (w.made t l v) where
  common := ⟨Nat.le_succ _, fun _ => made_chain,
    fun _ ha hk => ⟨(made_kind ha).trans hk, made_value ha⟩, fun _ ha => .inl (made_live.mpr ha),
    fun _ _ => rfl, fun _ _ => rfl, .inl rfl⟩
  priv _ ha hk := ⟨(made_kind ha).trans hk, made_value ha⟩
  past _ hx := .inl hx
  st := rfl
  owned _ h := ⟨h, rfl, rfl, rfl, fun _ _ => rfl, fun _ _ => rfl,
    fun _ ha _ => made_value (hh.lt ha), fun _ _ => rfl, rfl⟩

/-- A new entry in front of the list `f`. -/
theorem Glob.takes_alloc (hg : Glob E w) (f : Bin K) (key : K) {h : JInt} (hhash : h = hash E key)
    (hf : Formed E w f)
    (hat : ∀ w', Rely E t w w' → (∀ o, w'.past o w'.s) → w'.s = w.s →
      Formed E w' (⟨w.mem.fresh, key, h⟩ :: f) → w'.kind w.mem.fresh = .priv t →
      w'.mem.value w.mem.fresh = v → At E w' t pc) :
    Takes E t w (w.mem.alloc v) pc [] := by
  have hr := made_rely (u := t) (t := t) (l := ⟨w.mem.fresh, key, h⟩ :: f) (v := v) hg.heap
  have hu : ∀ u, Rely E u w (w.made t (⟨w.mem.fresh, key, h⟩ :: f) v) := fun u => made_rely hg.heap
  refine Glob.takes (hg.replay_quiet rfl) (made_heap hg.heap) hr.common (fun a ha u _ hk => ?_)
    (fun _ _ => rfl) (fun u _ sg' hl => (hu u).owned sg' hl) (hat _ hr
      (fun _ => .inr rfl) rfl ⟨⟨Function.update_self .., Nat.lt_succ_self _, hhash⟩, made_formed hf⟩
      (Function.update_self ..) (Function.update_self ..))
  exact (hu u).priv a ha hk

end Alloc

/-! ## A slot of the current table -/

open Classical in
/-- The entries `new` come into the table, and the other entries `old` are retired. -/
noncomputable def rebin (kind : ℕ → Kind T) (old new : Bin K) (a : ℕ) : Kind T :=
  if ∃ e ∈ new, e.addr = a then .live else if ∃ e ∈ old, e.addr = a then .retired else kind a

/-- The world after `t` has stored `l` in slot `i`. -/
noncomputable def World.rebinned (w : World T K V) (t : T) (i : ℕ) (l : Bin K) (es : List (Event K V))
    (s : K → Option V) (st : T → Status (Op K V) (Option V)) : World T K V :=
  w.after t (w.mem.storeBin w.mem.table i l) es s st w.chain (rebin w.kind (w.mem.bins w.mem.table i) l)

/-- The list `l` may take the place of slot `i`, when the map is `s`. -/
structure Fits (E : Env K) (w : World T K V) (t : T) (i : ℕ) (l : Bin K) (s : K → Option V) : Prop where
  formed : Formed E w l
  index : ∀ e ∈ l, index e.hash (w.mem.length w.mem.table) = i
  keys : (l.map Entry.key).Nodup
  own : ∀ e ∈ l, e ∈ w.mem.bins w.mem.table i ∨ w.kind e.addr = .priv t
  value : ∀ e, e ∈ l ∨ e ∈ w.mem.bins w.mem.table i → w.mem.value e.addr = s e.key
  same : ∀ k, ConcurrentHashMap.index (hash E k) (w.mem.length w.mem.table) ≠ i → s k = w.s k
  bound : ∀ k, ConcurrentHashMap.index (hash E k) (w.mem.length w.mem.table) = i → s k ≠ none →
    ∃ e ∈ l, e.key = k

section Rebin
variable {l : Bin K}

omit [DecidableEq T] [DecidableEq K]

theorem rebin_new {kind : ℕ → Kind T} {old : Bin K} (he : e ∈ l) : rebin kind old l e.addr = .live :=
  if_pos ⟨e, he, rfl⟩

variable (hF : Fits E w t i l s) (hh : Heap E w)
include hF hh

/-- An address of `l` or of the slot is not another entry's. -/
theorem Fits.eq_of_addr {b : Entry K} (ha : a ∈ l ∨ a ∈ w.mem.bins w.mem.table i) (hb : Live w b)
    (heq : a.addr = b.addr) : a = b :=
  ha.elim (fun ha => hF.formed.eq_of_addr (hh.formed _) ha hb heq) fun ha =>
    (hh.formed _).eq_of_addr (hh.formed _) ha hb heq

theorem Fits.rebin_other (ha : w.kind tab ≠ .live) (hp : w.kind tab ≠ .priv t) :
    rebin w.kind (w.mem.bins w.mem.table i) l tab = w.kind tab := by
  have hold : ¬∃ e ∈ w.mem.bins w.mem.table i, e.addr = tab := by
    rintro ⟨e, he, rfl⟩
    exact ha (hh.live e (hh.live_of_mem he)).2
  rw [rebin, if_neg, if_neg hold]
  rintro ⟨e, he, rfl⟩
  exact (hF.own e he).elim (fun he => hold ⟨e, he, rfl⟩) hp

/-- An entry of another slot stays. -/
theorem Fits.rebin_live (ha : Live w a) (hne : ConcurrentHashMap.index a.hash (w.mem.length w.mem.table) ≠ i) :
    rebin w.kind (w.mem.bins w.mem.table i) l a.addr = .live := by
  have hnot : ∀ e, e ∈ l ∨ e ∈ w.mem.bins w.mem.table i → e.addr ≠ a.addr := by
    intro e he heq
    obtain rfl := hF.eq_of_addr hh he ha heq
    exact hne (he.elim (hF.index _) ((hh.slot _ le_rfl i).index _))
  rw [rebin, if_neg fun ⟨e, he, heq⟩ => hnot e (.inl he) heq,
    if_neg fun ⟨e, he, heq⟩ => hnot e (.inr he) heq]
  exact (hh.live a ha).2

end Rebin

section Rebin
variable {l : Bin K}

omit [DecidableEq T] [DecidableEq K] in
theorem rebinned_bins (j : ℕ) : (w.rebinned t i l es s st).mem.bins w.mem.table j =
    if j = i then l else w.mem.bins w.mem.table j := by
  have : (w.rebinned t i l es s st).mem.bins w.mem.table = Function.update (w.mem.bins w.mem.table) i l :=
    Function.update_self ..
  rw [this, Function.update_apply]

omit [DecidableEq T] [DecidableEq K] in
theorem rebinned_others {id : ℕ} (hid : id ≠ w.mem.table) :
    (w.rebinned t i l es s st).mem.bins id = w.mem.bins id := Function.update_of_ne hid ..

omit [DecidableEq T] [DecidableEq K] in
theorem rebinned_live : Live (w.rebinned t i l es s st) a ↔
    a ∈ if index a.hash (w.mem.length w.mem.table) = i then l
      else w.mem.bins w.mem.table (index a.hash (w.mem.length w.mem.table)) := by
  rw [Live, ← rebinned_bins]
  exact Iff.rfl

omit [DecidableEq T] [DecidableEq K] in
theorem rebinned_formed {f : Bin K} (h : Formed E w f) : Formed E (w.rebinned t i l es s st) f :=
  h.mono le_rfl fun _ _ => rfl

variable (hF : Fits E w t i l s) (hh : Heap E w)
include hF hh

omit hF hh [DecidableEq T] [DecidableEq K] in
theorem rebinned_live_other (hne : ConcurrentHashMap.index a.hash (w.mem.length w.mem.table) ≠ i) :
    Live (w.rebinned t i l es s st) a ↔ Live w a := by
  rw [rebinned_live, if_neg hne, Live]

omit [DecidableEq T] [DecidableEq K] in
theorem Fits.tidy (hsg : sg ≠ i % concurrencyLevel) (h : Tidy E w sg) :
    Tidy E (w.rebinned t i l es s st) sg := by
  have hs : ∀ k, segment (hash E k) = sg → s k = w.s k := fun k hk => hF.same k fun hi => by
    rw [← hi, hh.cap.index_mod, hk] at hsg
    exact hsg rfl
  refine ⟨fun a ha hseg hne => ?_, ?_⟩
  · have hi : ConcurrentHashMap.index a.hash (w.mem.length w.mem.table) ≠ i := fun hi => by
      rw [← hi, hh.cap.index_mod, hseg] at hsg
      exact hsg rfl
    have ha := (rebinned_live_other hi).mp ha
    have hk := hs a.key (by rw [← hh.key_segment ha, hseg])
    change s a.key ≠ none
    rw [hk]
    exact h.full a ha hseg hne
  · obtain ⟨n, hn, hc⟩ := h.counts
    exact ⟨n, hn.congr hs, hc⟩

omit [DecidableEq T] [DecidableEq K] in
theorem Fits.heap (hl : w.mem.lock (i % concurrencyLevel) = some t) :
    Heap E (w.rebinned t i l es s st) where
  locks := hh.locks
  last := hh.last
  capacity := hh.capacity
  slot id hid j := by
    have hj := hh.slot id hid j
    by_cases hid : id = w.mem.table
    · subst hid
      by_cases hi : j = i
      · subst hi
        have hb : (w.rebinned t j l es s st).mem.bins w.mem.table j = l := by
          rw [rebinned_bins, if_pos rfl]
        exact ⟨by rw [hb]; exact rebinned_formed hF.formed, by rw [hb]; exact hF.index, by rw [hb]; exact hF.keys⟩
      · have hb : (w.rebinned t i l es s st).mem.bins w.mem.table j = w.mem.bins w.mem.table j := by
          rw [rebinned_bins, if_neg hi]
        exact ⟨by rw [hb]; exact rebinned_formed hj.formed, by rw [hb]; exact hj.index, by rw [hb]; exact hj.keys⟩
    · have hb : (w.rebinned t i l es s st).mem.bins id j = w.mem.bins id j := by
        rw [rebinned_others hid]
      exact ⟨by rw [hb]; exact rebinned_formed hj.formed, by rw [hb]; exact hj.index, by rw [hb]; exact hj.keys⟩
  live a ha := by
    by_cases hi : ConcurrentHashMap.index a.hash (w.mem.length w.mem.table) = i
    · have ha := rebinned_live.mp ha
      rw [if_pos hi] at ha
      exact ⟨hF.value a (.inl ha), rebin_new ha⟩
    · have ha := (rebinned_live_other hi).mp ha
      have hs := hF.same a.key (by rwa [← hh.hashed ha])
      exact ⟨(hh.live a ha).1.trans hs.symm, hF.rebin_live hh ha hi⟩
  bound k hk := by
    change ∃ e ∈ (w.rebinned t i l es s st).mem.bins w.mem.table _, e.key = k
    rw [rebinned_bins]
    split
    · next hi => exact hF.bound k hi hk
    · next hi => exact hh.bound k (hF.same k hi ▸ hk)
  free sg' h := by
    have h : w.mem.lock sg' = none := h
    refine hF.tidy hh ?_ (hh.free sg' h)
    rintro rfl
    simp [hl] at h

omit [DecidableEq T] in
theorem Fits.common : Common w (w.rebinned t i l es s st) where
  fresh := le_rfl
  chain _ _ := rfl
  retired a _ hk := ⟨(hF.rebin_other hh (by simp [hk]) (by simp [hk])).trans hk, rfl⟩
  live a ha := by
    by_cases hi : ConcurrentHashMap.index a.hash (w.mem.length w.mem.table) = i
    · rw [rebinned_live, if_pos hi]
      by_cases hal : a ∈ l
      · exact .inl hal
      · have hold : a ∈ w.mem.bins w.mem.table i := hi ▸ ha
        refine .inr ⟨?_, hF.value a (.inr hold)⟩
        change rebin _ _ _ _ = _
        rw [rebin, if_neg, if_pos ⟨a, hold, rfl⟩]
        rintro ⟨e, he, heq⟩
        exact hal (hF.eq_of_addr hh (.inl he) ha heq ▸ he)
    · exact .inl ((rebinned_live_other hi).mpr ha)
  length _ _ := rfl
  stale id hid := rebinned_others hid.ne
  table := .inl rfl

theorem Fits.takes (hl : w.mem.lock (i % concurrencyLevel) = some t)
    (hr : (finiteMap K V).Hindsight (marks (w.hist ++ emit t es)) s st
      fun u x => w.past u x ∨ x = s)
    (hst : ∀ u, u ≠ t → st u = w.st u) (hat : At E (w.rebinned t i l es s st) t pc) :
    Takes E t w (w.mem.storeBin w.mem.table i l) pc es := by
  refine Glob.takes hr (hF.heap hh hl) (hF.common hh) (fun a _ u hu hk => ?_) hst
    (fun u hu sg' h => ⟨h, ?_⟩) hat
  · exact ⟨(hF.rebin_other hh (by simp [hk]) (by simp [hk, hu])).trans hk, rfl⟩
  · have hsg : sg' ≠ i % concurrencyLevel := by
      rintro rfl
      exact hu (Option.some.inj (h.symm.trans hl))
    refine ⟨rfl, rfl, rfl, fun id hid => rebinned_others hid, fun j hj => ?_, fun _ _ _ => rfl,
      fun k hk => hF.same k ?_, rfl⟩
    · change (w.rebinned t i l es s st).mem.bins w.mem.table j = _
      rw [rebinned_bins, if_neg]
      rintro rfl
      exact hsg hj.symm
    · rintro rfl
      exact hsg (by rw [hh.cap.index_mod, hk])

end Rebin

end Cds.ConcurrentHashMap
