import CdsBenchmarks.ConcurrentHashMap.ConcurrentHashMapOperations

/-! `resize` and `rehash`. Whoever has all locks fills a table that nobody else knows, with the
last runs of the old lists and copies of the entries before them; the old table stays as it is,
for those who still read it. -/

namespace Cds.ConcurrentHashMap
open Concurrent Program

variable {T K V : Type*} {E : Env K} {w w' : World T K V} {t : T} {e a : Entry K} {l p lastRun : Bin K}
  {i k tab oldTab newTab : ℕ} {m : Mem T K V} {es : List (Event K V)} {pc pc' : Pc K V}
  {n : Option JInt} {P Q : Entry K → Prop}

/-! ## Steps outside the current table -/

/-- The world after a step of `t` that nobody else sees. -/
def World.offside (w : World T K V) (t : T) (m : Mem T K V) : World T K V :=
  w.after t m [] w.s w.st w.chain w.kind

/-- The memories agree in the table and those before it. -/
structure Beside (w : World T K V) (m : Mem T K V) : Prop where
  bins : ∀ id ≤ w.mem.table, m.bins id = w.mem.bins id
  length : ∀ id ≤ w.mem.table, m.length id = w.mem.length id
  table : m.table = w.mem.table
  value : m.value = w.mem.value
  fresh : m.fresh = w.mem.fresh
  lock : m.lock = w.mem.lock
  count : m.count = w.mem.count

namespace Beside
variable (hm : Beside w m)
include hm

theorem live_iff : Live (w.offside t m) a ↔ Live w a := by
  change a ∈ m.bins m.table (index a.hash (m.length m.table)) ↔ _
  rw [hm.table, hm.bins _ le_rfl, hm.length _ le_rfl, Live]

theorem formed (h : Formed E w l) : Formed E (w.offside t m) l :=
  h.mono hm.fresh.ge fun _ _ => rfl

theorem tidy {sg : ℕ} (h : Tidy E w sg) : Tidy E (w.offside t m) sg := by
  refine ⟨fun a ha => h.full a (hm.live_iff.mp ha), ?_⟩
  obtain ⟨n, hn, hc⟩ := h.counts
  exact ⟨n, hn, (congrFun hm.count sg).trans hc⟩

theorem holdsAll (h : HoldsAll E w t) : HoldsAll E (w.offside t m) t := fun j hj =>
  ⟨(congrFun hm.lock j).trans (h j hj).1, hm.tidy (h j hj).2⟩

theorem heap (hh : Heap E w) (hl : HoldsAll E w t) : Heap E (w.offside t m) where
  locks sg u h := hh.locks sg u ((congrFun hm.lock sg).symm.trans h)
  last sg hsg h := by
    have h := (hm.holdsAll hl sg hsg).1.symm.trans h
    cases h
  capacity id hid := by
    have hid : id ≤ w.mem.table := hm.table ▸ hid
    exact (hm.length id hid).symm ▸ hh.capacity id hid
  slot id hid i := by
    have hid : id ≤ w.mem.table := hm.table ▸ hid
    obtain ⟨h₁, h₂, h₃⟩ := hh.slot id hid i
    have hb : (w.offside t m).mem.bins id = w.mem.bins id := hm.bins id hid
    have hlen : (w.offside t m).mem.length id = w.mem.length id := hm.length id hid
    exact ⟨by rw [hb]; exact hm.formed h₁, by rw [hb, hlen]; exact h₂, by rw [hb]; exact h₃⟩
  live a ha := by
    have ha := hh.live a (hm.live_iff.mp ha)
    exact ⟨(congrFun hm.value a.addr).trans ha.1, ha.2⟩
  bound k hk := by
    change ∃ e ∈ m.bins m.table (index (hash E k) (m.length m.table)), e.key = k
    rw [hm.table, hm.bins _ le_rfl, hm.length _ le_rfl]
    exact hh.bound k hk
  free sg h := hm.tidy (hh.free sg ((congrFun hm.lock sg).symm.trans h))

end Beside

theorem HoldsAll.of_holds (h : ∀ j < concurrencyLevel, Holds E w t j) : HoldsAll E w t := fun j hj =>
  ⟨(h j hj).lock, (h j hj).tidy⟩

/-- Nobody else has a lock. -/
theorem HoldsAll.alone (hh : Heap E w) (hl : HoldsAll E w t) {u : T} (hu : u ≠ t) {sg : ℕ} :
    w.mem.lock sg ≠ some u := fun h =>
  hu (Option.some.inj (h.symm.trans (hl sg (hh.locks sg u h)).1))

theorem Glob.takes_offside [DecidableEq T] [DecidableEq K] (hg : Glob E w) (hl : HoldsAll E w t)
    (hm : Beside w m) (hat : HoldsAll E (w.offside t m) t → At E (w.offside t m) t pc) :
    Takes E t w m pc [] := by
  have hh := hg.heap
  refine Glob.takes (hg.replay_quiet rfl) (hm.heap hh hl) ?_ (fun a _ u _ hk => ⟨hk, by rw [hm.value]⟩)
    (fun _ _ => rfl) (fun u hu sg h => absurd h (hl.alone hh hu)) (hat (hm.holdsAll hl))
  exact ⟨hm.fresh.ge, fun _ _ => rfl, fun a _ hk => ⟨hk, congrFun hm.value a⟩,
    fun a ha => .inl (hm.live_iff.mpr ha), hm.length, fun id hid => hm.bins id hid.le, .inl hm.table⟩

/-! ## The new table -/

theorem beside_newTable (c : ℕ) (ht : w.mem.tables = w.mem.table + 1) :
    Beside w (newTable E w.mem c) := by
  have hne : ∀ id ≤ w.mem.table, id ≠ w.mem.tables := fun id hid => by omega
  exact ⟨fun id hid => Function.update_of_ne (hne id hid) .., fun id hid =>
    Function.update_of_ne (hne id hid) .., rfl, rfl, rfl, rfl, rfl⟩

theorem beside_storeBin (ht : newTab = w.mem.table + 1) :
    Beside w (w.mem.storeBin newTab k l) :=
  ⟨fun id hid => Function.update_of_ne (by omega) .., fun _ _ => rfl, rfl, rfl, rfl, rfl, rfl⟩

theorem step_newTable [DecidableEq T] [DecidableEq K] (hg : Glob E w) (hcall : Caller w t n)
    (hl : ∀ j < concurrencyLevel, Holds E w t j) (hlt : w.mem.length w.mem.table < maximumCapacity) :
    Takes E t w (newTable E w.mem (2 * w.mem.length w.mem.table))
      (.resize n (.bin 0 w.mem.table w.mem.tables)) [] := by
  have hlast := (hl 0 (by decide)).last
  have hm := beside_newTable (E := E) (2 * w.mem.length w.mem.table) hlast
  refine hg.takes_offside (.of_holds hl) hm fun hall => ?_
  have hbins : ∀ j, (w.offside t (newTable E w.mem (2 * w.mem.length w.mem.table))).mem.bins w.mem.tables j
      = [] := fun j => by
    change Function.update w.mem.bins w.mem.tables (fun _ => []) w.mem.tables j = []
    rw [Function.update_self]
  have hlen := hm.length _ le_rfl
  refine ⟨hcall, hall, ⟨rfl, hlast, rfl, ?_, ?_⟩, fun j => ?_, fun j c hc => ?_, fun e he => ?_⟩
  · refine (Function.update_self ..).trans ?_
    exact congrArg (2 * ·) hlen.symm
  · exact hlen.symm ▸ hlt
  · exact ⟨by rw [hbins]; trivial, by rw [hbins]; simp, by rw [hbins]; simp⟩
  · rw [hbins] at hc
    cases hc
  · obtain ⟨j, hj, -⟩ := he
    exact absurd hj (Nat.not_lt_zero j)

/-- The new table with `l` in slot `k`. -/
theorem Copied.store (hc : Copied E w t newTab P) (ht : newTab = w.mem.table + 1)
    (hform : Formed E w l) (hidx : ∀ c ∈ l, index c.hash (w.mem.length newTab) = k)
    (hkeys : (l.map Entry.key).Nodup) (hkeep : ∀ c ∈ w.mem.bins newTab k, c ∈ l)
    (hold : ∀ c ∈ l, w.mem.value c.addr = w.s c.key ∧ (Live w c ∨ w.kind c.addr = .priv t) ∧
      ∃ e, Q e ∧ e.key = c.key)
    (hsub : ∀ e, P e → Q e) (hnew : ∀ e, Q e → P e ∨ ∃ c ∈ l, c.key = e.key ∧ c.hash = e.hash) :
    Copied E (w.offside t (w.mem.storeBin newTab k l)) t newTab Q := by
  have hm : Beside w (w.mem.storeBin newTab k l) := beside_storeBin ht
  have hself : (w.offside t (w.mem.storeBin newTab k l)).mem.bins newTab k = l := by
    simp [World.offside, World.after, Mem.storeBin]
  have hother : ∀ {j}, j ≠ k →
      (w.offside t (w.mem.storeBin newTab k l)).mem.bins newTab j = w.mem.bins newTab j := fun h => by
    simp [World.offside, World.after, Mem.storeBin, h]
  refine ⟨fun j => ?_, fun j c hj => ?_, fun e he => ?_⟩
  · by_cases hjk : j = k
    · subst hjk
      exact ⟨by rw [hself]; exact hm.formed hform, by rw [hself]; exact hidx, by rw [hself]; exact hkeys⟩
    · obtain ⟨h₁, h₂, h₃⟩ := hc.slot j
      have hb := hother hjk
      exact ⟨by rw [hb]; exact hm.formed h₁, by rw [hb]; exact h₂, by rw [hb]; exact h₃⟩
  · rw [hm.live_iff]
    by_cases hjk : j = k
    · subst hjk
      exact hold c (hself ▸ hj)
    · obtain ⟨h₁, h₂, e, he, heq⟩ := hc.old j c (hother hjk ▸ hj)
      exact ⟨h₁, h₂, e, hsub e he, heq⟩
  · change ∃ c ∈ (w.offside t (w.mem.storeBin newTab k l)).mem.bins newTab
      (index e.hash (w.mem.length newTab)), _
    rcases hnew e he with he | ⟨c, hcl, hkey, hhash⟩
    · obtain ⟨c, hcj, heq⟩ := hc.all e he
      by_cases hjk : index e.hash (w.mem.length newTab) = k
      · rw [hjk, hself]
        exact ⟨c, hkeep c (hjk ▸ hcj), heq⟩
      · rw [hother hjk]
        exact ⟨c, hcj, heq⟩
    · rw [← hhash, hidx c hcl, hself]
      exact ⟨c, hcl, hkey⟩

theorem Copied.congr (hc : Copied E w t newTab P) (h : ∀ e, P e ↔ Q e) : Copied E w t newTab Q :=
  (funext fun e => propext (h e) : P = Q) ▸ hc

theorem before_succ : Before w (i + 1) e ↔ Before w i e ∨ e ∈ w.mem.bins w.mem.table i := by
  refine ⟨fun ⟨j, hj, he⟩ => ?_, ?_⟩
  · rcases Nat.lt_succ_iff_lt_or_eq.mp hj with hj | rfl
    · exact .inl ⟨j, hj, he⟩
    · exact .inr he
  · rintro (⟨j, hj, he⟩ | he)
    · exact ⟨j, by omega, he⟩
    · exact ⟨i, Nat.lt_succ_self i, he⟩

theorem Before.live (hh : Heap E w) (he : Before w i e) :
    Live w e ∧ index e.hash (w.mem.length w.mem.table) < i := by
  obtain ⟨j, hj, he⟩ := he
  exact ⟨hh.live_of_mem he, (hh.slot _ le_rfl j).index e he ▸ hj⟩

namespace Building
variable (hb : Building w oldTab newTab) (hh : Heap E w)
include hb hh

theorem cap : Capacity (w.mem.length newTab) := hb.length ▸ hh.cap.double hb.small

theorem index_mod (h : JInt) :
    index h (w.mem.length newTab) % w.mem.length w.mem.table = index h (w.mem.length w.mem.table) := by
  have hcap := hb.cap hh
  rw [hb.length] at hcap ⊢
  exact hh.cap.index_double hcap h

/-- Nothing from slot `i` has been copied yet. -/
theorem slot_nil (hc : Copied E w t newTab (Before w i)) (hk : k % w.mem.length w.mem.table = i) :
    w.mem.bins newTab k = [] := by
  refine List.eq_nil_iff_forall_not_mem.mpr fun c hck => ?_
  obtain ⟨-, -, e, he, heq⟩ := hc.old k c hck
  obtain ⟨hlive, hlt⟩ := he.live hh
  have hhash : c.hash = e.hash := by
    rw [(hc.slot k).formed.hashed c hck, hh.hashed hlive, heq]
  have hidx := hb.index_mod hh c.hash
  rw [(hc.slot k).index c hck, hk, hhash] at hidx
  omega

/-- The last run of slot `i` is put into the new table. -/
theorem storeRun (hc : Copied E w t newTab (Before w i)) {rest : Bin K}
    (hsplit : w.mem.bins w.mem.table i = rest ++ lastRun) (hne : lastRun ≠ [])
    (hidx : ∀ e ∈ lastRun, index e.hash (w.mem.length newTab) = k) :
    Copied E (w.offside t (w.mem.storeBin newTab k lastRun)) t newTab
      fun e => Before w i e ∨ e ∈ ([] : Bin K) ∨ e ∈ lastRun := by
  have hmem : ∀ {e}, e ∈ lastRun → e ∈ w.mem.bins w.mem.table i := fun he =>
    hsplit ▸ List.mem_append_right _ he
  have hslot := hh.slot w.mem.table le_rfl i
  have hnil : w.mem.bins newTab k = [] := by
    obtain ⟨e, he⟩ := List.exists_mem_of_ne_nil _ hne
    refine hb.slot_nil hh hc ?_
    rw [← hidx e he, hb.index_mod hh, hslot.index e (hmem he)]
  have hform := hslot.formed
  have hkeys := hslot.keys
  rw [hsplit] at hform hkeys
  refine hc.store hb.table hform.of_append hidx ?_ (by simp [hnil]) (fun c hcl => ?_) (fun _ => .inl) ?_
  · rw [List.map_append] at hkeys
    exact hkeys.of_append_right
  · have hlive := hh.live_of_mem (hmem hcl)
    exact ⟨(hh.live c hlive).1, .inl hlive, c, .inr (.inr hcl), rfl⟩
  · rintro e (he | he | he)
    · exact .inl he
    · cases he
    · exact .inr ⟨e, he, rfl, rfl⟩

end Building

theorem at_cloning (hcall : Caller w t n) (hl : HoldsAll E w t) (hb : Building w oldTab newTab)
    (hform : Formed E w (w.mem.bins w.mem.table i)) (hc : Cloning E w t i newTab p lastRun) :
    At E w t (.resize n (cloning i oldTab newTab p lastRun)) := by
  refine ⟨hcall, ?_⟩
  rw [cloning]
  split
  · next heq =>
    obtain ⟨-, -, pre, rest, hbin, rfl, hc⟩ := hc
    have hp := hform
    rw [hbin] at hp
    have hp := hp.of_append.eq_of_address hp.of_append.of_append heq
    rw [hp] at hbin
    refine ⟨hl, hb, hc.congr fun e => ?_⟩
    rw [before_succ, hbin, List.mem_append]
  · next hne => exact ⟨hl, hb, hc, fun h => hne (h ▸ rfl)⟩

section Fill
variable [DecidableEq T] [DecidableEq K] (hg : Glob E w) (hcall : Caller w t n) (hl : HoldsAll E w t)
  (hb : Building w oldTab newTab)
include hg hcall hl hb

omit hcall in
/-- A step that fills slot `k` of the new table. -/
theorem takes_fill (hat : Building (w.offside t (w.mem.storeBin newTab k l)) oldTab newTab →
      HoldsAll E (w.offside t (w.mem.storeBin newTab k l)) t →
      At E (w.offside t (w.mem.storeBin newTab k l)) t pc) :
    Takes E t w (w.mem.storeBin newTab k l) pc [] :=
  hg.takes_offside hl (beside_storeBin hb.table) (hat ⟨hb.old, hb.table, hb.tables, hb.length, hb.small⟩)

omit hcall hl in
/-- The old table is as it was. -/
theorem fill_formed : Formed E (w.offside t (w.mem.storeBin newTab k l))
    ((w.offside t (w.mem.storeBin newTab k l)).mem.bins w.mem.table i) := by
  have hm : Beside w (w.mem.storeBin newTab k l) := beside_storeBin hb.table
  have hbins : (w.offside t (w.mem.storeBin newTab k l)).mem.bins w.mem.table = w.mem.bins w.mem.table :=
    hm.bins _ le_rfl
  rw [hbins]
  exact hm.formed (hg.heap.formed i)

omit hg hcall hl [DecidableEq T] [DecidableEq K] in
theorem fill_copied {pre : Bin K}
    (h : Copied E (w.offside t (w.mem.storeBin newTab k l)) t newTab
      fun e => Before w i e ∨ e ∈ pre ∨ e ∈ lastRun) :
    Copied E (w.offside t (w.mem.storeBin newTab k l)) t newTab
      fun e => Before (w.offside t (w.mem.storeBin newTab k l)) i e ∨ e ∈ pre ∨ e ∈ lastRun := by
  have hm : Beside w (w.mem.storeBin newTab k l) := beside_storeBin hb.table
  have hbins : (w.offside t (w.mem.storeBin newTab k l)).mem.bins w.mem.table = w.mem.bins w.mem.table :=
    hm.bins _ le_rfl
  have hbefore : Before (w.offside t (w.mem.storeBin newTab k l)) = Before w := by
    funext i e
    change (∃ j < i, e ∈ (w.offside t (w.mem.storeBin newTab k l)).mem.bins w.mem.table j) = _
    rw [hbins]
    rfl
  rwa [hbefore]

/-- The last run of slot `i`, or all of it. -/
theorem step_run (hc : Copied E w t newTab (Before w i)) (hlt : i < w.mem.length w.mem.table)
    {rest : Bin K} (hsplit : w.mem.bins w.mem.table i = rest ++ lastRun) (hne : lastRun ≠ [])
    (hidx : ∀ e ∈ lastRun, index e.hash (w.mem.length newTab) = k) :
    Takes E t w (w.mem.storeBin newTab k lastRun)
      (.resize n (cloning i oldTab newTab (w.mem.bins w.mem.table i) lastRun)) [] := by
  refine takes_fill hg hl hb fun hb' hl' => at_cloning hcall hl' hb' (fill_formed hg hb) ?_
  have hm : Beside w (w.mem.storeBin newTab k lastRun) := beside_storeBin hb.table
  have hbins : (w.offside t (w.mem.storeBin newTab k lastRun)).mem.bins w.mem.table
      = w.mem.bins w.mem.table := hm.bins _ le_rfl
  exact ⟨hlt, hne, [], rest, congrFun hbins i, hsplit,
    fill_copied hb (hb.storeRun hg.heap hc hsplit hne hidx)⟩

theorem step_bin (hc : Copied E w t newTab (Before w i)) (ha : Resize.access E t w.mem n (.bin i oldTab newTab)
      = some (m, pc', es)) (hlt : i < w.mem.length oldTab) : Takes E t w m pc' es := by
  have hh := hg.heap
  obtain rfl := hb.old
  rw [Resize.access, if_pos hlt] at ha
  split at ha
  · next hbin =>
    cases ha
    refine hg.takes_read ⟨hcall, hl, hb, hc.congr fun e => ?_⟩
    rw [before_succ, hbin]
    simp
  · next e hbin =>
    cases ha
    have hsplit : w.mem.bins w.mem.table i = [] ++ [e] := hbin
    have h := step_run hg hcall hl hb hc hlt hsplit (by simp) fun a ha =>
      congrArg (fun a => index (Entry.hash a) (w.mem.length newTab)) (List.mem_singleton.mp ha)
    rwa [hbin, cloning, if_pos rfl] at h
  · next e next hne hbin =>
    cases ha
    obtain ⟨⟨rest, hrest⟩, hlast, hidx⟩ := run_spec (w.mem.length newTab) (e :: next)
      (index e.hash (w.mem.length newTab)) next (by simp) ⟨[e], rfl, by simp⟩
    have h := step_run hg hcall hl hb hc hlt (hbin.trans hrest.symm) hlast hidx
    rwa [hbin] at h

/-- The entry at `p`, with its value, is copied. -/
theorem step_clone (hc : Cloning E w t i newTab p lastRun) (hne : p ≠ lastRun)
    (ha : Resize.access E t w.mem n (.clone i oldTab newTab p lastRun) = some (m, pc', es)) :
    Takes E t w m pc' es := by
  have hh := hg.heap
  cases p with
  | nil => cases ha
  | cons q p =>
    cases ha
    have hq : Live w q := by
      obtain ⟨-, -, pre, -, hbin, -⟩ := hc
      have hmem : q ∈ w.mem.bins w.mem.table i := hbin ▸ List.mem_append_right _ List.mem_cons_self
      exact hh.live_of_mem hmem
    have hcopied : ∀ j, Formed E w (w.mem.bins newTab j) := by
      obtain ⟨-, -, _, _, -, -, hc⟩ := hc
      exact fun j => (hc.slot j).formed
    refine hg.takes_alloc (w.mem.bins newTab (index q.hash (w.mem.length newTab))) q.key (hh.hashed hq)
      (hcopied _) fun w' hr hn hs hform hk hv => ?_
    have hat : At E w t (.resize n (.clone i oldTab newTab (q :: p) lastRun)) := ⟨hcall, hl, hb, hc, hne⟩
    obtain ⟨hcall', hl', hb', hc', -⟩ := At.stable hr hh hn hat
    obtain ⟨hbins, hlen, -⟩ := hr.all_frozen hh hl
    refine ⟨hcall', hl', hb', hc', hne, ⟨q, rfl, rfl, hk, ?_⟩, ?_⟩
    · rw [hv, hs]
      exact (hh.live q hq).1
    · rw [hbins, hlen]
      exact hform

/-- The copy is put into the new table. -/
theorem step_link (hc : Cloning E w t i newTab p lastRun) (hne : p ≠ lastRun) {q c : Entry K}
    (hq : p.head? = some q) (hcopy : Copy w t q c)
    (hform : Formed E w (c :: w.mem.bins newTab (index c.hash (w.mem.length newTab)))) :
    Takes E t w (w.mem.storeBin newTab (index c.hash (w.mem.length newTab))
        (c :: w.mem.bins newTab (index c.hash (w.mem.length newTab))))
      (.resize n (cloning i oldTab newTab p.tail lastRun)) [] := by
  have hh := hg.heap
  obtain ⟨p, rfl⟩ : ∃ p', p = q :: p' := by
    cases p with
    | nil => cases hq
    | cons a p => exact ⟨p, by rw [Option.some.inj hq]⟩
  obtain ⟨hlt, hlast, pre, rest, hbin, hp, hc⟩ := hc
  obtain ⟨rest, rfl⟩ : ∃ r, rest = q :: r := by
    cases rest with
    | nil => exact absurd hp hne
    | cons a r => exact ⟨r, by rw [(List.cons.inj hp).1]⟩
  have hp := (List.cons.inj hp).2
  have hslot := hh.slot w.mem.table le_rfl i
  have hqmem : q ∈ w.mem.bins w.mem.table i := hbin ▸ List.mem_append_right _ List.mem_cons_self
  have hqlive := hh.live_of_mem hqmem
  have hkeys := hslot.keys
  rw [hbin] at hkeys
  have hlacks := lacks_of_nodup hkeys
  -- the copy of an entry is not there before its turn
  have hnot : Lacks c.key (w.mem.bins newTab (index c.hash (w.mem.length newTab))) := by
    intro a ha heq
    obtain ⟨-, -, e, he, hkey⟩ := hc.old _ a ha
    have hek : e.key = q.key := by rw [hkey, heq, hcopy.keyed]
    rcases he with he | he | he
    · obtain ⟨hlive, hidx⟩ := he.live hh
      rw [hh.eq_of_key hlive hqlive hek, hslot.index q hqmem] at hidx
      exact lt_irrefl i hidx
    · exact hlacks e (List.mem_append_left _ he) hek
    · exact hlacks e (List.mem_append_right _ (hp ▸ List.mem_append_right _ he)) hek
  refine takes_fill hg hl hb fun hb' hl' => at_cloning hcall hl' hb' (fill_formed hg hb) ?_
  have hm : Beside w (w.mem.storeBin newTab (index c.hash (w.mem.length newTab))
    (c :: w.mem.bins newTab (index c.hash (w.mem.length newTab)))) := beside_storeBin hb.table
  have hbins : (w.offside t (w.mem.storeBin newTab (index c.hash (w.mem.length newTab))
    (c :: w.mem.bins newTab (index c.hash (w.mem.length newTab))))).mem.bins w.mem.table
      = w.mem.bins w.mem.table := hm.bins _ le_rfl
  refine ⟨hlt, hlast, pre ++ [q], rest, (congrFun hbins i).trans ?_, hp, fill_copied hb ?_⟩
  · rw [hbin, List.append_assoc, List.singleton_append]
    rfl
  refine hc.store hb.table hform (fun a ha => ?_) ?_ (fun a ha => List.mem_cons_of_mem _ ha)
    (fun a ha => ?_) ?_ ?_
  · rcases List.mem_cons.mp ha with rfl | ha
    · rfl
    · exact (hc.slot _).index a ha
  · rw [List.map_cons, List.nodup_cons]
    refine ⟨fun hmem => ?_, (hc.slot _).keys⟩
    obtain ⟨a, ha, heq⟩ := List.mem_map.mp hmem
    exact hnot a ha heq
  · rcases List.mem_cons.mp ha with rfl | ha
    · exact ⟨(congrArg w.s hcopy.keyed).symm ▸ hcopy.value, .inr hcopy.priv, q,
        .inr (.inl (by simp)), hcopy.keyed.symm⟩
    · obtain ⟨h₁, h₂, e, he, heq⟩ := hc.old _ a ha
      exact ⟨h₁, h₂, e, he.imp_right (Or.imp_left fun h => List.mem_append_left _ h), heq⟩
  · rintro e (he | he | he)
    · exact .inl he
    · exact .inr (.inl (List.mem_append_left _ he))
    · exact .inr (.inr he)
  · rintro e (he | he | he)
    · exact .inl (.inl he)
    · rcases List.mem_append.mp he with he | he
      · exact .inl (.inr (.inl he))
      · obtain rfl := List.mem_singleton.mp he
        exact .inr ⟨c, List.mem_cons_self, hcopy.keyed, by
          rw [hform.1.2.2, hcopy.keyed, hh.hashed hqlive]⟩
    · exact .inl (.inr (.inr he))

end Fill

/-! ## The new table takes over -/

open Classical in
/-- The entries in table `tab` are live, those that were and are not in it are retired. -/
noncomputable def takeOver (w : World T K V) (tab : ℕ) (a : ℕ) : Kind T :=
  if ∃ j, ∃ e ∈ w.mem.bins tab j, e.addr = a then .live
  else if w.kind a = .live then .retired else w.kind a

/-- The world after `t` has made `tab` the table. -/
noncomputable def World.published (w : World T K V) (t : T) (tab : ℕ) : World T K V :=
  w.after t { w.mem with table := tab } [] w.s w.st w.chain (takeOver w tab)

section Publish
variable (hl : HoldsAll E w t) (hb : Building w oldTab newTab)
  (hc : Copied E w t newTab (Before w (w.mem.length w.mem.table))) (hh : Heap E w)

theorem takeOver_new {j : ℕ} (he : e ∈ w.mem.bins newTab j) : takeOver w newTab e.addr = .live :=
  if_pos ⟨j, e, he, rfl⟩

theorem published_live : Live (w.published t newTab) a ↔
    a ∈ w.mem.bins newTab (index a.hash (w.mem.length newTab)) := by
  unfold Live
  exact Iff.rfl

theorem published_formed (h : Formed E w l) : Formed E (w.published t newTab) l :=
  h.mono le_rfl fun _ _ => rfl

include hc in
theorem published_live_of_mem {j : ℕ} (ha : a ∈ w.mem.bins newTab j) : Live (w.published t newTab) a := by
  rw [published_live, (hc.slot j).index a ha]
  exact ha

include hc hh

/-- An entry of the new table has the key of one in the old. -/
theorem Copied.source {j : ℕ} (ha : a ∈ w.mem.bins newTab j) : ∃ e, Live w e ∧ e.key = a.key := by
  obtain ⟨-, -, e, he, heq⟩ := hc.old j a ha
  exact ⟨e, (he.live hh).1, heq⟩

/-- An entry that was in neither keeps its kind. -/
theorem takeOver_other (h₁ : w.kind i ≠ .live) (h₂ : w.kind i ≠ .priv t) :
    takeOver w newTab i = w.kind i := by
  rw [takeOver, if_neg, if_neg h₁]
  rintro ⟨j, e, he, rfl⟩
  exact (hc.old j e he).2.1.elim (fun hlive => h₁ (hh.live e hlive).2) h₂

theorem published_full {sg : ℕ} (h : FullBut w sg none) : FullBut (w.published t newTab) sg none := by
  intro a ha hseg _
  have ha := published_live.mp ha
  obtain ⟨e, he, heq⟩ := hc.source hh ha
  refine heq ▸ h e he ?_ (by simp)
  rw [hh.hashed he, heq, ← (hc.slot _).formed.hashed a ha, hseg]

theorem published_tidy {sg : ℕ} (h : Tidy E w sg) : Tidy E (w.published t newTab) sg :=
  ⟨published_full hc hh h.full, h.counts⟩

include hl hb

theorem published_heap : Heap E (w.published t newTab) where
  locks := hh.locks
  last sg hsg h := by
    have h : w.mem.lock sg = none := h
    rw [(hl sg hsg).1] at h
    cases h
  capacity id hid := by
    rcases Nat.lt_or_eq_of_le hid with hlt | heq
    · have hlt : id < newTab := hlt
      exact hh.capacity id (by have := hb.table; omega)
    · exact heq ▸ hb.cap hh
  slot id hid j := by
    rcases Nat.lt_or_eq_of_le hid with hlt | heq
    · have hlt : id < newTab := hlt
      obtain ⟨h₁, h₂, h₃⟩ := hh.slot id (by have := hb.table; omega) j
      exact ⟨published_formed h₁, h₂, h₃⟩
    · obtain rfl : id = newTab := heq
      obtain ⟨h₁, h₂, h₃⟩ := hc.slot j
      exact ⟨published_formed h₁, h₂, h₃⟩
  live a ha := by
    have ha := published_live.mp ha
    exact ⟨(hc.old _ a ha).1, takeOver_new ha⟩
  bound k hk := by
    obtain ⟨e, he, rfl⟩ := hh.bound k hk
    have hlive := hh.live_of_mem he
    obtain ⟨c, hcm, heq⟩ := hc.all e ⟨_, hh.cap.index_lt (hash E e.key), he⟩
    rw [hh.hashed hlive] at hcm
    exact ⟨c, hcm, heq⟩
  free sg h := published_tidy hc hh (hh.free sg h)

omit hl in
theorem published_common : Common w (w.published t newTab) where
  fresh := le_rfl
  chain _ _ := rfl
  retired a _ hk := ⟨(takeOver_other hc hh (by simp [hk]) (by simp [hk])).trans hk, rfl⟩
  live a ha := by
    by_cases hnew : ∃ j, ∃ e ∈ w.mem.bins newTab j, e.addr = a.addr
    · obtain ⟨j, e, he, heq⟩ := hnew
      obtain rfl := (hc.slot j).formed.eq_of_addr (hh.formed _) he ha heq
      exact .inl (published_live_of_mem hc he)
    · refine .inr ⟨?_, (hh.live a ha).1⟩
      change takeOver w newTab a.addr = _
      rw [takeOver, if_neg hnew, if_pos (hh.live a ha).2]
  length _ _ := rfl
  stale _ _ := rfl
  table := .inr ⟨by rw [hb.table]; exact Nat.lt_succ_self _, rfl, rfl⟩

omit hh in
theorem step_publish [DecidableEq T] [DecidableEq K] (hg : Glob E w) (hcall : Caller w t n) :
    Takes E t w { w.mem with table := newTab } (.resize n (.unlock (concurrencyLevel - 1))) [] := by
  have hh := hg.heap
  refine Glob.takes (hg.replay_quiet rfl) (published_heap hl hb hc hh) (published_common hb hc hh)
    (fun a _ u hu hk => ⟨?_, rfl⟩) (fun _ _ => rfl) (fun u hu sg h => absurd h (hl.alone hh hu))
    ⟨hcall, fun j hj => ?_⟩
  · exact (takeOver_other hc hh (by simp [hk]) (by simp [hk, hu])).trans hk
  · obtain ⟨hlock, htidy⟩ := hl j (Nat.lt_of_le_of_lt hj (by decide))
    exact ⟨hlock, published_tidy hc hh htidy, hb.tables⟩

end Publish

/-! ## All of resize -/

theorem step_resize [DecidableEq T] [DecidableEq K] (hg : Glob E w) {q : Resize K}
    (hcall : Caller w t n) (h : ResizeAt E w t q) (ha : q.access E t w.mem n = some (m, pc', es)) :
    Takes E t w m pc' es := by
  have hh := hg.heap
  cases q with
  | lock i tab =>
    obtain ⟨hl, rfl, rfl, rfl⟩ := acquire_eq ha
    refine hg.takes_acquire h.1 hl fun w' hr hn hholds => ?_
    obtain ⟨hcall', -, hj⟩ := At.stable hr hh hn (p := .resize n (.lock i tab)) ⟨hcall, h⟩
    refine ⟨hcall', h.1, fun j hji => ?_⟩
    rcases Nat.lt_or_eq_of_le hji with hlt | rfl
    · exact hj j hlt
    · exact hholds
  | test i tab =>
    obtain ⟨hi, hj⟩ := h
    rw [Resize.access] at ha
    split at ha
    · split at ha
      · next hlt =>
        cases ha
        exact hg.takes_read ⟨hcall, hlt, fun j hj' => hj j (Nat.lt_succ_iff.mp hj')⟩
      · cases ha
        exact hg.takes_read ⟨hcall, fun j hj' => hj j (by omega)⟩
    · cases ha
      exact hg.takes_read ⟨hcall, hj⟩
  | votes =>
    cases ha
    exact hg.takes_local rfl ⟨hcall, h⟩
  | table =>
    rw [Resize.access] at ha
    split at ha
    · cases ha
      exact hg.takes_read ⟨hcall, h⟩
    · next hlt =>
      cases ha
      exact hg.takes_read ⟨hcall, h, rfl, not_le.mp hlt⟩
  | max =>
    cases ha
    exact hg.takes_local rfl ⟨hcall, fun j hj => h j (Nat.lt_of_le_of_lt hj (by decide))⟩
  | new old =>
    obtain ⟨hl, rfl, hlt⟩ := h
    cases ha
    exact step_newTable hg hcall hl hlt
  | bin i oldTab newTab =>
    obtain ⟨hl, hb, hc⟩ := h
    by_cases hlt : i < w.mem.length oldTab
    · exact step_bin hg hcall hl hb hc ha hlt
    · rw [Resize.access, if_neg hlt] at ha
      cases ha
      obtain rfl := hb.old
      refine step_publish hl hb (hc.congr fun e => ⟨?_, ?_⟩) hg hcall
      · rintro he
        obtain ⟨hlive, -⟩ := he.live hh
        exact ⟨_, hh.cap.index_lt e.hash, hlive⟩
      · rintro ⟨j, hj, he⟩
        exact ⟨j, by omega, he⟩
  | clone i oldTab newTab p lastRun =>
    obtain ⟨hl, hb, hc, hne⟩ := h
    exact step_clone hg hcall hl hb hc hne ha
  | link i oldTab newTab p lastRun c =>
    obtain ⟨hl, hb, hc, hne, ⟨q, hq, hcopy⟩, hform⟩ := h
    cases ha
    exact step_link hg hcall hl hb hc hne hq hcopy hform
  | unlock i =>
    have hi := h i le_rfl
    cases i with
    | zero =>
      cases ha
      cases n with
      | none =>
        obtain ⟨o, hst⟩ := hcall
        exact hg.takes_unlock hi (hg.replay_ret hst)
      | some n =>
        refine hg.takes_leave hi rfl fun w' _ _ hst _ => ?_
        exact ⟨by rw [hst]; exact hcall, trivial⟩
    | succ i =>
      cases ha
      refine hg.takes_leave hi rfl fun w' _ _ hst hholds => ⟨?_, fun j hj => ?_⟩
      · cases n with
        | none => exact hcall.imp fun o ho => by rw [hst, ho]
        | some n => exact (congrFun hst t).trans hcall
      · exact hholds j (by omega) (h j (by omega))

end Cds.ConcurrentHashMap
