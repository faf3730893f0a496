import CdsBenchmarks.ConcurrentHashMap.ConcurrentHashMapLinearizable

/-! What an iterator returns, while other threads change, resize and clear the map: each key at
most once, with a value that it had since the iterator was created, and no key left out that was
there all the time. -/

namespace Cds.ConcurrentHashMap
open Concurrent Program

variable {T K V : Type*} {E : Env K} {w w' : World T K V} {t u : T} {e a : Entry K} {l : Bin K}
  {key k : K} {v : V} {i tab : ℕ} {it : Iter K V} {Y : List (K × V)} {m m' : Mem T K V}
  {es : List (Event K V)} {pc pc' : Pc K V}

/-! ## What has been returned -/

/-- The entries returned by `next`, from those so far. -/
def yield (Y : List (K × V)) : Event K V → List (K × V)
  | .ask .iterator => []
  | .answer (.entry k v) => Y ++ [(k, v)]
  | _ => Y

/-- What the iterator of `t` has returned. -/
def yields [DecidableEq T] (t : T) (tr : List (T × Event K V)) : List (K × V) :=
  tr.foldl (fun Y e => if e.1 = t then yield Y e.2 else Y) []

theorem yields_self [DecidableEq T] (tr : List (T × Event K V)) :
    yields t (tr ++ emit t es) = es.foldl yield (yields t tr) := by
  rw [yields, yields, List.foldl_append, emit, List.foldl_map]
  simp

theorem yields_other [DecidableEq T] (tr : List (T × Event K V)) (hu : u ≠ t) :
    yields t (tr ++ emit u es) = yields t tr := by
  rw [yields, yields, List.foldl_append, emit, List.foldl_map]
  simp only [hu, if_false]
  induction es with
  | nil => rfl
  | cons e es ih => exact ih

/-- Neither the creation of an iterator nor an entry that is returned. -/
def Event.plain : Event K V → Prop
  | .ask .iterator | .answer (.entry _ _) => False
  | _ => True

theorem foldl_plain (h : ∀ e ∈ es, e.plain) : es.foldl yield Y = Y := by
  induction es generalizing Y with
  | nil => rfl
  | cons e es ih =>
    have he : yield Y e = Y := by
      have := h e (by simp)
      unfold yield
      split
      · exact this.elim
      · exact this.elim
      · rfl
    rw [List.foldl_cons, he]
    exact ih fun e he => h e (by simp [he])

/-- `hasNext` is looking for the next entry. -/
def Pc.looking : Pc K V → Prop
  | .iterator _ => True
  | _ => False

/-- The point and the events of a step that is not an iterator's. -/
def Plain (pc : Pc K V) (es : List (Event K V)) : Prop := ¬pc.looking ∧ ∀ e ∈ es, e.plain

section Access
variable [DecidableEq K] [DecidableEq V] {m : Mem T K V} {value : V}

omit [DecidableEq K] [DecidableEq V] in
theorem acquire_plain {s : ℕ}
    (h : (acquire t m s).map (·, pc, ([] : List (Event K V))) = some (m', pc', es))
    (hp : ¬pc.looking) : Plain pc' es := by
  obtain ⟨-, -, rfl, rfl⟩ := acquire_eq h
  exact ⟨hp, by simp⟩

omit [DecidableEq V] in
theorem Get.plain {p : Get K V} (h : p.access E t m key = some (m', pc', es)) : Plain pc' es := by
  cases p with
  | lock f e => exact acquire_plain h fun h => h
  | table | retable f e | revalue e | unlock r => cases h; exact ⟨fun h => h, by simp [Event.plain]⟩
  | first tab | value f e =>
    rw [Get.access] at h
    split at h <;> cases h <;> exact ⟨fun h => h, by simp [Event.plain]⟩
  | refirst f e tab =>
    rw [Get.access] at h
    split at h
    · split at h <;> cases h <;> exact ⟨fun h => h, by simp⟩
    · cases h
      exact ⟨fun h => h, by simp⟩

omit [DecidableEq V] in
theorem Put.plain {p : Put K V} (h : p.access E t m key value = some (m', pc', es)) :
    Plain pc' es := by
  cases p with
  | lock => exact acquire_plain h fun h => h
  | voted tab n v =>
    rw [Put.access] at h
    cases h
    refine ⟨?_, by simp⟩
    split <;> exact fun h => h
  | first tab | threshold tab n | votes tab n | max tab n =>
    rw [Put.access] at h
    split at h <;> cases h <;> exact ⟨fun h => h, by simp [Event.plain]⟩
  | _ => cases h; exact ⟨fun h => h, by simp [Event.plain]⟩

theorem Remove.plain {value : Option V} {p : Remove K V}
    (h : p.access E t m key value = some (m', pc', es)) : Plain pc' es := by
  cases p with
  | lock => exact acquire_plain h fun h => h
  | first tab | old tab f e next =>
    rw [Remove.access] at h
    split at h <;> cases h <;> exact ⟨fun h => h, by simp [Event.plain]⟩
  | clone tab p e head r =>
    cases p with
    | nil => cases h
    | cons q p =>
      rw [Remove.access] at h
      split at h <;> cases h <;> exact ⟨fun h => h, by simp⟩
  | _ => cases h; exact ⟨fun h => h, by simp [Event.plain]⟩

omit [DecidableEq K] [DecidableEq V] in
theorem Resize.plain {n : Option JInt} {p : Resize K} (h : p.access E t m n = some (m', pc', es)) :
    Plain pc' es := by
  cases p with
  | lock i tab => exact acquire_plain h fun h => h
  | test i tab =>
    rw [Resize.access] at h
    split at h
    · split at h <;> cases h <;> exact ⟨fun h => h, by simp⟩
    · cases h
      exact ⟨fun h => h, by simp⟩
  | table =>
    rw [Resize.access] at h
    split at h <;> cases h <;> exact ⟨fun h => h, by simp⟩
  | bin i old new =>
    rw [Resize.access] at h
    split at h
    · split at h <;> cases h <;> exact ⟨fun h => h, by simp⟩
    · cases h
      exact ⟨fun h => h, by simp⟩
  | clone i old new p lastRun =>
    cases p <;> cases h
    exact ⟨fun h => h, by simp⟩
  | unlock i =>
    cases i with
    | zero => cases n <;> cases h <;> exact ⟨fun h => h, by simp [Event.plain]⟩
    | succ i => cases h; exact ⟨fun h => h, by simp⟩
  | _ => cases h; exact ⟨fun h => h, by simp⟩

omit [DecidableEq K] [DecidableEq V] in
theorem Clear.plain {s : ℕ} {p : Clear K} (h : p.access (V := V) t m s = some (m', pc', es)) :
    Plain pc' es := by
  cases p with
  | lock => exact acquire_plain h fun h => h
  | entry tab i l => cases l <;> cases h <;> exact ⟨fun h => h, by simp [Event.plain]⟩
  | unlock =>
    rw [Clear.access] at h
    split at h <;> cases h <;> exact ⟨fun h => h, by simp [Event.plain]⟩
  | _ => cases h; exact ⟨fun h => h, by simp⟩

omit [DecidableEq K] [DecidableEq V] in
theorem Count.plain {empty : Bool} {s : ℕ} {c : JInt} {p : Count}
    (h : p.access (K := K) t m empty s c = some (m', pc', es)) : Plain pc' es := by
  cases p with
  | lock => exact acquire_plain h fun h => h
  | read => cases h; exact ⟨fun h => h, by simp⟩
  | unlock n =>
    rw [Count.access] at h
    split at h
    · cases h
      exact ⟨fun h => h, by simp [Event.plain]⟩
    · split at h <;> cases h
      · exact ⟨fun h => h, by simp⟩
      · cases empty <;> exact ⟨fun h => h, by simp [Event.plain]⟩

omit [DecidableEq K] [DecidableEq V] in
theorem containing_plain {s : ℕ} (h : containing m value s tab i l = some (m', pc', es)) :
    Plain pc' es := by
  rw [containing] at h
  split at h
  · cases h
    exact ⟨fun h => h, by simp⟩
  · split at h
    · cases h
      exact ⟨fun h => h, by simp⟩
    · split at h <;> cases h <;> exact ⟨fun h => h, by simp [Event.plain]⟩

omit [DecidableEq K] in
theorem Contains.plain {s : ℕ} {p : Contains K}
    (h : p.access t m value s = some (m', pc', es)) : Plain pc' es := by
  cases p with
  | lock => exact acquire_plain h fun h => h
  | table => cases h; exact ⟨fun h => h, by simp⟩
  | unlock tab =>
    rw [Contains.access] at h
    split at h
    · cases h
      exact ⟨fun h => h, by simp⟩
    · exact containing_plain h
  | bin tab i => exact containing_plain h
  | entry tab i l =>
    cases l with
    | nil => cases h
    | cons e l =>
      rw [Contains.access] at h
      split at h
      · cases h
        exact ⟨fun h => h, by simp [Event.plain]⟩
      · exact containing_plain h

omit [DecidableEq K] [DecidableEq V] in
theorem Reserve.plain {n : JInt} {p : Reserve}
    (h : p.access (K := K) t m n = some (m', pc', es)) : Plain pc' es := by
  cases p with
  | lock => exact acquire_plain h fun h => h
  | unlock tab max =>
    rw [Reserve.access] at h
    split at h <;> cases h <;> exact ⟨fun h => h, by simp [Event.plain]⟩
  | _ => cases h; exact ⟨fun h => h, by simp⟩

theorem access_plain {p : Pc K V} (h : p.access E t m = some (m', pc', es)) : Plain pc' es := by
  cases p with
  | idle | iterator p => cases h
  | get key p => exact Get.plain h
  | put key value p => exact Put.plain h
  | remove key value p => exact Remove.plain h
  | resize n p => exact Resize.plain h
  | clear s p => exact Clear.plain h
  | count empty s c p => exact Count.plain h
  | contains value s p => exact Contains.plain h
  | reserve n p => exact Reserve.plain h

end Access

/-! ## An iterator -/

/-- An iterator over table `tab` that has looked at the slots from `idx` on, is at `l`, and has
returned `Y`. -/
structure IterOk (E : Env K) (w : World T K V) (t : T) (tab idx : ℕ) (l : Bin K) (Y : List (K × V)) :
    Prop where
  snap : Snap E w t tab
  sees : ∀ e ∈ l, Sees w t e
  formed : Formed E w l
  slot : ∀ e ∈ l, index e.hash (w.mem.length tab) = idx
  keys : (l.map Entry.key).Nodup
  was : ∀ y ∈ Y, ∃ x, w.past t x ∧ x y.1 = some y.2
  seen : ∀ y ∈ Y, idx ≤ index (hash E y.1) (w.mem.length tab) ∧ Lacks y.1 l
  once : (Y.map Prod.fst).Nodup
  all : ∀ k, idx ≤ index (hash E k) (w.mem.length tab) →
    k ∈ Y.map Prod.fst ∨ (∃ e ∈ l, e.key = k) ∨ Absent w t k

namespace IterOk

theorem mono (h : IterOk E w t tab i l Y) (hc : Common w w') (hh : Heap E w)
    (hp : ∀ x, w.past t x → w'.past t x) (hn : w'.past t w'.s) : IterOk E w' t tab i l Y := by
  have hlen := hc.length _ h.snap.le
  exact {
    snap := h.snap.mono hc hh hp hn
    sees := fun e he => (h.sees e he).mono hc hh hp hn
    formed := h.formed.mono hc.fresh hc.chain
    slot := hlen ▸ h.slot
    keys := h.keys
    was := fun y hy => (h.was y hy).imp fun x hx => hx.imp_left (hp x)
    seen := hlen ▸ h.seen
    once := h.once
    all := fun k hk => (h.all k (hlen ▸ hk)).imp_right (Or.imp_right fun ha => ha.mono hp) }

/-- Before the first slot. -/
theorem init (hh : Heap E w) (h : Snap E w t tab) : IterOk E w t tab (w.mem.length tab) [] [] where
  snap := h
  sees _ he := by cases he
  formed := trivial
  slot _ he := by cases he
  keys := List.nodup_nil
  was _ hy := by cases hy
  seen _ hy := by cases hy
  once := List.nodup_nil
  all k hk := absurd ((hh.capacity _ h.le).index_lt (hash E k)) (not_lt.mpr hk)

/-- The next slot is read. -/
theorem load (hh : Heap E w) (hn : w.past t w.s) (h : IterOk E w t tab i [] Y) (hi : i ≠ 0) :
    IterOk E w t tab (i - 1) (w.mem.bins tab (i - 1)) Y := by
  have hslot := hh.slot tab h.snap.le (i - 1)
  obtain ⟨hsees, habs⟩ := h.snap.read hh hn (i - 1)
  refine ⟨h.snap, hsees, hslot.formed, hslot.index, hslot.keys, h.was, fun y hy => ⟨?_, fun e he hk => ?_⟩,
    h.once, fun k hk => ?_⟩
  · have := (h.seen y hy).1
    omega
  · have hidx := hslot.index e he
    rw [hslot.formed.hashed e he, hk] at hidx
    have := (h.seen y hy).1
    omega
  · by_cases hlt : i ≤ index (hash E k) (w.mem.length tab)
    · refine (h.all k hlt).imp_right fun hall => .inr ?_
      rcases hall with ⟨e, he, -⟩ | hall
      · cases he
      · exact hall
    · have hidx : index (hash E k) (w.mem.length tab) = i - 1 := by omega
      by_cases hlack : Lacks k (w.mem.bins tab (i - 1))
      · exact .inr (.inr (habs k hidx hlack))
      · simp only [Lacks, not_forall, not_not] at hlack
        obtain ⟨e, he, hk⟩ := hlack
        exact .inr (.inl ⟨e, he, hk⟩)

/-- An entry that has been invalidated is passed over. -/
theorem skip (hh : Heap E w) (hn : w.past t w.s) (h : IterOk E w t tab i (e :: l) Y)
    (hv : w.mem.value e.addr = none) : IterOk E w t tab i l Y := by
  have hkeys := h.keys
  rw [List.map_cons, List.nodup_cons] at hkeys
  refine ⟨h.snap, fun a ha => h.sees a (List.mem_cons_of_mem _ ha), h.formed.2,
    fun a ha => h.slot a (List.mem_cons_of_mem _ ha), hkeys.2, h.was,
    fun y hy => ⟨(h.seen y hy).1, fun a ha => (h.seen y hy).2 a (List.mem_cons_of_mem _ ha)⟩, h.once,
    fun k hk => (h.all k hk).imp_right fun hall => ?_⟩
  rcases hall with ⟨a, ha, rfl⟩ | hall
  · rcases List.mem_cons.mp ha with rfl | ha
    · obtain ⟨x, hx, heq⟩ := (h.sees a List.mem_cons_self).read hh hn
      exact .inr ⟨x, hx, heq.trans hv⟩
    · exact .inl ⟨a, ha, rfl⟩
  · exact .inr hall

/-- The entry is returned. -/
theorem take (h : IterOk E w t tab i (e :: l) Y) (hv : ∃ x, w.past t x ∧ x e.key = some v) :
    IterOk E w t tab i l (Y ++ [(e.key, v)]) := by
  have hkeys := h.keys
  rw [List.map_cons, List.nodup_cons] at hkeys
  have hlacks : Lacks e.key l := fun a ha heq => hkeys.1 (List.mem_map.mpr ⟨a, ha, heq⟩)
  refine ⟨h.snap, fun a ha => h.sees a (List.mem_cons_of_mem _ ha), h.formed.2,
    fun a ha => h.slot a (List.mem_cons_of_mem _ ha), hkeys.2, fun y hy => ?_, fun y hy => ?_, ?_,
    fun k hk => ?_⟩
  · rcases List.mem_append.mp hy with hy | hy
    · exact h.was y hy
    · exact List.mem_singleton.mp hy ▸ hv
  · rcases List.mem_append.mp hy with hy | hy
    · exact ⟨(h.seen y hy).1, fun a ha => (h.seen y hy).2 a (List.mem_cons_of_mem _ ha)⟩
    · obtain rfl := List.mem_singleton.mp hy
      refine ⟨?_, hlacks⟩
      rw [← h.formed.1.2.2, h.slot e List.mem_cons_self]
  · rw [List.map_append, List.map_singleton, List.nodup_append]
    refine ⟨h.once, List.nodup_singleton _, fun a ha b hb heq => ?_⟩
    obtain ⟨y, hy, rfl⟩ := List.mem_map.mp ha
    obtain rfl := List.mem_singleton.mp hb
    exact (h.seen y hy).2 e List.mem_cons_self heq.symm
  · rw [List.map_append, List.mem_append]
    rcases h.all k hk with hk | ⟨a, ha, rfl⟩ | hk
    · exact .inl (.inl hk)
    · rcases List.mem_cons.mp ha with rfl | ha
      · exact .inl (.inr (by simp))
      · exact .inr (.inl ⟨a, ha, rfl⟩)
    · exact .inr (.inr hk)

end IterOk

/-- `currentKey` and `currentValue`. -/
def Current (w : World T K V) (t : T) (it : Iter K V) : Prop :=
  ∀ k v, it.current = some (k, v) → (∃ e l, it.entry = e :: l ∧ e.key = k) ∧
    ∃ x, w.past t x ∧ x k = some v

def IteratePoint (E : Env K) (w : World T K V) (t : T) (iter : Option (Iter K V)) : Iterate → Prop
  | .lock | .table => iter = none
  | .unlock tab | .synchLock _ tab | .synchUnlock _ tab => iter = none ∧ Snap E w t tab
  | .value _ => True
  | .bin _ => ∀ it, iter = some it → it.entry = [] ∧ it.index ≠ 0

/-- The iterator of `t`, if it has one, has returned `Y`. -/
structure Iterating (E : Env K) (w : World T K V) (t : T) (l : Loc K V) (Y : List (K × V)) : Prop where
  fresh : l.iter = none → Y = []
  point : ∀ p, l.pc = .iterator p → IteratePoint E w t l.iter p
  ok : ∀ it, l.iter = some it → IterOk E w t it.tab it.index it.entry Y
  current : ∀ it, l.iter = some it → l.pc.looking ∨ Current w t it

section Iterating
variable {lc lc' : Loc K V}

theorem Iterating.mono (h : Iterating E w t lc Y) (hc : Common w w') (hh : Heap E w)
    (hp : ∀ x, w.past t x → w'.past t x) (hn : w'.past t w'.s) : Iterating E w' t lc Y where
  fresh := h.fresh
  point p hpc := by
    have hpoint := h.point p hpc
    cases p with
    | lock | table | value b | bin b => exact hpoint
    | unlock tab | synchLock i tab | synchUnlock i tab => exact ⟨hpoint.1, hpoint.2.mono hc hh hp hn⟩
  ok it hi := (h.ok it hi).mono hc hh hp hn
  current it hi := (h.current it hi).imp_right fun hcur k v heq =>
    (hcur k v heq).imp_right fun hx => hx.imp fun x hx => hx.imp_left (hp x)

/-- A step that is not the iterator's. -/
theorem Iterating.keep (h : Iterating E w t lc Y) (hl : ¬lc.pc.looking) (hplain : Plain pc es) :
    Iterating E w t ⟨pc, lc.iter⟩ (es.foldl yield Y) := by
  rw [foldl_plain hplain.2]
  exact ⟨h.fresh, fun p hpc => absurd (hpc ▸ trivial : (⟨pc, lc.iter⟩ : Loc K V).pc.looking) hplain.1, h.ok,
    fun it hi => .inr ((h.current it hi).resolve_left hl)⟩

theorem Iterating.of_some (h : IterOk E w t it.tab it.index it.entry Y)
    (hp : ∀ p, pc = .iterator p → IteratePoint E w t (some it) p) (hc : pc.looking ∨ Current w t it) :
    Iterating E w t ⟨pc, some it⟩ Y where
  fresh hi := by cases hi
  point := hp
  ok it' hi := by
    cases hi
    exact h
  current it' hi := by
    cases hi
    exact hc

theorem current_none (h : it.current = none) : Current w t it := fun k v heq => by
  rw [h] at heq
  cases heq

/-- `hasNext` goes on looking, or finds that there is no more. -/
theorem iterating_look (h : IterOk E w t it.tab it.index it.entry Y) (next : Bool) :
    Iterating E w t (it.look next).1 ((it.look next).2.foldl yield Y) := by
  rw [Iter.look]
  split
  · refine .of_some h (fun p hp => ?_) (.inl trivial)
    cases hp
    trivial
  · next hnil =>
    split
    · next hidx =>
      refine .of_some h (fun p hp => ?_) (.inl trivial)
      cases hp
      rintro it' hi
      cases hi
      exact ⟨not_not.mp hnil, hidx⟩
    · have hY : [Event.answer (if next then Answer.noSuchElement else .bool false)].foldl yield Y = Y :=
        foldl_plain (by cases next <;> simp [Event.plain])
      rw [hY]
      exact .of_some h (fun p hp => by cases hp) (.inr (current_none rfl))

theorem iterating_found (h : IterOk E w t it.tab it.index it.entry Y) (next : Bool)
    (hent : it.entry = e :: l) (hv : ∃ x, w.past t x ∧ x e.key = some v) :
    Iterating E w t (it.found next e v).1 ((it.found next e v).2.foldl yield Y) := by
  rw [Iter.found]
  split
  · refine .of_some ?_ (fun p hp => by cases hp) (.inr (current_none rfl))
    rw [hent] at h
    change IterOk E w t it.tab it.index it.entry.tail (Y ++ [(e.key, v)])
    rw [hent]
    exact h.take hv
  · refine .of_some h (fun p hp => by cases hp) (.inr fun k v' hcur => ?_)
    cases hcur
    exact ⟨⟨e, l, hent, rfl⟩, hv⟩

theorem iterating_iterate (h : Iterating E w t lc Y) (hh : Heap E w) (hn : w.past t w.s) {p : Iterate}
    (hp : lc.pc = .iterator p) (ha : p.access t w.mem lc.iter = some (m, lc', es)) :
    Iterating E w t lc' (es.foldl yield Y) := by
  have hpoint := h.point p hp
  -- before the iterator is made
  have hmake : ∀ {q : Iterate}, lc.iter = none → IteratePoint E w t none q →
      Iterating E w t ⟨.iterator q, lc.iter⟩ Y := fun hi hq => by
    rw [hi]
    refine ⟨fun _ => h.fresh hi, fun p hp => ?_, fun _ hi => (by cases hi), fun _ hi => by cases hi⟩
    cases hp
    exact hq
  cases p with
  | lock =>
    obtain ⟨m', -, heq⟩ := Option.map_eq_some_iff.mp ha
    cases heq
    exact hmake hpoint rfl
  | table =>
    cases ha
    exact hmake hpoint ⟨rfl, .inl rfl⟩
  | unlock tab =>
    cases ha
    exact hmake hpoint.1 ⟨rfl, hpoint.2⟩
  | synchLock i tab =>
    obtain ⟨m', -, heq⟩ := Option.map_eq_some_iff.mp ha
    cases heq
    exact hmake hpoint.1 ⟨rfl, hpoint.2⟩
  | synchUnlock i tab =>
    rw [Iterate.access] at ha
    split at ha
    · cases ha
      exact hmake hpoint.1 ⟨rfl, hpoint.2⟩
    · cases ha
      obtain rfl := h.fresh hpoint.1
      exact .of_some (.init hh hpoint.2) (fun p hp => by cases hp) (.inr (current_none rfl))
  | value b =>
    obtain ⟨pc, iter⟩ := lc
    obtain _ | it := iter
    · cases ha
    · have hok := h.ok it rfl
      rw [Iterate.access] at ha
      split at ha
      · cases ha
      · next e l hent =>
        rw [hent] at hok
        split at ha
        · next v hv =>
          obtain ⟨x, hx, heq⟩ := (hok.sees e List.mem_cons_self).read hh hn
          have hfound := iterating_found (hent ▸ hok) b hent ⟨x, hx, heq.trans hv⟩
          generalize it.found b e v = r at ha hfound
          cases ha
          exact hfound
        · next hv =>
          have hlook : Iterating E w t (Iter.look { it with entry := l } b).1
              ((Iter.look { it with entry := l } b).2.foldl yield Y) :=
            iterating_look (hok.skip hh hn hv) b
          generalize Iter.look { it with entry := l } b = r at ha hlook
          cases ha
          exact hlook
  | bin b =>
    obtain ⟨pc, iter⟩ := lc
    obtain _ | it := iter
    · cases ha
    · have hok := h.ok it rfl
      obtain ⟨hent, hidx⟩ := hpoint it rfl
      rw [hent] at hok
      have hlook : Iterating E w t (Iter.look { it with
            entry := w.mem.bins it.tab (it.index - 1), index := it.index - 1 } b).1
          ((Iter.look { it with
            entry := w.mem.bins it.tab (it.index - 1), index := it.index - 1 } b).2.foldl yield Y) :=
        iterating_look (hok.load hh hn hidx) b
      rw [Iterate.access] at ha
      generalize Iter.look _ b = r at ha hlook
      cases ha
      exact hlook

theorem iterating_ask (h : Iterating E w t lc Y) (hidle : lc.pc = .idle) {q : Query V}
    (hq : q ≠ .iterator) (ha : ask lc.iter q = some (lc', es)) :
    Iterating E w t lc' (es.foldl yield Y) := by
  obtain ⟨pc, iter⟩ := lc
  obtain rfl : pc = .idle := hidle
  have hkeep : ∀ {pc : Pc K V} {es : List (Event K V)}, Plain pc es →
      Iterating E w t ⟨pc, iter⟩ (es.foldl yield Y) := fun hplain => h.keep (fun h => h) hplain
  cases q with
  | clear | size | isEmpty | containsValue value =>
    cases ha
    exact hkeep ⟨fun h => h, by simp⟩
  | reserve n =>
    rw [ask] at ha
    split at ha <;> cases ha <;> exact hkeep ⟨fun h => h, by simp [Event.plain]⟩
  | iterator => exact absurd rfl hq
  | hasNext =>
    obtain ⟨it, rfl, heq⟩ := Option.map_eq_some_iff.mp ha
    have hlook := iterating_look (h.ok it rfl) false
    rwa [heq] at hlook
  | next =>
    obtain ⟨it, rfl, heq⟩ := Option.map_eq_some_iff.mp ha
    have hok := h.ok it rfl
    split at heq
    · next k v e l hcur hent =>
      obtain ⟨⟨e', l', hent', rfl⟩, hv⟩ := ((h.current it rfl).resolve_left fun h => h) k v hcur
      obtain ⟨rfl, rfl⟩ := List.cons.inj (hent'.symm.trans hent)
      have hfound := iterating_found hok true hent hv
      rwa [heq] at hfound
    · have hlook := iterating_look hok true
      rwa [heq] at hlook
  | remove =>
    obtain ⟨it, rfl, heq⟩ := Option.map_eq_some_iff.mp ha
    split at heq
    · cases heq
      exact hkeep ⟨fun h => h, by simp [Event.plain]⟩
    · cases heq
      refine .of_some (h.ok it rfl) (fun p hp => by cases hp) (.inr ?_)
      exact (h.current it rfl).resolve_left fun h => h

variable [DecidableEq K] [DecidableEq V]

/-- A step of the iterator's thread, unless it makes another. -/
theorem iterating_step (h : Iterating E w t lc Y) (hh : Heap E w) (hn : w.past t w.s) {a : Act K V}
    (hq : a ≠ .ask .iterator) (ha : step E t a w.mem lc = some (m, lc', es)) :
    Iterating E w t lc' (es.foldl yield Y) := by
  cases a with
  | call o =>
    rw [step] at ha
    split at ha
    · next hidle =>
      cases ha
      refine h.keep (hidle ▸ fun h => h) ⟨?_, by simp [Event.plain]⟩
      cases o <;> exact fun h => h
    · cases ha
  | ask q =>
    rw [step] at ha
    split at ha
    · next hidle =>
      have hq : q ≠ .iterator := fun heq => hq (heq ▸ rfl)
      obtain ⟨r, hr, heq⟩ := Option.map_eq_some_iff.mp ha
      cases heq
      have hask : yield Y (.ask q) = Y := by
        cases q <;> first | rfl | exact absurd rfl hq
      rw [List.foldl_cons, hask]
      exact iterating_ask h hidle hq hr
    · cases ha
  | run =>
    rw [step] at ha
    split at ha
    · next p hp => exact iterating_iterate h hh hn hp ha
    · next hp =>
      obtain ⟨r, hr, heq⟩ := Option.map_eq_some_iff.mp ha
      cases heq
      refine h.keep (fun hlook => ?_) (access_plain hr)
      unfold Pc.looking at hlook
      split at hlook
      · exact hp _ ‹_›
      · exact hlook

end Iterating

/-! ## Every run -/

variable [DecidableEq T] [DecidableEq K] [DecidableEq V] {c : JInt} {tr : List (T × Event K V)}
  {cf : Config T (Mem T K V) (Loc K V)}

/-- The current table stood for `x` some time since `t` last created an iterator. -/
def Since (E : Env K) (c : JInt) (tr : List (T × Event K V)) (cf : Config T (Mem T K V) (Loc K V)) (t : T)
    (x : K → Option V) : Prop :=
  ∃ tr₁ tr₂ c₁, tr = tr₁ ++ tr₂ ∧ (program T V E).Run anyStep (start T V E c) tr₁ c₁ ∧
    (program T V E).Run anyStep c₁ tr₂ cf ∧ (t, .ask .iterator) ∉ tr₂ ∧ c₁.mem.contents E = x

theorem Since.now (hrun : (program T V E).Run anyStep (start T V E c) tr cf) :
    Since E c tr cf t (cf.mem.contents E) :=
  ⟨tr, [], cf, by simp, hrun, .start, by simp, rfl⟩

theorem Since.step {x : K → Option V} (h : Since E c tr cf t x) {a : Act K V} {lc : Loc K V}
    (hs : (program T V E).step u a cf.mem (cf.loc u) = some (m, lc, es))
    (hne : (t, .ask .iterator) ∉ emit u es) : Since E c (tr ++ emit u es) (move cf u m lc) t x := by
  obtain ⟨tr₁, tr₂, c₁, rfl, h₁, h₂, hnot, hx⟩ := h
  refine ⟨tr₁, tr₂ ++ emit u es, c₁, by rw [List.append_assoc], h₁, h₂.step hs trivial, ?_, hx⟩
  rw [List.mem_append]
  exact not_or.mpr ⟨hnot, hne⟩

/-- The same world, with what was since the iterators were created. -/
def World.since (w : World T K V) (past : T → (K → Option V) → Prop) : World T K V :=
  { w with past := past }

omit [DecidableEq T] [DecidableEq K] [DecidableEq V] in
theorem since_heap {past : T → (K → Option V) → Prop} (hh : Heap E w) : Heap E (w.since past) := by
  have hS : Same w (w.since past) := ⟨rfl, rfl, rfl, rfl, rfl, rfl, rfl, rfl, rfl⟩
  exact hS.heap hh hh.locks hh.last fun sg h => hS.tidy (hh.free sg h) rfl

omit [DecidableEq T] [DecidableEq K] [DecidableEq V] in
theorem since_common {past past' : T → (K → Option V) → Prop} (hc : Common w w') :
    Common (w.since past) (w'.since past') :=
  ⟨hc.fresh, hc.chain, hc.retired, hc.live, hc.length, hc.stale, hc.table⟩

omit [DecidableEq T] [DecidableEq K] [DecidableEq V] in
theorem look_notMem {lc : Loc K V} {next : Bool} (h : it.look next = (lc, es)) :
    .ask .iterator ∉ es := by
  rw [show es = (it.look next).2 by rw [h], Iter.look]
  split
  · simp
  · split <;> simp

omit [DecidableEq T] [DecidableEq K] [DecidableEq V] in
theorem found_notMem {lc : Loc K V} {next : Bool} (h : it.found next e v = (lc, es)) :
    .ask .iterator ∉ es := by
  rw [show es = (it.found next e v).2 by rw [h], Iter.found]
  split <;> simp

omit [DecidableEq T] [DecidableEq K] [DecidableEq V] in
theorem iterate_notMem {iter : Option (Iter K V)} {p : Iterate} {lc : Loc K V}
    (ha : p.access t m iter = some (m', lc, es)) : .ask .iterator ∉ es := by
  cases p with
  | lock | synchLock i tab =>
    obtain ⟨m₁, -, heq⟩ := Option.map_eq_some_iff.mp ha
    cases heq
    simp
  | table | unlock tab =>
    cases ha
    simp
  | synchUnlock i tab =>
    rw [Iterate.access] at ha
    split at ha <;> cases ha <;> simp
  | value b =>
    obtain _ | it := iter
    · cases ha
    · rw [Iterate.access] at ha
      split at ha
      · cases ha
      · split at ha
        · exact found_notMem (Prod.mk.inj (Option.some.inj ha)).2
        · exact look_notMem (Prod.mk.inj (Option.some.inj ha)).2
  | bin b =>
    obtain _ | it := iter
    · cases ha
    · exact look_notMem (Prod.mk.inj (Option.some.inj ha)).2

omit [DecidableEq T] [DecidableEq K] [DecidableEq V] in
theorem ask_notMem {iter : Option (Iter K V)} {q : Query V} {lc : Loc K V}
    (ha : ask iter q = some (lc, es)) : .ask .iterator ∉ es := by
  cases q with
  | clear | size | isEmpty | containsValue value | iterator =>
    cases ha
    simp
  | reserve n =>
    rw [ask] at ha
    split at ha <;> cases ha <;> simp
  | hasNext =>
    obtain ⟨it, -, heq⟩ := Option.map_eq_some_iff.mp ha
    exact look_notMem heq
  | next =>
    obtain ⟨it, -, heq⟩ := Option.map_eq_some_iff.mp ha
    split at heq
    · exact found_notMem heq
    · exact look_notMem heq
  | remove =>
    obtain ⟨it, -, heq⟩ := Option.map_eq_some_iff.mp ha
    split at heq <;> cases heq <;> simp

omit [DecidableEq T] in
/-- Only `iterator()` creates an iterator. -/
theorem step_notMem {a : Act K V} {lc lc' : Loc K V} (hs : step E u a m lc = some (m', lc', es))
    (ha : a ≠ .ask .iterator) : .ask .iterator ∉ es := by
  cases a with
  | call o =>
    rw [step] at hs
    split at hs <;> cases hs
    simp
  | ask q =>
    rw [step] at hs
    split at hs
    · obtain ⟨r, hr, heq⟩ := Option.map_eq_some_iff.mp hs
      cases heq
      have hq : q ≠ .iterator := fun heq => ha (heq ▸ rfl)
      have hask := ask_notMem hr
      simp [hask, Ne.symm hq]
    · cases hs
  | run =>
    rw [step] at hs
    split at hs
    · exact iterate_notMem hs
    · obtain ⟨r, hr, heq⟩ := Option.map_eq_some_iff.mp hs
      cases heq
      exact fun hmem => (access_plain hr).2 _ hmem

omit [DecidableEq T] [DecidableEq K] [DecidableEq V] in
theorem mem_emit {e : Event K V} : (t, e) ∈ emit u es ↔ t = u ∧ e ∈ es := by
  rw [emit, List.mem_map]
  constructor
  · rintro ⟨a, ha, heq⟩
    cases heq
    exact ⟨rfl, ha⟩
  · rintro ⟨rfl, he⟩
    exact ⟨e, he, rfl⟩

/-- What holds of each iterator survives every step. -/
theorem Iterating.next {lc : Loc K V} (h : Iterating E (w.since (Since E c tr cf)) t lc Y)
    (hw : (outline T V E).Holds w tr cf) {a : Act K V} {lc' : Loc K V}
    (hs : (program T V E).step u a cf.mem (cf.loc u) = some (m, lc', es))
    (hw' : (outline T V E).Holds w' (tr ++ emit u es) (move cf u m lc')) (hc : Common w w')
    (hrun : (program T V E).Run anyStep (start T V E c) (tr ++ emit u es) (move cf u m lc'))
    (hne : (t, .ask .iterator) ∉ emit u es) :
    Iterating E (w'.since (Since E c (tr ++ emit u es) (move cf u m lc'))) t lc Y := by
  refine h.mono (since_common hc) (since_heap hw.glob.heap) (fun x hx => hx.step hs hne) ?_
  have hcont : m.contents E = w'.s := by
    rw [← show w'.mem = m from hw'.mem]
    exact hw'.glob.heap.contents
  exact hcont ▸ Since.now hrun

theorem iterating_of_run (hrun : (program T V E).Run anyStep (start T V E c) tr cf) :
    ∃ w, (outline T V E).Holds w tr cf ∧
      ∀ t, Iterating E (w.since (Since E c tr cf)) t (cf.loc t) (yields t tr) := by
  induction hrun with
  | start =>
    exact ⟨_, holds_start T V E c, fun t => ⟨fun _ => rfl, fun p hp => (by cases hp),
      fun it hi => (by cases hi), fun it hi => by cases hi⟩⟩
  | @step tr cf u a m lc es hrun hs _ ih =>
    obtain ⟨w, hw, hit⟩ := ih
    obtain ⟨w', hw', hc, -⟩ := hw.next hs trivial trivial
    have hrun' := hrun.step hs trivial
    refine ⟨w', hw', fun t => ?_⟩
    by_cases htu : t = u
    · subst htu
      rw [move_loc_self, yields_self]
      by_cases ha : a = .ask .iterator
      · subst ha
        have hs : step E t (.ask .iterator) cf.mem (cf.loc t) = some (m, lc, es) := hs
        rw [step] at hs
        split at hs
        · cases hs
          refine ⟨fun _ => rfl, fun p hp => ?_, fun it hi => (by cases hi), fun it hi => by cases hi⟩
          cases hp
          rfl
        · cases hs
      · have hne : (t, .ask .iterator) ∉ emit t es := fun hmem => step_notMem hs ha (mem_emit.mp hmem).2
        have hmem : w.mem = cf.mem := hw.mem
        have hcont : cf.mem.contents E = w.s := by
          rw [← hmem]
          exact hw.glob.heap.contents
        have hs' : step E t a (w.since (Since E c tr cf)).mem (cf.loc t) = some (m, lc, es) := by
          change step E t a w.mem _ = _
          rw [hmem]
          exact hs
        have hnow : Since E c tr cf t w.s := hcont ▸ Since.now hrun
        exact (iterating_step (hit t) (since_heap hw.glob.heap) hnow ha hs').next hw hs hw' hc hrun' hne
    · have hut : u ≠ t := Ne.symm htu
      rw [move_loc_of_ne _ _ _ htu, yields_other _ hut]
      exact (hit t).next hw hs hw' hc hrun' fun hmem => htu (mem_emit.mp hmem).1

/-- An iterator returns each key at most once, with a value that it had since the iterator was
created; when there is no more, every key that has not been returned was absent for a moment. -/
theorem iterator_weaklyConsistent (hrun : (program T V E).Run anyStep (start T V E c) tr cf) (t : T) :
    ((yields t tr).map Prod.fst).Nodup ∧
      (∀ y ∈ yields t tr, ∃ x, Since E c tr cf t x ∧ x y.1 = some y.2) ∧
      ∀ it, (cf.loc t).iter = some it → it.entry = [] → it.index = 0 →
        ∀ k, k ∈ (yields t tr).map Prod.fst ∨ ∃ x, Since E c tr cf t x ∧ x k = none := by
  obtain ⟨w, -, hit⟩ := iterating_of_run hrun
  have h := hit t
  cases hi : (cf.loc t).iter with
  | none =>
    rw [h.fresh hi]
    exact ⟨List.nodup_nil, fun y hy => (by cases hy), fun it heq => by cases heq⟩
  | some it =>
    have hok := h.ok it hi
    refine ⟨hok.once, hok.was, fun it' heq hent hidx k => ?_⟩
    cases heq
    refine (hok.all k (hidx ▸ Nat.zero_le _)).imp_right fun hall => ?_
    rcases hall with ⟨e, he, -⟩ | hall
    · rw [hent] at he
      cases he
    · exact hall

/-- An iterator created before a `put` replaces a value returns the new one. -/
theorem iterator_weaklyConsistent_put :
    ∃ (tr : List (Bool × Event ℕ ℕ)) (cf : Config Bool (Mem Bool ℕ ℕ) (Loc ℕ ℕ)),
    yields true tr = [(1, 8)] ∧ ((yields true tr).map Prod.fst).Nodup ∧
      (∀ y ∈ yields true tr, ∃ x, Since natural 0 tr cf true x ∧ x y.1 = some y.2) ∧
      ∀ it, (cf.loc true).iter = some it → it.entry = [] → it.index = 0 →
        ∀ k, k ∈ (yields true tr).map Prod.fst ∨ ∃ x, Since natural 0 tr cf true x ∧ x k = none := by
  have h₀ : (program Bool ℕ natural).Run anyStep (start Bool ℕ natural 0) [] (start Bool ℕ natural 0) :=
    .start
  have h₁ := h₀.solo false (.call (.put 1 7) :: List.replicate 12 .run) _ _ _ rfl
  have h₂ := h₁.solo true (.ask .iterator :: List.replicate 25 .run) _ _ _ rfl
  have h₃ := h₂.solo true (List.replicate 20 .run) _ _ _ rfl
  have h₄ := h₃.solo true (List.replicate 20 .run) _ _ _ rfl
  have h₅ := h₄.solo false (.call (.put 1 8) :: List.replicate 6 .run) _ _ _ rfl
  have h₆ := h₅.solo true (.ask .next :: List.replicate 2 .run) _ _ _ rfl
  exact ⟨_, _, rfl, iterator_weaklyConsistent h₆ true⟩

end Cds.ConcurrentHashMap
