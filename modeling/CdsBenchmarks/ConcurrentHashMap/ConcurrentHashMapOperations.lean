import CdsBenchmarks.ConcurrentHashMap.ConcurrentHashMapSteps

/-! Every step of `get`, `put` and `remove` is accounted for. A `get` that takes no lock takes
effect at a point in its past. -/

namespace Cds.ConcurrentHashMap
open Concurrent Program

variable {T K V : Type*} [DecidableEq T] [DecidableEq K] {E : Env K} {w w' : World T K V} {t : T}
  {e a : Entry K} {key k : K} {sg i tab : ℕ} {value : V} {m : Mem T K V} {es : List (Event K V)}
  {pc pc' : Pc K V} {o : Op K V} {r : Option V}

/-! ## Returns -/

/-- A return. -/
theorem Glob.takes_return (hg : Glob E w)
    (hr : (finiteMap K V).Hindsight (marks (w.hist ++ emit t es)) w.s (Function.update w.st t .idle)
      fun u x => w.past u x ∨ x = w.s) : Takes E t w w.mem .idle es :=
  hg.takes_quiet w.mem.lock hr (fun _ hu => Function.update_of_ne hu ..) (fun _ _ _ h => h)
    hg.heap.locks hg.heap.last hg.heap.free (Function.update_self ..)

/-- An unlock and a return. -/
theorem Glob.takes_unlock (hg : Glob E w) (h : Holds E w t sg)
    (hr : (finiteMap K V).Hindsight (marks (w.hist ++ emit t es)) w.s (Function.update w.st t .idle)
      fun u x => w.past u x ∨ x = w.s) : Takes E t w (release w.mem sg) .idle es :=
  hg.takes_release h hr (fun _ hu => Function.update_of_ne hu ..) fun _ _ _ hst _ => by
    rw [At, hst, Function.update_self]

/-- An unlock in the middle of a call. -/
theorem Glob.takes_leave (hg : Glob E w) (h : Holds E w t sg) (hes : marks (emit t es) = [])
    (hat : ∀ w', Same w w' → (∀ o, w'.past o w'.s) → w'.st = w.st →
      (∀ j, j ≠ sg → Holds E w t j → Holds E w' t j) → At E w' t pc) :
    Takes E t w (release w.mem sg) pc es :=
  hg.takes_release h (hg.replay_quiet hes) (fun _ _ => rfl) hat

/-- A step that takes effect and changes nothing. -/
theorem Glob.takes_lin (hg : Glob E w) (hst : w.st t = .pending o)
    (hp : (finiteMap K V).post w.s o r w.s) (h : Holds E w t sg)
    (hat : ∀ w', w'.st t = .done o r → Holds E w' t sg → At E w' t pc) :
    Takes E t w w.mem pc [.mark .lin] :=
  hg.takes_quiet w.mem.lock (hg.replay_lin hst hp) (fun _ hu => Function.update_of_ne hu ..)
    (fun _ _ _ h => h) hg.heap.locks hg.heap.last hg.heap.free
    (hat _ (Function.update_self ..) (same_quiet.holds h rfl rfl))

/-! ## What a locked traversal finds -/

omit [DecidableEq T] in
/-- It has met no entry with the key. -/
theorem Heap.walk_none (hh : Heap E w) (hw : walk E key (w.mem.bin E w.mem.table key) = []) :
    Lacks key (w.mem.bin E w.mem.table key) := walk_nil (hh.bin_formed key).hashed hw

omit [DecidableEq T] in
/-- It has met the entry with the key. -/
theorem Heap.walk_some (hh : Heap E w) {next : Bin K}
    (hw : walk E key (w.mem.bin E w.mem.table key) = e :: next) :
    Found E w key (w.mem.bin E w.mem.table key) e next := by
  obtain ⟨pre, hl, hk⟩ := walk_cons (hh.bin_formed key).hashed hw
  exact ⟨hk, rfl, pre, hl⟩

omit [DecidableEq T] [DecidableEq K] in
theorem Found.live (hh : Heap E w) {f next : Bin K} (h : Found E w key f e next) : Live w e := by
  obtain ⟨-, rfl, pre, hl⟩ := h
  have hmem : e ∈ w.mem.bin E w.mem.table key := hl ▸ List.mem_append_right pre List.mem_cons_self
  exact hh.live_of_mem hmem

omit [DecidableEq T] [DecidableEq K] in
/-- The value of a live entry is its key's. -/
theorem Heap.value_eq (hh : Heap E w) (he : Live w e) (hk : e.key = key) :
    w.mem.value e.addr = w.s key := hk ▸ (hh.live e he).1

/-! ## get -/

theorem step_get (hg : Glob E w) {p : Get K V} (hst : w.st t = .pending (.get key))
    (h : GetAt E w t key p) (ha : p.access E t w.mem key = some (m, pc', es)) :
    Takes E t w m pc' es := by
  have hh := hg.heap
  cases p with
  | table =>
    cases ha
    exact hg.takes_read ⟨hst, .inl rfl⟩
  | first tab =>
    have hsnap : Snap E w t tab := h
    have hf : Formed E w (w.mem.bin E tab key) := (hh.slot _ hsnap.le _).formed
    rw [Get.access] at ha
    split at ha
    · next hw =>
      cases ha
      exact hg.takes_read ⟨hst, fun _ => ⟨hf, walk_nil hf.hashed hw⟩⟩
    · next e next hw =>
      cases ha
      obtain ⟨pre, hl, hk⟩ := walk_cons hf.hashed hw
      have hmem : e ∈ w.mem.bin E tab key := hl ▸ List.mem_append_right pre List.mem_cons_self
      exact hg.takes_read ⟨hst, hk, (hsnap.read hh (hg.now t) _).1 e hmem⟩
  | value f e =>
    obtain ⟨hk, hsees⟩ := h
    rw [Get.access] at ha
    split at ha
    · next v hv =>
      cases ha
      obtain ⟨x, hx, heq⟩ := hsees.read hh (hg.now t)
      exact hg.takes_return (hg.replay_look hst ⟨x, hx, by rw [← hk, heq, hv]⟩)
    · cases ha
      exact hg.takes_read ⟨hst, fun he => by cases he⟩
  | lock f e =>
    obtain ⟨hl, rfl, rfl, rfl⟩ := acquire_eq ha
    exact hg.takes_acquire (segment_lt _) hl fun w' hr _ hholds =>
      ⟨hr.st.trans hst, fun he => (h he).imp_left (Formed.stable hr), hholds⟩
  | retable f e =>
    cases ha
    exact hg.takes_read ⟨hst, h.1, h.2, rfl⟩
  | refirst f e tab =>
    obtain ⟨hun, hholds, rfl⟩ := h
    have hnone : Lacks key (w.mem.bin E w.mem.table key) →
        Takes E t w w.mem (.get key (.unlock none)) [] := fun hl =>
      hg.takes_read ⟨hst, hholds, w.s, hg.now t, hh.none_of_lacks hl⟩
    rw [Get.access] at ha
    split at ha
    · split at ha
      · next hw =>
        cases ha
        exact hnone (hh.walk_none hw)
      · next e next hw =>
        cases ha
        have hf := hh.walk_some hw
        exact hg.takes_read ⟨hst, hholds, hf.live hh, hf.keyed⟩
    · next hsame =>
      cases ha
      obtain ⟨he, haddr⟩ := not_or.mp hsame
      obtain ⟨hf, hl⟩ := hun (not_not.mp he)
      exact hnone (hf.eq_of_address (hh.bin_formed key) (not_not.mp haddr) ▸ hl)
  | revalue e =>
    obtain ⟨hholds, hlive, hk⟩ := h
    cases ha
    exact hg.takes_read ⟨hst, hholds, w.s, hg.now t, (hh.value_eq hlive hk).symm⟩
  | unlock r =>
    cases ha
    exact hg.takes_unlock h.1 (hg.replay_look hst h.2)

/-! ## put -/

omit [DecidableEq T] in
/-- The value of an entry in the table is replaced. -/
theorem Tidy.stored (hh : Heap E w) (he : Live w e) (hs : segment (hash E e.key) = sg) {v : V}
    {st : T → Status (Op K V) (Option V)} (h : Tidy E w sg) :
    Tidy E (w.stored t e (some v) es st) sg where
  full a ha hseg _ := by
    change Function.update w.s e.key (some v) a.key ≠ none
    by_cases hk : a.key = e.key
    · simp [hk]
    · rw [Function.update_of_ne hk]
      exact h.full a (stored_live.mp ha) hseg (by simp)
  counts := by
    obtain ⟨n, hn, hc⟩ := h.counts
    exact ⟨n, hn.update_some (h.full e he ((hh.key_segment he).trans hs) (by simp)), hc⟩

omit [DecidableEq T] in
/-- The new entry in front of its slot. -/
theorem NewEntry.fits (hh : Heap E w) {f : Bin K} (h : NewEntry E w t key value e f) :
    Fits E w t (index (hash E key) (w.mem.length w.mem.table)) (e :: f)
      (Function.update w.s key (some value)) := by
  obtain ⟨rfl, rfl, hlacks, hform, hpriv, hval⟩ := h
  have hslot := hh.slot w.mem.table le_rfl (index (hash E e.key) (w.mem.length w.mem.table))
  have hold : ∀ a ∈ w.mem.bin E w.mem.table e.key,
      w.mem.value a.addr = Function.update w.s e.key (some value) a.key := fun a ha => by
    rw [Function.update_of_ne (hlacks a ha)]
    exact (hh.live a (hh.live_of_mem ha)).1
  refine ⟨hform, fun a ha => ?_, ?_, fun a ha => ?_, fun a ha => ?_, fun k hk => ?_, fun k hk hs => ?_⟩
  · rcases List.mem_cons.mp ha with rfl | ha
    · rw [hform.1.2.2]
    · exact hslot.index a ha
  · rw [List.map_cons, List.nodup_cons]
    refine ⟨fun hmem => ?_, hslot.keys⟩
    obtain ⟨a, ha, heq⟩ := List.mem_map.mp hmem
    exact hlacks a ha heq
  · exact (List.mem_cons.mp ha).elim (fun heq => .inr (heq ▸ hpriv)) .inl
  · rcases ha with ha | ha
    · rcases List.mem_cons.mp ha with rfl | ha
      · rw [Function.update_self, hval]
      · exact hold a ha
    · exact hold a ha
  · refine Function.update_of_ne ?_ ..
    rintro rfl
    exact hk rfl
  · by_cases heq : k = e.key
    · exact ⟨e, List.mem_cons_self, heq.symm⟩
    · rw [Function.update_of_ne heq] at hs
      obtain ⟨a, ha, hak⟩ := hh.bound k hs
      rw [Mem.bin, hk] at ha
      exact ⟨a, List.mem_cons_of_mem _ ha, hak⟩

theorem step_put_store (hg : Glob E w) {l : Bin K} (hst : w.st t = .pending (.put key value))
    (hb : HoldsBin E w t key tab) (h : ∃ e f, l = e :: f ∧ NewEntry E w t key value e f) :
    Takes E t w (w.mem.storeBin tab (index (hash E key) (w.mem.length tab)) l)
      (.put key value (.count tab)) [.mark .lin] := by
  obtain ⟨⟨hl, htidy, hlast⟩, rfl⟩ := hb
  obtain ⟨e, f, rfl, hnew⟩ := h
  have hh := hg.heap
  have hnone : w.s key = none := hh.none_of_lacks (hnew.bin ▸ hnew.lacks)
  have hmod : index (hash E key) (w.mem.length w.mem.table) % concurrencyLevel = segment (hash E key) :=
    hh.cap.index_mod _
  refine (hnew.fits hh).takes hh (hmod.symm ▸ hl) (hg.replay_lin hst ⟨hnone.symm, rfl⟩)
    (fun _ hu => Function.update_of_ne hu ..) ⟨Function.update_self .., hl, fun a ha hseg _ => ?_, ?_, hlast⟩
  · change Function.update w.s key (some value) a.key ≠ none
    by_cases hk : a.key = key
    · simp [hk]
    · rw [Function.update_of_ne hk]
      have ha := rebinned_live.mp ha
      refine htidy.full a ?_ hseg (by simp)
      split at ha
      · rcases List.mem_cons.mp ha with rfl | ha
        · exact absurd hnew.keyed hk
        · rw [hnew.bin] at ha
          exact hh.live_of_mem ha
      · exact ha
  · obtain ⟨n, hn, hc⟩ := htidy.counts
    refine ⟨n + 1, hn.insert hnone rfl, ?_⟩
    change w.mem.count _ = _
    rw [hc, BitVec.ofNat_add]
    grind

theorem step_put (hg : Glob E w) {p : Put K V} (h : PutAt E w t key value p)
    (ha : p.access E t w.mem key value = some (m, pc', es)) : Takes E t w m pc' es := by
  have hh := hg.heap
  cases p with
  | lock =>
    obtain ⟨hl, rfl, rfl, rfl⟩ := acquire_eq ha
    exact hg.takes_acquire (segment_lt _) hl fun w' hr _ hholds => ⟨hr.st.trans h, hholds⟩
  | table =>
    cases ha
    exact hg.takes_read ⟨h.1, h.2, rfl⟩
  | first tab =>
    obtain ⟨hst, hholds, rfl⟩ := h
    rw [Put.access] at ha
    split at ha
    · next hw =>
      cases ha
      exact hg.takes_read ⟨hst, ⟨hholds, rfl⟩, rfl, hh.walk_none hw⟩
    · next e next hw =>
      cases ha
      have hf := hh.walk_some hw
      exact hg.takes_read ⟨hst, hholds, hf.live hh, hf.keyed⟩
  | old e =>
    obtain ⟨hst, hholds, he, hk⟩ := h
    cases ha
    exact hg.takes_read ⟨hst, hholds, he, hk, hh.value_eq he hk⟩
  | value e r =>
    obtain ⟨hst, hholds, he, rfl, rfl⟩ := h
    cases ha
    have hl := hholds.lock
    refine hg.takes_store he (by rwa [hh.key_segment he]) (hg.replay_lin hst ⟨rfl, rfl⟩)
      (fun _ hu => Function.update_of_ne hu ..) ⟨Function.update_self .., hl, ?_, hholds.last⟩
    exact hholds.tidy.stored hh he rfl
  | new tab f =>
    obtain ⟨hst, ⟨hholds, rfl⟩, rfl, hlacks⟩ := h
    cases ha
    refine hg.takes_alloc _ key rfl (hh.bin_formed key) fun w' hr _ _ hform hk hv => ?_
    have hF := hr.frozen hholds.lock
    exact ⟨hr.st.trans hst, ⟨hholds.stable hr hh, hF.table.symm⟩, _, _, rfl,
      ⟨rfl, (hF.bin hh rfl).symm, hlacks, hform, hk, hv⟩⟩
  | store tab l =>
    cases ha
    exact step_put_store hg h.1 h.2.1 h.2.2
  | count tab =>
    cases ha
    exact hg.takes_settle h.2 (by grind) fun w' hst hholds => ⟨hst ▸ h.1, hholds⟩
  | threshold tab n =>
    rw [Put.access] at ha
    split at ha <;> cases ha <;> exact hg.takes_read h
  | votes tab n =>
    rw [Put.access] at ha
    split at ha <;> cases ha <;> exact hg.takes_read h
  | vote tab n =>
    cases ha
    exact hg.takes_read h
  | voteStore tab n v =>
    cases ha
    exact hg.takes_local rfl h
  | voted tab n v =>
    rw [Put.access] at ha
    cases ha
    refine hg.takes_leave h.2 rfl fun w' hS _ hst _ => ?_
    split
    · exact ⟨⟨_, by rw [hst, h.1]⟩, by decide, fun j hj => absurd hj (Nat.not_lt_zero j)⟩
    · change w'.st t = _
      rw [hst, h.1]
  | max tab n =>
    rw [Put.access] at ha
    split at ha
    · cases ha
      exact hg.takes_read ⟨⟨_, h⟩, by decide, fun j hj => absurd hj (Nat.not_lt_zero j)⟩
    · cases ha
      exact hg.takes_return (hg.replay_ret h)
  | unlock r =>
    cases ha
    exact hg.takes_unlock h.2 (hg.replay_ret h.1)

/-! ## remove -/

omit [DecidableEq T] [DecidableEq K] in
/-- The slot of the key, at the entry to be removed. -/
theorem Heap.apart (hh : Heap E w) {pre next : Bin K}
    (h : w.mem.bin E w.mem.table key = pre ++ e :: next) :
    Live w e ∧ Lacks e.key pre ∧ Lacks e.key next := by
  have hkeys := (hh.slot w.mem.table le_rfl (index (hash E key) (w.mem.length w.mem.table))).keys
  change ((w.mem.bin E w.mem.table key).map Entry.key).Nodup at hkeys
  rw [h] at hkeys
  have hlacks := lacks_of_nodup hkeys
  have hmem : e ∈ w.mem.bin E w.mem.table key := h ▸ List.mem_append_right pre List.mem_cons_self
  exact ⟨hh.live_of_mem hmem, fun a ha => hlacks a (List.mem_append_left _ ha),
    fun a ha => hlacks a (List.mem_append_right _ ha)⟩

/-- The value of an entry is set to null. -/
theorem step_remove_null (hg : Glob E w) {value : Option V} {f next : Bin K}
    (hst : w.st t = .pending (.remove key value)) (hb : HoldsBin E w t key tab)
    (hf : Found E w key f e next) (hv : value = none ∨ value = w.s key) :
    Takes E t w (w.mem.store e.addr none) (.remove key value (.clone tab f e next (w.s key)))
      [.mark .lin] := by
  have hh := hg.heap
  have he := hf.live hh
  obtain ⟨rfl, rfl, pre, hsplit⟩ := hf
  obtain ⟨⟨hl, htidy, hlast⟩, rfl⟩ := hb
  have hseg : segment e.hash = segment (hash E e.key) := hh.key_segment he
  refine hg.takes_store he (by rwa [hseg]) (hg.replay_lin hst (.inl ⟨hv, rfl, rfl⟩))
    (fun _ hu => Function.update_of_ne hu ..) ⟨Function.update_self .., ⟨hl, fun a ha hs hne => ?_, ?_,
      hlast⟩, rfl, rfl, Function.update_self .., ?_, [], pre, [], next, rfl, hsplit, rfl, .nil⟩
  · have ha := stored_live.mp ha
    change Function.update w.s e.key none a.key ≠ none
    rw [Function.update_of_ne fun hk => hne (congrArg some (hh.eq_of_key ha he hk))]
    exact htidy.full a ha hs (by simp)
  · obtain ⟨n, hn, hc⟩ := htidy.counts
    obtain ⟨n, rfl, hn'⟩ := hn.erase (htidy.full e he hseg (by simp)) rfl
    refine ⟨n, hn', ?_⟩
    change w.mem.count _ = _
    rw [hc, BitVec.ofNat_add]
    exact BitVec.add_zero _
  · have hform := hh.bin_formed e.key
    rw [hsplit] at hform
    exact hform.of_append.2.mono le_rfl fun _ _ => rfl

omit [DecidableEq T] [DecidableEq K] in
theorem Copy.keys {pre clones : Bin K} (h : List.Forall₂ (Copy w t) pre clones) :
    clones.map Entry.key = pre.map Entry.key := by
  induction h with
  | nil => rfl
  | cons hc _ ih => rw [List.map_cons, List.map_cons, ih, hc.keyed]

omit [DecidableEq T] [DecidableEq K] in
/-- What an entry of the list without the removed one stands for. -/
theorem Copy.mem (hh : Heap E w) {pre clones next : Bin K}
    (hbin : w.mem.bin E w.mem.table key = pre ++ e :: next)
    (hcopy : List.Forall₂ (Copy w t) pre.reverse clones) {c : Entry K} (hc : c ∈ clones ++ next) :
    (c ∈ next ∨ w.kind c.addr = .priv t) ∧ w.mem.value c.addr = w.s c.key ∧
      ∃ q ∈ w.mem.bin E w.mem.table key, q.key = c.key ∧ q ≠ e := by
  obtain ⟨he, hpre, hnext⟩ := hh.apart hbin
  rcases List.mem_append.mp hc with hc | hc
  · obtain ⟨hlen, hget⟩ := List.forall₂_iff_get.mp hcopy
    obtain ⟨⟨j, hj'⟩, rfl⟩ := List.get_of_mem hc
    have hj : j < pre.reverse.length := hlen.symm ▸ hj'
    have hq : pre.reverse.get ⟨j, hj⟩ ∈ pre.reverse := List.get_mem ..
    have hcopy := hget j hj hj'
    generalize pre.reverse.get ⟨j, hj⟩ = q at hq hcopy
    have hq := List.mem_reverse.mp hq
    refine ⟨.inr hcopy.priv, (congrArg w.s hcopy.keyed).symm ▸ hcopy.value, q, ?_, hcopy.keyed.symm, ?_⟩
    · exact hbin ▸ List.mem_append_left _ hq
    · rintro rfl
      exact hpre q hq rfl
  · have hmem : c ∈ w.mem.bin E w.mem.table key :=
      hbin ▸ List.mem_append_right _ (List.mem_cons_of_mem _ hc)
    refine ⟨.inl hc, (hh.live c (hh.live_of_mem hmem)).1, c, hmem, rfl, ?_⟩
    rintro rfl
    exact hnext c hc rfl

omit [DecidableEq T] [DecidableEq K] in
/-- The list without the removed entry. -/
theorem Copy.fits (hh : Heap E w) {pre clones next : Bin K} (hkey : e.key = key)
    (hnone : w.s key = none) (hform : Formed E w (clones ++ next))
    (hbin : w.mem.bin E w.mem.table key = pre ++ e :: next)
    (hcopy : List.Forall₂ (Copy w t) pre.reverse clones) :
    Fits E w t (index (hash E key) (w.mem.length w.mem.table)) (clones ++ next) w.s := by
  have hslot := hh.slot w.mem.table le_rfl (index (hash E key) (w.mem.length w.mem.table))
  have hmem : ∀ {c}, c ∈ clones ++ next → _ := fun hc => Copy.mem hh hbin hcopy hc
  refine ⟨hform, fun c hc => ?_, ?_, fun c hc => ?_, fun c hc => ?_, fun _ _ => rfl, fun k hk hs => ?_⟩
  · obtain ⟨-, -, q, hq, heq, -⟩ := hmem hc
    rw [hform.hashed c hc, ← heq, ← hslot.formed.hashed q hq]
    exact hslot.index q hq
  · have hkeys := hslot.keys
    change ((w.mem.bin E w.mem.table key).map Entry.key).Nodup at hkeys
    rw [hbin] at hkeys
    rw [List.map_append, Copy.keys hcopy, ← List.map_append]
    refine (((List.reverse_perm pre).append_right next).map Entry.key).nodup_iff.mpr ?_
    exact hkeys.sublist ((List.sublist_cons_self e next).append_left pre |>.map Entry.key)
  · refine (hmem hc).1.imp_left fun hc => ?_
    change c ∈ w.mem.bin E w.mem.table key
    exact hbin ▸ List.mem_append_right _ (List.mem_cons_of_mem _ hc)
  · exact hc.elim (fun hc => (hmem hc).2.1) fun hc => (hh.live c (hh.live_of_mem hc)).1
  · obtain ⟨q, hq, rfl⟩ := hh.bound k hs
    rw [Mem.bin, hk] at hq
    change q ∈ w.mem.bin E w.mem.table key at hq
    rw [hbin] at hq
    rcases List.mem_append.mp hq with hq | hq
    · have hc : q.key ∈ clones.map Entry.key := by
        rw [Copy.keys hcopy]
        exact List.mem_map_of_mem (List.mem_reverse.mpr hq)
      obtain ⟨c, hc, heq⟩ := List.mem_map.mp hc
      exact ⟨c, List.mem_append_left _ hc, heq⟩
    · rcases List.mem_cons.mp hq with rfl | hq
      · exact absurd (hkey ▸ hnone) hs
      · exact ⟨q, List.mem_append_right _ hq, rfl⟩

/-- The entry is out of the table. -/
theorem step_remove_unlink (hg : Glob E w) {value r : Option V} {head : Bin K} {p : Bin K}
    {q : Entry K} (hst : w.st t = .done (.remove key value) r)
    (hl : HoldsOff E w t (segment (hash E key)) (some e) 1) (hc : Cloned E w t key (q :: p) e head)
    (hq : q.addr = e.addr) :
    Takes E t w (w.mem.storeBin w.mem.table (index (hash E key) (w.mem.length w.mem.table)) head)
      (.remove key value (.count r)) [] := by
  have hh := hg.heap
  obtain ⟨hkey, hnone, hform, pre, rest, clones, next, hbin, hp, rfl, hcopy⟩ := hc
  have hqmem : q ∈ w.mem.bin E w.mem.table key := hbin ▸ List.mem_append_right _ List.mem_cons_self
  have hbin' : w.mem.bin E w.mem.table key = (pre ++ rest) ++ e :: next := by
    rw [hbin, hp, List.append_assoc]
  obtain ⟨he, hlacks, hnext⟩ := hh.apart hbin'
  obtain rfl := hh.eq_of_addr (hh.live_of_mem hqmem) he hq
  obtain rfl : rest = [] := by
    cases rest with
    | nil => rfl
    | cons a rest =>
      obtain ⟨rfl, -⟩ := List.cons.inj hp
      exact absurd rfl (hlacks q (by simp))
  rw [List.append_nil] at hbin'
  have hmod : index (hash E key) (w.mem.length w.mem.table) % concurrencyLevel = segment (hash E key) :=
    hh.cap.index_mod _
  refine (Copy.fits hh hkey hnone hform hbin' hcopy).takes hh (hmod.symm ▸ hl.lock)
    (hg.replay_quiet rfl) (fun _ _ => rfl) ⟨hst, hl.lock, fun a ha hs _ => ?_, hl.counts, hl.last⟩
  have ha := rebinned_live.mp ha
  change w.s a.key ≠ none
  split at ha
  · obtain ⟨-, -, c, hc, heq, hne⟩ := Copy.mem hh hbin' hcopy ha
    have hlive := hh.live_of_mem hc
    refine heq ▸ hl.full c hlive ?_ (by simpa using hne)
    rw [hh.segment_mod hc, hmod]
  · next hi =>
    refine hl.full a ha hs ?_
    rintro heq
    obtain rfl := Option.some.inj heq
    rw [hh.hashed he, hkey] at hi
    exact hi rfl

/-- The next entry before the removed one is cloned. -/
theorem step_remove_clone (hg : Glob E w) {value r : Option V} {head : Bin K} {p : Bin K}
    {q : Entry K} (hst : w.st t = .done (.remove key value) r)
    (hl : HoldsOff E w t (segment (hash E key)) (some e) 1) (hc : Cloned E w t key (q :: p) e head)
    (hq : q.addr ≠ e.addr) :
    Takes E t w (w.mem.alloc (w.mem.value q.addr))
      (.remove key value (.clone w.mem.table p e (⟨w.mem.fresh, q.key, q.hash⟩ :: head) r)) [] := by
  have hh := hg.heap
  have hqmem : q ∈ w.mem.bin E w.mem.table key := by
    obtain ⟨-, -, -, pre, -, -, -, hbin, -⟩ := hc
    exact hbin ▸ List.mem_append_right _ List.mem_cons_self
  have hqlive := hh.live_of_mem hqmem
  refine hg.takes_alloc head q.key (hh.hashed hqlive) hc.formed fun w' hr _ hs hform hk hv => ?_
  refine ⟨hr.st.trans hst, hl.stable hr hh, (hr.frozen hl.lock).table.symm, ?_⟩
  obtain ⟨hkey, hnone, -, pre, rest, clones, next, hbin, hp, rfl, hcopy⟩ := hc.stable hr hh hl.lock
  cases rest with
  | nil => exact absurd (congrArg Entry.addr (List.cons.inj hp).1) hq
  | cons a rest =>
    obtain ⟨rfl, rfl⟩ := List.cons.inj hp
    refine ⟨hkey, hnone, hform, pre ++ [q], rest, _, next, by simp [hbin], rfl,
      (List.cons_append ..).symm, ?_⟩
    rw [List.reverse_append]
    refine .cons ⟨rfl, hk, ?_⟩ hcopy
    rw [hv, hs]
    exact (hh.live q hqlive).1

theorem step_remove [DecidableEq V] (hg : Glob E w) {value : Option V} {p : Remove K V}
    (h : RemoveAt E w t key value p) (ha : p.access E t w.mem key value = some (m, pc', es)) :
    Takes E t w m pc' es := by
  have hh := hg.heap
  cases p with
  | lock =>
    obtain ⟨hl, rfl, rfl, rfl⟩ := acquire_eq ha
    exact hg.takes_acquire (segment_lt _) hl fun w' hr _ hholds => ⟨hr.st.trans h, hholds⟩
  | table =>
    cases ha
    exact hg.takes_read ⟨h.1, h.2, rfl⟩
  | first tab =>
    obtain ⟨hst, hholds, rfl⟩ := h
    rw [Remove.access] at ha
    split at ha
    · next hw =>
      cases ha
      have hnone : w.s key = none := hh.none_of_lacks (hh.walk_none hw)
      refine hg.takes_lin (r := none) hst ?_ hholds fun w' hst hl => ⟨hst, hl⟩
      by_cases hv : value = none
      · exact .inl ⟨.inl hv, hnone.symm, (Function.update_eq_self_iff.mpr hnone.symm).symm⟩
      · exact .inr ⟨hv, hnone ▸ hv, rfl, rfl⟩
    · next e next hw =>
      cases ha
      exact hg.takes_read ⟨hst, ⟨hholds, rfl⟩, hh.walk_some hw⟩
  | old tab f e next =>
    obtain ⟨hst, hb, hf⟩ := h
    have hval := hh.value_eq (hf.live hh) hf.keyed
    rw [Remove.access, hval] at ha
    split at ha
    · next hv =>
      cases ha
      exact hg.takes_lin hst (.inr ⟨hv.1, hv.2, rfl, rfl⟩) hb.holds fun w' hst hl => ⟨hst, hl⟩
    · next hv =>
      cases ha
      exact hg.takes_read ⟨hst, hb, hf, rfl, by tauto⟩
  | null tab f e next r =>
    obtain ⟨hst, hb, hf, rfl, hv⟩ := h
    cases ha
    exact step_remove_null hg hst hb hf hv
  | clone tab p e head r =>
    obtain ⟨hst, hl, rfl, hc⟩ := h
    cases p with
    | nil => cases ha
    | cons q p =>
      rw [Remove.access] at ha
      split at ha
      · next hq =>
        cases ha
        exact step_remove_unlink hg hst hl hc hq
      · next hq =>
        cases ha
        exact step_remove_clone hg hst hl hc hq
  | count r =>
    cases ha
    exact hg.takes_settle h.2 (by grind) fun w' hst hholds => ⟨hst ▸ h.1, hholds⟩
  | unlock r =>
    cases ha
    exact hg.takes_unlock h.2 (hg.replay_ret h.1)

end Cds.ConcurrentHashMap
