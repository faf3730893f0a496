import CdsBenchmarks.ConcurrentHashMap.ConcurrentHashMapInvariant

/-! What a thread knows survives the steps of the others. -/

namespace Cds.ConcurrentHashMap
open Concurrent Program

variable {T K V : Type*} {E : Env K} {w w' : World T K V} {l l' : Bin K} {e a : Entry K} {key k : K}
  {t u o : T} {sg tab i : ℕ} {value : V}

/-! ## Lists of entries -/

theorem Formed.hashed (h : Formed E w l) : Hashed E l := by
  induction l with
  | nil => simp [Hashed]
  | cons a l ih =>
    intro e he
    rcases List.mem_cons.mp he with rfl | he
    · exact h.1.2.2
    · exact ih h.2 e he

theorem Formed.of_append (h : Formed E w (l ++ l')) : Formed E w l' := by
  induction l with
  | nil => exact h
  | cons a l ih => exact ih h.2

theorem Formed.lt (h : Formed E w l) (he : e ∈ l) : e.addr < w.mem.fresh := by
  obtain ⟨a, b, rfl⟩ := List.append_of_mem he
  exact h.of_append.1.2.1

theorem Formed.chain (h : Formed E w l) (he : e ∈ l) : ∃ next, w.chain e.addr = e :: next := by
  obtain ⟨a, b, rfl⟩ := List.append_of_mem he
  exact ⟨b, h.of_append.1.1⟩

/-- An address names one entry. -/
theorem Formed.eq_of_addr (h : Formed E w l) (h' : Formed E w l') (he : e ∈ l) (ha : a ∈ l')
    (heq : e.addr = a.addr) : e = a := by
  obtain ⟨n, hn⟩ := h.chain he
  obtain ⟨n', hn'⟩ := h'.chain ha
  rw [heq, hn'] at hn
  exact (List.cons.inj hn).1.symm

/-- References that are equal start the same list. -/
theorem Formed.eq_of_address (h : Formed E w l) (h' : Formed E w l') (heq : address l = address l') :
    l = l' := by
  cases l with
  | nil => cases l' with
    | nil => rfl
    | cons a l' => simp [address] at heq
  | cons e l => cases l' with
    | nil => simp [address] at heq
    | cons a l' =>
      have heq : e.addr = a.addr := by simpa [address] using heq
      rw [← h.1.1, ← h'.1.1, heq]

theorem Formed.mono (h : Formed E w l) (hf : w.mem.fresh ≤ w'.mem.fresh)
    (hc : ∀ a < w.mem.fresh, w'.chain a = w.chain a) : Formed E w' l := by
  induction l with
  | nil => trivial
  | cons e l ih =>
    obtain ⟨⟨h₁, h₂, h₃⟩, h⟩ := h
    exact ⟨⟨(hc _ h₂).trans h₁, h₂.trans_le hf, h₃⟩, ih h⟩

theorem Bound.congr {s s' : K → Option V} {n : ℕ} (h : Bound E s sg n)
    (hs : ∀ k, segment (hash E k) = sg → s' k = s k) : Bound E s' sg n := by
  obtain ⟨ks, hks, hn⟩ := h
  refine ⟨ks, fun k => (hks k).trans ⟨fun ⟨h₁, h₂⟩ => ⟨h₁, hs k h₁ ▸ h₂⟩, fun ⟨h₁, h₂⟩ => ⟨h₁, ?_⟩⟩, hn⟩
  rwa [hs k h₁] at h₂

/-! ## The current table -/

namespace Heap
variable (hh : Heap E w)
include hh

theorem cap : Capacity (w.mem.length w.mem.table) := hh.capacity _ le_rfl

theorem formed (i : ℕ) : Formed E w (w.mem.bins w.mem.table i) := (hh.slot _ le_rfl i).formed

theorem bin_formed (key : K) : Formed E w (w.mem.bin E w.mem.table key) := hh.formed _

theorem hashed (he : Live w e) : e.hash = hash E e.key := (hh.formed _).hashed e he

theorem lt (he : Live w e) : e.addr < w.mem.fresh := (hh.formed _).lt he

theorem live_of_mem (he : e ∈ w.mem.bins w.mem.table i) : Live w e := by
  rw [Live, (hh.slot _ le_rfl i).index e he]
  exact he

theorem mem_bin (he : Live w e) : e ∈ w.mem.bin E w.mem.table e.key := by
  rw [Mem.bin, ← hh.hashed he]
  exact he

theorem eq_of_addr (he : Live w e) (ha : Live w a) (heq : e.addr = a.addr) : e = a :=
  (hh.formed _).eq_of_addr (hh.formed _) he ha heq

theorem eq_of_key (he : Live w e) (ha : Live w a) (heq : e.key = a.key) : e = a := by
  have he := hh.mem_bin he
  have ha := hh.mem_bin ha
  rw [heq] at he
  exact List.inj_on_of_nodup_map (hh.slot _ le_rfl _).keys he ha heq

theorem none_of_lacks (h : Lacks k (w.mem.bin E w.mem.table k)) : w.s k = none := by
  by_contra hk
  obtain ⟨e, he, heq⟩ := hh.bound k hk
  exact h e he heq

theorem segment_mod (he : e ∈ w.mem.bins w.mem.table i) : segment e.hash = i % concurrencyLevel := by
  rw [← (hh.slot _ le_rfl i).index e he, hh.cap.index_mod]

theorem key_segment (he : Live w e) : segment e.hash = segment (hash E e.key) := by
  rw [hh.hashed he]

/-- The table stands for the map. -/
theorem contents [DecidableEq K] : w.mem.contents E = w.s := by
  funext k
  rw [Mem.contents]
  split
  · next hw => exact (hh.none_of_lacks (walk_nil (hh.bin_formed k).hashed hw)).symm
  · next e l hw =>
    obtain ⟨pre, hl, rfl⟩ := walk_cons (hh.bin_formed k).hashed hw
    have hmem : e ∈ w.mem.bin E w.mem.table e.key := hl ▸ List.mem_append_right _ List.mem_cons_self
    exact (hh.live e (hh.live_of_mem hmem)).1

end Heap

/-! ## The segment of a lock holder -/

namespace Frozen
variable (hF : Frozen E w w' sg) (hh : Heap E w)
include hF hh

theorem live_iff (he : segment e.hash = sg) : Live w' e ↔ Live w e := by
  rw [Live, Live, hF.table, hF.length, hF.slots _ (by rw [hh.cap.index_mod, he])]

theorem bin (hk : segment (hash E k) = sg) : w'.mem.bin E w'.mem.table k = w.mem.bin E w.mem.table k := by
  rw [Mem.bin, Mem.bin, hF.table, hF.length, hF.slots _ (by rw [hh.cap.index_mod, hk])]

theorem fullBut {b : Option (Entry K)} (h : FullBut w sg b) : FullBut w' sg b := by
  intro a ha hs hne
  have ha := (hF.live_iff hh hs).mp ha
  rw [hF.s _ (by rw [← hh.key_segment ha, hs])]
  exact h a ha hs hne

omit hh in
theorem counts {d : JInt} (h : Counts E w sg d) : Counts E w' sg d := by
  obtain ⟨n, hn, hc⟩ := h
  exact ⟨n, hn.congr hF.s, hF.count.trans hc⟩

theorem tidy (h : Tidy E w sg) : Tidy E w' sg := ⟨hF.fullBut hh h.full, hF.counts h.counts⟩

end Frozen

theorem Rely.frozen (hg : Rely E u w w') (hl : w.mem.lock sg = some u) : Frozen E w w' sg :=
  (hg.owned sg hl).2

theorem Holds.stable (h : Holds E w u sg) (hg : Rely E u w w') (hh : Heap E w) :
    Holds E w' u sg :=
  have hF := hg.frozen h.lock
  ⟨(hg.owned sg h.lock).1, hF.tidy hh h.tidy, by rw [hF.tables, hF.table, h.last]⟩

theorem HoldsOff.stable {b : Option (Entry K)} {d : JInt} (h : HoldsOff E w u sg b d)
    (hg : Rely E u w w') (hh : Heap E w) : HoldsOff E w' u sg b d :=
  have hF := hg.frozen h.lock
  ⟨(hg.owned sg h.lock).1, hF.fullBut hh h.full, hF.counts h.counts, by rw [hF.tables, hF.table, h.last]⟩

theorem HoldsBin.stable (h : HoldsBin E w u key tab) (hg : Rely E u w w') (hh : Heap E w) :
    HoldsBin E w' u key tab :=
  ⟨h.holds.stable hg hh, h.table.trans (hg.frozen h.holds.lock).table.symm⟩

/-! ## Snapshots -/

theorem Absent.mono (h : Absent w o k) (hp : ∀ x, w.past o x → w'.past o x) : Absent w' o k :=
  h.imp fun x hx => hx.imp_left (hp x)

theorem Sees.mono (h : Sees w o e) (hc : Common w w') (hh : Heap E w)
    (hp : ∀ x, w.past o x → w'.past o x) (hn : w'.past o w'.s) : Sees w' o e := by
  rcases h with h | ⟨hlt, hk, x, hx, heq⟩
  · exact (hc.live e h).imp_right fun ⟨hk, hv⟩ => ⟨(hh.lt h).trans_le hc.fresh, hk, _, hn, hv.symm⟩
  · obtain ⟨hk', hv⟩ := hc.retired _ hlt hk
    exact .inr ⟨hlt.trans_le hc.fresh, hk', x, hp x hx, heq.trans hv.symm⟩

theorem Common.table_le (hc : Common w w') : w.mem.table ≤ w'.mem.table :=
  hc.table.elim (fun h => h.ge) fun h => h.1.le

theorem Snap.mono (h : Snap E w o tab) (hc : Common w w') (hh : Heap E w)
    (hp : ∀ x, w.past o x → w'.past o x) (hn : w'.past o w'.s) : Snap E w' o tab := by
  have hsees : ∀ {e}, Sees w o e → Sees w' o e := fun h => h.mono hc hh hp hn
  rcases h with rfl | ⟨hlt, hall, habs⟩
  · refine hc.table.imp (fun h => h.symm) fun ⟨hlt, hs, hb⟩ => ⟨hlt, fun i e he => ?_, fun k hk => ?_⟩
    · rw [hb] at he
      exact hsees (.inl (hh.live_of_mem he))
    · rw [Mem.bin, hb, hc.length _ le_rfl] at hk
      exact ⟨_, hn, hs ▸ hh.none_of_lacks hk⟩
  · refine .inr ⟨hlt.trans_le hc.table_le, fun i e he => ?_, fun k hk => ?_⟩
    · rw [hc.stale _ hlt] at he
      exact hsees (hall i e he)
    · rw [Mem.bin, hc.stale _ hlt, hc.length _ hlt.le] at hk
      exact (habs k hk).mono hp

theorem Snap.le (h : Snap E w o tab) : tab ≤ w.mem.table := h.elim le_of_eq fun h => h.1.le

/-- The entries read from a snapshot, and the keys missing there. -/
theorem Snap.read (h : Snap E w o tab) (hh : Heap E w) (hn : w.past o w.s) (i : ℕ) :
    (∀ e ∈ w.mem.bins tab i, Sees w o e) ∧
      ∀ k, index (hash E k) (w.mem.length tab) = i → Lacks k (w.mem.bins tab i) → Absent w o k := by
  rcases h with rfl | ⟨-, hall, habs⟩
  · refine ⟨fun e he => .inl (hh.live_of_mem he), ?_⟩
    rintro k rfl hl
    exact ⟨_, hn, hh.none_of_lacks hl⟩
  · refine ⟨hall i, ?_⟩
    rintro k rfl hl
    exact habs k hl

/-- A value read from an entry is one the key had. -/
theorem Sees.read (h : Sees w o e) (hh : Heap E w) (hn : w.past o w.s) :
    ∃ x, w.past o x ∧ x e.key = w.mem.value e.addr := by
  rcases h with h | ⟨-, -, h⟩
  · exact ⟨_, hn, (hh.live e h).1.symm⟩
  · exact h

/-! ## The threads -/

section Stable
variable (hg : Rely E u w w') (hh : Heap E w) (hn : ∀ o, w'.past o w'.s)
include hg

theorem Formed.stable (h : Formed E w l) : Formed E w' l := h.mono hg.common.fresh hg.common.chain

theorem past_mono : ∀ x, w.past u x → w'.past u x := fun x => hg.past x

theorem NewEntry.stable {f : Bin K} (h : NewEntry E w u key value e f)
    (hl : w.mem.lock (segment (hash E key)) = some u) (hh : Heap E w) :
    NewEntry E w' u key value e f := by
  obtain ⟨hk, hv⟩ := hg.priv _ h.formed.1.2.1 h.priv
  exact ⟨h.keyed, h.bin.trans ((hg.frozen hl).bin hh rfl).symm, h.lacks, h.formed.stable hg, hk,
    hv.trans h.value⟩

theorem Copy.stable {q c : Entry K} (h : Copy w u q c) (hc : c.addr < w.mem.fresh)
    (hs : w'.s q.key = w.s q.key) : Copy w' u q c := by
  obtain ⟨hk, hv⟩ := hg.priv _ hc h.priv
  exact ⟨h.keyed, hk, hv.trans (h.value.trans hs.symm)⟩

include hh

theorem Sees.stable (hn : ∀ o, w'.past o w'.s) (h : Sees w u e) : Sees w' u e :=
  h.mono hg.common hh (past_mono hg) (hn _)

theorem Snap.stable (hn : ∀ o, w'.past o w'.s) (h : Snap E w u tab) : Snap E w' u tab :=
  h.mono hg.common hh (past_mono hg) (hn _)

/-- Nobody moves or retires an entry of a segment but its holder. -/
theorem Live.stable (h : Live w e) (hl : w.mem.lock (segment (hash E e.key)) = some u) : Live w' e :=
  ((hg.frozen hl).live_iff hh (hh.key_segment h)).mpr h

theorem GetAt.stable (hn : ∀ o, w'.past o w'.s) {p : Get K V} (h : GetAt E w u key p) :
    GetAt E w' u key p := by
  have hunmet : ∀ {f e}, Unmet E w key f e → Unmet E w' key f e :=
    fun h he => (h he).imp_left (Formed.stable hg)
  cases p with
  | table => trivial
  | first tab => exact Snap.stable hg hh hn h
  | value f e => exact ⟨h.1, Sees.stable hg hh hn h.2⟩
  | lock f e => exact hunmet h
  | retable f e => exact ⟨hunmet h.1, h.2.stable hg hh⟩
  | refirst f e tab => exact ⟨hunmet h.1, h.2.stable hg hh⟩
  | revalue e => exact ⟨h.1.stable hg hh, Live.stable hg hh h.2.1 (h.2.2 ▸ h.1.lock), h.2.2⟩
  | unlock r => exact ⟨h.1.stable hg hh, h.2.imp fun x hx => hx.imp_left (past_mono hg x)⟩

theorem PutAt.stable {p : Put K V} (h : PutAt E w u key value p) : PutAt E w' u key value p := by
  have hst : w'.st u = w.st u := hg.st
  cases p with
  | lock => exact hst.trans h
  | table => exact ⟨hst.trans h.1, h.2.stable hg hh⟩
  | first tab => exact ⟨hst.trans h.1, h.2.stable hg hh⟩
  | old e =>
    obtain ⟨hp, hl, he, heq⟩ := h
    exact ⟨hst.trans hp, hl.stable hg hh, Live.stable hg hh he (heq ▸ hl.lock), heq⟩
  | value e r =>
    obtain ⟨hp, hl, he, heq, hr⟩ := h
    have hF := hg.frozen hl.lock
    exact ⟨hst.trans hp, hl.stable hg hh, Live.stable hg hh he (heq ▸ hl.lock), heq,
      hr.trans (hF.s key rfl).symm⟩
  | new tab f =>
    obtain ⟨hp, hl, hf, hlack⟩ := h
    have hl' := hl.stable hg hh
    have hF := hg.frozen hl.holds.lock
    refine ⟨hst.trans hp, hl', ?_, hlack⟩
    rw [hf, hl'.table, hF.bin hh rfl, ← hl'.table, hl.table]
  | store tab l =>
    obtain ⟨hp, hl, e, f, hlf, hnew⟩ := h
    exact ⟨hst.trans hp, hl.stable hg hh, e, f, hlf, hnew.stable hg hl.holds.lock hh⟩
  | count tab => exact ⟨hst.trans h.1, h.2.stable hg hh⟩
  | max tab n => exact hst.trans h
  | threshold tab n | votes tab n | vote tab n | voteStore tab n v | voted tab n v | unlock r =>
    exact ⟨hst.trans h.1, h.2.stable hg hh⟩

theorem Found.stable {f next : Bin K} (h : Found E w key f e next)
    (hl : w.mem.lock (segment (hash E key)) = some u) : Found E w' key f e next :=
  ⟨h.keyed, h.bin.trans ((hg.frozen hl).bin hh rfl).symm, h.split⟩

theorem Cloned.stable {p head : Bin K} (h : Cloned E w u key p e head)
    (hl : w.mem.lock (segment (hash E key)) = some u) : Cloned E w' u key p e head := by
  have hF := hg.frozen hl
  obtain ⟨hkey, hnone, hform, pre, rest, clones, next, hbin, hp, hhead, hcopy⟩ := h
  refine ⟨hkey, (hF.s key rfl).trans hnone, hform.stable hg, pre, rest, clones, next, (hF.bin hh rfl).trans hbin, hp, hhead, ?_⟩
  refine (List.forall₂_iff_get.mp hcopy).elim fun hlen hget => List.forall₂_iff_get.mpr ⟨hlen, ?_⟩
  intro j h₁ h₂
  have hmem : clones.get ⟨j, h₂⟩ ∈ head := hhead ▸ List.mem_append_left _ (List.get_mem ..)
  have hq : pre.reverse.get ⟨j, h₁⟩ ∈ w.mem.bin E w.mem.table key :=
    hbin ▸ List.mem_append_left _ (List.mem_reverse.mp (List.get_mem ..))
  refine (hget j h₁ h₂).stable hg (hform.lt hmem) (hF.s _ ?_)
  have hlive := hh.live_of_mem hq
  rw [← hh.key_segment hlive, hh.segment_mod hq, hh.cap.index_mod]

theorem RemoveAt.stable {v : Option V} {p : Remove K V} (h : RemoveAt E w u key v p) :
    RemoveAt E w' u key v p := by
  have hst : w'.st u = w.st u := hg.st
  cases p with
  | lock => exact hst.trans h
  | table => exact ⟨hst.trans h.1, h.2.stable hg hh⟩
  | first tab => exact ⟨hst.trans h.1, h.2.stable hg hh⟩
  | old tab f e next =>
    obtain ⟨hp, hl, hf⟩ := h
    exact ⟨hst.trans hp, hl.stable hg hh, hf.stable hg hh hl.holds.lock⟩
  | null tab f e next r =>
    obtain ⟨hp, hl, hf, hr, hv⟩ := h
    have hs := (hg.frozen hl.holds.lock).s key rfl
    exact ⟨hst.trans hp, hl.stable hg hh, hf.stable hg hh hl.holds.lock, hr.trans hs.symm, hs ▸ hv⟩
  | clone tab p e head r =>
    obtain ⟨hd, hl, ht, hc⟩ := h
    exact ⟨hst.trans hd, hl.stable hg hh, ht.trans (hg.frozen hl.lock).table.symm,
      hc.stable hg hh hl.lock⟩
  | count r | unlock r => exact ⟨hst.trans h.1, h.2.stable hg hh⟩

/-- To whoever has all locks nothing changes. -/
theorem Rely.all_frozen (hl : HoldsAll E w u) :
    w'.mem.bins = w.mem.bins ∧ w'.mem.length = w.mem.length ∧ w'.mem.table = w.mem.table ∧
      w'.mem.tables = w.mem.tables ∧ w'.s = w.s ∧ (∀ e, Live w' e ↔ Live w e) ∧
      ∀ e, Live w e → w'.mem.value e.addr = w.mem.value e.addr := by
  have hF : ∀ j < concurrencyLevel, Frozen E w w' j := fun j hj => hg.frozen (hl j hj).1
  have h₀ := hF 0 (by decide)
  refine ⟨funext fun id => ?_, h₀.length, h₀.table, h₀.tables,
    funext fun k => (hF _ (segment_lt _)).s k rfl, fun e => (hF _ (segment_lt _)).live_iff hh rfl,
    fun e he => (hF _ (segment_lt _)).value e he rfl⟩
  by_cases hid : id = w.mem.table
  · subst hid
    exact funext fun i => (hF _ (Nat.mod_lt i (by decide))).slots i rfl
  · exact h₀.others id hid

theorem Copied.stable {P : Entry K → Prop} (h : Copied E w u tab P)
    (hl : HoldsAll E w u) : Copied E w' u tab P := by
  obtain ⟨hb, hlen, -, -, hs, hlive, hval⟩ := hg.all_frozen hh hl
  refine ⟨fun i => ?_, fun i c hc => ?_, fun e he => ?_⟩
  · obtain ⟨h₁, h₂, h₃⟩ := h.slot i
    exact ⟨hb ▸ h₁.stable hg, by rwa [hb, hlen], hb ▸ h₃⟩
  · rw [hb] at hc
    obtain ⟨hv, hk, hP⟩ := h.old i c hc
    rw [hs, hlive]
    rcases hk with hk | hk
    · exact ⟨(hval c hk).trans hv, .inl hk, hP⟩
    · obtain ⟨hk', hv'⟩ := hg.priv _ ((h.slot i).formed.lt hc) hk
      exact ⟨hv'.trans hv, .inr hk', hP⟩
  · rw [hb, hlen]
    exact h.all e he

theorem ResizeAt.stable {p : Resize K} (h : ResizeAt E w u p) : ResizeAt E w' u p := by
  have hhold : ∀ {j}, Holds E w u j → Holds E w' u j := fun h => h.stable hg hh
  have hall : HoldsAll E w u → HoldsAll E w' u := fun hl j hj =>
    ⟨(hg.owned _ (hl j hj).1).1, (hg.frozen (hl j hj).1).tidy hh (hl j hj).2⟩
  have hbefore : HoldsAll E w u → Before w' = Before w := fun hl => by
    obtain ⟨hb, -, ht, -⟩ := hg.all_frozen hh hl
    funext i e
    rw [Before, Before, hb, ht]
  have hbuild : ∀ {o n}, HoldsAll E w u → Building w o n → Building w' o n := by
    rintro o n hl ⟨h₁, h₂, h₃, h₄, h₅⟩
    obtain ⟨-, hlen, ht, hts, -⟩ := hg.all_frozen hh hl
    exact ⟨h₁.trans ht.symm, ht ▸ h₂, hts ▸ h₃, by rwa [hlen, ht], by rwa [hlen, ht]⟩
  have hclone : ∀ {i n p l}, HoldsAll E w u → Cloning E w u i n p l → Cloning E w' u i n p l := by
    rintro i n p l hl ⟨hlt, hlast, pre, rest, hbin, hp, hc⟩
    obtain ⟨hbins, hlen, ht, -⟩ := hg.all_frozen hh hl
    refine ⟨by rwa [hlen, ht], hlast, pre, rest, by rwa [hbins, ht], hp, ?_⟩
    rw [hbefore hl]
    exact hc.stable hg hh hl
  cases p with
  | lock i tab => exact ⟨h.1, fun j hj => hhold (h.2 j hj)⟩
  | test i tab => exact ⟨h.1, fun j hj => hhold (h.2 j hj)⟩
  | unlock i => exact fun j hj => hhold (h j hj)
  | votes | table | max => exact fun j hj => hhold (h j hj)
  | new old =>
    obtain ⟨hl, ho, hlt⟩ := h
    have hF := hg.frozen (hl 0 (by decide)).lock
    exact ⟨fun j hj => hhold (hl j hj), ho.trans hF.table.symm, by rwa [hF.length, hF.table]⟩
  | bin i old new =>
    obtain ⟨hl, hb, hc⟩ := h
    exact ⟨hall hl, hbuild hl hb, hbefore hl ▸ hc.stable hg hh hl⟩
  | clone i old new p last =>
    obtain ⟨hl, hb, hc, hne⟩ := h
    exact ⟨hall hl, hbuild hl hb, hclone hl hc, hne⟩
  | link i old new p last e =>
    obtain ⟨hl, hb, hc, hne, ⟨q, hq, hcopy⟩, hform⟩ := h
    obtain ⟨hbins, hlen, -, -, hs, -⟩ := hg.all_frozen hh hl
    refine ⟨hall hl, hbuild hl hb, hclone hl hc, hne, ⟨q, hq, ?_⟩, ?_⟩
    · exact hcopy.stable hg hform.1.2.1 (by rw [hs])
    · rw [hbins, hlen]
      exact hform.stable hg

omit hh in
theorem Emptied.stable {s : ℕ} (h : Emptied w s i) (hl : w.mem.lock s = some u) : Emptied w' s i := by
  have hF := hg.frozen hl
  intro j hj hs
  rw [hF.table, hF.slots j hs]
  exact h j hj hs

theorem ClearAt.stable {s : ℕ} {p : Clear K} (h : ClearAt E w u s p) : ClearAt E w' u s p := by
  have hclear : ∀ {tab i}, Clearing w u s tab i → Clearing w' u s tab i := by
    rintro tab i ⟨hl, ht, hlast, hs, hlt⟩
    have hF := hg.frozen hl
    exact ⟨(hg.owned _ hl).1, ht.trans hF.table.symm, by rw [hF.tables, hF.table, hlast], hs, by rwa [hF.length, hF.table]⟩
  cases p with
  | lock => trivial
  | table => exact Holds.stable h hg hh
  | bin tab i => exact ⟨hclear h.1, h.2.stable hg h.1.lock⟩
  | entry tab i l =>
    obtain ⟨hc, he, pre, hbin, hpre⟩ := h
    have hF := hg.frozen hc.lock
    refine ⟨hclear hc, he.stable hg hc.lock, pre, ?_, fun e hmem => ?_⟩
    · rw [hF.table, hF.slots i hc.slot, hbin]
    · have hmem' : e ∈ w.mem.bins w.mem.table i := hbin ▸ List.mem_append_left _ hmem
      rw [hF.s _ (by rw [← hh.key_segment (hh.live_of_mem hmem'), hh.segment_mod hmem', hc.slot])]
      exact hpre e hmem
  | count tab i => exact ⟨hclear h.1, h.2.stable hg h.1.lock⟩
  | unlock =>
    obtain ⟨hl, hlast, he, hc⟩ := h
    have hF := hg.frozen hl
    refine ⟨(hg.owned _ hl).1, by rw [hF.tables, hF.table, hlast], ?_, hF.count.trans hc⟩
    rw [hF.length, hF.table]
    exact he.stable hg hl

theorem CountAt.stable {s : ℕ} {p : Count} (h : CountAt E w u s p) : CountAt E w' u s p := by
  cases p with
  | lock => trivial
  | read | unlock n => exact Holds.stable h hg hh

theorem ContainsAt.stable {s : ℕ} {p : Contains K} (h : ContainsAt E w u s p) :
    ContainsAt E w' u s p := by
  cases p with
  | lock | bin tab i | entry tab i l => trivial
  | table | unlock tab => exact Holds.stable h hg hh

theorem ReserveAt.stable {p : Reserve} (h : ReserveAt E w u p) : ReserveAt E w' u p := by
  cases p with
  | lock => trivial
  | table | threshold tab | unlock tab n => exact Holds.stable h hg hh

theorem IterateAt.stable {p : Iterate} (h : IterateAt E w u p) : IterateAt E w' u p := by
  cases p with
  | lock | value b | bin b => trivial
  | synchLock i tab => exact h
  | table | unlock tab => exact Holds.stable h hg hh
  | synchUnlock i tab => exact ⟨h.1, h.2.stable hg hh⟩

theorem At.stable (hn : ∀ o, w'.past o w'.s) {p : Pc K V} (h : At E w u p) : At E w' u p := by
  have hst : w'.st u = w.st u := hg.st
  cases p with
  | idle => exact hst.trans h
  | get key p => exact ⟨hst.trans h.1, GetAt.stable hg hh hn h.2⟩
  | put key value p => exact PutAt.stable hg hh h
  | remove key value p => exact RemoveAt.stable hg hh h
  | resize n p =>
    refine ⟨?_, ResizeAt.stable hg hh h.2⟩
    cases n with
    | none => exact h.1.imp fun o ho => hst.trans ho
    | some n => exact hst.trans h.1
  | clear s p => exact ⟨hst.trans h.1, h.2.1, ClearAt.stable hg hh h.2.2⟩
  | count empty s c p => exact ⟨hst.trans h.1, h.2.1, CountAt.stable hg hh h.2.2⟩
  | contains value s p => exact ⟨hst.trans h.1, h.2.1, ContainsAt.stable hg hh h.2.2⟩
  | reserve n p => exact ⟨hst.trans h.1, ReserveAt.stable hg hh h.2⟩
  | iterator p => exact ⟨hst.trans h.1, IterateAt.stable hg hh h.2⟩

end Stable

end Cds.ConcurrentHashMap
