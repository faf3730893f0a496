import CdsBenchmarks.HashMap.HashMapDefs
import CdsBenchmarks.Concurrent.Chain
import Mathlib.Data.List.Nodup

/-! The hash map is linearizable. The entries of a bin form a chain that only grows at its
front, and only under the mutex of its segment, so that a traversal without the mutex walks
a suffix of the current chain. -/

namespace Cds.HashMap
open Concurrent Program

variable {T : Type*}

namespace Chains

/-- `s` is the abstract map and `st` the status of each thread's call; `chain` lists the
entries of each bin, and `priv` is the entry a thread is about to publish. -/
structure World (T : Type*) where
  mem : Mem T
  hist : List (T × Mark Op CInt)
  s : CInt → CInt
  st : T → Status Op CInt
  chain : CInt → List ℕ
  priv : T → Option ℕ

/-- The entries of the bin of `key`. -/
abbrev World.bin (w : World T) (key : CInt) : List ℕ := w.chain (index key)

structure Glob [DecidableEq T] (w : World T) : Prop where
  replay : finiteMap.Replay w.hist w.s w.st
  chain : ∀ i, Chain w.mem.next (w.mem.table i) (w.chain i)
  entry : ∀ i, ∀ a ∈ w.chain i, index (w.mem.key a) = i ∧ w.mem.hash a = hashKey (w.mem.key a) ∧
    w.mem.value a ≠ 0 ∧ a < w.mem.fresh
  keys : ∀ i, ((w.chain i).map w.mem.key).Nodup
  absent : ∀ k, (∀ a ∈ w.bin k, w.mem.key a ≠ k) → w.s k = 0
  present : ∀ k, ∀ a ∈ w.bin k, w.mem.key a = k → w.s k = w.mem.value a
  priv : ∀ t n, w.priv t = some n → n < w.mem.fresh ∧ ∀ i, n ∉ w.chain i
  privInj : ∀ t u n, w.priv t = some n → w.priv u = some n → t = u

/-- Entry `a` is the same in both memories. -/
def Agrees (m m' : Mem T) (a : ℕ) : Prop :=
  m'.key a = m.key a ∧ m'.hash a = m.hash a ∧ m'.value a = m.value a ∧ m'.next a = m.next a

def Owns (t : T) (w : World T) (k : CInt) : Prop := w.mem.segMutex (segment k) = some t

/-- None of the entries has the key. -/
def Lacks (w : World T) (k : CInt) (L : List ℕ) : Prop := ∀ a ∈ L, w.mem.key a ≠ k

/-- A call in progress that prepares no entry. -/
def Pending (t : T) (w : World T) (o : Op) : Prop := w.st t = .pending o ∧ w.priv t = none

/-- The unlocked traversal from `f` has come to `e` without meeting the key. -/
def Walked (w : World T) (k : CInt) (f : Option ℕ) (e : ℕ) : Prop :=
  ∃ pre seen rest, w.bin k = pre ++ (seen ++ e :: rest) ∧ f = (seen ++ e :: rest).head? ∧ Lacks w k seen

/-- The unlocked traversal from `f` has come to the end without meeting the key. -/
def WalkedAll (w : World T) (k : CInt) (f : Option ℕ) : Prop :=
  ∃ pre L, w.bin k = pre ++ L ∧ f = L.head? ∧ Lacks w k L

/-- The locked traversal has come to `e`. -/
def At (w : World T) (k : CInt) (e : ℕ) : Prop :=
  ∃ seen rest, w.bin k = seen ++ e :: rest ∧ Lacks w k seen

def Putting (t : T) (w : World T) (k v : CInt) : Prop :=
  w.st t = .pending (.put k v) ∧ v ≠ 0 ∧ Owns t w k

/-- The bin lacks the key, and `f` is its first entry. -/
def Missing (w : World T) (k : CInt) (f : Option ℕ) : Prop := f = (w.bin k).head? ∧ Lacks w k (w.bin k)

/-- Thread `t` prepares the entry `n` for key `k`. -/
def Prepares (t : T) (w : World T) (k : CInt) (n : ℕ) : Prop :=
  w.priv t = some n ∧ w.mem.key n = k ∧ w.mem.hash n = hashKey k

def Local (t : T) (w : World T) : Pc → Prop
  | .idle => w.st t = .idle ∧ w.priv t = none
  | .getFirst k => Pending t w (.get k)
  | .getEntry k f e => Pending t w (.get k) ∧ Walked w k f e
  | .getLock k f e => Pending t w (.get k) ∧ e = none ∧ WalkedAll w k f
  | .getReload k f e => Pending t w (.get k) ∧ Owns t w k ∧ e = none ∧ WalkedAll w k f
  | .getLocked k e => Pending t w (.get k) ∧ Owns t w k ∧ At w k e
  | .getUnlock k r => (w.st t = .done (.get k) r ∧ w.priv t = none) ∧ Owns t w k
  | .putLock k v => Pending t w (.put k v) ∧ v ≠ 0
  | .putFirst k v => Putting t w k v ∧ w.priv t = none
  | .putEntry k v f e => (Putting t w k v ∧ w.priv t = none) ∧ f = (w.bin k).head? ∧ At w k e
  | .putStore k v e old => (Putting t w k v ∧ w.priv t = none) ∧ e ∈ w.bin k ∧ w.mem.key e = k ∧
    old = w.mem.value e
  | .putNew k v f => (Putting t w k v ∧ w.priv t = none) ∧ Missing w k f
  | .putValue k v f n => Putting t w k v ∧ Missing w k f ∧ Prepares t w k n
  | .putNext k f n => ∃ v, Putting t w k v ∧ Missing w k f ∧ Prepares t w k n ∧ w.mem.value n = v
  | .putPublish k n => ∃ v, Putting t w k v ∧ Missing w k (w.mem.next n) ∧ Prepares t w k n ∧
    w.mem.value n = v
  | .putUnlock k r => ((∃ v, w.st t = .done (.put k v) r) ∧ w.priv t = none) ∧ Owns t w k
  | .ret r => (∃ o, w.st t = .done o r) ∧ w.priv t = none
  | .failed => True

structure Guar (t : T) (w w' : World T) : Prop where
  st : ∀ u, u ≠ t → w'.st u = w.st u
  priv : ∀ u, u ≠ t → w'.priv u = w.priv u
  grow : ∀ i, ∃ pre, w'.chain i = pre ++ w.chain i
  key : ∀ i, ∀ a ∈ w.chain i, w'.mem.key a = w.mem.key a
  own : ∀ u, u ≠ t → ∀ n, w.priv u = some n → Agrees w.mem w'.mem n
  locked : ∀ i u, u ≠ t → w.mem.segMutex i = some u → w'.mem.segMutex i = some u ∧
    w'.chain i = w.chain i ∧ ∀ a ∈ w.chain i, w'.mem.value a = w.mem.value a

section Stable
variable {t u : T} {w w' : World T} {k : CInt}

theorem Lacks.stable (hgu : Guar t w w') {L : List ℕ} (hL : ∀ a ∈ L, a ∈ w.bin k) (h : Lacks w k L) :
    Lacks w' k L := fun a ha => by
  rw [hgu.key _ a (hL a ha)]
  exact h a ha

theorem Walked.stable (hgu : Guar t w w') {f : Option ℕ} {e : ℕ} (h : Walked w k f e) :
    Walked w' k f e := by
  obtain ⟨pre, seen, rest, hbin, hf, hseen⟩ := h
  obtain ⟨new, hnew⟩ := hgu.grow (index k)
  refine ⟨new ++ pre, seen, rest, ?_, hf, hseen.stable hgu fun a ha => by simp [hbin, ha]⟩
  rw [List.append_assoc, ← hbin]
  exact hnew

theorem WalkedAll.stable (hgu : Guar t w w') {f : Option ℕ} (h : WalkedAll w k f) :
    WalkedAll w' k f := by
  obtain ⟨pre, L, hbin, hf, hL⟩ := h
  obtain ⟨new, hnew⟩ := hgu.grow (index k)
  refine ⟨new ++ pre, L, ?_, hf, hL.stable hgu fun a ha => by simp [hbin, ha]⟩
  rw [List.append_assoc, ← hbin]
  exact hnew

theorem Guar.bin_eq (hgu : Guar t w w') (hu : u ≠ t) (h : Owns u w k) : w'.bin k = w.bin k :=
  (hgu.locked _ u hu h).2.1

theorem Owns.stable (hgu : Guar t w w') (hu : u ≠ t) (h : Owns u w k) : Owns u w' k :=
  (hgu.locked _ u hu h).1

theorem At.stable (hgu : Guar t w w') (hu : u ≠ t) (ho : Owns u w k) {e : ℕ} (h : At w k e) :
    At w' k e := by
  obtain ⟨seen, rest, hbin, hseen⟩ := h
  exact ⟨seen, rest, (hgu.bin_eq hu ho).trans hbin, hseen.stable hgu fun a ha => by simp [hbin, ha]⟩

theorem Missing.stable (hgu : Guar t w w') (hu : u ≠ t) (ho : Owns u w k) {f : Option ℕ}
    (h : Missing w k f) : Missing w' k f := by
  unfold Missing
  rw [hgu.bin_eq hu ho]
  exact ⟨h.1, h.2.stable hgu fun _ ha => ha⟩

theorem Prepares.stable (hgu : Guar t w w') (hu : u ≠ t) {n : ℕ} (h : Prepares u w k n) :
    Prepares u w' k n := by
  obtain ⟨hkey, hhash, -⟩ := hgu.own u hu n h.1
  exact ⟨(hgu.priv u hu).trans h.1, hkey.trans h.2.1, hhash.trans h.2.2⟩

theorem Pending.stable (hgu : Guar t w w') (hu : u ≠ t) {o : Op} (h : Pending u w o) : Pending u w' o :=
  ⟨(hgu.st u hu).trans h.1, (hgu.priv u hu).trans h.2⟩

theorem Putting.stable (hgu : Guar t w w') (hu : u ≠ t) {v : CInt} (h : Putting u w k v) :
    Putting u w' k v :=
  ⟨(hgu.st u hu).trans h.1, h.2.1, h.2.2.stable hgu hu⟩

theorem Local.stable {l : Pc} (hu : u ≠ t) (hl : Local u w l) (hgu : Guar t w w') : Local u w' l := by
  have hst := hgu.st u hu
  have hpriv := hgu.priv u hu
  cases l with
  | idle | ret => simpa only [Local, hst, hpriv] using hl
  | getFirst => exact Pending.stable hgu hu hl
  | getEntry => exact ⟨hl.1.stable hgu hu, hl.2.stable hgu⟩
  | getLock => exact ⟨hl.1.stable hgu hu, hl.2.1, hl.2.2.stable hgu⟩
  | getReload => exact ⟨hl.1.stable hgu hu, hl.2.1.stable hgu hu, hl.2.2.1, hl.2.2.2.stable hgu⟩
  | getLocked => exact ⟨hl.1.stable hgu hu, hl.2.1.stable hgu hu, hl.2.2.stable hgu hu hl.2.1⟩
  | getUnlock | putUnlock => exact ⟨by simpa only [hst, hpriv] using hl.1, hl.2.stable hgu hu⟩
  | putLock => exact ⟨hl.1.stable hgu hu, hl.2⟩
  | putFirst => exact ⟨hl.1.stable hgu hu, hpriv.trans hl.2⟩
  | putEntry =>
    obtain ⟨⟨hp, hn⟩, hf, hat⟩ := hl
    exact ⟨⟨hp.stable hgu hu, hpriv.trans hn⟩, by rw [hgu.bin_eq hu hp.2.2, hf],
      hat.stable hgu hu hp.2.2⟩
  | putStore k v e old =>
    obtain ⟨⟨hp, hn⟩, he, hkey, hold⟩ := hl
    refine ⟨⟨hp.stable hgu hu, hpriv.trans hn⟩, by rwa [hgu.bin_eq hu hp.2.2], ?_, ?_⟩
    · rw [hgu.key _ e he, hkey]
    · rw [(hgu.locked _ u hu hp.2.2).2.2 e he, hold]
  | putNew =>
    obtain ⟨⟨hp, hn⟩, hm⟩ := hl
    exact ⟨⟨hp.stable hgu hu, hpriv.trans hn⟩, hm.stable hgu hu hp.2.2⟩
  | putValue => exact ⟨hl.1.stable hgu hu, hl.2.1.stable hgu hu hl.1.2.2, hl.2.2.stable hgu hu⟩
  | putNext k f n =>
    obtain ⟨v, hp, hm, hn, hv⟩ := hl
    exact ⟨v, hp.stable hgu hu, hm.stable hgu hu hp.2.2,
      hn.stable hgu hu, by rw [(hgu.own u hu n hn.1).2.2.1, hv]⟩
  | putPublish k n =>
    obtain ⟨v, hp, hm, hn, hv⟩ := hl
    refine ⟨v, hp.stable hgu hu, ?_, hn.stable hgu hu, by rw [(hgu.own u hu n hn.1).2.2.1, hv]⟩
    rw [(hgu.own u hu n hn.1).2.2.2]
    exact hm.stable hgu hu hp.2.2
  | failed => trivial

end Stable

variable {t : T} {w : World T} {k v : CInt}

theorem Guar.refl (t : T) (w : World T) : Guar t w w where
  st _ _ := rfl
  priv _ _ := rfl
  grow _ := ⟨[], rfl⟩
  key _ _ _ := rfl
  own _ _ _ _ := ⟨rfl, rfl, rfl, rfl⟩
  locked _ _ _ h := ⟨h, rfl, fun _ _ => rfl⟩

theorem local_getWalk (hp : Pending t w (.get k)) (pre seen rest : List ℕ)
    (hbin : w.bin k = pre ++ (seen ++ rest)) (hseen : Lacks w k seen) :
    Local t w (getWalk k (seen ++ rest).head? rest.head?) := by
  cases rest with
  | nil => exact ⟨hp, rfl, pre, seen, by simpa using hbin, by simp, hseen⟩
  | cons e rest => exact ⟨hp, pre, seen, rest, hbin, rfl, hseen⟩

theorem local_putWalk (hp : Putting t w k v ∧ w.priv t = none) (seen rest : List ℕ)
    (hbin : w.bin k = seen ++ rest) (hseen : Lacks w k seen) :
    Local t w (putWalk k v (w.bin k).head? rest.head?) := by
  cases rest with
  | nil => exact ⟨hp, rfl, by simpa [hbin] using hseen⟩
  | cons e rest => exact ⟨hp, rfl, seen, rest, hbin, hseen⟩

variable [DecidableEq T]

def assertions : Assertions T (Mem T) Pc (Mark Op CInt) (World T) where
  mem := World.mem
  hist := World.hist
  glob := Glob
  loc := Local
  guar := Guar

theorem found_iff (hg : Glob w) {e : ℕ} (he : e ∈ w.bin k) :
    found w.mem k e = true ↔ w.mem.key e = k := by
  have hhash := (hg.entry _ e he).2.1
  constructor
  · intro h
    simp only [found, Bool.and_eq_true, decide_eq_true_eq] at h
    exact h.2.symm
  · rintro rfl
    simp [found, hhash]

theorem Glob.table_eq (hg : Glob w) (k : CInt) : w.mem.table (index k) = (w.bin k).head? :=
  (hg.chain (index k)).head?

theorem Glob.nodup (hg : Glob w) (i : CInt) : (w.chain i).Nodup := (hg.keys i).of_map

theorem Glob.next_eq (hg : Glob w) {K L : List ℕ} {e : ℕ} (h : w.bin k = K ++ e :: L) :
    w.mem.next e = L.head? := by
  have hc := hg.chain (index k)
  rw [show w.chain (index k) = _ from h] at hc
  exact hc.next_eq

/-- The value stored in the entry that was found is the value of the key. -/
theorem Glob.current (hg : Glob w) {e : ℕ} (he : e ∈ w.bin k) (hf : found w.mem k e = true) :
    w.mem.value e = w.s k :=
  (hg.present k e he ((found_iff hg he).mp hf)).symm

theorem Lacks.snoc (hg : Glob w) {L : List ℕ} (h : Lacks w k L) {e : ℕ} (he : e ∈ w.bin k)
    (hf : ¬found w.mem k e = true) : Lacks w k (L ++ [e]) := by
  intro a ha
  rcases List.mem_append.mp ha with ha | ha
  · exact h a ha
  · rw [List.mem_singleton.mp ha]
    exact fun hkey => hf ((found_iff hg he).mpr hkey)

/-! ## Marks -/

theorem Glob.mark (hg : Glob w) {e : Mark Op CInt} {x : Status Op CInt}
    (hr : finiteMap.Replay (w.hist ++ [(t, e)]) w.s (Function.update w.st t x)) :
    Glob { w with hist := w.hist ++ [(t, e)], st := Function.update w.st t x } :=
  ⟨hr, hg.chain, hg.entry, hg.keys, hg.absent, hg.present, hg.priv, hg.privInj⟩

theorem Guar.mark (t : T) (w : World T) (h : List (T × Mark Op CInt)) (x : Status Op CInt) :
    Guar t w { w with hist := h, st := Function.update w.st t x } :=
  { Guar.refl t w with st := fun _ hu => Function.update_of_ne hu .. }

/-- A `get` takes effect. -/
theorem follows_lin_get (hg : Glob w) (hp : Pending t w (.get k)) {l : Pc} {r : CInt} (hr : r = w.s k)
    (hl : ∀ w' : World T, w'.mem = w.mem → w'.st t = .done (.get k) r → w'.priv t = none →
      Local t w' l) :
    assertions.Follows t w w.mem l [.lin] := by
  refine ⟨{ w with hist := _, st := Function.update w.st t (.done (.get k) r) }, rfl, rfl,
    hg.mark (hg.replay.lin hp.1 ⟨hr, rfl⟩), hl _ rfl (Function.update_self ..) hp.2, Guar.mark ..⟩

/-- A `get` takes effect under the mutex. -/
theorem follows_lin_locked (hg : Glob w) (hp : Pending t w (.get k)) (ho : Owns t w k) {r : CInt}
    (hr : r = w.s k) : assertions.Follows t w w.mem (.getUnlock k r) [.lin] := by
  refine follows_lin_get hg hp hr fun w' hmem hst hpriv => ⟨⟨hst, hpriv⟩, ?_⟩
  unfold Owns
  rw [hmem]
  exact ho

/-! ## The mutex of a segment -/

theorem follows_lock (hg : Glob w) {l l' : Pc} {m : Mem T} {es : List (Mark Op CInt)}
    (h : lock t w.mem k l = some (m, l', es))
    (hl : ∀ w' : World T, w'.st = w.st → w'.priv = w.priv → w'.chain = w.chain →
      w'.mem.key = w.mem.key → Owns t w' k → Local t w' l) : assertions.Follows t w m l' es := by
  unfold lock at h
  split at h
  · next hfree =>
    apply Assertions.follows_of_eq h
    refine ⟨{ w with mem := _ }, rfl, (List.append_nil _).symm,
      ⟨hg.replay, hg.chain, hg.entry, hg.keys, hg.absent, hg.present, hg.priv, hg.privInj⟩,
      hl _ rfl rfl rfl rfl (Function.update_self ..),
      { Guar.refl t w with locked := fun i u _ hi => ?_ }⟩
    have hne : i ≠ segment k := by
      rintro rfl
      rw [hfree] at hi
      cases hi
    exact ⟨(Function.update_of_ne hne ..).trans hi, rfl, fun _ _ => rfl⟩
  · cases h

theorem follows_unlock (hg : Glob w) (ho : Owns t w k) {l : Pc}
    (hl : ∀ w' : World T, w'.st = w.st → w'.priv = w.priv → Local t w' l) :
    assertions.Follows t w (unlock w.mem k) l [] := by
  refine ⟨{ w with mem := _ }, rfl, (List.append_nil _).symm,
    ⟨hg.replay, hg.chain, hg.entry, hg.keys, hg.absent, hg.present, hg.priv, hg.privInj⟩,
    hl _ rfl rfl, { Guar.refl t w with locked := fun i u hu hi => ?_ }⟩
  have hne : i ≠ segment k := by
    rintro rfl
    exact hu (Option.some.inj (hi.symm.trans ho))
  exact ⟨(Function.update_of_ne hne ..).trans hi, rfl, fun _ _ => rfl⟩

/-! ## The traversals -/

/-- The traversal under the lock goes on; at the end of the bin the `get` takes effect. -/
theorem follows_lockedWalk (hg : Glob w) (hp : Pending t w (.get k)) (ho : Owns t w k)
    (seen rest : List ℕ) (hbin : w.bin k = seen ++ rest) (hseen : Lacks w k seen) :
    assertions.Follows t w w.mem (lockedWalk k rest.head?)
    (if rest.head? = none then [.lin] else []) := by
  cases rest with
  | nil =>
    have habs : w.s k = 0 := hg.absent k fun a ha => hseen a (by simpa [hbin] using ha)
    exact follows_lin_locked hg hp ho habs.symm
  | cons e rest => exact Assertions.follows_quiet hg ⟨hp, ho, seen, rest, hbin, hseen⟩ (Guar.refl t w)

theorem follows_getFirst (hg : Glob w) (hp : Pending t w (.get k)) :
    assertions.Follows t w w.mem (getWalk k (w.mem.table (index k)) (w.mem.table (index k))) [] := by
  rw [hg.table_eq k]
  exact Assertions.follows_quiet hg (local_getWalk hp [] [] _ rfl (by simp [Lacks])) (Guar.refl t w)

theorem follows_getEntry (hg : Glob w) (hp : Pending t w (.get k)) {f : Option ℕ} {e : ℕ}
    (hw : Walked w k f e) {m : Mem T} {l : Pc} {es : List (Mark Op CInt)}
    (h : access t w.mem (.getEntry k f e) = some (m, l, es)) : assertions.Follows t w m l es := by
  obtain ⟨pre, seen, rest, hbin, rfl, hseen⟩ := hw
  have he : e ∈ w.bin k := by simp [hbin]
  simp only [access] at h
  split at h
  · next hf =>
    rw [if_pos (hg.entry _ e he).2.2.1] at h
    apply Assertions.follows_of_eq h
    exact follows_lin_get hg hp (hg.current he hf) fun w' _ hst hpriv => ⟨⟨_, hst⟩, hpriv⟩
  · next hf =>
    apply Assertions.follows_of_eq h
    have hloc := local_getWalk hp pre (seen ++ [e]) rest (by simpa using hbin) (hseen.snoc hg he hf)
    rw [hg.next_eq (K := pre ++ seen) (by simpa using hbin)]
    refine Assertions.follows_quiet hg ?_ (Guar.refl t w)
    rwa [List.append_assoc] at hloc

theorem follows_getReload (hg : Glob w) (hp : Pending t w (.get k)) (ho : Owns t w k) {f : Option ℕ}
    (hw : WalkedAll w k f) {m : Mem T} {l : Pc} {es : List (Mark Op CInt)}
    (h : access t w.mem (.getReload k f none) = some (m, l, es)) : assertions.Follows t w m l es := by
  obtain ⟨pre, L, hbin, rfl, hL⟩ := hw
  simp only [access, ne_eq, not_true_eq_false, false_or] at h
  split at h
  · apply Assertions.follows_of_eq h
    rw [hg.table_eq k]
    exact follows_lockedWalk hg hp ho [] _ rfl (by simp [Lacks])
  · next heq =>
    apply Assertions.follows_of_eq h
    -- the bin has not grown, so the traversal has seen all of it
    have hpre : pre = [] := by
      have hnodup : (pre ++ L).Nodup := hbin.symm ▸ hg.nodup (index k)
      refine Chain.eq_nil_of_head? hnodup ?_
      rw [← hbin, ← hg.table_eq k]
      exact (not_not.mp heq).symm
    subst hpre
    have habs : w.s k = 0 := hg.absent k fun a ha => hL a (by simpa [hbin] using ha)
    exact follows_lin_locked hg hp ho habs.symm

theorem follows_getLocked (hg : Glob w) (hp : Pending t w (.get k)) (ho : Owns t w k) {e : ℕ}
    (ha : At w k e) {m : Mem T} {l : Pc} {es : List (Mark Op CInt)}
    (h : access t w.mem (.getLocked k e) = some (m, l, es)) : assertions.Follows t w m l es := by
  obtain ⟨seen, rest, hbin, hseen⟩ := ha
  have he : e ∈ w.bin k := by simp [hbin]
  simp only [access] at h
  split at h
  · next hf =>
    apply Assertions.follows_of_eq h
    exact follows_lin_locked hg hp ho (hg.current he hf)
  · next hf =>
    apply Assertions.follows_of_eq h
    rw [hg.next_eq hbin]
    exact follows_lockedWalk hg hp ho (seen ++ [e]) rest (by simpa using hbin) (hseen.snoc hg he hf)

theorem follows_putEntry (hg : Glob w) (hp : Putting t w k v ∧ w.priv t = none) {e : ℕ}
    (ha : At w k e) {m : Mem T} {l : Pc} {es : List (Mark Op CInt)}
    (h : access t w.mem (.putEntry k v (w.bin k).head? e) = some (m, l, es)) :
    assertions.Follows t w m l es := by
  obtain ⟨seen, rest, hbin, hseen⟩ := ha
  have he : e ∈ w.bin k := by simp [hbin]
  simp only [access] at h
  split at h
  · next hf =>
    apply Assertions.follows_of_eq h
    exact Assertions.follows_quiet hg ⟨hp, he, (found_iff hg he).mp hf, rfl⟩ (Guar.refl t w)
  · next hf =>
    apply Assertions.follows_of_eq h
    rw [hg.next_eq hbin]
    exact Assertions.follows_quiet hg
      (local_putWalk hp (seen ++ [e]) rest (by simpa using hbin) (hseen.snoc hg he hf)) (Guar.refl t w)

/-! ## Writes -/

/-- Entries with the same key are the same. -/
theorem Glob.key_inj (hg : Glob w) {i : CInt} {a b : ℕ} (ha : a ∈ w.chain i) (hb : b ∈ w.chain i)
    (h : w.mem.key a = w.mem.key b) : a = b :=
  List.inj_on_of_nodup_map (hg.keys i) ha hb h

theorem follows_putStore (hg : Glob w) (hp : Putting t w k v ∧ w.priv t = none) {e : ℕ}
    (he : e ∈ w.bin k) (hkey : w.mem.key e = k) :
    assertions.Follows t w { w.mem with value := Function.update w.mem.value e v }
    (.putUnlock k (w.mem.value e)) [.lin] := by
  obtain ⟨⟨hst, hv, ho⟩, hpriv⟩ := hp
  have hold : w.mem.value e = w.s k := (hg.present k e he hkey).symm
  -- the entry is in no other bin
  have hother : ∀ i, ∀ a ∈ w.chain i, i ≠ index k → a ≠ e := by
    rintro i a ha hi rfl
    exact hi ((hg.entry i a ha).1.symm.trans (congrArg index hkey))
  refine ⟨{ w with mem := _, hist := _, s := Function.update w.s k v
                   st := Function.update w.st t (.done (.put k v) (w.mem.value e)) }, rfl, rfl,
    ⟨hg.replay.lin hst ⟨hold, rfl⟩, hg.chain, fun i a ha => ?_, hg.keys, fun k' hk' => ?_,
      fun k' a ha hk' => ?_, hg.priv, hg.privInj⟩, ⟨⟨⟨v, Function.update_self ..⟩, hpriv⟩, ho⟩, ?_⟩
  · obtain ⟨hidx, hhash, hne, hlt⟩ := hg.entry i a ha
    refine ⟨hidx, hhash, ?_, hlt⟩
    change Function.update w.mem.value e v a ≠ 0
    by_cases hae : a = e
    · rwa [hae, Function.update_self]
    · rwa [Function.update_of_ne hae]
  · have hne : k' ≠ k := by
      rintro rfl
      exact hk' e he hkey
    exact (Function.update_of_ne hne ..).trans (hg.absent k' hk')
  · change Function.update w.s k v k' = Function.update w.mem.value e v a
    by_cases hkk : k' = k
    · subst hkk
      rw [hg.key_inj ha he (hk'.trans hkey.symm), Function.update_self, Function.update_self]
    · have hae : a ≠ e := by
        rintro rfl
        exact hkk (hk'.symm.trans hkey)
      rw [Function.update_of_ne hkk, Function.update_of_ne hae]
      exact hg.present k' a ha hk'
  · refine
      { Guar.refl t w with
        st := fun _ hu => Function.update_of_ne hu ..
        own := fun u _ n hn => ?_
        locked := fun i u hu hi => ⟨hi, rfl, fun a ha => ?_⟩ }
    · have hne : n ≠ e := by
        rintro rfl
        exact (hg.priv u n hn).2 _ he
      exact ⟨rfl, rfl, Function.update_of_ne hne .., rfl⟩
    · have hi' : i ≠ index k := by
        rintro rfl
        exact hu (Option.some.inj (hi.symm.trans ho))
      exact Function.update_of_ne (hother i a ha hi') ..

/-- A thread prepares the entry `n`, which nothing else can reach. -/
theorem follows_prepare (hg : Glob w) {n : ℕ} {m : Mem T} {l : Pc}
    (hsame : ∀ a, a ≠ n → Agrees w.mem m a) (htable : m.table = w.mem.table)
    (hmutex : m.segMutex = w.mem.segMutex) (hfresh : w.mem.fresh ≤ m.fresh) (hn : n < m.fresh)
    (hchain : ∀ i, n ∉ w.chain i) (hothers : ∀ u, u ≠ t → w.priv u ≠ some n)
    (hl : Local t { w with mem := m, priv := Function.update w.priv t (some n) } l) :
    assertions.Follows t w m l [] := by
  have hin : ∀ i, ∀ a ∈ w.chain i, Agrees w.mem m a := fun i a ha =>
    hsame a fun h => hchain i (h ▸ ha)
  have hkeys : ∀ i, (w.chain i).map m.key = (w.chain i).map w.mem.key := fun i =>
    List.map_congr_left fun a ha => (hin i a ha).1
  have hpriv : ∀ u, u ≠ t → Function.update w.priv t (some n) u = w.priv u := fun u hu =>
    Function.update_of_ne hu ..
  refine ⟨{ w with mem := m, priv := Function.update w.priv t (some n) }, rfl, (List.append_nil _).symm,
    ⟨hg.replay, fun i => ?_, fun i a ha => ?_, fun i => ?_, fun k hk => ?_, fun k a ha hk => ?_,
      fun u n' hu => ?_, fun u₁ u₂ n' h₁ h₂ => ?_⟩, hl,
    fun _ _ => rfl, hpriv, fun _ => ⟨[], rfl⟩, fun i a ha => (hin i a ha).1,
    fun u hu n' hn' => hsame n' ?_,
    fun i u _ hi => ⟨by rwa [hmutex], rfl, fun a ha => (hin i a ha).2.2.1⟩⟩
  · change Chain m.next (m.table i) (w.chain i)
    rw [htable]
    exact (hg.chain i).congr fun b hb => (hin i b hb).2.2.2
  · obtain ⟨h₁, h₂, h₃, -⟩ := hin i a ha
    obtain ⟨hidx, hhash, hval, hlt⟩ := hg.entry i a ha
    change index (m.key a) = i ∧ m.hash a = hashKey (m.key a) ∧ m.value a ≠ 0 ∧ a < m.fresh
    rw [h₁, h₂, h₃]
    exact ⟨hidx, hhash, hval, Nat.lt_of_lt_of_le hlt hfresh⟩
  · change ((w.chain i).map m.key).Nodup
    rw [hkeys i]
    exact hg.keys i
  · refine hg.absent k fun a ha => ?_
    rw [← (hin _ a ha).1]
    exact hk a ha
  · change w.s k = m.value a
    rw [(hin _ a ha).2.2.1]
    exact hg.present k a ha ((hin _ a ha).1.symm.trans hk)
  · by_cases hut : u = t
    · subst hut
      obtain rfl : n = n' := by simpa using hu
      exact ⟨hn, hchain⟩
    · obtain ⟨hlt, hnot⟩ := hg.priv u n' ((hpriv u hut).symm.trans hu)
      exact ⟨Nat.lt_of_lt_of_le hlt hfresh, hnot⟩
  · by_cases ht₁ : u₁ = t <;> by_cases ht₂ : u₂ = t
    · rw [ht₁, ht₂]
    · subst ht₁
      obtain rfl : n = n' := by simpa using h₁
      exact absurd ((hpriv u₂ ht₂).symm.trans h₂) (hothers u₂ ht₂)
    · subst ht₂
      obtain rfl : n = n' := by simpa using h₂
      exact absurd ((hpriv u₁ ht₁).symm.trans h₁) (hothers u₁ ht₁)
    · exact hg.privInj _ _ n' ((hpriv u₁ ht₁).symm.trans h₁) ((hpriv u₂ ht₂).symm.trans h₂)
  · rintro rfl
    exact hothers u hu hn'

theorem follows_putNew (hg : Glob w) (hp : Putting t w k v ∧ w.priv t = none) {f : Option ℕ}
    (hm : Missing w k f) {m : Mem T} {l : Pc} {es : List (Mark Op CInt)}
    (h : access t w.mem (.putNew k v f) = some (m, l, es)) : assertions.Follows t w m l es := by
  simp only [access, Option.some.injEq, Prod.mk.injEq] at h
  obtain ⟨rfl, rfl, rfl⟩ := h
  have hchain : ∀ i, w.mem.fresh ∉ w.chain i := fun i hi => Nat.lt_irrefl _ (hg.entry i _ hi).2.2.2
  refine follows_prepare hg
    (fun a ha => ⟨Function.update_of_ne ha .., Function.update_of_ne ha .., rfl, rfl⟩)
    rfl rfl (Nat.le_succ _) (Nat.lt_succ_self _) hchain
    (fun u _ hu => Nat.lt_irrefl _ (hg.priv u _ hu).1)
    ⟨hp.1, ⟨hm.1, fun a ha => ?_⟩, Function.update_self .., Function.update_self ..,
      Function.update_self ..⟩
  have hne : a ≠ w.mem.fresh := fun heq => hchain _ (heq ▸ ha)
  exact (congrArg (· ≠ k) (Function.update_of_ne hne ..)).mpr (hm.2 a ha)

theorem follows_putValue (hg : Glob w) (hp : Putting t w k v) {f : Option ℕ} (hm : Missing w k f)
    {n : ℕ} (hn : Prepares t w k n) :
    assertions.Follows t w { w.mem with value := Function.update w.mem.value n v }
    (.putNext k f n) [] := by
  obtain ⟨hlt, hchain⟩ := hg.priv t n hn.1
  exact follows_prepare hg (fun a ha => ⟨rfl, rfl, Function.update_of_ne ha .., rfl⟩) rfl rfl
    (Nat.le_refl _) hlt
    hchain (fun u hu hu' => hu (hg.privInj _ _ _ hu' hn.1))
    ⟨v, hp, hm, ⟨Function.update_self .., hn.2⟩, Function.update_self ..⟩

theorem follows_putNext (hg : Glob w) (hp : Putting t w k v) {f : Option ℕ} (hm : Missing w k f)
    {n : ℕ} (hn : Prepares t w k n) (hv : w.mem.value n = v) :
    assertions.Follows t w { w.mem with next := Function.update w.mem.next n f }
    (.putPublish k n) [] := by
  obtain ⟨hlt, hchain⟩ := hg.priv t n hn.1
  refine follows_prepare hg (fun a ha => ⟨rfl, rfl, rfl, Function.update_of_ne ha ..⟩) rfl rfl
    (Nat.le_refl _) hlt
    hchain (fun u hu hu' => hu (hg.privInj _ _ _ hu' hn.1))
    ⟨v, hp, ⟨?_, hm.2⟩, ⟨Function.update_self .., hn.2⟩, hv⟩
  exact (Function.update_self ..).trans hm.1

theorem follows_putPublish (hg : Glob w) {n : ℕ} (hp : Putting t w k v)
    (hm : Missing w k (w.mem.next n)) (hn : Prepares t w k n) (hv : w.mem.value n = v) :
    assertions.Follows t w { w.mem with table := Function.update w.mem.table (index k) (some n) }
    (.putUnlock k 0) [.lin] := by
  obtain ⟨hst, hv0, ho⟩ := hp
  obtain ⟨hpriv, hkey, hhash⟩ := hn
  obtain ⟨hlt, hnot⟩ := hg.priv t n hpriv
  have habs : w.s k = 0 := hg.absent k hm.2
  let chain' := Function.update w.chain (index k) (n :: w.bin k)
  have hself : chain' (index k) = n :: w.bin k := Function.update_self ..
  have hne : ∀ {i}, i ≠ index k → chain' i = w.chain i := fun h => Function.update_of_ne h ..
  have hmem : ∀ {i a}, a ∈ chain' i ↔ a ∈ w.chain i ∨ i = index k ∧ a = n := by
    intro i a
    by_cases hi : i = index k
    · subst hi
      rw [hself, List.mem_cons]
      tauto
    · rw [hne hi]
      tauto
  refine ⟨{ w with mem := _, hist := _, s := Function.update w.s k v, chain := chain'
                   st := Function.update w.st t (.done (.put k v) 0)
                   priv := Function.update w.priv t none },
    rfl, rfl, ⟨hg.replay.lin hst ⟨habs.symm, rfl⟩, fun i => ?_, fun i a ha => ?_, fun i => ?_,
      fun k' hk' => ?_, fun k' a ha hk' => ?_, fun u n' hu => ?_, fun u₁ u₂ n' h₁ h₂ => ?_⟩,
    ⟨⟨⟨v, Function.update_self ..⟩, Function.update_self ..⟩, ho⟩, ?_⟩
  · change Chain w.mem.next (Function.update w.mem.table (index k) (some n) i) (chain' i)
    by_cases hi : i = index k
    · subst hi
      rw [hself, Function.update_self]
      exact (hg.chain (index k)).cons (hm.1.trans (hg.table_eq k).symm)
    · rw [hne hi, Function.update_of_ne hi]
      exact hg.chain i
  · rcases hmem.mp ha with ha | ⟨rfl, rfl⟩
    · exact hg.entry i a ha
    · exact ⟨congrArg index hkey, hhash.trans (congrArg hashKey hkey.symm),
        fun h => hv0 (hv.symm.trans h), hlt⟩
  · change ((chain' i).map w.mem.key).Nodup
    by_cases hi : i = index k
    · subst hi
      rw [hself, List.map_cons, List.nodup_cons]
      refine ⟨fun h => ?_, hg.keys _⟩
      -- the bin is that of the traversal, which has not found the key
      obtain ⟨a, ha, heq⟩ := List.mem_map.mp h
      exact hm.2 a ha (heq.trans hkey)
    · rw [hne hi]
      exact hg.keys i
  · have hkk : k' ≠ k := by
      rintro rfl
      exact hk' n (hmem.mpr (.inr ⟨rfl, rfl⟩)) hkey
    exact (Function.update_of_ne hkk ..).trans (hg.absent k' fun a ha => hk' a (hmem.mpr (.inl ha)))
  · change Function.update w.s k v k' = w.mem.value a
    rcases hmem.mp ha with ha' | ⟨-, rfl⟩
    · have hkk : k' ≠ k := by
        rintro rfl
        exact hm.2 a ha' hk'
      rw [Function.update_of_ne hkk]
      exact hg.present k' a ha' hk'
    · rw [← hk', hkey, Function.update_self, hv]
  · have hut : u ≠ t := by
      rintro rfl
      simp at hu
    have hu' : w.priv u = some n' := (Function.update_of_ne hut ..).symm.trans hu
    refine ⟨(hg.priv u n' hu').1, fun i hi => ?_⟩
    rcases hmem.mp hi with hi | ⟨-, rfl⟩
    · exact (hg.priv u n' hu').2 i hi
    · exact hut (hg.privInj _ _ _ hu' hpriv)
  · have hne' : ∀ {u}, Function.update w.priv t none u = some n' → w.priv u = some n' := by
      intro u hu
      by_cases hut : u = t
      · simp [hut] at hu
      · exact (Function.update_of_ne hut ..).symm.trans hu
    exact hg.privInj _ _ n' (hne' h₁) (hne' h₂)
  · refine
      { Guar.refl t w with
        st := fun _ hu => Function.update_of_ne hu ..
        priv := fun _ hu => Function.update_of_ne hu ..
        grow := fun i => ?_
        locked := fun i u hu hi => ⟨hi, hne ?_, fun _ _ => rfl⟩ }
    · by_cases hi : i = index k
      · exact ⟨[n], by rw [hi]; exact hself⟩
      · exact ⟨[], hne hi⟩
    · rintro rfl
      exact hu (Option.some.inj (hi.symm.trans ho))

theorem follows_ret (hg : Glob w) {o : Op} {r : CInt} (hst : w.st t = .done o r)
    (hpriv : w.priv t = none) : assertions.Follows t w w.mem .idle [.ret r] :=
  ⟨{ w with hist := _, st := Function.update w.st t .idle }, rfl, rfl, hg.mark (hg.replay.ret hst),
    ⟨Function.update_self .., hpriv⟩, Guar.mark ..⟩

omit [DecidableEq T] in
theorem local_entry {o : Op} (hst : w.st t = .pending o) (hpriv : w.priv t = none) :
    Local t w o.entry := by
  cases o with
  | get k =>
    by_cases hk : k ≠ 0
    · rw [show (Op.get k).entry = .getFirst k from if_pos hk]
      exact ⟨hst, hpriv⟩
    · rw [show (Op.get k).entry = .failed from if_neg hk]
      trivial
  | put k v =>
    by_cases hkv : k ≠ 0 ∧ v ≠ 0
    · rw [show (Op.put k v).entry = .putLock k v from if_pos hkv]
      exact ⟨⟨hst, hpriv⟩, hkv.2⟩
    · rw [show (Op.put k v).entry = .failed from if_neg hkv]
      trivial

theorem follows_call (hg : Glob w) (hl : Local t w .idle) (o : Op) :
    assertions.Follows t w w.mem o.entry [.call o] :=
  ⟨{ w with hist := _, st := Function.update w.st t (.pending o) }, rfl, rfl,
    hg.mark (hg.replay.call hl.1),
    local_entry (Function.update_self ..) hl.2, Guar.mark ..⟩

theorem follows_access (hg : Glob w) {l : Pc} (hl : Local t w l) {m : Mem T} {l' : Pc}
    {es : List (Mark Op CInt)} (h : access t w.mem l = some (m, l', es)) :
    assertions.Follows t w m l' es := by
  cases l with
  | idle | failed => simp [access] at h
  | getEntry k f e => exact follows_getEntry hg hl.1 hl.2 h
  | getLock k f e =>
    exact follows_lock hg h fun w' hst hpriv hchain hkey ho =>
      ⟨by simpa only [Pending, hst, hpriv] using hl.1, ho, hl.2.1, by
        simpa only [WalkedAll, Lacks, World.bin, hchain, hkey] using hl.2.2⟩
  | getReload k f e =>
    obtain ⟨hp, ho, rfl, hw⟩ := hl
    exact follows_getReload hg hp ho hw h
  | getLocked k e => exact follows_getLocked hg hl.1 hl.2.1 hl.2.2 h
  | putLock k v =>
    exact follows_lock hg h fun w' hst hpriv _ _ ho =>
      ⟨⟨hst ▸ hl.1.1, hl.2, ho⟩, hpriv ▸ hl.1.2⟩
  | putEntry k v f e =>
    obtain ⟨hp, rfl, ha⟩ := hl
    exact follows_putEntry hg hp ha h
  | putNew k v f => exact follows_putNew hg hl.1 hl.2 h
  | getFirst k => exact Assertions.follows_of_eq h (follows_getFirst hg hl)
  | getUnlock k r =>
    refine Assertions.follows_of_eq h (follows_unlock hg hl.2 fun w' hst hpriv => ?_)
    exact ⟨⟨_, (congrFun hst t).trans hl.1.1⟩, (congrFun hpriv t).trans hl.1.2⟩
  | putFirst k v =>
    apply Assertions.follows_of_eq h
    rw [hg.table_eq k]
    exact Assertions.follows_quiet hg (local_putWalk hl [] _ rfl (by simp [Lacks])) (Guar.refl t w)
  | putStore k v e old =>
    obtain ⟨hp, he, hkey, rfl⟩ := hl
    exact Assertions.follows_of_eq h (follows_putStore hg hp he hkey)
  | putValue k v f n => exact Assertions.follows_of_eq h (follows_putValue hg hl.1 hl.2.1 hl.2.2)
  | putNext k f n =>
    obtain ⟨v, hp, hm, hn, hv⟩ := hl
    exact Assertions.follows_of_eq h (follows_putNext hg hp hm hn hv)
  | putPublish k n =>
    obtain ⟨v, hp, hm, hn, hv⟩ := hl
    exact Assertions.follows_of_eq h (follows_putPublish hg hp hm hn hv)
  | putUnlock k r =>
    obtain ⟨⟨⟨v, hst⟩, hpriv⟩, ho⟩ := hl
    refine Assertions.follows_of_eq h (follows_unlock hg ho fun w' hst' hpriv' => ?_)
    exact ⟨⟨_, (congrFun hst' t).trans hst⟩, (congrFun hpriv' t).trans hpriv⟩
  | ret r =>
    obtain ⟨⟨o, hst⟩, hpriv⟩ := hl
    exact Assertions.follows_of_eq h (follows_ret hg hst hpriv)

theorem follows_step (hg : Glob w) {l : Pc} (hl : Local t w l) {a : Act} {m : Mem T} {l' : Pc}
    {es : List (Mark Op CInt)} (h : step t a w.mem l = some (m, l', es)) :
    assertions.Follows t w m l' es := by
  cases a with
  | call o =>
    simp only [step] at h
    split at h
    · next hidle =>
      subst hidle
      exact Assertions.follows_of_eq h (follows_call hg hl o)
    · cases h
  | run => exact follows_access hg hl h

def outline : Outline (program T) anyStep (fun _ => True) (World T) where
  toAssertions := assertions
  step hg hl hs _ _ := follows_step hg (hl _) hs
  stable hu _ _ hl hgu := hl.stable hu hgu

theorem holds_start :
    outline.Holds (T := T) ⟨hashMap T, [], fun _ => 0, fun _ => .idle, fun _ => [], fun _ => none⟩ []
    (start T) where
  mem := rfl
  hist := rfl
  glob :=
    { replay := .nil
      chain _ := rfl
      entry _ _ ha := absurd ha List.not_mem_nil
      keys _ := List.nodup_nil
      absent _ _ := rfl
      present _ _ ha := absurd ha List.not_mem_nil
      priv _ _ h := by cases h
      privInj _ _ _ h := by cases h }
  loc _ := ⟨rfl, rfl⟩

end Chains

/-- Every history of calls of `get` and `put` has a linearization. -/
theorem hashMap_linearizable {T : Type*} [DecidableEq T] {tr : List (T × Mark Op CInt)}
    {c : Config T (Mem T) Pc} (hrun : (program T).Run anyStep (start T) tr c) :
    Linearizable finiteMap tr := by
  obtain ⟨w, hw⟩ := Chains.outline.sound (fun _ => trivial) Chains.holds_start hrun trivial
  have hreplay := hw.glob.replay
  rw [show w.hist = tr from hw.hist] at hreplay
  exact hreplay.linearizable

/-- A `get` that misses the key, then finds the head of the bin changed by a `put` of a
negative key and goes through the bin again. -/
theorem hashMap_linearizable_changed_head : Linearizable finiteMap
    [(false, .call (.put 5 7)), (false, .lin), (false, .ret 0), (true, .call (.get (-11))),
      (false, .call (.put (-11) 8)), (false, .lin), (false, .ret 0), (true, .lin), (true, .ret 8)] := by
  have h₀ : (program Bool).Run anyStep (start Bool) [] (start Bool) := .start
  have h₁ := h₀.solo false [.call (.put 5 7), .run, .run, .run, .run, .run, .run, .run, .run] _ _ _ rfl
  have h₂ := h₁.solo true [.call (.get (-11)), .run, .run] _ _ _ rfl
  have h₃ := h₂.solo false [.call (.put (-11) 8), .run, .run, .run, .run, .run, .run, .run, .run,
    .run] _ _ _ rfl
  have h₄ := h₃.solo true [.run, .run, .run, .run, .run] _ _ _ rfl
  exact hashMap_linearizable h₄

end Cds.HashMap
